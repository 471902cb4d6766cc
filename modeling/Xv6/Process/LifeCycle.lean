import Xv6.Process.Forking

namespace Xv6.Process

open Function List Proc Run

/-!
# The life of a process

From `allocproc` to the `wait` that returns its pid.

* `Explained` — every event of the record is explained by those before it;
* `Inv` — what holds of the table and the record after every step;
* `Inv.same`, `Inv.alloc`, `Inv.freed`, `Inv.raise`, `Inv.exit` — what the steps do to
  it;
* `life_cycle` — pids, parents and the return of pids by `wait`, in every run.
-/

/-- `allocproc` took an entry. -/
def Event.isAlloc : Event → Bool
  | .alloc .. => true
  | _ => false

/-- How many processes were created. -/
def created (log : List Event) : Nat := log.countP Event.isAlloc

/-- Every event has what must come before it: `wait` returns the pid of a process that has exited
    and whose pid no `wait` has returned, to its creator, or to `init` (whose pid is 1) if the
    creator has exited; an entry is taken again when the process in it was returned by `wait` or
    not made. -/
def Explained : List Event → Prop
  | [] => True
  | e :: past => Explained past ∧
    match e with
    | .reap pid waiter => .exit pid ∈ past ∧ (∀ w, .reap pid w ∉ past) ∧
        ∃ i creator, .alloc i pid creator ∈ past ∧
          (waiter = creator ∨ waiter = 1 ∧ .exit creator ∈ past)
    | .alloc i pid _ => (∀ j c, .alloc j pid c ∉ past) ∧
        ∀ pid' c, .alloc i pid' c ∈ past → .fail pid' ∈ past ∨ ∃ w, .reap pid' w ∈ past
    | _ => True

/-- What holds of the table and the record. -/
structure Inv (s : Table) : Prop where
  next : s.nextpid.toNat = created s.log + 1
  range : ∀ {i pid c}, .alloc i pid c ∈ s.log → 0 < pid.toNat ∧ pid.toNat < s.nextpid.toNat
  uniq : ∀ {i j pid c d}, .alloc i pid c ∈ s.log → .alloc j pid d ∈ s.log → i = j ∧ c = d
  -- a process that is there was made and not yet returned by `wait`
  here : ∀ {i}, (s.proc i).kind ≠ .free → (∃ c, .alloc i (s.proc i).pid c ∈ s.log) ∧
    .fail (s.proc i).pid ∉ s.log ∧ ∀ w, .reap (s.proc i).pid w ∉ s.log
  gone : ∀ {i pid c}, .alloc i pid c ∈ s.log → (s.proc i).kind ≠ .free ∧ (s.proc i).pid = pid ∨
    .fail pid ∈ s.log ∨ ∃ w, .reap pid w ∈ s.log
  exited : ∀ {i}, (s.proc i).kind ≠ .free →
    (.exit (s.proc i).pid ∈ s.log ↔ (s.proc i).kind = .dead)
  old : ∀ {pid}, .fail pid ∈ s.log ∨ .exit pid ∈ s.log ∨ (∃ w, .reap pid w ∈ s.log) →
    pid.toNat < s.nextpid.toNat
  orphan : ∀ {i}, (s.proc i).kind = .free → (s.proc i).parent = none
  init : (s.proc initproc).kind = .alive ∧ (s.proc initproc).pid = 1
  -- the parent is the creator, or `init` after the creator has exited
  parent : ∀ {i j}, (s.proc i).parent = some j → (s.proc j).kind = .alive ∧
    ∀ c, .alloc i (s.proc i).pid c ∈ s.log → (s.proc j).pid = c ∨ j = initproc ∧ .exit c ∈ s.log
  child : ∀ {i}, i ≠ initproc → (s.proc i).kind = .alive ∨ (s.proc i).kind = .dead →
    (s.proc i).parent ≠ none
  named : ∀ {j np}, (s.pc j).child = some np → .alloc np (s.proc np).pid (s.proc j).pid ∈ s.log
  unborn : ∀ {j np}, s.pc j = .allocated np → (s.proc np).parent = none
  adopted : ∀ {j np}, s.pc j = .adopted np → (s.proc np).parent = some j
  explained : Explained s.log

variable {s s' : Table} {i j np z : Slot}
variable {e : Event} {p : Proc} {pc : Pc} {a : Act}

/-! ### The record -/

/-- At boot. -/
theorem Inv.start : Inv Table.start := by
  have hkind : ∀ i : Slot, (Table.start.proc i).kind = if i = initproc then .alive else .free := by
    intro i
    by_cases hi : i = initproc <;> simp [Table.start, hi, Proc.kind]
  have hpid : (Table.start.proc initproc).pid = 1 := by simp [Table.start]
  have hparent : ∀ i : Slot, (Table.start.proc i).parent = none := by
    intro i
    by_cases hi : i = initproc <;> simp [Table.start, hi]
  have hinit : ∀ {i : Slot}, (Table.start.proc i).kind ≠ .free → i = initproc := by
    intro i hi
    by_contra hne
    exact hi (by rw [hkind, if_neg hne])
  have hlog : ∀ e, e ∈ Table.start.log ↔ e = .alloc initproc 1 0 := fun e => mem_singleton
  constructor
  case next => rfl
  case range =>
    intro i pid c h
    cases (hlog _).mp h
    exact ⟨by decide, by decide⟩
  case uniq => simp_all
  case here => simp [*]
  case gone => simp_all
  case exited =>
    intro i hi
    obtain rfl := hinit hi
    simp [hlog, hkind]
  case old => simp [hlog]
  case orphan => exact fun _ => hparent _
  case init => exact ⟨by rw [hkind, if_pos rfl], hpid⟩
  case parent => simp [hparent]
  case child =>
    intro i hi hk
    rw [hkind, if_neg hi] at hk
    rcases hk with hk | hk <;> cases hk
  case named => rintro _ _ ⟨⟩
  case unborn => rintro _ _ ⟨⟩
  case adopted => rintro _ _ ⟨⟩
  case explained => simp [Table.start, Explained]

/-- Steps that change nothing of what `Inv` is about. -/
theorem Inv.same (h : Inv s) (hkind : ∀ i, (s'.proc i).kind = (s.proc i).kind)
    (hpid : ∀ i, (s'.proc i).pid = (s.proc i).pid)
    (hparent : ∀ i, (s'.proc i).parent = (s.proc i).parent) (hnext : s'.nextpid = s.nextpid)
    (hlog : s'.log = s.log)
    (hpc : ∀ i, s'.pc i = s.pc i ∨ (s'.pc i).child = none ∧ (s.proc i).kind = .alive) : Inv s' := by
  have hchild : ∀ {i np}, (s'.pc i).child = some np → s'.pc i = s.pc i := by grind
  constructor
  case next => rw [hnext, hlog]; exact h.next
  case range => rw [hnext, hlog]; exact h.range
  case uniq => rw [hlog]; exact h.uniq
  case here => intro i; rw [hkind, hpid, hlog]; exact h.here
  case gone => intro i pid c; rw [hkind, hpid, hlog]; exact h.gone
  case exited => intro i; rw [hkind, hpid, hlog]; exact h.exited
  case old => intro pid; rw [hlog, hnext]; exact h.old
  case orphan => intro i; rw [hkind, hparent]; exact h.orphan
  case init => rw [hkind, hpid]; exact h.init
  case parent => intro i j; rw [hparent, hkind, hpid, hpid, hlog]; exact h.parent
  case child => intro i; rw [hkind, hparent]; exact h.child
  case named =>
    intro j np hj
    rw [hpid, hpid, hlog]
    exact h.named (hchild hj ▸ hj)
  case unborn =>
    intro j np hj
    rw [hparent]
    have e : s'.pc j = s.pc j := @hchild j np (by rw [hj]; rfl)
    exact h.unborn (e ▸ hj)
  case adopted =>
    intro j np hj
    rw [hparent]
    have e : s'.pc j = s.pc j := @hchild j np (by rw [hj]; rfl)
    exact h.adopted (e ▸ hj)
  case explained => rw [hlog]; exact h.explained

/-- Events that are not about the life of a process. -/
theorem Inv.note (h : Inv s) (he : (∃ pid, e = .kill pid) ∨ ∃ pid, e = .fault pid) :
    Inv (s.note e) := by
  rcases he with ⟨pid, rfl⟩ | ⟨pid, rfl⟩
  all_goals
    constructor
    case next => exact h.next
    case explained => exact ⟨h.explained, trivial⟩
    case init => exact h.init
    all_goals simp only [Table.note, mem_cons, reduceCtorEq, false_or]
    case range => exact h.range
    case uniq => exact h.uniq
    case here => exact h.here
    case gone => exact h.gone
    case exited => exact h.exited
    case old => exact h.old
    case orphan => exact h.orphan
    case parent => exact h.parent
    case child => exact h.child
    case named => exact h.named
    case unborn => exact h.unborn
    case adopted => exact h.adopted

/-- `allocproc` takes a free entry. -/
theorem Inv.alloc (hf : Forking s) (h : Inv s) (hi : (s.proc i).kind = .alive)
    (hnp : (s.proc np).kind = .free)
    (hb : created s.log < 2 ^ 32 - 2) :
    Inv ((s.allocproc i np).goto i (.allocated np)) := by
  set s' := (s.allocproc i np).goto i (.allocated np) with hs'
  have hself : s'.proc np = { s.proc np with state := .embryo, pid := s.nextpid } := set_self
  have hother : ∀ {j}, j ≠ np → s'.proc j = s.proc j := fun h => set_ne h
  have hlog : s'.log = .alloc np s.nextpid (s.proc i).pid :: s.log := rfl
  have hpc' : s'.pc i = .allocated np := update_self ..
  have hpco : ∀ {j}, j ≠ i → s'.pc j = s.pc j := fun h => update_of_ne h ..
  have hne : ∀ {j}, (s.proc j).kind ≠ .free → j ≠ np := fun hj e => hj (e ▸ hnp)
  have hnext : s'.nextpid.toNat = s.nextpid.toNat + 1 := by
    show (s.nextpid + 1).toNat = _
    rw [BitVec.toNat_add, h.next]
    exact Nat.mod_eq_of_lt (by show created s.log + 1 + 1 < _; omega)
  -- the new pid is in no event
  have hfresh : ∀ {j c}, .alloc j s.nextpid c ∉ s.log := fun hm => (h.range hm).2.ne rfl
  have hold : ∀ {pid}, .fail pid ∈ s.log ∨ .exit pid ∈ s.log ∨ (∃ w, .reap pid w ∈ s.log) →
      pid ≠ s.nextpid := fun hm e => (h.old hm).ne (e ▸ rfl)
  have hfree : ∀ {k : Slot} {pid c}, .alloc k pid c ∈ s.log → k = np →
      .fail pid ∈ s.log ∨ ∃ w, .reap pid w ∈ s.log := by grind [h.gone]
  constructor
  case next =>
    rw [hnext, h.next, hlog]
    exact congrArg (· + 1) (countP_cons_of_pos rfl).symm
  case range =>
    intro j pid c hm
    rw [hlog, mem_cons] at hm
    rw [hnext]
    rcases hm with e | hm
    · cases e
      have := h.next
      omega
    · have := h.range hm
      omega
  case uniq =>
    intro j k pid c d hj hk
    rw [hlog, mem_cons] at hj hk
    rcases hj with e | hj <;> rcases hk with e' | hk
    · cases e
      cases e'
      exact ⟨rfl, rfl⟩
    · cases e
      exact absurd hk hfresh
    · cases e'
      exact absurd hj hfresh
    · exact h.uniq hj hk
  case here =>
    intro j hj
    simp only [hlog, mem_cons, reduceCtorEq, false_or]
    by_cases hjn : j = np
    · grind
    · simp_all [h.here]
  case gone =>
    intro j pid c hm
    simp only [hlog, mem_cons, reduceCtorEq, false_or] at hm ⊢
    rcases hm with e | hm
    · cases e
      rw [hself]
      exact .inl ⟨nofun, rfl⟩
    · by_cases hjn : j = np
      · exact .inr (hfree hm hjn)
      · rw [hother hjn]
        exact h.gone hm
  case exited =>
    intro j hj
    simp only [hlog, mem_cons, reduceCtorEq, false_or]
    by_cases hjn : j = np
    · subst hjn
      rw [hself]
      exact ⟨fun hm => absurd rfl (hold (.inr (.inl hm))), nofun⟩
    · rw [hother hjn] at hj ⊢
      exact h.exited hj
  case old =>
    intro pid hm
    simp only [hlog, mem_cons, reduceCtorEq, false_or] at hm
    have := h.old hm
    omega
  case orphan =>
    intro j hj
    by_cases hjn : j = np
    · subst hjn
      rw [hself]
      exact h.orphan hnp
    · rw [hother hjn] at hj ⊢
      exact h.orphan hj
  case init => simp_all [h.init.1, h.init]
  case parent =>
    intro j k hj
    by_cases hjn : j = np
    · subst hjn
      rw [hself] at hj
      cases (h.orphan hnp).symm.trans hj
    · rw [hother hjn] at hj ⊢
      obtain ⟨hk, hc⟩ := h.parent hj
      rw [hother (hne (by rw [hk]; decide))]
      refine ⟨hk, fun c hm => ?_⟩
      simp only [hlog, mem_cons, reduceCtorEq, false_or] at hm ⊢
      rcases hm with e | hm
      · exact absurd (Event.alloc.inj e).1 hjn
      · exact hc c hm
  case child =>
    intro j hj hk
    by_cases hjn : j = np
    · subst hjn
      rw [hself] at hk
      rcases hk with hk | hk <;> cases hk
    · rw [hother hjn] at hk ⊢
      exact h.child hj hk
  case named =>
    intro j k hj
    have hi' : i ≠ np := hne (by rw [hi]; decide)
    rw [hlog]
    by_cases hji : j = i
    · subst hji
      rw [hpc'] at hj
      cases hj
      rw [hself, hother hi']
      exact mem_cons_self ..
    · rw [hpco hji] at hj
      have hjn : j ≠ np := hne (by rw [hf.alive hj]; decide)
      rw [hother (hne (by rw [hf.filled hj]; decide)), hother hjn]
      exact mem_cons_of_mem _ (h.named hj)
  case unborn =>
    intro j k hj
    by_cases hji : j = i
    · simp_all [h.orphan]
    · rw [hpco hji] at hj
      have hk := hf.filled (show (s.pc j).child = some k by rw [hj]; rfl)
      rw [hother (hne (by rw [hk]; decide))]
      exact h.unborn hj
  case adopted =>
    intro j k hj
    by_cases hji : j = i
    · subst hji
      rw [hpc'] at hj
      cases hj
    · rw [hpco hji] at hj
      have hk := hf.filled (show (s.pc j).child = some k by rw [hj]; rfl)
      rw [hother (hne (by rw [hk]; decide))]
      exact h.adopted hj
  case explained =>
    rw [hlog]
    exact ⟨h.explained, fun j c => hfresh, fun pid' c hm => hfree hm rfl⟩

/-- Processes that are there have different pids. -/
theorem Inv.eq_of_pid (h : Inv s) (hi : (s.proc i).kind ≠ .free) (hj : (s.proc j).kind ≠ .free)
    (e : (s.proc i).pid = (s.proc j).pid) : i = j := by
  obtain ⟨⟨c, hc⟩, _⟩ := h.here hi
  obtain ⟨⟨d, hd⟩, _⟩ := h.here hj
  rw [e] at hc
  exact (h.uniq hc hd).1

section

variable (hf : Forking s) (h : Inv s)
include hf h

/-- An entry is freed that nobody goes on to fill, with the event that says so. -/
theorem Inv.freed (hz : (s.proc z).kind = .new ∨ (s.proc z).kind = .dead)
    (hself : (s'.proc z).kind = .free ∧ (s'.proc z).parent = none)
    (hother : ∀ {j}, j ≠ z → s'.proc j = s.proc j) (hnext : s'.nextpid = s.nextpid)
    (hlog : s'.log = e :: s.log) (he : e = .fail (s.proc z).pid ∨ ∃ w, e = .reap (s.proc z).pid w)
    (hpc : ∀ {j k}, (s'.pc j).child = some k → s'.pc j = s.pc j ∧ k ≠ z) (hexp : Explained s'.log) :
    Inv s' := by
  have hz' : (s.proc z).kind ≠ .free := by
    rcases hz with hz | hz <;> rw [hz] <;> decide
  have halive : ∀ {j}, (s.proc j).kind = .alive → j ≠ z := by
    rintro j hj rfl
    rcases hz with hz | hz <;> cases hj.symm.trans hz
  have hlive : ∀ {j}, (s'.proc j).kind ≠ .free → j ≠ z := by
    rintro j hj rfl
    exact hj hself.1
  obtain ⟨⟨c, hc⟩, -⟩ := h.here hz'
  -- the new event is about the freed entry only
  have halloc : ∀ {i pid c}, .alloc i pid c ∈ s'.log ↔ .alloc i pid c ∈ s.log := by
    rcases he with rfl | ⟨w, rfl⟩ <;> simp [hlog]
  have hexit : ∀ {pid}, .exit pid ∈ s'.log ↔ .exit pid ∈ s.log := by
    rcases he with rfl | ⟨w, rfl⟩ <;> simp [hlog]
  have hfail : ∀ {pid}, .fail pid ∈ s'.log → .fail pid ∈ s.log ∨ pid = (s.proc z).pid := by
    grind
  have hreap : ∀ {pid w}, .reap pid w ∈ s'.log → .reap pid w ∈ s.log ∨ pid = (s.proc z).pid := by
    grind
  have hmem : ∀ {e'}, e' ∈ s.log → e' ∈ s'.log := by
    intro e' hm
    rw [hlog]
    exact mem_cons_of_mem _ hm
  constructor
  case next =>
    rw [hnext, h.next, hlog]
    rcases he with rfl | ⟨w, rfl⟩ <;> rfl
  case range =>
    intro j pid c hm
    rw [hnext]
    exact h.range (halloc.mp hm)
  case uniq =>
    intro j k pid c d hj hk
    exact h.uniq (halloc.mp hj) (halloc.mp hk)
  case here =>
    intro j hj
    have hjz := hlive hj
    rw [hother hjz] at hj ⊢
    obtain ⟨⟨c, hc⟩, hnofail, hnoreap⟩ := h.here hj
    have hpid : (s.proc j).pid ≠ (s.proc z).pid := fun e => hjz (h.eq_of_pid hj hz' e)
    refine ⟨⟨c, hmem hc⟩, fun hm => ?_, fun w hm => ?_⟩
    · exact (hfail hm).elim hnofail hpid
    · exact (hreap hm).elim (hnoreap w) hpid
  case gone =>
    intro j pid c hm
    rcases h.gone (halloc.mp hm) with ⟨hj, rfl⟩ | hm | ⟨w, hm⟩
    · by_cases hjz : j = z
      · subst hjz
        rw [hlog]
        rcases he with rfl | ⟨w, rfl⟩
        · exact .inr (.inl (mem_cons_self ..))
        · exact .inr (.inr ⟨w, mem_cons_self ..⟩)
      · rw [hother hjz]
        exact .inl ⟨hj, rfl⟩
    · exact .inr (.inl (hmem hm))
    · exact .inr (.inr ⟨w, hmem hm⟩)
  case exited =>
    intro j hj
    have hjz := hlive hj
    rw [hother hjz] at hj ⊢
    rw [hexit]
    exact h.exited hj
  case old =>
    intro pid hm
    rw [hnext]
    have hlt : pid = (s.proc z).pid → pid.toNat < s.nextpid.toNat := by
      rintro rfl
      exact (h.range hc).2
    rcases hm with hm | hm | ⟨w, hm⟩
    · exact (hfail hm).elim (fun hm => h.old (.inl hm)) hlt
    · exact h.old (.inr (.inl (hexit.mp hm)))
    · exact (hreap hm).elim (fun hm => h.old (.inr (.inr ⟨w, hm⟩))) hlt
  case orphan =>
    intro j hj
    by_cases hjz : j = z
    · rw [hjz]
      exact hself.2
    · rw [hother hjz] at hj ⊢
      exact h.orphan hj
  case init =>
    rw [hother (halive h.init.1)]
    exact h.init
  case parent =>
    intro j k hj
    have hjz : j ≠ z := by
      rintro rfl
      cases hself.2.symm.trans hj
    rw [hother hjz] at hj ⊢
    obtain ⟨hk, hc⟩ := h.parent hj
    rw [hother (halive hk)]
    simp only [halloc, hexit]
    exact ⟨hk, hc⟩
  case child =>
    intro j hj hk
    have hjz : j ≠ z := by
      rintro rfl
      rw [hself.1] at hk
      rcases hk with hk | hk <;> cases hk
    rw [hother hjz] at hk ⊢
    exact h.child hj hk
  case named =>
    intro j k hj
    obtain ⟨e, hkz⟩ := hpc hj
    rw [e] at hj
    rw [hother hkz, hother (halive (hf.alive hj)), halloc]
    exact h.named hj
  case unborn =>
    intro j k hj
    obtain ⟨e, hkz⟩ := @hpc j k (by rw [hj]; rfl)
    rw [hother hkz]
    exact h.unborn (e ▸ hj)
  case adopted =>
    intro j k hj
    obtain ⟨e, hkz⟩ := @hpc j k (by rw [hj]; rfl)
    rw [hother hkz]
    exact h.adopted (e ▸ hj)
  case explained => exact hexp

/-- `fork` gives the entry back that it could not fill. -/
theorem Inv.fail (hpc : s.pc i = .allocated np) :
    Inv (((s.set np { s.proc np with state := .unused }).note (.fail (s.proc np).pid)).goto i
      .user) := by
  set s' := ((s.set np { s.proc np with state := .unused }).note (.fail (s.proc np).pid)).goto i
    .user
  have hself : s'.proc np = { s.proc np with state := .unused } := set_self
  have hfork : (s.pc i).child = some np := by rw [hpc]; rfl
  apply h.freed hf (z := np) (e := .fail (s.proc np).pid)
  case hz => exact .inl (hf.filled hfork)
  case hself =>
    rw [hself]
    exact ⟨rfl, h.unborn hpc⟩
  case hother => exact fun hj => set_ne hj
  case hnext => rfl
  case hlog => rfl
  case he => exact .inl rfl
  case hpc =>
    -- who is still in `fork` fills another entry
    intro j k hj
    have hji : j ≠ i := by
      rintro rfl
      rw [show s'.pc j = .user from update_self ..] at hj
      cases hj
    have hpcj : s'.pc j = s.pc j := update_of_ne hji ..
    rw [hpcj] at hj
    refine ⟨hpcj, ?_⟩
    rintro rfl
    exact hji (hf.forker hj hfork)
  case hexp => exact ⟨h.explained, trivial⟩

/-- `fork` names itself as the parent of the new process, or lets it run. -/
theorem Inv.raise (hpc : (s.pc i).child = some np) (hpid : p.pid = (s.proc np).pid)
    (hparent : p.parent = some i)
    (hkind : p.kind = .new ∧ pc = .adopted np ∨ p.kind = .alive ∧ pc = .user) :
    Inv ((s.set np p).goto i pc) := by
  set s' := (s.set np p).goto i pc
  have hself : s'.proc np = p := set_self
  have hother : ∀ {j}, j ≠ np → s'.proc j = s.proc j := fun h => set_ne h
  have hlog : s'.log = s.log := rfl
  have hpc' : s'.pc i = pc := update_self ..
  have hpco : ∀ {j}, j ≠ i → s'.pc j = s.pc j := fun h => update_of_ne h ..
  have hnp := hf.filled hpc
  have hal := h.named hpc
  have hi := hf.alive hpc
  have hp : p.kind ≠ .free ∧ p.kind ≠ .dead := by
    rcases hkind with ⟨hk, _⟩ | ⟨hk, _⟩ <;> rw [hk] <;> decide
  have hne : ∀ {j}, (s.proc j).kind = .alive → j ≠ np := fun hj e => by
    cases hj.symm.trans (e ▸ hnp)
  have hpids : ∀ j, (s'.proc j).pid = (s.proc j).pid := by
    intro j
    by_cases hjn : j = np
    · rw [hjn, hself, hpid]
    · rw [hother hjn]
  have hfree : ∀ j, (s'.proc j).kind = .free ↔ (s.proc j).kind = .free := by grind
  -- who is in `fork` fills the entry it filled before, and `i` now as its parent
  have hchild : ∀ {j k}, (s'.pc j).child = some k → (s.pc j).child = some k ∧
      (j = i ∧ k = np ∧ pc = .adopted np ∨ j ≠ i ∧ k ≠ np) := by
    intro j k hj
    by_cases hji : j = i
    · subst hji
      rw [hpc'] at hj
      rcases hkind with ⟨_, rfl⟩ | ⟨_, rfl⟩
      · cases hj
        exact ⟨hpc, .inl ⟨rfl, rfl, rfl⟩⟩
      · cases hj
    · grind [hf.forker]
  constructor
  case next => exact h.next
  case range => exact h.range
  case uniq => exact h.uniq
  case here => intro j; rw [ne_eq, hfree, hpids, hlog]; exact h.here
  case gone => intro j pid c; rw [ne_eq, hfree, hpids, hlog]; exact h.gone
  case exited =>
    intro j hj
    rw [ne_eq, hfree] at hj
    rw [hpids, hlog, h.exited hj]
    by_cases hjn : j = np
    · rw [hjn, hself, hnp]
      exact ⟨nofun, fun e => absurd e hp.2⟩
    · rw [hother hjn]
  case old => exact h.old
  case orphan => grind [h.orphan]
  case init =>
    rw [hother (hne h.init.1)]
    exact h.init
  case parent =>
    intro j k hj
    by_cases hjn : j = np
    · grind [h.uniq]
    · grind [h.parent]
  case child =>
    intro j hj hk
    by_cases hjn : j = np
    · rw [hjn, hself, hparent]
      exact nofun
    · rw [hother hjn] at hk ⊢
      exact h.child hj hk
  case named =>
    intro j k hj
    rw [hpids, hpids, hlog]
    exact h.named (hchild hj).1
  case unborn =>
    intro j k hj
    obtain ⟨_, ⟨hji, _, hpc⟩ | ⟨hji, hkn⟩⟩ := @hchild j k (by rw [hj]; rfl)
    · rw [hji, hpc', hpc] at hj
      cases hj
    · rw [hother hkn]
      exact h.unborn (hpco hji ▸ hj)
  case adopted =>
    intro j k hj
    obtain ⟨_, ⟨hji, hkn, _⟩ | ⟨hji, hkn⟩⟩ := @hchild j k (by rw [hj]; rfl)
    · rw [hkn, hself, hji]
      exact hparent
    · rw [hother hkn]
      exact h.adopted (hpco hji ▸ hj)
  case explained => exact h.explained

/-- `wait` frees the entry of a child that has exited. -/
theorem Inv.reap (hz : (s.proc z).kind = .dead) (hp : (s.proc z).parent = some i) :
    Inv (s.reap i z) := by
  have hz' : (s.proc z).kind ≠ .free := by rw [hz]; decide
  obtain ⟨⟨c, hc⟩, -, hnoreap⟩ := h.here hz'
  apply h.freed hf (z := z) (e := .reap (s.proc z).pid (s.proc i).pid)
  case hz => exact .inr hz
  case hself =>
    rw [show (s.reap i z).proc z = _ from set_self]
    exact ⟨rfl, rfl⟩
  case hother => exact fun hj => set_ne hj
  case hnext => rfl
  case hlog => rfl
  case he => exact .inr ⟨_, rfl⟩
  case hpc =>
    intro j k hj
    refine ⟨rfl, ?_⟩
    rintro rfl
    cases hz.symm.trans (hf.filled hj)
  case hexp =>
    refine ⟨h.explained, (h.exited hz').mpr hz, hnoreap, z, c, hc, ?_⟩
    rcases (h.parent hp).2 c hc with e | ⟨rfl, he⟩
    · exact .inl e
    · exact .inr ⟨h.init.2, he⟩

end

/-- A process exits. -/
theorem Inv.exit (h : Inv s) (hi : i ≠ initproc) (hk : (s.proc i).kind = .alive)
    (hpc : s.pc i = .user) : Inv (s.exit i) := by
  have hpid : ∀ q, ((s.exit i).proc q).pid = (s.proc q).pid := fun q => (exit_proc hi q).2.1
  have hself : ((s.exit i).proc i).kind = .dead := by rw [(exit_proc hi i).1, if_pos rfl]
  have hother : ∀ {q}, q ≠ i → ((s.exit i).proc q).kind = (s.proc q).kind := fun {q} hq => by
    rw [(exit_proc hi q).1, if_neg hq]
  have hparent : ∀ q, ((s.exit i).proc q).parent =
      if (s.proc q).parent = some i then some initproc else (s.proc q).parent :=
    fun q => (exit_proc hi q).2.2.2
  have hlog : (s.exit i).log = .exit (s.proc i).pid :: s.log := rfl
  have hpc' : (s.exit i).pc = s.pc := rfl
  have hk' : (s.proc i).kind ≠ .free := by rw [hk]; decide
  have hfree : ∀ {q}, ((s.exit i).proc q).kind = .free ↔ (s.proc q).kind = .free := by grind
  have hforker : ∀ {j k}, (s.pc j).child = some k → j ≠ i := by
    rintro j k hj rfl
    rw [hpc] at hj
    cases hj
  constructor
  case next => exact h.next
  case range =>
    intro j pid c
    simp only [hlog, mem_cons, reduceCtorEq, false_or]
    exact h.range
  case uniq =>
    intro j k pid c d
    simp only [hlog, mem_cons, reduceCtorEq, false_or]
    exact h.uniq
  case here =>
    intro j
    simp only [ne_eq, hfree, hpid, hlog, mem_cons, reduceCtorEq, false_or]
    exact h.here
  case gone =>
    intro j pid c
    simp only [ne_eq, hfree, hpid, hlog, mem_cons, reduceCtorEq, false_or]
    exact h.gone
  case exited =>
    intro j hj
    simp only [hpid, hlog, mem_cons, Event.exit.injEq]
    by_cases hji : j = i
    · rw [hji, hself]
      exact ⟨fun _ => rfl, fun _ => .inl rfl⟩
    · grind [h.exited, h.eq_of_pid]
  case old =>
    intro pid hm
    obtain ⟨⟨c, hc⟩, _⟩ := h.here hk'
    simp only [hlog, mem_cons, reduceCtorEq, false_or, Event.exit.injEq] at hm
    rcases hm with hm | (rfl | hm) | hm
    · exact h.old (.inl hm)
    · exact (h.range hc).2
    · exact h.old (.inr (.inl hm))
    · exact h.old (.inr (.inr hm))
  case orphan =>
    intro j hj
    rw [hparent, h.orphan (hfree.mp hj)]
    rfl
  case init =>
    rw [hother (Ne.symm hi), hpid]
    exact h.init
  case parent =>
    intro j k hj
    rw [hparent] at hj
    simp only [hpid, hlog, mem_cons, reduceCtorEq, false_or, Event.exit.injEq]
    split at hj
    · -- an abandoned child, whose creator `i` was
      rename_i hji
      cases hj
      refine ⟨by rw [hother (Ne.symm hi)]; exact h.init.1, fun c hm => .inr ⟨rfl, ?_⟩⟩
      rcases (h.parent hji).2 c hm with e | ⟨e, _⟩
      · exact .inl e.symm
      · exact absurd e hi
    · grind [h.parent]
  case child =>
    intro j hj hk2
    rw [hparent]
    split
    · exact nofun
    · refine h.child hj ?_
      by_cases hji : j = i
      · rw [hji]
        exact .inl hk
      · rwa [hother hji] at hk2
  case named =>
    intro j k hj
    rw [hpid, hpid, hlog]
    exact mem_cons_of_mem _ (h.named hj)
  case unborn =>
    intro j k hj
    rw [hparent, h.unborn hj]
    rfl
  case adopted =>
    intro j k hj
    have hji : j ≠ i := @hforker j k (by rw [← hpc', hj]; rfl)
    rw [hparent, h.adopted hj, if_neg fun e => hji (Option.some.inj e)]
  case explained => exact ⟨h.explained, trivial⟩

/-! ### Steps and runs -/

/-- An entry is changed, but not what `Inv` is about. -/
theorem Inv.set_same (h : Inv s) (hkind : p.kind = (s.proc i).kind) (hpid : p.pid = (s.proc i).pid)
    (hparent : p.parent = (s.proc i).parent) : Inv (s.set i p) := by
  have hall : ∀ {α : Type} (f : Proc → α), f p = f (s.proc i) →
      ∀ j, f ((s.set i p).proc j) = f (s.proc j) := by
    intro α f hf j
    by_cases hj : j = i
    · rw [hj, set_self, hf]
    · rw [set_ne hj]
  exact h.same (hall Proc.kind hkind) (hall Proc.pid hpid) (hall Proc.parent hparent) rfl rfl
    fun _ => .inl rfl

/-- A process goes on, and is not in `fork` then. -/
theorem Inv.goto (h : Inv s) (hi : (s.proc i).kind = .alive) (hpc : pc.child = none) :
    Inv (s.goto i pc) := by
  refine h.same (fun _ => rfl) (fun _ => rfl) (fun _ => rfl) rfl rfl fun j => ?_
  by_cases hj : j = i
  · rw [hj]
    exact .inr ⟨by rw [show (s.goto i pc).pc i = pc from update_self ..]; exact hpc, hi⟩
  · exact .inl (update_of_ne hj ..)

theorem Inv.wakeup (h : Inv s) (c : Option Chan) : Inv { s with proc := wakeup1 s.proc c } :=
  h.same (fun _ => kind_wake) (fun _ => pid_wake) (fun _ => parent_wake) rfl rfl fun _ => .inl rfl

theorem Inv.wait (hf : Forking s) (h : Inv s) (hi : (s.proc i).state = .running) :
    Inv (s.wait i) := by
  have hk : (s.proc i).kind = .alive := by simp [Proc.kind, hi]
  unfold Table.wait
  split
  · rename_i z hz
    obtain ⟨hp, hd⟩ := findZombie_spec hz
    have hiz : i ≠ z := fun e => by cases hk.symm.trans (e ▸ hd)
    have hk' : ((s.reap i z).proc i).kind = .alive := by
      rw [show (s.reap i z).proc i = s.proc i from set_ne hiz]
      exact hk
    exact (h.reap hf hd hp).goto hk' rfl
  · split
    · exact h.goto hk rfl
    · have h1 : Inv (s.set i { s.proc i with state := .sleeping, chan := some (.proc i) }) :=
        h.set_same (by rw [hk]; rfl) rfl rfl
      exact h1.goto (by rw [set_self]; rfl) rfl

theorem Inv.kill (h : Inv s) (pid : Word) : Inv (s.kill pid).2 := by
  unfold Table.kill
  split
  · exact h.set_same kind_mark rfl rfl
  · exact h

/-- Every step. -/
theorem acts_inv (hf : Forking s) (h : Inv s) (hb : created s.log < 2 ^ 32 - 2)
    (hrun : (s.proc a.actor).state = .running) (hs : Acts s a s') : Inv s' := by
  have hk : (s.proc a.actor).kind = .alive := by simp [kind, hrun]
  cases hs with
  | fork hnp => exact h.alloc hf hk (findUnused_kind hnp) hb
  | full => exact h
  | forkFail hpc => exact h.fail hf hpc
  | @forkParent i np hpc =>
    have hchild : (s.pc i).child = some np := by rw [hpc]; rfl
    exact h.raise hf hchild rfl rfl (.inl ⟨hf.filled hchild, rfl⟩)
  | forkKilled => exact h.set_same rfl rfl rfl
  | forkDone hpc => exact h.raise hf (by rw [hpc]; rfl) rfl (h.adopted hpc) (.inr ⟨rfl, rfl⟩)
  | exit hpc hne => exact h.exit hne hk hpc
  | wait => exact h.wait hf hrun
  | @kill i pid => exact (h.kill pid).note (.inl ⟨pid, rfl⟩)
  | @fault i =>
    have h1 : Inv (s.set i { s.proc i with killed := true }) := h.set_same rfl rfl rfl
    exact h1.note (.inr ⟨_, rfl⟩)
  | yield => exact h.set_same hk.symm rfl rfl
  | sleep => exact h.set_same hk.symm rfl rfl
  | wakeup => exact h.wakeup _

/-- Every call. -/
theorem step_inv (hf : Forking s) (h : Inv s) (hb : created s.log < 2 ^ 32 - 2)
    (hs : s.step a = .ok s') : Inv s' := by
  rcases step_cases hs with ⟨i, hi, rfl⟩ | ⟨hrun, hs⟩
  · exact h.set_same (by simp [kind, hi]) rfl rfl
  · exact acts_inv hf h hb hrun hs

/-- In every run with fewer than `2 ^ 31 - 1` processes: processes that are there have different
    pids; every process but `init` that is neither new nor gone has a parent that is alive; free
    entries have no parent; and the record is `Explained`: the pid of a process is returned by one
    `wait` at most, after the process has exited, to its creator or, if that has exited before, to
    `init`, and its entry is used again after that. -/
theorem life_cycle {cond : Table → Act → Prop} (hr : Reach Table.step cond Table.start s)
    (hb : created s.log < 2 ^ 31 - 1) :
    (∀ i j, (s.proc i).state ≠ .unused → (s.proc j).state ≠ .unused →
      (s.proc i).pid = (s.proc j).pid → i = j) ∧
    (∀ i, i ≠ initproc → (s.proc i).state ≠ .unused → (s.proc i).state ≠ .embryo →
      ∃ j, (s.proc i).parent = some j ∧ (s.proc j).state ≠ .unused ∧
        (s.proc j).state ≠ .zombie) ∧
    (∀ i, (s.proc i).state = .unused → (s.proc i).parent = none) ∧ Explained s.log := by
  have hi : Forking s ∧ (created s.log < 2 ^ 31 - 1 → Inv s) := by
    refine hr.invariant (I := fun s => Forking s ∧ (created s.log < 2 ^ 31 - 1 → Inv s))
      ⟨.start, fun _ => .start⟩ ?_
    intro s a s' ⟨hf, ih⟩ _ hs
    have hle : created s.log ≤ created s'.log := (step_log hs).sublist.countP_le
    exact ⟨step_forking hf hs, fun hb => step_inv hf (ih (by omega)) (by omega) hs⟩
  replace hi : Inv s := hi.2 hb
  refine ⟨fun i j h1 h2 => ?_, fun i hne h1 h2 => ?_, fun i h1 => ?_, hi.explained⟩
  · exact hi.eq_of_pid (mt kind_free.mp h1) (mt kind_free.mp h2)
  · have hk : (s.proc i).kind = .alive ∨ (s.proc i).kind = .dead := by
      cases hp : (s.proc i).state <;> simp_all [Proc.kind]
    obtain ⟨j, hj⟩ := Option.ne_none_iff_exists'.mp (hi.child hne hk)
    have hja := (hi.parent hj).1
    refine ⟨j, hj, fun e => ?_, fun e => ?_⟩ <;> simp [Proc.kind, e] at hja
  · exact hi.orphan (kind_free.mpr h1)

/-- `init` forks a child, which exits, and waits for it. -/
def forkExitWait : List Act :=
  [.schedule 0, .fork 0, .forkParent 0, .forkDone 0, .wait 0, .schedule 1, .exit 1, .schedule 0,
    .wait 0]

/-- Fork, exit, wait. -/
theorem life_cycle_forkExitWait : ∃ s, Reach Table.step (fun _ _ => True) Table.start s ∧
    created s.log < 2 ^ 31 - 1 ∧ .reap 2 1 ∈ s.log ∧ Explained s.log := by
  obtain ⟨s, hs, ht⟩ := Outcome.holds_iff.mp
    (show (forkExitWait.foldlM Table.step Table.start).holds
      (fun s => created s.log < 2 ^ 31 - 1 ∧ .reap 2 1 ∈ s.log) = true by decide +kernel)
  have hr : Reach Table.step (fun _ _ => True) Table.start s :=
    Reach.of_foldlM (fun _ _ _ => trivial) hs
  obtain ⟨h1, h2⟩ := of_decide_eq_true ht
  exact ⟨s, hr, h1, h2, (life_cycle hr h1).2.2.2⟩

end Xv6.Process
