import Xv6.Process.Table

namespace Xv6.Process

open Function List Proc Table

/-!
# What the steps do to the process table

* `Kind` — the states of a process as far as its life is concerned;
* `exit_proc` — what `exit` does to the entries, by induction over its loop;
* `Acts`, `step_cases` — a step is the scheduler's or that of a process that runs;
* `Forking` — who is in `fork` has an entry of its own to fill, in every run.
-/

/-- The states of a process as far as its life is concerned. -/
inductive Kind where
  | free
  | new
  | alive
  | dead
  deriving DecidableEq

/-- Whether an entry is free, and what the process in it is. -/
def Proc.kind (p : Proc) : Kind :=
  match p.state with
  | .unused => .free
  | .embryo => .new
  | .sleeping | .runnable | .running => .alive
  | .zombie => .dead

variable {p : Proc} {pc : Pc} {c : Option Chan} {a : Act}

/-- Free entries are those that are `UNUSED`. -/
theorem kind_free : p.kind = .free ↔ p.state = .unused := by
  cases hp : p.state <;> simp [kind, hp]

variable {s s' : Table} {i j np z : Slot}

/-- The entry that is set. -/
theorem set_self : (s.set i p).proc i = p := update_self ..

/-- The other entries. -/
theorem set_ne (h : j ≠ i) : (s.set i p).proc j = s.proc j := update_of_ne h ..

/-- The process that goes on. -/
theorem goto_self : (s.goto i pc).pc i = pc := update_self ..

/-- The other processes. -/
theorem goto_ne (h : j ≠ i) : (s.goto i pc).pc j = s.pc j := update_of_ne h ..

/-! ### Loops over the table -/

/-- `wakeup` keeps the kind. -/
theorem kind_wake : (p.wake c).kind = p.kind := by
  unfold wake
  split
  · rename_i h
    simp [kind, h.1]
  · rfl

/-- `wakeup` keeps the pid. -/
theorem pid_wake : (p.wake c).pid = p.pid := by
  unfold wake
  split <;> rfl

/-- `wakeup` keeps the parent. -/
theorem parent_wake : (p.wake c).parent = p.parent := by
  unfold wake
  split <;> rfl

/-- `wakeup` keeps `killed`. -/
theorem killed_wake : (p.wake c).killed = p.killed := by
  unfold wake
  split <;> rfl

/-- What the loop of `exit` leaves alone, and the parents it leaves behind when it has gone through
    the entries of `l`. -/
structure Adopted (i : Slot) (l : List Slot) (t t' : Slot → Proc) : Prop where
  kind : ∀ q, (t' q).kind = (t q).kind
  pid : ∀ q, (t' q).pid = (t q).pid
  killed : ∀ q, (t' q).killed = (t q).killed
  parent : ∀ q, (t' q).parent =
    if q ∈ l ∧ (t q).parent = some i then some initproc else (t q).parent

/-- The loop looks at one entry. -/
theorem adopt_adopted {t : Slot → Proc} {p : Slot} : Adopted i [p] t (adopt i t p) := by
  unfold adopt
  by_cases hp : (t p).parent = some i
  · rw [if_pos hp]
    have h : Adopted i [p] t (update t p { t p with parent := some initproc }) := by
      constructor
      case parent => grind
      all_goals
        intro q
        by_cases hq : q = p
        · subst hq
          simp [kind]
        · simp [hq]
    split
    · exact ⟨fun q => kind_wake.trans (h.kind q), fun q => pid_wake.trans (h.pid q),
        fun q => killed_wake.trans (h.killed q), fun q => parent_wake.trans (h.parent q)⟩
    · exact h
  · rw [if_neg hp]
    refine ⟨fun _ => rfl, fun _ => rfl, fun _ => rfl, fun q => ?_⟩
    rw [if_neg]
    rintro ⟨hq, hq'⟩
    rw [mem_singleton.mp hq] at hq'
    exact hp hq'

/-- The loop looks at all entries. -/
theorem foldl_adopted (hi : i ≠ initproc) (l : List Slot) (t : Slot → Proc) :
    Adopted i l t (l.foldl (adopt i) t) := by
  induction l generalizing t with
  | nil => exact ⟨fun _ => rfl, fun _ => rfl, fun _ => rfl, by simp⟩
  | cons p l ih =>
    have h1 : Adopted i [p] t (adopt i t p) := adopt_adopted
    have h2 := ih (adopt i t p)
    refine ⟨fun q => (h2.kind q).trans (h1.kind q), fun q => (h2.pid q).trans (h1.pid q),
      fun q => (h2.killed q).trans (h1.killed q), fun q => ?_⟩
    rw [foldl_cons, h2.parent, h1.parent]
    by_cases hq : (t q).parent = some i
    · by_cases hqp : q = p
      · subst hqp
        simp [hq, Ne.symm hi]
      · simp [hqp, hq]
    · simp [hq]

/-- The whole loop. -/
theorem abandon_adopted (hi : i ≠ initproc) (t : Slot → Proc) : Adopted i slots t (abandon i t) :=
  foldl_adopted hi slots t

/-- What `exit` does to the entries. -/
theorem exit_proc (hi : i ≠ initproc) (q : Slot) :
    ((s.exit i).proc q).kind = (if q = i then .dead else (s.proc q).kind) ∧
      ((s.exit i).proc q).pid = (s.proc q).pid ∧ ((s.exit i).proc q).killed = (s.proc q).killed ∧
      ((s.exit i).proc q).parent =
        if (s.proc q).parent = some i then some initproc else (s.proc q).parent := by
  have h := abandon_adopted hi (wakeup1 s.proc ((s.proc i).parent.map .proc))
  set t := abandon i (wakeup1 s.proc ((s.proc i).parent.map .proc))
  have hpid : (t q).pid = (s.proc q).pid := (h.pid q).trans pid_wake
  have hkilled : (t q).killed = (s.proc q).killed := (h.killed q).trans killed_wake
  have hparent : (t q).parent =
      if (s.proc q).parent = some i then some initproc else (s.proc q).parent := by
    rw [h.parent, show (wakeup1 s.proc _ q).parent = (s.proc q).parent from parent_wake]
    simp [slots]
  have e : (s.exit i).proc = update t i { t i with state := .zombie } := rfl
  clear_value t
  by_cases hq : q = i
  · subst hq
    rw [e, update_self, if_pos rfl]
    exact ⟨rfl, hpid, hkilled, hparent⟩
  · rw [e, update_of_ne hq, if_neg hq]
    exact ⟨(h.kind q).trans kind_wake, hpid, hkilled, hparent⟩

/-- `kill` does not change the kind. -/
theorem kind_mark : p.mark.kind = p.kind := by
  unfold mark
  by_cases hp : p.state = .sleeping <;> simp [kind, hp]

/-- `allocproc` finds a free entry. -/
theorem findUnused_kind (h : s.findUnused = some np) : (s.proc np).kind = .free := by
  have hu : (s.proc np).state = .unused := by
    simpa using find?_some h
  simp [kind, hu]

/-- `wait` finds a child that has exited. -/
theorem findZombie_spec (h : s.findZombie i = some z) :
    (s.proc z).parent = some i ∧ (s.proc z).kind = .dead := by
  have hz : (s.proc z).parent = some i ∧ (s.proc z).state = .zombie := by
    simpa using find?_some h
  exact ⟨hz.1, by simp [kind, hz.2]⟩

/-- What a running process does, one constructor for each way an action returns. -/
inductive Acts (s : Table) : Act → Table → Prop
  | fork {i np : Slot} : s.findUnused = some np →
      Acts s (.fork i) ((s.allocproc i np).goto i (.allocated np))
  | full {i : Slot} : Acts s (.fork i) s
  | forkFail {i np : Slot} : s.pc i = .allocated np → Acts s (.forkFail i)
      (((s.set np { s.proc np with state := .unused }).note (.fail (s.proc np).pid)).goto i .user)
  | forkParent {i np : Slot} : s.pc i = .allocated np → Acts s (.forkParent i)
      ((s.set np { s.proc np with parent := some i }).goto i (.adopted np))
  | forkKilled {i np : Slot} : s.pc i = .adopted np → Acts s (.forkKilled i)
      (s.set np { s.proc np with killed := true })
  | forkDone {i np : Slot} : s.pc i = .adopted np → Acts s (.forkDone i)
      ((s.set np { s.proc np with state := .runnable }).goto i .user)
  | exit {i : Slot} : s.pc i = .user → i ≠ initproc → Acts s (.exit i) (s.exit i)
  | wait {i : Slot} : Acts s (.wait i) (s.wait i)
  | kill {i : Slot} {pid : Word} : Acts s (.kill i pid) ((s.kill pid).2.note (.kill pid))
  | fault {i : Slot} : Acts s (.fault i)
      ((s.set i { s.proc i with killed := true }).note (.fault (s.proc i).pid))
  | yield {i : Slot} : Acts s (.yield i) (s.set i { s.proc i with state := .runnable })
  | sleep {i : Slot} {c : Nat} : Acts s (.sleep i c)
      (s.set i { s.proc i with state := .sleeping, chan := some (.other c) })
  | wakeup {i : Slot} {c : Nat} : Acts s (.wakeup i c)
      { s with proc := wakeup1 s.proc (some (.other c)) }

/-- `Acts` has all that a process can do. -/
theorem act_acts (hs : s.act a = .ok s') : Acts s a s' := by
  cases a
  all_goals
    simp only [act] at hs
    repeat' split at hs
    all_goals
      cases hs
      try constructor <;> assumption

/-- What a step is: the scheduler runs a process, or a process that runs does something. -/
theorem step_cases (hs : s.step a = .ok s') : (∃ i, (s.proc i).state = .runnable ∧
      s' = s.set i { s.proc i with state := .running, chan := none }) ∨
    (s.proc a.actor).state = .running ∧ Acts s a s' := by
  by_cases ha : ∃ i, a = .schedule i
  · grind [step]
  · have e : s.step a = if (s.proc a.actor).state = .running then s.act a else .hang := by
      cases a <;> first | rfl | exact absurd ⟨_, rfl⟩ ha
    rw [e] at hs
    split at hs
    · exact .inr ⟨‹_›, act_acts hs⟩
    · cases hs

/-- The record only grows. -/
theorem step_log (hs : s.step a = .ok s') : s.log <:+ s'.log := by
  rcases step_cases hs with ⟨i, hi, rfl⟩ | ⟨hrun, hs⟩
  · exact suffix_refl _
  cases hs with
  | wait =>
    unfold wait
    split
    · exact suffix_cons ..
    · split <;> exact suffix_refl _
  | kill =>
    unfold kill
    split <;> exact suffix_cons ..
  | fork | forkFail | exit | fault => exact suffix_cons ..
  | full | forkParent | forkKilled | forkDone | yield | sleep | wakeup => exact suffix_refl _

/-! ### Who is in `fork` -/

/-- The entry that a process fills in `fork`. -/
def Pc.child : Pc → Option Slot
  | .allocated np | .adopted np => some np
  | .user | .waiting => none

/-- Who is in `fork` or `wait` is alive, and fills an entry of its own. -/
structure Forking (s : Table) : Prop where
  busy : ∀ {j}, s.pc j ≠ .user → (s.proc j).kind = .alive
  filled : ∀ {j np}, (s.pc j).child = some np → (s.proc np).kind = .new
  forker : ∀ {j k np}, (s.pc j).child = some np → (s.pc k).child = some np → j = k

namespace Forking

/-- Who is in `fork` is alive. -/
theorem alive (h : Forking s) (hj : (s.pc j).child = some np) : (s.proc j).kind = .alive :=
  h.busy fun e => by
    rw [e] at hj
    cases hj

/-- The kinds stay, and processes go on outside of `fork`. -/
theorem same (h : Forking s) (hkind : ∀ i, (s'.proc i).kind = (s.proc i).kind)
    (hpc : ∀ i, s'.pc i = s.pc i ∨ (s'.pc i).child = none ∧ (s.proc i).kind = .alive) :
    Forking s' := by
  have hchild : ∀ {i np}, (s'.pc i).child = some np → (s.pc i).child = some np := by grind
  refine ⟨fun {j} hj => ?_, fun hj => ?_, fun hj hk => h.forker (hchild hj) (hchild hk)⟩
  · grind [h.busy]
  · rw [hkind]
    exact h.filled (hchild hj)

/-- Process `i` begins to fill a free entry. -/
theorem alloc (h : Forking s) (hi : (s.proc i).kind = .alive) (hnp : (s.proc np).kind = .free)
    (hself : (s'.proc np).kind = .new) (hother : ∀ {j}, j ≠ np → s'.proc j = s.proc j)
    (hpc : s'.pc = update s.pc i (.allocated np)) : Forking s' := by
  have hpc' : s'.pc i = .allocated np := by rw [hpc, update_self]
  have hpco : ∀ {j}, j ≠ i → s'.pc j = s.pc j := fun hj => by rw [hpc, update_of_ne hj]
  have hne : ∀ {j}, (s.proc j).kind ≠ .free → j ≠ np := fun hj e => hj (e ▸ hnp)
  -- nobody else fills an entry that was free
  have hnobody : ∀ {j}, (s.pc j).child ≠ some np := fun hj => by
    cases hnp.symm.trans (h.filled hj)
  refine ⟨fun {j} hj => ?_, fun {j k} hj => ?_, fun {j k m} hj hk => ?_⟩
  · have hk : (s.proc j).kind = .alive := by
      by_cases hji : j = i
      · exact hji ▸ hi
      · exact h.busy (hpco hji ▸ hj)
    rw [hother (hne (by rw [hk]; decide))]
    exact hk
  · by_cases hji : j = i
    · rw [hji, hpc'] at hj
      cases hj
      exact hself
    · grind [h.filled]
  · by_cases hji : j = i <;> by_cases hki : k = i
    · rw [hji, hki]
    · rw [hji, hpc'] at hj
      cases hj
      rw [hpco hki] at hk
      exact absurd hk hnobody
    · rw [hki, hpc'] at hk
      cases hk
      rw [hpco hji] at hj
      exact absurd hj hnobody
    · exact h.forker (hpco hji ▸ hj) (hpco hki ▸ hk)

/-- Process `i` goes on with the entry that it fills, or is done with it. -/
theorem change (h : Forking s) (hpc : (s.pc i).child = some np)
    (hother : ∀ {j}, j ≠ np → s'.proc j = s.proc j) (hpc' : s'.pc = update s.pc i pc)
    (hkind : (s'.proc np).kind = .new ∧ pc = .adopted np ∨ pc = .user) :
    Forking s' := by
  have hself : s'.pc i = pc := by rw [hpc', update_self]
  have hpco : ∀ {j}, j ≠ i → s'.pc j = s.pc j := fun hj => by rw [hpc', update_of_ne hj]
  have hne : ∀ {j}, (s.proc j).kind = .alive → j ≠ np := fun hj e => by
    cases hj.symm.trans (e ▸ h.filled hpc)
  -- who is still in `fork` fills the entry it filled before
  have hchild : ∀ {j k}, (s'.pc j).child = some k → (s.pc j).child = some k ∧
      (k = np → (s'.proc np).kind = .new) := by
    intro j k hj
    by_cases hji : j = i
    · rw [hji, hself] at hj
      rcases hkind with ⟨hk, rfl⟩ | rfl
      · cases hj
        exact ⟨hji ▸ hpc, fun _ => hk⟩
      · cases hj
    · rw [hpco hji] at hj
      exact ⟨hj, fun e => absurd (h.forker (e ▸ hj) hpc) hji⟩
  refine ⟨fun {j} hj => ?_, fun {j k} hj => ?_, fun hj hk => h.forker (hchild hj).1 (hchild hk).1⟩
  · have hk : (s.proc j).kind = .alive := by
      by_cases hji : j = i
      · exact hji ▸ h.alive hpc
      · exact h.busy (hpco hji ▸ hj)
    rw [hother (hne hk)]
    exact hk
  · obtain ⟨hj, hk⟩ := hchild hj
    by_cases hkn : k = np
    · rw [hkn]
      exact hk hkn
    · rw [hother hkn]
      exact h.filled hj

/-- The kind of an entry changes that nobody fills and whose process is in neither function. -/
theorem other (h : Forking s) (hz : (s.proc z).kind ≠ .new) (hpcz : s.pc z = .user)
    (hother : ∀ {j}, j ≠ z → (s'.proc j).kind = (s.proc j).kind) (hpc : s'.pc = s.pc) :
    Forking s' := by
  refine ⟨fun {j} hj => ?_, fun {j k} hj => ?_, fun hj hk => ?_⟩
  · grind [h.busy]
  · rw [hpc] at hj
    have hkz : k ≠ z := fun e => hz (e ▸ h.filled hj)
    rw [hother hkz]
    exact h.filled hj
  · rw [hpc] at hj hk
    exact h.forker hj hk

end Forking

section

variable (h : Forking s)
include h

/-- An entry changes, but not its kind. -/
theorem Forking.set_same (hkind : p.kind = (s.proc i).kind) : Forking (s.set i p) := by
  refine h.same (fun j => ?_) fun _ => .inl rfl
  by_cases hj : j = i
  · rw [hj, set_self, hkind]
  · rw [set_ne hj]

/-- An event is recorded. -/
theorem Forking.note (e : Event) : Forking (s.note e) :=
  h.same (fun _ => rfl) fun _ => .inl rfl

/-- A process goes on, and is not in `fork` then. -/
theorem Forking.goto (hi : (s.proc i).kind = .alive) (hpc : pc.child = none) :
    Forking (s.goto i pc) := by
  refine h.same (fun _ => rfl) fun j => ?_
  by_cases hj : j = i
  · rw [hj, goto_self]
    exact .inr ⟨hpc, hi⟩
  · exact .inl (goto_ne hj)

/-- A process waits. -/
theorem Forking.wait (hi : (s.proc i).state = .running) : Forking (s.wait i) := by
  have hk : (s.proc i).kind = .alive := by simp [Proc.kind, hi]
  unfold Table.wait
  split
  · rename_i z hz
    obtain ⟨hp, hd⟩ := findZombie_spec hz
    have hpcz : s.pc z = .user := by
      by_contra hne
      cases hd.symm.trans (h.busy hne)
    have hiz : i ≠ z := fun e => by cases hk.symm.trans (e ▸ hd)
    have h1 : Forking (s.reap i z) :=
      h.other (by rw [hd]; decide) hpcz (fun hj => congrArg Proc.kind (set_ne hj)) rfl
    exact h1.goto (by rw [show (s.reap i z).proc i = s.proc i from set_ne hiz]; exact hk) rfl
  · split
    · exact h.goto hk rfl
    · have h1 : Forking (s.set i { s.proc i with state := .sleeping, chan := some (.proc i) }) :=
        h.set_same (by rw [hk]; rfl)
      exact h1.goto (by rw [set_self]; rfl) rfl

/-- What a process does keeps `Forking`. -/
theorem acts_forking (hrun : (s.proc a.actor).state = .running) (hs : Acts s a s') :
    Forking s' := by
  have hk : (s.proc a.actor).kind = .alive := by simp [kind, hrun]
  cases hs with
  | fork hnp =>
    refine h.alloc hk (findUnused_kind hnp) ?_ (fun hj => set_ne hj) rfl
    show (update s.proc _ _ _).kind = .new
    rw [update_self]
    rfl
  | full => exact h
  | forkFail hpc => exact h.change (by rw [hpc]; rfl) (fun hj => set_ne hj) rfl (.inr rfl)
  | @forkParent i np hpc =>
    have hchild : (s.pc i).child = some np := by rw [hpc]; rfl
    refine h.change hchild (fun hj => set_ne hj) rfl (.inl ⟨?_, rfl⟩)
    show (update s.proc np _ np).kind = .new
    rw [update_self]
    exact h.filled hchild
  | forkKilled => exact h.set_same rfl
  | forkDone hpc => exact h.change (by rw [hpc]; rfl) (fun hj => set_ne hj) rfl (.inr rfl)
  | exit hpc hne =>
    refine h.other (fun e => by cases hk.symm.trans e) hpc (fun {j} hj => ?_) rfl
    rw [(exit_proc hne j).1, if_neg hj]
  | wait => exact h.wait hrun
  | kill =>
    unfold kill
    split
    · exact (h.set_same kind_mark).note _
    · exact h.note _
  | @fault i =>
    have h1 : Forking (s.set i { s.proc i with killed := true }) := h.set_same rfl
    exact h1.note _
  | yield => exact h.set_same hk.symm
  | sleep => exact h.set_same hk.symm
  | wakeup => exact h.same (fun _ => kind_wake) fun _ => .inl rfl

/-- Every step keeps `Forking`. -/
theorem step_forking (hs : s.step a = .ok s') : Forking s' := by
  rcases step_cases hs with ⟨i, hi, rfl⟩ | ⟨hrun, hs⟩
  · exact h.set_same (by simp [kind, hi])
  · exact acts_forking h hrun hs

end

/-- At the start nobody forks. -/
theorem Forking.start : Forking Table.start := ⟨fun h => absurd rfl h, nofun, nofun⟩

end Xv6.Process
