import Xv6.Files.RefCounts

namespace Xv6.Files

open Xv6.Count Function List Pc Proc Run

/-!
# Reference counts under the functions of `file.c` and `pipe.c`

* `Inv.withFile` — a live process does something with one file;
* `Inv.filealloc`, `Inv.filedup`, `Inv.fileclose`, `Inv.pipealloc`, `Inv.pipeclose` — the functions.
-/

variable {P : Type} {s s' : State P} {p np : P} {f g : FileId} {fd : Fd} {k : Then} {x y : Proc P}
  {n : Nat} {w : Bool}

theorem findFile_ref (h : s.findFile = some f) : (s.file f).ref = 0 := by
  simpa using find?_some h

theorem findFd_none (h : s.findFd p = some fd) : (s.proc p).ofile fd = none := by
  simpa using find?_some h

/-- The process after `fileclose`. -/
def Then.after (x : Proc P) : Then → Proc P
  | .ret _ => { x with pc := .user }
  | .close f => { x with pc := .fileclose f (.ret (-1)) }
  | .exit fd rest => { x with ofile := update x.ofile fd none, pc := .exit rest }

theorem after_life : (k.after x).life = x.life := by cases k <;> rfl

theorem after_fresh : (k.after x).pc.fresh = [] := by cases k <;> rfl

theorem after_fork {np : P} {r : List Fd} : (k.after x).pc ≠ .fork np r := by
  cases k <;> exact nofun

theorem after_closes : closes n w (k.after x) = 0 := by cases k <;> rfl

/-- Who is done with the locked part of `fileclose` has one reference less. -/
theorem uses_fileclose (hpc : x.pc = .fileclose f k) (hok : x.Ok) (g : FileId) :
    uses g x = uses g (k.after x) + isFile g (some f) := by
  unfold Ok at hok
  rw [hpc] at hok
  unfold uses counted
  rw [hpc]
  cases k with
  | ret r =>
    simp only [Then.after, held, Then.held, count_cons, count_nil, isFile_some]
    simp only [beq_iff_eq]
    omega
  | close f' =>
    simp only [Then.after, held, Then.held, count_cons, count_nil, isFile_some]
    simp only [beq_iff_eq]
    omega
  | exit fd rest =>
    have hrow := row_update g x.ofile fd none
    rw [hok.1] at hrow
    simp only [Then.after, held, count_nil, isFile_none] at hrow ⊢
    omega

theorem uses_pipeclose (hpc : x.pc = .pipeclose n w k) (g : FileId) :
    uses g x = uses g (k.after x) := by
  unfold uses counted
  rw [hpc]
  cases k <;> rfl

theorem after_ok
    (hok : ∀ fd rest, k = .exit fd rest → ∀ fd', fd' ∉ fd :: rest → x.ofile fd' = none) :
    (k.after x).Ok := by
  cases k with
  | ret r => trivial
  | close f => trivial
  | exit fd rest =>
    intro fd' hfd'
    by_cases e : fd' = fd
    · rw [e]
      exact update_self ..
    · show update x.ofile fd none fd' = none
      rw [update_of_ne e]
      exact hok fd rest rfl fd' (by simp [e, hfd'])

theorem fileclose_exit (hpc : x.pc = .fileclose f k) (hok : x.Ok) (fd : Fd) (rest : List Fd)
    (hk : k = .exit fd rest) (fd' : Fd) (h : fd' ∉ fd :: rest) : x.ofile fd' = none := by
  unfold Ok at hok
  rw [hpc, hk] at hok
  exact hok.2 fd' h

variable [DecidableEq P]

theorem resume_eq : s.resume p k =
    { s with proc := update s.proc p (k.after (s.proc p)), ret := (s.resume p k).ret } := by
  cases k <;> rfl

variable [Fintype P]

/-! ### One file -/

/-- A live process changes file `f`, which it has a reference to or takes. -/
theorem Inv.withFile (h : Inv s) {z : File} {r : P → Int} (hlive : (s.proc p).life = .live)
    (hself : z.ref + uses f (s.proc p) = (s.file f).ref + uses f y)
    (hothers : ∀ g, g ≠ f → uses g y = uses g (s.proc p))
    (htouch : 1 ≤ uses f (s.proc p) ∨ (s.file f).ref = 0) (hidle : z.ref = 0 → z.type = .none)
    (hfresh : ∀ g ∈ y.pc.fresh, g = f ∧ z.ref = 1 ∧ z.type = .none ∨
      g ≠ f ∧ g ∈ (s.proc p).pc.fresh)
    (hok : y.Ok) (hlife : y.life = .live) (hfork : ∀ np r, y.pc ≠ .fork np r)
    (hends : ∀ n w, isEnd n w z + closes n w y = isEnd n w (s.file f) + closes n w (s.proc p)) :
    Inv { s with proc := update s.proc p y, file := update s.file f z, ret := r } := by
  have hf : update s.file f z f = z := update_self ..
  have hg : ∀ {g}, g ≠ f → update s.file f z g = s.file g := fun hg => update_of_ne hg ..
  apply h.change rfl (h.not_made hlive)
  · grind
  · grind
  · intro g
    show (update s.file f z g).ref = 0 → (update s.file f z g).type = .none
    by_cases hgf : g = f
    · rw [hgf, hf]
      exact hidle
    · rw [hg hgf]
      exact h.idle g
  · grind [h.fresh]
  · exact hok
  · intro hd
    cases hlife.symm.trans hd
  · exact fun hq => absurd hlife hq
  · exact fun np r e => absurd e (hfork np r)
  · intro n w
    have h1 := total_update (isEnd n w) s.file f z
    have h2 := hends n w
    simp only
    omega
  · exact h.freed
  · exact h.later

/-- `filealloc` takes an entry, and the process has the reference to it. -/
theorem Inv.filealloc (h : Inv s) (hlive : (s.proc p).life = .live) (hf : (s.file f).ref = 0)
    {pc : Pc P} (hcounted : ({ s.proc p with pc } : Proc P).counted = (s.proc p).counted)
    (hheld : ∀ g, pc.held.count g = (s.proc p).pc.held.count g + isFile g (some f))
    (hcloses : ∀ n w, closes n w { s.proc p with pc } = closes n w (s.proc p))
    (hfresh : ∀ g ∈ pc.fresh, g = f ∨ g ∈ (s.proc p).pc.fresh)
    (hok : ({ s.proc p with pc } : Proc P).Ok) (hfork : ∀ np r, pc ≠ .fork np r) :
    Inv ((s.filealloc f).goto p pc) := by
  have huses : ∀ g, uses g ({ s.proc p with pc } : Proc P) =
      uses g (s.proc p) + isFile g (some f) := fun g => by
    have := hheld g
    unfold uses
    rw [hcounted]
    simp only
    omega
  apply h.withFile hlive (y := { s.proc p with pc }) (z := { s.file f with ref := 1 })
  · rw [huses, isFile_some, if_pos rfl, hf]
    simp only
    omega
  · intro g hg
    rw [huses, isFile_some, if_neg (Ne.symm hg), Nat.add_zero]
  · exact .inr hf
  · exact fun h => by cases h
  · intro g hg
    by_cases hgf : g = f
    · exact .inl ⟨hgf, rfl, h.idle f hf⟩
    · exact .inr ⟨hgf, (hfresh g hg).resolve_left hgf⟩
  · exact hok
  · exact hlive
  · exact hfork
  · intro n w
    rw [hcloses]
    rfl

/-- `sys_dup` has the second descriptor counted. -/
theorem Inv.filedup (h : Inv s) (hlive : (s.proc p).life = .live)
    (hpc : (s.proc p).pc = .dup f fd) (r : Int) :
    (s.file f).ref ≠ 0 ∧
      Inv ((s.setFile f { s.file f with ref := (s.file f).ref + 1 }).leave p r) := by
  have hok := h.ok p
  unfold Ok at hok
  rw [hpc] at hok
  obtain ⟨hfd, fd0, hne, hfd0⟩ := hok
  have hcounted : (s.proc p).counted = update (s.proc p).ofile fd none := by
    unfold counted
    rw [hpc]
  have huses : ∀ g, uses g ({ s.proc p with pc := .user } : Proc P) =
      uses g (s.proc p) + isFile g (some f) := by
    intro g
    have hrow := row_update g (s.proc p).ofile fd none
    rw [hfd] at hrow
    unfold uses
    rw [hcounted, hpc]
    simp only [counted, held, count_nil, isFile_none] at hrow ⊢
    omega
  -- the descriptor that it was called with is counted
  have hone : 1 ≤ uses f (s.proc p) := by
    have := isFile_le_row f (s.proc p).counted fd0
    rw [hcounted, update_of_ne hne, hfd0, isFile_some, if_pos rfl, ← hcounted] at this
    unfold uses
    omega
  refine ⟨by have := h.uses_le f p; omega, ?_⟩
  apply h.withFile hlive (y := { s.proc p with pc := .user })
  · rw [huses, isFile_some, if_pos rfl]
    simp only
    omega
  · intro g hg
    rw [huses, isFile_some, if_neg (Ne.symm hg), Nat.add_zero]
  · exact .inl hone
  · exact fun h => by cases h
  · rintro _ ⟨⟩
  · trivial
  · exact hlive
  · rintro _ _ ⟨⟩
  · intro n w
    simp only [closes, hpc]
    rfl

/-- What `sys_open` sets. -/
theorem Inv.openSet (h : Inv s) (hlive : (s.proc p).life = .live) {r w : Bool}
    (hpc : (s.proc p).pc = .openSet r w f fd) (x : Int) :
    Inv ((s.setFile f { s.file f with type := .inode, readable := r, writable := w }).leave p
      x) := by
  have hmem : f ∈ (s.proc p).pc.fresh := by
    rw [hpc]
    exact mem_singleton_self f
  obtain ⟨href, htype⟩ := h.fresh p f hmem
  have huses : ∀ g, uses g ({ s.proc p with pc := .user } : Proc P) = uses g (s.proc p) := by
    intro g
    unfold uses counted
    rw [hpc]
    rfl
  apply h.withFile hlive (y := { s.proc p with pc := .user })
  · rw [huses]
  · exact fun g _ => huses g
  · exact .inl (h.uses_fresh hmem)
  · intro h0
    cases href.symm.trans h0
  · exact nofun
  · trivial
  · exact hlive
  · exact nofun
  · intro n w
    simp [isEnd, closes, hpc, htype]

/-! ### `fileclose` -/

/-- `fileclose` gives a reference back. -/
theorem Inv.fileclose (h : Inv s) (hlive : (s.proc p).life = .live)
    (hpc : (s.proc p).pc = .fileclose f k) :
    ∃ s', s.fileclose p f k = .ok s' ∧ Inv s' := by
  have huses := uses_fileclose hpc (h.ok p)
  have hexit := fileclose_exit hpc (h.ok p)
  have hone : 1 ≤ uses f (s.proc p) := by
    rw [huses, isFile_some, if_pos rfl]
    omega
  have href : 1 ≤ (s.file f).ref := le_trans hone (h.uses_le f p)
  have hothers : ∀ g, g ≠ f → uses g (k.after (s.proc p)) = uses g (s.proc p) := fun g hg => by
    rw [huses g, isFile_some, if_neg (Ne.symm hg), Nat.add_zero]
  have hcloses : ∀ n w, closes n w (s.proc p) = 0 := fun n w => by simp [closes, hpc]
  -- the file keeps what it is, or is free
  have hback : ∀ z : File, z.ref = (s.file f).ref - 1 → (z.ref = 0 → z.type = .none) →
      (∀ n w, isEnd n w z = isEnd n w (s.file f)) → Inv ((s.setFile f z).resume p k) := by
    intro z hz hidle hend
    rw [resume_eq]
    apply h.withFile hlive
    · show z.ref + _ = _ + uses f (k.after (s.proc p))
      rw [hz, huses f, isFile_some, if_pos rfl]
      omega
    · exact hothers
    · exact .inl hone
    · exact hidle
    · intro g hg
      rw [show Pc.fresh _ = [] from after_fresh] at hg
      cases hg
    · exact after_ok hexit
    · exact after_life.trans hlive
    · exact fun np r => after_fork
    · intro n w
      rw [show closes n w (k.after _) = 0 from after_closes, hcloses, hend]
  unfold State.fileclose
  rw [if_neg (by omega)]
  by_cases hlast : 1 < (s.file f).ref
  · rw [if_pos hlast]
    refine ⟨_, rfl, hback _ rfl (fun h0 => ?_) fun _ _ => rfl⟩
    have : (s.file f).ref - 1 = 0 := h0
    omega
  · rw [if_neg hlast]
    have h1 : (s.file f).ref = 1 := by omega
    by_cases hpipe : (s.file f).type = .pipe
    · rw [if_pos hpipe]
      refine ⟨_, rfl, ?_⟩
      set y : Proc P := { s.proc p with pc := .pipeclose (s.file f).pipe (s.file f).writable k }
      have hy : ∀ g, uses g y = uses g (k.after (s.proc p)) := fun g =>
        (uses_pipeclose (x := y) rfl g).trans (by cases k <;> rfl)
      apply h.withFile hlive (y := y)
      · rw [hy, huses f, isFile_some, if_pos rfl, h1]
        simp only
        omega
      · intro g hg
        rw [hy]
        exact hothers g hg
      · exact .inl hone
      · exact fun _ => rfl
      · exact nofun
      · grind [Proc.Ok]
      · exact hlive
      · exact nofun
      · intro n w
        rw [hcloses]
        simp only [isEnd, closes, y, hpipe, reduceCtorEq, false_and, if_false, true_and]
        omega
    · rw [if_neg hpipe]
      refine ⟨_, rfl, hback _ (by rw [h1]) (fun _ => rfl) fun n w => ?_⟩
      simp [isEnd, hpipe]

/-! ### Pipes -/

omit [DecidableEq P] in
/-- An end that a process is about to close is open. -/
theorem Inv.open_of_closes (h : Inv s) (hpc : (s.proc p).pc = .pipeclose n w k) :
    s.isOpen n w = true := by
  have h1 : closes n w (s.proc p) ≤ total (closes n w) s.proc := weight_le _ _ p
  have h2 := h.ends n w
  have h3 : closes n w (s.proc p) = 1 := by simp [closes, hpc]
  by_contra hne
  rw [if_neg hne] at h2
  omega

/-- `pipeclose` closes an end, and frees the page if the other end is closed. -/
theorem Inv.pipeclose (h : Inv s) (hlive : (s.proc p).life = .live)
    (hpc : (s.proc p).pc = .pipeclose n w k) : Inv ((s.pipeclose n w).resume p k) := by
  have hopen := h.open_of_closes hpc
  have hn : n < s.pipes := by
    by_contra hle
    rw [h.later n w (by omega)] at hopen
    cases hopen
  rw [resume_eq]
  have hisOpen : ∀ m v, (s.pipeclose n w).isOpen m v
      = if m = n ∧ v = w then false else s.isOpen m v := by
    intro m v
    by_cases hm : m = n
    · subst hm
      by_cases hv : v = w
      · simp [State.pipeclose, hv]
      · simp [State.pipeclose, hv]
    · simp [State.pipeclose, hm]
  apply h.change (y := k.after (s.proc p)) rfl (h.not_made hlive)
  · intro g
    rw [uses_pipeclose hpc]
    rfl
  · exact fun g => .inl rfl
  · exact h.idle
  · intro g hg
    rw [show Pc.fresh _ = [] from after_fresh] at hg
    cases hg
  · apply after_ok
    intro fd rest hk
    have hok := h.ok p
    unfold Proc.Ok at hok
    rw [hpc, hk] at hok
    exact hok
  · intro hd
    cases (after_life.trans hlive).symm.trans hd
  · exact fun hq => absurd (after_life.trans hlive) hq
  · exact fun np r e => absurd e after_fork
  · intro m v
    rw [hisOpen, show closes m v (k.after _) = 0 from after_closes]
    by_cases hm : m = n ∧ v = w
    · rw [if_pos hm, hm.1, hm.2, hopen]
      simp [closes, hpc, State.pipeclose]
    · have hm' : ¬ (n = m ∧ w = v) := fun e => hm ⟨e.1.symm, e.2.symm⟩
      rw [if_neg hm]
      simp [closes, hpc, hm', State.pipeclose]
  · intro m
    rw [hisOpen, hisOpen]
    have hm := h.freed m
    by_cases hmn : m = n
    · cases w <;> cases ho : s.isOpen m true <;> cases ho' : s.isOpen m false <;>
        simp_all [State.pipeclose]
    · have hkeep : (s.pipeclose n w).freed m = s.freed m := by
        simp only [State.pipeclose]
        split
        · rfl
        · exact update_of_ne hmn ..
      rw [hkeep, hm]
      simp [hmn, State.pipeclose]
  · intro m v hm
    rw [hisOpen, h.later m v hm]
    simp

/-- `pipealloc` makes a pipe out of two files and a page. -/
theorem Inv.pipealloc {f0 f1 : FileId} (h : Inv s) (hlive : (s.proc p).life = .live)
    (hpc : (s.proc p).pc = .pipePage f0 f1) :
    Inv ((s.pipealloc f0 f1).goto p (.pipeFd0 f0 f1)) := by
  have hne : f0 ≠ f1 := by
    have hok := h.ok p
    unfold Ok at hok
    rwa [hpc] at hok
  have hfresh : (s.proc p).pc.fresh = [f0, f1] := by rw [hpc]; rfl
  have hmem0 : f0 ∈ (s.proc p).pc.fresh := by simp [hfresh]
  have hmem1 : f1 ∈ (s.proc p).pc.fresh := by simp [hfresh]
  obtain ⟨href0, htype0⟩ := h.fresh p f0 hmem0
  obtain ⟨href1, htype1⟩ := h.fresh p f1 hmem1
  set s' := (s.pipealloc f0 f1).goto p (.pipeFd0 f0 f1)
  set z0 : File := { s.file f0 with
    type := .pipe, readable := true, writable := false, pipe := s.pipes } with hz0
  set z1 : File := { s.file f1 with
    type := .pipe, readable := false, writable := true, pipe := s.pipes } with hz1
  have hfile : s'.file = update (update s.file f0 z0) f1 z1 := rfl
  have hf0 : s'.file f0 = z0 := by
    rw [hfile, update_of_ne hne, update_self]
  have hf1 : s'.file f1 = z1 := by rw [hfile, update_self]
  have hg : ∀ {g}, g ≠ f0 → g ≠ f1 → s'.file g = s.file g := fun h0 h1 => by
    rw [hfile, update_of_ne h1, update_of_ne h0]
  have hcases : ∀ (g : FileId) (Q : File → Prop), Q z0 → Q z1 → Q (s.file g) → Q (s'.file g) := by
    grind
  have href : ∀ g, (s'.file g).ref = (s.file g).ref := by grind
  -- no file is an end of the new pipe yet
  apply h.change (y := { s.proc p with pc := .pipeFd0 f0 f1 })
  · rfl
  · exact h.not_made hlive
  · intro g
    rw [href]
    unfold uses counted
    rw [hpc]
    rfl
  · intro g
    by_cases h0 : g = f0
    · rw [h0]
      exact .inr (.inl (h.uses_fresh hmem0))
    · by_cases h1 : g = f1
      · rw [h1]
        exact .inr (.inl (h.uses_fresh hmem1))
      · exact .inl (hg h0 h1)
  · intro g
    apply hcases g (fun z => z.ref = 0 → z.type = .none)
    · intro e
      cases href0.symm.trans e
    · intro e
      cases href1.symm.trans e
    · exact h.idle g
  · exact nofun
  · trivial
  · intro hd
    cases hlive.symm.trans hd
  · exact fun hq => absurd hlive hq
  · exact nofun
  · intro m v
    have e0 : isEnd m v (s.file f0) = 0 := by simp [isEnd, htype0]
    have e1 : isEnd m v (update s.file f0 z0 f1) = 0 := by
      rw [update_of_ne (Ne.symm hne)]
      simp [isEnd, htype1]
    have t0 := total_update (isEnd m v) s.file f0 z0
    have t1 := total_update (isEnd m v) (update s.file f0 z0) f1 z1
    rw [← hfile] at t1
    have hopen : s'.isOpen m v = if m = s.pipes then true else s.isOpen m v := by
      show update s.isOpen s.pipes (fun _ => true) m v = _
      by_cases hm : m = s.pipes <;> simp [hm]
    have hc : closes m v (s.proc p) = 0 := by simp [closes, hpc]
    have hc' : closes m v ({ s.proc p with pc := .pipeFd0 f0 f1 } : Proc P) = 0 := rfl
    rw [hc, hc', hopen]
    by_cases hm : m = s.pipes
    · have i0 : isEnd m v z0 = if v = false then 1 else 0 := by
        cases v <;> simp [isEnd, hz0, hm]
      have i1 : isEnd m v z1 = if v = true then 1 else 0 := by
        cases v <;> simp [isEnd, hz1, hm]
      have hold : s.isOpen m v = false := by
        rw [hm]
        exact h.later _ v le_rfl
      rw [hold, if_pos hm]
      cases v <;> simp_all
    · have i0 : isEnd m v z0 = 0 := by simp [isEnd, hz0, Ne.symm hm]
      have i1 : isEnd m v z1 = 0 := by simp [isEnd, hz1, Ne.symm hm]
      rw [if_neg hm]
      omega
  · intro m
    show s.freed m = if m < s.pipes + 1 ∧ update s.isOpen s.pipes (fun _ => true) m true = false ∧
      update s.isOpen s.pipes (fun _ => true) m false = false then 1 else 0
    rw [h.freed m]
    by_cases hm : m = s.pipes
    · simp [hm]
    · have hlt : m < s.pipes + 1 ↔ m < s.pipes := by omega
      simp [hm, hlt]
  · intro m v hm
    have hm' : s.pipes + 1 ≤ m := hm
    show update s.isOpen s.pipes (fun _ => true) m v = false
    rw [update_of_ne (by omega)]
    exact h.later m v (by omega)

end Xv6.Files
