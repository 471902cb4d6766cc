import Xv6.Files.RefSteps

namespace Xv6.Files

open Xv6.Count Function List Proc Run State

/-!
# Reference counts under the system calls

* `Inv.plain`, `Inv.fdalloc`, `Inv.clearFd` — what the calls do to descriptors;
* `Inv.forkStart`, `Inv.forkNext`, `Inv.forkDup`, `Inv.forkEnd` — `fork`, which fills the
  descriptors of another process;
* `Inv.step` — every step keeps `Inv`, and none panics.
-/

variable {P : Type} {s s' : State P} {p q np : P} {f : FileId} {fd : Fd}
variable {x : Proc P} {pc pc0 : Pc P} {rest : List Fd}

/-! ### Descriptors -/

theorem count_cons_isFile {g f : FileId} {l : List FileId} :
    (f :: l).count g = l.count g + isFile g (some f) := by
  rw [count_cons, isFile_some]
  simp only [beq_iff_eq]

/-- Places where the descriptors are all counted and no end of a pipe is closed; not in `fork`. -/
def Pc.plain : Pc P → Bool
  | .dup _ _ | .pipeclose _ _ _ | .fork _ _ => false
  | _ => true

theorem counted_plain (h : x.pc.plain = true) : x.counted = x.ofile := by
  unfold counted
  cases hpc : x.pc with
  | dup f fd =>
    rw [hpc] at h
    cases h
  | pipeclose n w k =>
    rw [hpc] at h
    cases h
  | _ => rfl

theorem closes_plain (h : x.pc.plain = true) (n : Nat) (w : Bool) : closes n w x = 0 := by
  unfold closes
  cases hpc : x.pc with
  | pipeclose n w k =>
    rw [hpc] at h
    cases h
  | _ => rfl

theorem plain_ne_fork (h : pc.plain = true) (np : P) (r : List Fd) : pc ≠ .fork np r := by
  rintro rfl
  cases h

/-- What `argfd` returns is a descriptor and its file. -/
theorem argfd_ofile {i : Int} {x : Fd × FileId} (h : s.argfd p i = some x) :
    (s.proc p).ofile x.1 = some x.2 := by
  unfold argfd at h
  split at h
  · obtain ⟨f, hf, rfl⟩ := Option.map_eq_some_iff.mp h
    exact hf
  · cases h

variable [Fintype P] [DecidableEq P]

section

variable (h : Inv s)
include h

/-- A live process goes from one such place to another, with the same references. -/
theorem Inv.plain (hlive : (s.proc p).life = .live) (hpc : (s.proc p).pc = pc0)
    (hplain : pc0.plain = true) (hplain' : pc.plain = true) {o : Fd → Option FileId} {r : P → Int}
    (hrow : ∀ g, row g o + pc.held.count g = row g (s.proc p).ofile + pc0.held.count g)
    (hfresh : ∀ f ∈ pc.fresh, f ∈ pc0.fresh)
    (hok : ({ s.proc p with ofile := o, pc } : Proc P).Ok) :
    Inv { s with proc := update s.proc p { s.proc p with ofile := o, pc }, ret := r } := by
  subst hpc
  refine h.own hlive (fun g => ?_) (fun n w => ?_) hfresh hok (fun hne => absurd hlive hne)
    fun np r e => absurd e (plain_ne_fork hplain' np r)
  · unfold uses
    rw [counted_plain hplain, counted_plain hplain']
    exact hrow g
  · rw [closes_plain hplain, closes_plain hplain']

/-- `fdalloc` puts a file that the process holds into a descriptor. -/
theorem Inv.fdalloc (hlive : (s.proc p).life = .live) (hpc : (s.proc p).pc = pc0)
    (hfd : (s.proc p).ofile fd = none) (hplain : pc0.plain = true) (hplain' : pc.plain = true)
    (hheld : pc0.held = f :: pc.held) (hfresh : ∀ g ∈ pc.fresh, g ∈ pc0.fresh)
    (hok : ({ s.proc p with ofile := update (s.proc p).ofile fd (some f), pc } : Proc P).Ok) :
    Inv (s.setFd p fd (some f) pc) := by
  refine h.plain hlive hpc hplain hplain' (fun g => ?_) hfresh hok
  have hrow := row_update g (s.proc p).ofile fd (some f)
  rw [hfd, isFile_none] at hrow
  rw [hheld, count_cons_isFile]
  omega

/-- A descriptor is cleared, and the process holds its file. -/
theorem Inv.clearFd (hlive : (s.proc p).life = .live) (hpc : (s.proc p).pc = pc0)
    (hfd : (s.proc p).ofile fd = some f) (hplain : pc0.plain = true) (hplain' : pc.plain = true)
    (hheld : pc.held.Perm (f :: pc0.held)) (hfresh : pc.fresh = [])
    (hok : ({ s.proc p with ofile := update (s.proc p).ofile fd none, pc } : Proc P).Ok) :
    Inv (s.setFd p fd none pc) := by
  refine h.plain hlive hpc hplain hplain' (fun g => ?_) (by rw [hfresh]; nofun) hok
  have hrow := row_update g (s.proc p).ofile fd none
  rw [hfd, isFile_none] at hrow
  rw [hheld.count_eq, count_cons_isFile]
  omega

/-- `sys_dup` fills a descriptor before it has the reference. -/
theorem Inv.dupFd (hlive : (s.proc p).life = .live) (hpc : (s.proc p).pc = .user) {fd0 : Fd}
    (hfd0 : (s.proc p).ofile fd0 = some f) (hfd : (s.proc p).ofile fd = none) :
    Inv (s.setFd p fd (some f) (.dup f fd)) := by
  have hne : fd0 ≠ fd := by
    rintro rfl
    cases hfd0.symm.trans hfd
  refine h.own hlive (fun g => ?_) (fun n w => ?_) nofun ?_ (fun hq => absurd hlive hq) nofun
  · unfold uses
    rw [counted_plain (show (s.proc p).pc.plain = true by rw [hpc]; rfl), hpc]
    simp only [counted, update_idem]
    rw [← hfd, update_eq_self]
    rfl
  · simp [closes, hpc]
  · refine ⟨update_self .., fd0, hne, ?_⟩
    show update (s.proc p).ofile fd (some f) fd0 = some f
    rw [update_of_ne hne, hfd0]

/-- A process goes on to a place where it has the same. -/
theorem Inv.move (hlive : (s.proc p).life = .live) (hpc : (s.proc p).pc = pc0)
    (hplain : pc0.plain = true) (hplain' : pc.plain = true) (hheld : pc.held = pc0.held)
    (hfresh : pc.fresh = []) (hok : ({ s.proc p with pc } : Proc P).Ok) : Inv (s.goto p pc) :=
  h.plain hlive hpc hplain hplain' (fun g => by rw [hheld]) (by rw [hfresh]; nofun) hok

/-- A process takes an entry of the file table. -/
theorem Inv.take (hlive : (s.proc p).life = .live) (hpc : (s.proc p).pc = pc0)
    (hf : s.findFile = some f) (hplain : pc0.plain = true) (hplain' : pc.plain = true)
    (hheld : pc.held.Perm (f :: pc0.held)) (hfresh : ∀ g ∈ pc.fresh, g = f ∨ g ∈ pc0.fresh)
    (hok : ({ s.proc p with pc } : Proc P).Ok) : Inv ((s.filealloc f).goto p pc) := by
  subst hpc
  apply h.filealloc hlive (findFile_ref hf)
  · rw [counted_plain hplain, counted_plain hplain']
  · intro g
    rw [hheld.count_eq, count_cons_isFile]
  · intro n w
    rw [closes_plain hplain, closes_plain hplain']
  · exact hfresh
  · exact hok
  · exact plain_ne_fork hplain'

/-! ### `fork` -/

/-- `fork` takes a process that does not exist. -/
theorem Inv.forkStart (hlive : (s.proc p).life = .live) (hpc : (s.proc p).pc = .user)
    (hnp : (s.proc np).life = .dead) :
    Inv ((s.setProc np { s.proc np with life := .embryo }).goto p
      (.fork np (List.finRange NOFILE))) := by
  have hne : np ≠ p := by
    rintro rfl
    cases hlive.symm.trans hnp
  have hnobody : ∀ q r, (s.proc q).pc ≠ .fork np r := fun q r hq => by
    cases hnp.symm.trans (h.making hq).1
  have hnpc : (s.proc np).pc = .user := h.quiet np (by rw [hnp]; decide)
  set s1 := s.setProc np { s.proc np with life := .embryo }
  have hp1 : s1.proc p = s.proc p := update_of_ne (Ne.symm hne) ..
  have hnp1 : s1.proc np = { s.proc np with life := .embryo } := update_self ..
  have h1 : Inv s1 := by
    apply h.change (p := np) (y := { s.proc np with life := .embryo })
    · rfl
    · exact fun q r hq => absurd hq (hnobody q r)
    · exact fun f => rfl
    · exact fun f => .inl rfl
    · exact h.idle
    · exact h.fresh np
    · exact h.ok np
    · rintro ⟨⟩
    · exact fun _ => hnpc
    · exact fun m r e => by cases hnpc.symm.trans e
    · exact fun n w => rfl
    · exact h.freed
    · exact h.later
  have hnobody1 : ∀ q r, (s1.proc q).pc ≠ .fork np r := fun q r hq => by
    by_cases hqn : q = np
    · rw [hqn, hnp1] at hq
      cases hnpc.symm.trans hq
    · rw [show s1.proc q = s.proc q from update_of_ne hqn ..] at hq
      exact hnobody q r hq
  have hpc1 : (s1.proc p).pc = .user := by rw [hp1, hpc]
  apply h1.own (p := p) (y := { s1.proc p with pc := .fork np (finRange NOFILE) })
  · rw [hp1]
    exact hlive
  · intro f
    unfold uses counted
    rw [hpc1]
    rfl
  · intro n w
    simp [closes, hpc1]
  · rintro _ ⟨⟩
  · trivial
  · intro hq
    rw [hp1] at hq
    exact absurd hlive hq
  · rintro m r ⟨⟩
    refine ⟨hne, .inr ⟨?_, hnobody1⟩⟩
    rw [hnp1]
    exact ⟨rfl, nodup_finRange _, fun fd _ => h.dead np hnp fd⟩

/-- The loop of `fork` goes on to the next descriptor. -/
theorem Inv.forkNext (hlive : (s.proc p).life = .live)
    (hpc : (s.proc p).pc = .fork np (fd :: rest)) : Inv (s.goto p (.fork np rest)) := by
  have hne : np ≠ p := by
    rintro rfl
    cases hlive.symm.trans (h.making hpc).1
  apply h.own hlive (y := { s.proc p with pc := .fork np rest })
  · intro f
    unfold uses counted
    rw [hpc]
    rfl
  · intro n w
    simp [closes, hpc]
  · rintro _ ⟨⟩
  · trivial
  · exact fun hq => absurd hlive hq
  · rintro m r ⟨⟩
    exact ⟨hne, .inl ⟨[fd], hpc⟩⟩

/-- `fork` copies a descriptor. -/
theorem Inv.forkDup (hlive : (s.proc p).life = .live) (hpc : (s.proc p).pc = .fork np (fd :: rest))
    (hfd : (s.proc p).ofile fd = some f) :
    (s.file f).ref ≠ 0 ∧
      Inv (((s.setFile f { s.file f with ref := (s.file f).ref + 1 }).setFd np fd (some f)
        (s.proc np).pc).goto p (.fork np rest)) := by
  obtain ⟨hemb, hnodup, hnone⟩ := h.making hpc
  have hne : np ≠ p := by
    rintro rfl
    cases hlive.symm.trans hemb
  have hone : 1 ≤ uses f (s.proc p) := by
    have := isFile_le_row f (s.proc p).ofile fd
    rw [hfd, isFile_some, if_pos rfl] at this
    unfold uses counted
    rw [hpc]
    simp only
    omega
  have href := le_trans hone (h.uses_le f p)
  refine ⟨by omega, ?_⟩
  have hnpc : (s.proc np).pc = .user := h.quiet np (by rw [hemb]; decide)
  -- the forker goes on first
  have h1 := h.forkNext hlive hpc
  set s1 := s.goto p (.fork np rest)
  have hnp1 : s1.proc np = s.proc np := update_of_ne hne ..
  set y : Proc P := { s.proc np with ofile := update (s.proc np).ofile fd (some f) } with hy
  have hcounted : (s.proc np).counted = (s.proc np).ofile := by
    unfold counted
    rw [hnpc]
  have hcounted' : y.counted = y.ofile := by
    unfold counted
    rw [show y.pc = .user from hnpc]
  have huses : ∀ g, uses g y = uses g (s.proc np) + isFile g (some f) := by
    intro g
    have hrow := row_update g (s.proc np).ofile fd (some f)
    rw [hnone fd (mem_cons_self ..), isFile_none] at hrow
    unfold uses
    rw [hcounted, hcounted']
    simp only [hy]
    omega
  have hfile : ∀ g, update s.file f { s.file f with ref := (s.file f).ref + 1 } g =
      if g = f then { s.file f with ref := (s.file f).ref + 1 } else s.file g := fun g => by grind
  apply h1.change (p := np) (y := y)
  · show update (update s.proc np y) p { (update s.proc np y) p with pc := .fork np rest } = _
    rw [update_of_ne (Ne.symm hne)]
    exact update_comm hne _ _ _
  · intro q r hq
    have hqp : q = p := h1.forker hq (show (s1.proc p).pc = .fork np rest by
      rw [show s1.proc p = _ from update_self ..])
    rw [hqp, show s1.proc p = _ from update_self ..] at hq
    cases hq
    refine ⟨hemb, (nodup_cons.mp hnodup).2, fun fd' hfd' => ?_⟩
    have hne' : fd' ≠ fd := fun e => (nodup_cons.mp hnodup).1 (e ▸ hfd')
    show update (s.proc np).ofile fd (some f) fd' = none
    rw [update_of_ne hne']
    exact hnone fd' (mem_cons_of_mem _ hfd')
  · intro g
    rw [hnp1, huses]
    show (update s.file f _ g).ref + _ = (s.file g).ref + _
    rw [hfile, isFile_some]
    by_cases hg : g = f
    · rw [if_pos hg, if_pos hg.symm, hg]
      simp only
      omega
    · rw [if_neg hg, if_neg (Ne.symm hg)]
      omega
  · intro g
    by_cases hg : g = f
    · refine .inr (.inr (.inr ⟨p, ?_⟩))
      have hp1 : s1.proc p = { s.proc p with pc := .fork np rest } := update_self ..
      rw [hp1, hg]
      refine ⟨?_, nofun⟩
      unfold uses counted at hone ⊢
      rw [hpc] at hone
      exact hone
    · exact .inl ((hfile g).trans (if_neg hg))
  · intro g
    show (update s.file f _ g).ref = 0 → (update s.file f _ g).type = .none
    rw [hfile]
    split
    · exact nofun
    · exact h.idle g
  · intro g hg
    rw [show y.pc = .user from hnpc] at hg
    cases hg
  · unfold Ok
    rw [show y.pc = .user from hnpc]
    trivial
  · intro hd
    cases hemb.symm.trans hd
  · exact fun _ => hnpc
  · exact fun m r e => by cases hnpc.symm.trans e
  · intro n w
    have : total (isEnd n w) (update s.file f { s.file f with ref := (s.file f).ref + 1 }) =
        total (isEnd n w) s.file := by
      refine total_congr fun g => ?_
      rw [hfile]
      split
      · rename_i hg
        rw [hg]
        rfl
      · rfl
    rw [hnp1]
    show total (isEnd n w) (update s.file f _) + _ + _ = total (isEnd n w) s.file + _ + _
    rw [this]
    rfl
  · exact h.freed
  · exact h.later

/-- `fork` is done with the process that it made, which is live or gone. -/
theorem Inv.forkEnd (hlive : (s.proc p).life = .live) {l : Life} {r : Int}
    (hpc : (s.proc p).pc = .fork np rest) (hl : l = .dead → rest = List.finRange NOFILE) :
    Inv ((s.setProc np { s.proc np with life := l }).leave p r) := by
  obtain ⟨hemb, -, hnone⟩ := h.making hpc
  have hne : np ≠ p := by
    rintro rfl
    cases hlive.symm.trans hemb
  have hnpc : (s.proc np).pc = .user := h.quiet np (by rw [hemb]; decide)
  have h1 : Inv (s.goto p .user) := by
    refine h.own hlive (fun f => ?_) (fun n w => ?_) nofun trivial (fun hq => absurd hlive hq) nofun
    · unfold uses counted
      rw [hpc]
      rfl
    · simp [closes, hpc]
  set s1 := s.goto p .user
  have hnp1 : s1.proc np = s.proc np := update_of_ne hne ..
  -- nobody makes `np` now
  have hnobody : ∀ q r, (s1.proc q).pc ≠ .fork np r := by
    intro q r hq
    by_cases hqp : q = p
    · rw [hqp, show s1.proc p = _ from update_self ..] at hq
      cases hq
    · rw [show s1.proc q = s.proc q from update_of_ne hqp ..] at hq
      exact hqp (h.forker hq hpc)
  apply h1.change (p := np) (y := { s.proc np with life := l })
  · show update (update s.proc np _) p { (update s.proc np _) p with pc := .user } = _
    rw [update_of_ne (Ne.symm hne)]
    exact update_comm hne _ _ _
  · exact fun q r hq => absurd hq (hnobody q r)
  · intro f
    rw [hnp1]
    rfl
  · exact fun f => .inl rfl
  · exact h.idle
  · exact h.fresh np
  · exact h.ok np
  · intro hd fd
    rw [hl hd] at hnone
    exact hnone fd (mem_finRange fd)
  · exact fun _ => hnpc
  · intro m r e
    cases hnpc.symm.trans e
  · intro n w
    rw [hnp1]
    rfl
  · exact h.freed
  · exact h.later

/-! ### Every step -/

/-- `exit` has closed all files. -/
theorem Inv.exitEnd (hlive : (s.proc p).life = .live) (hpc : (s.proc p).pc = .exit []) :
    Inv (s.setProc p { s.proc p with pc := .user, life := .dead }) := by
  have hok := h.ok p
  unfold Ok at hok
  rw [hpc] at hok
  apply h.own hlive (y := { s.proc p with pc := .user, life := .dead })
  · intro f
    unfold uses counted
    rw [hpc]
    rfl
  · intro n w
    simp [closes, hpc]
  · rintro _ ⟨⟩
  · trivial
  · exact fun _ => ⟨rfl, fun fd => hok fd not_mem_nil⟩
  · rintro _ _ ⟨⟩

/-- A call that has nothing to give back returns. -/
theorem Inv.leave (hlive : (s.proc p).life = .live) (hpc : (s.proc p).pc = pc0)
    (hplain : pc0.plain = true) (hheld : pc0.held = []) (r : Int) : Inv (s.leave p r) :=
  h.plain hlive hpc hplain rfl (fun g => by rw [hheld]; rfl) nofun trivial

/-- What a process does next in a call. -/
theorem Inv.run (p : P) : s.run p = .hang ∨ ∃ s', s.run p = .ok s' ∧ Inv s' := by
  by_cases huser : (s.proc p).pc = .user
  · left
    unfold State.run
    rw [huser]
  have hlive : (s.proc p).life = .live := by
    by_contra hne
    exact huser (h.quiet p hne)
  have hok := h.ok p
  unfold Proc.Ok at hok
  right
  unfold State.run
  cases hpc : (s.proc p).pc with
  | user => exact absurd hpc huser
  | openFile r w =>
    cases hf : s.findFile with
    | some f =>
      exact ⟨_, rfl, h.take hlive hpc hf rfl rfl .rfl (fun g hg => .inl (mem_singleton.mp hg))
        trivial⟩
    | none => exact ⟨_, rfl, h.leave hlive hpc rfl rfl _⟩
  | openFd r w f =>
    cases hfd : s.findFd p with
    | some fd =>
      exact ⟨_, rfl, h.fdalloc hlive hpc (findFd_none hfd) rfl rfl rfl (fun _ => id)
        (update_self ..)⟩
    | none => exact ⟨_, rfl, h.move hlive hpc rfl rfl rfl rfl trivial⟩
  | openSet r w f fd => exact ⟨_, rfl, h.openSet hlive hpc _⟩
  | dup f fd =>
    obtain ⟨hne, hdup⟩ := h.filedup hlive hpc fd.val
    simp only [State.filedup]
    rw [if_neg (by omega)]
    exact ⟨_, rfl, hdup⟩
  | pipe0 =>
    cases hf : s.findFile with
    | some f =>
      exact ⟨_, rfl, h.take hlive hpc hf rfl rfl .rfl (fun g hg => .inl (mem_singleton.mp hg))
        trivial⟩
    | none => exact ⟨_, rfl, h.leave hlive hpc rfl rfl _⟩
  | pipe1 f0 =>
    cases hf : s.findFile with
    | some f =>
      have hmem : f0 ∈ (s.proc p).pc.fresh := by
        rw [hpc]
        exact mem_singleton_self f0
      refine ⟨_, rfl, h.take hlive hpc hf rfl rfl (Perm.swap ..) (fun g hg => ?_) ?_⟩
      · rcases mem_cons.mp hg with hg | hg
        · exact .inr (mem_singleton.mpr hg)
        · exact .inl (mem_singleton.mp hg)
      · -- the first is in use
        rintro rfl
        have := (h.fresh p f0 hmem).1
        have := findFile_ref hf
        omega
    | none => exact ⟨_, rfl, h.move hlive hpc rfl rfl rfl rfl trivial⟩
  | pipePage f0 f1 => exact ⟨_, rfl, h.pipealloc hlive hpc⟩
  | pipeFd0 f0 f1 =>
    cases hfd : s.findFd p with
    | some fd =>
      exact ⟨_, rfl, h.fdalloc hlive hpc (findFd_none hfd) rfl rfl rfl nofun (update_self ..)⟩
    | none => exact ⟨_, rfl, h.move hlive hpc rfl rfl rfl rfl trivial⟩
  | pipeFd1 f0 f1 fd0 =>
    rw [hpc] at hok
    cases hfd : s.findFd p with
    | some fd =>
      have h1 : Inv (s.setFd p fd (some f1) .user) :=
        h.fdalloc hlive hpc (findFd_none hfd) rfl rfl rfl nofun trivial
      have hself : (s.setFd p fd (some f1) .user).proc p =
          { s.proc p with ofile := update (s.proc p).ofile fd (some f1), pc := .user } :=
        update_self ..
      exact ⟨_, rfl, h1.leave (by rw [hself]; exact hlive) (by rw [hself]) rfl rfl 0⟩
    | none => exact ⟨_, rfl, h.clearFd hlive hpc hok rfl rfl .rfl rfl trivial⟩
  | fork np rest =>
    cases rest with
    | nil => exact ⟨_, rfl, h.forkEnd hlive hpc nofun⟩
    | cons fd rest =>
      simp only
      cases hfd : (s.proc p).ofile fd with
      | some f =>
        obtain ⟨hne, hdup⟩ := h.forkDup hlive hpc hfd
        simp only [State.filedup]
        rw [if_neg (by omega)]
        exact ⟨_, rfl, hdup⟩
      | none => exact ⟨_, rfl, h.forkNext hlive hpc⟩
  | exit rest =>
    rw [hpc] at hok
    cases rest with
    | nil => exact ⟨_, rfl, h.exitEnd hlive hpc⟩
    | cons fd rest =>
      simp only
      cases hfd : (s.proc p).ofile fd with
      | some f =>
        exact ⟨_, rfl, h.move hlive hpc rfl rfl rfl rfl ⟨hfd, hok⟩⟩
      | none =>
        refine ⟨_, rfl, h.move hlive hpc rfl rfl rfl rfl fun fd' hfd' => ?_⟩
        by_cases heq : fd' = fd
        · rw [heq]
          exact hfd
        · exact hok fd' (not_mem_cons_of_ne_of_not_mem heq hfd')
  | fileclose f k => exact h.fileclose hlive hpc
  | pipeclose n w k => exact ⟨_, rfl, h.pipeclose hlive hpc⟩

/-- A system call that a process makes. -/
theorem Inv.call (a : Act P) (hpc : (s.proc (State.actor a)).pc = .user)
    (hlive : (s.proc (State.actor a)).life = .live) :
    s.call a = .hang ∨ ∃ s', s.call a = .ok s' ∧ Inv s' := by
  have hleave : ∀ {p}, p = State.actor a → ∀ r, Inv (s.leave p r) := by
    rintro p rfl r
    exact h.leave hlive hpc rfl rfl r
  have hgo : ∀ {p}, p = State.actor a → ∀ {pc : Pc P}, pc.plain = true → pc.held = [] →
      pc.fresh = [] → ({ s.proc p with pc } : Proc P).Ok → Inv (s.goto p pc) := by
    rintro p rfl pc hplain hheld hfresh hok
    exact h.move hlive hpc rfl hplain hheld hfresh hok
  cases a with
  | «open» p found r w =>
    right
    refine ⟨_, rfl, ?_⟩
    split
    · exact hgo rfl rfl rfl rfl trivial
    · exact hleave rfl _
  | dup p fd =>
    right
    simp only [State.call]
    cases harg : s.argfd p fd with
    | none => exact ⟨_, rfl, hleave rfl _⟩
    | some x =>
      cases hfd : s.findFd p with
      | none => exact ⟨_, rfl, hleave rfl _⟩
      | some fd' => exact ⟨_, rfl, h.dupFd hlive hpc (argfd_ofile harg) (findFd_none hfd)⟩
  | close p fd =>
    right
    simp only [State.call]
    cases harg : s.argfd p fd with
    | none => exact ⟨_, rfl, hleave rfl _⟩
    | some x => exact ⟨_, rfl, h.clearFd hlive hpc (argfd_ofile harg) rfl rfl .rfl rfl trivial⟩
  | pipe p =>
    right
    exact ⟨_, rfl, hgo rfl rfl rfl rfl trivial⟩
  | fork p np =>
    right
    simp only [State.call]
    by_cases hnp : (s.proc np).life = .dead
    · rw [if_pos hnp]
      exact ⟨_, rfl, h.forkStart hlive hpc hnp⟩
    · rw [if_neg hnp]
      exact ⟨_, rfl, hleave rfl _⟩
  | exit p =>
    right
    exact ⟨_, rfl, hgo rfl rfl rfl rfl fun fd hfd => absurd (mem_finRange fd) hfd⟩
  | run p => exact .inl rfl
  | noPage p => exact .inl rfl

/-- There is no page for a pipe, or for the memory of a new process. -/
theorem Inv.noPage (p : P) :
    s.step (.noPage p) = .hang ∨ ∃ s', s.step (.noPage p) = .ok s' ∧ Inv s' := by
  have hlive : (s.proc p).pc ≠ .user → (s.proc p).life = .live := by
    intro hne
    by_contra hl
    exact hne (h.quiet p hl)
  simp only [step]
  cases hpc : (s.proc p).pc with
  | pipePage f0 f1 =>
    exact .inr ⟨_, rfl, h.move (hlive (by rw [hpc]; nofun)) hpc rfl rfl rfl rfl trivial⟩
  | fork np rest =>
    simp only
    by_cases hrest : rest = finRange NOFILE
    · rw [if_pos hrest]
      exact .inr ⟨_, rfl, h.forkEnd (hlive (by rw [hpc]; nofun)) hpc fun _ => hrest⟩
    · rw [if_neg hrest]
      exact .inl rfl
  | _ => exact .inl rfl

/-- Every step keeps `Inv`, and none panics. -/
theorem Inv.step (a : Act P) : s.step a = .hang ∨ ∃ s', s.step a = .ok s' ∧ Inv s' := by
  have hcall : ∀ b : Act P,
      (if (s.proc (actor b)).pc = .user ∧ (s.proc (actor b)).life = .live then s.call b
        else .hang) = .hang ∨
      ∃ s', (if (s.proc (actor b)).pc = .user ∧ (s.proc (actor b)).life = .live then
        s.call b else .hang) = .ok s' ∧ Inv s' := by
    intro b
    by_cases hb : (s.proc (actor b)).pc = .user ∧ (s.proc (actor b)).life = .live
    · rw [if_pos hb]
      exact h.call b hb.1 hb.2
    · exact .inl (if_neg hb)
  cases a with
  | run p => exact h.run p
  | noPage p => exact h.noPage p
  | «open» p found r w => exact hcall (.open p found r w)
  | dup p fd => exact hcall (.dup p fd)
  | close p fd => exact hcall (.close p fd)
  | pipe p => exact hcall (.pipe p)
  | fork p np => exact hcall (.fork p np)
  | exit p => exact hcall (.exit p)

end

end Xv6.Files
