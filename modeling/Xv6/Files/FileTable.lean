import Xv6.Files.RefCalls
import Mathlib.Algebra.BigOperators.Ring.Finset
import Mathlib.Data.Fintype.BigOperators

namespace Xv6.Files

open Xv6.Count Finset Function List Run State

/-!
# The file table

What holds of the file table, the descriptors and the pipes in every state that processes can
reach.

* `Trying` — how far a call of `open`, `dup` or `pipe` has changed the files and the descriptors;
* `Trying.run`, `Trying.other` — its own steps, and those of other processes;
* `file_table` — reference counts, panics, pages of pipes, calls that fail.
-/

variable {P : Type}
variable {a : Act P}

/-- Between system calls. -/
def State.Idle (s : State P) : Prop := ∀ p, (s.proc p).pc = .user

/-- The descriptors for file `f`, of all processes. -/
def State.descriptors [Fintype P] (s : State P) (f : FileId) : Finset (P × Fd) :=
  Finset.univ.filter fun x => (s.proc x.1).ofile x.2 = some f

/-- There is a descriptor for an end of pipe `n`. -/
def State.Refers (s : State P) (n : Nat) : Prop :=
  ∃ p fd f, (s.proc p).ofile fd = some f ∧ (s.file f).type = .pipe ∧ (s.file f).pipe = n

/-- The entry of file `f` is as it was; what it has besides `ref` and `type` does not matter
    while it is free. -/
def SameFile (s t : State P) (f : FileId) : Prop :=
  (t.file f).ref = (s.file f).ref ∧ (t.file f).type = (s.file f).type ∧
    ((s.file f).ref ≠ 0 → t.file f = s.file f)

/-- Calls of `open`, `dup` and `pipe`. -/
def Act.Tries (p : P) : Act P → Prop
  | .open q _ _ _ | .dup q _ | .pipe q => q = p
  | _ => False

/-- Process `p` goes on in the call it is in. -/
def Act.GoesOn (p : P) (a : Act P) : Prop := a = .run p ∨ a = .noPage p

/-! ### Every state -/

section

/-- Between calls, a process has its descriptors. -/
theorem uses_user {x : Proc P} (h : x.pc = .user) (f : FileId) : uses f x = row f x.ofile := by
  unfold uses Proc.counted
  rw [h]
  exact Nat.add_zero _

variable [Fintype P] {s : State P} {p0 : P}
variable {n : Nat}

/-- At boot. -/
theorem Inv.start [DecidableEq P] (p0 : P) : Inv (State.start p0) where
  refs f := (total_eq_zero fun p => by
    rw [uses_user rfl]
    exact total_eq_zero fun _ => rfl).symm
  idle _ _ := rfl
  fresh _ := nofun
  ok _ := trivial
  making := nofun
  dead _ _ _ := rfl
  quiet _ _ := rfl
  forker := nofun
  ends n w := by
    have h1 : total (isEnd n w) (State.start p0).file = 0 := total_eq_zero fun _ => rfl
    have h2 : total (closes n w) (State.start p0).proc = 0 := total_eq_zero fun _ => rfl
    rw [h1, h2]
    rfl
  freed _ := rfl
  later _ _ _ := rfl

/-- What a step keeps. -/
theorem Inv.next [DecidableEq P] {s' : State P} (h : Inv s) (hstep : s.step a = .ok s') :
    Inv s' := by grind [h.step]

/-- What a run keeps. -/
theorem inv_reach [DecidableEq P] (h : Reach State.step (fun _ _ => True) (State.start p0) s) :
    Inv s := by
  apply h.invariant (Inv.start p0)
  exact fun s a s' hs _ hstep => hs.next hstep

/-- Between calls, `ref` counts the descriptors. -/
theorem Inv.ref_eq (h : Inv s) (hidle : s.Idle) (f : FileId) :
    (s.file f).ref = (s.descriptors f).card := by
  rw [h.refs f]
  unfold descriptors total
  rw [card_filter, Fintype.sum_prod_type]
  exact sum_congr rfl fun p _ => uses_user (hidle p) f

/-- A pipe whose page was freed has no descriptor. -/
theorem Inv.not_refers (h : Inv s) (hn : s.freed n ≠ 0) : ¬s.Refers n := by
  rintro ⟨p, fd, f, -, htype, hpipe⟩
  rw [h.freed] at hn
  split at hn
  case isFalse => exact hn rfl
  case isTrue hclosed =>
    have hends := h.ends n (s.file f).writable
    have hle := weight_le (isEnd n (s.file f).writable) s.file f
    have hone : isEnd n (s.file f).writable (s.file f) = 1 := if_pos ⟨htype, hpipe, rfl⟩
    have hopen : s.isOpen n (s.file f).writable = false := by
      cases (s.file f).writable with
      | true => exact hclosed.2.1
      | false => exact hclosed.2.2
    rw [hopen] at hends
    simp only [Bool.false_eq_true, if_false] at hends
    omega

/-- Between calls, the page of a pipe that has no descriptor is freed. -/
theorem Inv.freed_of_not_refers (h : Inv s) (hidle : s.Idle) (hn : n < s.pipes)
    (hrefers : ¬s.Refers n) : s.freed n = 1 := by
  have hclosed : ∀ w, s.isOpen n w = false := by
    intro w
    by_contra hopen
    rw [Bool.not_eq_false] at hopen
    have hends := h.ends n w
    rw [hopen, if_pos rfl] at hends
    have hclose : total (closes n w) s.proc = 0 := total_eq_zero fun p => by
      unfold closes
      rw [hidle p]
    -- no entry is an end of the pipe: one in use has a descriptor
    have hfile : total (isEnd n w) s.file = 0 := total_eq_zero fun f => by
      unfold isEnd
      refine if_neg fun hend => hrefers ?_
      have href : (s.file f).ref ≠ 0 := fun h0 => by
        cases (h.idle f h0).symm.trans hend.1
      rw [h.ref_eq hidle, card_ne_zero] at href
      obtain ⟨x, hx⟩ := href
      exact ⟨x.1, x.2, f, (mem_filter.mp hx).2, hend.1, hend.2.1⟩
    omega
  rw [h.freed]
  exact if_pos ⟨hn, hclosed true, hclosed false⟩

end

/-! ### Calls that fail -/

/-- Files that a call of `open` or `pipe` has taken. -/
def Pc.took : Pc P → List FileId
  | .openFd _ _ f | .pipe1 f => [f]
  | .pipePage f0 f1 | .pipeFd0 f0 f1 | .pipeFd1 f0 f1 _ => [f0, f1]
  | .fileclose f k => f :: k.held
  | .pipeclose _ _ k => k.held
  | _ => []

/-- The files are as in `s`, but for those of `l`, which were free; and so are the other processes.
    -/
structure Took (s t : State P) (p : P) (l : List FileId) : Prop where
  nodup : l.Nodup
  taken : ∀ f ∈ l, (s.file f).ref = 0 ∧ (t.file f).ref = 1
  same : ∀ f ∉ l, SameFile s t f
  others : ∀ q, q ≠ p → t.proc q = s.proc q

/-- The descriptors of `p` are as in `s`, and if it was alone, so is all but the files of `l`. -/
def Back (alone : Prop) (s t : State P) (p : P) (l : List FileId) : Prop :=
  (t.proc p).ofile = (s.proc p).ofile ∧ (alone → Took s t p l)

/-- How far `p` is in a call of `open`, `dup` or `pipe` that it made in `s`. -/
def Trying (alone : Prop) (s t : State P) (p : P) : Prop :=
  (t.proc p).life = .live ∧ match (t.proc p).pc with
  | .user => t.ret p = -1 → Back alone s t p []
  | .openSet _ _ _ _ | .dup _ _ => True
  | .pipeFd1 f0 f1 fd =>
    (s.proc p).ofile fd = none ∧ (t.proc p).ofile = update (s.proc p).ofile fd (some f0) ∧
      (alone → Took s t p [f0, f1])
  | .fork _ _ | .exit _ | .fileclose _ (.exit _ _) | .pipeclose _ _ (.exit _ _) => False
  | pc => Back alone s t p pc.took

section

variable {s t t' : State P} {p : P} {f g : FileId} {l l' : List FileId} {alone : Prop} {pc : Pc P}
variable {y : Proc P} {r : Int} {k : Then} {s1 : State P}

theorem Took.nil_self : Took s s p [] where
  nodup := nodup_nil
  taken := nofun
  same _ _ := ⟨rfl, rfl, fun _ => rfl⟩
  others _ _ := rfl

/-- What else changes does not matter. -/
theorem Took.of_eq (h : Took s t p l) (hfile : t'.file = t.file)
    (hothers : ∀ q, q ≠ p → t'.proc q = t.proc q) : Took s t' p l where
  nodup := h.nodup
  taken f hf := by
    rw [hfile]
    exact h.taken f hf
  same f hf := by
    unfold SameFile
    rw [hfile]
    exact h.same f hf
  others q hq := (hothers q hq).trans (h.others q hq)

theorem Took.perm (h : Took s t p l) (hl : l.Perm l') : Took s t p l' where
  nodup := hl.nodup_iff.mp h.nodup
  taken f hf := h.taken f (hl.mem_iff.mpr hf)
  same f hf := h.same f fun hmem => hf (hl.mem_iff.mp hmem)
  others := h.others

/-- Another file is taken. -/
theorem Took.take (h : Took s t p l) (hf : (t.file f).ref = 0)
    (hfile : t'.file = update t.file f { t.file f with ref := 1 })
    (hothers : ∀ q, q ≠ p → t'.proc q = t.proc q) : Took s t' p (f :: l) := by
  have hnew : f ∉ l := fun hmem => by
    have := (h.taken f hmem).2
    omega
  have hother : ∀ {g}, g ≠ f → t'.file g = t.file g := fun hg => by
    rw [hfile, update_of_ne hg]
  constructor
  case nodup => exact nodup_cons.mpr ⟨hnew, h.nodup⟩
  case taken =>
    intro g hg
    rcases mem_cons.mp hg with rfl | hg
    · refine ⟨(h.same g hnew).1.symm.trans hf, ?_⟩
      rw [hfile, update_self]
    · rw [hother (fun e => hnew (e ▸ hg))]
      exact h.taken g hg
  case same =>
    intro g hg
    have hgf := ne_of_not_mem_cons hg
    unfold SameFile
    rw [hother hgf]
    exact h.same g (not_mem_of_not_mem_cons hg)
  case others => exact fun q hq => (hothers q hq).trans (h.others q hq)

/-- A file is given back. -/
theorem Took.put (h : Took s t p (f :: l)) (htype : (s.file f).type = .none)
    (hfile : t'.file = update t.file f { t.file f with ref := 0, type := .none })
    (hothers : ∀ q, q ≠ p → t'.proc q = t.proc q) : Took s t' p l := by
  have hother : ∀ {g}, g ≠ f → t'.file g = t.file g := fun hg => by
    rw [hfile, update_of_ne hg]
  have hnodup := nodup_cons.mp h.nodup
  have hfree := (h.taken f (mem_cons_self ..)).1
  constructor
  case nodup => exact hnodup.2
  case taken =>
    intro g hg
    rw [hother (fun e => hnodup.1 (e ▸ hg))]
    exact h.taken g (mem_cons_of_mem _ hg)
  case same =>
    intro g hg
    by_cases hgf : g = f
    · rw [hgf]
      refine ⟨?_, ?_, fun hne => absurd hfree hne⟩
      · rw [hfile, update_self, hfree]
      · rw [hfile, update_self, htype]
    · unfold SameFile
      rw [hother hgf]
      exact h.same g (not_mem_cons_of_ne_of_not_mem hgf hg)
  case others => exact fun q hq => (hothers q hq).trans (h.others q hq)

/-- Files that were taken are changed. -/
theorem Took.set (h : Took s t p l) (href : ∀ f, (t'.file f).ref = (t.file f).ref)
    (hfile : ∀ f ∉ l, t'.file f = t.file f) (hothers : ∀ q, q ≠ p → t'.proc q = t.proc q) :
    Took s t' p l where
  nodup := h.nodup
  taken f hf := by
    rw [href]
    exact h.taken f hf
  same f hf := by
    unfold SameFile
    rw [hfile f hf]
    exact h.same f hf
  others q hq := (hothers q hq).trans (h.others q hq)

/-- The call may still fail, and has not changed the descriptors. -/
def Pc.mayFail : Pc P → Bool
  | .openFile _ _ | .openFd _ _ _ | .pipe0 | .pipe1 _ | .pipePage _ _ | .pipeFd0 _ _ => true
  | .fileclose _ (.ret _) | .fileclose _ (.close _) => true
  | .pipeclose _ _ (.ret _) | .pipeclose _ _ (.close _) => true
  | .user => true
  | _ => false

theorem Trying.of_back (hlive : (t.proc p).life = .live) (hmay : (t.proc p).pc.mayFail = true)
    (h : Back alone s t p (t.proc p).pc.took) : Trying alone s t p := by
  refine ⟨hlive, ?_⟩
  generalize (t.proc p).pc = pc at hmay h
  cases pc with
  | user => exact fun _ => h
  | fileclose f k =>
    cases k with
    | exit fd rest => cases hmay
    | _ => exact h
  | pipeclose n w k =>
    cases k with
    | exit fd rest => cases hmay
    | _ => exact h
  | openSet r w f fd => trivial
  | dup f fd => trivial
  | pipeFd1 f0 f1 fd => cases hmay
  | fork np rest => cases hmay
  | exit rest => cases hmay
  | _ => exact h

theorem pipealloc_ref (f0 f1 f : FileId) : ((t.pipealloc f0 f1).file f).ref = (t.file f).ref := by
  show (update (update t.file f0 _) f1 _ f).ref = _
  by_cases h1 : f = f1
  · rw [h1, update_self]
  · grind

/-- A call that failed. -/
theorem Trying.result (h : Trying alone s t p) (hpc : (t.proc p).pc = .user)
    (hret : t.ret p = -1) : Back alone s t p [] := by
  obtain ⟨-, h⟩ := h
  rw [hpc] at h
  exact h hret

variable [DecidableEq P]

/-- The process goes on without a change to its descriptors. -/
theorem Trying.go (pc : Pc P) (hproc : t'.proc = update t.proc p { t.proc p with pc })
    (hlive : (t.proc p).life = .live) (hofile : (t.proc p).ofile = (s.proc p).ofile)
    (hmay : pc.mayFail = true)
    (htook : alone → (∀ q, q ≠ p → t'.proc q = t.proc q) → Took s t' p pc.took) :
    Trying alone s t' p := by
  have hself : t'.proc p = { t.proc p with pc } := by rw [hproc, update_self]
  apply Trying.of_back
  · rw [hself]
    exact hlive
  · rw [hself]
    exact hmay
  · refine ⟨?_, fun ha => ?_⟩
    · rw [hself]
      exact hofile
    · simp_all

/-- The call returns something else than -1. -/
theorem Trying.succeeds (hproc : t'.proc = update t.proc p y) (hpc : y.pc = .user)
    (hlive : y.life = .live) (hret : t'.ret p = r) (hr : r ≠ -1) :
    Trying alone s t' p := by
  have hself : t'.proc p = y := by rw [hproc, update_self]
  unfold Trying
  rw [hself, hpc]
  exact ⟨hlive, fun h => absurd (hret.symm.trans h) hr⟩

/-- What comes after `fileclose`. -/
theorem Trying.resume (hlive : (t.proc p).life = .live)
    (hofile : (t.proc p).ofile = (s.proc p).ofile) (hk : ∀ fd rest, k ≠ .exit fd rest)
    (htook : alone → Took s t p k.held) : Trying alone s (t.resume p k) p := by
  cases k with
  | ret r => exact Trying.go .user rfl hlive hofile rfl fun ha ho => (htook ha).of_eq rfl ho
  | close f =>
    exact Trying.go (.fileclose f (.ret (-1))) rfl hlive hofile rfl fun ha ho =>
      (htook ha).of_eq rfl ho
  | exit fd rest => exact absurd rfl (hk fd rest)

/-- `fileclose` for a file that the call has taken. -/
theorem Trying.fileclose [Fintype P] (hs : Inv s) (hlive : (t.proc p).life = .live)
    (hofile : (t.proc p).ofile = (s.proc p).ofile) (hk : ∀ fd rest, k ≠ .exit fd rest)
    (htook : alone → Took s t p (f :: k.held)) (hstep : t.fileclose p f k = .ok t') :
    Trying alone s t' p := by
  have hfile : alone → Took s (t.setFile f { t.file f with ref := 0, type := .none }) p k.held := by
    intro ha
    have htype := hs.idle f ((htook ha).taken f (mem_cons_self ..)).1
    exact (htook ha).put htype rfl fun _ _ => rfl
  unfold State.fileclose at hstep
  simp only at hstep
  split at hstep
  · cases hstep
  · split at hstep
    · -- somebody else has the file too
      cases hstep
      exact Trying.resume hlive hofile hk fun ha => by
        have := ((htook ha).taken f (mem_cons_self ..)).2
        omega
    · split at hstep
      · cases hstep
        apply Trying.go (.pipeclose (t.file f).pipe (t.file f).writable k)
        · rfl
        · exact hlive
        · exact hofile
        · cases k with
          | exit fd rest => exact absurd rfl (hk fd rest)
          | _ => rfl
        · exact fun ha ho => (hfile ha).of_eq rfl ho
      · cases hstep
        exact Trying.resume hlive hofile hk hfile

/-- A step of the process in the call. -/
theorem Trying.run [Fintype P] (hs : Inv s) (h : Trying alone s t p) (hstep : t.run p = .ok t') :
    Trying alone s t' p := by
  obtain ⟨hlive, h⟩ := h
  unfold State.run at hstep
  cases hpc : (t.proc p).pc with
  | user =>
    rw [hpc] at hstep
    cases hstep
  | openFile r w =>
    simp only [hpc] at h hstep
    split at hstep
    · rename_i f hf
      cases hstep
      exact Trying.go (.openFd r w f) rfl hlive h.1 rfl fun ha ho =>
        (h.2 ha).take (findFile_ref hf) rfl ho
    · cases hstep
      exact Trying.go .user rfl hlive h.1 rfl fun ha ho => (h.2 ha).of_eq rfl ho
  | openFd r w f =>
    simp only [hpc] at h hstep
    split at hstep
    · rename_i fd hfd
      cases hstep
      unfold Trying
      rw [show (t.setFd p fd (some f) (.openSet r w f fd)).proc p = _ from update_self ..]
      exact ⟨hlive, trivial⟩
    · cases hstep
      exact Trying.go (.fileclose f (.ret (-1))) rfl hlive h.1 rfl fun ha ho =>
        (h.2 ha).of_eq rfl ho
  | openSet r w f fd =>
    simp only [hpc] at hstep
    cases hstep
    exact Trying.succeeds (r := fd.val) rfl rfl hlive (update_self ..) (by omega)
  | dup f fd =>
    simp only [hpc, State.filedup] at hstep
    split at hstep
    · cases hstep
    · cases hstep
      exact Trying.succeeds (r := fd.val) rfl rfl hlive (update_self ..) (by omega)
  | pipe0 =>
    simp only [hpc] at h hstep
    split at hstep
    · rename_i f hf
      cases hstep
      exact Trying.go (.pipe1 f) rfl hlive h.1 rfl fun ha ho =>
        (h.2 ha).take (findFile_ref hf) rfl ho
    · cases hstep
      exact Trying.go .user rfl hlive h.1 rfl fun ha ho => (h.2 ha).of_eq rfl ho
  | pipe1 f0 =>
    simp only [hpc] at h hstep
    split at hstep
    · rename_i f hf
      cases hstep
      exact Trying.go (.pipePage f0 f) rfl hlive h.1 rfl fun ha ho =>
        ((h.2 ha).take (findFile_ref hf) rfl ho).perm (Perm.swap ..)
    · cases hstep
      exact Trying.go (.fileclose f0 (.ret (-1))) rfl hlive h.1 rfl fun ha ho =>
        (h.2 ha).of_eq rfl ho
  | pipePage f0 f1 =>
    simp only [hpc] at h hstep
    cases hstep
    apply Trying.go (.pipeFd0 f0 f1) rfl hlive h.1 rfl
    intro ha ho
    apply (h.2 ha).set
    · exact pipealloc_ref f0 f1
    · intro f hf
      have hf0 := ne_of_not_mem_cons hf
      have hf1 := ne_of_not_mem_cons (not_mem_of_not_mem_cons hf)
      show update (update t.file f0 _) f1 _ f = _
      rw [update_of_ne hf1, update_of_ne hf0]
    · exact ho
  | pipeFd0 f0 f1 =>
    simp only [hpc] at h hstep
    split at hstep
    · rename_i fd hfd
      cases hstep
      unfold Trying
      rw [show (t.setFd p fd (some f0) (.pipeFd1 f0 f1 fd)).proc p = _ from update_self ..]
      have hfree := findFd_none hfd
      rw [h.1] at hfree
      refine ⟨hlive, hfree, ?_, fun ha => (h.2 ha).of_eq rfl fun q hq => ?_⟩
      · simp only [h.1]
      · exact update_of_ne hq ..
    · cases hstep
      exact Trying.go (.fileclose f0 (.close f1)) rfl hlive h.1 rfl fun ha ho =>
        (h.2 ha).of_eq rfl ho
  | pipeFd1 f0 f1 fd0 =>
    simp only [hpc] at h hstep
    obtain ⟨hfree, hofile, htook⟩ := h
    split at hstep
    · rename_i fd hfd
      cases hstep
      apply Trying.succeeds (r := 0)
        (y := { t.proc p with ofile := update (t.proc p).ofile fd (some f1), pc := .user })
      · show update (update t.proc p _) p { (update t.proc p _) p with pc := .user } = _
        rw [update_self, update_idem]
      · rfl
      · exact hlive
      · exact update_self ..
      · decide
    · cases hstep
      -- the first descriptor is cleared again
      have hself : (t.setFd p fd0 none (.fileclose f0 (.close f1))).proc p =
          { t.proc p with
            ofile := update (t.proc p).ofile fd0 none, pc := .fileclose f0 (.close f1) } :=
        update_self ..
      apply Trying.of_back
      · rw [hself]
        exact hlive
      · rw [hself]; rfl
      · refine ⟨?_, fun ha => ?_⟩
        · simp [*]
        · rw [hself]
          exact (htook ha).of_eq rfl fun q hq => update_of_ne hq ..
  | fork np rest =>
    simp only [hpc] at h
  | exit rest =>
    simp only [hpc] at h
  | fileclose f k =>
    simp only [hpc] at h hstep
    cases k with
    | exit fd rest => exact h.elim
    | ret r => exact Trying.fileclose (k := .ret r) hs hlive h.1 (by rintro _ _ ⟨⟩) h.2 hstep
    | close g => exact Trying.fileclose (k := .close g) hs hlive h.1 (by rintro _ _ ⟨⟩) h.2 hstep
  | pipeclose n w k =>
    simp only [hpc] at h hstep
    cases hstep
    cases k with
    | exit fd rest => exact h.elim
    | ret r =>
      exact Trying.resume (t := t.pipeclose n w) hlive h.1 (by rintro _ _ ⟨⟩) fun ha =>
        (h.2 ha).of_eq rfl fun _ _ => rfl
    | close g =>
      exact Trying.resume (t := t.pipeclose n w) hlive h.1 (by rintro _ _ ⟨⟩) fun ha =>
        (h.2 ha).of_eq rfl fun _ _ => rfl

/-- A step of the process in the call, when there may be no page. -/
theorem Trying.goesOn [Fintype P] (hs : Inv s) (h : Trying alone s t p) (ha : a.GoesOn p)
    (hstep : t.step a = .ok t') : Trying alone s t' p := by
  rcases ha with rfl | rfl
  · exact h.run hs hstep
  · obtain ⟨hlive, h⟩ := h
    simp only [step] at hstep
    split at hstep
    · rename_i f0 f1 hpc
      rw [hpc] at h
      cases hstep
      exact Trying.go (.fileclose f0 (.close f1)) rfl hlive h.1 rfl fun ha ho =>
        (h.2 ha).of_eq rfl ho
    · rename_i hpc
      rw [hpc] at h
      exact h.elim
    · cases hstep

/-! ### Other processes -/

/-- Process `p` is as it was, and so is what its last call returned. -/
def Unmoved (p : P) (t t' : State P) : Prop := t'.proc p = t.proc p ∧ t'.ret p = t.ret p

section

variable {q : P} (hne : p ≠ q)
include hne

section

variable (h : Unmoved p t t')
include h

theorem Unmoved.setProc : Unmoved p t (t'.setProc q y) :=
  ⟨(update_of_ne hne ..).trans h.1, h.2⟩

theorem Unmoved.goto : Unmoved p t (t'.goto q pc) := h.setProc hne

theorem Unmoved.setFd {fd : Fd} {v : Option FileId} :
    Unmoved p t (t'.setFd q fd v pc) := h.setProc hne

theorem Unmoved.leave : Unmoved p t (t'.leave q r) :=
  ⟨(h.setProc hne).1, (update_of_ne hne ..).trans h.2⟩

theorem Unmoved.resume : Unmoved p t (t'.resume q k) := by
  cases k with
  | ret r => exact h.leave hne
  | close f => exact h.goto hne
  | exit fd rest => exact h.setFd hne

end

end

/-- Other processes do not change a live process. -/
theorem run_unmoved [Fintype P] {q : P} (ht : Inv t) (hlive : (t.proc p).life = .live) (hne : p ≠ q)
    (hstep : t.run q = .ok t') : Unmoved p t t' := by
  have hrefl : Unmoved p t t := ⟨rfl, rfl⟩
  have hfile : ∀ {f x}, Unmoved p t (t.setFile f x) := ⟨rfl, rfl⟩
  unfold run at hstep
  split at hstep
  · cases hstep
  · split at hstep <;> cases hstep
    · exact hfile.goto hne
    · exact hrefl.leave hne
  · split at hstep <;> cases hstep
    · exact hrefl.setFd hne
    · exact hrefl.goto hne
  · cases hstep
    exact hfile.leave hne
  · simp only [filedup] at hstep
    split at hstep <;> cases hstep
    exact hfile.leave hne
  · split at hstep <;> cases hstep
    · exact hfile.goto hne
    · exact hrefl.leave hne
  · split at hstep <;> cases hstep
    · exact hfile.goto hne
    · exact hrefl.goto hne
  · cases hstep
    exact Unmoved.goto hne ⟨rfl, rfl⟩
  · split at hstep <;> cases hstep
    · exact hrefl.setFd hne
    · exact hrefl.goto hne
  · split at hstep <;> cases hstep
    · exact (hrefl.setFd hne).leave hne
    · exact hrefl.setFd hne
  -- `fork`: the process that it makes is not live
  · rename_i np hpc
    have hnp : p ≠ np := by
      rintro rfl
      cases hlive.symm.trans (ht.making hpc).1
    cases hstep
    exact (hrefl.setProc hnp).leave hne
  · rename_i np fd rest hpc
    have hnp : p ≠ np := by
      rintro rfl
      cases hlive.symm.trans (ht.making hpc).1
    split at hstep
    · simp only [filedup] at hstep
      split at hstep <;> cases hstep
      exact (hfile.setFd hnp).goto hne
    · cases hstep
      exact hrefl.goto hne
  · cases hstep
    exact hrefl.setProc hne
  · split at hstep <;> cases hstep
    · exact hrefl.goto hne
    · exact hrefl.goto hne
  · simp only [fileclose] at hstep
    split at hstep
    · cases hstep
    · split at hstep
      · cases hstep
        exact hfile.resume hne
      · split at hstep <;> cases hstep
        · exact hfile.goto hne
        · exact hfile.resume hne
  · cases hstep
    exact Unmoved.resume hne ⟨rfl, rfl⟩

/-- The same for a call that another process makes. -/
theorem call_unmoved (hlive : (t.proc p).life = .live) (hne : p ≠ State.actor a)
    (hstep : t.call a = .ok t') : Unmoved p t t' := by
  have hrefl : Unmoved p t t := ⟨rfl, rfl⟩
  cases a with
  | «open» q found r w =>
    cases found <;> cases hstep
    · exact hrefl.leave hne
    · exact hrefl.goto hne
  | dup q fd =>
    simp only [call] at hstep
    split at hstep <;> cases hstep
    · exact hrefl.setFd hne
    · exact hrefl.leave hne
  | close q fd =>
    simp only [call] at hstep
    split at hstep <;> cases hstep
    · exact hrefl.setFd hne
    · exact hrefl.leave hne
  | pipe q =>
    cases hstep
    exact hrefl.goto hne
  | fork q np =>
    simp only [call] at hstep
    split at hstep <;> cases hstep
    · rename_i hdead
      have hnp : p ≠ np := by
        rintro rfl
        cases hlive.symm.trans hdead
      exact (hrefl.setProc hnp).goto hne
    · exact hrefl.leave hne
  | exit q =>
    cases hstep
    exact hrefl.goto hne
  | run q => cases hstep
  | noPage q => cases hstep

/-- A step is one in a call, or a call of a live process that is in none. -/
theorem step_cases (hstep : t.step a = .ok t') :
    a.GoesOn (State.actor a) ∨ (t.proc (State.actor a)).life = .live ∧ t.call a = .ok t' := by
  cases a with
  | run q => exact .inl (.inl rfl)
  | noPage q => exact .inl (.inr rfl)
  | _ => grind [step]

/-- The same for every step that another process takes. -/
theorem step_unmoved [Fintype P] (ht : Inv t) (hlive : (t.proc p).life = .live)
    (hne : p ≠ State.actor a) (hstep : t.step a = .ok t') : Unmoved p t t' := by
  rcases step_cases hstep with hgo | ⟨-, hcall⟩
  · rcases hgo with hrun | hpage
    · rw [hrun] at hstep
      exact run_unmoved ht hlive hne hstep
    · rw [hpage] at hstep
      simp only [step] at hstep
      split at hstep
      · cases hstep
        exact Unmoved.goto hne ⟨rfl, rfl⟩
      · rename_i np rest hpc
        have hnp : p ≠ np := by
          rintro rfl
          cases hlive.symm.trans (ht.making hpc).1
        split at hstep <;> cases hstep
        exact Unmoved.leave hne (Unmoved.setProc hnp ⟨rfl, rfl⟩)
      · cases hstep
  · exact call_unmoved hlive hne hcall

omit [DecidableEq P] in
/-- Steps of others do not matter for the descriptors. -/
theorem Trying.other (h : Trying False s t p) (hu : Unmoved p t t') : Trying False s t' p := by
  simp only [Trying, Back, hu.1, hu.2, false_imp_iff, and_true] at h ⊢
  exact h

/-! ### The whole call -/

/-- The call is made. -/
theorem Trying.start (ha : a.Tries p) (hstep : s.step a = .ok t) : Trying alone s t p := by
  have hgo : ∀ {pc : Pc P}, (s.proc p).life = .live → pc.mayFail = true → pc.took = [] →
      Trying alone s (s.goto p pc) p := by
    intro pc hlive hmay hnil
    refine Trying.go pc rfl hlive rfl hmay fun _ ho => ?_
    rw [hnil]
    exact Took.nil_self.of_eq rfl ho
  have hleave : (s.proc p).life = .live → Trying alone s (s.leave p (-1)) p := fun hlive =>
    Trying.go .user rfl hlive rfl rfl fun _ ho => Took.nil_self.of_eq rfl ho
  rcases step_cases hstep with hgoes | ⟨hlive, hcall⟩
  · rcases hgoes with hrun | hpage
    · rw [hrun] at ha
      exact ha.elim
    · rw [hpage] at ha
      exact ha.elim
  cases a with
  | «open» q found r w =>
    cases ha
    cases found <;> cases hcall
    · exact hleave hlive
    · exact hgo hlive rfl rfl
  | dup q fd =>
    cases ha
    simp only [call] at hcall
    split at hcall <;> cases hcall
    · unfold Trying
      rw [show (s.setFd p _ _ _).proc p = _ from update_self ..]
      exact ⟨hlive, trivial⟩
    · exact hleave hlive
  | pipe q =>
    cases ha
    cases hcall
    exact hgo hlive rfl rfl
  | _ => exact ha.elim

/-- A call that fails has not changed the descriptors of the process, whatever the others did. -/
theorem failed_ofile [Fintype P] (hs : Inv s) (ha : a.Tries p) (hcall : s.step a = .ok s1)
    (hrun : Reach State.step (fun _ b => State.actor b = p → b.GoesOn p) s1 t)
    (hpc : (t.proc p).pc = .user) (hret : t.ret p = -1) :
    (t.proc p).ofile = (s.proc p).ofile := by
  have hall : Inv t ∧ Trying False s t p := by
    apply hrun.invariant (I := fun u => Inv u ∧ Trying False s u p)
    · exact ⟨hs.next hcall, Trying.start ha hcall⟩
    · intro u b u' ⟨hu, htry⟩ hb hstep
      refine ⟨hu.next hstep, ?_⟩
      by_cases hp : actor b = p
      · exact htry.goesOn hs (hb hp) hstep
      · exact htry.other (step_unmoved hu htry.1 (Ne.symm hp) hstep)
  exact (hall.2.result hpc hret).1

/-- A call that fails while others wait has not changed anything. -/
theorem failed_alone [Fintype P] (hs : Inv s) (ha : a.Tries p) (hcall : s.step a = .ok s1)
    (hrun : Reach State.step (fun _ b => b.GoesOn p) s1 t) (hpc : (t.proc p).pc = .user)
    (hret : t.ret p = -1) :
    (∀ q, (t.proc q).ofile = (s.proc q).ofile) ∧ ∀ f, SameFile s t f := by
  have htry : Trying True s t p := by
    apply hrun.invariant (I := fun u => Trying True s u p)
    · exact Trying.start ha hcall
    · exact fun u b u' htry hb hstep => htry.goesOn hs hb hstep
  obtain ⟨hofile, htook⟩ := htry.result hpc hret
  have htook := htook trivial
  refine ⟨fun q => ?_, fun f => htook.same f not_mem_nil⟩
  by_cases hq : q = p
  · rw [hq, hofile]
  · rw [htook.others q hq]

end

/-! ### The file table -/

/-- In every state that processes can reach: between calls `ref` is the number of descriptors; no
    step panics; the page of a pipe is freed once at most, never while there is a descriptor
    for the pipe, and between calls always when there is none; and a call of `open`, `dup` or
    `pipe` that fails leaves the descriptors of its process as they were, whatever other processes
    did, and all descriptors and files if they did nothing. -/
theorem file_table [Fintype P] [DecidableEq P] {p0 : P} {s : State P}
    (h : Reach State.step (fun _ _ => True) (State.start p0) s) :
    (s.Idle → ∀ f, (s.file f).ref = (s.descriptors f).card) ∧
    (∀ a e, s.step a ≠ .panic e) ∧
    (∀ n, s.freed n ≤ 1 ∧ (s.freed n = 1 → ¬s.Refers n) ∧
      (s.Idle → n < s.pipes → ¬s.Refers n → s.freed n = 1)) ∧
    ∀ p a s1 t, a.Tries p → s.step a = .ok s1 → (t.proc p).pc = .user → t.ret p = -1 →
      (Reach State.step (fun _ b => State.actor b = p → b.GoesOn p) s1 t →
        (t.proc p).ofile = (s.proc p).ofile) ∧
      (Reach State.step (fun _ b => b.GoesOn p) s1 t →
        (∀ q, (t.proc q).ofile = (s.proc q).ofile) ∧ ∀ f, SameFile s t f) := by
  have hs := inv_reach h
  refine ⟨hs.ref_eq, fun a e hpanic => ?_, fun n => ⟨?_, fun hn => ?_, ?_⟩, ?_⟩
  · grind [hs.step]
  · rw [hs.freed]
    split <;> omega
  · exact hs.not_refers (by omega)
  · exact hs.freed_of_not_refers
  · intro p a s1 t ha hcall hpc hret
    exact ⟨fun hrun => failed_ofile hs ha hcall hrun hpc hret,
      fun hrun => failed_alone hs ha hcall hrun hpc hret⟩

/-- Process 0 makes a pipe and forks process 1. -/
def pipeFork : List (Act (Fin 2)) :=
  .pipe 0 :: List.replicate 5 (.run 0) ++ .fork 0 1 :: List.replicate 17 (.run 0)

/-- Process 0 goes on with `pipe` until there is no page. -/
def pipeFails : List (Act (Fin 2)) := [.run 0, .run 0, .noPage 0, .run 0, .run 0]

/-- A pipe, then a fork. -/
theorem file_table_pipeFork : ∃ s s1 t : State (Fin 2),
    Reach State.step (fun _ _ => True) (State.start 0) s ∧ s.Idle ∧ (s.file 0).ref = 2 ∧
      (s.descriptors 0).card = 2 ∧ s.step (.pipe 0) = .ok s1 ∧
      Reach State.step (fun _ b => b.GoesOn 0) s1 t ∧ (t.proc 0).pc = .user ∧ t.ret 0 = -1 ∧
      ∀ f, SameFile s t f := by
  obtain ⟨s, hs, ht⟩ := Outcome.holds_iff.mp
    (show (pipeFork.foldlM State.step (State.start 0)).holds (fun s =>
      (∀ p, (s.proc p).pc = .user) ∧ (s.file 0).ref = 2 ∧
        (s.step (.pipe 0)).holds (fun s1 => (pipeFails.foldlM State.step s1).holds fun t =>
          (t.proc 0).pc = .user ∧ t.ret 0 = -1) = true) = true by decide +kernel)
  have hr : Reach State.step (fun _ _ => True) (State.start 0) s :=
    Reach.of_foldlM (fun _ _ _ => trivial) hs
  obtain ⟨hidle, href, hcall⟩ := of_decide_eq_true ht
  obtain ⟨s1, hcall, hrun⟩ := Outcome.holds_iff.mp hcall
  obtain ⟨t, hrun, hret⟩ := Outcome.holds_iff.mp hrun
  obtain ⟨hpc, hret⟩ := of_decide_eq_true hret
  have hgo : Reach State.step (fun _ b => b.GoesOn 0) s1 t :=
    Reach.of_foldlM (by
      intro _ a ha
      simp only [pipeFails, List.mem_cons, List.not_mem_nil, or_false] at ha
      unfold Act.GoesOn
      tauto) hrun
  obtain ⟨h1, -, -, h4⟩ := file_table hr
  exact ⟨s, s1, t, hr, hidle, href, (h1 hidle 0).symm.trans href, hcall, hgo, hpc, hret,
    ((h4 0 (.pipe 0) s1 t rfl hcall hpc hret).2 hgo).2⟩

end Xv6.Files
