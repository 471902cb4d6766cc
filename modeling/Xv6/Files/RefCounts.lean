import Xv6.Files.Descriptors

namespace Xv6.Files

open Xv6.Count Function Pc Proc Run List

/-!
# Reference counts of files

The `ref` of a file is the number of descriptors for it, but for what the calls that are under way
have taken or not yet given back.

* `counted`, `held`, `uses` — what a process has of a file, wherever it is in a call;
* `Inv` — `ref` is the sum of that over all processes, and each end of a pipe is open as long as a
  file or a process that closes it refers to it;
* `Inv.change` — a step of one process, from what it does to the files.
-/

variable {P : Type}

/-! ### What a process has of a file -/

/-- The descriptors that are counted in `ref`: `sys_dup` has one that is not yet, and `exit` one
    that is no longer. -/
def Proc.counted (x : Proc P) : Fd → Option FileId :=
  match x.pc with
  | .dup _ fd | .pipeclose _ _ (.exit fd _) => update x.ofile fd none
  | _ => x.ofile

/-- Files that a process still has to close. -/
def Then.held : Then → List FileId
  | .close f => [f]
  | .ret _ | .exit _ _ => []

/-- References that a process has without a descriptor. -/
def Pc.held : Pc P → List FileId
  | .openFd _ _ f => [f]
  | .pipe1 f0 => [f0]
  | .pipePage f0 f1 | .pipeFd0 f0 f1 => [f0, f1]
  | .pipeFd1 _ f1 _ => [f1]
  | .fileclose _ (.exit _ _) => []
  | .fileclose f k => f :: k.held
  | .pipeclose _ _ k => k.held
  | _ => []

/-- Files that nobody else knows of yet. -/
def Pc.fresh : Pc P → List FileId
  | .openFd _ _ f | .openSet _ _ f _ => [f]
  | .pipe1 f0 => [f0]
  | .pipePage f0 f1 => [f0, f1]
  | _ => []

/-- Whether a descriptor is for file `f`. -/
def isFile (f : FileId) (o : Option FileId) : Nat := if o = some f then 1 else 0

/-- How many descriptors are for file `f`. -/
def row (f : FileId) (o : Fd → Option FileId) : Nat := total (isFile f) o

/-- How many references to file `f` a process has. -/
def uses (f : FileId) (x : Proc P) : Nat := row f x.counted + x.pc.held.count f

/-- Whether the file is that end of the pipe. -/
def isEnd (n : Nat) (w : Bool) (x : File) : Nat :=
  if x.type = .pipe ∧ x.pipe = n ∧ x.writable = w then 1 else 0

/-- Whether the process is about to close that end of the pipe. -/
def closes (n : Nat) (w : Bool) (x : Proc P) : Nat :=
  match x.pc with
  | .pipeclose n' w' _ => if n' = n ∧ w' = w then 1 else 0
  | _ => 0

@[simp] theorem isFile_none {f : FileId} : isFile f none = 0 := rfl

theorem isFile_some {f g : FileId} : isFile f (some g) = if g = f then 1 else 0 := by
  simp [isFile]

theorem row_update (f : FileId) (o : Fd → Option FileId) (fd : Fd) (v : Option FileId) :
    row f (update o fd v) + isFile f (o fd) = row f o + isFile f v :=
  total_update (isFile f) o fd v

theorem isFile_le_row (f : FileId) (o : Fd → Option FileId) (fd : Fd) : isFile f (o fd) ≤ row f o :=
  weight_le (isFile f) o fd

/-- What is known of the descriptors of a process where it is in a call. -/
def Proc.Ok (x : Proc P) : Prop :=
  match x.pc with
  | .openSet _ _ f fd => x.ofile fd = some f
  | .dup f fd => x.ofile fd = some f ∧ ∃ fd0, fd0 ≠ fd ∧ x.ofile fd0 = some f
  | .pipePage f0 f1 => f0 ≠ f1
  | .pipeFd1 f0 _ fd0 => x.ofile fd0 = some f0
  | .exit rest => ∀ fd, fd ∉ rest → x.ofile fd = none
  | .fileclose f (.exit fd rest) =>
    x.ofile fd = some f ∧ ∀ fd', fd' ∉ fd :: rest → x.ofile fd' = none
  | .pipeclose _ _ (.exit fd rest) => ∀ fd', fd' ∉ fd :: rest → x.ofile fd' = none
  | _ => True

/-- The process that `fork` makes has no descriptors yet where the loop has not been. -/
def Proc.Unfilled (x : Proc P) (rest : List Fd) : Prop :=
  x.life = .embryo ∧ rest.Nodup ∧ ∀ fd ∈ rest, x.ofile fd = none

/-- What holds of the file table, the descriptors and the pipes. -/
structure Inv [Fintype P] (s : State P) : Prop where
  refs : ∀ f, (s.file f).ref = total (uses f) s.proc
  idle : ∀ f, (s.file f).ref = 0 → (s.file f).type = .none
  fresh : ∀ p, ∀ f ∈ (s.proc p).pc.fresh, (s.file f).ref = 1 ∧ (s.file f).type = .none
  ok : ∀ p, (s.proc p).Ok
  making : ∀ {p np r}, (s.proc p).pc = .fork np r → (s.proc np).Unfilled r
  dead : ∀ p, (s.proc p).life = .dead → ∀ fd, (s.proc p).ofile fd = none
  quiet : ∀ p, (s.proc p).life ≠ .live → (s.proc p).pc = .user
  forker : ∀ {p q np r r'}, (s.proc p).pc = .fork np r → (s.proc q).pc = .fork np r' → p = q
  ends : ∀ n w, total (isEnd n w) s.file + total (closes n w) s.proc = if s.isOpen n w then 1 else 0
  freed : ∀ n, s.freed n =
    if n < s.pipes ∧ s.isOpen n true = false ∧ s.isOpen n false = false then 1 else 0
  later : ∀ n w, s.pipes ≤ n → s.isOpen n w = false

variable [Fintype P] {s s' : State P} {p q : P} {f : FileId} {y : Proc P}

/-- A file that a process refers to is in use. -/
theorem Inv.uses_le (h : Inv s) (f : FileId) (p : P) : uses f (s.proc p) ≤ (s.file f).ref := by
  rw [h.refs f]
  exact weight_le (uses f) s.proc p

/-- A process has a reference to the files that it took but nobody else knows of. -/
theorem Inv.uses_fresh (h : Inv s) (hf : f ∈ (s.proc p).pc.fresh) : 1 ≤ uses f (s.proc p) := by
  have hok := h.ok p
  unfold Ok at hok
  unfold uses counted
  cases hpc : (s.proc p).pc with
  | openFd r w g =>
    rw [hpc] at hf
    have : f = g := mem_singleton.mp hf
    simp [held, this]
  | openSet r w g fd =>
    rw [hpc] at hf hok
    have hfg : f = g := mem_singleton.mp hf
    have := isFile_le_row f (s.proc p).ofile fd
    rw [hok, isFile_some, if_pos hfg.symm] at this
    simp only
    omega
  | pipe1 g =>
    rw [hpc] at hf
    have : f = g := mem_singleton.mp hf
    simp [held, this]
  | pipePage g g' =>
    rw [hpc] at hf
    have hmem : f ∈ (pipePage g g' : Pc P).held := hf
    have := count_pos_iff.mpr hmem
    omega
  | _ =>
    rw [hpc] at hf
    cases hf

/-- A process that is live is not being made. -/
theorem Inv.not_made (h : Inv s) (hlive : (s.proc p).life = .live) (q : P) (r : List Fd)
    (hq : (s.proc q).pc = .fork p r) : y.Unfilled r := by
  cases hlive.symm.trans (h.making hq).1

variable [DecidableEq P]

/-- What a step may do to process `p`. -/
theorem Inv.change (h : Inv s) (hproc : s'.proc = update s.proc p y)
    (hmade : ∀ q r, (s.proc q).pc = .fork p r → y.Unfilled r)
    (hrefs : ∀ f, (s'.file f).ref + uses f (s.proc p) = (s.file f).ref + uses f y)
    (hfile : ∀ f, s'.file f = s.file f ∨ 1 ≤ uses f (s.proc p) ∨ (s.file f).ref = 0 ∨
      ∃ q, 1 ≤ uses f (s.proc q) ∧ f ∉ (s.proc q).pc.fresh)
    (hidle : ∀ f, (s'.file f).ref = 0 → (s'.file f).type = .none)
    (hfresh : ∀ f ∈ y.pc.fresh, (s'.file f).ref = 1 ∧ (s'.file f).type = .none)
    (hok : y.Ok)
    (hdead : y.life = .dead → ∀ fd, y.ofile fd = none) (hquiet : y.life ≠ .live → y.pc = .user)
    (hfork : ∀ np r, y.pc = .fork np r → np ≠ p ∧ ((∃ fds, (s.proc p).pc = .fork np (fds ++ r)) ∨
        (s.proc np).Unfilled r ∧ ∀ q r', (s.proc q).pc ≠ .fork np r'))
    (hends : ∀ n w, total (isEnd n w) s'.file + closes n w y + (if s.isOpen n w then 1 else 0) =
      total (isEnd n w) s.file + closes n w (s.proc p) + if s'.isOpen n w then 1 else 0)
    (hfreed : ∀ n, s'.freed n =
      if n < s'.pipes ∧ s'.isOpen n true = false ∧ s'.isOpen n false = false then 1 else 0)
    (hlater : ∀ n w, s'.pipes ≤ n → s'.isOpen n w = false) : Inv s' := by
  have hself : s'.proc p = y := by rw [hproc, update_self]
  have hother : ∀ {q}, q ≠ p → s'.proc q = s.proc q := fun hq => by
    rw [hproc, update_of_ne hq]
  have htotal : ∀ g : Proc P → Nat, total g s'.proc + g (s.proc p) = total g s.proc + g y :=
    fun g => by rw [hproc]; exact total_update g s.proc p y
  constructor
  case refs =>
    intro f
    have := htotal (uses f)
    have := hrefs f
    have := h.refs f
    omega
  case idle => exact hidle
  case fresh =>
    intro q f hf
    by_cases hq : q = p
    · rw [hq, hself] at hf
      exact hfresh f hf
    · rw [hother hq] at hf
      -- `p` has no reference to it, so it stays
      have h1 := h.fresh q f hf
      have h2 := h.uses_fresh hf
      have h3 := weight_add_le (uses f) s.proc hq
      have h4 := h.refs f
      have hkeep : s'.file f = s.file f := by
        rcases hfile f with e | hu | h0 | ⟨q', hu, hnot⟩
        · exact e
        · omega
        · omega
        · have hq' : q ≠ q' := by
            rintro rfl
            exact hnot hf
          have := weight_add_le (uses f) s.proc hq'
          omega
      rw [hkeep]
      exact h1
  case ok =>
    intro q
    by_cases hq : q = p
    · rw [hq, hself]
      exact hok
    · rw [hother hq]
      exact h.ok q
  case making =>
    intro q np r hq
    by_cases hqp : q = p
    · rw [hqp, hself] at hq
      obtain ⟨hnp, hold⟩ := hfork np r hq
      rw [hother hnp]
      rcases hold with ⟨fds, hold⟩ | ⟨hnew, _⟩
      · obtain ⟨hlife, hnodup, hnone⟩ := h.making hold
        exact ⟨hlife, (nodup_append.mp hnodup).2.1,
          fun fd hfd => hnone fd (mem_append_right fds hfd)⟩
      · exact hnew
    · rw [hother hqp] at hq
      by_cases hnp : np = p
      · rw [hnp] at hq ⊢
        rw [hself]
        exact hmade q r hq
      · rw [hother hnp]
        exact h.making hq
  case dead =>
    intro q hq fd
    by_cases hqp : q = p
    · rw [hqp, hself] at hq ⊢
      exact hdead hq fd
    · rw [hother hqp] at hq ⊢
      exact h.dead q hq fd
  case quiet =>
    intro q hq
    by_cases hqp : q = p
    · rw [hqp, hself] at hq ⊢
      exact hquiet hq
    · rw [hother hqp] at hq ⊢
      exact h.quiet q hq
  case forker =>
    -- a process that begins to be made was not made by another
    have hne : ∀ {q np r r'}, q ≠ p → (s.proc q).pc = .fork np r → y.pc = .fork np r' → False := by
      grind [h.forker]
    intro q q' np r r' h1 h2
    by_cases hq : q = p <;> by_cases hq' : q' = p
    · rw [hq, hq']
    · rw [hq, hself] at h1
      rw [hother hq'] at h2
      exact (hne hq' h2 h1).elim
    · rw [hother hq] at h1
      rw [hq', hself] at h2
      exact (hne hq h1 h2).elim
    · rw [hother hq] at h1
      rw [hother hq'] at h2
      exact h.forker h1 h2
  case ends => grind [h.ends]
  case freed => exact hfreed
  case later => exact hlater

/-- A live process does something with its own descriptors only. -/
theorem Inv.own (h : Inv s) (hlive : (s.proc p).life = .live) {r : P → Int}
    (huses : ∀ f, uses f y = uses f (s.proc p))
    (hcloses : ∀ n w, closes n w y = closes n w (s.proc p))
    (hfresh : ∀ f ∈ y.pc.fresh, f ∈ (s.proc p).pc.fresh) (hok : y.Ok)
    (hlife : y.life ≠ .live → y.pc = .user ∧ ∀ fd, y.ofile fd = none)
    (hfork : ∀ np r, y.pc = .fork np r → np ≠ p ∧ ((∃ fds, (s.proc p).pc = .fork np (fds ++ r)) ∨
        (s.proc np).Unfilled r ∧ ∀ q r', (s.proc q).pc ≠ .fork np r')) :
    Inv { s with proc := update s.proc p y, ret := r } := by
  apply h.change rfl (h.not_made hlive)
  · exact fun f => congrArg _ (huses f).symm
  · exact fun f => .inl rfl
  · exact h.idle
  · exact fun f hf => h.fresh p f (hfresh f hf)
  · exact hok
  · exact fun hd => (hlife (by rw [hd]; decide)).2
  · exact fun hq => (hlife hq).1
  · exact hfork
  · intro n w
    rw [hcloses]
  · exact h.freed
  · exact h.later

end Xv6.Files
