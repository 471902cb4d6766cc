import Xv6.Lib.Monitor
import Xv6.Lib.Ring
import Xv6.Lib.Words
import Xv6.Param

namespace Xv6.Sync

open Function (update)
open List Xv6.Ring
open Run (Reach)
open Monitor (Move Code Stage State Act Discipline)

/-!
# Pipes

`pipewrite`, `piperead` and `pipeclose` of `pipe.c`, by any number of processes.  The spin lock is
`p->lock`; every byte that is copied is a step.

* `Pipe`, `PipePoint`, `pipeCode` — the functions;
* `PipeRules` — how the two ends are used;
* `pipe_fifo` — the bytes come out in the order in which they were put in, however the counters
  wrap;
* `killed_writer_leaves_reader` — a writer that was killed fills the pipe and returns without
  waking up the reader;
* `no_reader_left` — without that, who sleeps has a reason to.
-/

/-- `PIPESIZE` -/
abbrev PIPESIZE : Nat := 512

/-- `struct pipe`, with records of what was stored in it and what was copied out of it. -/
structure Pipe where
  data : Fin PIPESIZE → Byte
  nread : Word
  nwrite : Word
  readopen : Bool
  writeopen : Bool
  accepted : List Byte
  delivered : List Byte

namespace Pipe

/-- `p->nwrite == p->nread + PIPESIZE` -/
def Full (x : Pipe) : Prop := x.nwrite = x.nread + BitVec.ofNat 32 PIPESIZE

instance (x : Pipe) : Decidable x.Full := inferInstanceAs (Decidable (_ = _))

/-- `p->data[p->nwrite++ % PIPESIZE] = b` -/
def push (x : Pipe) (b : Byte) : Pipe :=
  { x with
    data := update x.data (Ring.cell PIPESIZE x.nwrite) b
    nwrite := x.nwrite + 1
    accepted := x.accepted ++ [b] }

/-- `p->data[p->nread++ % PIPESIZE]` is copied out. -/
def pop (x : Pipe) : Pipe :=
  { x with
    nread := x.nread + 1
    delivered := x.delivered ++ [x.data (Ring.cell PIPESIZE x.nread)] }

/-- The bytes in the buffer. -/
def buffer (x : Pipe) : List Byte := Ring.contents x.data x.nread x.nwrite

/-- `p->writeopen` or `p->readopen` -/
def isOpen (x : Pipe) (writable : Bool) : Bool := if writable then x.writeopen else x.readopen

/-- An end is marked as closed. -/
def shut (x : Pipe) (writable : Bool) : Pipe :=
  if writable then { x with writeopen := false } else { x with readopen := false }

end Pipe

/-- `&p->nread` and `&p->nwrite` -/
inductive PipeChan where
  | nread
  | nwrite
  deriving DecidableEq

/-- Where a process is in the functions. -/
inductive PipePoint where
  /-- At the tests of the loops of `pipewrite`; `stored` if it has stored a byte since it last
      acquired the lock. -/
  | write (n : Int) (addr : Nat → Byte) (i : Nat) (stored : Bool)
  /-- Before `sleep` in `pipewrite`. -/
  | writeSleep (n : Int) (addr : Nat → Byte) (i : Nat)
  /-- Before the last `release` in `pipewrite`. -/
  | writeDone (n : Int)
  /-- At the first loop of `piperead`. -/
  | read (n : Int)
  /-- At the second loop of `piperead`. -/
  | copy (n : Int) (i : Nat)
  /-- Before the last `release` in `piperead`. -/
  | readDone (i : Nat)
  /-- At the start of `pipeclose`. -/
  | close (writable : Bool)
  /-- Before `wakeup` in `pipeclose`. -/
  | closeWake (writable : Bool)
  /-- Before `release` in `pipeclose`; the last to close gives the page back. -/
  | closeDone

/-- What a process does next with `p->lock`. -/
def pipeCode {P : Type} : Code P Pipe PipePoint PipeChan Int
  | _, x, killed, .write n addr i _ =>
    if (i : Int) < n then
      if x.Full then
        if x.readopen = false ∨ killed then .leave (-1)
        else .wakeup .nread (.writeSleep n addr i)
      else .store (x.push (addr i)) (.write n addr (i + 1) true)
    else .wakeup .nread (.writeDone n)
  | _, _, _, .writeSleep n addr i => .sleep .nwrite (.write n addr i false)
  | _, _, _, .writeDone n => .leave n
  | _, x, killed, .read n =>
    if x.nread = x.nwrite ∧ x.writeopen then
      if killed then .leave (-1) else .sleep .nread (.read n)
    else .store x (.copy n 0)
  | _, x, _, .copy n i =>
    if (i : Int) < n ∧ x.nread ≠ x.nwrite then .store x.pop (.copy n (i + 1))
    else .wakeup .nwrite (.readDone i)
  | _, _, _, .readDone i => .leave i
  | _, x, _, .close writable => .store (x.shut writable) (.closeWake writable)
  | _, _, _, .closeWake writable => .wakeup (if writable then .nread else .nwrite) .closeDone
  | _, _, _, .closeDone => .leave 0

/-- The processes and a pipe. -/
abbrev PipeState (P : Type) := State P Pipe PipePoint PipeChan Int

/-- The process is in a call through that end of the pipe, and has not marked it as closed. -/
def Uses (writable : Bool) : Int ⊕ PipePoint → Prop
  | .inr (.write ..) | .inr (.writeSleep ..) | .inr (.writeDone _) => writable = true
  | .inr (.read _) | .inr (.copy ..) | .inr (.readDone _) => writable = false
  | .inr (.close w) => writable = w
  | _ => False

instance (writable : Bool) (g : Int ⊕ PipePoint) : Decidable (Uses writable g) := by
  unfold Uses
  split <;> infer_instance

/-- A call is made through an end that is open, and an end is closed when no other process is in a
    call through it.  The reference counts of `struct file` take care of both. -/
def PipeRules {P : Type} (s : PipeState P) : Act P PipePoint → Prop
  | .enter _ (.write _ _ i stored) => i = 0 ∧ stored = false ∧ s.data.isOpen true = true
  | .enter _ (.read _) => s.data.isOpen false = true
  | .enter _ (.close writable) => s.data.isOpen writable = true
  | .enter _ _ => False
  | .run p =>
    match s.stage p with
    | .inside (.close writable) => ∀ q, q ≠ p → ¬ Uses writable (s.stage q).place
    | _ => True
  | .kill _ => True

/-- The pipe that `pipealloc` makes. -/
def pipealloc (data : Fin PIPESIZE → Byte) : Pipe where
  data
  nread := 0
  nwrite := 0
  readopen := true
  writeopen := true
  accepted := []
  delivered := []

/-- After `pipealloc`. -/
def pipeStart {P : Type} (data : Fin PIPESIZE → Byte) (killed : P → Bool) : PipeState P :=
  ⟨none, none, pipealloc data, fun _ => .out 0, killed⟩

/-! ### What the code does -/

variable {P : Type} {x x' : Pipe} {p : P} {killed : Bool} {l l' : PipePoint}
  {c : PipeChan} {r : Int}

/-- Where the pipe is changed, or where `piperead` goes on to copy. -/
theorem store_cases (hm : pipeCode p x killed l = .store x' l') :
    (∃ n addr i stored, l = .write n addr i stored ∧ ¬ x.Full ∧ x' = x.push (addr i) ∧
      l' = .write n addr (i + 1) true) ∨
    (∃ n, l = .read n ∧ x' = x ∧ l' = .copy n 0) ∨
    (∃ n i, l = .copy n i ∧ x.nread ≠ x.nwrite ∧ x' = x.pop ∧ l' = .copy n (i + 1)) ∨
    ∃ w, l = .close w ∧ x' = x.shut w ∧ l' = .closeWake w := by
  cases l with
  | write n addr i stored =>
    simp only [pipeCode] at hm
    split at hm
    · grind
    · cases hm
  | read n =>
    simp only [pipeCode] at hm
    split at hm
    · split at hm <;> cases hm
    · cases hm
      exact .inr (.inl ⟨n, rfl, rfl, rfl⟩)
  | copy n i =>
    simp only [pipeCode] at hm
    split at hm
    · simp_all
    · cases hm
  | close w =>
    cases hm
    exact .inr (.inr (.inr ⟨w, rfl, rfl, rfl⟩))
  | _ => cases hm

/-- Where others are woken up. -/
theorem wakeup_cases (hm : pipeCode p x killed l = .wakeup c l') :
    (∃ n addr i stored, l = .write n addr i stored ∧ c = .nread ∧
      (x.Full ∧ x.readopen = true ∧ l' = .writeSleep n addr i ∨ l' = .writeDone n)) ∨
    (∃ n i, l = .copy n i ∧ c = .nwrite ∧ l' = .readDone i) ∨
    ∃ w, l = .closeWake w ∧ c = (if w then .nread else .nwrite) ∧ l' = .closeDone := by
  cases l with
  | write n addr i stored =>
    refine .inl ⟨n, addr, i, stored, rfl, ?_⟩
    simp only [pipeCode] at hm
    split at hm
    · split at hm
      · rename_i hfull
        split at hm
        · cases hm
        · rename_i hgo
          cases hm
          have hopen : x.readopen = true := by
            rw [← Bool.not_eq_false]
            exact fun h => hgo (.inl h)
          exact ⟨rfl, .inl ⟨hfull, hopen, rfl⟩⟩
      · cases hm
    · cases hm
      exact ⟨rfl, .inr rfl⟩
  | read n =>
    simp only [pipeCode] at hm
    split at hm
    · split at hm <;> cases hm
    · cases hm
  | copy n i =>
    simp only [pipeCode] at hm
    split at hm
    · cases hm
    · cases hm
      exact .inr (.inl ⟨n, i, rfl, rfl, rfl⟩)
  | closeWake w =>
    cases hm
    exact .inr (.inr ⟨w, rfl, rfl, rfl⟩)
  | _ => cases hm

/-- Where a process goes to sleep. -/
theorem sleep_cases (hm : pipeCode p x killed l = .sleep c l') :
    (∃ n addr i, l = .writeSleep n addr i ∧ c = .nwrite ∧ l' = .write n addr i false) ∨
    ∃ n, l = .read n ∧ c = .nread ∧ l' = .read n ∧ x.nread = x.nwrite ∧ x.writeopen = true := by
  cases l with
  | write n addr i stored =>
    simp only [pipeCode] at hm
    split at hm
    · split at hm
      · split at hm <;> cases hm
      · cases hm
    · cases hm
  | writeSleep n addr i =>
    cases hm
    exact .inl ⟨n, addr, i, rfl, rfl, rfl⟩
  | read n =>
    simp only [pipeCode] at hm
    split at hm
    · grind
    · cases hm
  | copy n i =>
    simp only [pipeCode] at hm
    split at hm <;> cases hm
  | _ => cases hm

/-- Where a function returns. -/
theorem leave_cases (hm : pipeCode p x killed l = .leave r) :
    (∃ n addr i stored, l = .write n addr i stored ∧ (i : Int) < n ∧ x.Full ∧
      (x.readopen = false ∨ killed = true)) ∨
    (∃ n, l = .writeDone n) ∨ (∃ n, l = .read n) ∨ (∃ i, l = .readDone i) ∨ l = .closeDone := by
  cases l with
  | write n addr i stored =>
    simp only [pipeCode] at hm
    split at hm
    · grind
    · cases hm
  | copy n i =>
    simp only [pipeCode] at hm
    split at hm <;> cases hm
  | writeDone n => exact .inr (.inl ⟨n, rfl⟩)
  | read n => exact .inr (.inr (.inl ⟨n, rfl⟩))
  | readDone i => exact .inr (.inr (.inr (.inl ⟨i, rfl⟩)))
  | closeDone => exact .inr (.inr (.inr (.inr rfl)))
  | _ => cases hm

/-! ### First in, first out -/

/-- The counters are no more than `PIPESIZE` apart, and what was copied out and what is in the
    buffer is what was stored. -/
def Pipe.Fifo (x : Pipe) : Prop :=
  (x.nwrite - x.nread).toNat ≤ PIPESIZE ∧ x.delivered ++ x.buffer = x.accepted

theorem Pipe.Fifo.push (h : x.Fifo) (hfull : ¬ x.Full) (b : Byte) : (x.push b).Fifo := by
  have hne : (x.nwrite - x.nread).toNat ≠ PIPESIZE := by
    intro e
    apply hfull
    rw [Pipe.Full, ← e, add_sub_toNat]
  have hlt : (x.nwrite - x.nread).toNat < PIPESIZE := lt_of_le_of_ne h.1 hne
  constructor
  · show (x.nwrite + 1 - x.nread).toNat ≤ PIPESIZE
    rw [toNat_push (lt_of_le_of_lt hlt (by norm_num))]
    exact hlt
  · show x.delivered ++ contents (update x.data (cell PIPESIZE x.nwrite) b) x.nread
      (x.nwrite + 1) = x.accepted ++ [b]
    rw [contents_push ⟨2 ^ 23, by norm_num⟩ (by norm_num) hlt, ← append_assoc, ← h.2]
    rfl

theorem Pipe.Fifo.pop (h : x.Fifo) (hne : x.nread ≠ x.nwrite) : x.pop.Fifo := by
  constructor
  · show (x.nwrite - (x.nread + 1)).toNat ≤ PIPESIZE
    have := toNat_pop hne.symm
    have := h.1
    omega
  · show (x.delivered ++ [_]) ++ contents x.data (x.nread + 1) x.nwrite = x.accepted
    rw [← h.2, Pipe.buffer, contents_pop hne.symm, append_assoc, singleton_append]

theorem Pipe.Fifo.shut (h : x.Fifo) (writable : Bool) : (x.shut writable).Fifo := by
  cases writable <;> exact h

/-- What a process stores in the pipe keeps the order. -/
theorem Pipe.Fifo.store (h : x.Fifo) (hm : pipeCode p x killed l = .store x' l') : x'.Fifo := by
  rcases store_cases hm with ⟨n, addr, i, _, rfl, hfull, rfl, rfl⟩ | ⟨n, rfl, rfl, rfl⟩ |
    ⟨n, i, rfl, hne, rfl, rfl⟩ | ⟨w, rfl, rfl, rfl⟩
  · exact h.push hfull _
  · exact h
  · exact h.pop hne
  · exact h.shut w

/-- The order of the bytes does not depend on who sleeps. -/
def fifoDiscipline : Discipline (pipeCode (P := P)) (fun _ _ => True) where
  free := Pipe.Fifo
  inside _ x _ := x.Fifo
  resume _ _ := True
  sleeps _ _ _ := True
  claim _ _ _ := True
  waits _ _ := True
  owes _ _ _ := False
  enter _ _ _ := ⟨trivial, trivial⟩
  awake _ := trivial
  acquire h _ _ := h
  store _ _ h _ hm := ⟨h.store hm, trivial, fun _ _ => trivial, fun _ _ => .inl trivial⟩
  wakeup _ _ h _ _ := ⟨h, trivial, fun _ _ => .inr (.inl trivial)⟩
  sleep _ _ h _ _ := ⟨h, trivial, trivial, trivial, nofun⟩
  leave _ _ h _ _ := ⟨h, trivial, nofun⟩

variable [DecidableEq P]

/-- In every state the counters are no more than `PIPESIZE` apart, and the bytes that were copied
    out, followed by those in the buffer, are the bytes that were stored. -/
theorem pipe_fifo {data : Fin PIPESIZE → Byte} {killed : P → Bool} {s : PipeState P}
    (hr : Reach (State.step pipeCode) (fun _ _ => True) (pipeStart data killed) s) :
    (s.data.nwrite - s.data.nread).toNat ≤ PIPESIZE ∧
      s.data.delivered ++ s.data.buffer = s.data.accepted := by
  have h0 : fifoDiscipline.Inv (pipeStart data killed) :=
    Discipline.Inv.start (x := pipealloc data)
      ⟨by simp [pipealloc], by simp [Pipe.buffer, pipealloc]⟩
      fun _ => trivial
  exact (Discipline.inv_reach h0 hr).always id fun _ _ => id

/-- Process 0 writes two bytes, and process 1 reads one of them. -/
def writeRead : List (Act (Fin 2) PipePoint) :=
  [.enter 0 (.write 2 (fun i => if i = 0 then 7 else 8) 0 false), .run 0, .run 0, .run 0, .run 0,
    .run 0, .run 0, .enter 1 (.read 1), .run 1, .run 1, .run 1, .run 1, .run 1, .run 1]

theorem pipe_fifo_writeRead : ∃ s : PipeState (Fin 2),
    Reach (State.step pipeCode) (fun _ _ => True) (pipeStart (fun _ => 0) fun _ => false) s ∧
      s.data.delivered = [7] ∧ s.data.accepted = [7, 8] ∧
      (s.data.nwrite - s.data.nread).toNat ≤ PIPESIZE ∧
      s.data.delivered ++ s.data.buffer = s.data.accepted := by
  obtain ⟨s, hs, ht⟩ := Outcome.holds_iff.mp
    (show (writeRead.foldlM (State.step pipeCode) (pipeStart (fun _ => 0) fun _ => false)).holds
      (fun s => s.data.delivered = [7] ∧ s.data.accepted = [7, 8]) = true by decide +kernel)
  have hr := Reach.of_foldlM (fun _ _ _ => trivial) hs
  obtain ⟨h1, h2⟩ := of_decide_eq_true ht
  exact ⟨s, hr, h1, h2, pipe_fifo hr⟩

/-! ### Who sleeps on a pipe -/

/-- A writer that has stored bytes since it last acquired the lock does not find the pipe full after
    it was killed. -/
def NotCut (s : PipeState P) : Act P PipePoint → Prop
  | .run p =>
    match s.stage p with
    | .inside (.write n _ i true) => (i : Int) < n → s.data.Full → s.killed p = false
    | _ => True
  | _ => True

/-- What those that sleep on a channel wait for, for those whose end of the pipe is open. -/
def PipeWaits (x : Pipe) : PipeChan → Prop
  | .nread => x.readopen = true → x.nread = x.nwrite ∧ x.writeopen = true
  | .nwrite => x.Full ∧ x.readopen = true

/-- The wakeups that are still to come. -/
def PipeOwes : PipePoint → PipeChan → Prop
  | .write _ _ _ stored, .nread => stored = true
  | .copy _ _, .nwrite => True
  | .closeWake true, .nread | .closeWake false, .nwrite => True
  | _, _ => False

/-- What `pipewrite` has found out before it sleeps. -/
def PipeInside (x : Pipe) : PipePoint → Prop
  | .writeSleep .. => x.Full ∧ x.readopen = true
  | _ => True

/-- Readers sleep on `nread`, writers on `nwrite`. -/
def PipeSleeps : PipeChan → PipePoint → Prop
  | .nread, .read _ | .nwrite, .write .. => True
  | _, _ => False

theorem isOpen_shut {w w' : Bool} (h : w' ≠ w) : (x.shut w).isOpen w' = x.isOpen w' := by
  cases w <;> cases w' <;> first | rfl | exact absurd rfl h

/-- Who sleeps has nothing to do: the pipe is empty for a reader and full for a writer, and the
    other end is open. -/
def pipeDiscipline : Discipline (pipeCode (P := P)) (fun s a => PipeRules s a ∧ NotCut s a) where
  free _ := True
  inside _ x l := PipeInside x l
  resume _ l := ∀ x, PipeInside x l
  sleeps _ c l := PipeSleeps c l
  claim _ g x := ∀ w, Uses w g → x.isOpen w = true
  waits c x := PipeWaits x c
  owes _ l c := PipeOwes l c
  enter := by
    intro s p r l ha _ _
    cases l with
    | write n addr i stored =>
      refine ⟨fun _ => trivial, fun w hw => ?_⟩
      cases (hw : w = true)
      exact ha.1.2.2
    | read n =>
      refine ⟨fun _ => trivial, fun w hw => ?_⟩
      cases (hw : w = false)
      exact ha.1
    | close writable =>
      refine ⟨fun _ => trivial, fun w hw => ?_⟩
      cases (hw : w = writable)
      exact ha.1
    | _ => exact ha.1.elim
  awake := by
    intro p c l h
    cases c <;> cases l <;> first | exact h.elim | exact fun _ => trivial
  acquire _ h _ := h _
  store := by
    intro s p l x l' ha hp _ hcl hm
    have hclp := hcl p
    rw [hp] at hclp
    rcases store_cases hm with ⟨n, addr, i, _, rfl, hfull, rfl, rfl⟩ | ⟨n, rfl, rfl, rfl⟩ |
      ⟨n, i, rfl, hne, rfl, rfl⟩ | ⟨writable, rfl, rfl, rfl⟩
    · refine ⟨trivial, hclp, fun q _ => hcl q, fun c hc => ?_⟩
      cases c with
      | nread => exact .inr rfl
      | nwrite => exact absurd (hc.resolve_right id).1 hfull
    · refine ⟨trivial, hclp, fun q _ => hcl q, fun c hc => ?_⟩
      cases c <;> exact .inl (hc.resolve_right id)
    · refine ⟨trivial, hclp, fun q _ => hcl q, fun c hc => ?_⟩
      cases c with
      | nread =>
        -- the reader's end is open, so nobody waits for bytes
        have hopen : s.data.readopen = true := hclp false rfl
        exact absurd (hc.resolve_right id hopen).1 hne
      | nwrite => exact .inr trivial
    · have hothers : ∀ q, q ≠ p → ¬ Uses writable (s.stage q).place := by
        have := ha.1
        simp only [PipeRules, hp] at this
        exact this
      refine ⟨trivial, fun w hw => hw.elim, fun q hq w hw => ?_, fun c hc => ?_⟩
      · have hne : w ≠ writable := fun e => hothers q hq (e ▸ hw)
        rw [isOpen_shut hne]
        exact hcl q w hw
      · cases writable <;> cases c
        · exact .inl nofun
        · exact .inr trivial
        · exact .inr trivial
        · exact .inl (hc.resolve_right id)
  wakeup := by
    intro s p l c l' _ _ _ hcl hm
    rcases wakeup_cases hm with ⟨n, addr, i, stored, rfl, rfl, hl'⟩ | ⟨n, i, rfl, rfl, rfl⟩ |
      ⟨writable, rfl, rfl, rfl⟩
    · have hrest : ∀ c', PipeWaits s.data c' ∨ PipeOwes (.write n addr i stored) c' →
          c' = .nread ∨ PipeWaits s.data c' := fun c' hc' => by
        cases c' with
        | nread => exact .inl rfl
        | nwrite => exact .inr (hc'.resolve_right id)
      rcases hl' with ⟨hfull, hopen, rfl⟩ | rfl
      · exact ⟨⟨hfull, hopen⟩, hcl, fun c' hc' => (hrest c' hc').imp_right .inl⟩
      · exact ⟨trivial, hcl, fun c' hc' => (hrest c' hc').imp_right .inl⟩
    · refine ⟨trivial, hcl, fun c' hc' => ?_⟩
      cases c' with
      | nread => exact .inr (.inl (hc'.resolve_right id))
      | nwrite => exact .inl rfl
    · refine ⟨trivial, fun w hw => hw.elim, fun c' hc' => ?_⟩
      cases writable <;> cases c'
      · exact .inr (.inl (hc'.resolve_right id))
      · exact .inl rfl
      · exact .inl rfl
      · exact .inr (.inl (hc'.resolve_right id))
  sleep := by
    intro s p l c l' _ _ hin hcl hm
    rcases sleep_cases hm with ⟨n, addr, i, rfl, rfl, rfl⟩ | ⟨n, rfl, rfl, rfl, hempty⟩
    · exact ⟨trivial, trivial, hcl, hin, fun c' ho => by cases c' <;> exact ho.elim⟩
    · exact ⟨trivial, trivial, hcl, fun _ => hempty, fun c' ho => by cases c' <;> exact ho.elim⟩
  leave := by
    intro s p l r ha hp _ hcl hm
    refine ⟨trivial, fun w hw => hw.elim, fun c ho => ?_⟩
    rcases leave_cases hm with ⟨n, addr, i, stored, rfl, hi, hfull, hback⟩ | ⟨n, rfl⟩ | ⟨n, rfl⟩ |
      ⟨i, rfl⟩ | rfl
    · cases c with
      | nread =>
        -- it was not killed, so the readers have closed their end
        cases (ho : stored = true)
        have hlive : s.killed p = false := by
          have := ha.2
          simp only [NotCut, hp] at this
          exact this hi hfull
        have hclosed : s.data.readopen = false :=
          hback.resolve_right fun hkilled => by cases hlive.symm.trans hkilled
        intro hopen
        cases hclosed.symm.trans hopen
      | nwrite => exact ho.elim
    all_goals cases c <;> exact ho.elim

/-- While the lock is free, a reader that sleeps has an empty pipe before it that can still be
    written, and a writer that sleeps a full pipe that can still be read. -/
theorem no_reader_left {data : Fin PIPESIZE → Byte} {killed : P → Bool} {s : PipeState P}
    (hr : Reach (State.step pipeCode) (fun s a => PipeRules s a ∧ NotCut s a)
      (pipeStart data killed) s) (hl : s.lk = none) (p : P) :
    ((s.stage p).Asleep .nread → s.data.nread = s.data.nwrite ∧ s.data.writeopen = true) ∧
      ((s.stage p).Asleep .nwrite →
        s.data.nwrite = s.data.nread + BitVec.ofNat 32 PIPESIZE ∧ s.data.readopen = true) := by
  have h0 : pipeDiscipline.Inv (pipeStart data killed) :=
    Discipline.Inv.start trivial fun _ _ hw => hw.elim
  have hi := Discipline.inv_reach h0 hr
  refine ⟨fun hp => ?_, fun hp => hi.asleep_waits hl hp⟩
  have hw : PipeWaits s.data .nread := hi.asleep_waits hl hp
  have hsleeps := hi.ok p
  have hclaim := hi.claim p
  obtain ⟨l, hp⟩ := hp
  rw [hp] at hsleeps hclaim
  cases l with
  | read n => exact hw (hclaim false rfl)
  | _ => exact hsleeps.elim

instance [Fintype P] (s : PipeState P) (a : Act P PipePoint) : Decidable (PipeRules s a) := by
  unfold PipeRules
  split
  all_goals try infer_instance
  split <;> infer_instance

instance (s : PipeState P) (a : Act P PipePoint) : Decidable (NotCut s a) := by
  unfold NotCut
  split
  · split <;> infer_instance
  · infer_instance

/-- Process 0 goes to sleep in `piperead`. -/
def blockedRead : List (Act (Fin 2) PipePoint) :=
  [.enter 0 (.read 1), .run 0, .run 0, .run 0, .run 0, .run 0]

theorem no_reader_left_blockedRead : ∃ s : PipeState (Fin 2),
    Reach (State.step pipeCode) (fun s a => PipeRules s a ∧ NotCut s a)
      (pipeStart (fun _ => 0) fun _ => false) s ∧ s.lk = none ∧
      (s.stage 0).Asleep .nread ∧ s.data.nread = s.data.nwrite ∧ s.data.writeopen = true := by
  obtain ⟨s, hs, ht⟩ := Outcome.holds_iff.mp
    (show (blockedRead.foldlM (fun (s : PipeState (Fin 2)) a =>
        if PipeRules s a ∧ NotCut s a then s.step pipeCode a else .hang)
        (pipeStart (fun _ => 0) fun _ => false)).holds
      (fun s => s.lk = none ∧ (s.stage 0).Asleep .nread) = true by decide +kernel)
  have hr : Reach (State.step pipeCode) (fun s a => PipeRules s a ∧ NotCut s a)
      (pipeStart (fun _ => 0) fun _ => false) s := Reach.of_checked hs
  obtain ⟨h1, h2⟩ := of_decide_eq_true ht
  exact ⟨s, hr, h1, h2, (no_reader_left hr h1 0).1 h2⟩

/-- Process 0 goes to sleep in `piperead`; process 1, which writes 513 bytes, is killed meanwhile.
    -/
def killedWrite : List (Act (Fin 2) PipePoint) :=
  blockedRead ++ [.enter 1 (.write 513 (fun _ => 0) 0 false), .run 1, .kill 1] ++
    List.replicate 513 (.run 1)

/-- The writer has filled the pipe and returned, and the reader sleeps on. -/
theorem killed_writer_leaves_reader : ∃ s : PipeState (Fin 2),
    Reach (State.step pipeCode) PipeRules (pipeStart (fun _ => 0) fun _ => false) s ∧
      s.lk = none ∧ (s.stage 0).Asleep .nread ∧ (s.stage 1).place.isLeft ∧
      s.data.nread ≠ s.data.nwrite := by
  obtain ⟨s, hs, ht⟩ := Outcome.holds_iff.mp
    (show (killedWrite.foldlM (fun (s : PipeState (Fin 2)) a =>
        if PipeRules s a then s.step pipeCode a else .hang)
        (pipeStart (fun _ => 0) fun _ => false)).holds
      (fun s => s.lk = none ∧ (s.stage 0).Asleep .nread ∧ (s.stage 1).place.isLeft ∧
        s.data.nread ≠ s.data.nwrite) = true by decide +kernel)
  exact ⟨s, Reach.of_checked hs, of_decide_eq_true ht⟩

end Xv6.Sync
