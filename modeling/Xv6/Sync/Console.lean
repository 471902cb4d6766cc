import Xv6.Lib.Monitor
import Xv6.Lib.Ring
import Xv6.Lib.Words
import Xv6.Param

namespace Xv6.Sync

open Function (update)
open List Xv6.Ring
open Run (Reach)
open Monitor (Move Code Stage State Act Discipline)

/-!
# The console's input

`consoleintr` and `consoleread` of `console.c`, by any number of processors and processes.  The spin
lock is `cons.lock`; each character that is typed or read is a step.

* `Input`, `Input.key`, `consoleCode` — the functions;
* `Event`, `Call` — records of what was typed and taken, and of the calls of `consoleread`;
* `Tty` — what the typed characters mean: a line that is edited, and what has been committed;
* `Sim`, `Sim.key`, `Sim.took` — the ring buffer holds what the line discipline says;
* `console_lines` — the indices stay in order, and the calls of `consoleread` return what was
  committed, in order, each up to where it has to stop.
-/

/-- `INPUT_BUF` -/
abbrev INPUT_BUF : Nat := 128

/-- `C(x)`: control-x -/
def ctrl (x : Char) : Byte := BitVec.ofNat 8 (x.toNat - '@'.toNat)

/-- `'\n'` -/
def newline : Byte := 10

/-- `'\r'` -/
def carriageReturn : Byte := 13

/-- `'\x7f'` -/
def del : Byte := 0x7f

/-- `(c == '\r') ? '\n' : c` -/
def cook (c : Byte) : Byte := if c = carriageReturn then newline else c

/-- `input` -/
structure Input where
  buf : Fin INPUT_BUF → Byte
  r : Word
  w : Word
  e : Word

namespace Input

/-- The loop of `C('U')`.  With every round `e` comes one closer to `w`. -/
def killLine : Nat → Input → Input
  | 0, x => x
  | fuel + 1, x =>
    if x.e ≠ x.w ∧ x.buf (Ring.cell INPUT_BUF (x.e - 1)) ≠ newline then
      killLine fuel { x with e := x.e - 1 }
    else x

/-- `input.buf[input.e++ % INPUT_BUF] = c` -/
def put (x : Input) (c : Byte) : Input :=
  { x with buf := update x.buf (Ring.cell INPUT_BUF x.e) c, e := x.e + 1 }

/-- A character is stored.  The line is committed after a newline or a `^D`, or if the buffer is
    full. -/
def insert (x : Input) (c : Byte) : Input × Bool :=
  let x := x.put c
  if c = newline ∨ c = ctrl 'D' ∨ x.e = x.r + BitVec.ofNat 32 INPUT_BUF then
    ({ x with w := x.e }, true)
  else (x, false)

/-- What `consoleintr` does with a character, and whether it then calls `wakeup`. -/
def key (x : Input) (c : Byte) : Input × Bool :=
  if c = ctrl 'P' then (x, false)
  else if c = ctrl 'U' then (killLine (x.e - x.w).toNat x, false)
  else if c = ctrl 'H' ∨ c = del then
    if x.e ≠ x.w then ({ x with e := x.e - 1 }, false) else (x, false)
  else if c ≠ 0 ∧ (x.e - x.r).toNat < INPUT_BUF then x.insert (cook c)
  else (x, false)

end Input

/-- A character was typed, or call `k` of `consoleread` has taken one. -/
inductive Event where
  | typed (c : Byte)
  | took (k : Nat) (c : Byte)
  deriving DecidableEq

/-- Why a call of `consoleread` has stopped: it has read `n` bytes, or a newline, or a `^D` before
    anything else, or it has left a `^D` after other bytes where it is. -/
inductive Stop where
  | full
  | newline
  | eof
  | pushed
  deriving DecidableEq

/-- A call of `consoleread`: the process, the parameter `n`, the bytes stored at `dst`, how many
    characters had been taken when it began, and why and when it has stopped. -/
structure Call (P : Type) where
  proc : P
  n : Word
  bytes : List Byte
  since : Nat
  stop : Option Stop
  till : Nat

/-- The characters that have been taken, with the calls that took them. -/
def takenBy : List Event → List (Nat × Byte)
  | [] => []
  | .typed _ :: h => takenBy h
  | .took k c :: h => (k, c) :: takenBy h

/-- `input`, with records of what was typed and taken and of the calls of `consoleread`. -/
structure Console (P : Type) where
  input : Input
  history : List Event
  calls : List (Call P)

namespace Console

variable {P : Type}

/-- `consoleintr` has handled a character. -/
def typed (x : Console P) (c : Byte) : Console P :=
  { x with input := (x.input.key c).1, history := x.history ++ [.typed c] }

/-- A call of `consoleread` begins. -/
def begin (x : Console P) (p : P) (n : Word) : Console P :=
  { x with calls := x.calls ++ [⟨p, n, [], (takenBy x.history).length, none, 0⟩] }

/-- `input.buf[input.r % INPUT_BUF]` -/
def first (x : Console P) : Byte := x.input.buf (Ring.cell INPUT_BUF x.input.r)

/-- `input.r++`, for call `k` -/
def take (x : Console P) (k : Nat) : Console P :=
  { x with
    input := { x.input with r := x.input.r + 1 }
    history := x.history ++ [.took k x.first] }

/-- `input.r++` and `input.r--` -/
def peek (x : Console P) : Console P :=
  { x with input := { x.input with r := x.input.r + 1 - 1 } }

/-- `*dst++ = c` -/
def store (x : Console P) (k : Nat) (c : Byte) : Console P :=
  { x with calls := x.calls.modify k fun a => { a with bytes := a.bytes ++ [c] } }

/-- Call `k` stops. -/
def finish (x : Console P) (k : Nat) (why : Stop) : Console P :=
  { x with calls := x.calls.modify k fun a =>
      { a with stop := some why, till := (takenBy x.history).length } }

end Console

/-- Where a process is in the functions. -/
inductive ConsolePoint where
  /-- Before `getc` in `consoleintr`, which is going to return the characters `cs`. -/
  | intr (cs : List Byte) (doprocdump : Bool)
  /-- Before `wakeup` in `consoleintr`. -/
  | wake (cs : List Byte) (doprocdump : Bool)
  /-- At the start of `consoleread`. -/
  | start (n : Word)
  /-- At the loops of `consoleread`. -/
  | read (k : Nat) (target n : Word)
  /-- Before the last `release` in `consoleread`. -/
  | done (k : Nat) (res : Word)
  deriving DecidableEq

/-- What the functions return.  `consoleintr` calls `procdump` after it has released the lock. -/
inductive ConsoleRet where
  | intr (doprocdump : Bool)
  | read (k : Nat) (res : Word)
  deriving DecidableEq

/-- What a process does next with `cons.lock`.  All sleep on `&input.r`. -/
def consoleCode {P : Type} : Code P (Console P) ConsolePoint Unit ConsoleRet
  | _, _, _, .intr [] dump => .leave (.intr dump)
  | _, x, _, .intr (c :: cs) dump =>
    let dump := dump || decide (c = ctrl 'P')
    .store (x.typed c) (if (x.input.key c).2 then .wake cs dump else .intr cs dump)
  | _, _, _, .wake cs dump => .wakeup () (.intr cs dump)
  | p, x, _, .start n => .store (x.begin p n) (.read x.calls.length n n)
  | _, x, killed, .read k target n =>
    if 0 < n.toInt then
      if x.input.r = x.input.w then
        if killed then .leave (.read k (-1)) else .sleep () (.read k target n)
      else if x.first = ctrl 'D' then
        if n.toNat < target.toNat then .store (x.peek.finish k .pushed) (.done k (target - n))
        else .store ((x.take k).finish k .eof) (.done k (target - n))
      else
        let x' := (x.take k).store k x.first
        if x.first = newline then .store (x'.finish k .newline) (.done k (target - (n - 1)))
        else .store x' (.read k target (n - 1))
    else .store (x.finish k .full) (.done k (target - n))
  | _, _, _, .done k res => .leave (.read k res)

/-- The processes and the console. -/
abbrev ConsoleState (P : Type) := State P (Console P) ConsolePoint Unit ConsoleRet

/-- The process is in `consoleread`. -/
def Reading : ConsoleRet ⊕ ConsolePoint → Prop
  | .inr (.start _) | .inr (.read ..) | .inr (.done ..) => True
  | _ => False

instance (g : ConsoleRet ⊕ ConsolePoint) : Decidable (Reading g) := by
  unfold Reading
  split <;> infer_instance

/-- The functions are called from their start, and no process is killed while it reads. -/
def ConsoleRules {P : Type} (s : ConsoleState P) : Act P ConsolePoint → Prop
  | .enter _ (.intr _ dump) => dump = false
  | .enter p (.start _) => s.killed p = false
  | .enter _ _ => False
  | .run p => Reading (s.stage p).place → s.killed p = false
  | .kill p => ¬ Reading (s.stage p).place

instance {P : Type} (s : ConsoleState P) (a : Act P ConsolePoint) :
    Decidable (ConsoleRules s a) := by
  unfold ConsoleRules
  split <;> infer_instance

/-- Nothing was typed yet.  All indices are `i`; it is 0 when the system starts. -/
def consoleStart {P : Type} (buf : Fin INPUT_BUF → Byte) (i : Word) (killed : P → Bool) :
    ConsoleState P :=
  ⟨none, none, ⟨⟨buf, i, i, i⟩, [], []⟩, fun _ => .out (.intr false), killed⟩

/-! ### The line discipline -/

/-- What has been committed, how much of it has been taken, and the line that is edited. -/
structure Tty where
  committed : List Byte
  taken : Nat
  line : List Byte

variable {c : Byte} {x : Input}

namespace Tty

/-- Committed and not yet taken. -/
def pending (t : Tty) : List Byte := t.committed.drop t.taken

/-- A character is added to the line.  A newline or a `^D` commits the line, and so does a buffer
    that is full. -/
def insert (t : Tty) (c : Byte) : Tty :=
  if c = newline ∨ c = ctrl 'D' ∨ t.pending.length + t.line.length + 1 = INPUT_BUF then
    { t with committed := t.committed ++ (t.line ++ [c]), line := [] }
  else { t with line := t.line ++ [c] }

/-- A character is typed: it edits the line, or is added to it if there is room. -/
def typed (t : Tty) (c : Byte) : Tty :=
  if c = ctrl 'P' then t
  else if c = ctrl 'U' then { t with line := [] }
  else if c = ctrl 'H' ∨ c = del then { t with line := t.line.dropLast }
  else if c ≠ 0 ∧ t.pending.length + t.line.length < INPUT_BUF then t.insert (cook c)
  else t

/-- A character is typed, or the next one is taken. -/
def step (t : Tty) : Event → Tty
  | .typed c => t.typed c
  | .took _ _ => { t with taken := t.taken + 1 }

/-- After a history. -/
def after (h : List Event) : Tty := h.foldl step ⟨[], 0, []⟩

/-- One event more. -/
@[simp] theorem after_append (h : List Event) (a : Event) :
    after (h ++ [a]) = (after h).step a := by
  simp [after]

/-- What is committed stays: lines are added at the end. -/
theorem committed_typed (t : Tty) (c : Byte) :
    t.committed <+: (t.typed c).committed ∧ (t.typed c).taken = t.taken := by
  unfold typed insert
  split_ifs
  all_goals exact ⟨by simp, rfl⟩

/-- What editing does to the pending characters: nothing. -/
theorem committed_edit (t : Tty) (h : c = ctrl 'U' ∨ c = ctrl 'H' ∨ c = del) :
    (t.typed c).committed = t.committed := by
  have hP : c ≠ ctrl 'P' := by rcases h with rfl | rfl | rfl <;> decide
  unfold typed
  rw [if_neg hP]
  split
  · rfl
  · rename_i hU
    rw [if_pos (h.resolve_left hU)]

end Tty

/-! ### The ring buffer -/

/-- The ring buffer holds what has been committed and not yet taken, and then the line. -/
structure Sim (x : Input) (t : Tty) : Prop where
  fits : (x.w - x.r).toNat + (x.e - x.w).toNat ≤ INPUT_BUF
  pending : Ring.contents x.buf x.r x.w = t.pending
  line : Ring.contents x.buf x.w x.e = t.line
  oneLine : newline ∉ t.line
  taken : t.taken ≤ t.committed.length

/-- In a line without a newline `C('U')` goes back to its start. -/
theorem Input.killLine_eq {fuel : Nat} (hf : (x.e - x.w).toNat = fuel)
    (h : newline ∉ Ring.contents x.buf x.w x.e) : x.killLine fuel = { x with e := x.w } := by
  induction fuel generalizing x with
  | zero =>
    have he : x.e = x.w := by
      rw [← add_sub_toNat (r := x.w) (n := x.e), hf, BitVec.add_zero]
    obtain ⟨buf, r, w, e⟩ := x
    cases he
    rfl
  | succ fuel ih =>
    have hne : x.e ≠ x.w := by
      intro he
      rw [he, BitVec.sub_self] at hf
      cases hf
    -- the last character is not a newline, and there is none before it
    rw [contents_back hne, mem_append, mem_singleton, not_or] at h
    have hback := toNat_back hne
    rw [killLine, if_pos ⟨hne, fun he => h.2 he.symm⟩]
    exact ih (x := { x with e := x.e - 1 }) (Nat.succ.inj (hback.trans hf)) h.1

namespace Sim

variable {x : Input} {t : Tty} {c : Byte}

section

variable (h : Sim x t)
include h

/-- The two parts fit. -/
theorem bound : (x.w - x.r).toNat + (x.e - x.w).toNat ≤ 128 := h.fits

/-- Lines and the line being typed. -/
theorem toNat_edit : (x.e - x.r).toNat = t.pending.length + t.line.length := by
  have := h.bound
  rw [toNat_split (m := x.w) (by omega), ← h.pending, ← h.line, length_contents, length_contents]

/-- The whole line is dropped. -/
theorem killLine : Sim { x with e := x.w } { t with line := [] } where
  fits := by
    have := h.fits
    rw [BitVec.sub_self]
    exact (Nat.le_add_right ..).trans this
  pending := h.pending
  line := contents_self ..
  oneLine := not_mem_nil
  taken := h.taken

/-- The last character of the line is dropped. -/
theorem backspace (hne : x.e ≠ x.w) :
    Sim { x with e := x.e - 1 } { t with line := t.line.dropLast } where
  fits := by
    have hback := toNat_back hne
    have := h.bound
    change (x.w - x.r).toNat + (x.e - 1 - x.w).toNat ≤ 128
    omega
  pending := h.pending
  line := by
    rw [← h.line, contents_back hne, dropLast_concat]
  oneLine hmem := h.oneLine (dropLast_subset _ hmem)
  taken := h.taken

/-- A character is stored at the end of the line. -/
theorem put (hroom : (x.e - x.r).toNat < INPUT_BUF) (c : Byte) :
    ((x.put c).w - x.r).toNat + ((x.put c).e - x.w).toNat ≤ INPUT_BUF ∧
      Ring.contents (x.put c).buf x.r x.w = t.pending ∧
      Ring.contents (x.put c).buf x.w (x.put c).e = t.line ++ [c] := by
  have hb := h.bound
  have hsplit : (x.e - x.r).toNat = (x.w - x.r).toNat + (x.e - x.w).toNat :=
    toNat_split (by omega)
  have hroom' : (x.w - x.r).toNat + (x.e - x.w).toNat < INPUT_BUF := hsplit ▸ hroom
  have hdvd : INPUT_BUF ∣ 2 ^ 32 := by decide
  have hlt : INPUT_BUF < 2 ^ 32 := by decide
  refine ⟨?_, ?_, ?_⟩
  · have hpush : (x.e + 1 - x.w).toNat = (x.e - x.w).toNat + 1 := toNat_push (by omega)
    change (x.w - x.r).toNat + (x.e + 1 - x.w).toNat ≤ 128
    rw [hpush]
    exact hroom'
  · rw [← h.pending]
    exact contents_push_before hdvd hlt hroom' c
  · rw [← h.line]
    exact contents_push hdvd hlt (lt_of_le_of_lt (Nat.le_add_left ..) hroom') c

/-- The buffer is full exactly if the line discipline says so. -/
theorem full_iff (hroom : (x.e - x.r).toNat < INPUT_BUF) :
    x.e + 1 = x.r + BitVec.ofNat 32 INPUT_BUF ↔
      t.pending.length + t.line.length + 1 = INPUT_BUF := by
  have hroom' : (x.e - x.r).toNat < 128 := hroom
  have hpush : (x.e + 1 - x.r).toNat = (x.e - x.r).toNat + 1 := toNat_push (by omega)
  rw [← h.toNat_edit, ← hpush]
  constructor
  · intro he
    rw [he, add_sub_cancel_left]
    rfl
  · intro he
    rw [← add_sub_toNat (r := x.r) (n := x.e + 1), he]

theorem insert (hroom : (x.e - x.r).toNat < INPUT_BUF) (c : Byte) :
    Sim (x.insert c).1 (t.insert c) := by
  obtain ⟨hfits, hpending, hline⟩ := h.put hroom c
  have hiff : (c = newline ∨ c = ctrl 'D' ∨ (x.put c).e = (x.put c).r + BitVec.ofNat 32 INPUT_BUF) ↔
      (c = newline ∨ c = ctrl 'D' ∨ t.pending.length + t.line.length + 1 = INPUT_BUF) :=
    or_congr_right (or_congr_right (h.full_iff hroom))
  unfold Input.insert Tty.insert
  by_cases hcommit : c = newline ∨ c = ctrl 'D' ∨ t.pending.length + t.line.length + 1 = INPUT_BUF
  · rw [if_pos hcommit]
    simp only [if_pos (hiff.mpr hcommit)]
    have hsum : ((x.put c).w - x.r).toNat + ((x.put c).e - x.w).toNat ≤ 128 := hfits
    have hwr : (x.put c).w = x.w := rfl
    rw [hwr] at hsum
    have hsplit : ((x.put c).e - x.r).toNat = (x.w - x.r).toNat + ((x.put c).e - x.w).toNat :=
      toNat_split (by omega)
    refine ⟨?_, ?_, contents_self .., not_mem_nil, ?_⟩
    · change ((x.put c).e - x.r).toNat + ((x.put c).e - (x.put c).e).toNat ≤ 128
      rw [hsplit, BitVec.sub_self]
      exact hsum
    · change contents (x.put c).buf x.r (x.put c).e = _
      rw [contents_append (m := x.w) (by omega), hpending, hline]
      exact (drop_append_of_le_length h.taken).symm
    · rw [length_append]
      exact h.taken.trans (Nat.le_add_right ..)
  · rw [if_neg hcommit]
    simp only [if_neg (mt hiff.mp hcommit)]
    refine ⟨hfits, hpending, hline, ?_, h.taken⟩
    rw [mem_append, mem_singleton, not_or]
    exact ⟨h.oneLine, fun hc => hcommit (.inl hc.symm)⟩

/-- `consoleintr` does with a character what the line discipline says. -/
theorem key (c : Byte) : Sim (x.key c).1 (t.typed c) := by
  unfold Input.key Tty.typed
  rw [← h.toNat_edit]
  split
  · exact h
  · split
    · rw [Input.killLine_eq rfl (h.line ▸ h.oneLine)]
      exact h.killLine
    · split
      · split
        · exact h.backspace ‹_›
        · -- there is no line, and nothing to drop
          rename_i he
          have hnil : t.line = [] := by
            rw [← h.line, not_ne_iff.mp he, contents_self]
          have heq : ({ t with line := t.line.dropLast } : Tty) = t := by
            rw [hnil, dropLast_nil, ← hnil]
          rw [heq]
          exact h
      · split
        · rename_i hroom
          exact h.insert hroom.2 (cook c)
        · exact h

/-- `consoleread` takes the first of the pending characters. -/
theorem took (hne : x.r ≠ x.w) :
    t.committed[t.taken]? = some (x.buf (Ring.cell INPUT_BUF x.r)) ∧
      Sim { x with r := x.r + 1 } { t with taken := t.taken + 1 } := by
  have hpop : contents x.buf x.r x.w = x.buf (cell INPUT_BUF x.r) :: contents x.buf (x.r + 1) x.w :=
    contents_pop (Ne.symm hne)
  rw [h.pending, Tty.pending] at hpop
  have hget : t.committed[t.taken]? = some (x.buf (cell INPUT_BUF x.r)) := by
    rw [← head?_drop, hpop]
    rfl
  have hlt : t.taken < t.committed.length := (List.getElem?_eq_some_iff.mp hget).1
  have hfits := h.bound
  have htoNat := toNat_pop (Ne.symm hne)
  refine ⟨hget, ⟨?_, ?_, h.line, h.oneLine, hlt⟩⟩
  · change (x.w - (x.r + 1)).toNat + (x.e - x.w).toNat ≤ 128
    omega
  · change _ = t.committed.drop (t.taken + 1)
    rw [← tail_drop, hpop, tail_cons]

end

end Sim

/-! ### The calls of `consoleread` -/

/-- Typing takes nothing. -/
@[simp] theorem takenBy_typed (h : List Event) (c : Byte) :
    takenBy (h ++ [.typed c]) = takenBy h := by
  induction h with
  | nil => rfl
  | cons a h ih => cases a <;> simp [takenBy, ih]

/-- The call gets the character. -/
@[simp] theorem takenBy_took (h : List Event) (k : Nat) (c : Byte) :
    takenBy (h ++ [.took k c]) = takenBy h ++ [(k, c)] := by
  induction h with
  | nil => rfl
  | cons a h ih => cases a <;> simp [takenBy, ih]

/-- The characters that call `k` has taken. -/
def charsOf (k : Nat) (h : List Event) : List Byte :=
  ((takenBy h).filter (·.1 = k)).map Prod.snd

@[simp] theorem charsOf_typed (k : Nat) (h : List Event) (c : Byte) :
    charsOf k (h ++ [.typed c]) = charsOf k h := by
  simp [charsOf]

@[simp] theorem charsOf_took (k : Nat) (h : List Event) (c : Byte) :
    charsOf k (h ++ [.took k c]) = charsOf k h ++ [c] := by
  simp [charsOf]

/-- Another call gets nothing. -/
theorem charsOf_took_ne {j k : Nat} (hjk : j ≠ k) (h : List Event) (c : Byte) :
    charsOf j (h ++ [.took k c]) = charsOf j h := by
  simp [charsOf, hjk.symm]

/-- What the reason for which a call has stopped says about the bytes that it returns. -/
def Call.Stopped {P : Type} (a : Call P) (committed : List Byte) : Prop :=
  match a.stop with
  | none => newline ∉ a.bytes
  | some .full => newline ∉ a.bytes ∧ a.bytes.length = a.n.toInt.toNat
  | some .newline => ∃ l, a.bytes = l ++ [newline] ∧ newline ∉ l
  | some .eof => a.bytes = []
  | some .pushed => newline ∉ a.bytes ∧ a.bytes ≠ [] ∧ committed[a.till]? = some (ctrl 'D')

/-- What is known of call `k`: the characters that it has taken are those that it returns, and the
    `^D` for which it returns none; it has taken them between its start and its end. -/
structure Call.Ok {P : Type} (a : Call P) (k : Nat) (h : List Event) : Prop where
  chars : charsOf k h = a.bytes ++ if a.stop = some .eof then [ctrl 'D'] else []
  length : a.bytes.length ≤ a.n.toInt.toNat
  noEof : ctrl 'D' ∉ a.bytes
  since : a.since ≤ (takenBy h).length
  between : ∀ i c, (takenBy h)[i]? = some (k, c) → a.since ≤ i ∧ (a.stop ≠ none → i < a.till)
  stopped : a.Stopped (Tty.after h).committed

namespace Call

variable {P : Type} {a : Call P} {k j : Nat} {h : List Event} {c : Byte}

/-- Later too. -/
theorem Stopped.mono {l l' : List Byte} (hs : a.Stopped l) (hl : l <+: l') : a.Stopped l' := by
  unfold Stopped at hs ⊢
  split at hs
  · exact hs
  · exact hs
  · exact hs
  · exact hs
  · obtain ⟨r, rfl⟩ := hl
    obtain ⟨h1, h2, h3⟩ := hs
    exact ⟨h1, h2, (getElem?_append_left (List.getElem?_eq_some_iff.mp h3).1).trans h3⟩

/-- What is typed later does not change a call. -/
theorem Ok.typed (ha : a.Ok k h) (c : Byte) : a.Ok k (h ++ [.typed c]) where
  chars := by rw [charsOf_typed]; exact ha.chars
  length := ha.length
  noEof := ha.noEof
  since := by rw [takenBy_typed]; exact ha.since
  between := by rw [takenBy_typed]; exact ha.between
  stopped := by
    rw [Tty.after_append]
    exact ha.stopped.mono (Tty.committed_typed _ c).1

/-- What another call takes does not change a call. -/
theorem Ok.other (ha : a.Ok j h) (hjk : j ≠ k) (c : Byte) : a.Ok j (h ++ [.took k c]) where
  chars := by rw [charsOf_took_ne hjk]; exact ha.chars
  length := ha.length
  noEof := ha.noEof
  since := by
    rw [takenBy_took, length_append]
    exact ha.since.trans (Nat.le_add_right ..)
  between := by
    intro i c' hi
    rw [takenBy_took, getElem?_append] at hi
    split at hi
    · exact ha.between i c' hi
    · grind
  stopped := by
    rw [Tty.after_append]
    exact ha.stopped

/-- The call takes a character. -/
theorem Ok.between_took (ha : a.Ok k h) {i : Nat} {c' : Byte}
    (hi : (takenBy h ++ [(k, c)])[i]? = some (k, c')) :
    a.since ≤ i ∧ i < (takenBy h).length + 1 := by
  have hlen := (List.getElem?_eq_some_iff.mp hi).1
  rw [length_append, length_singleton] at hlen
  refine ⟨?_, hlen⟩
  rw [getElem?_append] at hi
  split at hi
  · exact (ha.between i c' hi).1
  · exact ha.since.trans (by omega)

/-- The call takes a character and returns it; `why` it stops then, or goes on. -/
theorem Ok.store (ha : a.Ok k h) (hr : a.stop = none) (hlen : a.bytes.length + 1 ≤ a.n.toInt.toNat)
    (hc : c ≠ ctrl 'D') {why : Option Stop} {till : Nat} (hwhy : why ≠ some .eof)
    (htill : why ≠ none → till = (takenBy h).length + 1)
    (hstopped : Stopped { a with bytes := a.bytes ++ [c], stop := why, till := till }
      (Tty.after h).committed) :
    Ok { a with bytes := a.bytes ++ [c], stop := why, till := till } k (h ++ [.took k c]) where
  chars := by
    rw [charsOf_took, ha.chars, hr, if_neg nofun, if_neg hwhy, append_nil, append_nil]
  length := by
    rw [length_append]
    exact hlen
  noEof := by
    rw [mem_append, mem_singleton, not_or]
    exact ⟨ha.noEof, hc.symm⟩
  since := by
    rw [takenBy_took, length_append]
    exact ha.since.trans (Nat.le_add_right ..)
  between := by
    intro i c' hi
    rw [takenBy_took] at hi
    obtain ⟨h1, h2⟩ := ha.between_took hi
    exact ⟨h1, fun hne => (htill hne).symm ▸ h2⟩
  stopped := by
    rw [Tty.after_append]
    exact hstopped

/-- The call takes a `^D` and returns nothing. -/
theorem Ok.eof (ha : a.Ok k h) (hr : a.stop = none) (hnil : a.bytes = []) :
    Ok { a with stop := some .eof, till := (takenBy h).length + 1 } k
      (h ++ [.took k (ctrl 'D')]) where
  chars := by
    rw [charsOf_took, ha.chars, hr, if_neg nofun, if_pos rfl, append_nil]
  length := ha.length
  noEof := ha.noEof
  since := by
    rw [takenBy_took, length_append]
    exact ha.since.trans (Nat.le_add_right ..)
  between := by
    intro i c' hi
    rw [takenBy_took] at hi
    obtain ⟨h1, h2⟩ := ha.between_took hi
    exact ⟨h1, fun _ => h2⟩
  stopped := hnil

/-- The call stops without taking a character. -/
theorem Ok.finish (ha : a.Ok k h) (hr : a.stop = none) {why : Stop} (hwhy : why ≠ .eof)
    (hstopped : Stopped { a with stop := some why, till := (takenBy h).length }
      (Tty.after h).committed) :
    Ok { a with stop := some why, till := (takenBy h).length } k h where
  chars := by
    have hwhy' : some why ≠ some Stop.eof := fun he => hwhy (Option.some.inj he)
    rw [ha.chars, hr, if_neg nofun, if_neg hwhy']
  length := ha.length
  noEof := ha.noEof
  since := ha.since
  between i c' hi := ⟨(ha.between i c' hi).1, fun _ => (List.getElem?_eq_some_iff.mp hi).1⟩
  stopped := hstopped

end Call

/-- How much is left to read after `m` bytes. -/
def Left (m : Nat) (target n : Word) : Prop :=
  if 0 < target.toInt then n.toNat + m = target.toNat else n = target ∧ m = 0

section

variable {m : Nat} {target n : Word}

theorem toInt_pos_iff : 0 < n.toInt ↔ 0 < n.toNat ∧ n.toNat < 2 ^ 31 := by
  rw [BitVec.toInt_eq_toNat_cond]
  split <;> omega

theorem toNat_toInt : target.toInt.toNat = if 0 < target.toInt then target.toNat else 0 := by
  rw [BitVec.toInt_eq_toNat_cond]
  split <;> split <;> omega

/-- While `n > 0` it says what is left of `target`. -/
theorem Left.of_pos (h : Left m target n) (hn : 0 < n.toInt) :
    0 < target.toInt ∧ n.toNat + m = target.toNat := by grind [Left]

/-- What has been read. -/
theorem Left.toNat_sub (h : Left m target n) : (target - n).toNat = m := by
  unfold Left at h
  split at h
  · rw [BitVec.toNat_sub_of_le (show n ≤ target by rw [BitVec.le_def]; omega)]
    omega
  · rw [h.1, h.2, BitVec.sub_self]
    rfl

/-- One more byte. -/
theorem Left.next (h : Left m target n) (hn : 0 < n.toInt) :
    Left (m + 1) target (n - 1) ∧ m + 1 ≤ target.toInt.toNat := by
  obtain ⟨htarget, hsum⟩ := h.of_pos hn
  have hpos := (toInt_pos_iff.mp hn).1
  have h1 : (n - 1).toNat = n.toNat - 1 :=
    BitVec.toNat_sub_of_le (show 1 ≤ n by rw [BitVec.le_def]; exact hpos)
  unfold Left
  rw [toNat_toInt, if_pos htarget, if_pos htarget, h1]
  omega

/-- All that was asked for. -/
theorem Left.full (h : Left m target n) (hn : ¬ 0 < n.toInt) : m = target.toInt.toNat := by
  rw [toNat_toInt]
  unfold Left at h
  split at h
  · rename_i htarget
    rw [if_pos htarget]
    rw [toInt_pos_iff] at hn htarget
    omega
  · rename_i htarget
    rw [if_neg htarget]
    exact h.2

end

namespace Console

variable {P : Type} {x : Console P} {k : Nat} {a : Call P} {f : Call P → Call P}
variable {x' : Console P} {p : P}

/-- The ring buffer holds what the line discipline says, what was taken is what was committed, and
    every call is in order. -/
structure Ok (x : Console P) : Prop where
  sim : Sim x.input (Tty.after x.history)
  taken : (takenBy x.history).map Prod.snd =
    (Tty.after x.history).committed.take (Tty.after x.history).taken
  known : ∀ e ∈ takenBy x.history, e.1 < x.calls.length
  calls : ∀ k (a : Call P), x.calls[k]? = some a → a.Ok k x.history

theorem Ok.length_taken (hx : x.Ok) : (takenBy x.history).length = (Tty.after x.history).taken := by
  have := congrArg length hx.taken
  rwa [length_map, length_take, Nat.min_eq_left hx.sim.taken] at this

theorem Ok.typed (hx : x.Ok) (c : Byte) : (x.typed c).Ok := by
  obtain ⟨hcommitted, htaken⟩ := Tty.committed_typed (Tty.after x.history) c
  refine ⟨?_, ?_, ?_, fun k a ha => (hx.calls k a ha).typed c⟩
  · change Sim _ (Tty.after (x.history ++ [.typed c]))
    rw [Tty.after_append]
    exact hx.sim.key c
  · change (takenBy (x.history ++ [.typed c])).map Prod.snd =
      (Tty.after (x.history ++ [.typed c])).committed.take
        (Tty.after (x.history ++ [.typed c])).taken
    rw [Tty.after_append, takenBy_typed, Tty.step, htaken, hx.taken]
    obtain ⟨l, hl⟩ := hcommitted
    rw [← hl, take_append_of_le_length hx.sim.taken]
  · change ∀ e ∈ takenBy (x.history ++ [.typed c]), _
    rw [takenBy_typed]
    exact hx.known

/-- A new call has not taken anything. -/
theorem Ok.begin (hx : x.Ok) (p : P) (n : Word) : (x.begin p n).Ok := by
  refine ⟨hx.sim, hx.taken, fun e he => ?_, fun k a ha => ?_⟩
  · have := hx.known e he
    simp only [Console.begin, length_append]
    omega
  · simp only [Console.begin, getElem?_append] at ha
    split at ha
    · exact hx.calls k a ha
    · rw [getElem?_singleton] at ha
      split at ha
      · cases ha
        have hnone : ∀ e ∈ takenBy x.history, e.1 ≠ k := fun e he => by
          have := hx.known e he
          omega
        refine ⟨?_, Nat.zero_le _, not_mem_nil, le_rfl, fun i c hi => ?_, not_mem_nil⟩
        · have hfilter : (takenBy x.history).filter (·.1 = k) = [] :=
            filter_eq_nil_iff.mpr fun e he => by simpa using hnone e he
          change ((takenBy x.history).filter (·.1 = k)).map Prod.snd = _
          rw [hfilter]
          rfl
        · exact absurd rfl (hnone _ (mem_of_getElem? hi))
      · cases ha

/-- The record of call `k` is changed. -/
theorem Ok.edit (hx : x.Ok) (ha : x.calls[k]? = some a) (hf : (f a).Ok k x.history) :
    Ok { x with calls := x.calls.modify k f } := by
  refine ⟨hx.sim, hx.taken, fun e he => ?_, fun j b hb => ?_⟩
  · rw [length_modify]
    exact hx.known e he
  · by_cases hj : k = j
    · subst hj
      rw [getElem?_modify_eq, ha] at hb
      cases hb
      exact hf
    · rw [getElem?_modify_ne _ _ hj] at hb
      exact hx.calls j b hb

/-- Call `k` takes a character, and its record is changed. -/
theorem Ok.take (hx : x.Ok) (hne : x.input.r ≠ x.input.w) (ha : x.calls[k]? = some a)
    (hf : (f a).Ok k (x.history ++ [.took k x.first])) :
    Ok { x.take k with calls := x.calls.modify k f } := by
  obtain ⟨hget, hsim⟩ := hx.sim.took hne
  refine ⟨?_, ?_, fun e he => ?_, fun j b hb => ?_⟩
  · change Sim _ (Tty.after (x.history ++ [.took k x.first]))
    rw [Tty.after_append]
    exact hsim
  · change (takenBy (x.history ++ [.took k x.first])).map Prod.snd =
      (Tty.after (x.history ++ [.took k x.first])).committed.take
        (Tty.after (x.history ++ [.took k x.first])).taken
    rw [Tty.after_append, takenBy_took, map_append, hx.taken]
    change _ = (Tty.after x.history).committed.take ((Tty.after x.history).taken + 1)
    rw [take_add_one, hget]
    rfl
  · rw [length_modify]
    change e ∈ takenBy (x.history ++ [.took k x.first]) at he
    rw [takenBy_took, mem_append, mem_singleton] at he
    rcases he with he | rfl
    · exact hx.known e he
    · exact (List.getElem?_eq_some_iff.mp ha).1
  · by_cases hj : k = j
    · subst hj
      rw [getElem?_modify_eq, ha] at hb
      cases hb
      exact hf
    · rw [getElem?_modify_ne _ _ hj] at hb
      exact (hx.calls j b hb).other (Ne.symm hj) _

/-- What process `p` knows of its own call. -/
def Owns (x : Console P) (p : P) : ConsoleRet ⊕ ConsolePoint → Prop
  | .inr (.read k target n) => ∃ a : Call P, x.calls[k]? = some a ∧ a.proc = p ∧ a.n = target ∧
      a.stop = none ∧ Left a.bytes.length target n
  | .inr (.done k res) | .inl (.read k res) => ∃ a : Call P, x.calls[k]? = some a ∧ a.proc = p ∧
      a.stop ≠ none ∧ res.toNat = a.bytes.length
  | _ => True

/-- The calls of other processes than `p` stay as they are. -/
def Others (p : P) (x x' : Console P) : Prop :=
  ∀ (j : Nat) (b : Call P), x.calls[j]? = some b → b.proc ≠ p → x'.calls[j]? = some b

/-- Others keep it. -/
theorem Owns.frame {q : P} {g : ConsoleRet ⊕ ConsolePoint} (h : x.Owns q g) (ho : Others p x x')
    (hq : q ≠ p) : x'.Owns q g := by
  have hkeep : ∀ {k : Nat} {a : Call P}, x.calls[k]? = some a → a.proc = q →
      x'.calls[k]? = some a := fun ha hp => ho _ _ ha (hp ▸ hq)
  unfold Owns at h ⊢
  split at h
  · obtain ⟨a, ha, hp, h⟩ := h
    exact ⟨a, hkeep ha hp, hp, h⟩
  · obtain ⟨a, ha, hp, h⟩ := h
    exact ⟨a, hkeep ha hp, hp, h⟩
  · obtain ⟨a, ha, hp, h⟩ := h
    exact ⟨a, hkeep ha hp, hp, h⟩
  · trivial

/-- A call changes its own entry. -/
theorem others_modify (ha : x.calls[k]? = some a) (hp : a.proc = p)
    (hx' : x'.calls = x.calls.modify k f) : Others p x x' := by
  intro j b hb hne
  have hkj : k ≠ j := by
    rintro rfl
    rw [ha] at hb
    cases hb
    exact hne hp
  rw [hx', getElem?_modify_ne _ _ hkj]
  exact hb

theorem length_take (x : Console P) (k : Nat) :
    (takenBy (x.take k).history).length = (takenBy x.history).length + 1 := by
  unfold Console.take
  rw [takenBy_took, length_append, length_singleton]

/-- A byte is stored, and the call stops. -/
theorem finish_store (x : Console P) (k : Nat) (c : Byte) (why : Stop) :
    (x.store k c).finish k why = { x with calls := x.calls.modify k fun a =>
      { a with
        bytes := a.bytes ++ [c], stop := some why, till := (takenBy x.history).length } } := by
  unfold finish store
  rw [modify_modify_eq]
  rfl

/-- A step in the loop of `consoleread`. -/
theorem Ok.read {killed : Bool} {target n : Word} {l : ConsolePoint} (hx : x.Ok)
    (hown : x.Owns p (.inr (.read k target n)))
    (hstep : consoleCode p x killed (.read k target n) = .store x' l) :
    x'.Ok ∧ x'.Owns p (.inr l) ∧ Others p x x' := by
  obtain ⟨a, ha, hp, hn, hrun, hleft⟩ := hown
  have haok := hx.calls k a ha
  have hline : newline ∉ a.bytes := by
    have := haok.stopped
    unfold Call.Stopped at this
    rwa [hrun] at this
  have hmod : ∀ f : Call P → Call P, (x.calls.modify k f)[k]? = some (f a) := by
    intro f
    rw [getElem?_modify_eq, ha]
    rfl
  simp only [consoleCode] at hstep
  split at hstep
  · rename_i hpos
    obtain ⟨hnext, hroom⟩ := hleft.next hpos
    have hsum := (hleft.of_pos hpos).2
    split at hstep
    · split at hstep <;> cases hstep
    · rename_i hne
      split at hstep
      · rename_i hD
        split at hstep
        · -- a `^D` after other bytes stays
          cases hstep
          have hpeek : x.peek = x := by
            unfold peek
            rw [BitVec.add_sub_cancel]
          rw [hpeek]
          have hsome : a.bytes ≠ [] := fun hnil => by
            rw [hnil, length_nil] at hsum
            omega
          have hget : (Tty.after x.history).committed[(takenBy x.history).length]? =
              some (ctrl 'D') := by
            rw [hx.length_taken, ← hD]
            exact (hx.sim.took hne).1
          exact ⟨hx.edit ha (haok.finish hrun nofun ⟨hline, hsome, hget⟩),
            ⟨_, hmod _, hp, nofun, hleft.toNat_sub⟩, others_modify ha hp rfl⟩
        · cases hstep
          have hnil : a.bytes = [] := eq_nil_of_length_eq_zero (by omega)
          refine ⟨hx.take hne ha ?_, ⟨_, hmod _, hp, nofun, hleft.toNat_sub⟩,
            others_modify ha hp rfl⟩
          rw [length_take, hD]
          exact haok.eof hrun hnil
      · rename_i hD
        split at hstep
        · rename_i hN
          cases hstep
          have hres : (target - (n - 1)).toNat = (a.bytes ++ [x.first]).length := by
            rw [length_append]
            exact hnext.toNat_sub
          rw [finish_store, length_take]
          refine ⟨hx.take hne ha ?_, ⟨_, hmod _, hp, nofun, hres⟩, others_modify ha hp rfl⟩
          exact haok.store hrun (hn ▸ hroom) hD nofun (fun _ => rfl) ⟨a.bytes, hN ▸ rfl, hline⟩
        · rename_i hN
          cases hstep
          refine ⟨hx.take hne ha ?_, ⟨_, hmod _, hp, hn, hrun, ?_⟩, others_modify ha hp rfl⟩
          · refine haok.store hrun (hn ▸ hroom) hD (by rw [hrun]; nofun) (absurd hrun) ?_
            simp only [Call.Stopped, hrun]
            rw [mem_append, mem_singleton, not_or]
            exact ⟨hline, Ne.symm hN⟩
          · rw [length_append]
            exact hnext
  · rename_i hpos
    cases hstep
    refine ⟨hx.edit ha (haok.finish hrun nofun ⟨hline, ?_⟩),
      ⟨_, hmod _, hp, nofun, hleft.toNat_sub⟩, others_modify ha hp rfl⟩
    rw [hn]
    exact hleft.full hpos

end Console

/-! ### Runs -/

/-- Only `e` moves. -/
theorem Input.killLine_frame (fuel : Nat) (x : Input) :
    (x.killLine fuel).r = x.r ∧ (x.killLine fuel).w = x.w ∧ (x.killLine fuel).buf = x.buf := by
  induction fuel generalizing x with
  | zero => exact ⟨rfl, rfl, rfl⟩
  | succ fuel ih =>
    rw [killLine]
    split
    · exact ih { x with e := x.e - 1 }
    · exact ⟨rfl, rfl, rfl⟩

/-- Without a wakeup `w` stays. -/
theorem Input.insert_quiet (h : (x.insert c).2 = false) :
    (x.insert c).1.r = x.r ∧ (x.insert c).1.w = x.w := by
  simp only [insert] at h ⊢
  split at h
  · cases h
  · rename_i hcommit
    rw [if_neg hcommit]
    exact ⟨rfl, rfl⟩

/-- `consoleintr` does not touch what has been committed, unless it commits more and calls
    `wakeup`. -/
theorem Input.key_quiet (h : (x.key c).2 = false) : (x.key c).1.r = x.r ∧ (x.key c).1.w = x.w := by
  unfold key at h ⊢
  split
  · exact ⟨rfl, rfl⟩
  · split
    · obtain ⟨h1, h2, -⟩ := killLine_frame (x.e - x.w).toNat x
      exact ⟨h1, h2⟩
    · split
      · split <;> exact ⟨rfl, rfl⟩
      · rename_i hP hU hH
        rw [if_neg hP, if_neg hU, if_neg hH] at h
        split
        · rename_i hroom
          rw [if_pos hroom] at h
          exact insert_quiet h
        · exact ⟨rfl, rfl⟩

/-- The keys that edit the line leave all but the end of it alone. -/
theorem Input.key_edit (hc : c = ctrl 'U' ∨ c = ctrl 'H' ∨ c = del) :
    (x.key c).1.r = x.r ∧ (x.key c).1.w = x.w ∧ (x.key c).1.buf = x.buf := by
  have hP : c ≠ ctrl 'P' := by rcases hc with rfl | rfl | rfl <;> decide
  unfold key
  rw [if_neg hP]
  split
  · exact killLine_frame ..
  · rename_i hU
    rw [if_pos (hc.resolve_left hU)]
    split <;> exact ⟨rfl, rfl, rfl⟩

section

variable {P : Type}

section

variable {p : P} {x x' : Console P} {killed : Bool} {k : Nat} {target n : Word} {l : ConsolePoint}

/-- In the loop of `consoleread` a process goes to sleep only if nothing is committed. -/
theorem read_sleep {c : Unit}
    (h : consoleCode p x killed (.read k target n) = .sleep c l) :
    l = .read k target n ∧ x.input.r = x.input.w := by
  simp only [consoleCode] at h
  split at h
  · grind
  · cases h

theorem read_ne_wakeup {c : Unit} : consoleCode p x killed (.read k target n) ≠ .wakeup c l := by
  intro h
  simp only [consoleCode] at h
  split at h
  · split at h
    · split at h <;> cases h
    · split at h <;> split at h <;> cases h
  · cases h

/-- Who was not killed goes on. -/
theorem read_ne_leave {r : ConsoleRet} : consoleCode p x false (.read k target n) ≠ .leave r := by
  intro h
  simp only [consoleCode] at h
  split at h
  · split at h
    · cases h
    · split at h <;> split at h <;> cases h
  · cases h

/-- With nothing committed `consoleread` takes nothing. -/
theorem read_waits (h : consoleCode p x killed (.read k target n) = .store x' l)
    (hw : x.input.r = x.input.w) : x'.input.r = x'.input.w := by
  simp only [consoleCode, if_pos hw] at h
  split at h
  · split at h <;> cases h
  · cases h
    exact hw

end

/-- The ring buffer and the calls are in order, every process knows its own call, and who sleeps
    finds nothing committed. -/
def consoleDiscipline : Discipline (consoleCode (P := P)) ConsoleRules where
  free := Console.Ok
  inside _ x _ := x.Ok
  resume _ _ := True
  sleeps _ _ _ := True
  claim p g x := x.Owns p g
  waits _ x := x.input.r = x.input.w
  owes _ l _ := match l with
    | .wake .. => True
    | _ => False
  enter := by
    intro s p r l ha _ _
    refine ⟨trivial, ?_⟩
    cases l with
    | intr cs dump => trivial
    | start n => trivial
    | _ => exact ha.elim
  awake _ := trivial
  acquire h _ _ := h
  store := by
    intro s p l x l' _ hp hx hown hm
    have hothers : Console.Others p s.data x → ∀ q, q ≠ p → x.Owns q (s.stage q).place :=
      fun ho q hq => (hown q).frame ho hq
    cases l with
    | intr cs dump =>
      cases cs with
      | nil => cases hm
      | cons c cs =>
        cases hm
        refine ⟨hx.typed c, ?_, hothers fun _ _ hb _ => hb, ?_⟩
        · split <;> trivial
        · rintro - (hw | ho)
          · by_cases hk : (s.data.input.key c).2 = true
            · rw [if_pos hk]
              exact .inr trivial
            · obtain ⟨h1, h2⟩ := Input.key_quiet (Bool.eq_false_of_not_eq_true hk)
              exact .inl (h1.trans (hw.trans h2.symm))
          · exact ho.elim
    | wake cs dump => cases hm
    | start n =>
      cases hm
      refine ⟨hx.begin p n, ?_, hothers fun j b hb _ => ?_, fun _ h => .inl (h.resolve_right id)⟩
      · refine ⟨_, List.getElem?_concat_length .., rfl, rfl, rfl, ?_⟩
        unfold Left
        split
        · rfl
        · exact ⟨rfl, rfl⟩
      · exact (List.getElem?_append_left (List.getElem?_eq_some_iff.mp hb).1).trans hb
    | read k target n =>
      have hcl := hown p
      rw [hp] at hcl
      obtain ⟨h1, h2, h3⟩ := hx.read hcl hm
      refine ⟨h1, h2, hothers h3, fun _ h => .inl ?_⟩
      exact read_waits hm (h.resolve_right id)
    | done k res => cases hm
  wakeup := by
    intro s p l c l' _ _ hx hcl hm
    cases l with
    | intr cs dump => cases cs <;> cases hm
    | wake cs dump =>
      cases hm
      exact ⟨hx, trivial, fun _ _ => .inl rfl⟩
    | start n => cases hm
    | read k target n => exact absurd hm read_ne_wakeup
    | done k res => cases hm
  sleep := by
    intro s p l c l' _ _ hx hcl hm
    cases l with
    | intr cs dump => cases cs <;> cases hm
    | wake cs dump => cases hm
    | start n => cases hm
    | read k target n =>
      obtain ⟨rfl, hw⟩ := read_sleep hm
      exact ⟨hx, trivial, hcl, hw, fun _ ho => ho.elim⟩
    | done k res => cases hm
  leave := by
    intro s p l r ha hp hx hcl hm
    cases l with
    | intr cs dump =>
      cases cs with
      | nil =>
        cases hm
        exact ⟨hx, trivial, fun _ ho => ho.elim⟩
      | cons c cs => cases hm
    | wake cs dump => cases hm
    | start n => cases hm
    | read k target n =>
      -- only who was killed returns from the inner loop
      have hlive : s.killed p = false := ha (by rw [hp]; trivial)
      rw [hlive] at hm
      exact absurd hm read_ne_leave
    | done k res =>
      cases hm
      exact ⟨hx, hcl, fun _ ho => ho.elim⟩

variable [DecidableEq P] {buf : Fin INPUT_BUF → Byte} {i : Word} {killed : P → Bool}
  {s : ConsoleState P}

/-- Over every run. -/
theorem console_inv
    (hr : Reach (State.step consoleCode) ConsoleRules (consoleStart buf i killed) s) :
    consoleDiscipline.Inv s := by
  have hsim : Sim ⟨buf, i, i, i⟩ ⟨[], 0, []⟩ := by
    refine ⟨?_, contents_self .., contents_self .., not_mem_nil, le_rfl⟩
    simp
  have hok : Console.Ok (⟨⟨buf, i, i, i⟩, [], []⟩ : Console P) := ⟨hsim, rfl, nofun, nofun⟩
  have h0 : consoleDiscipline.Inv (consoleStart buf i killed) :=
    Discipline.Inv.start (T := consoleDiscipline) hok fun _ => trivial
  exact Discipline.inv_reach h0 hr

/-- In every state the data is in order, whoever has the lock. -/
theorem console_ok
    (hr : Reach (State.step consoleCode) ConsoleRules (consoleStart buf i killed) s) :
    s.data.Ok :=
  (console_inv hr).always id fun _ _ => id

/-- In every state the indices are in order, however they wrap; the buffer holds what has been
    committed and not yet taken, and the line that is edited; what the calls of `consoleread` have
    taken is what has been committed, in order, and each returns what it has taken, up to where it
    has to stop; and the keys that edit the line leave what has been committed alone. -/
theorem console_lines
    (hr : Reach (State.step consoleCode) ConsoleRules (consoleStart buf i killed) s) :
    ((s.data.input.w - s.data.input.r).toNat ≤ (s.data.input.e - s.data.input.r).toNat ∧
      (s.data.input.e - s.data.input.r).toNat ≤ INPUT_BUF) ∧
    (Ring.contents s.data.input.buf s.data.input.r s.data.input.w =
        (Tty.after s.data.history).pending ∧
      Ring.contents s.data.input.buf s.data.input.w s.data.input.e =
        (Tty.after s.data.history).line) ∧
    (takenBy s.data.history).map Prod.snd =
      (Tty.after s.data.history).committed.take (Tty.after s.data.history).taken ∧
    (∀ k (a : Call P), s.data.calls[k]? = some a → a.Ok k s.data.history) ∧
    (∀ p k res, s.stage p = .out (.read k res) → ∃ a : Call P, s.data.calls[k]? = some a ∧
      a.proc = p ∧ a.stop ≠ none ∧ res.toNat = a.bytes.length) ∧
    ∀ p c cs dump s', s.stage p = .inside (.intr (c :: cs) dump) →
      (c = ctrl 'U' ∨ c = ctrl 'H' ∨ c = del) → s.step consoleCode (.run p) = .ok s' →
      s'.data.input.r = s.data.input.r ∧ s'.data.input.w = s.data.input.w ∧
        s'.data.input.buf = s.data.input.buf ∧
        (Tty.after s'.data.history).committed = (Tty.after s.data.history).committed := by
  have hi := console_inv hr
  have hok := console_ok hr
  have hb := hok.sim.bound
  have hsplit : (s.data.input.e - s.data.input.r).toNat =
      (s.data.input.w - s.data.input.r).toNat + (s.data.input.e - s.data.input.w).toNat :=
    Ring.toNat_split (by omega)
  refine ⟨⟨?_, ?_⟩, ⟨hok.sim.pending, hok.sim.line⟩, hok.taken, hok.calls, ?_, ?_⟩
  · rw [hsplit]
    exact Nat.le_add_right ..
  · rw [hsplit]
    exact hb
  · intro p k res hp
    have hown := hi.claim p
    rw [hp] at hown
    exact hown
  · intro p c cs dump s' hp hc hs
    simp only [State.step, State.run, hp] at hs
    cases hs
    obtain ⟨h1, h2, h3⟩ := Input.key_edit (x := s.data.input) hc
    refine ⟨h1, h2, h3, ?_⟩
    change (Tty.after (s.data.history ++ [.typed c])).committed = _
    rw [Tty.after_append]
    exact Tty.committed_edit _ hc

/-- Process 0 types `a`, a backspace, `b`, `^D` and a line `c`; process 1 reads three times. -/
def typeRead : List (Act (Fin 2) ConsolePoint) :=
  [.enter 0 (.intr [97, 8, 98, 4, 99, 13] false)] ++ List.replicate 12 (.run 0) ++
    [.enter 1 (.start 5)] ++ List.replicate 5 (.run 1) ++
    [.enter 1 (.start 5)] ++ List.replicate 4 (.run 1) ++
    [.enter 1 (.start 5)] ++ List.replicate 5 (.run 1)

/-- The indices pass 2³².  The `^D` ends the first call, and the second returns nothing. -/
theorem console_lines_typeRead : ∃ s : ConsoleState (Fin 2),
    Reach (State.step consoleCode) ConsoleRules (consoleStart (fun _ => 0) (-1) fun _ => false) s ∧
      s.data.calls.map (·.bytes) = [[98], [], [99, newline]] ∧ s.data.input.w = 3 ∧
      (takenBy s.data.history).map Prod.snd =
        (Tty.after s.data.history).committed.take (Tty.after s.data.history).taken := by
  obtain ⟨s, hs, ht⟩ := Outcome.holds_iff.mp
    (show (typeRead.foldlM (fun (s : ConsoleState (Fin 2)) a =>
        if ConsoleRules s a then s.step consoleCode a else .hang)
        (consoleStart (fun _ => 0) (-1) fun _ => false)).holds
      (fun s => s.data.calls.map (·.bytes) = [[98], [], [99, newline]] ∧ s.data.input.w = 3) = true
      by decide +kernel)
  have hr : Reach (State.step consoleCode) ConsoleRules
      (consoleStart (fun _ => 0) (-1) fun _ => false) s := Reach.of_checked hs
  obtain ⟨h1, h2⟩ := of_decide_eq_true ht
  exact ⟨s, hr, h1, h2, (console_lines hr).2.2.1⟩

end

end Xv6.Sync
