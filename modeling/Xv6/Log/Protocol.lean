import Xv6.Lib.Count
import Xv6.Lib.Run
import Xv6.Param

namespace Xv6.Logging

open Xv6.Count Function Run Outcome

/-!
# The log's protocol: `begin_op`, `log_write`, `end_op` and `commit`

The part of `log.c` that decides who may log and who commits, without block contents.
A step of the machine is what one process does between taking `log.lock` and giving it
back; `log_write` looks at the log before it takes the lock, so it has two steps.

* `Log`, `beginOp`, `logCheck`, `logAppend`, `endOp` — `struct log` and the functions over it;
* `State`, `Act`, `step` — the processes between these calls;
* `step_cases` — all that a step can do;
* `Inv`, `step_inv`, `inv_of_reach` — the invariant of the protocol;
* `GroupCommit`, `group_commit` — what the protocol is for.
-/

/-- The panics of `log.c`. -/
inductive Panic where
  /-- `panic("log.committing")` -/
  | committing
  /-- `panic("too big a transaction")` -/
  | tooBig
  /-- `panic("log_write outside of trans")` -/
  | outside
  deriving DecidableEq, Repr

/-- `struct log`; `block` holds the first `lh.n` entries of `lh.block`. -/
structure Log where
  /-- The blocks of the log on disk, the header among them. -/
  size : Nat
  outstanding : Int
  committing : Bool
  block : List Nat
  deriving DecidableEq, Repr

/-- `log.lh.n` -/
def Log.n (l : Log) : Nat := l.block.length

/-- `begin_op` has to wait: a commit is going on, or one more operation might exhaust the
    log. -/
def Log.Blocked (l : Log) : Prop :=
  l.committing = true ∨ l.n + (l.outstanding + 1) * MAXOPBLOCKS > LOGSIZE

/-- One pass through the loop of `begin_op`: the log with one more operation, or `none` where
    the process goes to sleep on `&log`. -/
def beginOp (l : Log) : Option Log :=
  if l.committing then none
  else if l.n + (l.outstanding + 1) * MAXOPBLOCKS > LOGSIZE then none
  else some { l with outstanding := l.outstanding + 1 }

/-- The checks with which `log_write` starts, made without the lock. -/
def logCheck (l : Log) : Outcome Panic Unit :=
  if l.n ≥ LOGSIZE ∨ l.n ≥ l.size - 1 then .panic .tooBig
  else if l.outstanding < 1 then .panic .outside
  else .ok ()

/-- The rest of `log_write`, under the lock: a block that is in the header is absorbed, any
    other is appended; `lh.block` has no room for more than `LOGSIZE`. -/
def logAppend (l : Log) (b : Nat) : Outcome Panic Log :=
  if b ∈ l.block then .ok l
  else if l.n ≥ LOGSIZE then .wild
  else .ok { l with block := l.block ++ [b] }

/-- `end_op` up to `release`; the answer is `do_commit`. -/
def endOp (l : Log) : Outcome Panic (Bool × Log) :=
  if l.committing then .panic .committing
  else if l.outstanding - 1 = 0 then
    .ok (true, { l with outstanding := l.outstanding - 1, committing := true })
  else .ok (false, { l with outstanding := l.outstanding - 1 })

/-- Where a process stands with respect to the log. -/
inductive Pc where
  /-- Outside of every operation. -/
  | idle
  /-- In `begin_op`, `SLEEPING` on `&log`. -/
  | asleep
  /-- In `begin_op`, woken up, before it has `log.lock` again. -/
  | woken
  /-- Between `begin_op` and `end_op`. -/
  | inOp
  /-- In `log_write` for block `b`, past the checks. -/
  | logging (b : Nat)
  /-- In `commit`, before `log.lh.n = 0`. -/
  | committing
  /-- In `commit` and `end_op`, after `log.lh.n = 0`. -/
  | committed
  deriving DecidableEq, Repr

/-- A process; `wrote` records the blocks its operation has logged so far. -/
structure Proc where
  pc : Pc
  wrote : Finset Nat

/-- The log and its processes. -/
structure State (P : Type) where
  log : Log
  proc : P → Proc

/-- What process `p` does next. -/
inductive Act (P : Type) where
  | begin (p : P)
  | check (p : P) (b : Nat)
  | append (p : P)
  | endOp (p : P)
  | clear (p : P)
  | finish (p : P)

/-- `wakeup(&log)`: all processes asleep on `&log` become runnable. -/
def wakeup {P : Type} (proc : P → Proc) : P → Proc := fun q =>
  if (proc q).pc = .asleep then { proc q with pc := .woken } else proc q

variable {P : Type} [DecidableEq P]
variable {cond : State P → Act P → Prop} {a : Act P} {size : Nat}

/-- A process goes on to `pc`. -/
def State.goto (s : State P) (p : P) (pc : Pc) : P → Proc :=
  update s.proc p { s.proc p with pc := pc }

/-- One step; an action its process cannot take now is no step. -/
def step (s : State P) : Act P → Outcome Panic (State P)
  | .begin p =>
    if (s.proc p).pc = .idle ∨ (s.proc p).pc = .woken then
      match beginOp s.log with
      | none => .ok { s with proc := s.goto p .asleep }
      | some l => .ok { log := l, proc := update s.proc p ⟨.inOp, ∅⟩ }
    else .hang
  | .check p b =>
    if (s.proc p).pc = .inOp then do
      logCheck s.log
      return { s with proc := s.goto p (.logging b) }
    else .hang
  | .append p =>
    match (s.proc p).pc with
    | .logging b => do
      let l ← logAppend s.log b
      return { log := l, proc := update s.proc p ⟨.inOp, insert b (s.proc p).wrote⟩ }
    | _ => .hang
  | .endOp p =>
    if (s.proc p).pc = .inOp then do
      let (doCommit, l) ← endOp s.log
      if doCommit then return { log := l, proc := s.goto p .committing }
      else return { log := l, proc := wakeup (s.goto p .idle) }
    else .hang
  | .clear p =>
    if (s.proc p).pc = .committing then
      .ok { log := { s.log with block := [] }, proc := s.goto p .committed }
    else .hang
  | .finish p =>
    if (s.proc p).pc = .committed then
      .ok { log := { s.log with committing := false }, proc := wakeup (s.goto p .idle) }
    else .hang

/-- The log after `initlog`, on a region of `size` blocks, and all processes idle. -/
def initlog (size : Nat) : State P where
  log := { size, outstanding := 0, committing := false, block := [] }
  proc := fun _ => ⟨.idle, ∅⟩


/-! ### What a step can do -/

section

variable {s s' : State P} {l : Log} {b : Nat}
variable {l' : Log} {e : Panic}

/-- The reservation fits. -/
theorem beginOp_some (h : beginOp l = some l') :
    l.committing = false ∧ l.n + (l.outstanding + 1) * MAXOPBLOCKS ≤ LOGSIZE
      ∧ l' = { l with outstanding := l.outstanding + 1 } := by
  unfold beginOp at h
  split at h
  · cases h
  · simp_all

/-- The caller sleeps. -/
theorem beginOp_none (h : beginOp l = none) : l.Blocked := by
  unfold beginOp at h
  split at h
  · exact .inl ‹_›
  · split at h
    · exact .inr ‹_›
    · cases h

/-- The two checks of `log_write`. -/
theorem logCheck_ok {u : Unit} (h : logCheck l = .ok u) :
    l.n < LOGSIZE ∧ l.n < l.size - 1 ∧ 1 ≤ l.outstanding := by
  unfold logCheck at h
  split at h
  · cases h
  · split at h
    · cases h
    · omega

/-- Absorbed or appended. -/
theorem logAppend_ok (h : logAppend l b = .ok l') :
    b ∈ l.block ∧ l' = l
      ∨ b ∉ l.block ∧ l.n < LOGSIZE ∧ l' = { l with block := l.block ++ [b] } := by
  unfold logAppend at h
  split at h
  · cases h
    exact .inl ⟨‹_›, rfl⟩
  · split at h
    · cases h
    · cases h
      exact .inr ⟨‹_›, by omega, rfl⟩

/-- The last one commits. -/
theorem endOp_ok {c : Bool} (h : endOp l = .ok (c, l')) : l.committing = false ∧
      (c = true ∧ l.outstanding = 1 ∧ l' = { l with outstanding := 0, committing := true }
        ∨ c = false ∧ l.outstanding ≠ 1 ∧ l' = { l with outstanding := l.outstanding - 1 }) := by
  unfold endOp at h
  split at h
  · cases h
  · grind

/-- All that a step can do. -/
inductive Steps (s : State P) : Act P → State P → Prop
  | sleep {p : P} : (s.proc p).pc = .idle ∨ (s.proc p).pc = .woken → beginOp s.log = none →
      Steps s (.begin p) { s with proc := s.goto p .asleep }
  | enter {p : P} : (s.proc p).pc = .idle ∨ (s.proc p).pc = .woken → s.log.committing = false →
      s.log.n + (s.log.outstanding + 1) * MAXOPBLOCKS ≤ LOGSIZE →
      Steps s (.begin p) { log := { s.log with outstanding := s.log.outstanding + 1 },
                           proc := update s.proc p ⟨.inOp, ∅⟩ }
  | check {p : P} {b : Nat} : (s.proc p).pc = .inOp → s.log.n < LOGSIZE →
      s.log.n < s.log.size - 1 →
      Steps s (.check p b) { s with proc := s.goto p (.logging b) }
  | absorb {p : P} {b : Nat} : (s.proc p).pc = .logging b → b ∈ s.log.block →
      Steps s (.append p) { s with proc := update s.proc p ⟨.inOp, insert b (s.proc p).wrote⟩ }
  | append {p : P} {b : Nat} : (s.proc p).pc = .logging b → b ∉ s.log.block →
      s.log.n < LOGSIZE →
      Steps s (.append p) { log := { s.log with block := s.log.block ++ [b] },
                            proc := update s.proc p ⟨.inOp, insert b (s.proc p).wrote⟩ }
  | last {p : P} : (s.proc p).pc = .inOp → s.log.committing = false → s.log.outstanding = 1 →
      Steps s (.endOp p) { log := { s.log with outstanding := 0, committing := true },
                           proc := s.goto p .committing }
  | leave {p : P} : (s.proc p).pc = .inOp → s.log.committing = false → s.log.outstanding ≠ 1 →
      Steps s (.endOp p) { log := { s.log with outstanding := s.log.outstanding - 1 },
                           proc := wakeup (s.goto p .idle) }
  | clear {p : P} : (s.proc p).pc = .committing →
      Steps s (.clear p) { log := { s.log with block := [] }, proc := s.goto p .committed }
  | finish {p : P} : (s.proc p).pc = .committed →
      Steps s (.finish p) { log := { s.log with committing := false },
                            proc := wakeup (s.goto p .idle) }

/-- The steps, as a relation. -/
theorem step_cases (h : step s a = .ok s') : Steps s a s' := by
  cases a with
  | begin p =>
    rw [step] at h
    split at h
    · rename_i hpc
      cases hb : beginOp s.log with
      | none =>
        rw [hb] at h
        cases h
        exact .sleep hpc hb
      | some l =>
        rw [hb] at h
        cases h
        obtain ⟨hc, hroom, rfl⟩ := beginOp_some hb
        exact .enter hpc hc hroom
    · cases h
  | check p b =>
    rw [step] at h
    split at h
    · obtain ⟨u, hu, h⟩ := bind_eq_ok.mp h
      cases h
      obtain ⟨hn, hsize, -⟩ := logCheck_ok hu
      exact .check ‹_› hn hsize
    · cases h
  | append p =>
    rw [step] at h
    split at h
    · obtain ⟨l, hl, h⟩ := bind_eq_ok.mp h
      cases h
      rcases logAppend_ok hl with ⟨hb, rfl⟩ | ⟨hb, hn, rfl⟩
      · exact .absorb ‹_› hb
      · exact .append ‹_› hb hn
    · cases h
  | endOp p =>
    rw [step] at h
    split at h
    · obtain ⟨⟨c, l⟩, hl, h⟩ := bind_eq_ok.mp h
      obtain ⟨hc, ⟨rfl, hout, rfl⟩ | ⟨rfl, hout, rfl⟩⟩ := endOp_ok hl
      · cases h
        exact .last ‹_› hc hout
      · cases h
        exact .leave ‹_› hc hout
    · cases h
  | clear p =>
    rw [step] at h
    split at h
    · cases h
      exact .clear ‹_›
    · cases h
  | finish p =>
    rw [step] at h
    split at h
    · cases h
      exact .finish ‹_›
    · cases h

/-- A step panics where `log_write` or `end_op` does. -/
theorem step_panic (h : step s a = .panic e) :
    (∃ p b, a = .check p b ∧ (s.proc p).pc = .inOp ∧ logCheck s.log = .panic e)
      ∨ ∃ p, a = .endOp p ∧ (s.proc p).pc = .inOp ∧ endOp s.log = .panic e := by
  cases a with
  | begin p =>
    rw [step] at h
    split at h
    · cases hb : beginOp s.log <;> rw [hb] at h <;> cases h
    · cases h
  | check p b =>
    rw [step] at h
    split at h
    · rcases bind_eq_panic.mp h with h | ⟨_, _, h⟩
      · exact .inl ⟨p, b, rfl, ‹_›, h⟩
      · cases h
    · cases h
  | append p =>
    rw [step] at h
    split at h
    · rcases bind_eq_panic.mp h with h | ⟨_, _, h⟩
      · unfold logAppend at h
        split at h
        · cases h
        · split at h <;> cases h
      · cases h
    · cases h
  | endOp p =>
    rw [step] at h
    split at h
    · rcases bind_eq_panic.mp h with h | ⟨⟨c, l⟩, _, h⟩
      · exact .inr ⟨p, rfl, ‹_›, h⟩
      · cases c <;> cases h
    · cases h
  | clear p =>
    rw [step] at h
    split at h <;> cases h
  | finish p =>
    rw [step] at h
    split at h <;> cases h

theorem logCheck_ne_committing : logCheck l ≠ .panic .committing := by
  unfold logCheck
  split
  · exact nofun
  · split <;> exact nofun

/-- The only panic. -/
theorem endOp_panic (h : endOp l = .panic e) : e = .committing ∧ l.committing = true := by
  unfold endOp at h
  split at h
  · cases h
    exact ⟨rfl, ‹_›⟩
  · split at h <;> cases h

/-- The size of the log is set once. -/
theorem step_log_size (h : step s a = .ok s') : s'.log.size = s.log.size := by
  cases step_cases h <;> rfl

theorem log_size_of_reach (hr : Reach step cond (initlog size) s) : s.log.size = size := by
  refine hr.invariant (I := fun s => s.log.size = size) rfl ?_
  intro s a s' h _ hstep
  rw [step_log_size hstep, h]

end

/-! ### The invariant of the protocol -/

/-- 1 between `begin_op` and `end_op`. -/
def Pc.active : Pc → Nat
  | .inOp | .logging _ => 1
  | _ => 0

/-- 1 in `commit`, and in the rest of `end_op` after it. -/
def Pc.commits : Pc → Nat
  | .committing | .committed => 1
  | _ => 0

/-- The number of processes that stand where `w` is 1. -/
def State.tally [Fintype P] (s : State P) (w : Pc → Nat) : Nat :=
  Count.total (fun q => w q.pc) s.proc

/-- `outstanding` counts the operations and `committing` the committers; while a process
    commits no operation is under way; between transactions the header is empty; and who
    sleeps has to. -/
structure Inv [Fintype P] (s : State P) : Prop where
  count : s.log.outstanding = (s.tally Pc.active : Nat)
  commits : s.tally Pc.commits = s.log.committing.toNat
  quiet : s.log.committing = true → s.log.outstanding = 0
  empty : s.log.outstanding = 0 → s.log.committing = false → s.log.block = []
  cleared : ∀ p, (s.proc p).pc = .committed → s.log.block = []
  asleep : ∀ p, (s.proc p).pc = .asleep → s.log.Blocked

section

variable {s s' : State P} {p q : P} {c : Pc} {l : Log} {w : Pc → Nat}
variable {f : P → Proc} {x : Proc}

theorem update_pc (f : P → Proc) (x : Proc) :
    (update f p x q).pc = if q = p then x.pc else (f q).pc := by
  rw [update_apply]
  split <;> rfl

theorem goto_pc : (s.goto p c q).pc = if q = p then c else (s.proc q).pc := update_pc ..

omit [DecidableEq P] in
theorem wakeup_pc (f : P → Proc) :
    (wakeup f q).pc = if (f q).pc = .asleep then .woken else (f q).pc := by
  unfold wakeup
  split <;> rfl

omit [DecidableEq P] in
theorem wakeup_ne_asleep (f : P → Proc) : (wakeup f q).pc ≠ .asleep := by
  rw [wakeup_pc]
  split
  · exact nofun
  · assumption

/-- The process that takes an action. -/
def Act.actor {P : Type} : Act P → P
  | .begin p | .check p _ | .append p | .endOp p | .clear p | .finish p => p

/-- All that a step does to the other processes is to wake them up. -/
theorem step_pc_ne (h : step s a = .ok s') (hq : q ≠ a.actor) :
    (s'.proc q).pc = (s.proc q).pc ∨ (s.proc q).pc = .asleep ∧ (s'.proc q).pc = .woken := by
  have hgoto (c : Pc) : (s.goto a.actor c q).pc = (s.proc q).pc := by rw [goto_pc, if_neg hq]
  have hwake (c : Pc) : (wakeup (s.goto a.actor c) q).pc = (s.proc q).pc
      ∨ (s.proc q).pc = .asleep ∧ (wakeup (s.goto a.actor c) q).pc = .woken := by
    rw [wakeup_pc, hgoto]
    split
    · exact .inr ⟨‹_›, rfl⟩
    · exact .inl rfl
  have hupdate (x : Proc) : (update s.proc a.actor x q).pc = (s.proc q).pc := by
    rw [update_pc, if_neg hq]
  cases step_cases h with
  | sleep => exact .inl (hgoto _)
  | enter => exact .inl (hupdate _)
  | check => exact .inl (hgoto _)
  | absorb => exact .inl (hupdate _)
  | append => exact .inl (hupdate _)
  | last => exact .inl (hgoto _)
  | leave => exact hwake _
  | clear => exact .inl (hgoto _)
  | finish => exact hwake _

section

variable [Fintype P]

theorem tally_update (x : Proc) :
    State.tally ⟨l, update s.proc p x⟩ w + w (s.proc p).pc = s.tally w + w x.pc :=
  total_update ..

omit [DecidableEq P] in
/-- Sleepers and those woken up stand at neither. -/
theorem tally_wakeup (hw : w .woken = w .asleep) :
    State.tally ⟨l, wakeup f⟩ w = State.tally ⟨l, f⟩ w := by
  refine total_congr fun q => ?_
  rw [wakeup_pc]
  split
  · rename_i hq
    rw [hq, hw]
  · rfl

omit [DecidableEq P] in
theorem le_tally (s : State P) (p : P) : w (s.proc p).pc ≤ s.tally w :=
  weight_le (fun q => w q.pc) s.proc p

end

variable [Fintype P]

omit [DecidableEq P] in
/-- Who is in an operation is counted. -/
theorem Inv.outstanding_pos (h : Inv s) (hp : (s.proc p).pc.active = 1) :
    1 ≤ s.log.outstanding := by
  have hle := le_tally (w := Pc.active) s p
  rw [h.count]
  omega

omit [DecidableEq P] in
theorem Inv.committing_of (h : Inv s) (hp : (s.proc p).pc.commits = 1) :
    s.log.committing = true := by
  have hle := le_tally (w := Pc.commits) s p
  rw [h.commits, hp] at hle
  cases hc : s.log.committing
  · simp [hc] at hle
  · rfl

omit [DecidableEq P] in
/-- While an operation is under way nobody commits. -/
theorem Inv.not_committing (h : Inv s) (hp : (s.proc p).pc.active = 1) :
    s.log.committing = false := by
  have hpos := h.outstanding_pos hp
  cases hc : s.log.committing
  · rfl
  · have hzero := h.quiet hc
    omega

omit [DecidableEq P] in
/-- It holds at boot. -/
theorem initlog_inv (size : Nat) : Inv (initlog size : State P) := by
  have htally (w : Pc → Nat) (hw : w .idle = 0) : (initlog size : State P).tally w = 0 :=
    total_eq_zero fun _ => hw
  refine ⟨?_, htally _ rfl, nofun, fun _ _ => rfl, fun _ _ => rfl, nofun⟩
  rw [htally _ rfl]
  rfl

/-- Process `p` becomes `x` and the log `l`, and the sleepers may be woken up. -/
theorem Inv.move (h : Inv s) (hf : f = update s.proc p x ∨ f = wakeup (update s.proc p x))
    (hcount : l.outstanding + (s.proc p).pc.active = s.log.outstanding + x.pc.active)
    (hcommits : l.committing.toNat + (s.proc p).pc.commits
      = s.log.committing.toNat + x.pc.commits) (hquiet : l.committing = true → l.outstanding = 0)
    (hempty : l.outstanding = 0 → l.committing = false → l.block = [])
    (hcleared : x.pc = .committed → l.block = [])
    (hkeep : s.log.committing = true → s.log.block = [] → l.block = [])
    (hasleep : ∀ q, (f q).pc = .asleep → l.Blocked) : Inv ⟨l, f⟩ := by
  have htally (w : Pc → Nat) (hw : w .woken = w .asleep) :
      State.tally ⟨l, f⟩ w + w (s.proc p).pc = s.tally w + w x.pc := by
    rcases hf with rfl | rfl
    · exact tally_update x
    · rw [tally_wakeup hw]
      exact tally_update x
  have hpc (q : P) (hq : (f q).pc = .committed) : (update s.proc p x q).pc = .committed := by
    rcases hf with rfl | rfl
    · exact hq
    · rw [wakeup_pc] at hq
      split at hq
      · cases hq
      · exact hq
  refine ⟨?_, ?_, hquiet, hempty, ?_, hasleep⟩
  · have hact := htally Pc.active rfl
    have hold := h.count
    show l.outstanding = _
    omega
  · have hcom := htally Pc.commits rfl
    have hold := h.commits
    show _ = l.committing.toNat
    omega
  · intro q hq
    have hq' := hpc q hq
    rw [update_pc] at hq'
    split at hq'
    · exact hcleared hq'
    · have hcom : (s.proc q).pc.commits = 1 := by rw [hq']; rfl
      exact hkeep (h.committing_of hcom) (h.cleared q hq')

/-- Who sleeps stays blocked when the log only fills up. -/
theorem Inv.asleep_update (h : Inv s) (hx : x.pc = .asleep → l.Blocked)
    (hl : s.log.Blocked → l.Blocked) :
    ∀ q, (update s.proc p x q).pc = .asleep → l.Blocked := by
  intro q hq
  rw [update_pc] at hq
  split at hq
  · exact hx hq
  · exact hl (h.asleep q hq)

/-- One step keeps the invariant. -/
theorem step_inv (h : Inv s) (hstep : step s a = .ok s') : Inv s' := by
  cases step_cases hstep with
  | @sleep p hpc hb =>
    have hact : (s.proc p).pc.active = 0 ∧ (s.proc p).pc.commits = 0 := by
      rcases hpc with hpc | hpc <;> rw [hpc] <;> exact ⟨rfl, rfl⟩
    refine h.move (.inl rfl) ?_ ?_ h.quiet h.empty nofun (fun _ he => he)
      (h.asleep_update (fun _ => beginOp_none hb) id)
    · rw [hact.1]
      rfl
    · rw [hact.2]
      rfl
  | @enter p hpc hc hroom =>
    have hact : (s.proc p).pc.active = 0 ∧ (s.proc p).pc.commits = 0 := by
      rcases hpc with hpc | hpc <;> rw [hpc] <;> exact ⟨rfl, rfl⟩
    have hpos : 0 ≤ s.log.outstanding := by
      rw [h.count]
      omega
    refine h.move (.inl rfl) ?_ ?_ ?_ ?_ nofun ?_ (h.asleep_update nofun ?_)
    · rw [hact.1]
      show s.log.outstanding + 1 + 0 = s.log.outstanding + 1
      omega
    · rw [hact.2]
      rfl
    · intro hc'
      rw [hc] at hc'
      cases hc'
    · intro hzero
      have : s.log.outstanding + 1 = 0 := hzero
      omega
    · exact fun _ he => he
    · rintro (hc' | hfull)
      · exact .inl hc'
      · omega
  | @check p b hpc hn hsize =>
    refine h.move (.inl rfl) ?_ ?_ h.quiet h.empty nofun (fun _ he => he)
      (h.asleep_update nofun id) <;> simp [hpc, Pc.active, Pc.commits]
  | @absorb p b hpc hb =>
    refine h.move (.inl rfl) ?_ ?_ h.quiet h.empty nofun (fun _ he => he)
      (h.asleep_update nofun id) <;> simp [hpc, Pc.active, Pc.commits]
  | @append p b hpc hb hn =>
    have hact : (s.proc p).pc.active = 1 := by rw [hpc]; rfl
    have hpos := h.outstanding_pos hact
    have hc := h.not_committing hact
    refine h.move (.inl rfl) ?_ ?_ h.quiet ?_ nofun ?_ (h.asleep_update nofun ?_)
    · simp [hpc, Pc.active]
    · simp [hpc, Pc.commits]
    · intro hzero
      have : s.log.outstanding = 0 := hzero
      omega
    · intro hc'
      rw [hc] at hc'
      cases hc'
    · rintro (hc' | hfull)
      · exact .inl hc'
      · refine .inr ?_
        simp only [Log.n, List.length_append, List.length_cons, List.length_nil] at hfull ⊢
        omega
  | @last p hpc hc hout =>
    refine h.move (.inl rfl) ?_ ?_ (fun _ => rfl) nofun nofun ?_
      (h.asleep_update nofun (fun _ => .inl rfl))
    · simp [hpc, hout, Pc.active]
    · simp [hpc, hc, Pc.commits]
    · exact fun _ he => he
  | @leave p hpc hc hout =>
    refine h.move (.inr rfl) ?_ ?_ ?_ ?_ nofun ?_ (fun q hq => absurd hq (wakeup_ne_asleep _))
    · simp [hpc, Pc.active]
    · simp [hpc, Pc.commits]
    · intro hc'
      rw [hc] at hc'
      cases hc'
    · intro hzero
      have : s.log.outstanding - 1 = 0 := hzero
      omega
    · exact fun _ he => he
  | @clear p hpc =>
    have hc := h.committing_of (p := p) (by rw [hpc]; rfl)
    refine h.move (.inl rfl) ?_ ?_ h.quiet (fun _ _ => rfl) (fun _ => rfl) (fun _ _ => rfl)
      (h.asleep_update nofun (fun _ => .inl hc))
    · simp [hpc, Pc.active]
    · simp [hpc, Pc.commits]
  | @finish p hpc =>
    have hc := h.committing_of (p := p) (by rw [hpc]; rfl)
    have hempty := h.cleared p hpc
    refine h.move (.inr rfl) ?_ ?_ nofun (fun _ _ => hempty) (fun _ => hempty) (fun _ _ => hempty)
      (fun q hq => absurd hq (wakeup_ne_asleep _))
    · simp [hpc, Pc.active]
    · simp [hpc, hc, Pc.commits]

/-- The invariant holds along every run from `initlog`. -/
theorem inv_of_reach (hr : Reach step cond (initlog size) s) : Inv s :=
  hr.invariant (initlog_inv size) fun _ _ _ h _ hstep => step_inv h hstep

end

/-! ### Group commit -/

section

/-- What group commit promises in a state `s`. -/
structure GroupCommit (s : State P) : Prop where
  /-- `commit` runs with no operation under way. -/
  alone : ∀ p, (s.proc p).pc.commits = 1 → s.log.committing = true ∧ s.log.outstanding = 0
  /-- While `committing` is set `begin_op` sends its caller to sleep. -/
  not_admitted : s.log.committing = true → ∀ p s', step s (.begin p) = .ok s' →
    (s'.proc p).pc = .asleep ∧ s'.log = s.log
  /-- While `committing` is set no process is in an operation, let alone logs a block. -/
  not_logged : s.log.committing = true → ∀ p, (s.proc p).pc.active = 0
    ∧ (∀ b s', step s (.check p b) ≠ .ok s') ∧ ∀ s', step s (.append p) ≠ .ok s'
  /-- Between transactions the header in memory is empty. -/
  empty : s.log.outstanding = 0 → s.log.committing = false → s.log.n = 0
  no_panic : ∀ a, step s a ≠ .panic .committing
  /-- No waiter is left behind. -/
  blocked : ∀ p, (s.proc p).pc = .asleep → s.log.Blocked

variable {s : State P}

/-- Every state of every run keeps the promises of group commit. -/
theorem group_commit [Fintype P] {size : Nat} (hr : Reach step (fun _ _ => True) (initlog size) s) :
    GroupCommit s := by
  have h := inv_of_reach hr
  -- an operation under way and a commit exclude each other
  have hidle (hc : s.log.committing = true) (p : P) : (s.proc p).pc.active = 0 := by
    have hle := le_tally (w := Pc.active) s p
    have hquiet := h.quiet hc
    have hcount := h.count
    omega
  have hnot (hc : s.log.committing = true) (p : P) {c : Pc} (hpc : (s.proc p).pc = c) :
      c.active = 0 := hpc ▸ hidle hc p
  refine ⟨?_, ?_, ?_, ?_, ?_, h.asleep⟩
  · intro p hp
    have hc := h.committing_of hp
    exact ⟨hc, h.quiet hc⟩
  · intro hc p s' hstep
    cases step_cases hstep with
    | sleep => exact ⟨by rw [goto_pc, if_pos rfl], rfl⟩
    | enter _ hc' _ =>
      rw [hc] at hc'
      cases hc'
  · intro hc p
    refine ⟨hidle hc p, fun b s' hstep => ?_, fun s' hstep => ?_⟩
    · cases step_cases hstep with
      | check hpc => exact absurd (hnot hc p hpc) nofun
    · cases step_cases hstep with
      | absorb hpc => exact absurd (hnot hc p hpc) nofun
      | append hpc => exact absurd (hnot hc p hpc) nofun
  · intro hout hc
    rw [Log.n, h.empty hout hc, List.length_nil]
  · intro a ha
    rcases step_panic ha with ⟨_, _, _, _, hcheck⟩ | ⟨p, _, hpc, hend⟩
    · exact logCheck_ne_committing hcheck
    · exact absurd (hnot (endOp_panic hend).2 p hpc) nofun

/-- Two processes log a block each and end their operations, the second one commits, and the
    first one, back for another operation, sleeps until it is done. -/
theorem group_commit_two :
    ∃ s : State (Fin 2), Reach step (fun _ _ => True) (initlog LOGSIZE) s
      ∧ (s.proc 0).pc = .asleep ∧ (s.proc 1).pc = .committing ∧ s.log.block = [40, 41]
      ∧ GroupCommit s := by
  obtain ⟨s, hs, ht⟩ := Outcome.holds_iff.mp (show (List.foldlM step (initlog LOGSIZE)
      [.begin 0, .begin 1, .check 0 40, .append 0, .check 1 41, .append 1, .endOp 0, .endOp 1,
        .begin (0 : Fin 2)]).holds (fun s => decide ((s.proc 0).pc = .asleep
          ∧ (s.proc 1).pc = .committing ∧ s.log.block = [40, 41])) = true by decide +kernel)
  have hr := Reach.of_foldlM (fun _ _ _ => trivial) hs
  obtain ⟨h0, h1, hb⟩ := of_decide_eq_true ht
  exact ⟨s, hr, h0, h1, hb, group_commit hr⟩

end

end Xv6.Logging
