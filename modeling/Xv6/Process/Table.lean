import Xv6.Lib.Run
import Xv6.Lib.Words
import Xv6.Param
import Mathlib.Logic.Function.Basic
import Mathlib.Data.Fintype.Basic

namespace Xv6.Process

open Function

/-!
# The process table

`allocproc`, `fork`, `exit`, `wait`, `kill`, `sleep` and `wakeup` of `proc.c`, among all processes.
A step is what a process does while it has `ptable.lock`, or one of the writes that `fork` makes to
the table without it.  What `fork` does to memory and files is left open: it may succeed or fail,
and it may fail to map any number of pages of the parent's mappings, each time with
`np->killed = 1`.

* `Proc`, `Table` — the table, with a record of what happened;
* `wakeup1`, `abandon`, `reap`, `kill` — the loops over the table;
* `Act`, `step` — what the processes do.
-/

/-- An entry of `ptable.proc`. -/
abbrev Slot := Fin NPROC

/-- `initproc`: `userinit` takes the first entry. -/
def initproc : Slot := 0

/-- `enum procstate` -/
inductive ProcState where
  | unused
  | embryo
  | sleeping
  | runnable
  | running
  | zombie
  deriving DecidableEq, Repr

/-- What processes sleep on: `wait` on the entry of its own process, others on something else. -/
inductive Chan where
  | proc (i : Slot)
  | other (c : Nat)
  deriving DecidableEq

/-- `struct proc`: the fields that these functions use. -/
structure Proc where
  state : ProcState
  pid : Word
  parent : Option Slot
  chan : Option Chan
  killed : Bool
  deriving DecidableEq

/-- Where a process is. -/
inductive Pc where
  /-- Not in `fork` or `wait`. -/
  | user
  /-- In `fork`, after `allocproc` has found `np`. -/
  | allocated (np : Slot)
  /-- In `fork`, after `np->parent = curproc`. -/
  | adopted (np : Slot)
  /-- In `wait`, after `sleep`. -/
  | waiting
  deriving DecidableEq

/-- What happened; processes are named by their pids. -/
inductive Event where
  /-- `allocproc` took entry `i` for process `pid`, which process `creator` asked for. -/
  | alloc (i : Slot) (pid creator : Word)
  /-- `fork` failed to make process `pid`. -/
  | fail (pid : Word)
  | exit (pid : Word)
  /-- `wait` returned `pid` to process `waiter`. -/
  | reap (pid waiter : Word)
  /-- `kill(pid)` was called. -/
  | kill (pid : Word)
  /-- Process `pid` did what the kernel ends processes for. -/
  | fault (pid : Word)
  deriving DecidableEq

/-- `ptable.proc`, `nextpid`, where the processes are, and what happened, the latest first. -/
structure Table where
  proc : Slot → Proc
  nextpid : Word
  pc : Slot → Pc
  log : List Event

/-- `panic("init exiting")` -/
inductive ProcPanic where
  | initExiting
  deriving DecidableEq

/-- The entries of the table in the order in which loops go through them. -/
def slots : List Slot := List.finRange NPROC

/-! ### Loops over the table -/

/-- `wakeup1`, for one entry. -/
def Proc.wake (c : Option Chan) (p : Proc) : Proc :=
  if p.state = .sleeping ∧ p.chan = c then { p with state := .runnable } else p

/-- `wakeup1` -/
def wakeup1 (t : Slot → Proc) (c : Option Chan) : Slot → Proc := fun q => (t q).wake c

/-- `kill` marks the entry, and wakes its process up. -/
def Proc.mark (p : Proc) : Proc :=
  { p with killed := true, state := if p.state = .sleeping then .runnable else p.state }

/-- What `exit` of process `i` does with entry `q`: a child is given to `init`, which is woken up
    if the child has exited. -/
def adopt (i : Slot) (t : Slot → Proc) (q : Slot) : Slot → Proc :=
  if (t q).parent = some i then
    let t' := update t q { t q with parent := some initproc }
    if (t q).state = .zombie then wakeup1 t' (some (.proc initproc)) else t'
  else t

/-- The loop of `exit` that passes abandoned children to `init`. -/
def abandon (i : Slot) (t : Slot → Proc) : Slot → Proc := slots.foldl (adopt i) t

namespace Table

/-- Entry `i` is changed. -/
def set (s : Table) (i : Slot) (p : Proc) : Table := { s with proc := update s.proc i p }

/-- Process `i` goes on to `pc`. -/
def goto (s : Table) (i : Slot) (pc : Pc) : Table := { s with pc := update s.pc i pc }

/-- Something has happened. -/
def note (s : Table) (e : Event) : Table := { s with log := e :: s.log }

/-- The entry that `allocproc` finds. -/
def findUnused (s : Table) : Option Slot := slots.find? fun i => (s.proc i).state = .unused

/-- The locked part of `allocproc`, for process `i` that calls `fork`. -/
def allocproc (s : Table) (i np : Slot) : Table :=
  { (s.set np { s.proc np with state := .embryo, pid := s.nextpid }).note
      (.alloc np s.nextpid (s.proc i).pid) with nextpid := s.nextpid + 1 }

/-- The locked part of `exit`, for process `i`. -/
def exit (s : Table) (i : Slot) : Table :=
  let t := abandon i (wakeup1 s.proc ((s.proc i).parent.map .proc))
  { s.note (.exit (s.proc i).pid) with proc := update t i { t i with state := .zombie } }

/-- The first child of process `i` that has exited. -/
def findZombie (s : Table) (i : Slot) : Option Slot :=
  slots.find? fun z => (s.proc z).parent = some i ∧ (s.proc z).state = .zombie

/-- `wait` of process `i` frees the entry of its child `z`. -/
def reap (s : Table) (i z : Slot) : Table :=
  (s.set z { s.proc z with pid := 0, parent := none, killed := false, state := .unused }).note
    (.reap (s.proc z).pid (s.proc i).pid)

/-- `havekids` -/
def HaveKids (s : Table) (i : Slot) : Prop := ∃ z, (s.proc z).parent = some i

instance (s : Table) (i : Slot) : Decidable (s.HaveKids i) := inferInstanceAs (Decidable (∃ _, _))

/-- What `wait` of process `i` does until it returns or sleeps. -/
def wait (s : Table) (i : Slot) : Table :=
  match s.findZombie i with
  | some z => (s.reap i z).goto i .user
  | none =>
    if ¬ s.HaveKids i ∨ (s.proc i).killed then s.goto i .user
    else (s.set i { s.proc i with state := .sleeping, chan := some (.proc i) }).goto i .waiting

/-- The entry that `kill` finds. -/
def findPid (s : Table) (pid : Word) : Option Slot := slots.find? fun i => (s.proc i).pid = pid

/-- `kill`: what it returns, and the table. -/
def kill (s : Table) (pid : Word) : Int × Table :=
  match s.findPid pid with
  | some j => (0, s.set j (s.proc j).mark)
  | none => (-1, s)

end Table

/-! ### Steps -/

/-- What a process does.  `i` is the process that acts. -/
inductive Act where
  | fork (i : Slot)
  /-- `kalloc` or `copyuvm` fails. -/
  | forkFail (i : Slot)
  | forkParent (i : Slot)
  /-- A page of a mapping cannot be mapped in the child: `np->killed = 1`. -/
  | forkKilled (i : Slot)
  | forkDone (i : Slot)
  | exit (i : Slot)
  | wait (i : Slot)
  | kill (i : Slot) (pid : Word)
  /-- `trap` sets `killed` for a fault of the process. -/
  | fault (i : Slot)
  /-- The scheduler runs the process. -/
  | schedule (i : Slot)
  | yield (i : Slot)
  | sleep (i : Slot) (c : Nat)
  | wakeup (i : Slot) (c : Nat)

/-- The process that acts. -/
def Act.actor : Act → Slot
  | .fork i | .forkFail i | .forkParent i | .forkKilled i | .forkDone i | .exit i | .wait i
  | .kill i _ | .fault i | .schedule i | .yield i | .sleep i _ | .wakeup i _ => i

namespace Table

/-- What a running process does; with another action than the one it is at it does not get on. -/
def act (s : Table) : Act → Outcome ProcPanic Table
  | .fork i =>
    if s.pc i = .user then
      match s.findUnused with
      | some np => .ok ((s.allocproc i np).goto i (.allocated np))
      | none => .ok s
    else .hang
  | .forkFail i =>
    match s.pc i with
    | .allocated np =>
      .ok (((s.set np { s.proc np with state := .unused }).note (.fail (s.proc np).pid)).goto i
        .user)
    | _ => .hang
  | .forkParent i =>
    match s.pc i with
    | .allocated np => .ok ((s.set np { s.proc np with parent := some i }).goto i (.adopted np))
    | _ => .hang
  | .forkKilled i =>
    match s.pc i with
    | .adopted np => .ok (s.set np { s.proc np with killed := true })
    | _ => .hang
  | .forkDone i =>
    match s.pc i with
    | .adopted np => .ok ((s.set np { s.proc np with state := .runnable }).goto i .user)
    | _ => .hang
  | .exit i =>
    if s.pc i = .user then if i = initproc then .panic .initExiting else .ok (s.exit i)
    else .hang
  | .wait i => if s.pc i = .user ∨ s.pc i = .waiting then .ok (s.wait i) else .hang
  | .kill i pid => if s.pc i = .user then .ok ((s.kill pid).2.note (.kill pid)) else .hang
  | .fault i =>
    if s.pc i = .user then
      .ok ((s.set i { s.proc i with killed := true }).note (.fault (s.proc i).pid))
    else .hang
  | .yield i => .ok (s.set i { s.proc i with state := .runnable })
  | .sleep i c =>
    if s.pc i = .user then
      .ok (s.set i { s.proc i with state := .sleeping, chan := some (.other c) })
    else .hang
  | .wakeup _ c => .ok { s with proc := wakeup1 s.proc (some (.other c)) }
  | .schedule _ => .hang

/-- One step.  The scheduler runs a process that is runnable; other steps are those of processes
    that run. -/
def step (s : Table) : Act → Outcome ProcPanic Table
  | .schedule i =>
    -- a process that slept clears `chan` before it goes on
    if (s.proc i).state = .runnable then
      .ok (s.set i { s.proc i with state := .running, chan := none })
    else .hang
  | a => if (s.proc a.actor).state = .running then s.act a else .hang

/-- After `userinit`. -/
def start : Table where
  proc := fun i =>
    if i = initproc then
      { state := .runnable, pid := 1, parent := none, chan := none, killed := false }
    else { state := .unused, pid := 0, parent := none, chan := none, killed := false }
  nextpid := 2
  pc := fun _ => .user
  log := [.alloc initproc 1 0]

end Table

end Xv6.Process
