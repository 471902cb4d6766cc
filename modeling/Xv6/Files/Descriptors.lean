import Xv6.Lib.Count
import Xv6.Lib.Run
import Xv6.Param
import Mathlib.Logic.Function.Basic

namespace Xv6.Files

open Function

/-!
# Files and descriptors

`filealloc`, `filedup` and `fileclose` of `file.c`, `pipealloc` and `pipeclose` of `pipe.c`, and the
system calls that use them: `open`, `dup`, `close` and `pipe`, with what `fork` and `exit` do to
descriptors.  A step is what a process does while it has `ftable.lock` or the lock of a pipe, or
what it does to its own descriptors without a lock.

* `File`, `Proc`, `State` — the file table, the descriptors, the pipes;
* `Pc`, `Then` — where a process is in a call, and what comes after `fileclose`;
* `Act`, `step` — what the processes do.
-/

/-- An entry of `ftable.file`. -/
abbrev FileId := Fin NFILE

/-- An index of `ofile`. -/
abbrev Fd := Fin NOFILE

/-- The `type` of a `struct file`. -/
inductive FdType where
  | none
  | pipe
  | inode
  deriving DecidableEq, Repr

/-- `struct file`; pipes are numbered in the order in which they are made. -/
structure File where
  ref : Nat
  type : FdType
  readable : Bool
  writable : Bool
  pipe : Nat
  deriving DecidableEq

/-- What comes after `fileclose`. -/
inductive Then where
  /-- The system call returns. -/
  | ret (r : Int)
  /-- `fileclose` is called for another file, and the system call returns -1. -/
  | close (f : FileId)
  /-- `exit` clears the descriptor and goes on with the others. -/
  | exit (fd : Fd) (rest : List Fd)
  deriving DecidableEq

/-- Where a process is. -/
inductive Pc (P : Type) where
  | user
  /-- In `sys_open`, before `filealloc`. -/
  | openFile (readable writable : Bool)
  /-- In `sys_open`, before `fdalloc`. -/
  | openFd (readable writable : Bool) (f : FileId)
  /-- In `sys_open`, before the fields of the file are set. -/
  | openSet (readable writable : Bool) (f : FileId) (fd : Fd)
  /-- In `sys_dup`, before `filedup`. -/
  | dup (f : FileId) (fd : Fd)
  /-- In `pipealloc`, before the first `filealloc`. -/
  | pipe0
  /-- In `pipealloc`, before the second `filealloc`. -/
  | pipe1 (f0 : FileId)
  /-- In `pipealloc`, before `kalloc`. -/
  | pipePage (f0 f1 : FileId)
  /-- In `sys_pipe`, before the first `fdalloc`. -/
  | pipeFd0 (f0 f1 : FileId)
  /-- In `sys_pipe`, before the second `fdalloc`. -/
  | pipeFd1 (f0 f1 : FileId) (fd0 : Fd)
  /-- In `fork`, at the loop over the descriptors. -/
  | fork (np : P) (rest : List Fd)
  /-- In `exit`, at the loop over the descriptors. -/
  | exit (rest : List Fd)
  /-- Before `fileclose`. -/
  | fileclose (f : FileId) (k : Then)
  /-- In `fileclose`, before `pipeclose`. -/
  | pipeclose (pipe : Nat) (writable : Bool) (k : Then)
  deriving DecidableEq

/-- Whether there is a process, and whether it is complete. -/
inductive Life where
  | dead
  | embryo
  | live
  deriving DecidableEq

/-- `ofile` of a process, and where it is. -/
structure Proc (P : Type) where
  ofile : Fd → Option FileId
  pc : Pc P
  life : Life

/-- The file table, the processes, which ends of the pipes are open (`true` is the end for
    writing), how many pipes were made, how often the page of a pipe was freed, and what the
    last call of a process returned. -/
structure State (P : Type) where
  file : FileId → File
  proc : P → Proc P
  isOpen : Nat → Bool → Bool
  pipes : Nat
  freed : Nat → Nat
  ret : P → Int

/-- `panic("filedup")` and `panic("fileclose")` -/
inductive FPanic where
  | filedup
  | fileclose
  deriving DecidableEq

variable {P : Type} [DecidableEq P]

namespace State

/-- Process `p` changes. -/
def setProc (s : State P) (p : P) (x : Proc P) : State P := { s with proc := update s.proc p x }

/-- Process `p` goes on to `pc`. -/
def goto (s : State P) (p : P) (pc : Pc P) : State P := s.setProc p { s.proc p with pc }

/-- A descriptor of process `p` changes, and it goes on to `pc`. -/
def setFd (s : State P) (p : P) (fd : Fd) (o : Option FileId) (pc : Pc P) : State P :=
  s.setProc p { s.proc p with ofile := update (s.proc p).ofile fd o, pc }

/-- File `f` changes. -/
def setFile (s : State P) (f : FileId) (x : File) : State P := { s with file := update s.file f x }

/-- The system call of process `p` returns. -/
def leave (s : State P) (p : P) (r : Int) : State P :=
  { s.goto p .user with ret := update s.ret p r }

/-- The entry that `filealloc` finds. -/
def findFile (s : State P) : Option FileId :=
  (List.finRange NFILE).find? fun f => (s.file f).ref = 0

/-- The descriptor that `fdalloc` finds. -/
def findFd (s : State P) (p : P) : Option Fd :=
  (List.finRange NOFILE).find? fun fd => (s.proc p).ofile fd = none

/-- `argfd`: the descriptor and its file. -/
def argfd (s : State P) (p : P) (fd : Int) : Option (Fd × FileId) :=
  if h : 0 ≤ fd ∧ fd < NOFILE then
    let i : Fd := ⟨fd.toNat, by omega⟩
    ((s.proc p).ofile i).map (i, ·)
  else none

/-- `filealloc` takes an entry. -/
def filealloc (s : State P) (f : FileId) : State P := s.setFile f { s.file f with ref := 1 }

/-- What process `p` does after `fileclose`. -/
def resume (s : State P) (p : P) : Then → State P
  | .ret r => s.leave p r
  | .close f => s.goto p (.fileclose f (.ret (-1)))
  | .exit fd rest => s.setFd p fd none (.exit rest)

/-- The locked part of `fileclose`, and what comes after it. -/
def fileclose (s : State P) (p : P) (f : FileId) (k : Then) : Outcome FPanic (State P) :=
  let x := s.file f
  if x.ref < 1 then .panic .fileclose
  else if 1 < x.ref then .ok ((s.setFile f { x with ref := x.ref - 1 }).resume p k)
  else
    let s := s.setFile f { x with ref := 0, type := .none }
    if x.type = .pipe then .ok (s.goto p (.pipeclose x.pipe x.writable k)) else .ok (s.resume p k)

/-- `filedup` -/
def filedup (s : State P) (f : FileId) : Outcome FPanic (State P) :=
  if (s.file f).ref < 1 then .panic .filedup
  else .ok (s.setFile f { s.file f with ref := (s.file f).ref + 1 })

/-- `pipeclose`: the last to close frees the page. -/
def pipeclose (s : State P) (n : Nat) (w : Bool) : State P :=
  { s with
    isOpen := update s.isOpen n (update (s.isOpen n) w false)
    freed := if s.isOpen n (!w) then s.freed else update s.freed n (s.freed n + 1) }

/-- The part of `pipealloc` after `kalloc`. -/
def pipealloc (s : State P) (f0 f1 : FileId) : State P :=
  { (s.setFile f0 { s.file f0 with
        type := .pipe, readable := true, writable := false, pipe := s.pipes }).setFile f1
      { s.file f1 with type := .pipe, readable := false, writable := true, pipe := s.pipes } with
    isOpen := update s.isOpen s.pipes fun _ => true
    pipes := s.pipes + 1 }

end State

/-- What a process does: it makes a system call, goes on in the one it is in, or finds that there
    is no page for a pipe or for the memory of a new process. -/
inductive Act (P : Type) where
  /-- `open`, with or without such a path. -/
  | open (p : P) (found readable writable : Bool)
  | dup (p : P) (fd : Int)
  | close (p : P) (fd : Int)
  | pipe (p : P)
  /-- `fork`, for which `allocproc` has found `np`, or nothing if that is in use. -/
  | fork (p np : P)
  | exit (p : P)
  | run (p : P)
  | noPage (p : P)

namespace State

/-- What process `p` does next in the call it is in. -/
def run (s : State P) (p : P) : Outcome FPanic (State P) :=
  match (s.proc p).pc with
  | .user => .hang
  | .openFile r w =>
    match s.findFile with
    | some f => .ok ((s.filealloc f).goto p (.openFd r w f))
    | none => .ok (s.leave p (-1))
  | .openFd r w f =>
    match s.findFd p with
    | some fd => .ok (s.setFd p fd (some f) (.openSet r w f fd))
    | none => .ok (s.goto p (.fileclose f (.ret (-1))))
  | .openSet r w f fd =>
    .ok ((s.setFile f { s.file f with type := .inode, readable := r, writable := w }).leave
      p fd.val)
  | .dup f fd => do
    let s ← s.filedup f
    return s.leave p fd.val
  | .pipe0 =>
    match s.findFile with
    | some f => .ok ((s.filealloc f).goto p (.pipe1 f))
    | none => .ok (s.leave p (-1))
  | .pipe1 f0 =>
    match s.findFile with
    | some f => .ok ((s.filealloc f).goto p (.pipePage f0 f))
    | none => .ok (s.goto p (.fileclose f0 (.ret (-1))))
  | .pipePage f0 f1 => .ok ((s.pipealloc f0 f1).goto p (.pipeFd0 f0 f1))
  | .pipeFd0 f0 f1 =>
    match s.findFd p with
    | some fd => .ok (s.setFd p fd (some f0) (.pipeFd1 f0 f1 fd))
    | none => .ok (s.goto p (.fileclose f0 (.close f1)))
  | .pipeFd1 f0 f1 fd0 =>
    match s.findFd p with
    | some fd => .ok ((s.setFd p fd (some f1) .user).leave p 0)
    | none => .ok (s.setFd p fd0 none (.fileclose f0 (.close f1)))
  | .fork np [] =>
    .ok ((s.setProc np { s.proc np with life := .live }).leave p 1)
  | .fork np (fd :: rest) =>
    match (s.proc p).ofile fd with
    | some f => do
      let s ← s.filedup f
      return (s.setFd np fd (some f) (s.proc np).pc).goto p (.fork np rest)
    | none => .ok (s.goto p (.fork np rest))
  | .exit [] => .ok (s.setProc p { s.proc p with pc := .user, life := .dead })
  | .exit (fd :: rest) =>
    match (s.proc p).ofile fd with
    | some f => .ok (s.goto p (.fileclose f (.exit fd rest)))
    | none => .ok (s.goto p (.exit rest))
  | .fileclose f k => s.fileclose p f k
  | .pipeclose n w k => .ok ((s.pipeclose n w).resume p k)

/-- A system call that process `p` makes. -/
def call (s : State P) : Act P → Outcome FPanic (State P)
  | .open p found r w => .ok (if found then s.goto p (.openFile r w) else s.leave p (-1))
  | .dup p fd =>
    match s.argfd p fd, s.findFd p with
    | some (_, f), some fd' => .ok (s.setFd p fd' (some f) (.dup f fd'))
    | _, _ => .ok (s.leave p (-1))
  | .close p fd =>
    match s.argfd p fd with
    | some (i, f) => .ok (s.setFd p i none (.fileclose f (.ret 0)))
    | none => .ok (s.leave p (-1))
  | .pipe p => .ok (s.goto p .pipe0)
  | .fork p np =>
    if (s.proc np).life = .dead then
      .ok ((s.setProc np { s.proc np with life := .embryo }).goto p
        (.fork np (List.finRange NOFILE)))
    else .ok (s.leave p (-1))
  | .exit p => .ok (s.goto p (.exit (List.finRange NOFILE)))
  | .run _ | .noPage _ => .hang

/-- The process that acts. -/
def actor : Act P → P
  | .open p .. | .dup p _ | .close p _ | .pipe p | .fork p _ | .exit p | .run p | .noPage p => p

/-- One step.  Calls are made by live processes that are in none. -/
def step (s : State P) : Act P → Outcome FPanic (State P)
  | .run p => s.run p
  | .noPage p =>
    match (s.proc p).pc with
    | .pipePage f0 f1 => .ok (s.goto p (.fileclose f0 (.close f1)))
    | .fork np rest =>
      -- `copyuvm` comes before the loop
      if rest = List.finRange NOFILE then
        .ok ((s.setProc np { s.proc np with life := .dead }).leave p (-1))
      else .hang
    | _ => .hang
  | a => if (s.proc (actor a)).pc = .user ∧ (s.proc (actor a)).life = .live then s.call a else .hang

/-- The machine as it starts, with one process `p0`. -/
def start (p0 : P) : State P where
  file := fun _ => { ref := 0, type := .none, readable := false, writable := false, pipe := 0 }
  proc := fun p =>
    { ofile := fun _ => none, pc := .user, life := if p = p0 then .live else .dead }
  isOpen := fun _ _ => false
  pipes := 0
  freed := fun _ => 0
  ret := fun _ => 0

end State

end Xv6.Files
