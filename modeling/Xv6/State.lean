import Xv6.Vm

namespace Xv6

/-!
# Processes, areas and files (`proc.h`, `file.h`)

The kernel state the memory-management calls work on.  A `struct vm_area` lives either in
a `struct proc` (its `head` and `tail`) or in a page of its own that `create_vma` took
from `kalloc`; a pointer to one is a `VmaPtr`.  Files are seen as `file.c` sees them: a
table of `struct file`, whose inodes are byte arrays and whose pipes are byte queues.
-/

/-- A slot of the process table. -/
abbrev Slot := Fin NPROC

/-- `enum procstate`. -/
inductive ProcState where
  | UNUSED
  | EMBRYO
  | SLEEPING
  | RUNNABLE
  | RUNNING
  | ZOMBIE
  deriving DecidableEq, Repr

/-- A `struct vm_area *`. -/
inductive VmaPtr where
  | null
  | head (p : Slot)
  | tail (p : Slot)
  | node (f : Frame)
  deriving DecidableEq, Repr

/-- A `struct file *`: null, an entry of `ftable`, or a word read from beyond the
    descriptor table. -/
inductive FilePtr where
  | null
  | file (i : Fin NFILE)
  | other
  deriving DecidableEq, Repr

/-- `struct vm_area`. -/
structure VmArea where
  valid : Word
  start : Word
  end_ : Word
  pa : Word
  guardstart : Word
  len : Word
  prot : Word
  flags : Word
  fd : Word
  space_after : Word
  f : FilePtr
  next : VmaPtr
  deriving DecidableEq, Repr

/-- `struct proc`, without the fields no modelled function reads (trap frame, context,
    channel, current directory, name). -/
structure Proc where
  sz : Word
  pgdir : Frame
  kstack : Option Frame
  state : ProcState
  pid : Word
  parent : Option Slot
  killed : Bool
  ofile : Fin NOFILE → Option (Fin NFILE)
  head : VmArea
  tail : VmArea

/-- The `type` of a `struct file`. -/
inductive FileType where
  | FD_NONE
  | FD_PIPE
  | FD_INODE
  deriving DecidableEq, Repr

/-- `struct file`; inodes and pipes are named by numbers. -/
structure File where
  type : FileType
  ref : Int
  readable : Bool
  writable : Bool
  pipe : Nat
  ip : Nat
  off : Word

/-- A pipe: the page it lives in, the bytes written and not yet read, and which ends are
    open. -/
structure Pipe where
  page : Frame
  data : List Byte
  readopen : Bool
  writeopen : Bool

/-- The kernel state.  `granted` is a ghost no code reads: for each process and page, the
    frame `kalloc` returned for the page when the kernel last mapped it as part of an area
    (in a forked child, the parent's for a page of a shared area). -/
structure Kernel where
  phys : Phys
  vma : Frame → VmArea
  proc : Slot → Proc
  nextpid : Word
  initproc : Slot
  file : Fin NFILE → File
  pipe : Nat → Pipe
  inode : Nat → List Byte
  granted : Slot → Frame → Option Frame

namespace Kernel

/-- `*x` for a `struct vm_area *`. -/
def deref (k : Kernel) : VmaPtr → Res VmArea
  | .null => .wild
  | .head p => .ok (k.proc p).head
  | .tail p => .ok (k.proc p).tail
  | .node f => .ok (k.vma f)

/-- Replace process `p`. -/
def setProc (k : Kernel) (p : Slot) (pr : Proc) : Kernel :=
  { k with proc := Function.update k.proc p pr }

/-- `*x = v` for a `struct vm_area *`. -/
def setVma (k : Kernel) : VmaPtr → VmArea → Kernel
  | .null, _ => k
  | .head p, v => k.setProc p { k.proc p with head := v }
  | .tail p, v => k.setProc p { k.proc p with tail := v }
  | .node f, v => { k with vma := Function.update k.vma f v }

/-- `p->killed = 1`. -/
def kill (k : Kernel) (p : Slot) : Kernel :=
  k.setProc p { k.proc p with killed := true }

/-- Record the frame `kalloc` returned for the page of `va`. -/
def grant (k : Kernel) (p : Slot) (va : Word) (f : Option Frame) : Kernel :=
  { k with granted :=
      Function.update k.granted p (Function.update (k.granted p) (frameOf va) f) }

/-- `p->ofile[fd]`; an index outside the table reads some other word of the kernel. -/
def ofileAt (k : Kernel) (p : Slot) (fd : Word) : FilePtr :=
  if h : fd.toNat < NOFILE then
    match (k.proc p).ofile ⟨fd.toNat, h⟩ with
    | none => .null
    | some i => .file i
  else .other

/-- The PTE of `va` in directory `d`, none without a page table. -/
def pte? (s : Phys) (d : Frame) (va : Word) : Option Word :=
  match walkpgdir s d va false with
  | (some (t, i), _) => some (s.mem t i)
  | (none, _) => none

/-- The translation of `va` under directory `d`: its PTE, where that is present. -/
def translate (s : Phys) (d : Frame) (va : Word) : Option Word :=
  (pte? s d va).filter (fun pte => pte &&& PTE_P ≠ 0#32)

/-- The translation of `va` in process `p`. -/
def trans (k : Kernel) (p : Slot) (va : Word) : Option Word :=
  translate k.phys (k.proc p).pgdir va

end Kernel

end Xv6
