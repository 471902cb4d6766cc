import Xv6.Fs.Directory
import Xv6.Lib.Program
import Mathlib.Data.List.Dedup

namespace Xv6.Fs

open Function

/-!
# Names

The functions of `fs.c` that have to do with names, as one process runs them from its call to
its return.

* `World` — inodes with their contents, the references and locks on them, and the processes' current
  directories;
* `iget`, `ilock`, `iput`, … — the inode cache, an inode standing for its slot;
* `dirlookup`, `namex` — directories and paths.
-/

/-- The panics of these functions. -/
inductive NPanic where
  /-- `panic("iget: no inodes")` -/
  | igetNoInodes
  /-- `panic("ilock")` -/
  | ilock
  /-- `panic("ilock: no type")` -/
  | noType
  /-- `panic("iunlock")` -/
  | iunlock
  /-- `panic("dirlookup not DIR")` -/
  | dirlookupNotDir
  /-- `panic("dirlookup read")` -/
  | dirlookupRead
  /-- `panic("dirlink read")` -/
  | dirlinkRead
  /-- `panic("dirlink")` -/
  | dirlink
  /-- `panic("unlink: writei")` -/
  | unlinkWritei
  deriving DecidableEq, Repr

/-- The file system as a process `P` sees it.  Inodes are written through the cache, so that there
    is one of each; `refs` has an inode as often as `ip->ref` says, and `locks` are those of the
    running process. -/
structure World (P : Type) where
  node : Nat → Node
  refs : List Nat
  valid : Nat → Bool
  locks : List Nat
  cwd : P → Option Nat

/-- A function of the kernel. -/
abbrev Kern (P : Type) := Prog (World P) NPanic

variable {P : Type}

/-! ### The inode cache -/

/-- `iget`: a slot that has the inode, or a free one. -/
def iget (i : Nat) : Kern P Unit := do
  let s ← get
  if i ∈ s.refs then set { s with refs := i :: s.refs }
  else if s.refs.dedup.length < NINODE then
    set { s with refs := i :: s.refs, valid := update s.valid i false }
  else Prog.fail .igetNoInodes

/-- `idup` -/
def idup (i : Nat) : Kern P Unit := do
  let s ← get
  set { s with refs := i :: s.refs }

/-- `ilock`; nobody else will release a lock that this process has. -/
def ilock (i : Nat) : Kern P Unit := do
  let s ← get
  if i ∉ s.refs then Prog.fail .ilock
  else if i ∈ s.locks then Prog.stuck
  else if s.valid i then set { s with locks := i :: s.locks }
  else if (s.node i).type = .free then Prog.fail .noType
  else set { s with locks := i :: s.locks, valid := update s.valid i true }

/-- `iunlock` -/
def iunlock (i : Nat) : Kern P Unit := do
  let s ← get
  if i ∈ s.locks ∧ i ∈ s.refs then set { s with locks := s.locks.erase i }
  else Prog.fail .iunlock

/-- An inode after `itrunc` and `ip->type = 0`. -/
def Node.freed (d : Node) : Node := { d with type := .free, size := 0, data := fun _ => 0 }

/-- `iput` -/
def iput (i : Nat) : Kern P Unit := do
  let s ← get
  if i ∈ s.locks then Prog.stuck
  else if i ∉ s.refs then Prog.lost
  else if s.valid i ∧ (s.node i).nlink = 0 ∧ s.refs.count i = 1 then
    set { s with
      node := update s.node i (s.node i).freed
      valid := update s.valid i false
      refs := s.refs.erase i }
  else set { s with refs := s.refs.erase i }

/-- `iunlockput` -/
def iunlockput (i : Nat) : Kern P Unit := do
  iunlock i
  iput i

/-! ### Directories and paths -/

/-- What a search through the entries of a directory ends with. -/
inductive Search where
  | found (k : Nat)
  | none
  /-- An entry could not be read in full. -/
  | short

/-- Entries are read from number `start` on until one passes the test. -/
def Node.search (d : Node) (start : Nat) (test : Dirent → Bool) : Search :=
  match (List.range' start (d.size / DIRENT - start)).find? (fun k => test (d.dirent k)) with
  | some k => .found k
  | none => if DIRENT * start < d.size ∧ d.size % DIRENT ≠ 0 then .short else .none

/-- The search of `dirlookup`. -/
def Node.lookup (d : Node) (name : Name) : Search :=
  d.search 0 fun e => e.inum ≠ 0 ∧ e.name = name

/-- `dirlookup`: the inode that the entry refers to and the number of the entry. -/
def dirlookup (dp : Nat) (name : Name) : Kern P (Option (Nat × Nat)) := do
  let s ← get
  let d := s.node dp
  if d.type ≠ .dir then Prog.fail .dirlookupNotDir
  else
    match d.lookup name with
    | .found k => do
      iget (d.dirent k).inum.toNat
      return some ((d.dirent k).inum.toNat, k)
    | .none => return none
    | .short => Prog.fail .dirlookupRead

/-- The entry that `dirlink` writes: the first that is free, or else one more. -/
def Node.freeEntry (d : Node) : Option Nat :=
  match d.search 0 fun e => e.inum = 0 with
  | .found k => some k
  | .none => some (d.size / DIRENT)
  | .short => none

/-- The loop of `namex`, at inode `ip` with these elements to go; `parent` to stop one level
    early. -/
def namexLoop (parent : Bool) (ip : Nat) (name : Name) : List Name → Kern P (Option (Nat × Name))
  | [] =>
    if parent then do
      iput ip
      return none
    else return some (ip, name)
  | next :: rest => do
    ilock ip
    let s ← get
    if (s.node ip).type ≠ .dir then do
      iunlockput ip
      return none
    else if parent ∧ rest = [] then do
      iunlock ip
      return some (ip, next)
    else do
      match ← dirlookup ip next with
      | none => do
        iunlockput ip
        return none
      | some (inum, _) => do
        iunlockput ip
        namexLoop parent inum next rest

/-- The inode where a path starts. -/
def namexStart (p : P) (path : List Byte) : Kern P Nat := do
  if path.head? = some slash then do
    iget ROOTINO
    return ROOTINO
  else do
    let s ← get
    match s.cwd p with
    | some i => do
      idup i
      return i
    | none => Prog.lost

/-- `namex`, with the last element of the path. -/
def namex (p : P) (path : List Byte) (parent : Bool) : Kern P (Option (Nat × Name)) := do
  let ip ← namexStart p path
  namexLoop parent ip Dirent.zero.name (elems path)

/-- `namei` -/
def namei (p : P) (path : List Byte) : Kern P (Option Nat) := do
  let r ← namex p path false
  return r.map Prod.fst

/-- `nameiparent` -/
def nameiparent (p : P) (path : List Byte) : Kern P (Option (Nat × Name)) := namex p path true

end Xv6.Fs
