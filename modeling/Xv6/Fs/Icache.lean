import Xv6.Fs.Dinode
import Xv6.Lib.Count
import Xv6.Lib.Run

namespace Xv6.Fs

open Function Run

/-!
# The inode cache

`ialloc`, `iget`, `idup`, `ilock`, `iunlock`, `iupdate` and `iput` of `fs.c`, among any number of
processes.  A step is what a process does without another one coming between.

* `Inode`, `Cache` — the cache and the inodes on the disk;
* `Ref` — a reference that was handed out, with the incarnation of the inode it is to;
* `Pc`, `Call`, `step` — the functions, cut where other processes may come between;
* `Rules` — how they are used.
-/

/-- `dev` and `inum` -/
abbrev Key := Nat × Nat

/-- A slot of `icache.inode`. -/
abbrev SlotId := Fin NINODE

instance : NeZero NINODE := ⟨by decide⟩

/-- `struct inode`; `d` is the copy of the inode on the disk. -/
structure Inode (P : Type) where
  key : Key
  ref : Nat
  lock : Option P
  valid : Bool
  d : Dinode

/-- A reference to the inode in a slot, when its inode was allocated for the `gen`-th time. -/
structure Ref where
  slot : SlotId
  gen : Nat
  deriving DecidableEq

/-- The panics of these functions. -/
inductive IPanic where
  /-- `panic("ialloc: no inodes")` -/
  | iallocNoInodes
  /-- `panic("iget: no inodes")` -/
  | igetNoInodes
  /-- `panic("ilock")` -/
  | ilock
  /-- `panic("ilock: no type")` -/
  | noType
  /-- `panic("iunlock")` -/
  | iunlock
  deriving DecidableEq, Repr

/-- Where a process stands. -/
inductive Pc where
  /-- Outside of these functions. -/
  | user
  /-- In `ilock`, with the lock. -/
  | filling (i : SlotId)
  /-- In the loop of `ialloc`. -/
  | scanning (dev inum : Nat) (type : FileType)
  /-- In `ialloc`, before `iget`. -/
  | marked (k : Key)
  /-- In `iput`, with the lock. -/
  | putting (r : Ref)
  /-- In `iput`: the inode has no links and no other references. -/
  | freeing (r : Ref)
  /-- In `iput`, after `itrunc`. -/
  | truncated (r : Ref)
  /-- In `iput`, after `iupdate`. -/
  | freed (r : Ref)
  /-- In `iput`, before `releasesleep`; `gone` if it has freed the inode. -/
  | leaving (r : Ref) (gone : Bool)
  /-- In `iput`, before `ip->ref--`. -/
  | dropping (r : Ref) (gone : Bool)
  deriving DecidableEq

/-- The cache and the inodes on the disk, of which there are `ninodes`.  The last two are records
    of what happened: how often an inode was allocated, and the references that processes have. -/
structure State (P : Type) where
  slot : SlotId → Inode P
  disk : Key → Dinode
  ninodes : Nat
  pc : P → Pc
  gen : Key → Nat
  refs : P → List Ref

/-- What a process calls. -/
inductive Call where
  | ialloc (dev : Nat) (type : FileType)
  | iget (k : Key)
  | idup (i : SlotId)
  | ilock (i : SlotId)
  | iunlock (i : SlotId)
  /-- The fields of a locked inode are changed and written to the disk. -/
  | iupdate (i : SlotId) (d : Dinode)
  | iput (i : SlotId)

/-- A step of process `p`: a call, or what comes next in the function it is in; or its reference to
    slot `i` becomes another process': `fork` gives the child one to `cwd`, and who closes a file
    last puts the reference of the process that has opened it. -/
inductive Act (P : Type) where
  | call (p : P) (c : Call)
  | run (p : P)
  | hand (p q : P) (i : SlotId)

variable {P : Type} [DecidableEq P]

namespace State

/-- Slot `i` is changed. -/
def setSlot (s : State P) (i : SlotId) (x : Inode P) : State P :=
  { s with slot := update s.slot i x }

/-- Process `p` goes on to `pc`. -/
def goto (s : State P) (p : P) (pc : Pc) : State P := { s with pc := update s.pc p pc }

/-- Process `p` now has the references `l`. -/
def setRefs (s : State P) (p : P) (l : List Ref) : State P := { s with refs := update s.refs p l }

/-- Inode `k` is written to the disk. -/
def setDisk (s : State P) (k : Key) (d : Dinode) : State P := { s with disk := update s.disk k d }

/-- `iget`, which process `p` has called: the slot that has the inode, or else the first that
    is free. -/
def iget (s : State P) (p : P) (k : Key) : Outcome IPanic (State P) :=
  match (List.finRange NINODE).find? (fun i => 0 < (s.slot i).ref ∧ (s.slot i).key = k) with
  | some i =>
    .ok ((s.setSlot i { s.slot i with ref := (s.slot i).ref + 1 }).setRefs p
      (⟨i, s.gen k⟩ :: s.refs p))
  | none =>
    match (List.finRange NINODE).find? (fun i => (s.slot i).ref = 0) with
    | some i =>
      .ok ((s.setSlot i { s.slot i with key := k, ref := 1, valid := false }).setRefs p
        (⟨i, s.gen k⟩ :: s.refs p))
    | none => .panic .igetNoInodes

/-- The reference that process `p` has to the inode in slot `i`. -/
def findRef (s : State P) (p : P) (i : SlotId) : Option Ref := (s.refs p).find? (·.slot = i)

/-- A call of process `p`, which is then in the function, or back where it was.  Who has to wait
    for a lock does not get on. -/
def call (s : State P) (p : P) : Call → Outcome IPanic (State P)
  | .ialloc dev type => .ok (s.goto p (.scanning dev 1 type))
  | .iget k => do
    let s ← s.iget p k
    return s.goto p .user
  | .idup i =>
    match s.findRef p i with
    | some r =>
      .ok (((s.setSlot i { s.slot i with ref := (s.slot i).ref + 1 }).setRefs p
        (r :: s.refs p)).goto p .user)
    | none => .hang
  | .ilock i =>
    if (s.slot i).ref < 1 then .panic .ilock
    else if (s.slot i).lock = none then
      .ok ((s.setSlot i { s.slot i with lock := some p }).goto p (.filling i))
    else .hang
  | .iunlock i =>
    if (s.slot i).lock ≠ some p ∨ (s.slot i).ref < 1 then .panic .iunlock
    else .ok ((s.setSlot i { s.slot i with lock := none }).goto p .user)
  | .iupdate i d => .ok (((s.setSlot i { s.slot i with d }).setDisk (s.slot i).key d).goto p .user)
  | .iput i =>
    match s.findRef p i with
    | some r =>
      if (s.slot i).lock = none then
        .ok ((s.setSlot i { s.slot i with lock := some p }).goto p (.putting r))
      else .hang
    | none => .hang

/-- What process `p` does next in the function it is in. -/
def run (s : State P) (p : P) : Outcome IPanic (State P) :=
  match s.pc p with
  | .user => .hang
  | .filling i =>
    if (s.slot i).valid then .ok (s.goto p .user)
    else if (s.disk (s.slot i).key).type = .free then .panic .noType
    else
      .ok ((s.setSlot i { s.slot i with d := s.disk (s.slot i).key, valid := true }).goto p .user)
  | .scanning dev inum type =>
    if inum ≥ s.ninodes then .panic .iallocNoInodes
    else if (s.disk (dev, inum)).type = .free then
      .ok ({ s.setDisk (dev, inum) { Dinode.zero with type } with
              gen := update s.gen (dev, inum) (s.gen (dev, inum) + 1) }.goto p
                (.marked (dev, inum)))
    else .ok (s.goto p (.scanning dev (inum + 1) type))
  | .marked k => do
    let s ← s.iget p k
    return s.goto p .user
  | .putting r =>
    let x := s.slot r.slot
    if x.valid ∧ x.d.nlink = 0 ∧ x.ref = 1 then .ok (s.goto p (.freeing r))
    else .ok (s.goto p (.leaving r false))
  | .freeing r =>
    -- `itrunc`, which ends with an `iupdate`
    let x := s.slot r.slot
    let d := { x.d with size := 0, addrs := fun _ => 0 }
    .ok (((s.setSlot r.slot { x with d }).setDisk x.key d).goto p (.truncated r))
  | .truncated r =>
    let x := s.slot r.slot
    let d := { x.d with type := .free }
    .ok (((s.setSlot r.slot { x with d }).setDisk x.key d).goto p (.freed r))
  | .freed r =>
    .ok ((s.setSlot r.slot { s.slot r.slot with valid := false }).goto p (.leaving r true))
  | .leaving r gone =>
    .ok ((s.setSlot r.slot { s.slot r.slot with lock := none }).goto p (.dropping r gone))
  | .dropping r _ =>
    .ok (((s.setSlot r.slot { s.slot r.slot with ref := (s.slot r.slot).ref - 1 }).setRefs p
      ((s.refs p).erase r)).goto p .user)

/-- Reference `r` of process `p` becomes one of process `q`. -/
def hand (s : State P) (p q : P) (r : Ref) : State P :=
  let s := s.setRefs p ((s.refs p).erase r)
  s.setRefs q (r :: s.refs q)

/-- One step; a call is made by a process outside of these functions. -/
def step (s : State P) : Act P → Outcome IPanic (State P)
  | .call p c => if s.pc p = .user then s.call p c else .hang
  | .run p => s.run p
  | .hand p q i =>
    match s.findRef p i with
    | some r => if s.pc p = .user then .ok (s.hand p q r) else .hang
    | none => .hang

/-- Process `p` has a reference to the inode in slot `i`. -/
def Has (s : State P) (p : P) (i : SlotId) : Prop := ∃ r ∈ s.refs p, r.slot = i

/-- How the functions are used: an inode that exists is asked for if it has links or the caller has
    a reference to it; other functions are for inodes that the caller has a reference to;
    fields are changed under the lock, and the type is not made free; and nobody hands on a
    reference to an inode it has locked. -/
def Rules (s : State P) : Act P → Prop
  | .call _ (.ialloc _ type) => type ≠ .free
  | .call p (.iget k) => (s.disk k).type ≠ .free ∧ 0 < (s.disk k).nlink
      ∨ ∃ i, s.Has p i ∧ (s.slot i).key = k
  | .call p (.idup i) | .call p (.ilock i) | .call p (.iput i) => s.Has p i
  | .call p (.iupdate i d) => (s.slot i).lock = some p ∧ d.type ≠ .free
  | .hand p _ i => (s.slot i).lock ≠ some p
  | .call _ (.iunlock _) | .run _ => True

/-- The machine as it starts, with the inodes of `disk`. -/
def init (ninodes : Nat) (disk : Key → Dinode) : State P where
  slot := fun _ => { key := (0, 0), ref := 0, lock := none, valid := false, d := .zero }
  disk
  ninodes
  pc := fun _ => .user
  gen := fun _ => 0
  refs := fun _ => []

end State

end Xv6.Fs
