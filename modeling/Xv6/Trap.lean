import Xv6.State

namespace Xv6

/-!
# The page-fault handler (`trap.c`)

`trapPgflt` is the `T_PGFLT` case of `trap`.  It is entered for faults of user code and,
since the kernel writes to user memory through the user's page table, also for faults of
the kernel itself (`kernelFault`).
-/

/-- The area after its guard page was mapped, `next` being the area after it: it ends a page
    higher, and has a new guard page unless there is only one page left between them. -/
def VmArea.growsUp (c next : VmArea) : VmArea :=
  { c with
    len := c.len + PGSIZE
    end_ := c.end_ + PGSIZE
    guardstart :=
      if next.start - (c.end_ + PGSIZE + 1) < 2 * PGSIZE then -1 else c.end_ + PGSIZE + 1 }

namespace Kernel

/-- The guard page of the area at `curr` is being touched: map it and move the guard. -/
def pgfltGrow (L : Link) (k : Kernel) (p : Slot) (curr : VmaPtr) : Res Kernel := do
  let c ← k.deref curr
  match kalloc k.phys with
  | (none, _) => .panic .kalloc
  | (some pa, s) =>
    let s := s.memset pa 0
    let (mapped, s) ←
      mappagesV2P s (k.proc p).pgdir c.guardstart PGSIZE (P2V (base pa)) (c.prot ||| PTE_U)
    if mapped then
      let k := ({ k with phys := s } : Kernel).grant p c.guardstart (some pa)
      let next ← k.deref c.next
      return k.setVma curr (c.growsUp next)
    else
      let s ← kfree L s (P2V (base pa))
      return ({ k with phys := s } : Kernel).kill p

/-- The handler's loop over the areas, at `curr`. -/
def pgfltLoop (L : Link) (k : Kernel) (p : Slot) (fault_addr : Word) : Nat → VmaPtr → Res Kernel
  | 0, _ => .hang
  | n + 1, curr => do
    let c ← k.deref curr
    if c.start = MAX_ADDR then return k
    else if c.flags &&& MAP_GROWSUP = 0#32 then
      if c.end_ < fault_addr then
        let next ← k.deref c.next
        if fault_addr < next.start then return k.kill p
        else pgfltLoop L k p fault_addr n c.next
      else pgfltLoop L k p fault_addr n c.next
    else if 0#32 < c.guardstart then
      if c.guardstart ≤ fault_addr ∧ fault_addr ≤ c.guardstart + PGSIZE - 1 then
        pgfltGrow L k p curr
      else
        let next ← k.deref c.next
        if fault_addr < next.start then return k.kill p
        else pgfltLoop L k p fault_addr n c.next
    else return k.kill p

/-- `case T_PGFLT` of `trap`, for the running process `p` and `rcr2() = fault_addr`. -/
def trapPgflt (L : Link) (k : Kernel) (p : Slot) (fault_addr : Word) : Res Kernel :=
  if fault_addr < MIN_ADDR ∨ MAX_ADDR ≤ fault_addr then .ok (k.kill p)
  else pgfltLoop L k p fault_addr loopBound (.head p)

/-! ### Kernel accesses to user memory -/

/-- Whether the kernel may store to `va` (`CR0_WP` is set, so it obeys `PTE_W`). -/
def writable (k : Kernel) (p : Slot) (va : Word) : Bool :=
  match k.trans p va with
  | none => false
  | some pte => pte &&& PTE_W ≠ 0#32

/-- Whether the kernel may load from `va`. -/
def readable (k : Kernel) (p : Slot) (va : Word) : Bool :=
  (k.trans p va).isSome

/-- The handler for a fault of the kernel itself at `va`: afterwards the access is tried
    again, and if it is still not allowed the same fault recurs for ever, since only
    returns to user mode look at `killed`. -/
def kernelFault (L : Link) (k : Kernel) (p : Slot) (va : Word) (allowed : Kernel → Bool) :
    Res Kernel := do
  let k' ← k.trapPgflt L p va
  if allowed k' then return k' else .hang

/-- The frame, word and byte that `va` addresses under the entry `pte`. -/
def byteIdx (va : Word) : Idx × BitVec 2 := ((va >>> 2).setWidth 10, va.setWidth 2)

/-- Store a byte in the page named by `pte`. -/
def putByte (s : Phys) (pte va : Word) (b : Byte) : Phys :=
  let (i, o) := byteIdx va
  s.store (frameOf pte) i (setByte (s.mem (frameOf pte) i) o b)

/-- The kernel stores a byte at user address `va`. -/
def storeByte (L : Link) (k : Kernel) (p : Slot) (va : Word) (b : Byte) : Res Kernel := do
  let k ← if k.writable p va then .ok k else k.kernelFault L p va (·.writable p va)
  match k.trans p va with
  | none => .wild
  | some pte => return { k with phys := putByte k.phys pte va b }

/-- The kernel copies bytes to user memory from `va` on. -/
def storeBytes (L : Link) (p : Slot) : Kernel → Word → List Byte → Res Kernel
  | k, _, [] => .ok k
  | k, va, b :: bs => do
    let k ← k.storeByte L p va b
    storeBytes L p k (va + 1) bs

/-- The kernel loads a byte from user address `va`. -/
def loadByte (L : Link) (k : Kernel) (p : Slot) (va : Word) : Res (Byte × Kernel) := do
  let k ← if k.readable p va then .ok k else k.kernelFault L p va (·.readable p va)
  match k.trans p va with
  | none => .wild
  | some pte =>
    let (i, o) := byteIdx va
    return (getByte (k.phys.mem (frameOf pte) i) o, k)

/-- The kernel copies `n` bytes from user memory, from `va` on. -/
def loadBytes (L : Link) (p : Slot) : Kernel → Word → Nat → Res (List Byte × Kernel)
  | k, _, 0 => .ok ([], k)
  | k, va, n + 1 => do
    let (b, k) ← k.loadByte L p va
    let (bs, k) ← loadBytes L p k (va + 1) n
    return (b :: bs, k)

end Kernel

end Xv6
