import Xv6.File

namespace Xv6

/-!
# `mmap` and `munmap` (`sysfile.c`)

`sysMmap` searches the list of areas for a place (`mmapFixedLoop`, `mmapAnyLoop`: the two
branches have different rules) and then inserts, maps and loads there (`mmapPlace`, the
same code in both branches but for the overwriting of the head).  `int` comparisons are
signed, `uint` ones unsigned, and a mixed one unsigned, as in C.
-/

namespace Kernel

/-- The fields `create_vma` sets, `nstart` being the start of the next area.  The record is
    laid over a page `kalloc` does not clear, so `pa` (word 3) and `guardstart` (word 4),
    which are not set, hold what the page held. -/
def newVma (k : Kernel) (p : Slot) (vma : Frame) (next : VmaPtr)
    (nstart start len prot flags fd : Word) :
    VmArea :=
  let end_ := PGROUNDUP (start + len) - 1
  { valid := 1, start := start, end_ := end_, pa := k.phys.mem vma 3,
    guardstart := k.phys.mem vma 4, len := end_ - start, prot := prot, flags := flags, fd := fd,
    space_after := nstart - end_, f := k.ofileAt p fd, next := next }

/-- `create_vma`.  It does not compare what `kalloc` returns with null: with no frame left the
    source writes the record at address 0, which is a page of the process, links it and goes on.
    The model ends there: it has no records in user memory.  So what is said of calls that return
    needs a free frame for the record. -/
def createVma (k : Kernel) (p : Slot) (prev next : VmaPtr) (start len prot flags fd : Word) :
    Res (Frame × Kernel) :=
  match kalloc k.phys with
  | (none, _) => .wild
  | (some vma, s) => do
    let k := { k with phys := s }
    let n ← k.deref next
    let k := k.setVma (.node vma) (k.newVma p vma next n.start start len prot flags fd)
    let pr ← k.deref prev
    return (vma, k.setVma prev { pr with next := .node vma })

/-- Load one page of the file behind descriptor `fd` to address `i`; the offset is set to
    0 for every page. -/
def mmapLoad (L : Link) (k : Kernel) (p : Slot) (fd i : Word) : Res Kernel :=
  match k.ofileAt p fd with
  | .file fi => do
    let (_, k) ← (k.setFile fi { k.file fi with off := 0 }).fileread L p fi i PGSIZE
    return k
  | _ => .wild

/-- The result of `mappages` for the page at `i`: if it failed, the frame is given back and
    the process killed. -/
def mmapMapped (L : Link) (k : Kernel) (p : Slot) (i : Word) (pa : Frame) (mapped : Bool) :
    Res Kernel :=
  if mapped then .ok (k.grant p i (some pa))
  else do
    let s ← kfree L k.phys (P2V (base pa))
    return ({ k with phys := s } : Kernel).kill p

/-- One page of the mapping loop: allocate, clear, map, load. -/
def mmapPage (L : Link) (k : Kernel) (p : Slot) (vma : Frame) (start prot flags fd i : Word) :
    Res Kernel :=
  match kalloc k.phys with
  | (none, _) => .panic .kalloc
  | (some pa, s) => do
    let s := s.memset pa 0
    let k := { k with phys := s }
    -- set pa of vma to first page's pa
    let k := if i = start then k.setVma (.node vma) { k.vma vma with pa := P2V (base pa) } else k
    let (mapped, s) ← mappagesV2P s (k.proc p).pgdir i PGSIZE (P2V (base pa)) (prot ||| PTE_U)
    let k ← ({ k with phys := s } : Kernel).mmapMapped L p i pa mapped
    if flags &&& MAP_ANON = 0#32 then k.mmapLoad L p fd i else .ok k

/-- `for (int i = start_addr; i < new_vma->end; i += PGSIZE)`: the comparison is unsigned. -/
def mmapPages (L : Link) (p : Slot) (vma : Frame) (start end_ prot flags fd : Word) :
    Nat → Kernel → Word → Res Kernel
  | 0, _, _ => .hang
  | n + 1, k, i =>
    if i < end_ then do
      let k ← k.mmapPage L p vma start prot flags fd i
      mmapPages L p vma start end_ prot flags fd n k (i + PGSIZE)
    else .ok k

/-- `if ((prev_vma->flags & MAP_GROWSUP) != 0) …`: the guard page before `curr` is lost. -/
def mmapUnguard (k : Kernel) (prev curr : VmaPtr) : Res Kernel := do
  let pr ← k.deref prev
  let c ← k.deref curr
  if pr.flags &&& MAP_GROWSUP ≠ 0#32 ∧ pr.guardstart + PGSIZE = c.start then
    return k.setVma prev { pr with guardstart := -1 }
  else return k

/-- `if ((flags & MAP_GROWSUP) != 0) …`: give the new area a guard page if there is room;
    the result is what `sys_mmap` returns. -/
def mmapGuard (k : Kernel) (vma : Frame) (start flags : Word) : Res (Word × Kernel) := do
  let v := k.vma vma
  if flags &&& MAP_GROWSUP ≠ 0#32 then
    let n ← k.deref v.next
    if PGSIZE ≤ n.start - (v.end_ + 1) then
      return (start, k.setVma (.node vma) { v with guardstart := v.end_ + 1 })
    else return (-1, k)
  else return (start, k)

/-- The body of the two search loops once a place is found: after `curr`, at `start`. -/
def mmapPlace (L : Link) (k : Kernel) (p : Slot) (prev curr : VmaPtr)
    (start length prot flags fd : Word) (fixed : Bool) : Res (Word × Kernel) := do
  let c ← k.deref curr
  let k := k.setVma curr { c with space_after := c.space_after - length }
  let (vma, k) ← k.createVma p curr c.next start length prot flags fd
  let v := k.vma vma
  let k := if fixed ∧ v.start = MIN_ADDR then k.setVma (.head p) v else k
  let k ← mmapPages L p vma start v.end_ prot flags fd loopBound k start
  let k ← k.mmapUnguard prev curr
  k.mmapGuard vma start flags

/-- The loop of the `MAP_FIXED` branch. -/
def mmapFixedLoop (L : Link) (k : Kernel) (p : Slot) (addr length prot flags fd : Word) :
    Nat → VmaPtr → VmaPtr → Res (Word × Kernel)
  | 0, _, _ => .hang
  | n + 1, prev, curr => do
    let c ← k.deref curr
    if c.start = MAX_ADDR then return (-1, k)
    -- if provided address falls within the allocated VMA
    else if c.start ≤ addr ∧ addr ≤ c.end_ then return (-1, k)
    else
      let next ← k.deref c.next
      if addr < next.start ∧ length.toInt < c.space_after.toInt then
        k.mmapPlace L p prev curr addr length prot flags fd true
      else mmapFixedLoop L k p addr length prot flags fd n curr c.next

/-- The loop of the other branch, which takes the first area with room after it. -/
def mmapAnyLoop (L : Link) (k : Kernel) (p : Slot) (length prot flags fd : Word) :
    Nat → VmaPtr → VmaPtr → Res (Word × Kernel)
  | 0, _, _ => .hang
  | n + 1, prev, curr => do
    let c ← k.deref curr
    if c.start = MAX_ADDR then return (-1, k)
    else if length.toInt < c.space_after.toInt then
      k.mmapPlace L p prev curr (c.end_ + 1) length prot flags fd false
    else mmapAnyLoop L k p length prot flags fd n curr c.next

/-- `sys_mmap`, the arguments fetched (the offset is fetched and never used). -/
def sysMmap (L : Link) (k : Kernel) (p : Slot) (addr length prot flags fd : Word) :
    Res (Word × Kernel) :=
  if flags &&& MAP_FIXED ≠ 0#32 then
    if addr % PGSIZE ≠ 0#32 ∨ addr < MIN_ADDR ∨ MAX_ADDR ≤ addr then .ok (-1, k)
    else k.mmapFixedLoop L p addr length prot flags fd loopBound (.head p) (.head p)
  else k.mmapAnyLoop L p length prot flags fd loopBound (.head p) (.head p)

/-! ### `munmap` -/

/-- The search of `sys_munmap`: `curr` is a copy of the node, made by `curr = *curr.next`. -/
def munmapFind (k : Kernel) (addr : Word) : Nat → VmArea → Res (Option VmArea)
  | 0, _ => .hang
  | n + 1, curr =>
    if curr.start = MAX_ADDR then .ok none
    else if addr = curr.start ∧ curr.valid = 1 then .ok (some curr)
    else do
      let next ← k.deref curr.next
      munmapFind k addr n next

/-- The page loop of `sys_munmap`: its body runs where `walkpgdir` returned null, and then
    dereferences that null pointer. -/
def munmapPages (k : Kernel) (p : Slot) (end_ : Word) : Nat → Word → Res Unit
  | 0, _ => .hang
  | n + 1, i =>
    if i < end_ then
      match walkpgdir k.phys (k.proc p).pgdir i false with
      | (none, _) => .wild
      | (some _, _) => munmapPages k p end_ n (i + PGSIZE)
    else .ok ()

/-- The write-back of `sys_munmap`, for an area that is file-backed and not private. -/
def munmapWriteBack (L : Link) (k : Kernel) (p : Slot) (vm : VmArea) : Res Kernel :=
  if vm.flags &&& MAP_ANON = 0#32 ∧ vm.flags &&& MAP_PRIVATE = 0#32 then
    match vm.f with
    | .file fi => do
      let (_, k) ← (k.setFile fi { k.file fi with off := 0 }).filewrite L p fi vm.start vm.len.toInt
      return k
    | _ => .wild
  else .ok k

/-- `sys_munmap`.  What follows the page loop in the source, the unlinking and the return
    of the area's space to its predecessor, is done to the local copy `curr`, which both
    `vm` and `prev` point to; no node of the list changes. -/
def sysMunmap (L : Link) (k : Kernel) (p : Slot) (addr length : Word) : Res (Word × Kernel) :=
  if addr % PGSIZE ≠ 0#32 ∨ addr < MIN_ADDR ∨ MAX_ADDR ≤ addr then .ok (-1, k)
  else do
    match ← k.munmapFind addr loopBound (k.proc p).head with
    | none => return (-1, k)
    | some vm =>
      let k ← k.munmapWriteBack L p vm
      k.munmapPages p (addr + length) loopBound addr
      return (0, k)

end Kernel

end Xv6
