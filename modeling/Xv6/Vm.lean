import Xv6.Kalloc

namespace Xv6

/-!
# Page tables (`vm.c`)

`walkpgdir`, `mappages` and the routines built from them, as functions on physical
memory.  A page directory is the frame that holds it.  `mappages` exists twice in the
source: `vm.c` takes a physical address, the copies in `sysfile.c`, `proc.c` and `trap.c`
take a kernel address and apply `V2P` themselves.

Loops over pages carry a bound on their number of rounds that exceeds the number of
pages; a loop that is not left by then never is.
-/

/-- More rounds than there are pages in the address space or pointers to a VMA. -/
def loopBound : Nat := 2097152

/-- `walkpgdir(pgdir, va, alloc)`: the frame and index of the PTE of `va`, allocating its
    page table if `alloc` is set; none for a null result. -/
def walkpgdir (s : Phys) (pgdir : Frame) (va : Word) (alloc : Bool) :
    Option (Frame × Idx) × Phys :=
  let pde := s.mem pgdir (PDX va)
  if pde &&& PTE_P ≠ 0#32 then (some (frameOf pde, PTX va), s)
  else if alloc then
    match kalloc s with
    | (none, s) => (none, s)
    | (some pgtab, s) =>
      let s := s.memset pgtab 0
      (some (pgtab, PTX va), s.store pgdir (PDX va) (base pgtab ||| PTE_P ||| PTE_W ||| PTE_U))
  else (none, s)

/-- The loop of `mappages`, at page `a` with physical address `pa`; the result tells a
    return of 0 from a return of -1. -/
def mappagesLoop (pgdir : Frame) (last perm : Word) :
    Nat → Phys → Word → Word → Res (Bool × Phys)
  | 0, _, _, _ => .hang
  | n + 1, s, a, pa =>
    match walkpgdir s pgdir a true with
    | (none, s) => .ok (false, s)
    | (some (t, i), s) =>
      if s.mem t i &&& PTE_P ≠ 0#32 then .panic .remap
      else
        let s := s.store t i (pa ||| perm ||| PTE_P)
        if a = last then .ok (true, s)
        else mappagesLoop pgdir last perm n s (a + PGSIZE) (pa + PGSIZE)

/-- `mappages(pgdir, va, size, pa, perm)` of `vm.c`. -/
def mappages (s : Phys) (pgdir : Frame) (va size pa perm : Word) : Res (Bool × Phys) :=
  mappagesLoop pgdir (PGROUNDDOWN (va + size - 1)) perm loopBound s (PGROUNDDOWN va) pa

/-- `mappages` as copied into `sysfile.c`, `proc.c` and `trap.c`: `pa` is a kernel address. -/
def mappagesV2P (s : Phys) (pgdir : Frame) (va size pa perm : Word) : Res (Bool × Phys) :=
  mappages s pgdir va size (V2P pa) perm

/-- The loop of `deallocuvm` at address `a`. -/
def deallocuvmLoop (L : Link) (pgdir : Frame) (oldsz : Word) : Nat → Phys → Word → Res Phys
  | 0, _, _ => .hang
  | n + 1, s, a =>
    if a < oldsz then
      match walkpgdir s pgdir a false with
      | (none, s) =>
        -- no page table: skip to the last page of the slot, the loop adds the rest
        deallocuvmLoop L pgdir oldsz n s
          (PGADDR ((PDX a).setWidth 32 + 1) - PGSIZE + PGSIZE)
      | (some (t, i), s) =>
        let pte := s.mem t i
        if pte &&& PTE_P ≠ 0#32 then
          if PTE_ADDR pte = 0#32 then .panic .kfree
          else do
            let s ← kfree L s (P2V (PTE_ADDR pte))
            deallocuvmLoop L pgdir oldsz n (s.store t i 0) (a + PGSIZE)
        else deallocuvmLoop L pgdir oldsz n s (a + PGSIZE)
    else .ok s

/-- `deallocuvm(pgdir, oldsz, newsz)`. -/
def deallocuvm (L : Link) (s : Phys) (pgdir : Frame) (oldsz newsz : Word) : Res (Word × Phys) :=
  if oldsz ≤ newsz then .ok (oldsz, s)
  else do
    let s ← deallocuvmLoop L pgdir oldsz loopBound s (PGROUNDUP newsz)
    return (newsz, s)

/-- The loop of `allocuvm` at address `a`; on failure everything up to `newsz` is
    deallocated again and the result is 0. -/
def allocuvmLoop (L : Link) (pgdir : Frame) (oldsz newsz : Word) :
    Nat → Phys → Word → Res (Word × Phys)
  | 0, _, _ => .hang
  | n + 1, s, a =>
    if a < newsz then
      match kalloc s with
      | (none, s) => do
        let (_, s) ← deallocuvm L s pgdir newsz oldsz
        return (0, s)
      | (some mem, s) => do
        let s := s.memset mem 0
        let (mapped, s) ← mappages s pgdir a PGSIZE (base mem) (PTE_W ||| PTE_U)
        if mapped then allocuvmLoop L pgdir oldsz newsz n s (a + PGSIZE)
        else do
          let (_, s) ← deallocuvm L s pgdir newsz oldsz
          let s ← kfree L s (P2V (base mem))
          return (0, s)
    else .ok (newsz, s)

/-- `allocuvm(pgdir, oldsz, newsz)`. -/
def allocuvm (L : Link) (s : Phys) (pgdir : Frame) (oldsz newsz : Word) : Res (Word × Phys) :=
  if KERNBASE ≤ newsz then .ok (0, s)
  else if newsz < oldsz then .ok (oldsz, s)
  else allocuvmLoop L pgdir oldsz newsz loopBound s (PGROUNDUP oldsz)

/-- The loop of `freevm` over the directory's slots, `n` of them left. -/
def freevmLoop (L : Link) (pgdir : Frame) : Nat → Phys → Res Phys
  | 0, s => .ok s
  | n + 1, s =>
    let pde := s.mem pgdir (BitVec.ofNat 10 (1024 - (n + 1)))
    if pde &&& PTE_P ≠ 0#32 then do
      let s ← kfree L s (P2V (PTE_ADDR pde))
      freevmLoop L pgdir n s
    else freevmLoop L pgdir n s

/-- `freevm(pgdir)`. -/
def freevm (L : Link) (s : Phys) (pgdir : Frame) : Res Phys := do
  let (_, s) ← deallocuvm L s pgdir KERNBASE 0
  let s ← freevmLoop L pgdir 1024 s
  kfree L s (P2V (base pgdir))

/-- A line of the table `kmap`. -/
structure Kmap where
  virt : Word
  phys_start : Word
  phys_end : Word
  perm : Word

/-- The kernel's mappings, present in every process's page table. -/
def kmap (L : Link) : List Kmap :=
  [ ⟨KERNBASE, 0, EXTMEM, PTE_W⟩,
    ⟨KERNLINK, V2P KERNLINK, V2P L.data, 0⟩,
    ⟨L.data, V2P L.data, PHYSTOP, PTE_W⟩,
    ⟨DEVSPACE, DEVSPACE, 0, PTE_W⟩ ]

/-- The loop of `setupkvm` over the lines of `kmap`. -/
def setupkvmLoop (L : Link) (pgdir : Frame) : List Kmap → Phys → Res (Bool × Phys)
  | [], s => .ok (true, s)
  | k :: ks, s => do
    let (mapped, s) ← mappages s pgdir k.virt (k.phys_end - k.phys_start) k.phys_start k.perm
    if mapped then setupkvmLoop L pgdir ks s
    else do
      let s ← freevm L s pgdir
      return (false, s)

/-- `setupkvm()`; none for a null result.  (`PHYSTOP` is not too high.) -/
def setupkvm (L : Link) (s : Phys) : Res (Option Frame × Phys) :=
  match kalloc s with
  | (none, s) => .ok (none, s)
  | (some pgdir, s) => do
    let (mapped, s) ← setupkvmLoop L pgdir (kmap L) (s.memset pgdir 0)
    return (if mapped then some pgdir else none, s)

/-- The loop of `copyuvm` at address `i`: copies the page of `pgdir` into a new frame of
    `d`.  The result is false where the code goes to `bad`. -/
def copyuvmLoop (L : Link) (pgdir d : Frame) (sz : Word) : Nat → Phys → Word → Res (Bool × Phys)
  | 0, _, _ => .hang
  | n + 1, s, i =>
    if i < sz then
      match walkpgdir s pgdir i false with
      | (none, _) => .panic .copyuvmExist
      | (some (t, j), s) =>
        let pte := s.mem t j
        if pte &&& PTE_P = 0#32 then .panic .copyuvmPresent
        else
          match kalloc s with
          | (none, s) => .ok (false, s)
          | (some mem, s) => do
            let s := { s with mem := Function.update s.mem mem (s.mem (frameOf pte)) }
            let (mapped, s) ← mappages s d i PGSIZE (base mem) (PTE_FLAGS pte)
            if mapped then copyuvmLoop L pgdir d sz n s (i + PGSIZE)
            else do
              let s ← kfree L s (P2V (base mem))
              return (false, s)
    else .ok (true, s)

/-- `copyuvm(pgdir, sz)`; none for a null result. -/
def copyuvm (L : Link) (s : Phys) (pgdir : Frame) (sz : Word) : Res (Option Frame × Phys) := do
  let (d, s) ← setupkvm L s
  match d with
  | none => return (none, s)
  | some d =>
    let (copied, s) ← copyuvmLoop L pgdir d sz loopBound s 0
    if copied then return (some d, s)
    else
      let s ← freevm L s d
      return (none, s)

end Xv6
