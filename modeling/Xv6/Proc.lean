import Xv6.Mmap

namespace Xv6.Kernel

/-!
# Processes (`proc.c`)

`growproc` and `fork`, without what `fork` does to the trap frame, the current directory and
the name.
-/

/-- The first free slot of the process table. -/
def unused (k : Kernel) : Option Slot :=
  (List.finRange NPROC).find? (fun q => (k.proc q).state = .UNUSED)

/-- `allocproc()`; none for a null result. -/
def allocproc (k : Kernel) : Option Slot × Kernel :=
  match k.unused with
  | none => (none, k)
  | some np =>
    let k := { k.setProc np { k.proc np with state := .EMBRYO, pid := k.nextpid } with
      nextpid := k.nextpid + 1 }
    -- allocate kernel stack
    match kalloc k.phys with
    | (none, _) => (none, k.setProc np { k.proc np with kstack := none, state := .UNUSED })
    | (some f, s) =>
      (some np, ({ k with phys := s } : Kernel).setProc np { k.proc np with kstack := some f })

/-- `growproc(n)`: 0, or -1. -/
def growproc (L : Link) (k : Kernel) (p : Slot) (n : Word) : Res (Word × Kernel) := do
  let sz := (k.proc p).sz
  if 0 < n.toInt then
    let (sz, s) ← allocuvm L k.phys (k.proc p).pgdir sz (sz + n)
    let k := { k with phys := s }
    if sz = 0#32 then return (-1, k) else return (0, k.setProc p { k.proc p with sz := sz })
  else if n.toInt < 0 then
    let (sz, s) ← deallocuvm L k.phys (k.proc p).pgdir sz (sz + n)
    let k := { k with phys := s }
    if sz = 0#32 then return (-1, k) else return (0, k.setProc p { k.proc p with sz := sz })
  else return (0, k)

/-! ### `fork` -/

/-- `for(i = 0; i < NOFILE; i++) if(curproc->ofile[i]) …`, the descriptors of `fds` left. -/
def forkFiles (p np : Slot) : List (Fin NOFILE) → Kernel → Res Kernel
  | [], k => .ok k
  | fd :: fds, k =>
    match (k.proc p).ofile fd with
    | none => forkFiles p np fds k
    | some i => do
      let k ← k.filedup i
      forkFiles p np fds
        (k.setProc np { k.proc np with ofile := Function.update (k.proc np).ofile fd (some i) })

/-- The page loop of a `MAP_SHARED` area: every page is mapped to `pa`. -/
def forkShared (L : Link) (p np : Slot) (end_ pa prot : Word) : Nat → Kernel → Word → Res Kernel
  | 0, _, _ => .hang
  | n + 1, k, i =>
    if i < end_ then do
      let (mapped, s) ← mappagesV2P k.phys (k.proc np).pgdir i PGSIZE pa (prot ||| PTE_U)
      let k := { k with phys := s }
      let k ←
        if mapped then .ok (k.grant np i (k.granted p (frameOf i)))
        else (kfree L k.phys pa >>= fun s => pure (({ k with phys := s } : Kernel).kill np))
      forkShared L p np end_ pa prot n k (i + PGSIZE)
    else .ok k

/-- One page of a `MAP_PRIVATE` area: it is copied to a new frame of the child. -/
def forkPage (L : Link) (k : Kernel) (p np : Slot) (prot i : Word) : Res Kernel :=
  match kalloc k.phys with
  | (none, _) => .panic .kalloc
  | (some pa, s) =>
    match walkpgdir s (k.proc p).pgdir i false with
    | (none, _) => .wild
    | (some (t, j), s) => do
      let s := { s with mem := Function.update s.mem pa (s.mem (frameOf (s.mem t j))) }
      let (mapped, s) ← mappagesV2P s (k.proc np).pgdir i PGSIZE (P2V (base pa)) (prot ||| PTE_U)
      let k := { k with phys := s }
      if mapped then return k.grant np i (some pa)
      else
        let s ← kfree L k.phys (P2V (base pa))
        return ({ k with phys := s } : Kernel).kill np

/-- The page loop of a `MAP_PRIVATE` area. -/
def forkPrivate (L : Link) (p np : Slot) (end_ prot : Word) : Nat → Kernel → Word → Res Kernel
  | 0, _, _ => .hang
  | n + 1, k, i =>
    if i < end_ then do
      let k ← k.forkPage L p np prot i
      forkPrivate L p np end_ prot n k (i + PGSIZE)
    else .ok k

/-- The loop of `fork` over the areas of the parent. -/
def forkAreas (L : Link) (p np : Slot) : Nat → Kernel → VmaPtr → Res Kernel
  | 0, _, _ => .hang
  | n + 1, k, curr => do
    let c ← k.deref curr
    if c.start = MAX_ADDR then return k
    else
      let k ←
        if c.flags &&& MAP_SHARED ≠ 0#32 then
          forkShared L p np c.end_ c.pa c.prot loopBound k c.start
        else if c.flags &&& MAP_PRIVATE ≠ 0#32 then
          forkPrivate L p np c.end_ c.prot loopBound k c.start
        else .ok k
      forkAreas L p np n k c.next

/-- `fork()`: the child's slot, none for -1.  The areas of the child are never set: its
    `head` and `tail` are what the slot's last process left there. -/
def fork (L : Link) (k : Kernel) (p : Slot) : Res (Option Slot × Kernel) :=
  match k.allocproc with
  | (none, k) => .ok (none, k)
  | (some np, k) => do
    let (d, s) ← copyuvm L k.phys (k.proc p).pgdir (k.proc p).sz
    let k := { k with phys := s }
    match d with
    | none =>
      let s ← match (k.proc np).kstack with
        | none => .wild
        | some f => kfree L k.phys (P2V (base f))
      let k := { k with phys := s }
      return (none, k.setProc np { k.proc np with kstack := none, state := .UNUSED })
    | some d =>
      let k := k.setProc np { k.proc np with pgdir := d, sz := (k.proc p).sz, parent := some p }
      let k ← forkFiles p np (List.finRange NOFILE) k
      let k ← forkAreas L p np loopBound k (.head p)
      return (some np, k.setProc np { k.proc np with state := .RUNNABLE })

end Xv6.Kernel
