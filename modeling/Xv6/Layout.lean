import Xv6.Lib.Words
import Xv6.Param

namespace Xv6

/-!
# Layout of the address space

The constants of `mmu.h`, `memlayout.h` and `mmap.h`, and the two symbols the linker script
`kernel.ld` supplies.
-/

/-! ### `mmu.h` -/

/-- Bytes mapped by a page. -/
def PGSIZE : Word := 4096

/-- Present. -/
def PTE_P : Word := 0x001

/-- Writeable. -/
def PTE_W : Word := 0x002

/-- User. -/
def PTE_U : Word := 0x004

/-- `PDX(va)`: page directory index. -/
def PDX (va : Word) : Idx := (va >>> 22).setWidth 10

/-- `PTX(va)`: page table index. -/
def PTX (va : Word) : Idx := (va >>> 12).setWidth 10

/-- `PGADDR(d, 0, 0)`; `d` is an `int`, so a directory index of 1024 wraps to address 0. -/
def PGADDR (d : Word) : Word := d <<< 22

/-- The page boundary at or after `sz`. -/
def PGROUNDUP (sz : Word) : Word := (sz + 4095#32) &&& ~~~4095#32

/-- The page `a` lies in. -/
def PGROUNDDOWN (a : Word) : Word := a &&& ~~~4095#32

/-- `PTE_ADDR(pte)`: the physical address in an entry. -/
def PTE_ADDR (pte : Word) : Word := pte &&& ~~~0xFFF#32

/-- `PTE_FLAGS(pte)`: the flag bits of an entry. -/
def PTE_FLAGS (pte : Word) : Word := pte &&& 0xFFF#32

/-! ### `memlayout.h` -/

/-- Start of extended memory. -/
def EXTMEM : Word := 0x100000

/-- Top physical memory. -/
def PHYSTOP : Word := 0xE000000

/-- Other devices are at high addresses. -/
def DEVSPACE : Word := 0xFE000000

/-- First kernel virtual address. -/
def KERNBASE : Word := 0x80000000

/-- Address where kernel is linked. -/
def KERNLINK : Word := KERNBASE + EXTMEM

/-- `V2P(a)`. -/
def V2P (a : Word) : Word := a - KERNBASE

/-- `P2V(a)`. -/
def P2V (a : Word) : Word := a + KERNBASE

/-! ### `mmap.h` -/

/-- Not shared. -/
def MAP_PRIVATE : Word := 0x0001

/-- Shared. -/
def MAP_SHARED : Word := 0x0002

/-- No file behind it. -/
def MAP_ANON : Word := 0x0004

/-- Exactly at `addr`. -/
def MAP_FIXED : Word := 0x0008

/-- With a guard page. -/
def MAP_GROWSUP : Word := 0x0010

/-- Pages are writable. -/
def PROT_WRITE : Word := 0x2

/-- End of the mmap range. -/
def MAX_ADDR : Word := 0x80000000

/-- Start of the mmap range. -/
def MIN_ADDR : Word := 0x60000000

/-! ### The linker script -/

/-- The kernel's own symbols `data` (start of its writable data) and `end` (first address
    after it), with what `kernel.ld` promises of them: the text before `data` is not empty
    and `data` starts a page; the kernel ends below the top of physical memory. -/
structure Link where
  data : Word
  end_ : Word
  data_aligned : data.toNat % 4096 = 0
  data_gt : KERNLINK.toNat < data.toNat
  data_le : data.toNat ≤ end_.toNat
  end_lt : end_.toNat < (P2V PHYSTOP).toNat

/-! ### The operations as arithmetic -/

theorem toNat_PGSIZE : PGSIZE.toNat = 4096 := rfl

theorem toNat_KERNBASE : KERNBASE.toNat = 0x80000000 := rfl

theorem toNat_MAX_ADDR : MAX_ADDR.toNat = 0x80000000 := rfl

theorem toNat_PDX (va : Word) : (PDX va).toNat = va.toNat / 2 ^ 22 := toNat_hi va

theorem toNat_PTX (va : Word) : (PTX va).toNat = va.toNat / 4096 % 1024 := toNat_lo va

/-- The two indices name the page. -/
theorem PDX_PTX_eq_iff (a b : Word) : (PDX a = PDX b ∧ PTX a = PTX b) ↔ frameOf a = frameOf b :=
  hi_lo_eq_iff a b

theorem toNat_PGROUNDDOWN (a : Word) : (PGROUNDDOWN a).toNat = a.toNat / 4096 * 4096 :=
  toNat_and_not_low a

/-- The sum wraps at `2 ^ 32`. -/
theorem toNat_PGROUNDUP (a : Word) :
    (PGROUNDUP a).toNat = (a.toNat + 4095) % 2 ^ 32 / 4096 * 4096 := by
  unfold PGROUNDUP
  rw [toNat_and_not_low, BitVec.toNat_add]
  rfl

/-- What `create_vma` computes as the end of an area is the last byte of a page. -/
theorem toNat_PGROUNDUP_sub_one (a : Word) : ((PGROUNDUP a - 1).toNat + 1) % 4096 = 0 := by
  grind [toNat_PGROUNDUP, PGROUNDUP]

theorem toNat_PGROUNDUP_mod (a : Word) : (PGROUNDUP a).toNat % 4096 = 0 := by
  rw [toNat_PGROUNDUP]
  omega

theorem PGROUNDDOWN_of_aligned {a : Word} (h : a.toNat % 4096 = 0) : PGROUNDDOWN a = a := by
  apply BitVec.eq_of_toNat_eq
  rw [toNat_PGROUNDDOWN]
  omega

/-- The addresses of the page that starts at `i`. -/
theorem frameOf_eq_iff {i : Word} (hi : i.toNat % 4096 = 0) (va : Word) :
    frameOf va = frameOf i ↔ i.toNat ≤ va.toNat ∧ va.toNat < i.toNat + 4096 := by
  rw [← BitVec.toNat_inj, toNat_frameOf, toNat_frameOf]
  omega

/-- Every address of a page rounds to it. -/
theorem PGROUNDDOWN_of_page {i va : Word} (hi : i.toNat % 4096 = 0) (h : frameOf va = frameOf i) :
    PGROUNDDOWN va = i := by
  have := (frameOf_eq_iff hi va).mp h
  apply BitVec.eq_of_toNat_eq
  rw [toNat_PGROUNDDOWN]
  omega

/-- The next page. -/
theorem toNat_add_PGSIZE (va : Word) (h : va.toNat + 4096 < 2 ^ 32) :
    (va + PGSIZE).toNat = va.toNat + 4096 := by
  rw [BitVec.toNat_add, toNat_PGSIZE]
  omega

theorem toNat_PTE_ADDR (w : Word) : (PTE_ADDR w).toNat = w.toNat / 4096 * 4096 :=
  toNat_and_not_low w

theorem base_frameOf (w : Word) : base (frameOf w) = PTE_ADDR w := by
  apply BitVec.eq_of_toNat_eq
  rw [toNat_base, toNat_frameOf, toNat_PTE_ADDR]

@[simp] theorem V2P_P2V (a : Word) : V2P (P2V a) = a := by
  rw [V2P, P2V, BitVec.add_sub_cancel]

/-- Below `PHYSTOP` `P2V` does not wrap. -/
theorem toNat_P2V_base {f : Frame} (h : f.toNat < PHYSTOP.toNat / 4096) :
    (P2V (base f)).toNat = f.toNat * 4096 + 2 ^ 31 := by
  have hb := toNat_base f
  have hp : PHYSTOP.toNat = 0xE000000 := rfl
  rw [P2V, BitVec.toNat_add, hb, toNat_KERNBASE]
  omega

/-- The present bit of a word. -/
theorem and_PTE_P_ne_zero_iff (w : Word) : w &&& PTE_P ≠ 0#32 ↔ w.getLsbD 0 = true := by
  rw [← not_iff_not, not_not, Bool.not_eq_true]
  constructor
  · intro h
    have := congrArg (fun v : Word => v.getLsbD 0) h
    simpa [PTE_P] using this
  · intro h
    ext i hi
    rcases Nat.eq_zero_or_pos i with rfl | hpos
    · simpa [PTE_P, BitVec.getLsbD_eq_getElem] using h
    · have h1 : (PTE_P).getLsbD i = false := by
        simp only [PTE_P, BitVec.ofNat_eq_ofNat]
        interval_cases i <;> rfl
      simp [← BitVec.getLsbD_eq_getElem, h1]

@[simp] theorem or_PTE_P_and_PTE_P_ne_zero (w : Word) : (w ||| PTE_P) &&& PTE_P ≠ 0#32 := by
  rw [and_PTE_P_ne_zero_iff]
  simp [PTE_P]

end Xv6
