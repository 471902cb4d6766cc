import Mathlib.Data.Nat.Bitwise
import Mathlib.Tactic.IntervalCases

namespace Xv6

open BitVec

/-!
# 32-bit words and the pages they address

`uint` and `int` are both 32-bit words; a page is 4096 bytes, so a word splits into a
20-bit page number and a 12-bit offset, and a page holds 1024 words.  The lemmas give
each operation on words as arithmetic on `toNat`, where `omega` can finish.
-/

/-- A C `int` or `uint`: 32 bits, read signed or unsigned as the code reads it. -/
abbrev Word := BitVec 32

/-- The number of a page. -/
abbrev Frame := BitVec 20

/-- An index into the 1024 words of a page. -/
abbrev Idx := BitVec 10

/-- A byte. -/
abbrev Byte := BitVec 8

/-- The page a word addresses. -/
def frameOf (w : Word) : Frame := (w >>> 12).setWidth 20

/-- The address of a page's first byte. -/
def base (f : Frame) : Word := f.setWidth 32 <<< 12

theorem toNat_frameOf (w : Word) : (frameOf w).toNat = w.toNat / 4096 := by
  simp only [frameOf, toNat_setWidth, toNat_ushiftRight, Nat.shiftRight_eq_div_pow]
  omega

theorem toNat_base (f : Frame) : (base f).toNat = f.toNat * 4096 := by
  simp only [base, toNat_shiftLeft, toNat_setWidth, Nat.shiftLeft_eq]
  omega

@[simp] theorem frameOf_base (f : Frame) : frameOf (base f) = f := by
  apply eq_of_toNat_eq
  rw [toNat_frameOf, toNat_base]
  omega

/-- Frame by frame. -/
theorem frameOf_or (v w : Word) : frameOf (v ||| w) = frameOf v ||| frameOf w := by
  unfold frameOf
  ext i hi
  simp

variable {w : Word}

/-- Bits below the page offset do not name a page. -/
theorem frameOf_low (h : w.toNat < 4096) : frameOf w = 0#20 := by
  apply eq_of_toNat_eq
  rw [toNat_frameOf, toNat_ofNat]
  omega

/-- Flags in the low 12 bits leave the page number of an entry alone. -/
theorem frameOf_base_or {f : Frame} (h : w.toNat < 4096) : frameOf (base f ||| w) = f := by
  rw [frameOf_or, frameOf_base, frameOf_low h, or_zero]

/-- Masking off the low 12 bits rounds down to a page. -/
theorem toNat_and_not_low (x : Word) : (x &&& ~~~4095#32).toNat = x.toNat / 4096 * 4096 := by
  have h : x &&& ~~~4095#32 = (x >>> 12) <<< 12 := by
    ext i hi
    simp only [getElem_and, getElem_not, getElem_shiftLeft]
    interval_cases i <;> simp
  have := x.isLt
  rw [h, toNat_shiftLeft, toNat_ushiftRight, Nat.shiftLeft_eq, Nat.shiftRight_eq_div_pow]
  omega

/-- The top ten bits of an address: the slot of its table in the directory. -/
theorem toNat_hi (va : Word) : ((va >>> 22).setWidth 10 : Idx).toNat = va.toNat / 2 ^ 22 := by
  simp only [toNat_setWidth, toNat_ushiftRight, Nat.shiftRight_eq_div_pow]
  omega

/-- The next ten bits: the index of its entry in the table. -/
theorem toNat_lo (va : Word) : ((va >>> 12).setWidth 10 : Idx).toNat = va.toNat / 4096 % 1024 := by
  simp only [toNat_setWidth, toNat_ushiftRight, Nat.shiftRight_eq_div_pow]

/-- Slot and index together are the page number. -/
theorem hi_lo_eq_iff (a b : Word) : ((a >>> 22).setWidth 10 = ((b >>> 22).setWidth 10 : Idx)
      ∧ (a >>> 12).setWidth 10 = ((b >>> 12).setWidth 10 : Idx)) ↔ frameOf a = frameOf b := by
  rw [← toNat_inj, ← toNat_inj, ← toNat_inj, toNat_hi, toNat_hi, toNat_lo,
    toNat_lo, toNat_frameOf, toNat_frameOf]
  omega

/-! ### Bytes of a word -/

/-- Byte `o` of a word, least significant first. -/
def getByte (w : Word) (o : BitVec 2) : Byte := (w >>> (8 * o.toNat)).setWidth 8

/-- A word with byte `o` replaced. -/
def setByte (w : Word) (o : BitVec 2) (b : Byte) : Word :=
  (w &&& ~~~(0xFF#32 <<< (8 * o.toNat))) ||| (b.setWidth 32 <<< (8 * o.toNat))

/-- A byte of a word after another one, or the same, was replaced. -/
theorem byte_of_word (w : Word) (x : Byte) {a b : Nat} (ha : a < 4) (hb : b < 4) :
    (((w &&& ~~~(0xff#32 <<< (8 * a))) ||| (x.setWidth 32 <<< (8 * a))) >>> (8 * b)).setWidth 8
      = if b = a then x else (w >>> (8 * b)).setWidth 8 := by
  ext i hi
  interval_cases a <;> interval_cases b <;> simp <;> interval_cases i <;> simp

/-- One byte changes. -/
theorem getByte_setByte (w : Word) (o o' : BitVec 2) (b : Byte) :
    getByte (setByte w o b) o' = if o' = o then b else getByte w o' := by
  unfold getByte setByte
  rw [byte_of_word w b o.isLt o'.isLt]
  simp only [toNat_inj]

end Xv6
