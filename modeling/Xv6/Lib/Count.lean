import Mathlib.Algebra.BigOperators.Ring.Finset
import Mathlib.Algebra.Order.BigOperators.Group.Finset

namespace Xv6.Count

/-!
# Sums over a family, one member changing

For a finite family `f` and a weight `g` of its members, `total g f` is the sum of the
weights; with weights 0 and 1 it counts.  `total_update` says how it changes with one
member, `total_congr` when it stays, `weight_le` that no member weighs more than all.
-/

open scoped BigOperators
open Finset Function

variable {ι α : Type} [Fintype ι]

/-- The sum of the weights of all members. -/
def total (g : α → Nat) (f : ι → α) : Nat := ∑ i, g (f i)

variable {g : α → Nat} {f f' : ι → α} {i : ι}

theorem total_congr (h : ∀ i, g (f' i) = g (f i)) : total g f' = total g f :=
  sum_congr rfl fun i _ => h i

theorem total_eq_zero (h : ∀ i, g (f i) = 0) : total g f = 0 :=
  sum_eq_zero fun i _ => h i

theorem weight_le (g : α → Nat) (f : ι → α) (i : ι) : g (f i) ≤ total g f :=
  single_le_sum (fun j _ => Nat.zero_le (g (f j))) (mem_univ i)

/-- Two members together weigh no more than all. -/
theorem weight_add_le (g : α → Nat) (f : ι → α) {i j : ι} (h : i ≠ j) :
    g (f i) + g (f j) ≤ total g f := by
  classical
  unfold total
  rw [← add_sum_erase _ _ (mem_univ i)]
  have hj : j ∈ Finset.univ.erase i := mem_erase.mpr ⟨h.symm, mem_univ j⟩
  exact Nat.add_le_add_left
    (single_le_sum (f := fun k => g (f k)) (fun k _ => Nat.zero_le (g (f k))) hj) _

/-- Weights bounded by a multiple of those of another kind. -/
theorem total_le_mul {g' : α → Nat} {c : Nat} (h : ∀ i, g (f i) ≤ c * g' (f i)) :
    total g f ≤ c * total g' f := by
  unfold total
  rw [mul_sum]
  exact sum_le_sum fun i _ => h i

/-- One member changes its weight. -/
theorem total_update [DecidableEq ι] (g : α → Nat) (f : ι → α) (i : ι) (x : α) :
    total g (Function.update f i x) + g (f i) = total g f + g x := by
  unfold total
  rw [← add_sum_erase _ _ (mem_univ i), ← add_sum_erase _ (fun j => g (f j))
    (mem_univ i), update_self]
  have hrest : ∑ j ∈ Finset.univ.erase i, g (update f i x j)
      = ∑ j ∈ Finset.univ.erase i, g (f j) := by
    refine sum_congr rfl fun j hj => ?_
    rw [update_of_ne (ne_of_mem_erase hj)]
  rw [hrest]
  omega

end Xv6.Count
