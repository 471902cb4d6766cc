import Mathlib.Logic.Function.Basic

namespace Xv6

open Function

/-!
# Items and the places that hold them

Items are numbers; those from `lo` on and below `hi` are handed out one at a time, and 0 stands for
no item.  `tab k` is what place `k` holds, and `used` marks the items in use.

* `Owned` — an item is marked exactly when a place holds it, and one place only;
* `Owned.claim`, `Owned.release` — an unused item goes to an empty place, and back.
-/

/-- Items below `lo` are never handed out; of the others, those in use are held by one place. -/
structure Owned {κ : Type} (lo hi : Nat) (used : Nat → Bool) (tab : κ → Nat) : Prop where
  pos : 0 < lo
  low : ∀ b, b < lo → used b = true
  range : ∀ k, tab k ≠ 0 → lo ≤ tab k ∧ tab k < hi
  marked : ∀ k, tab k ≠ 0 → used (tab k) = true
  inj : ∀ k k', tab k ≠ 0 → tab k = tab k' → k = k'
  owner : ∀ b, lo ≤ b → b < hi → used b = true → ∃ k, tab k = b

namespace Owned

variable {κ : Type} {lo hi b : Nat} {used : Nat → Bool} {tab : κ → Nat} {k : κ}

/-- An item that is not in use is held nowhere. -/
theorem ne_of_unused (h : Owned lo hi used tab) (hb : used b = false) (hk : tab k ≠ 0) :
    tab k ≠ b := by
  rintro rfl
  rw [h.marked k hk] at hb
  cases hb

theorem le_of_unused (h : Owned lo hi used tab) (hb : used b = false) : lo ≤ b := by
  by_contra hlt
  rw [h.low b (by omega)] at hb
  cases hb

variable [DecidableEq κ]

/-- An unused item is put into an empty place. -/
theorem claim (h : Owned lo hi used tab) (hhi : b < hi) (hb : used b = false) (hk : tab k = 0) :
    Owned lo hi (update used b true) (update tab k b) := by
  have hlo := h.le_of_unused hb
  refine ⟨h.pos, fun c hc => ?_, fun k' => ?_, fun k' => ?_, fun k1 k2 => ?_,
    fun c hlo' hhi' hc => ?_⟩
  · rw [update_of_ne (by omega)]
    exact h.low c hc
  · by_cases hkk : k' = k
    · rw [hkk, update_self]
      exact fun _ => ⟨hlo, hhi⟩
    · rw [update_of_ne hkk]
      exact h.range k'
  · by_cases hkk : k' = k
    · rw [hkk, update_self, update_self]
      exact fun _ => rfl
    · simp_all [update_of_ne, h.ne_of_unused, h.marked]
  · by_cases h1 : k1 = k
    · by_cases h2 : k2 = k
      · exact fun _ _ => h1.trans h2.symm
      · grind [update_self, update_of_ne, h.ne_of_unused]
    · by_cases h2 : k2 = k
      · rw [h2, update_self, update_of_ne h1]
        exact fun hne he => absurd he (h.ne_of_unused hb hne)
      · rw [update_of_ne h1, update_of_ne h2]
        exact h.inj k1 k2
  · by_cases hcb : c = b
    · exact ⟨k, by rw [update_self, hcb]⟩
    · rw [update_of_ne hcb] at hc
      obtain ⟨k', hk'⟩ := h.owner c hlo' hhi' hc
      have hpos := h.pos
      have hkk : k' ≠ k := by
        rintro rfl
        omega
      exact ⟨k', by rw [update_of_ne hkk, hk']⟩

/-- A place gives its item back. -/
theorem release (h : Owned lo hi used tab) (hk : tab k ≠ 0) :
    Owned lo hi (update used (tab k) false) (update tab k 0) := by
  have hrange := h.range k hk
  have hother (k' : κ) (hkk : k' ≠ k) (hne : tab k' ≠ 0) : tab k' ≠ tab k :=
    fun he => hkk (h.inj k' k hne he)
  refine ⟨h.pos, fun c hc => ?_, fun k' => ?_, fun k' => ?_, fun k1 k2 => ?_,
    fun c hlo' hhi' hc => ?_⟩
  · rw [update_of_ne (by omega)]
    exact h.low c hc
  · by_cases hkk : k' = k
    · rw [hkk, update_self]
      exact fun hne => absurd rfl hne
    · rw [update_of_ne hkk]
      exact h.range k'
  · by_cases hkk : k' = k
    · rw [hkk, update_self]
      exact fun hne => absurd rfl hne
    · simp_all [update_of_ne, h.marked]
  · by_cases h1 : k1 = k
    · rw [h1, update_self]
      exact fun hne => absurd rfl hne
    · rw [update_of_ne h1]
      intro hne he
      by_cases h2 : k2 = k
      · rw [h2, update_self] at he
        exact absurd he hne
      · rw [update_of_ne h2] at he
        exact h.inj k1 k2 hne he
  · have hcb : c ≠ tab k := by
      rintro rfl
      rw [update_self] at hc
      cases hc
    rw [update_of_ne hcb] at hc
    obtain ⟨k', hk'⟩ := h.owner c hlo' hhi' hc
    have hkk : k' ≠ k := by
      rintro rfl
      exact hcb hk'.symm
    exact ⟨k', by rw [update_of_ne hkk, hk']⟩

end Owned

end Xv6
