import Mathlib.Logic.Function.Basic

namespace Xv6

open Function

/-!
# Maps kept in slots

A table of slots, the first `n` of which are in use or free again; a slot in use holds a key with
its value.

* `Stores n slot m` — no key is in two slots, and `m` is what they hold;
* `Stores.insert`, `Stores.erase` — a new key goes into a free slot, and a slot is freed.
-/

variable {κ ν : Type}

/-- The slots below `n` hold the map `m`, each key once. -/
structure Stores (n : Nat) (slot : Nat → Option (κ × ν)) (m : κ → Option ν) : Prop where
  once : ∀ j k x y, j < n → k < n → slot j = some x → slot k = some y → x.1 = y.1 → j = k
  iff : ∀ key v, m key = some v ↔ ∃ k, k < n ∧ slot k = some (key, v)

namespace Stores

variable {n k : Nat} {slot : Nat → Option (κ × ν)} {m : κ → Option ν} {key : κ} {v : ν}

theorem empty (slot : Nat → Option (κ × ν)) : Stores 0 slot fun _ => none :=
  ⟨fun _ _ _ _ hj => absurd hj (Nat.not_lt_zero _), fun _ _ => ⟨nofun, fun ⟨_, hk, _⟩ =>
    absurd hk (Nat.not_lt_zero _)⟩⟩

/-- A key that the map does not have is in no slot. -/
theorem absent (h : Stores n slot m) (hm : m key = none) (hk : k < n) : slot k ≠ some (key, v) := by
  intro hs
  rw [(h.iff key v).mpr ⟨k, hk, hs⟩] at hm
  cases hm

variable [DecidableEq κ]

/-- A new key is put into a slot that is free, or behind the last one. -/
theorem insert (h : Stores n slot m) (hm : m key = none) (hk : k ≤ n)
    (hfree : k < n → slot k = none) :
    Stores (max n (k + 1)) (update slot k (some (key, v))) (update m key (some v)) := by
  have hold (j : Nat) (hj : j < max n (k + 1)) (hne : j ≠ k) : j < n := by omega
  have hkey (j : Nat) (x : κ × ν) (hj : j < n) (hs : slot j = some x) : x.1 ≠ key := by
    rintro rfl
    exact h.absent hm hj hs
  refine ⟨fun i j x y hi hj hx hy hxy => ?_, fun key' v' => ?_⟩
  · by_cases hik : i = k
    · grind
    · by_cases hjk : j = k
      · grind
      · grind [update_of_ne, h.once]
  · by_cases hkk : key' = key
    · subst hkk
      rw [update_self]
      constructor
      · intro hv
        cases hv
        exact ⟨k, by omega, update_self ..⟩
      · grind
    · rw [update_of_ne hkk, h.iff]
      constructor
      · rintro ⟨j, hj, hs⟩
        have hjk : j ≠ k := by
          rintro rfl
          rw [hfree hj] at hs
          cases hs
        exact ⟨j, by omega, by rw [update_of_ne hjk]; exact hs⟩
      · grind

/-- A slot is freed. -/
theorem erase (h : Stores n slot m) (hk : k < n) (hs : slot k = some (key, v)) :
    Stores n (update slot k none) (update m key none) := by
  refine ⟨fun i j x y hi hj hx hy hxy => ?_, fun key' v' => ?_⟩
  · grind [update_self, update_of_ne, h.once]
  · by_cases hkk : key' = key
    · subst hkk
      rw [update_self]
      refine ⟨nofun, fun ⟨j, hj, hs'⟩ => ?_⟩
      by_cases hjk : j = k
      · rw [hjk, update_self] at hs'
        cases hs'
      · grind [update_of_ne, h.once]
    · rw [update_of_ne hkk, h.iff]
      constructor
      · rintro ⟨j, hj, hs'⟩
        have hjk : j ≠ k := by
          rintro rfl
          rw [hs] at hs'
          cases hs'
          exact hkk rfl
        exact ⟨j, hj, by rw [update_of_ne hjk]; exact hs'⟩
      · grind

end Stores

end Xv6
