import Mathlib.Data.BitVec
import Mathlib.Logic.Function.Basic

namespace Xv6.Ring

open Function List

/-!
# A ring buffer with counters that wrap

The buffer has `cap` cells.  `r` counts what was taken out and `n` what was put in, both modulo
`2 ^ w`; what a counter stands for is in the cell with its number modulo `cap`.

* `contents` — what is in the buffer, in the order in which it was put in;
* `contents_push`, `contents_pop` — one more, and one less;
* `contents_append`, `contents_back` — a counter in between, and one that goes back;
* `contents_push_before` — what is put in does not touch what is there.
-/

variable {α : Type} {w cap : Nat} [NeZero cap]

/-- The cell that a counter points to. -/
def cell (cap : Nat) [NeZero cap] (c : BitVec w) : Fin cap :=
  ⟨c.toNat % cap, Nat.mod_lt _ (Nat.pos_of_neZero cap)⟩

/-- What was put in and not yet taken out. -/
def contents (data : Fin cap → α) (r n : BitVec w) : List α :=
  (List.range (n - r).toNat).map fun k => data (cell cap (r + BitVec.ofNat w k))

@[simp] theorem contents_self (data : Fin cap → α) (r : BitVec w) : contents data r r = [] := by
  simp [contents]

@[simp] theorem length_contents (data : Fin cap → α) (r n : BitVec w) :
    (contents data r n).length = (n - r).toNat := by
  simp [contents]

variable {data : Fin cap → α} {r n : BitVec w}

/-- Counters wrap with the cells. -/
theorem val_cell_add (hcap : cap ∣ 2 ^ w) {k : Nat} :
    (cell cap (r + BitVec.ofNat w k)).val = (r.toNat + k) % cap := by
  simp only [cell, BitVec.toNat_add, BitVec.toNat_ofNat, Nat.add_mod_mod]
  exact Nat.mod_mod_of_dvd _ hcap

/-- Counters less than `cap` apart point to different cells. -/
theorem cell_add_ne (hcap : cap ∣ 2 ^ w) {j k : Nat} (hjk : j < k) (hk : k < cap) :
    cell cap (r + BitVec.ofNat w j) ≠ cell cap (r + BitVec.ofNat w k) := by
  intro e
  have h : (r.toNat + j) % cap = (r.toNat + k) % cap := by
    rw [← val_cell_add hcap, ← val_cell_add hcap, e]
  have hmod : j ≡ k [MOD cap] := Nat.ModEq.add_left_cancel' r.toNat h
  have : j = k := Nat.ModEq.eq_of_lt_of_lt hmod (by omega) hk
  omega

theorem add_sub_toNat : r + BitVec.ofNat w (n - r).toNat = n := by
  rw [BitVec.ofNat_toNat, BitVec.setWidth_eq, BitVec.add_comm, BitVec.sub_add_cancel]

/-- One more, if it does not wrap. -/
theorem toNat_push (h : (n - r).toNat + 1 < 2 ^ w) : (n + 1 - r).toNat = (n - r).toNat + 1 := by
  have e : n + 1 - r = n - r + 1#w := add_sub_right_comm n 1 r
  have h1 : (1 : Nat) % 2 ^ w = 1 := Nat.mod_eq_of_lt (by omega)
  rw [e, BitVec.toNat_add, BitVec.toNat_ofNat, h1, Nat.mod_eq_of_lt h]

/-- One less. -/
theorem toNat_pop (h : n ≠ r) : (n - (r + 1)).toNat + 1 = (n - r).toNat := by
  have hpos : (n - r).toNat ≠ 0 := by
    intro h0
    apply h
    rw [← add_sub_toNat (r := r) (n := n), h0, BitVec.add_zero]
  have e : n - (r + 1) = n - r - 1#w := sub_add_eq_sub_sub n r 1
  have hw : 1 < 2 ^ w := by
    omega
  have h1 : (1 : Nat) % 2 ^ w = 1 := Nat.mod_eq_of_lt hw
  have hle : (1#w).toNat ≤ (n - r).toNat := by
    rw [BitVec.toNat_ofNat, h1]
    omega
  rw [e, BitVec.toNat_sub_of_le hle, BitVec.toNat_ofNat, h1]
  omega

/-- One more is put in. -/
theorem contents_push (hcap : cap ∣ 2 ^ w) (hlt : cap < 2 ^ w) (h : (n - r).toNat < cap) (x : α) :
    contents (update data (cell cap n) x) r (n + 1) = contents data r n ++ [x] := by
  have hn : cell cap n = cell cap (r + BitVec.ofNat w (n - r).toNat) := by rw [add_sub_toNat]
  unfold contents
  rw [toNat_push (by omega), range_succ, map_append]
  congr 1
  · refine map_congr_left fun k hk => ?_
    rw [hn]
    exact update_of_ne (cell_add_ne hcap (mem_range.mp hk) h) ..
  · rw [map_singleton, ← hn, update_self]

/-- The first is taken out. -/
theorem contents_pop (h : n ≠ r) :
    contents data r n = data (cell cap r) :: contents data (r + 1) n := by
  unfold contents
  rw [← toNat_pop h, range_succ_eq_map, map_cons, map_map]
  congr 1
  · rw [BitVec.add_zero]
  · refine map_congr_left fun k _ => ?_
    have e : r + BitVec.ofNat w (k + 1) = r + 1 + BitVec.ofNat w k := by
      rw [BitVec.add_assoc, Nat.add_comm k 1, BitVec.ofNat_add]
      rfl
    simp only [comp, Nat.succ_eq_add_one, e]

/-! ### A third counter -/

variable {m : BitVec w}

/-- The way from `r` over `m` to `n`. -/
theorem toNat_split (h : (m - r).toNat + (n - m).toNat < 2 ^ w) :
    (n - r).toNat = (m - r).toNat + (n - m).toNat := by
  have e : n - r = m - r + (n - m) := (sub_add_sub_cancel' m r n).symm
  rw [e, BitVec.toNat_add, Nat.mod_eq_of_lt h]

/-- What is between `r` and `n` is what is on either side of `m`. -/
theorem contents_append (h : (m - r).toNat + (n - m).toNat < 2 ^ w) :
    contents data r n = contents data r m ++ contents data m n := by
  unfold contents
  rw [toNat_split h, range_add, map_append, map_map]
  congr 1
  refine map_congr_left fun k _ => ?_
  -- `m` is as far from `r` as the first part is long
  rw [comp, BitVec.ofNat_add, ← BitVec.add_assoc, add_sub_toNat]

/-- One less at the other end. -/
theorem toNat_back (h : n ≠ r) : (n - 1 - r).toNat + 1 = (n - r).toNat := by
  have e : n - 1 - r = n - (r + 1) := by rw [sub_sub, add_comm]
  rw [e, toNat_pop h]

/-- The counter goes back over the last one. -/
theorem contents_back (h : n ≠ r) :
    contents data r n = contents data r (n - 1) ++ [data (cell cap (n - 1))] := by
  have h1 := toNat_back h
  have h2 : n - 1 + 1 = n := BitVec.sub_add_cancel n 1
  have hne : n ≠ n - 1 := by
    intro e
    rw [← e] at h1
    omega
  have h3 : contents data (n - 1) n = [data (cell cap (n - 1))] := by
    rw [contents_pop hne, h2, contents_self]
  have hlast := toNat_pop hne
  rw [h2, BitVec.sub_self, BitVec.toNat_zero] at hlast
  rw [contents_append (by omega : (n - 1 - r).toNat + (n - (n - 1)).toNat < 2 ^ w), h3]

/-- What is put in at `n` leaves what is before `m` alone. -/
theorem contents_push_before (hcap : cap ∣ 2 ^ w) (hlt : cap < 2 ^ w)
    (h : (m - r).toNat + (n - m).toNat < cap) (x : α) :
    contents (update data (cell cap n) x) r m = contents data r m := by
  have hr : (n - r).toNat < cap := by
    rw [toNat_split (m := m) (by omega)]
    exact h
  have hm : (n - m).toNat < cap := by omega
  have h1 : contents (update data (cell cap n) x) r (n + 1) = contents data r n ++ [x] :=
    contents_push hcap hlt hr x
  have h2 : (m - r).toNat + (n + 1 - m).toNat < 2 ^ w := by
    rw [toNat_push (by omega)]
    omega
  rw [contents_append h2, contents_push hcap hlt hm,
    contents_append (m := m) (show (m - r).toNat + (n - m).toNat < 2 ^ w by omega),
    append_assoc] at h1
  exact append_cancel_right h1

end Xv6.Ring
