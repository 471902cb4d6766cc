import Xv6.Lib.Words

namespace Xv6.Userland

open Function

/-!
# `memmove`, in the kernel and in the user library

`string.c` looks at how the two ranges lie and copies from the end where that is needed; `ulib.c`
always copies from the start.

* `Moved` — what a call is for;
* `copyUp_byte` — copying from the start repeats the bytes between the two pointers;
* `copyDown_moved` — copying from the end is right when the destination is behind the source;
* `memmove_agrees_iff` — so the user library's version is right unless it repeats something.
-/

variable {m : Word → Byte} {d s dst src : Word} {n k : Nat}

/-! ### The code -/

/-- `while(n-- > 0) *d++ = *s++;` -/
def copyUp : (n : Nat) → (Word → Byte) → (d s : Word) → Word → Byte
  | 0, m, _, _ => m
  | n + 1, m, d, s => copyUp n (Function.update m d (m s)) (d + 1) (s + 1)

/-- `while(n-- > 0) *--d = *--s;` -/
def copyDown : (n : Nat) → (Word → Byte) → (d s : Word) → Word → Byte
  | 0, m, _, _ => m
  | n + 1, m, d, s => copyDown n (Function.update m (d - 1) (m (s - 1))) (d - 1) (s - 1)

/-- `memmove(dst, src, n)` of `string.c`, memory before and after. -/
def kmemmove (m : Word → Byte) (dst src n : Word) : Word → Byte :=
  if src < dst ∧ src + n > dst then copyDown n.toNat m (dst + n) (src + n)
  else copyUp n.toNat m dst src

/-- `memmove(vdst, vsrc, n)` of `ulib.c`, where `n` is an `int`. -/
def memmove (m : Word → Byte) (vdst vsrc n : Word) : Word → Byte :=
  copyUp n.toInt.toNat m vdst vsrc

/-! ### What it is for -/

/-- The `n` bytes at `dst` are those that were at `src`, and no other byte has changed. -/
structure Moved (m : Word → Byte) (dst src : Word) (n : Nat) (m' : Word → Byte) : Prop where
  bytes : ∀ k, k < n → m' (dst + BitVec.ofNat 32 k) = m (src + BitVec.ofNat 32 k)
  rest : ∀ a, (∀ k, k < n → a ≠ dst + BitVec.ofNat 32 k) → m' a = m a

/-- The `n` bytes at `src` repeat after `p` bytes. -/
def Repeats (m : Word → Byte) (src : Word) (n p : Nat) : Prop :=
  ∀ k, k < n → m (src + BitVec.ofNat 32 (k % p)) = m (src + BitVec.ofNat 32 k)

theorem add_succ (a : Word) (k : Nat) :
    a + 1 + BitVec.ofNat 32 k = a + BitVec.ofNat 32 (k + 1) := by
  rw [BitVec.add_assoc, BitVec.ofNat_add, BitVec.add_comm 1]
  rfl

/-- Two offsets from one pointer. -/
theorem add_ofNat_inj {a : Word} {j k : Nat} (hj : j < 2 ^ 32) (hk : k < 2 ^ 32)
    (h : a + BitVec.ofNat 32 j = a + BitVec.ofNat 32 k) : j = k := by
  have := congrArg BitVec.toNat ((BitVec.add_right_inj _).mp h)
  rw [BitVec.toNat_ofNat, BitVec.toNat_ofNat] at this
  omega

/-- Offsets from two pointers. -/
theorem add_ofNat_eq_iff {j : Nat} (hj : j < 2 ^ 32) (hk : k < 2 ^ 32) :
    s + BitVec.ofNat 32 k = d + BitVec.ofNat 32 j ↔ k = ((d - s).toNat + j) % 2 ^ 32 := by
  have hsub := BitVec.toNat_sub d s
  constructor
  · intro h
    have := congrArg BitVec.toNat h
    simp only [BitVec.toNat_add, BitVec.toNat_ofNat] at this
    omega
  · intro h
    apply BitVec.eq_of_toNat_eq
    simp only [BitVec.toNat_add, BitVec.toNat_ofNat]
    omega

/-! ### From the start -/

theorem copyUp_rest (a : Word) (h : ∀ k, k < n → a ≠ d + BitVec.ofNat 32 k) :
    copyUp n m d s a = m a := by
  induction n generalizing m d s with
  | zero => rfl
  | succ n ih =>
    have hd : a ≠ d := by simpa using h 0 (by omega)
    rw [copyUp, ih fun k hk => by rw [add_succ]; exact h (k + 1) (by omega), update_of_ne hd]

/-- With the destination `p` bytes behind the source, the first `p` bytes are repeated. -/
theorem copyUp_byte (hn : n ≤ 2 ^ 32) (hp : 0 < (d - s).toNat) (hk : k < n) :
    copyUp n m d s (d + BitVec.ofNat 32 k) = m (s + BitVec.ofNat 32 (k % (d - s).toNat)) := by
  induction n generalizing m d s k with
  | zero => omega
  | succ n ih =>
    rw [copyUp]
    cases k with
    | zero =>
      -- the byte is written now and not again
      rw [copyUp_rest _ fun j hj => ?_]
      · simp
      · grind
    | succ k =>
      have hsame : d + 1 - (s + 1) = d - s := by bv_omega
      rw [← add_succ, ih (by omega) (by rwa [hsame]) (by omega), hsame, add_succ]
      have hmod := Nat.mod_lt k hp
      have hnext : (k + 1) % (d - s).toNat = (k % (d - s).toNat + 1) % (d - s).toNat :=
        (Nat.mod_add_mod k (d - s).toNat 1).symm
      by_cases hlast : k % (d - s).toNat + 1 = (d - s).toNat
      · -- the source has come to the first byte written
        rw [hnext, hlast, Nat.mod_self, BitVec.ofNat_toNat, BitVec.setWidth_eq, BitVec.add_comm,
          BitVec.sub_add_cancel, update_self]
        simp
      · have hlt' : k % (d - s).toNat + 1 < (d - s).toNat := by omega
        rw [hnext, Nat.mod_eq_of_lt hlt', update_of_ne]
        intro h
        have h0 : s + BitVec.ofNat 32 (k % (d - s).toNat + 1) = d + BitVec.ofNat 32 0 := by
          simpa using h
        have := (add_ofNat_eq_iff (by omega) (by omega)).mp h0
        omega

/-- A copy onto itself. -/
theorem copyUp_self : copyUp n m d d = m := by
  induction n generalizing d with
  | zero => rfl
  | succ n ih => rw [copyUp, update_eq_self, ih]

/-- Copying from the start is right just if nothing that is repeated differs. -/
theorem copyUp_moved_iff (hn : n ≤ 2 ^ 32) : Moved m d s n (copyUp n m d s) ↔
    d = s ∨ n ≤ (d - s).toNat ∨ Repeats m s n (d - s).toNat := by
  by_cases hds : d = s
  · subst hds
    rw [copyUp_self]
    exact iff_of_true ⟨fun _ _ => rfl, fun _ _ => rfl⟩ (.inl rfl)
  have hp : 0 < (d - s).toNat := by
    rw [Nat.pos_iff_ne_zero]
    intro h0
    have hsub := BitVec.toNat_sub d s
    exact hds (BitVec.eq_of_toNat_eq (by omega))
  constructor
  · intro h
    right
    right
    intro k hk
    exact (copyUp_byte hn hp hk).symm.trans (h.bytes k hk)
  · rintro (h | h | h)
    · exact absurd h hds
    · refine ⟨fun k hk => ?_, fun a ha => copyUp_rest a ha⟩
      rw [copyUp_byte hn hp hk, Nat.mod_eq_of_lt (by omega)]
    · refine ⟨fun k hk => ?_, fun a ha => copyUp_rest a ha⟩
      rw [copyUp_byte hn hp hk, h k hk]

/-! ### From the end -/

/-- With the destination behind the source, bytes are read before they are written to. -/
theorem copyDown_moved (hp : 0 < (d - s).toNat) (hn : (d - s).toNat + n ≤ 2 ^ 32) :
    Moved m d s n (copyDown n m (d + BitVec.ofNat 32 n) (s + BitVec.ofNat 32 n)) := by
  induction n generalizing m with
  | zero => exact ⟨fun k hk => absurd hk (Nat.not_lt_zero k), fun _ _ => rfl⟩
  | succ n ih =>
    have hpred : ∀ a : Word, a + BitVec.ofNat 32 (n + 1) - 1 = a + BitVec.ofNat 32 n := by
      intro a
      rw [BitVec.ofNat_add, ← BitVec.add_assoc]
      exact BitVec.add_sub_cancel ..
    rw [copyDown, hpred, hpred]
    have w := ih (m := update m (d + BitVec.ofNat 32 n) (m (s + BitVec.ofNat 32 n))) (by omega)
    refine ⟨fun k hk => ?_, fun a ha => ?_⟩
    · by_cases hlast : k = n
      · -- the byte is written first and not again
        subst hlast
        rw [w.rest _ fun j hj h => ?_, update_self]
        have := add_ofNat_inj (by omega) (by omega) h
        omega
      · rw [w.bytes k (by omega), update_of_ne]
        intro h
        have := (add_ofNat_eq_iff (by omega) (by omega)).mp h
        omega
    · rw [w.rest a fun j hj => ha j (by omega), update_of_ne (ha n (by omega))]

/-! ### The two functions -/

/-- How far the destination is behind the source, if neither range wraps. -/
theorem toNat_dist {n : Nat} (hs : src.toNat + n ≤ 2 ^ 32) :
    dst = src ∨ n ≤ (dst - src).toNat ↔ dst ≤ src ∨ src.toNat + n ≤ dst.toNat := by
  have hsub := BitVec.toNat_sub dst src
  rw [BitVec.le_def, ← BitVec.toNat_inj]
  omega

theorem kmemmove_moved {n : Word} (hs : src.toNat + n.toNat ≤ 2 ^ 32)
    (hd : dst.toNat + n.toNat ≤ 2 ^ 32) : Moved m dst src n.toNat (kmemmove m dst src n) := by
  have hsub := BitVec.toNat_sub dst src
  unfold kmemmove
  split
  · rename_i hover
    have hlt : src.toNat < dst.toNat := hover.1
    have hw : n = BitVec.ofNat 32 n.toNat := by simp
    have hmoved : Moved m dst src n.toNat (copyDown n.toNat m (dst + BitVec.ofNat 32 n.toNat)
        (src + BitVec.ofNat 32 n.toNat)) := copyDown_moved (by omega) (by omega)
    rwa [← hw] at hmoved
  · rename_i hover
    rw [copyUp_moved_iff (by omega), ← or_assoc]
    left
    rw [toNat_dist hs, BitVec.le_def]
    by_contra hno
    refine hover ⟨BitVec.lt_def.mpr (by omega), BitVec.lt_def.mpr ?_⟩
    rw [BitVec.toNat_add]
    omega

/-- The kernel's `memmove` is right; the user library's is just if the destination does not begin
    inside the source, or the source repeats from there on. -/
theorem memmove_agrees_iff (m : Word → Byte) (dst src n : Word) (hs : src.toNat + n.toNat ≤ 2 ^ 32)
    (hd : dst.toNat + n.toNat ≤ 2 ^ 32) (hn : 0 ≤ n.toInt) :
    (Moved m dst src n.toNat (kmemmove m dst src n) ∧
      Moved m dst src n.toNat (memmove m dst src n)) ↔
    dst ≤ src ∨ src.toNat + n.toNat ≤ dst.toNat ∨ Repeats m src n.toNat (dst - src).toNat := by
  have hint : n.toInt.toNat = n.toNat := by
    rw [BitVec.toInt_eq_toNat_cond] at hn ⊢
    split
    · exact Int.toNat_natCast n.toNat
    · omega
  rw [and_iff_right (kmemmove_moved hs hd), memmove, hint, copyUp_moved_iff (by omega), ← or_assoc,
    toNat_dist hs, or_assoc]

/-- Four bytes, moved to just behind themselves. -/
theorem memmove_agrees_apart :
    Moved (fun a => a.setWidth 8) 14#32 10#32 4
        (kmemmove (fun a => a.setWidth 8) 14#32 10#32 4#32) ∧
      Moved (fun a => a.setWidth 8) 14#32 10#32 4
        (memmove (fun a => a.setWidth 8) 14#32 10#32 4#32) :=
  (memmove_agrees_iff (fun a => a.setWidth 8) 14#32 10#32 4#32 (by decide) (by decide)
    (by decide)).mpr (.inr (.inl (by decide)))

/-- Two bytes, moved up by one. -/
theorem memmove_repeats_byte :
    ¬ Moved (fun a => a.setWidth 8) 11#32 10#32 2
      (memmove (fun a => a.setWidth 8) 11#32 10#32 2#32) := by
  intro h
  have := h.bytes 1 (by decide)
  revert this
  decide

end Xv6.Userland
