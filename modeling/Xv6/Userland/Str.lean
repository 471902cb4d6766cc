import Xv6.Lib.Words
import Mathlib.Data.List.TakeWhile

namespace Xv6.Userland

open List Option

/-!
# Strings of user programs

A pointer to a string is the list of the bytes from there on, `p[0]` its head.  Behind the end of
the list there are zeros.

* `cstr p` — the string at `p`: the bytes before the first 0;
* `cstr_cases` — a string is empty or goes on;
* `strchr_some`, `strchr_none` — what `strchr` finds.
-/

/-- A character constant. -/
def ch (c : Char) : Byte := BitVec.ofNat 8 c.toNat

/-- `*p` -/
def deref (p : List Byte) : Byte := p.headD 0

/-- The string at `p`. -/
def cstr (p : List Byte) : List Byte := p.takeWhile (· ≠ 0#8)

variable {p : List Byte} {b : Byte}
variable {q : List Byte} {c : Byte}

@[simp] theorem cstr_nil : cstr [] = [] := rfl

@[simp] theorem cstr_zero : cstr (0#8 :: p) = [] := rfl

theorem cstr_cons (h : b ≠ 0#8) : cstr (b :: p) = b :: cstr p := by
  simp [cstr, h]

@[simp] theorem deref_cons : deref (b :: p) = b := rfl

/-- At the end of the string is a zero, and before it a letter that is none. -/
theorem cstr_cases (p : List Byte) : deref p = 0#8 ∧ cstr p = [] ∨
      ∃ b q, b ≠ 0#8 ∧ p = b :: q ∧ deref p = b ∧ cstr p = b :: cstr q := by
  cases p with
  | nil => exact .inl ⟨rfl, rfl⟩
  | cons b q =>
    by_cases hb : b = 0#8
    · subst hb
      exact .inl ⟨rfl, rfl⟩
    · exact .inr ⟨b, q, hb, rfl, rfl, cstr_cons hb⟩

theorem length_pos_of_deref (h : deref p ≠ 0#8) : 0 < p.length := by
  cases p with
  | nil => exact absurd rfl h
  | cons b q => simp

/-- Bytes that are no zeros in front of a string. -/
theorem cstr_append (h : 0#8 ∉ p) : cstr (p ++ q) = p ++ cstr q := by
  unfold cstr
  apply takeWhile_append_of_pos
  intro b hb
  simp only [decide_eq_true_eq]
  rintro rfl
  exact h hb

/-- A string with no zero in it is itself. -/
theorem cstr_of_notMem (h : 0#8 ∉ p) : cstr p = p := by
  rw [← append_nil p, cstr_append h, cstr_nil]

/-- What is before a zero. -/
theorem cstr_append_zero (h : 0#8 ∉ p) : cstr (p ++ 0#8 :: q) = p := by
  rw [cstr_append h, cstr_zero, append_nil]

/-- `strchr(s, c)`: how far behind `s` the letter is. -/
def strchr : (s : List Byte) → (c : Byte) → Option Nat
  | [], _ => none
  | b :: s, c => if b = 0#8 then none else if b = c then some 0 else (strchr s c).map (· + 1)

/-- `strchr` returns the first place where the letter is, in the string. -/
theorem strchr_some {q : Nat} (h : strchr p c = some q) :
    ∃ before rest, p = before ++ c :: rest ∧ before.length = q ∧ c ∉ before ∧ 0#8 ∉ before := by
  induction p generalizing q with
  | nil => cases h
  | cons b p ih =>
    rw [strchr] at h
    by_cases hb : b = 0#8
    · rw [if_pos hb] at h
      cases h
    rw [if_neg hb] at h
    by_cases hc : b = c
    · rw [if_pos hc] at h
      cases h
      exact ⟨[], p, by rw [hc]; rfl, rfl, not_mem_nil, not_mem_nil⟩
    · rw [if_neg hc, map_eq_some_iff] at h
      obtain ⟨q', hq, rfl⟩ := h
      obtain ⟨before, rest, rfl, rfl, hnot, hzero⟩ := ih hq
      refine ⟨b :: before, rest, rfl, rfl, ?_, ?_⟩
      · simp only [mem_cons, not_or]
        exact ⟨Ne.symm hc, hnot⟩
      · simp only [mem_cons, not_or]
        exact ⟨Ne.symm hb, hzero⟩

theorem strchr_none : strchr p c = none ↔ c ∉ cstr p := by
  induction p with
  | nil => simp [strchr]
  | cons b p ih =>
    rw [strchr]
    by_cases hb : b = 0#8
    · rw [if_pos hb, hb, cstr_zero]
      simp
    rw [if_neg hb, cstr_cons hb]
    by_cases hc : b = c
    · rw [if_pos hc, hc]
      simp
    · rw [if_neg hc, map_eq_none_iff, ih, mem_cons, not_or]
      exact (and_iff_right (Ne.symm hc)).symm

end Xv6.Userland
