import Mathlib.Data.List.Pairwise

namespace Xv6.Intervals

open List

/-!
# Intervals laid out in order, each with an estimate of the room after it

A `Seg` is an interval `[lo, hi)` of numbers with a claim `room` about the space after it.
`Laid top l` says that the intervals of `l` follow one another without overlap up to `top`
and that no claim is too small.  A claim may be too large: the lemmas on inserting an
interval do not use it to conclude that there *is* room.  The claim is counted from the last
member `hi - 1`, so it is at least one more than the room; a first interval that claims one
less than that is allowed as long as nothing after it claims anything.

* `Laid.pairwise` — the intervals of `l` are in order and pairwise disjoint;
* `Laid.insert` — an interval put into a gap;
* `Laid.swap` — an interval extended into the gap after it, or replaced;
* `Laid.reach` — where a first-fit search that trusts the claims stops.
-/

/-- The interval `[lo, hi)`, with a claim about the room after it, counted from its last
    member `hi - 1`. -/
structure Seg where
  lo : Nat
  hi : Nat
  room : Int
  deriving DecidableEq

/-- Where the first interval of the list starts, or `top`. -/
def nextLo (top : Nat) : List Seg → Nat
  | [] => top
  | s :: _ => s.lo

/-- The intervals follow one another up to `top`.  Each claims more than the room it has; one
    may claim exactly that if no later interval claims any. -/
def Laid (top : Nat) : List Seg → Prop
  | [] => True
  | s :: l => s.lo ≤ s.hi ∧ s.hi ≤ nextLo top l
      ∧ ((nextLo top l : Int) - s.hi < s.room
        ∨ (nextLo top l : Int) - s.hi = s.room ∧ ∀ u ∈ l, u.room ≤ 1)
      ∧ Laid top l

variable {top : Nat} {s s' w : Seg} {l l₁ l₂ : List Seg} {a n : Nat}

@[simp] theorem nextLo_cons (top : Nat) (s : Seg) (l : List Seg) : nextLo top (s :: l) = s.lo := rfl

/-- Where a list starts does not depend on what comes after its first interval. -/
theorem nextLo_append_cons (top : Nat) (l : List Seg) (s s' : Seg) (l₁ l₂ : List Seg)
    (h : s'.lo = s.lo) : nextLo top (l ++ s' :: l₁) = nextLo top (l ++ s :: l₂) := by
  cases l with
  | nil => exact h
  | cons _ _ => rfl

namespace Laid

theorem of_append (h : Laid top (l₁ ++ l₂)) : Laid top l₂ := by
  induction l₁ with
  | nil => exact h
  | cons _ _ ih => exact ih h.2.2.2

/-- A member of the list is a proper interval, ends before what follows it, and claims at
    least the room it has. -/
theorem at_mem (h : Laid top (l₁ ++ s :: l₂)) :
    s.lo ≤ s.hi ∧ s.hi ≤ nextLo top l₂ ∧ (nextLo top l₂ : Int) - s.hi ≤ s.room := by
  obtain ⟨h1, h2, h3, -⟩ := h.of_append
  exact ⟨h1, h2, by omega⟩

theorem nextLo_le (h : Laid top l) : nextLo top l ≤ top := by
  induction l with
  | nil => exact Nat.le_refl _
  | cons s l ih =>
    obtain ⟨h1, h2, -, h4⟩ := h
    have := ih h4
    show s.lo ≤ top
    omega

/-- Every interval starts at or after the first, and ends by `top`. -/
theorem bounds (h : Laid top l) : ∀ s ∈ l, nextLo top l ≤ s.lo ∧ s.hi ≤ top := by
  induction l with
  | nil => simp
  | cons s l ih =>
    obtain ⟨h1, h2, -, h4⟩ := h
    have hnext := h4.nextLo_le
    intro t ht
    rcases mem_cons.mp ht with rfl | ht
    · exact ⟨Nat.le_refl _, by omega⟩
    · have := ih h4 t ht
      show s.lo ≤ t.lo ∧ t.hi ≤ top
      omega

/-- The intervals are in order and do not overlap. -/
theorem pairwise (h : Laid top l) : l.Pairwise (fun s t => s.lo ≤ t.lo ∧ s.hi ≤ t.lo) := by
  induction l with
  | nil => exact Pairwise.nil
  | cons s l ih =>
    obtain ⟨h1, h2, -, h4⟩ := h
    refine Pairwise.cons (fun t ht => ?_) (ih h4)
    have := (h4.bounds t ht).1
    omega

/-- Replace the part of the list from an interval on; only where it starts, and whether it
    claims any room, matters to what comes before. -/
theorem replace (h : Laid top (l₁ ++ s :: l)) (hlo : s'.lo = s.lo) (h' : Laid top (s' :: l₂))
    (hone : (∀ u ∈ s :: l, u.room ≤ 1) → ∀ u ∈ s' :: l₂, u.room ≤ 1) :
    Laid top (l₁ ++ s' :: l₂) := by
  induction l₁ with
  | nil => exact h'
  | cons t l₁ ih =>
    rw [cons_append] at h ⊢
    obtain ⟨h1, h2, h3, h4⟩ := h
    rw [← nextLo_append_cons top l₁ s s' l₂ l hlo] at h2 h3
    refine ⟨h1, h2, h3.imp id (fun h3 => ⟨h3.1, fun u hu => ?_⟩), ih h4⟩
    rcases mem_append.mp hu with hu | hu
    · exact h3.2 u (mem_append_left _ hu)
    · exact hone (fun u hu => h3.2 u (mem_append_right _ hu)) u hu

/-- An interval `w` put into the gap after `s`, which claims some room: the claim of `s` is
    reduced by `n`, which is no more than the length of `w`. -/
theorem insert (h : Laid top (l₁ ++ s :: l₂)) (hlo : s'.lo = s.lo) (hhi : s'.hi = s.hi)
    (hroom : s'.room = s.room - n) (hbig : 1 < s.room) (hw : s.hi ≤ w.lo)
    (hn : w.lo + n ≤ w.hi) (hnext : w.hi ≤ nextLo top l₂)
    (hwroom : w.room = (nextLo top l₂ : Int) - w.hi + 1) :
    Laid top (l₁ ++ s' :: w :: l₂) := by
  obtain ⟨h1, -, h3, h4⟩ := h.of_append
  have hlast : Laid top (w :: l₂) := ⟨by omega, hnext, .inl (by omega), h4⟩
  refine h.replace hlo ⟨by omega, ?_, ?_, hlast⟩ (fun hone => ?_)
  · rw [hhi]
    exact hw
  · -- the claim stays exact only if `w` fills the rest of a gap whose claim was exact
    rw [nextLo_cons, hhi, hroom]
    by_cases hlt : (w.lo : Int) - s.hi < s.room - n
    · exact .inl hlt
    · grind
  · have := hone s (mem_cons_self ..)
    omega

/-- An interval `s` made longer within the gap after it, or replaced by one with the same
    start. -/
theorem swap (h : Laid top (l₁ ++ s :: l₂)) (hlo : s'.lo = s.lo) (hs' : s'.lo ≤ s'.hi)
    (hnext : s'.hi ≤ nextLo top l₂) (hroom : (nextLo top l₂ : Int) - s'.hi < s'.room)
    (hone : s.room ≤ 1 → s'.room ≤ 1) : Laid top (l₁ ++ s' :: l₂) := by
  refine h.replace hlo ⟨hs', hnext, .inl hroom, h.of_append.2.2.2⟩ (fun hall u hu => ?_)
  rcases mem_cons.mp hu with rfl | hu
  · exact hone (hall s (mem_cons_self ..))
  · exact hall u (mem_cons_of_mem _ hu)

/-- A first-fit search for `n` numbers from `a` on passes an interval only if `a` is not in
    it and either the next interval starts at or below `a` or the claim is too small, and
    stops at an interval that claims enough.  If no later interval starts within reach of
    `a`, then where the search stops `a` is not below. -/
theorem reach (h : Laid top (l₁ ++ s :: l₂)) (hfirst : nextLo top (l₁ ++ s :: l₂) ≤ a)
    (hpass : ∀ l l' t, l₁ = l ++ t :: l' →
      ¬ (t.lo ≤ a ∧ a < t.hi) ∧ (a < nextLo top (l' ++ s :: l₂) → t.room ≤ (n : Int)))
    (hn : 0 < n) (hstop : (n : Int) < s.room)
    (hclear : ∀ t ∈ (l₁ ++ s :: l₂).tail, ¬ (a < t.lo ∧ t.lo < a + n)) : s.lo ≤ a := by
  induction l₁ with
  | nil => exact hfirst
  | cons t l₁ ih =>
    rw [cons_append] at h
    obtain ⟨h1, h2, h3, h4⟩ := h
    obtain ⟨hout, hroom⟩ := hpass [] l₁ t rfl
    have hlo : t.lo ≤ a := hfirst
    -- an exact claim is followed by no claim the search could stop at
    have h3 : (nextLo top (l₁ ++ s :: l₂) : Int) - t.hi < t.room := by grind
    -- had the next interval started above `a`, the failed test would put it within reach
    have hnext : nextLo top (l₁ ++ s :: l₂) ≤ a := by
      by_contra hlt
      have hmem : ∃ u ∈ l₁ ++ s :: l₂, u.lo = nextLo top (l₁ ++ s :: l₂) := by
        cases l₁ with
        | nil => exact ⟨s, by simp, rfl⟩
        | cons u l₁ => exact ⟨u, by simp, rfl⟩
      obtain ⟨u, hu, hlou⟩ := hmem
      refine hclear u hu ⟨?_, ?_⟩
      · omega
      · omega
    refine ih h4 hnext (fun l l' u hl => hpass (t :: l) l' u (by rw [hl, cons_append]))
      (fun u hu => hclear u (mem_of_mem_tail hu))

end Laid

end Xv6.Intervals
