import Mathlib.Data.List.Nodup
import Mathlib.Logic.Relation

namespace Xv6.Chain

open List

/-!
# Singly linked lists in a heap

A heap gives the cell `read x` behind a pointer `x`; `next v` is the pointer in cell `v`.

* `Path read next x l y` — from `x` one comes to `y` through the cells `l`;
* `Path.unique`, `Path.nodup` — a path that does not pass its own end is the only one, and
  passes no pointer twice;
* `Path.congr` — writes to other cells do not matter;
* `Path.map` — writes that keep every `next` keep the path;
* `Path.replace`, `Path.insert` — writes to a cell of the path, and linking in a new one;
* `follow` — the path to a given end, computed.
-/

variable {α β : Type}

/-- From `x`, following `next`, one comes to `y` through the pointers and cells of the list. -/
inductive Path (read : α → Option β) (next : β → α) : α → List (α × β) → α → Prop
  | nil (x : α) : Path read next x [] x
  | cons {x y : α} {v : β} {l : List (α × β)} :
      read x = some v → Path read next (next v) l y → Path read next x ((x, v) :: l) y

variable {read read' : α → Option β} {next : β → α} {x y z c : α} {v v' w : β}
  {l l' r : List (α × β)}

namespace Path

/-- Paths in a row. -/
theorem append (h : Path read next x l y) (h' : Path read next y l' z) :
    Path read next x (l ++ l') z := by
  induction h with
  | nil => exact h'
  | cons hr _ ih => exact .cons hr (ih h')

/-- A path cut in two. -/
theorem split (h : Path read next x (l ++ l') z) :
    ∃ y, Path read next x l y ∧ Path read next y l' z := by
  induction l generalizing x with
  | nil => exact ⟨x, .nil x, h⟩
  | cons a l ih =>
    cases h with
    | cons hr h =>
      obtain ⟨y, h1, h2⟩ := ih h
      exact ⟨y, .cons hr h1, h2⟩

/-- The path up to a cell, the cell, and the path from there. -/
theorem split_cons (h : Path read next x (l ++ (c, v) :: r) z) :
    Path read next x l c ∧ read c = some v ∧ Path read next (next v) r z := by
  obtain ⟨y, h1, h2⟩ := h.split
  cases h2 with
  | cons hr h2 => exact ⟨h1, hr, h2⟩

theorem read_eq (h : Path read next x l y) (hc : (c, v) ∈ l) : read c = some v := by
  obtain ⟨l1, l2, rfl⟩ := append_of_mem hc
  exact h.split_cons.2.1

/-- Only the cells of the path matter. -/
theorem congr (h : Path read next x l y) (hr : ∀ c v, (c, v) ∈ l → read' c = some v) :
    Path read' next x l y := by
  induction h with
  | nil => exact .nil _
  | cons _ _ ih =>
    exact .cons (hr _ _ (mem_cons_self ..)) (ih (fun c v hc => hr c v (mem_cons_of_mem _ hc)))

variable {R : β → β → Prop}

/-- All cells of the path are written, each as `R` allows and with its `next` kept. -/
theorem map (h : Path read next x l y)
    (hr : ∀ c v, (c, v) ∈ l → ∃ v', read' c = some v' ∧ next v' = next v ∧ R v v') :
    ∃ l', Path read' next x l' y
      ∧ List.Forall₂ (fun a b => b.1 = a.1 ∧ R a.2 b.2) l l' := by
  induction h with
  | nil => exact ⟨[], .nil _, .nil⟩
  | @cons x y v l _ _ ih =>
    obtain ⟨v', hv', hn, hR⟩ := hr x v (mem_cons_self ..)
    obtain ⟨l', hp, hl⟩ := ih (fun c u hc => hr c u (mem_cons_of_mem _ hc))
    refine ⟨(x, v') :: l', .cons hv' ?_, .cons ⟨rfl, hR⟩ hl⟩
    rw [hn]
    exact hp

/-- Each cell of the written path was a cell of the old one. -/
theorem map_mem (h : List.Forall₂ (fun a b => b.1 = a.1 ∧ R a.2 b.2) l l') (hc : (c, v') ∈ l') :
    ∃ v, (c, v) ∈ l ∧ R v v' := by
  induction h with
  | nil => cases hc
  | @cons a b _ _ hab _ ih => grind

/-- Each cell of the old path is one of the written path. -/
theorem mem_map (h : List.Forall₂ (fun a b => b.1 = a.1 ∧ R a.2 b.2) l l') (hc : (c, v) ∈ l) :
    ∃ v', (c, v') ∈ l' ∧ R v v' := by
  induction h with
  | nil => cases hc
  | @cons a b _ _ hab _ ih => grind

/-- A path to `z` that does not pass `z` extends every path that does not. -/
theorem extend (h : Path read next x l y) (h' : Path read next x l' z)
    (hz : z ∉ l.map Prod.fst) : ∃ r, l' = l ++ r ∧ Path read next y r z := by
  induction h generalizing l' with
  | nil => exact ⟨l', rfl, h'⟩
  | cons hr _ ih =>
    rw [map_cons, mem_cons, not_or] at hz
    cases h' with
    | nil => exact absurd rfl hz.1
    | cons hr' h' => simp_all

/-- There is one path to `z` that does not pass `z`. -/
theorem unique (h : Path read next x l z) (h' : Path read next x l' z)
    (hz : z ∉ l.map Prod.fst) (hz' : z ∉ l'.map Prod.fst) : l = l' := by
  obtain ⟨r, rfl, hp⟩ := h.extend h' hz
  cases hp with
  | nil => rw [append_nil]
  | cons => simp at hz'

/-- A path that does not pass its end passes no pointer twice. -/
theorem nodup (h : Path read next x l z) (hz : z ∉ l.map Prod.fst) : (l.map Prod.fst).Nodup := by
  induction h with
  | nil => exact nodup_nil
  | @cons x z v l hr h ih =>
    have hz' := hz
    rw [map_cons, mem_cons, not_or] at hz
    rw [map_cons, nodup_cons]
    refine ⟨fun hx => ?_, ih hz.2⟩
    -- from the second occurrence of `x` on there would be a shorter path with the same ends
    obtain ⟨⟨x', v'⟩, hmem, hx'⟩ := List.mem_map.mp hx
    cases hx'
    obtain ⟨l1, l2, rfl⟩ := append_of_mem hmem
    obtain ⟨-, hr', h2⟩ := h.split_cons
    have hz2 : z ∉ ((x, v') :: l2).map Prod.fst := by simp_all
    have heq := congrArg length (Path.unique (.cons hr h) (.cons hr' h2) hz' hz2)
    simp only [length_cons, length_append] at heq
    omega

/-- A cell of the path is written, its `next` kept. -/
theorem replace (h : Path read next x (l ++ (c, v) :: r) z) (hc : read' c = some v')
    (hn : next v' = next v) (hl : ∀ d u, (d, u) ∈ l → read' d = some u)
    (hr : ∀ d u, (d, u) ∈ r → read' d = some u) :
    Path read' next x (l ++ (c, v') :: r) z := by
  obtain ⟨h1, -, h2⟩ := h.split_cons
  refine (h1.congr hl).append (.cons hc ?_)
  rw [hn]
  exact h2.congr hr

/-- A new cell `n` is linked in after `c`. -/
theorem insert {n : α} (h : Path read next x (l ++ (c, v) :: r) z) (hc : read' c = some v')
    (hn : next v' = n) (hw : read' n = some w) (hnw : next w = next v)
    (hl : ∀ d u, (d, u) ∈ l → read' d = some u) (hr : ∀ d u, (d, u) ∈ r → read' d = some u) :
    Path read' next x (l ++ (c, v') :: (n, w) :: r) z := by
  obtain ⟨h1, -, h2⟩ := h.split_cons
  refine (h1.congr hl).append (.cons hc ?_)
  rw [hn]
  refine .cons hw ?_
  rw [hnw]
  exact h2.congr hr

end Path

section

variable [DecidableEq α] (read : α → Option β) (next : β → α) (last : α)

/-- The path from `x` to `last`, if it has at most `n` cells. -/
def follow : Nat → α → Option (List (α × β))
  | 0, x => if x = last then some [] else none
  | n + 1, x =>
    if x = last then some []
    else
      match read x with
      | none => none
      | some v => (follow n (next v)).map ((x, v) :: ·)

variable {read next last}

/-- What `follow` finds is a path. -/
theorem path_of_follow {n : Nat} (h : follow read next last n x = some l) :
    Path read next x l last ∧ last ∉ l.map Prod.fst := by
  induction n generalizing x l with
  | zero =>
    rw [follow] at h
    split at h
    · cases h
      subst x
      exact ⟨.nil _, by simp⟩
    · cases h
  | succ n ih =>
    rw [follow] at h
    split at h
    · cases h
      subst x
      exact ⟨.nil _, by simp⟩
    · rename_i hne
      cases hr : read x with
      | none => simp [hr] at h
      | some v =>
        simp only [hr, Option.map_eq_some_iff] at h
        obtain ⟨l', hl', rfl⟩ := h
        obtain ⟨hp, hn⟩ := ih hl'
        refine ⟨.cons hr hp, ?_⟩
        rw [map_cons, mem_cons, not_or]
        exact ⟨fun he => hne he.symm, hn⟩

/-- And it finds every path. -/
theorem follow_of_path (h : Path read next x l last) (hn : last ∉ l.map Prod.fst) :
    follow read next last l.length x = some l := by
  induction h with
  | nil => simp [follow]
  | cons hr _ ih =>
    rw [map_cons, mem_cons, not_or] at hn
    rw [length_cons, follow, if_neg (fun he => hn.1 he.symm), hr]
    simp [ih hn.2]

/-- What `follow` finds does not depend on the bound. -/
theorem follow_unique {m n : Nat} (h : follow read next last m x = some l)
    (h' : follow read next last n x = some l') : l = l' := by
  obtain ⟨h1, h2⟩ := path_of_follow h
  obtain ⟨h3, h4⟩ := path_of_follow h'
  exact h1.unique h3 h2 h4

end

end Xv6.Chain
