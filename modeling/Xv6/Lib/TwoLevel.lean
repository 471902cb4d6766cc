import Mathlib.Logic.Function.Basic
import Mathlib.Data.Fintype.Card

namespace Xv6.TwoLevel

open Finset Function

/-!
# Two-level tables held in memory

A directory is a frame of memory whose words name further frames, the tables; the words
of a table are the leaves.  Directory, tables and everything else share one memory, so a
store meant for one of them may hit another.  What keeps them apart is an assignment of
an *owner* to every frame:

* `Rooted own dirTag tabTag m d` — frame `d` belongs to `dirTag` and the table behind its
  valid slot `i` belongs to `tabTag i`;
* `leaf_write` — a store into a table changes exactly one leaf;
* `leaf_install` — hanging a blank table into an empty slot changes no leaf that was
  there before and adds blank ones;
* `leaf_congr`, `Rooted.congr` — memory outside the frames of the two tags is irrelevant;
* `vacant` — how many tables the directory can still be given.
-/

variable {F I W O : Type}
variable {i : I} {w : W} {t : F}

/-- How a word of a directory is read: whether it names a table, and which. -/
structure Format (F W : Type) where
  valid : W → Bool
  target : W → F

/-- A memory of frames `F`, each holding one word per index. -/
abbrev Memory (F I W : Type) := F → I → W

section

variable [DecidableEq F] [DecidableEq I]

/-- Store one word. -/
def write (m : Memory F I W) (f : F) (i : I) (w : W) : Memory F I W :=
  Function.update m f (Function.update (m f) i w)

@[simp] theorem write_same (m : Memory F I W) (f : F) (i : I) (w : W) : write m f i w f i = w := by
  simp [write]

theorem write_frame_ne (m : Memory F I W) {f g : F} (i : I) (w : W) (h : g ≠ f) :
    write m f i w g = m g := by
  simp [write, h]

theorem write_index_ne (m : Memory F I W) (f : F) {j : I} (w : W) (h : j ≠ i) :
    write m f i w f j = m f j := by
  simp [write, h]

end

variable (fmt : Format F W)

/-- The leaf at slot `i`, index `j` of directory `d`; none where the slot names no table. -/
def leaf (m : Memory F I W) (d : F) (i j : I) : Option W :=
  if fmt.valid (m d i) then some (m (fmt.target (m d i)) j) else none

/-- The owners put the directory and its tables in frames of their own. -/
structure Rooted (own : F → O) (dirTag : O) (tabTag : I → O) (m : Memory F I W) (d : F) : Prop where
  dir : own d = dirTag
  table : ∀ i, fmt.valid (m d i) = true → own (fmt.target (m d i)) = tabTag i

/-- The tags of one directory: distinct slots have distinct owners, none the directory's. -/
structure Tags (dirTag : O) (tabTag : I → O) : Prop where
  table_inj : ∀ i j, tabTag i = tabTag j → i = j
  dir_ne : ∀ i, tabTag i ≠ dirTag

variable {fmt} {own own' : F → O} {dirTag : O} {tabTag : I → O} {m m' : Memory F I W} {d : F}

/-- Through the table. -/
theorem leaf_of_valid {j : I} (h : fmt.valid (m d i) = true) :
    leaf fmt m d i j = some (m (fmt.target (m d i)) j) := by
  simp [leaf, h]

/-- No table. -/
theorem leaf_of_not_valid {j : I} (h : fmt.valid (m d i) = false) : leaf fmt m d i j = none := by
  simp [leaf, h]

/-- A table is never its own directory. -/
theorem Rooted.table_ne_dir (hr : Rooted fmt own dirTag tabTag m d) (ht : Tags dirTag tabTag)
    (h : fmt.valid (m d i) = true) : fmt.target (m d i) ≠ d := by
  intro heq
  have h1 := hr.table i h
  rw [heq, hr.dir] at h1
  exact ht.dir_ne i h1.symm

/-- Two slots never share a table. -/
theorem Rooted.table_inj (hr : Rooted fmt own dirTag tabTag m d) (ht : Tags dirTag tabTag) {j : I}
    (hi : fmt.valid (m d i) = true) (hj : fmt.valid (m d j) = true)
    (h : fmt.target (m d i) = fmt.target (m d j)) : i = j := by
  apply ht.table_inj
  rw [← hr.table i hi, ← hr.table j hj, h]

section

variable [DecidableEq F]

section

variable (hr : Rooted fmt own dirTag tabTag m d)
include hr

/-- A store into the table of slot `i` at index `j` changes the leaf `(i, j)` and no other. -/
theorem leaf_write [DecidableEq I] (ht : Tags dirTag tabTag) (hi : fmt.valid (m d i) = true) (j : I)
    (w : W) (i' j' : I) :
    leaf fmt (write m (fmt.target (m d i)) j w) d i' j'
      = if i' = i ∧ j' = j then some w else leaf fmt m d i' j' := by
  have hd : write m (fmt.target (m d i)) j w d = m d :=
    write_frame_ne m j w (hr.table_ne_dir ht hi).symm
  unfold leaf
  rw [hd]
  by_cases hv : fmt.valid (m d i') = true
  · rw [if_pos hv, if_pos hv]
    by_cases hii : i' = i
    · subst hii
      by_cases hjj : j' = j
      · subst hjj; simp
      · rw [write_index_ne m _ w hjj, if_neg (fun h => hjj h.2)]
    · have hne : fmt.target (m d i') ≠ fmt.target (m d i) :=
        fun h => hii (hr.table_inj ht hv hi h)
      rw [write_frame_ne m j w hne, if_neg (fun h => hii h.1)]
  · grind

/-- A store into one of the tables keeps every frame where it was. -/
theorem Rooted.write [DecidableEq I] (ht : Tags dirTag tabTag) (hi : fmt.valid (m d i) = true)
    (j : I) (w : W) :
    Rooted fmt own dirTag tabTag (TwoLevel.write m (fmt.target (m d i)) j w) d := by
  have hd : TwoLevel.write m (fmt.target (m d i)) j w d = m d :=
    write_frame_ne m j w (hr.table_ne_dir ht hi).symm
  refine ⟨hr.dir, fun i' hi' => ?_⟩
  rw [hd] at hi' ⊢
  exact hr.table i' hi'

/-- Hanging the blank frame `t` into the empty slot `i`: the leaves of the slot become
    blank, all others stay. -/
theorem leaf_install [DecidableEq I] (ht : Tags dirTag tabTag) (blank : W) (htd : t ≠ d)
    (hfree : ∀ j, own t ≠ tabTag j) (hw : fmt.valid w = true) (htw : fmt.target w = t) (i' j' : I) :
    leaf fmt (write (Function.update m t (fun _ => blank)) d i w) d i' j'
      = if i' = i then some blank else leaf fmt m d i' j' := by
  have hmd : update m t (fun _ => blank) d = m d := update_of_ne htd.symm _ _
  unfold leaf
  by_cases hii : i' = i
  · subst hii
    rw [write_same, if_pos hw, htw, write_frame_ne _ _ _ htd, if_pos rfl]
    simp
  · rw [write_index_ne _ _ _ hii, hmd, if_neg hii]
    by_cases hv : fmt.valid (m d i') = true
    · have hne : fmt.target (m d i') ≠ t := by
        intro h
        exact hfree i' (h ▸ hr.table i' hv)
      rw [if_pos hv, if_pos hv, write_frame_ne _ _ _ (hr.table_ne_dir ht hv), update_of_ne hne]
    · rw [if_neg hv, if_neg hv]

/-- After hanging `t` into slot `i` the frames are kept apart by the owners in which `t`
    belongs to that slot. -/
theorem Rooted.install [DecidableEq I] (blank : W) (htd : t ≠ d) (hfree : ∀ j, own t ≠ tabTag j)
    (htw : fmt.target w = t) :
    Rooted fmt (Function.update own t (tabTag i)) dirTag tabTag
      (TwoLevel.write (Function.update m t (fun _ => blank)) d i w) d := by
  have hmd : update m t (fun _ => blank) d = m d := update_of_ne htd.symm _ _
  refine ⟨by rw [update_of_ne htd.symm]; exact hr.dir, fun i' hi' => ?_⟩
  by_cases hii : i' = i
  · subst hii
    rw [write_same, htw, update_self]
  · rw [write_index_ne _ _ _ hii, hmd] at hi' ⊢
    have hne : fmt.target (m d i') ≠ t := by
      intro h
      exact hfree i' (h ▸ hr.table i' hi')
    rw [update_of_ne hne]
    exact hr.table i' hi'

end

end

/-! ### Slots without a table -/

section

variable [Fintype I]

variable (fmt) in
/-- The number of slots that name no table. -/
def vacant (m : Memory F I W) (d : F) : Nat :=
  (Finset.univ.filter (fun i => fmt.valid (m d i) = false)).card

theorem vacant_congr (h : m' d = m d) : vacant fmt m' d = vacant fmt m d := by
  rw [vacant, vacant, h]

theorem vacant_le (m : Memory F I W) (d : F) : vacant fmt m d ≤ Fintype.card I :=
  card_le_univ _

/-- An empty entry counts. -/
theorem vacant_pos (h : fmt.valid (m d i) = false) : 0 < vacant fmt m d :=
  card_pos.mpr ⟨i, by simp [h]⟩

/-- A slot that is given a table is no longer counted. -/
theorem vacant_install [DecidableEq I] (h : fmt.valid (m d i) = false) (hw : fmt.valid w = true)
    (hm : m' d = Function.update (m d) i w) :
    vacant fmt m' d + 1 = vacant fmt m d := by
  have heq : Finset.univ.filter (fun j => fmt.valid (m' d j) = false)
      = (Finset.univ.filter (fun j => fmt.valid (m d j) = false)).erase i := by
    ext j
    rw [mem_erase, mem_filter, mem_filter, hm]
    by_cases hj : j = i
    · subst hj
      simp [hw]
    · simp [hj]
  rw [vacant, vacant, heq]
  exact card_erase_add_one (by simp [h])

end

/-! ### Other memory -/

/-- Leaves depend only on the directory's frame and the frames of its tables. -/
theorem leaf_congr (hr : Rooted fmt own dirTag tabTag m d)
    (h : ∀ f, (own f = dirTag ∨ ∃ i, own f = tabTag i) → m' f = m f) (i j : I) :
    leaf fmt m' d i j = leaf fmt m d i j := by
  unfold leaf
  rw [h d (.inl hr.dir)]
  by_cases hv : fmt.valid (m d i) = true
  · rw [if_pos hv, if_pos hv, h _ (.inr ⟨i, hr.table i hv⟩)]
  · rw [if_neg hv, if_neg hv]

/-- Nothing that happens to other frames moves the directory or its tables. -/
theorem Rooted.congr (hr : Rooted fmt own dirTag tabTag m d)
    (h : ∀ f, (own f = dirTag ∨ ∃ i, own f = tabTag i) → m' f = m f ∧ own' f = own f) :
    Rooted fmt own' dirTag tabTag m' d := by
  have hd := h d (.inl hr.dir)
  refine ⟨by rw [hd.2]; exact hr.dir, fun i hi => ?_⟩
  rw [hd.1] at hi ⊢
  rw [(h _ (.inr ⟨i, hr.table i hi⟩)).2]
  exact hr.table i hi

end Xv6.TwoLevel
