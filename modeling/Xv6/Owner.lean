import Xv6.State
import Mathlib.Data.FinEnum

namespace Xv6

open Function TwoLevel

/-!
# Who owns a frame

Directories, tables, user pages, area records and kernel stacks all come from `kalloc`.
An assignment `own : Frame → Owner` says what each frame is in use for; that it is a
function is what keeps the uses apart.  The predicates below tie it to the state:

* `Free own s` — the free list has no duplicates and holds frames of the machine's memory
  owned by nobody, filled with `kfree`'s junk but for the link word;
* `Tables own m a d` — directory `d` and its tables belong to address space `a`;
* `Pages own m a d` — so do the frames of its user pages, each to the page it is mapped at;
* `Touch P own m own' m'` — from `(own, m)` to `(own', m')` only frames with an owner in
  `P` before and after changed hands or contents.  It composes, and every address space
  whose owners are outside `P` survives it.
-/

/-- An address space: a process's, or the one `exec` is building. -/
inductive Space where
  | proc (p : Slot)
  | scratch
  deriving DecidableEq

/-- What a frame is in use for. -/
inductive Owner where
  /-- On the free list. -/
  | free
  /-- The page directory of `a`. -/
  | dir (a : Space)
  /-- The page table in slot `i` of `a`'s directory. -/
  | table (a : Space) (i : Idx)
  /-- The user page numbered `n` of `a`. -/
  | page (a : Space) (n : Frame)
  /-- A `struct vm_area` of the process in slot `p`. -/
  | record (p : Slot)
  /-- The kernel stack of the process in slot `p`. -/
  | kstack (p : Slot)
  /-- Memory the allocator does not handle. -/
  | reserved
  deriving DecidableEq

/-- How a page directory entry is read. -/
def pdeFormat : Format Frame Word where
  valid := fun w => w &&& PTE_P ≠ 0#32
  target := frameOf

@[simp] theorem pdeFormat_valid (w : Word) : pdeFormat.valid w = true ↔ w &&& PTE_P ≠ 0#32 := by
  simp [pdeFormat]

@[simp] theorem pdeFormat_target (w : Word) : pdeFormat.target w = frameOf w := rfl

/-- The directory of `a` is `d`, and `d` and its tables are `a`'s. -/
abbrev Tables (own : Frame → Owner) (m : Frame → Idx → Word) (a : Space) (d : Frame) : Prop :=
  Rooted pdeFormat own (.dir a) (.table a) m d

/-- The owner is the tag. -/
theorem tags (a : Space) : Tags (Owner.dir a) (Owner.table a) where
  table_inj := by
    intro i j h
    simpa using h
  dir_ne := by
    intro i
    simp

/-- The allocator's free list. -/
structure Free (own : Frame → Owner) (s : Phys) : Prop where
  nodup : s.freelist.Nodup
  free : ∀ f ∈ s.freelist, own f = .free
  filled : ∀ f ∈ s.freelist, ∀ i, i ≠ 0#10 → s.mem f i = junk
  bound : ∀ f ∈ s.freelist, f.toNat < PHYSTOP.toNat / 4096

/-- The part of it that does not depend on what is in the frames. -/
structure FreeList (own : Frame → Owner) (s : Phys) : Prop where
  nodup : s.freelist.Nodup
  free : ∀ f ∈ s.freelist, own f = .free

/-- Free frames and the directory and tables of `a`. -/
def Owner.inTables (a : Space) : Owner → Prop
  | .free => True
  | .dir b => b = a
  | .table b _ => b = a
  | _ => False

/-- Free frames and everything of address space `a`. -/
def Owner.within (a : Space) : Owner → Prop
  | .free => True
  | .dir b => b = a
  | .table b _ => b = a
  | .page b _ => b = a
  | _ => False

variable {a b : Space} {o : Owner} {d : Frame} {own : Frame → Owner} {s : Phys}

theorem Free.list (hf : Free own s) : FreeList own s := ⟨hf.nodup, hf.free⟩

theorem Owner.within_of_inTables (h : o.inTables a) : o.within a := by
  cases o <;> simp_all [Owner.inTables, Owner.within]

/-- Only frames with owners in `P` change hands or contents. -/
def Touch (P : Owner → Prop) (own : Frame → Owner) (m : Frame → Idx → Word)
    (own' : Frame → Owner) (m' : Frame → Idx → Word) : Prop :=
  ∀ f, (own' f = own f ∧ m' f = m f) ∨ (P (own f) ∧ P (own' f))

namespace Touch

variable {P Q : Owner → Prop} {own own' own'' : Frame → Owner} {m m' m'' : Frame → Idx → Word}
variable {f : Frame}

theorem refl : Touch P own m own m := fun _ => .inl ⟨rfl, rfl⟩

section

variable (h : Touch P own m own' m')
include h

/-- One change after another. -/
theorem trans (h' : Touch P own' m' own'' m'') : Touch P own m own'' m'' := by
  intro f
  rcases h f with ⟨h1, h2⟩ | ⟨h1, h2⟩
  · rcases h' f with ⟨h3, h4⟩ | ⟨h3, h4⟩
    · exact .inl ⟨h3.trans h1, h4.trans h2⟩
    · exact .inr ⟨h1 ▸ h3, h4⟩
  · rcases h' f with ⟨h3, _⟩ | ⟨_, h4⟩
    · exact .inr ⟨h1, h3 ▸ h2⟩
    · exact .inr ⟨h1, h4⟩

theorem mono (hPQ : ∀ o, P o → Q o) : Touch Q own m own' m' := by
  intro f
  rcases h f with h | ⟨h1, h2⟩
  · exact .inl h
  · exact .inr ⟨hPQ _ h1, hPQ _ h2⟩

/-- A frame whose owner is outside `P` is untouched. -/
theorem keeps (hf : ¬ P (own f)) : own' f = own f ∧ m' f = m f := by
  rcases h f with h | ⟨h, _⟩
  · exact h
  · exact absurd h hf

/-- A frame that ends with an owner outside `P` had it before, and the same contents. -/
theorem kept (hf : ¬ P (own' f)) : own' f = own f ∧ m' f = m f := by
  rcases h f with h | ⟨_, h⟩
  · exact h
  · exact absurd h hf

end

/-- Writing to a frame whose owner is in `P`. -/
theorem update (hf : P (own f)) (x : Idx → Word) : Touch P own m own (Function.update m f x) := by
  intro g
  by_cases hg : g = f
  · subst hg
    exact .inr ⟨hf, hf⟩
  · exact .inl ⟨rfl, update_of_ne hg _ _⟩

/-- Handing a frame from one owner in `P` to another. -/
theorem hand (hf : P (own f)) (ho : P o) : Touch P own m (Function.update own f o) m := by
  intro g
  by_cases hg : g = f
  · subst hg
    exact .inr ⟨hf, by rwa [update_self]⟩
  · exact .inl ⟨update_of_ne hg _ _, rfl⟩

/-- An address space none of whose table owners is in `P` keeps its tables. -/
theorem tables (h : Touch P own m own' m') (hdir : ¬ P (.dir b)) (htab : ∀ i, ¬ P (.table b i))
    (ht : Tables own m b d) : Tables own' m' b d := by
  refine Rooted.congr ht (fun f hf => ?_)
  have hw : ¬ P (own f) := by
    rcases hf with hf | ⟨i, hf⟩ <;> rw [hf]
    · exact hdir
    · exact htab i
  exact ⟨(h.keeps hw).2, (h.keeps hw).1⟩

end Touch

/-! ### Translations -/

/-- Without allocation: the entry. -/
theorem walkpgdir_false (s : Phys) (d : Frame) (va : Word) : walkpgdir s d va false
      = (if s.mem d (PDX va) &&& PTE_P ≠ 0#32 then some (frameOf (s.mem d (PDX va)), PTX va)
         else none, s) := by
  unfold walkpgdir
  by_cases h : s.mem d (PDX va) &&& PTE_P ≠ 0#32 <;> simp [h]

namespace Kernel

/-- The library's walk. -/
theorem pte?_eq_leaf (s : Phys) (d : Frame) (va : Word) :
    pte? s d va = leaf pdeFormat s.mem d (PDX va) (PTX va) := by
  unfold pte? leaf
  rw [walkpgdir_false]
  by_cases h : s.mem d (PDX va) &&& PTE_P ≠ 0#32
  · rw [if_pos h, if_pos ((pdeFormat_valid _).mpr h)]
    rfl
  · rw [if_neg h, if_neg (fun h' => h ((pdeFormat_valid _).mp h'))]

/-- A present translation is the page's PTE. -/
theorem translate_eq_some {va pte : Word} :
    translate s d va = some pte ↔ pte? s d va = some pte ∧ pte &&& PTE_P ≠ 0#32 := by
  simp [translate, Option.filter_eq_some_iff]

/-- A translation by the two entries that `walkpgdir` looks at. -/
theorem translate_iff {va pte : Word} : translate s d va = some pte ↔
    s.mem d (PDX va) &&& PTE_P ≠ 0#32 ∧ s.mem (frameOf (s.mem d (PDX va))) (PTX va) = pte ∧
      pte &&& PTE_P ≠ 0#32 := by
  rw [translate_eq_some, pte?_eq_leaf]
  by_cases hpde : s.mem d (PDX va) &&& PTE_P ≠ 0#32
  · rw [leaf_of_valid ((pdeFormat_valid _).mpr hpde)]
    simp [hpde]
  · rw [leaf_of_not_valid (by simpa [pdeFormat] using hpde)]
    simp [hpde]

/-- Addresses of one page have one translation. -/
theorem translate_congr_page (s : Phys) (d : Frame) {va va' : Word} (h : frameOf va = frameOf va') :
    translate s d va = translate s d va' := by
  obtain ⟨h1, h2⟩ := (PDX_PTX_eq_iff va va').mpr h
  simp [translate, pte?_eq_leaf, h1, h2]

/-- Where only the page of `va` is mapped, which was not before, all others stay. -/
theorem translate_mono {s' : Phys} {d : Frame} {va w va' pte : Word}
    (hbefore : translate s d va = none) (hafter : translate s' d va'
      = if frameOf va' = frameOf va then some w else translate s d va')
    (h : translate s d va' = some pte) : translate s' d va' = some pte := by
  rw [hafter, if_neg, h]
  intro heq
  rw [translate_congr_page s d heq, hbefore] at h
  cases h

theorem translate_mem {s' : Phys} (h : s'.mem = s.mem) (d : Frame) (va : Word) :
    translate s' d va = translate s d va := by
  simp [translate, pte?_eq_leaf, h]

/-- Translations depend only on the frames of the directory and its tables. -/
theorem translate_congr {s' : Phys} (ht : Tables own s.mem a d)
    (h : ∀ f, (own f = .dir a ∨ ∃ i, own f = .table a i) → s'.mem f = s.mem f) (va : Word) :
    translate s' d va = translate s d va := by
  unfold translate
  rw [pte?_eq_leaf, pte?_eq_leaf, leaf_congr ht h]

end Kernel

/-- The frames of user pages belong to the pages they are mapped at. -/
def Pages (own : Frame → Owner) (s : Phys) (a : Space) (d : Frame) : Prop :=
  ∀ va pte, va < KERNBASE → Kernel.translate s d va = some pte →
    own (frameOf pte) = .page a (frameOf va)

/-- Other processes see no change. -/
theorem Touch.translate {P : Owner → Prop} {own' : Frame → Owner} {s' : Phys}
    (h : Touch P own s.mem own' s'.mem) (hdir : ¬ P (.dir b)) (htab : ∀ i, ¬ P (.table b i))
    (ht : Tables own s.mem b d) (va : Word) :
    Kernel.translate s' d va = Kernel.translate s d va := by
  refine Kernel.translate_congr ht (fun f hf => ?_) va
  have hw : ¬ P (own f) := by
    rcases hf with hf | ⟨i, hf⟩ <;> rw [hf]
    · exact hdir
    · exact htab i
  exact (h.keeps hw).2

end Xv6
