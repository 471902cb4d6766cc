import Xv6.Effect
import Xv6.UvmSpec
import Xv6.Proc
import Xv6.MunmapSpec

namespace Xv6.Kernel

/-!
# The memory of one process

`Intact own k p` — the frames of process `p` are apart and its areas ask for flags only.  It
is kept by every call of the process, whatever the lengths:

* `Effect.intact` — by `mmap` and faults, which keep every translation;
* `growproc_ok`, `Intact.resized` — by `sbrk`, which keeps those of the kernel's half;
* `sysMunmap_kept` — by `munmap`, which keeps every translation too: it takes nothing away.
-/

variable {L : Link} {own own' : Frame → Owner} {k k' k'' : Kernel} {p : Slot}

/-- The memory of a process whose areas ask for flags only. -/
structure Intact (own : Frame → Owner) (k : Kernel) (p : Slot) : Prop where
  free : Free own k.phys
  tables : Tables own k.phys.mem (.proc p) (k.proc p).pgdir
  pages : Pages own k.phys (.proc p) (k.proc p).pgdir
  kern : k.trans p KERNBASE ≠ none
  lists : Lists own k p
  low : Low own k p
  size : (k.proc p).sz < KERNBASE

/-- After a call with an effect, the pages of the process are still its own. -/
theorem Effect.pages (w : Effect own k p own' k')
    (hp : Pages own k.phys (.proc p) (k.proc p).pgdir) :
    Pages own' k'.phys (.proc p) (k'.proc p).pgdir := by
  intro va pte hva htr
  have htr' : k'.trans p va = some pte := htr
  rcases w.page va with ⟨hsame, -⟩ | ⟨-, -, pte', hnew, -, hown, -⟩
  · rw [hsame] at htr'
    have hown := hp va pte hva htr'
    rw [w.keep _ (by rw [hown]; simp), hown]
  · cases hnew.symm.trans htr'
    exact hown

/-- A translation that was there stays, and the kernel's half stays as it is. -/
theorem Effect.keeps (w : Effect own k p own' k') (va : Word) :
    (∀ pte, k.trans p va = some pte → k'.trans p va = some pte)
      ∧ (KERNBASE ≤ va → k'.trans p va = k.trans p va) := by grind [w.page, BitVec.not_le.mpr]

theorem Effect.intact (w : Effect own k p own' k') (h : Intact own k p) : Intact own' k' p := by
  have hpgdir : (k'.proc p).pgdir = (k.proc p).pgdir := by rw [w.self]
  have hsz : (k'.proc p).sz = (k.proc p).sz := by rw [w.self]
  refine ⟨w.free, by rw [hpgdir]; exact w.tables, w.pages h.pages, ?_, w.lists, w.low, ?_⟩
  · rw [(w.keeps KERNBASE).2 (by simp)]
    exact h.kern
  · rw [hsz]
    exact h.size

/-! ### `sbrk` -/

/-- `growproc` changes the pages and the size of the process. -/
theorem growproc_ok {n r : Word} (h : Intact own k p) (hr : growproc L k p n = .ok (r, k')) :
    ∃ own' s' sz, Resized own k.phys (.proc p) (k.proc p).pgdir own' s' ∧ sz < KERNBASE
      ∧ k' = ({ k with phys := s' } : Kernel).setProc p { k.proc p with sz := sz } := by
  have hsz : (k.proc p).sz.toNat < KERNBASE.toNat := h.size
  have hself : ∀ s' : Phys, ({ k with phys := s' } : Kernel)
      = ({ k with phys := s' } : Kernel).setProc p { k.proc p with sz := (k.proc p).sz } := by
    intro s'
    simp [setProc]
  unfold growproc at hr
  simp only at hr
  split at hr
  · obtain ⟨⟨sz, s'⟩, halloc, hr⟩ := Outcome.bind_eq_ok.mp hr
    obtain ⟨hlt, own', w⟩ := allocuvm_ok h.free h.tables h.pages h.size halloc
    split at hr
    · cases hr
      exact ⟨own', s', _, w, h.size, hself s'⟩
    · cases hr
      exact ⟨own', s', sz, w, hlt, rfl⟩
  · split at hr
    · obtain ⟨⟨sz, s'⟩, hdealloc, hr⟩ := Outcome.bind_eq_ok.mp hr
      obtain ⟨own', w⟩ := deallocuvm_resized h.free h.tables h.pages (by omega) hdealloc
      split at hr
      · cases hr
        exact ⟨own', s', _, w, h.size, hself s'⟩
      · cases hr
        refine ⟨own', s', sz, w, ?_, rfl⟩
        show sz.toNat < KERNBASE.toNat
        rw [deallocuvm_size hdealloc]
        split
        · exact hsz
        · rename_i hlt
          exact Nat.lt_trans (BitVec.not_le.mp hlt) hsz
    · cases hr
      exact ⟨own, k.phys, _, .refl h.free h.tables h.pages, h.size, hself k.phys⟩

/-- The records of a process do not depend on its pages and size. -/
theorem Intact.resized {s' : Phys} {sz : Word} (h : Intact own k p)
    (w : Resized own k.phys (.proc p) (k.proc p).pgdir own' s') (hsz : sz < KERNBASE) :
    Intact own' (({ k with phys := s' } : Kernel).setProc p { k.proc p with sz := sz }) p := by
  have hder : ∀ x, (({ k with phys := s' } : Kernel).setProc p { k.proc p with sz := sz }).deref x
      = k.deref x := by
    intro x
    cases x with
    | null => rfl
    | head q =>
      by_cases hq : q = p
      · subst hq
        simp [deref]
      · simp [deref, setProc, hq]
    | tail q =>
      by_cases hq : q = p
      · subst hq
        simp [deref]
      · simp [deref, setProc, hq]
    | node f => rfl
  have hrec : ∀ f, own' f = .record p ↔ own f = .record p := by
    intro f
    constructor
    · intro hf
      rw [← (w.touch.kept (by rw [hf]; exact id)).1, hf]
    · intro hf
      rw [(w.touch.keeps (by rw [hf]; exact id)).1, hf]
  have hmine : ∀ x, Mine own' p x ↔ Mine own p x := by
    intro x
    cases x <;> simp [Mine, hrec]
  have hlists : Lists own
      (({ k with phys := s' } : Kernel).setProc p { k.proc p with sz := sz }) p :=
    ⟨fun x v hx hd => h.lists.guard x v hx (by rwa [hder] at hd),
      fun x v hx hd => h.lists.area x v hx (by rwa [hder] at hd)⟩
  refine ⟨w.free, ?_, ?_, ?_, hlists.reown hrec, ?_, ?_⟩
  · simpa using w.tables
  · simpa using w.pages
  · have hk := w.kernel KERNBASE (by simp)
    have htr :
      (({ k with phys := s' } : Kernel).setProc p { k.proc p with sz := sz }).trans p KERNBASE
        = translate s' (k.proc p).pgdir KERNBASE := by simp [trans]
    rw [htr, hk]
    exact h.kern
  · intro x v hx hd
    rw [hder] at hd
    exact h.low x v ((hmine x).mp hx) hd
  · simpa using hsz

/-! ### `munmap` -/

/-- The memory of `p` is in order in `k'`, with every translation it had in `k`. -/
structure Kept (k : Kernel) (p : Slot) (k' : Kernel) : Prop where
  intact : ∃ own, Intact own k' p
  trans : ∀ va pte, k.trans p va = some pte → k'.trans p va = some pte
  kernel : ∀ va, KERNBASE ≤ va → k'.trans p va = k.trans p va

theorem Kept.comp (h : Kept k p k') (h' : Kept k' p k'') : Kept k p k'' :=
  ⟨h'.intact, fun va pte hva => h'.trans va pte (h.trans va pte hva),
    fun va hva => (h'.kernel va hva).trans (h.kernel va hva)⟩

theorem Intact.kept (h : Intact own k p) : Kept k p k :=
  ⟨⟨own, h⟩, fun _ _ => id, fun _ _ => rfl⟩

/-- Files, pipes and inodes are not part of it. -/
theorem Intact.kept_files (h : Intact own k p) (file : Fin NFILE → File) (pipe : Nat → Pipe)
    (inode : Nat → List Byte) : Kept k p { k with file := file, pipe := pipe, inode := inode } := by
  refine ⟨⟨own, h.free, h.tables, h.pages, h.kern, ⟨?_, ?_⟩, ?_, h.size⟩,
    fun _ _ => id, fun _ _ => rfl⟩
  · intro x v hx hd
    exact h.lists.guard x v hx (by cases x <;> exact hd)
  · intro x v hx hd
    exact h.lists.area x v hx (by cases x <;> exact hd)
  · intro x v hx hd
    exact h.low x v hx (by cases x <;> exact hd)

/-- Page faults and files keep it, whatever the areas are. -/
theorem faultClosed_kept : FaultClosed L p (fun k k' => (∃ own, Intact own k p) → Kept k p k') where
  refl := fun k ⟨_, h⟩ => h.kept
  trans := fun k k' k'' h h' hi => (h hi).comp (h' (h hi).intact)
  fault := by
    rintro k k' va hr ⟨own, h⟩
    obtain ⟨own', w⟩ := trapPgflt_effect h.free h.tables h.lists h.low hr
    exact ⟨⟨own', w.intact h⟩, fun va => (w.keeps va).1, fun va => (w.keeps va).2⟩
  files := fun k file pipe inode ⟨_, h⟩ => h.kept_files file pipe inode

/-- `munmap` takes no translation away. -/
theorem sysMunmap_kept {addr length r : Word} (h : Intact own k p)
    (hr : sysMunmap L k p addr length = .ok (r, k')) : Kept k p k' :=
  sysMunmap_related faultClosed_kept hr ⟨own, h⟩

end Xv6.Kernel
