import Xv6.TrapSpec
import Xv6.Mmap

namespace Xv6

open Function Kernel Outcome VmArea

/-!
# `munmap`

All that `munmap` does to the kernel state is its write-back, and that is a sequence of page
faults and of changes to files, pipes and inodes:

* `FaultClosed R` — relation `R` allows these;
* `sysMunmap_related` — then it holds between the states before and after `munmap`;
* `munmap_finds_again` — an area that `munmap` has found once it finds again.
-/

/-- The fields the search of `munmap` looks at. -/
def VmArea.link (v : VmArea) : Word × Word × VmaPtr := (v.start, v.valid, v.next)

namespace Kernel

variable {L : Link} {k k' k'' : Kernel} {p : Slot} {R : Kernel → Kernel → Prop}
variable {addr va length : Word} {n : Nat} {x : VmaPtr}

/-! ### What the write-back can do -/

/-- A relation that page faults of `p` and changes to files, one after another, stay within. -/
structure FaultClosed (L : Link) (p : Slot) (R : Kernel → Kernel → Prop) : Prop where
  refl : ∀ k, R k k
  trans : ∀ k k' k'', R k k' → R k' k'' → R k k''
  fault : ∀ k k' va, trapPgflt L k p va = .ok k' → R k k'
  files : ∀ (k : Kernel) file pipe inode,
    R k { k with file := file, pipe := pipe, inode := inode }

namespace FaultClosed

/-- Loading a byte of user memory, with the page fault it may take. -/
theorem loadByte {b : Byte} (hR : FaultClosed L p R) (h : k.loadByte L p va = .ok (b, k')) :
    R k k' := by
  -- the load itself changes nothing
  unfold Kernel.loadByte at h
  simp only [ok_bind] at h
  split at h
  · split at h
    · cases h
    · cases h
      exact hR.refl k
  · obtain ⟨k1, hfault, h⟩ := bind_eq_ok.mp h
    obtain ⟨k2, htrap, hallowed⟩ := bind_eq_ok.mp hfault
    split at h
    · cases h
    · cases h
      split at hallowed
      · cases hallowed
        exact hR.fault k _ va htrap
      · cases hallowed

theorem loadBytes {bs : List Byte} (hR : FaultClosed L p R)
    (h : Kernel.loadBytes L p k va n = .ok (bs, k')) : R k k' := by
  induction n generalizing k va bs with
  | zero =>
    cases h
    exact hR.refl _
  | succ n ih =>
    obtain ⟨⟨b, k1⟩, h1, h⟩ := bind_eq_ok.mp h
    obtain ⟨⟨bs', k2⟩, h2, h⟩ := bind_eq_ok.mp h
    cases h
    exact hR.trans _ _ _ (hR.loadByte h1) (ih h2)

variable {all : Bool}

section

variable (hR : FaultClosed L p R)
include hR

theorem pipewrite {pi : Nat} (h : Kernel.pipewrite L p pi k addr n = .ok (all, k')) : R k k' := by
  induction n generalizing k addr with
  | zero =>
    cases h
    exact hR.refl _
  | succ n ih =>
    unfold pipewrite at h
    split at h
    · split at h
      · cases h
        exact hR.refl _
      · cases h
    · obtain ⟨⟨b, k1⟩, h1, h⟩ := bind_eq_ok.mp h
      -- the byte is put into the pipe, and the next one follows
      have hput := hR.files k1 k1.file (update k1.pipe pi
        { k1.pipe pi with data := (k1.pipe pi).data ++ [b] }) k1.inode
      exact hR.trans _ _ _ (hR.loadByte h1) (hR.trans _ _ _ hput (ih h))

theorem filewriteLoop {fi : Fin NFILE} {fuel i : Nat}
    (h : Kernel.filewriteLoop L p fi addr n fuel k i = .ok (all, k')) : R k k' := by
  induction fuel generalizing k i with
  | zero => cases h
  | succ fuel ih =>
    unfold filewriteLoop at h
    split at h
    · obtain ⟨⟨bytes, k1⟩, h1, h⟩ := bind_eq_ok.mp h
      have hload := hR.loadBytes h1
      simp only at h
      split at h
      · cases h
        exact hload
      next c _ =>
        have hput := hR.files k1 (update k1.file fi { k1.file fi with
          off := (k1.file fi).off + BitVec.ofNat 32 (min (n - i) 1536) }) k1.pipe
          (update k1.inode (k1.file fi).ip c)
        exact hR.trans _ _ _ hload (hR.trans _ _ _ hput (ih h))
    · cases h
      exact hR.refl _

/-- Writing user memory to a file. -/
theorem filewrite {i : Fin NFILE} {n r : Int} (h : k.filewrite L p i addr n = .ok (r, k')) :
    R k k' := by
  unfold Kernel.filewrite at h
  simp only at h
  split at h
  · cases h
    exact hR.refl _
  split at h
  · obtain ⟨⟨all, k1⟩, h1, h⟩ := bind_eq_ok.mp h
    cases h
    exact hR.pipewrite h1
  · obtain ⟨⟨all, k1⟩, h1, h⟩ := bind_eq_ok.mp h
    cases h
    exact hR.filewriteLoop h1
  · cases h

/-- The whole write back. -/
theorem munmapWriteBack {vm : VmArea} (h : k.munmapWriteBack L p vm = .ok k') : R k k' := by
  unfold Kernel.munmapWriteBack at h
  split at h
  · split at h
    · rename_i fi _
      obtain ⟨⟨r, k1⟩, h1, h⟩ := bind_eq_ok.mp h
      cases h
      have hoff := hR.files k (Function.update k.file fi { k.file fi with off := 0 }) k.pipe k.inode
      exact hR.trans _ _ _ hoff (hR.filewrite h1)
    · cases h
  · cases h
    exact hR.refl _

end

end FaultClosed

/-- What a `munmap` that returns 0 has done. -/
theorem sysMunmap_zero (h : k.sysMunmap L p addr length = .ok (0, k')) :
    ¬ (addr % PGSIZE ≠ 0#32 ∨ addr < MIN_ADDR ∨ MAX_ADDR ≤ addr)
      ∧ ∃ vm, k.munmapFind addr loopBound (k.proc p).head = .ok (some vm)
        ∧ k.munmapWriteBack L p vm = .ok k' := by
  unfold sysMunmap at h
  split at h
  · cases h
  rename_i hargs
  obtain ⟨found, hfind, h⟩ := bind_eq_ok.mp h
  cases found with
  | none => cases h
  | some vm =>
    obtain ⟨k1, hwrite, h⟩ := bind_eq_ok.mp h
    obtain ⟨-, -, h⟩ := bind_eq_ok.mp h
    cases h
    exact ⟨hargs, vm, hfind, hwrite⟩

/-- `munmap` does nothing but write back. -/
theorem sysMunmap_related {r : Word} (hR : FaultClosed L p R)
    (h : k.sysMunmap L p addr length = .ok (r, k')) : R k k' := by
  unfold sysMunmap at h
  split at h
  · cases h
    exact hR.refl _
  obtain ⟨found, -, h⟩ := bind_eq_ok.mp h
  cases found with
  | none =>
    cases h
    exact hR.refl _
  | some vm =>
    obtain ⟨k1, hwrite, h⟩ := bind_eq_ok.mp h
    obtain ⟨-, -, h⟩ := bind_eq_ok.mp h
    cases h
    exact hR.munmapWriteBack hwrite

/-! ### The search -/

/-- The records of `k'` are linked as those of `k` are. -/
def SameLinks (k k' : Kernel) : Prop :=
  ∀ x v, k.deref x = .ok v → ∃ v', k'.deref x = .ok v' ∧ v'.link = v.link

theorem SameLinks.of_deref (h : ∀ x, k'.deref x = k.deref x) : SameLinks k k' :=
  fun x v hx => ⟨v, (h x).trans hx, rfl⟩

/-- Changing a record without changing its link. -/
theorem SameLinks.setVma {v v' : VmArea} (hx : k.deref x = .ok v) (hv : v'.link = v.link) :
    SameLinks k (k.setVma x v') := by
  intro y u hy
  by_cases hxy : y = x
  · subst hxy
    have hu : u = v := by
      rw [hx] at hy
      cases hy
      rfl
    refine ⟨v', deref_setVma_self k v' ?_, hu ▸ hv⟩
    rintro rfl
    cases hx
  · exact ⟨u, (deref_setVma_ne k v' hxy).trans hy, rfl⟩

/-- Growing an area moves its end and its guard page only. -/
theorem pgfltGrow_links (h : pgfltGrow L k p x = .ok k') : SameLinks k k' := by
  obtain ⟨c, hc, h⟩ := bind_eq_ok.mp h
  split at h
  · cases h
  obtain ⟨⟨mapped, s⟩, -, h⟩ := bind_eq_ok.mp h
  cases mapped with
  | true =>
    obtain ⟨next, -, h⟩ := bind_eq_ok.mp h
    cases h
    intro y u hy
    apply SameLinks.setVma (v := c)
    · cases x <;> exact hc
    · simp only [link, growsUp]
    · cases y <;> exact hy
  | false =>
    obtain ⟨s', -, h⟩ := bind_eq_ok.mp h
    cases h
    apply SameLinks.of_deref
    intro y
    rw [deref_kill]
    cases y <;> rfl

/-- A fault moves no link. -/
theorem trapPgflt_links (h : trapPgflt L k p va = .ok k') : SameLinks k k' := by
  have hN : Closed k (fun _ => True) := fun _ _ _ _ _ => .inr trivial
  rcases trapPgflt_cases hN trivial h with h | h | h | h | ⟨x, v, -, -, -, -, -, h⟩
  · cases h
    exact .of_deref (fun _ => rfl)
  · cases h
    exact .of_deref (deref_kill k p)
  · cases h
  · cases h
  · exact pgfltGrow_links h.symm

/-- Page faults and files leave the links alone. -/
theorem faultClosed_sameLinks : FaultClosed L p SameLinks where
  refl := fun k => .of_deref (fun _ => rfl)
  trans := by
    intro k k' k'' h h' x v hx
    obtain ⟨v', hv', hlink⟩ := h x v hx
    obtain ⟨v'', hv'', hlink'⟩ := h' x v' hv'
    exact ⟨v'', hv'', hlink'.trans hlink⟩
  fault := fun k k' va => trapPgflt_links
  files := by
    intro k file pipe inode
    apply SameLinks.of_deref
    intro x
    cases x <;> rfl

/-- The search depends on the links only. -/
theorem munmapFind_sameLinks (hlinks : SameLinks k k') {curr curr' vm : VmArea}
    (hcurr : curr'.link = curr.link) (h : k.munmapFind addr n curr = .ok (some vm)) :
    ∃ vm', k'.munmapFind addr n curr' = .ok (some vm') := by
  induction n generalizing curr curr' with
  | zero => cases h
  | succ n ih =>
    obtain ⟨hstart, hvalid, hnext⟩ : curr'.start = curr.start ∧ curr'.valid = curr.valid
        ∧ curr'.next = curr.next := by simpa [link] using hcurr
    unfold munmapFind at h ⊢
    rw [hstart, hvalid, hnext]
    split at h
    · cases h
    rename_i hmax
    rw [if_neg hmax]
    split at h
    · rename_i hfound
      exact ⟨curr', if_pos hfound⟩
    · rename_i hother
      rw [if_neg hother]
      obtain ⟨v, hv, h⟩ := bind_eq_ok.mp h
      obtain ⟨v', hv', hlink⟩ := hlinks _ _ hv
      rw [hv', ok_bind]
      exact ih hlink h

/-- What `munmap` has found it finds again: it returns 0 a second time, or does not return. -/
theorem munmap_finds_again {r : Word} (h : k.sysMunmap L p addr length = .ok (0, k'))
    (h' : k'.sysMunmap L p addr length = .ok (r, k'')) : r = 0 := by
  obtain ⟨hargs, vm, hfind, -⟩ := sysMunmap_zero h
  have hlinks : SameLinks k k' := sysMunmap_related faultClosed_sameLinks h
  obtain ⟨head, hhead, hlink⟩ := hlinks (.head p) _ rfl
  cases hhead
  obtain ⟨vm', hfind'⟩ := munmapFind_sameLinks hlinks hlink hfind
  unfold sysMunmap at h'
  rw [if_neg hargs, hfind', ok_bind] at h'
  obtain ⟨k1, -, h'⟩ := bind_eq_ok.mp h'
  obtain ⟨-, -, h'⟩ := bind_eq_ok.mp h'
  cases h'
  rfl

end Kernel

end Xv6
