import Xv6.VmSpec

namespace Xv6

open Kernel TwoLevel Function Outcome

/-!
# What `deallocuvm` and `allocuvm` do

They take user pages from an address space and give it new ones.  What they rely on is that
each page has a frame of its own (`Pages`): a frame mapped at two pages would be freed twice.

* `Returned` — frames that were given back;
* `deallocuvmLoop_rule` — what holds of the loop of `deallocuvm`, page by page;
* `deallocuvm_cleared`, `deallocuvm_returns` — the pages of a range are gone, whatever frames they
  have;
* `Cleared.resized` — where each page has a frame of its own these are free afterwards;
* `allocuvm_ok` — user pages come and go, nothing else does (`Resized`).
-/

variable {L : Link} {own own' own'' : Frame → Owner} {s s' s'' : Phys} {a : Space} {d t : Frame}
  {va : Word} {i : Idx} {lo mid hi : Nat}
variable {oldsz newsz : Word} {n : Nat} {f : Frame}

/-- User pages of `a` have come or gone; the kernel's half of its address space is as it
    was. -/
structure Resized (own : Frame → Owner) (s : Phys) (a : Space) (d : Frame) (own' : Frame → Owner)
    (s' : Phys) : Prop where
  free : Free own' s'
  tables : Tables own' s'.mem a d
  pages : Pages own' s' a d
  touch : Touch (Owner.within a) own s.mem own' s'.mem
  kernel : ∀ va, KERNBASE ≤ va → translate s' d va = translate s d va

theorem Resized.refl (hf : Free own s) (ht : Tables own s.mem a d) (hp : Pages own s a d) :
    Resized own s a d own s := ⟨hf, ht, hp, .refl, fun _ _ => rfl⟩

theorem Resized.trans (h : Resized own s a d own' s') (h' : Resized own' s' a d own'' s'') :
    Resized own s a d own'' s'' :=
  ⟨h'.free, h'.tables, h'.pages, h.touch.trans h'.touch,
    fun va hva => (h'.kernel va hva).trans (h.kernel va hva)⟩

/-! ### Frames that are given back -/

/-- A frame that `kfree` takes: it lies behind the kernel and below the end of memory. -/
def Usable (L : Link) (f : Frame) : Prop :=
  L.end_ ≤ P2V (base f) ∧ f.toNat < PHYSTOP.toNat / 4096

/-- `kfree` takes it. -/
theorem Usable.kfree (h : Usable L f) (s : Phys) : ∃ s', kfree L s (P2V (base f)) = .ok s' :=
  (kfree_base h.2).mpr (BitVec.not_lt.mpr h.1)

/-- The kernel starts behind address 0. -/
theorem Usable.ne_zero {w : Word} (h : Usable L (frameOf w)) : PTE_ADDR w ≠ 0#32 := by
  intro h0
  have hend : L.end_.toNat ≤ (P2V (base (frameOf w))).toNat := h.1
  rw [base_frameOf, h0] at hend
  have h1 := L.data_gt
  have h2 := L.data_le
  have hk : KERNLINK.toNat = 0x80100000 := rfl
  have hz : (P2V 0#32).toNat = 0x80000000 := rfl
  omega

/-- The frames in `fs` have been put in front of the free list, filled with junk. -/
structure Returned (s : Phys) (fs : List Frame) (s' : Phys) : Prop where
  freelist : s'.freelist = fs ++ s.freelist
  filled : ∀ g ∈ fs, ∀ i, i ≠ 0#10 → s'.mem g i = junk
  bound : ∀ g ∈ fs, g.toNat < PHYSTOP.toNat / 4096

/-- One frame. -/
theorem kfree_returned (h : kfree L s (P2V (base f)) = .ok s') :
    Returned s [f] s' ∧ ∀ g, g ≠ f → s'.mem g = s.mem g := by
  obtain ⟨hlist, hmem, hjunk⟩ := kfree_ok h
  have hbound := kfree_bound h
  rw [V2P_P2V, frameOf_base] at hlist hmem hjunk hbound
  refine ⟨⟨hlist, fun g hg => ?_, fun g hg => ?_⟩, hmem⟩
  · rw [List.mem_singleton.mp hg]
    exact hjunk
  · rwa [List.mem_singleton.mp hg]

/-- First the frames in `fs` were given back, then those in `fs'`. -/
theorem Returned.trans {fs fs' : List Frame} (h : Returned s fs s') (h' : Returned s' fs' s'')
    (hmem : ∀ g ∈ fs, g ∉ fs' → s''.mem g = s'.mem g) : Returned s (fs' ++ fs) s'' where
  freelist := by rw [h'.freelist, h.freelist, List.append_assoc]
  filled := by
    intro g hg i hi
    by_cases hin : g ∈ fs'
    · exact h'.filled g hin i hi
    · have hfs := (List.mem_append.mp hg).resolve_left hin
      rw [hmem g hfs hin]
      exact h.filled g hfs i hi
  bound := fun g hg => (List.mem_append.mp hg).elim (h'.bound g) (h.bound g)

/-- The owners when the frames in `fs` are free. -/
def freed (fs : List Frame) (own : Frame → Owner) : Frame → Owner :=
  fun g => if g ∈ fs then .free else own g

/-- The frames are free again. -/
theorem Free.returned {fs : List Frame} (hf : Free own s) (h : Returned s fs s') (hnd : fs.Nodup)
    (huse : ∀ g ∈ fs, own g ≠ .free) (hmem : ∀ g ∈ s.freelist, s'.mem g = s.mem g) :
    Free (freed fs own) s' := by
  refine ⟨?_, fun g hg => ?_, fun g hg i hi => ?_, fun g hg => ?_⟩
  · rw [h.freelist]
    exact hnd.append hf.nodup fun g h1 h2 => huse g h1 (hf.free g h2)
  all_goals
    rw [h.freelist] at hg
    by_cases hin : g ∈ fs
  · exact if_pos hin
  · exact (if_neg hin).trans (hf.free g ((List.mem_append.mp hg).resolve_left hin))
  · exact h.filled g hin i hi
  · have hold := (List.mem_append.mp hg).resolve_left hin
    rw [hmem g hold]
    exact hf.filled g hold i hi
  · exact h.bound g hin
  · exact hf.bound g ((List.mem_append.mp hg).resolve_left hin)

/-- An address space loses frames in `fs`, which belong to it. -/
theorem touch_freed {fs : List Frame} {P : Owner → Prop} (hfree : P .free)
    (hin : ∀ g ∈ fs, P (own g)) (hmem : ∀ g ∉ fs, s'.mem g = s.mem g ∨ P (own g)) :
    Touch P own s.mem (freed fs own) s'.mem := by
  intro g
  unfold freed
  by_cases hg : g ∈ fs
  · rw [if_pos hg]
    exact .inr ⟨hin g hg, hfree⟩
  · rw [if_neg hg]
    exact (hmem g hg).imp (fun h => ⟨rfl, h⟩) fun h => ⟨h, h⟩

/-! ### Taking pages away -/

/-- No two of the user pages that start in `[lo, hi)` share a frame. -/
def Unshared (s : Phys) (d : Frame) (lo hi : Nat) : Prop :=
  ∀ va va' pte pte' : Word, lo ≤ va.toNat → va.toNat / 4096 * 4096 < hi → lo ≤ va'.toNat →
    va'.toNat / 4096 * 4096 < hi → translate s d va = some pte → translate s d va' = some pte' →
    frameOf pte = frameOf pte' → frameOf va = frameOf va'

/-- The list has the frames of the pages that start in `[lo, hi)`. -/
def FramesIn (s : Phys) (d : Frame) (lo hi : Nat) (fs : List Frame) : Prop :=
  ∀ g, g ∈ fs ↔ ∃ va pte : Word, lo ≤ va.toNat ∧ va.toNat / 4096 * 4096 < hi ∧
    translate s d va = some pte ∧ frameOf pte = g

/-- The frame is that of a user page. -/
def UserFrame (s : Phys) (d f : Frame) : Prop :=
  ∃ va pte, va < KERNBASE ∧ translate s d va = some pte ∧ frameOf pte = f

/-- To show something of the loop of `deallocuvm` from an address on: nothing is done from the
    end on, nor where no page is mapped, and a page that is mapped is freed and its PTE
    cleared. -/
theorem deallocuvmLoop_rule {R : Nat → Phys → Res Phys → Prop} (hsz : oldsz.toNat ≤ KERNBASE.toNat)
    (hdone : ∀ s lo, lo % 4096 = 0 → oldsz.toNat ≤ lo → R lo s (.ok s))
    (hskip : ∀ s o lo mid, lo ≤ mid → mid % 4096 = 0 → mid ≤ KERNBASE.toNat →
      (∀ va : Word, lo ≤ va.toNat → va.toNat < mid → translate s d va = none) →
      R mid s o → R lo s o)
    (hpage : ∀ (s : Phys) (va pte : Word) (o : Phys → Res Phys), va < oldsz → va.toNat % 4096 = 0 →
      translate s d va = some pte →
      (∀ s1, kfree L s (P2V (PTE_ADDR pte)) = .ok s1 → R (va.toNat + 4096)
        (s1.store (frameOf (s.mem d (PDX va))) (PTX va) 0)
        (o (s1.store (frameOf (s.mem d (PDX va))) (PTX va) 0))) →
      R va.toNat s (if PTE_ADDR pte = 0#32 then .panic .kfree
        else kfree L s (P2V (PTE_ADDR pte)) >>= fun s1 =>
          o (s1.store (frameOf (s.mem d (PDX va))) (PTX va) 0)))
    (hal : va.toNat % 4096 = 0) (hn : oldsz.toNat ≤ va.toNat + n * 4096) :
    R va.toNat s (deallocuvmLoop L d oldsz (n + 1) s va) := by
  have hkern := toNat_KERNBASE
  have hend {n : Nat} {s : Phys} {va : Word} (hal : va.toNat % 4096 = 0)
      (hge : oldsz.toNat ≤ va.toNat) : R va.toNat s (deallocuvmLoop L d oldsz (n + 1) s va) := by
    rw [deallocuvmLoop, if_neg (BitVec.not_lt.mpr (BitVec.le_def.mpr hge))]
    exact hdone s _ hal hge
  induction n generalizing s va with
  | zero => exact hend hal (by omega)
  | succ n ih =>
    by_cases hlt : va < oldsz
    · have hlt' : va.toNat < oldsz.toNat := hlt
      have hnext := toNat_add_PGSIZE va (by omega)
      have hrest (s : Phys) : R (va.toNat + 4096) s
          (deallocuvmLoop L d oldsz (n + 1) s (va + PGSIZE)) := by
        rw [← hnext]
        exact ih (by omega) (by omega)
      rw [deallocuvmLoop, if_pos hlt, walkpgdir_false]
      by_cases hpde : s.mem d (PDX va) &&& PTE_P ≠ 0#32
      · simp only [if_pos hpde]
        by_cases hpte : s.mem (frameOf (s.mem d (PDX va))) (PTX va) &&& PTE_P ≠ 0#32
        · rw [if_pos hpte]
          exact hpage s va _ (fun s => deallocuvmLoop L d oldsz (n + 1) s (va + PGSIZE)) hlt hal
            (translate_iff.mpr ⟨hpde, rfl, hpte⟩) fun _ _ => hrest _
        · rw [if_neg hpte]
          refine hskip s _ _ _ (by omega) (by omega) (by omega) (fun va' h1 h2 => ?_) (hrest s)
          -- the page is not present
          rw [translate_congr_page s d ((frameOf_eq_iff hal va').mpr ⟨h1, h2⟩),
            Kernel.translate, pte?_eq_leaf, leaf_of_valid ((pdeFormat_valid _).mpr hpde)]
          simpa using hpte
      · simp only [if_neg hpde]
        have hpdx := toNat_PDX va
        -- the first address of the next slot
        have hslot : (PGADDR ((PDX va).setWidth 32 + 1) - PGSIZE + PGSIZE).toNat
            = ((PDX va).toNat + 1) * 2 ^ 22 := by
          rw [BitVec.sub_add_cancel, PGADDR, BitVec.toNat_shiftLeft, BitVec.toNat_add,
            BitVec.toNat_setWidth, Nat.shiftLeft_eq]
          have h1 : (1 : Word).toNat = 1 := rfl
          omega
        refine hskip s _ _ _ (by omega) (by omega) (by omega) (fun va' h1 h2 => ?_)
          (ih (by omega) (by omega))
        have hsame : PDX va' = PDX va := by
          apply BitVec.eq_of_toNat_eq
          rw [toNat_PDX va']
          omega
        rw [Kernel.translate, pte?_eq_leaf, hsame,
          leaf_of_not_valid (by simpa [pdeFormat] using hpde)]
        rfl
    · exact hend hal (BitVec.not_lt.mp hlt)

/-- The frames of user pages are none of the address space's tables. -/
def Apart (own : Frame → Owner) (s : Phys) (a : Space) (d : Frame) : Prop :=
  ∀ va pte, va < KERNBASE → translate s d va = some pte →
    ¬ (own (frameOf pte) = .dir a ∨ ∃ i, own (frameOf pte) = .table a i)

theorem Pages.apart (hp : Pages own s a d) : Apart own s a d := by
  intro va pte hva hpte
  rw [hp va pte hva hpte]
  simp

/-- No frame is mapped twice. -/
theorem Pages.unshared (hp : Pages own s a d) (hhi : hi ≤ KERNBASE.toNat) : Unshared s d lo hi := by
  have hkern := toNat_KERNBASE
  intro va va' pte pte' h1 h2 h3 h4 h5 h6 heq
  have ho := hp va pte (BitVec.lt_def.mpr (by omega)) h5
  rw [heq, hp va' pte' (BitVec.lt_def.mpr (by omega)) h6] at ho
  exact (Owner.page.inj ho).2.symm

theorem FramesIn.userFrame {fs : List Frame} (h : FramesIn s d 0 KERNBASE.toNat fs) (g : Frame) :
    g ∈ fs ↔ UserFrame s d g := by
  have hkern := toNat_KERNBASE
  rw [h g]
  constructor
  · rintro ⟨va, pte, -, h2, h3, h4⟩
    exact ⟨va, pte, BitVec.lt_def.mpr (by omega), h3, h4⟩
  · rintro ⟨va, pte, h2, h3, h4⟩
    have h2' : va.toNat < KERNBASE.toNat := h2
    exact ⟨va, pte, by omega, by omega, h3, h4⟩

/-- The user pages that start in `[lo, hi)` are gone and their frames, which are those in `fs`, have
    been given back; two of them may have shared one. -/
structure Cleared (own : Frame → Owner) (s : Phys) (a : Space) (d : Frame) (lo hi : Nat)
    (fs : List Frame) (s' : Phys) : Prop where
  tables : Tables own s'.mem a d
  dir : s'.mem d = s.mem d
  gone : ∀ va : Word, lo ≤ va.toNat → va.toNat / 4096 * 4096 < hi → translate s' d va = none
  same : ∀ va : Word, ¬ (lo ≤ va.toNat ∧ va.toNat / 4096 * 4096 < hi) →
    translate s' d va = translate s d va
  frames : FramesIn s d lo hi fs
  nodup : Unshared s d lo hi → fs.Nodup
  returned : Returned s fs s'
  data : ∀ g, ¬ (own g = .dir a ∨ ∃ i, own g = .table a i) → g ∉ fs → s'.mem g = s.mem g

namespace Cleared

variable {fs fs' : List Frame}

theorem refl (ht : Tables own s.mem a d) (hhi : hi ≤ lo) (hlo : lo % 4096 = 0) :
    Cleared own s a d lo hi [] s where
  tables := ht
  dir := rfl
  gone := fun _ h1 h2 => absurd h2 (by omega)
  same := fun _ _ => rfl
  frames := by
    refine fun g => ⟨nofun, ?_⟩
    rintro ⟨va, pte, h1, h2, -⟩
    omega
  nodup := fun _ => List.nodup_nil
  returned := ⟨rfl, nofun, nofun⟩
  data := fun _ _ _ => rfl

/-- Where there is nothing mapped, nothing needs to be done. -/
theorem skip (h : Cleared own s a d mid hi fs s')
    (hnone : ∀ va : Word, lo ≤ va.toNat → va.toNat < mid → translate s d va = none)
    (hlo : lo ≤ mid) : Cleared own s a d lo hi fs s' :=
  { h with
    gone := by
      intro va h1 h2
      by_cases hm : mid ≤ va.toNat
      · exact h.gone va hm h2
      · rw [h.same va (by omega)]
        exact hnone va h1 (by omega)
    same := fun va hva => h.same va (by omega)
    frames := by
      refine fun g => (h.frames g).trans ⟨?_, ?_⟩
      · rintro ⟨va, pte, h1, h2⟩
        exact ⟨va, pte, by omega, h2⟩
      · rintro ⟨va, pte, h1, h2, h3, h4⟩
        refine ⟨va, pte, ?_, h2, h3, h4⟩
        by_contra hlt
        rw [hnone va h1 (by omega)] at h3
        cases h3
    nodup := fun hun => h.nodup fun va va' pte pte' h1 h2 h3 h4 =>
      hun va va' pte pte' (by omega) h2 (by omega) h4 }

theorem apart (h : Cleared own s a d lo hi fs s') (hp : Apart own s a d) : Apart own s' a d := by
  intro va pte hva hpte
  by_cases hin : lo ≤ va.toNat ∧ va.toNat / 4096 * 4096 < hi
  · rw [h.gone va hin.1 hin.2] at hpte
    cases hpte
  · rw [h.same va hin] at hpte
    exact hp va pte hva hpte

/-- Two stretches. -/
theorem trans (h : Cleared own s a d lo mid fs s') (h' : Cleared own s' a d mid hi fs' s'')
    (hp : Apart own s a d) (hlo : lo ≤ mid) (hmid : mid % 4096 = 0) (hhi : mid < hi + 4096)
    (hkern : mid ≤ 0x80000000) : Cleared own s a d lo hi (fs' ++ fs) s'' where
  tables := h'.tables
  dir := h'.dir.trans h.dir
  gone := by
    intro va h1 h2
    by_cases hm : mid ≤ va.toNat
    · exact h'.gone va hm h2
    · rw [h'.same va (by omega)]
      exact h.gone va h1 (by omega)
  same := by
    intro va hva
    rw [h'.same va (by omega), h.same va (by omega)]
  frames := by
    intro g
    rw [List.mem_append, h'.frames, h.frames]
    constructor
    · rintro (⟨va, pte, h1, h2, h3, h4⟩ | ⟨va, pte, h1, h2, h3, h4⟩)
      · exact ⟨va, pte, by omega, h2, by rw [← h.same va (by omega)]; exact h3, h4⟩
      · exact ⟨va, pte, h1, by omega, h3, h4⟩
    · rintro ⟨va, pte, h1, h2, h3, h4⟩
      by_cases hm : mid ≤ va.toNat
      · exact .inl ⟨va, pte, hm, h2, by rw [h.same va (by omega)]; exact h3, h4⟩
      · exact .inr ⟨va, pte, h1, by omega, h3, h4⟩
  nodup := by
    intro hun
    have hbelow (x : Nat) (hx : x / 4096 * 4096 < mid) : x / 4096 * 4096 < hi := by omega
    refine (h'.nodup ?_).append (h.nodup ?_) fun g hg hg' => ?_
    · intro va va' pte pte' h1 h2 h3 h4 h5 h6
      rw [h.same va (by omega)] at h5
      rw [h.same va' (by omega)] at h6
      exact hun va va' pte pte' (hlo.trans h1) h2 (hlo.trans h3) h4 h5 h6
    · intro va va' pte pte' h1 h2 h3 h4
      exact hun va va' pte pte' h1 (hbelow _ h2) h3 (hbelow _ h4)
    · -- a page on each side of `mid`
      obtain ⟨va, pte, h1, h2, h3, rfl⟩ := (h'.frames g).mp hg
      obtain ⟨va', pte', h1', h2', h3', h4'⟩ := (h.frames _).mp hg'
      rw [h.same va (by omega)] at h3
      have heq := hun va va' pte pte' (hlo.trans h1) h2 h1' (hbelow _ h2') h3 h3' h4'.symm
      rw [← BitVec.toNat_inj, toNat_frameOf, toNat_frameOf] at heq
      omega
  returned := by
    refine h.returned.trans h'.returned fun g hg hg' => h'.data g ?_ hg'
    obtain ⟨va, pte, h1, h2, h3, rfl⟩ := (h.frames g).mp hg
    exact hp va pte (BitVec.lt_def.mpr (show va.toNat < 0x80000000 by omega)) h3
  data := by
    intro g hg hfs
    rw [List.mem_append, not_or] at hfs
    rw [h'.data g hg hfs.1, h.data g hg hfs.2]

end Cleared

/-- Freeing the frame of a page, which is none of the tables, and clearing its PTE. -/
theorem unmapPage_cleared {w : Word} (ht : Tables own s.mem a d) (hal : va.toNat % 4096 = 0)
    (htr : translate s d va = some w)
    (hown : ¬ (own (frameOf w) = .dir a ∨ ∃ i, own (frameOf w) = .table a i))
    (h : kfree L s (P2V (PTE_ADDR w)) = .ok s') :
    Cleared own s a d va.toNat (va.toNat + 4096) [frameOf w]
      (s'.store (frameOf (s.mem d (PDX va))) (PTX va) 0) := by
  obtain ⟨hpde, -, -⟩ := translate_iff.mp htr
  have htab : own (frameOf (s.mem d (PDX va))) = .table a (PDX va) :=
    ht.table _ ((pdeFormat_valid _).mpr hpde)
  rw [← base_frameOf] at h
  obtain ⟨hret, hmem⟩ := kfree_returned h
  have hne : ∀ g, (own g = .dir a ∨ ∃ i, own g = .table a i) → g ≠ frameOf w := by
    rintro g hg rfl
    exact hown hg
  have hd : d ≠ frameOf w := hne d (.inl ht.dir)
  have ht' : Tables own s'.mem a d :=
    Rooted.congr ht (fun g hg => ⟨hmem g (hne g hg), rfl⟩)
  have htr' : ∀ va', translate s' d va' = translate s d va' :=
    translate_congr ht (fun g hg => hmem g (hne g hg))
  have hpde' : s'.mem d (PDX va) &&& PTE_P ≠ 0#32 := by
    rw [hmem d hd]
    exact hpde
  have hclear := translate_clear ht' hpde'
  rw [hmem d hd] at hclear
  have hpage := frameOf_eq_iff hal
  have hin : ∀ va' : Word, va.toNat ≤ va'.toNat → va'.toNat / 4096 * 4096 < va.toNat + 4096 →
      frameOf va' = frameOf va := fun va' h1 h2 => (hpage va').mpr ⟨h1, by omega⟩
  have hstore : ∀ g, ¬ (own g = .dir a ∨ ∃ i, own g = .table a i) →
      (s'.store (frameOf (s.mem d (PDX va))) (PTX va) 0).mem g = s'.mem g := by
    refine fun g hg => setFrame_mem_ne _ _ ?_
    rintro rfl
    exact hg (.inr ⟨_, htab⟩)
  refine ⟨?_, ?_, fun va' h1 h2 => ?_, fun va' hva' => ?_, fun g => ?_,
    fun _ => List.nodup_singleton _,
    ⟨hret.freelist, fun g hg => ?_, hret.bound⟩, fun g hg hfs => ?_⟩
  · have hw := Rooted.write ht' (tags a) ((pdeFormat_valid _).mpr hpde') (PTX va) (0 : Word)
    rw [pdeFormat_target, hmem d hd] at hw
    exact hw
  · have hdt : d ≠ frameOf (s.mem d (PDX va)) :=
      (ht.table_ne_dir (tags a) ((pdeFormat_valid _).mpr hpde)).symm
    rw [store_eq_setFrame, setFrame_mem_ne _ _ hdt, hmem d hd]
  · rw [hclear, if_pos (hin va' h1 h2)]
  · rw [hclear, if_neg (fun heq => hva' ?_), htr']
    have := (hpage va').mp heq
    omega
  · rw [List.mem_singleton]
    constructor
    · rintro rfl
      exact ⟨va, w, by omega, by omega, htr, rfl⟩
    · rintro ⟨va', pte, h1, h2, h3, rfl⟩
      rw [translate_congr_page s d (hin va' h1 h2), htr] at h3
      cases h3
      rfl
  · rw [hstore g (by rw [List.mem_singleton.mp hg]; exact hown)]
    exact hret.filled g hg
  · rw [hstore g hg, hmem g fun heq => hfs (List.mem_singleton.mpr heq)]

/-- The loop of `deallocuvm` takes away the pages up to the old size. -/
theorem deallocuvmLoop_cleared (ht : Tables own s.mem a d) (hp : Apart own s a d)
    (hsz : oldsz.toNat ≤ KERNBASE.toNat) (hal : va.toNat % 4096 = 0)
    (hn : oldsz.toNat ≤ va.toNat + n * 4096)
    (h : deallocuvmLoop L d oldsz (n + 1) s va = .ok s') :
    ∃ fs, Cleared own s a d va.toNat oldsz.toNat fs s' := by
  refine deallocuvmLoop_rule (L := L) (R := fun lo s o => ∀ s', o = .ok s' → Tables own s.mem a d →
    Apart own s a d → ∃ fs, Cleared own s a d lo oldsz.toNat fs s') hsz ?_ ?_ ?_ hal hn s' h ht hp
  · intro s lo hal hle s' h ht hp
    cases h
    exact ⟨[], .refl ht hle hal⟩
  · intro s o lo mid hle _ _ hnone hrest s' h ht hp
    obtain ⟨fs, w⟩ := hrest s' h ht hp
    exact ⟨fs, w.skip hnone hle⟩
  · intro s va pte o hlt hal htr hrest s' h ht hp
    have hlt' : va.toNat < oldsz.toNat := hlt
    have hkern := toNat_KERNBASE
    split at h
    · cases h
    obtain ⟨s1, hfree, h⟩ := bind_eq_ok.mp h
    have w := unmapPage_cleared ht hal htr (hp va pte (BitVec.lt_def.mpr (by omega)) htr) hfree
    obtain ⟨fs, w'⟩ := hrest s1 hfree s' h w.tables (w.apart hp)
    exact ⟨_, w.trans w' hp (by omega) (by omega) (by omega) (by omega)⟩

/-- It returns if the frames of the pages are ones that `kfree` takes. -/
theorem deallocuvmLoop_returns (ht : Tables own s.mem a d) (hp : Apart own s a d)
    (hu : ∀ g, UserFrame s d g → Usable L g) (hsz : oldsz.toNat ≤ KERNBASE.toNat)
    (hal : va.toNat % 4096 = 0) (hn : oldsz.toNat ≤ va.toNat + n * 4096) :
    ∃ s', deallocuvmLoop L d oldsz (n + 1) s va = .ok s' := by
  refine deallocuvmLoop_rule (R := fun _ s o => Tables own s.mem a d → Apart own s a d →
    (∀ g, UserFrame s d g → Usable L g) → ∃ s', o = .ok s') hsz ?_ ?_ ?_ hal hn ht hp hu
  · exact fun s _ _ _ _ _ _ => ⟨s, rfl⟩
  · exact fun _ _ _ _ _ _ _ _ h => h
  · intro s va pte o hlt hal htr hrest ht hp hu
    have hlt' : va.toNat < oldsz.toNat := hlt
    have hva : va < KERNBASE := BitVec.lt_def.mpr (by omega)
    have husable := hu _ ⟨va, pte, hva, htr, rfl⟩
    obtain ⟨s1, hfree⟩ := husable.kfree s
    rw [base_frameOf] at hfree
    have w := unmapPage_cleared ht hal htr (hp va pte hva htr) hfree
    rw [if_neg husable.ne_zero, hfree, ok_bind]
    refine hrest s1 hfree w.tables (w.apart hp) ?_
    rintro g ⟨va', pte', hva', hpte', rfl⟩
    by_cases hin : va.toNat ≤ va'.toNat ∧ va'.toNat / 4096 * 4096 < va.toNat + 4096
    · rw [w.gone va' hin.1 hin.2] at hpte'
      cases hpte'
    · rw [w.same va' hin] at hpte'
      exact hu _ ⟨va', pte', hva', hpte', rfl⟩

theorem loopBound_eq : loopBound = 2097151 + 1 := rfl

/-- `deallocuvm` takes away the pages between the two sizes. -/
theorem deallocuvm_cleared {r : Word} (ht : Tables own s.mem a d) (hp : Apart own s a d)
    (hsz : oldsz.toNat ≤ KERNBASE.toNat) (hlt : newsz < oldsz)
    (h : deallocuvm L s d oldsz newsz = .ok (r, s')) :
    r = newsz ∧ ∃ fs, Cleared own s a d (PGROUNDUP newsz).toNat oldsz.toNat fs s' := by
  unfold deallocuvm at h
  rw [if_neg (BitVec.not_le.mpr hlt), loopBound_eq] at h
  obtain ⟨s1, hloop, h⟩ := bind_eq_ok.mp h
  cases h
  exact ⟨rfl, deallocuvmLoop_cleared ht hp hsz (toNat_PGROUNDUP_mod newsz) (by omega) hloop⟩

/-- `deallocuvm` does not panic. -/
theorem deallocuvm_returns (ht : Tables own s.mem a d) (hp : Apart own s a d)
    (hu : ∀ g, UserFrame s d g → Usable L g) (hsz : oldsz.toNat ≤ KERNBASE.toNat)
    (hlt : newsz < oldsz) : ∃ s', deallocuvm L s d oldsz newsz = .ok (newsz, s') := by
  obtain ⟨s', hloop⟩ := deallocuvmLoop_returns ht hp hu hsz (toNat_PGROUNDUP_mod newsz)
    (show oldsz.toNat ≤ _ + 2097151 * 4096 by omega)
  refine ⟨s', ?_⟩
  rw [deallocuvm, if_neg (BitVec.not_le.mpr hlt), loopBound_eq, hloop]
  rfl

/-- Where each page has a frame of its own these are free afterwards. -/
theorem Cleared.resized {fs : List Frame} (h : Cleared own s a d lo hi fs s') (hf : Free own s)
    (hp : Pages own s a d) (hhi : hi ≤ KERNBASE.toNat) : Resized own s a d (freed fs own) s' := by
  have hkern := toNat_KERNBASE
  have hfs : ∀ g ∈ fs, ∃ va : Word, (lo ≤ va.toNat ∧ va.toNat / 4096 * 4096 < hi) ∧
      own g = .page a (frameOf va) := by
    intro g hg
    obtain ⟨va, pte, h1, h2, h3, rfl⟩ := (h.frames g).mp hg
    exact ⟨va, ⟨h1, h2⟩, hp va pte (BitVec.lt_def.mpr (by omega)) h3⟩
  have huse : ∀ g ∈ fs, own g ≠ .free := by
    intro g hg
    obtain ⟨va, -, ho⟩ := hfs g hg
    rw [ho]
    nofun
  have hout : ∀ g, (own g = .dir a ∨ ∃ i, own g = .table a i) → g ∉ fs := by
    intro g ho hg
    obtain ⟨va, -, hpage⟩ := hfs g hg
    rw [hpage] at ho
    rcases ho with ho | ⟨i, ho⟩ <;> cases ho
  refine ⟨hf.returned h.returned (h.nodup (hp.unshared hhi)) huse fun g hg => ?_, ?_,
    fun va pte hva hpte => ?_,
    touch_freed trivial (fun g hg => ?_) fun g hg => ?_, fun va hva => h.same va ?_⟩
  · have ho := hf.free g hg
    exact h.data g (by simp [ho]) fun hg => huse g hg ho
  · exact Rooted.congr h.tables fun g hg => ⟨rfl, if_neg (hout g hg)⟩
  · have hnot {va' : Word} (heq : frameOf va = frameOf va') :
        ¬ (lo ≤ va'.toNat ∧ va'.toNat / 4096 * 4096 < hi) := by
      intro hin
      rw [translate_congr_page s' d heq, h.gone va' hin.1 hin.2] at hpte
      cases hpte
    rw [h.same va (hnot rfl)] at hpte
    have ho := hp va pte hva hpte
    refine (if_neg fun hg => ?_).trans ho
    obtain ⟨va', hin, ho'⟩ := hfs _ hg
    rw [ho] at ho'
    exact hnot (Owner.page.inj ho').2 hin
  · obtain ⟨va, -, ho⟩ := hfs g hg
    rw [ho]
    rfl
  · by_cases ho : own g = .dir a ∨ ∃ i, own g = .table a i
    · right
      rcases ho with ho | ⟨i, ho⟩ <;> rw [ho] <;> rfl
    · exact .inl (h.data g ho hg)
  · have hge : KERNBASE.toNat ≤ va.toNat := hva
    omega

/-- The size it returns. -/
theorem deallocuvm_size {r : Word} (h : deallocuvm L s d oldsz newsz = .ok (r, s')) :
    r = if oldsz ≤ newsz then oldsz else newsz := by
  unfold deallocuvm at h
  by_cases hle : oldsz ≤ newsz
  · rw [if_pos hle] at h ⊢
    cases h
    rfl
  · rw [if_neg hle] at h ⊢
    obtain ⟨s1, -, h⟩ := bind_eq_ok.mp h
    cases h
    rfl

/-- `deallocuvm` keeps the tables. -/
theorem deallocuvm_resized {r : Word} (hf : Free own s) (ht : Tables own s.mem a d)
    (hp : Pages own s a d) (hsz : oldsz.toNat ≤ KERNBASE.toNat)
    (h : deallocuvm L s d oldsz newsz = .ok (r, s')) : ∃ own', Resized own s a d own' s' := by
  by_cases hlt : newsz < oldsz
  · obtain ⟨-, fs, w⟩ := deallocuvm_cleared ht hp.apart hsz hlt h
    exact ⟨_, w.resized hf hp hsz⟩
  · rw [deallocuvm, if_pos (BitVec.not_lt.mp hlt)] at h
    cases h
    exact ⟨own, .refl hf ht hp⟩

/-! ### Giving new pages -/

/-- A fresh frame given to an owner that is not one of `a`'s tables leaves `a`'s pages
    alone. -/
theorem Pages.newPage_start (hf : Free own s) (ht : Tables own s.mem a d) (hp : Pages own s a d)
    {s1 : Phys} (hk : kalloc s = (some f, s1)) {o : Owner} (ho : ¬ o.inTables a) (x : Idx → Word) :
    Pages (Function.update own f o) (s1.setFrame f x) a d := by
  obtain ⟨-, -, htr⟩ := Xv6.newPage_start hf ht hk ho x
  obtain ⟨hl, -⟩ := kalloc_some hk
  have hof : own f = .free := hf.free f (by simp [hl])
  intro va pte hva hpte
  rw [htr] at hpte
  have hown := hp va pte hva hpte
  rw [update_of_ne, hown]
  rintro rfl
  rw [hof] at hown
  cases hown

/-- A new user page whose permissions are flags only. -/
theorem NewPage.resized {x : Idx → Word} {perm : Word} (hp : Pages own s a d) (hva : va < KERNBASE)
    (hal : va.toNat % 4096 = 0) (hperm : (perm ||| PTE_P).toNat < 4096)
    (w : NewPage own s a d va f x perm own' s') : Resized own s a d own' s' where
  free := w.free
  tables := w.tables
  pages := by
    intro va' pte hva' hpte
    rw [w.after] at hpte
    by_cases heq : frameOf va' = frameOf va
    · rw [if_pos heq, Option.some.injEq, BitVec.or_assoc] at hpte
      rw [← hpte, frameOf_base_or hperm, heq]
      exact w.frame
    · rw [if_neg heq] at hpte
      have hown := hp va' pte hva' hpte
      rw [w.keep _ (by rw [hown]; simp), hown]
  touch := w.touch
  kernel := by
    intro va' hva'
    rw [w.after, if_neg]
    intro heq
    have h1 := (frameOf_eq_iff hal va').mp heq
    have h2 : va.toNat < KERNBASE.toNat := hva
    have h3 : KERNBASE.toNat ≤ va'.toNat := hva'
    have hkern := toNat_KERNBASE
    omega

section

variable (hf : Free own s) (ht : Tables own s.mem a d) (hp : Pages own s a d)
include hf ht hp

/-- A frame that is not `a`'s is freed. -/
theorem kfree_outside {v : Word} (h : kfree L s v = .ok s')
    (ho : ¬ (own (frameOf (V2P v))).within a) :
    Free (Function.update own (frameOf (V2P v)) .free) s'
      ∧ Tables (Function.update own (frameOf (V2P v)) .free) s'.mem a d
      ∧ Pages (Function.update own (frameOf (V2P v)) .free) s' a d
      ∧ (∀ va, translate s' d va = translate s d va)
      ∧ ∀ g, g ≠ frameOf (V2P v) → s'.mem g = s.mem g := by
  have hfree := hf.kfree h (fun heq => ho (by rw [heq]; trivial))
  obtain ⟨-, hmem, -⟩ := kfree_ok h
  generalize frameOf (V2P v) = f at *
  have hne : ∀ g, (own g = .dir a ∨ ∃ i, own g = .table a i) → g ≠ f := by
    rintro g hg rfl
    rcases hg with hg | ⟨i, hg⟩ <;> exact ho (by rw [hg]; rfl)
  have htr : ∀ va, translate s' d va = translate s d va :=
    translate_congr ht (fun g hg => hmem g (hne g hg))
  refine ⟨hfree, Rooted.congr ht (fun g hg =>
    ⟨hmem g (hne g hg), update_of_ne (hne g hg) _ _⟩), fun va pte hva hpte => ?_, htr, hmem⟩
  rw [htr] at hpte
  have hown := hp va pte hva hpte
  rw [update_of_ne, hown]
  rintro rfl
  exact ho (by rw [hown]; rfl)

/-- Grown, or undone. -/
theorem allocuvmLoop_ok {r : Word} (hsz : newsz < KERNBASE) (hal : va.toNat % 4096 = 0)
    (h : allocuvmLoop L d oldsz newsz n s va = .ok (r, s')) :
    (r = newsz ∨ r = 0) ∧ ∃ own', Resized own s a d own' s' := by
  have hkern := toNat_KERNBASE
  have hsz' : newsz.toNat < KERNBASE.toNat := hsz
  induction n generalizing own s va with
  | zero => cases h
  | succ n ih =>
    unfold allocuvmLoop at h
    by_cases hlt : va < newsz
    · have hlt' : va.toNat < newsz.toNat := hlt
      rw [if_pos hlt] at h
      cases hk : kalloc s with
      | mk o s1 =>
      cases o with
      | none =>
        -- out of memory: take back what was given
        obtain ⟨-, rfl⟩ := kalloc_none hk
        simp only [hk] at h
        obtain ⟨⟨r1, s2⟩, hde, h⟩ := bind_eq_ok.mp h
        cases h
        exact ⟨.inr rfl, deallocuvm_resized hf ht hp (by omega) hde⟩
      | some f =>
        simp only [hk] at h
        obtain ⟨⟨mapped, s2⟩, hmap, h⟩ := bind_eq_ok.mp h
        cases mapped with
        | true =>
          obtain ⟨own1, w⟩ := newPage_true hf ht hal hk hmap
          have hva : va < KERNBASE := by
            show va.toNat < KERNBASE.toNat
            omega
          have w1 := w.resized hp hva hal (by decide)
          have hnext := toNat_add_PGSIZE va (by omega)
          obtain ⟨hr, own2, w2⟩ := ih w1.free w1.tables w1.pages (by omega) h
          exact ⟨hr, own2, w1.trans w2⟩
        | false =>
          -- no memory for a page table: the frame is given back as well
          obtain ⟨⟨r1, s3⟩, hde, h⟩ := bind_eq_ok.mp h
          obtain ⟨s4, hfree, h⟩ := bind_eq_ok.mp h
          cases h
          obtain ⟨rfl, -, -⟩ := mappages_page_false hal hmap
          obtain ⟨hl, hm⟩ := kalloc_some hk
          have hof : own f = .free := hf.free f (by simp [hl])
          have hres : ¬ (Owner.reserved).inTables a := id
          obtain ⟨hf1, ht1, htr1⟩ := newPage_start hf ht hk hres (fun _ => 0)
          have hp1 := hp.newPage_start hf ht hk hres (fun _ => 0)
          obtain ⟨own2, w⟩ := deallocuvm_resized hf1 ht1 hp1 (by omega) hde
          have hres2 : own2 f = .reserved := by
            have := (w.touch.keeps (f := f) (by rw [update_self]; exact id)).1
            rwa [update_self] at this
          have hname : frameOf (V2P (P2V (base f))) = f := by rw [V2P_P2V, frameOf_base]
          obtain ⟨hf3, ht3, hp3, htr3, hm3⟩ :=
            kfree_outside w.free w.tables w.pages hfree (by rw [hname, hres2]; exact id)
          rw [hname] at hf3 ht3 hp3 hm3
          refine ⟨.inr rfl, update own2 f .free, hf3, ht3, hp3, fun g => ?_, fun va' hva' => ?_⟩
          · by_cases hg : g = f
            · subst hg
              exact .inr ⟨by rw [hof]; trivial, by rw [update_self]; trivial⟩
            · rw [update_of_ne hg, hm3 g hg, ← hm, ← setFrame_mem_ne s1 (fun _ => 0) hg]
              simpa [update_of_ne hg] using w.touch g
          · rw [htr3, w.kernel va' hva', htr1]
    · rw [if_neg hlt] at h
      cases h
      exact ⟨.inl rfl, own, .refl hf ht hp⟩

/-- `allocuvm` gives user pages only; it returns a size below `KERNBASE`, or 0. -/
theorem allocuvm_ok {r : Word} (hsz : oldsz < KERNBASE)
    (h : allocuvm L s d oldsz newsz = .ok (r, s')) :
    r < KERNBASE ∧ ∃ own', Resized own s a d own' s' := by
  unfold allocuvm at h
  split at h
  · cases h
    exact ⟨by decide, own, .refl hf ht hp⟩
  rename_i hlt
  split at h
  · cases h
    exact ⟨hsz, own, .refl hf ht hp⟩
  · have hlt' := BitVec.not_le.mp hlt
    obtain ⟨hr, w⟩ := allocuvmLoop_ok hf ht hp hlt' (toNat_PGROUNDUP_mod oldsz) h
    refine ⟨?_, w⟩
    rcases hr with rfl | rfl
    · exact hlt'
    · decide

end

end Xv6
