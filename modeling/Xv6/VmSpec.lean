import Xv6.Owner

namespace Xv6

open Function Kernel List Owner TwoLevel Phys Option Outcome

/-!
# What the page-table routines do to memory

One lemma for each routine of `kalloc.c` and `vm.c`, stated with owners: given a free list
and an address space kept apart by `own`, the routine leaves them kept apart by some
`own'`, and says what became of the translations.
-/

variable {own own' : Frame → Owner} {s s' : Phys} {a : Space} {d t : Frame} {va : Word} {i : Idx}
variable {f : Frame} {i : Idx} {L : Link} {v va perm pa : Word} {n : Nat} {e : Panic} {s1 : Phys}
   {x : Idx → Word}

/-! ### Single frames -/

/-- Replace the contents of a frame. -/
def Phys.setFrame (s : Phys) (f : Frame) (x : Idx → Word) : Phys :=
  { s with mem := Function.update s.mem f x }

theorem memset_eq_setFrame (s : Phys) (f : Frame) (w : Word) :
    s.memset f w = s.setFrame f (fun _ => w) := rfl

theorem store_eq_setFrame (s : Phys) (f : Frame) (i : Idx) (w : Word) :
    s.store f i w = s.setFrame f (Function.update (s.mem f) i w) := rfl

@[simp] theorem setFrame_freelist (s : Phys) (f : Frame) (x : Idx → Word) :
    (s.setFrame f x).freelist = s.freelist := rfl

theorem setFrame_mem_self (s : Phys) (f : Frame) (x : Idx → Word) : (s.setFrame f x).mem f = x :=
  update_self _ _ _

theorem setFrame_mem_ne (s : Phys) {g : Frame} (x : Idx → Word) (h : g ≠ f) :
    (s.setFrame f x).mem g = s.mem g :=
  update_of_ne h _ _

/-- Writing to a frame in use leaves the free list alone. -/
theorem Free.setFrame (hf : Free own s) (ho : own f ≠ .free) (x : Idx → Word) :
    Free own (s.setFrame f x) where
  nodup := hf.nodup
  free := hf.free
  filled := by
    intro g hg i hi
    have hne : g ≠ f := by
      rintro rfl
      exact ho (hf.free g hg)
    rw [setFrame_mem_ne s x hne]
    exact hf.filled g hg i hi
  bound := hf.bound

/-- Writing to a frame that is not one of `a`'s tables leaves them alone. -/
theorem Rooted.setFrame (ht : Tables own s.mem a d) (hd : own f ≠ .dir a)
    (htab : ∀ i, own f ≠ .table a i) (x : Idx → Word) : Tables own (s.setFrame f x).mem a d := by
  grind [Rooted.congr, setFrame_mem_ne]

/-- A frame outside the tables does not matter. -/
theorem translate_setFrame (ht : Tables own s.mem a d) (hd : own f ≠ .dir a)
    (htab : ∀ i, own f ≠ .table a i) (x : Idx → Word) (va : Word) :
    translate (s.setFrame f x) d va = translate s d va := by
  grind [translate_congr, setFrame_mem_ne]

/-! ### `kalloc` and `kfree` -/

/-- No free frame. -/
theorem kalloc_none (h : kalloc s = (none, s')) : s.freelist = [] ∧ s' = s := by
  unfold kalloc at h
  cases hl : s.freelist with
  | nil => simp_all
  | cons f rest => simp [hl] at h

/-- The head of the free list. -/
theorem kalloc_some (h : kalloc s = (some f, s')) :
    s.freelist = f :: s'.freelist ∧ s'.mem = s.mem := by
  unfold kalloc at h
  cases hl : s.freelist with
  | nil => simp [hl] at h
  | cons g rest => grind

theorem kalloc_cons {rest : List Frame} (h : s.freelist = f :: rest) :
    kalloc s = (some f, { s with freelist := rest }) := by
  simp [kalloc, h]

theorem kalloc_nil (h : s.freelist = []) : kalloc s = (none, s) := by
  simp [kalloc, h]

/-- Frames were taken from the free list, and those that are left were not touched. -/
theorem FreeList.isFree (h : FreeList own' s') (hf : Free own s) (hsuf : s'.freelist <:+ s.freelist)
    (hkept : ∀ g ∈ s'.freelist, s'.mem g = s.mem g) : Free own' s' where
  nodup := h.nodup
  free := h.free
  filled := by
    intro g hg i hi
    rw [hkept g hg]
    exact hf.filled g (hsuf.subset hg) i hi
  bound := fun g hg => hf.bound g (hsuf.subset hg)

/-- The frame `kalloc` returns was free and can be handed to any owner. -/
theorem FreeList.kalloc (hf : FreeList own s) (h : kalloc s = (some f, s')) (o : Owner) :
    own f = .free ∧ FreeList (Function.update own f o) s' := by
  obtain ⟨hl, -⟩ := kalloc_some h
  have hnd := hf.nodup
  rw [hl, nodup_cons] at hnd
  refine ⟨hf.free f (by simp [hl]), hnd.2, fun g hg => ?_⟩
  rw [update_of_ne (by rintro rfl; exact hnd.1 hg)]
  exact hf.free g (by simp [hl, hg])

/-- The frame gets an owner. -/
theorem Free.kalloc (hf : Free own s) (h : Xv6.kalloc s = (some f, s')) (o : Owner) :
    own f = .free ∧ Free (Function.update own f o) s' := by
  obtain ⟨hl, hm⟩ := kalloc_some h
  obtain ⟨hof, hlist⟩ := hf.list.kalloc h o
  exact ⟨hof, hlist.isFree hf (by rw [hl]; exact suffix_cons f _) fun g _ => by rw [hm]⟩

/-- A word of a fresh page, the link word apart, is junk. -/
theorem Free.kalloc_junk (hf : Free own s) (h : Xv6.kalloc s = (some f, s')) (hi : i ≠ 0#10) :
    s'.mem f i = junk := by
  obtain ⟨hl, hm⟩ := kalloc_some h
  rw [hm]
  exact hf.filled f (by simp [hl]) i hi

/-- Back on the list, filled with junk. -/
theorem kfree_ok (h : kfree L s v = .ok s') : s'.freelist = frameOf (V2P v) :: s.freelist
      ∧ (∀ g, g ≠ frameOf (V2P v) → s'.mem g = s.mem g)
      ∧ (∀ i, i ≠ 0#10 → s'.mem (frameOf (V2P v)) i = junk) := by
  unfold kfree at h
  split at h
  · simp at h
  · simp only [ok.injEq] at h
    subst h
    refine ⟨rfl, fun g hg => ?_, fun i hi => ?_⟩
    · simp [store, memset, write_frame_ne _ _ _ hg, hg]
    · simp [store, memset, write_index_ne _ _ _ hi]

/-- `kfree` returns or panics. -/
theorem kfree_cases (L : Link) (s : Phys) (v : Word) :
    (∃ s', kfree L s v = .ok s') ∨ kfree L s v = .panic .kfree := by
  unfold kfree
  split
  · exact .inr rfl
  · exact .inl ⟨_, rfl⟩

/-- What is freed lies below `PHYSTOP`. -/
theorem kfree_bound (h : kfree L s v = .ok s') :
    (frameOf (V2P v)).toNat < PHYSTOP.toNat / 4096 := by
  unfold kfree at h
  split at h
  · cases h
  · rename_i hok
    rw [not_or, not_or, BitVec.not_le] at hok
    have hlt : (V2P v).toNat < PHYSTOP.toNat := hok.2.2
    have hstop : PHYSTOP.toNat = 0xE000000 := rfl
    rw [toNat_frameOf]
    omega

/-- `kfree` takes back a frame of the free list unless it is part of the kernel. -/
theorem kfree_base (hb : f.toNat < PHYSTOP.toNat / 4096) :
    (∃ s', kfree L s (P2V (base f)) = .ok s') ↔ ¬ P2V (base f) < L.end_ := by
  have hval := toNat_P2V_base hb
  have hal : P2V (base f) % PGSIZE = 0#32 := by
    apply BitVec.eq_of_toNat_eq
    have hpg := toNat_PGSIZE
    rw [BitVec.toNat_umod, hval, hpg]
    show (f.toNat * 4096 + 2 ^ 31) % 4096 = 0
    omega
  have hstop : ¬ PHYSTOP ≤ V2P (P2V (base f)) := by
    rw [V2P_P2V]
    show ¬ PHYSTOP.toNat ≤ (base f).toNat
    rw [toNat_base]
    omega
  unfold kfree
  by_cases hlt : P2V (base f) < L.end_
  · simp [*]
  · rw [if_neg (by rw [not_or, not_or]; exact ⟨not_not.mpr hal, hlt, hstop⟩)]
    exact iff_of_true ⟨_, rfl⟩ hlt

/-- A page in use goes back to the free list. -/
theorem Free.kfree (hf : Free own s) (h : Xv6.kfree L s v = .ok s')
    (ho : own (frameOf (V2P v)) ≠ .free) :
    Free (Function.update own (frameOf (V2P v)) .free) s' := by
  obtain ⟨hl, hm, hj⟩ := kfree_ok h
  have hnot : frameOf (V2P v) ∉ s.freelist := fun hmem => ho (hf.free _ hmem)
  refine ⟨by rw [hl]; exact nodup_cons.mpr ⟨hnot, hf.nodup⟩, fun g hg => ?_,
    fun g hg i hi => ?_, fun g hg => ?_⟩
  · by_cases hgf : g = frameOf (V2P v)
    · rw [hgf, update_self]
    · rw [update_of_ne hgf]
      rw [hl, mem_cons] at hg
      exact hf.free g (hg.resolve_left hgf)
  · by_cases hgf : g = frameOf (V2P v)
    · rw [hgf]
      exact hj i hi
    · rw [hm g hgf]
      rw [hl, mem_cons] at hg
      exact hf.filled g (hg.resolve_left hgf) i hi
  · rw [hl, mem_cons] at hg
    rcases hg with rfl | hg
    · exact kfree_bound h
    · exact hf.bound g hg

/-! ### Frames for page tables -/

/-- There are frames for all page tables directory `d` may still need, and `n` more. -/
def Roomy (s : Phys) (d : Frame) (n : Nat) : Prop :=
  TwoLevel.vacant pdeFormat s.mem d + n ≤ s.freelist.length

/-- 1024 spare frames are enough. -/
theorem Roomy.of_length (h : 1024 + n ≤ s.freelist.length) : Roomy s d n := by
  have hcard : Fintype.card Idx = 1024 := by
    rw [← FinEnum.card_eq_fintypeCard]
    rfl
  have hle : vacant pdeFormat s.mem d ≤ Fintype.card Idx := vacant_le s.mem d
  unfold Roomy
  omega

theorem Roomy.mono {m : Nat} (h : Roomy s d n) (hmn : m ≤ n) : Roomy s d m := by
  unfold Roomy at h ⊢
  omega

/-- Writing to a frame that is not the directory. -/
theorem Roomy.setFrame (h : Roomy s d n) (hf : f ≠ d) (x : Idx → Word) :
    Roomy (s.setFrame f x) d n := by
  unfold Roomy
  rw [vacant_congr (setFrame_mem_ne s x hf.symm)]
  exact h

/-- `kalloc` takes one of the frames. -/
theorem Roomy.kalloc (h : Roomy s d (n + 1)) (hk : Xv6.kalloc s = (some f, s')) : Roomy s' d n := by
  obtain ⟨hl, hm⟩ := kalloc_some hk
  have hlen : s.freelist.length = s'.freelist.length + 1 := by rw [hl, length_cons]
  unfold Roomy at h ⊢
  rw [hm]
  omega

/-- A slot that has no table counts. -/
theorem Roomy.lt_length (h : Roomy s d n) (hp : pte? s d va = none) : n < s.freelist.length := by
  have hpde : pdeFormat.valid (s.mem d (PDX va)) = false := by
    by_contra hv
    rw [pte?_eq_leaf, leaf_of_valid (by simpa using hv)] at hp
    cases hp
  have hpos := vacant_pos hpde
  unfold Roomy at h
  omega

/-! ### `walkpgdir` -/

/-- No frame for the page table. -/
theorem walkpgdir_true_none (h : walkpgdir s d va true = (none, s')) :
    s' = s ∧ s.freelist = [] ∧ pte? s d va = none := by
  unfold walkpgdir at h
  by_cases hp : s.mem d (PDX va) &&& PTE_P ≠ 0#32
  · simp [hp] at h
  · rw [if_neg hp, if_pos rfl] at h
    have hpte : pte? s d va = none := by
      rw [pte?_eq_leaf]
      exact leaf_of_not_valid (by simpa [pdeFormat] using hp)
    cases hk : kalloc s with
    | mk r s1 =>
      cases r with
      | some f => simp [hk] at h
      | none =>
        simp only [hk, Prod.mk.injEq, true_and] at h
        obtain ⟨hl, rfl⟩ := kalloc_none hk
        exact ⟨h.symm, hl, hpte⟩

/-- The word of a page directory entry for table `t` names `t` and is present. -/
theorem pde_word (t : Frame) : frameOf (base t ||| PTE_P ||| PTE_W ||| PTE_U) = t
      ∧ (base t ||| PTE_P ||| PTE_W ||| PTE_U) &&& PTE_P ≠ 0#32 := by
  have h7 : base t ||| PTE_P ||| PTE_W ||| PTE_U = base t ||| (PTE_W ||| PTE_U) ||| PTE_P := by
    rw [BitVec.or_assoc, BitVec.or_assoc, BitVec.or_assoc]
    rfl
  refine ⟨?_, by rw [h7]; exact or_PTE_P_and_PTE_P_ne_zero _⟩
  rw [BitVec.or_assoc, BitVec.or_assoc]
  exact frameOf_base_or (by decide)

/-- The frame is one of the directory's page tables. -/
def PageTable (s : Phys) (d f : Frame) : Prop :=
  ∃ i, s.mem d i &&& PTE_P ≠ 0#32 ∧ frameOf (s.mem d i) = f

theorem pageTable_congr (hdir : s'.mem d = s.mem d) : PageTable s' d f ↔ PageTable s d f := by
  unfold PageTable
  rw [hdir]

/-- A frame becomes the table of a slot that had none. -/
theorem pageTable_install {g : Frame} (hp : ¬ s.mem d i &&& PTE_P ≠ 0#32)
    (hdir : s'.mem d = Function.update (s.mem d) i (base f ||| PTE_P ||| PTE_W ||| PTE_U)) :
    PageTable s' d g ↔ g = f ∨ PageTable s d g := by
  obtain ⟨hw1, hw2⟩ := pde_word f
  unfold PageTable
  rw [hdir]
  constructor
  · rintro ⟨j, hj, rfl⟩
    by_cases hji : j = i
    · rw [hji, update_self]
      exact .inl hw1
    · rw [update_of_ne hji] at hj ⊢
      exact .inr ⟨j, hj, rfl⟩
  · rintro (rfl | ⟨j, hj, rfl⟩)
    · exact ⟨i, by rwa [update_self], by rwa [update_self]⟩
    · have hji : j ≠ i := by
        rintro rfl
        exact hp hj
      exact ⟨j, by rwa [update_of_ne hji], by rw [update_of_ne hji]⟩

/-- Free frames have become page tables of `a`, and entries of its tables may have changed; nothing
    else happened. -/
structure Added (own : Frame → Owner) (s : Phys) (a : Space) (d : Frame) (own' : Frame → Owner)
    (s' : Phys) : Prop where
  list : FreeList own' s'
  tables : Tables own' s'.mem a d
  touch : Touch (Owner.inTables a) own s.mem own' s'.mem
  keep : ∀ g, own g ≠ .free → own' g = own g
  suffix : s'.freelist <:+ s.freelist
  kept : ∀ g ∈ s'.freelist, s'.mem g = s.mem g
  room : ∀ n, Roomy s d n → Roomy s' d n
  held : ∀ g, g ∈ s'.freelist ∨ PageTable s' d g ↔ g ∈ s.freelist ∨ PageTable s d g

namespace Added

theorem refl (hl : FreeList own s) (ht : Tables own s.mem a d) : Added own s a d own s :=
  ⟨hl, ht, .refl, fun _ _ => rfl, suffix_refl _, fun _ _ => rfl, fun _ => id, fun _ => Iff.rfl⟩

/-- One addition after another. -/
theorem trans {own'' : Frame → Owner} {s'' : Phys} (h : Added own s a d own' s')
    (h' : Added own' s' a d own'' s'') : Added own s a d own'' s'' where
  list := h'.list
  tables := h'.tables
  touch := h.touch.trans h'.touch
  keep := by
    intro g hg
    rw [h'.keep g (by rwa [h.keep g hg]), h.keep g hg]
  suffix := h'.suffix.trans h.suffix
  kept := by
    intro g hg
    rw [h'.kept g hg, h.kept g (h'.suffix.subset hg)]
  room := fun n hn => h'.room n (h.room n hn)
  held := fun g => (h'.held g).trans (h.held g)

theorem free (h : Added own s a d own' s') (hf : Free own s) : Free own' s' :=
  h.list.isFree hf h.suffix h.kept

/-- An entry of one of the tables is written. -/
theorem store (hl : FreeList own s) (ht : Tables own s.mem a d)
    (hpde : s.mem d (PDX va) &&& PTE_P ≠ 0#32) (j : Idx) (w : Word) :
    Added own s a d own (s.store (frameOf (s.mem d (PDX va))) j w) := by
  have hvalid := (pdeFormat_valid _).mpr hpde
  have hown : own (frameOf (s.mem d (PDX va))) = .table a (PDX va) := ht.table _ hvalid
  have hdir : (s.store (frameOf (s.mem d (PDX va))) j w).mem d = s.mem d :=
    setFrame_mem_ne _ _ (ht.table_ne_dir (tags a) hvalid).symm
  refine ⟨⟨hl.nodup, hl.free⟩, Rooted.write ht (tags a) hvalid j w, ?_, fun _ _ => rfl,
    suffix_refl _, fun g hg => setFrame_mem_ne _ _ ?_, fun n hn => ?_, fun g => ?_⟩
  · exact Touch.update (by rw [hown]; rfl) _
  · rintro rfl
    have hfree := hl.free _ hg
    rw [hown] at hfree
    cases hfree
  · unfold Roomy
    rw [vacant_congr hdir]
    exact hn
  · rw [pageTable_congr hdir]
    rfl

end Added

/-- What `walkpgdir` leaves behind when it returns a PTE: at most one free frame has become
    the table of `va`'s slot, and no translation has changed. -/
structure Walked (own : Frame → Owner) (s : Phys) (a : Space) (d : Frame) (va : Word)
    (t : Frame) (i : Idx) (own' : Frame → Owner) (s' : Phys) : Prop
    extends Added own s a d own' s' where
  idx : i = PTX va
  pde : s'.mem d (PDX va) &&& PTE_P ≠ 0#32
  table : t = frameOf (s'.mem d (PDX va))
  translate : ∀ va', translate s' d va' = translate s d va'
  word : s'.mem t i = (pte? s d va).getD 0

/-- The entry, in an old or a new table. -/
theorem walkpgdir_true_some (hl : FreeList own s) (ht : Tables own s.mem a d) {t : Frame}
    (h : walkpgdir s d va true = (some (t, i), s')) :
    ∃ own', Walked own s a d va t i own' s' := by
  unfold walkpgdir at h
  by_cases hp : s.mem d (PDX va) &&& PTE_P ≠ 0#32
  · -- the table is there
    simp only [if_pos hp, Prod.mk.injEq, some.injEq] at h
    obtain ⟨⟨rfl, rfl⟩, rfl⟩ := h
    have hpte : pte? s d va = some (s.mem (frameOf (s.mem d (PDX va))) (PTX va)) := by
      rw [pte?_eq_leaf]
      exact leaf_of_valid ((pdeFormat_valid _).mpr hp)
    exact ⟨own, .refl hl ht, rfl, hp, rfl, fun _ => rfl, by rw [hpte]; rfl⟩
  · -- a free frame becomes the table, blank
    rw [if_neg hp, if_pos rfl] at h
    cases hk : kalloc s with
    | mk r s1 =>
    cases r with
    | none => simp [hk] at h
    | some f =>
      simp only [hk, Prod.mk.injEq, some.injEq] at h
      obtain ⟨⟨rfl, rfl⟩, hs'⟩ := h
      obtain ⟨hlist, hm⟩ := kalloc_some hk
      obtain ⟨hof, hl1⟩ := hl.kalloc hk (.table a (PDX va))
      obtain ⟨hw1, hw2⟩ := pde_word f
      have hfd : f ≠ d := by
        rintro rfl
        rw [ht.dir] at hof
        simp at hof
      have hnt : ∀ j, own f ≠ .table a j := by
        intro j
        rw [hof]
        simp
      have hsl : s'.freelist = s1.freelist := by
        rw [← hs']
        rfl
      have hmem : s'.mem = write (update s.mem f (fun _ => 0)) d (PDX va)
          (base f ||| PTE_P ||| PTE_W ||| PTE_U) := by
        simp [← hs', store, memset, hm]
      have hdir : s'.mem d = update (s.mem d) (PDX va) (base f ||| PTE_P ||| PTE_W ||| PTE_U) := by
        rw [hmem, write, update_self, update_of_ne hfd.symm]
      have hother : ∀ g, g ≠ f → g ≠ d → s'.mem g = s.mem g := by
        intro g hgf hgd
        rw [hmem, write_frame_ne _ _ _ hgd, update_of_ne hgf]
      have hd' : update own f (.table a (PDX va)) d = .dir a := by
        rw [update_of_ne hfd.symm, ht.dir]
      rw [← hsl] at hlist
      refine ⟨update own f (.table a (PDX va)), ⟨?_, ?_, ?_, ?_, ?_, ?_, ?_, ?_⟩,
        rfl, ?_, ?_, ?_, ?_⟩
      · exact ⟨hsl ▸ hl1.nodup, fun g hg => hl1.free g (hsl ▸ hg)⟩
      · rw [hmem]
        exact Rooted.install ht 0 hfd hnt hw1
      · intro g
        by_cases hgf : g = f
        · subst hgf
          exact .inr ⟨by rw [hof]; trivial, by rw [update_self]; rfl⟩
        · by_cases hgd : g = d
          · subst hgd
            exact .inr ⟨by rw [ht.dir]; rfl, by rw [hd']; rfl⟩
          · exact .inl ⟨update_of_ne hgf _ _, hother g hgf hgd⟩
      · intro g hg
        rw [update_of_ne (by rintro rfl; exact hg hof)]
      · rw [hlist]
        exact suffix_cons f _
      · intro g hg
        have hown := hl1.free g (hsl ▸ hg)
        refine hother g ?_ ?_
        · rintro rfl
          rw [update_self] at hown
          cases hown
        · rintro rfl
          rw [hd'] at hown
          cases hown
      · intro n hn
        -- one frame less, and one slot less to fill
        have hvac := vacant_install (by simpa [pdeFormat] using hp)
          ((pdeFormat_valid _).mpr hw2) hdir
        unfold Roomy at hn ⊢
        rw [hlist, length_cons] at hn
        omega
      · intro g
        rw [pageTable_install hp hdir, hlist, mem_cons]
        tauto
      · rw [hdir, update_self]
        exact hw2
      · rw [hdir, update_self]
        exact hw1.symm
      · intro va'
        unfold Kernel.translate
        rw [pte?_eq_leaf, pte?_eq_leaf, hmem,
          leaf_install ht (tags a) (0 : Word) hfd hnt ((pdeFormat_valid _).mpr hw2) hw1]
        by_cases hi : PDX va' = PDX va
        · -- the slot had no table before and has a blank one now
          rw [if_pos hi, hi, leaf_of_not_valid (by simpa [pdeFormat] using hp)]
          rfl
        · rw [if_neg hi]
      · have hpte : pte? s d va = none := by
          rw [pte?_eq_leaf]
          exact leaf_of_not_valid (by simpa [pdeFormat] using hp)
        rw [hmem, write_frame_ne _ _ _ hfd, update_self, hpte]
        rfl

/-! ### `mappages` for one page -/

/-- One page is one round. -/
theorem mappages_page (hva : va.toNat % 4096 = 0) : mappages s d va PGSIZE pa perm =
      match walkpgdir s d va true with
      | (none, s) => .ok (false, s)
      | (some (t, i), s) =>
        if s.mem t i &&& PTE_P ≠ 0#32 then .panic .remap
        else .ok (true, s.store t i (pa ||| perm ||| PTE_P)) := by
  have hlast : PGROUNDDOWN (va + PGSIZE - 1) = va := by
    apply BitVec.eq_of_toNat_eq
    have hp := toNat_PGSIZE
    have h1 : (1 : Word).toNat = 1 := rfl
    rw [toNat_PGROUNDDOWN, BitVec.toNat_sub, BitVec.toNat_add, hp, h1]
    omega
  have hb : loopBound = 2097151 + 1 := rfl
  unfold mappages
  rw [hlast, PGROUNDDOWN_of_aligned hva, hb, mappagesLoop]
  cases walkpgdir s d va true with
  | mk r s1 =>
    cases r with
    | none => rfl
    | some ti => simp

/-- What `mappages` leaves behind when it has mapped the page of `va`: the page was not
    there, now its PTE is `w`, and no other translation has changed. -/
structure Mapped (own : Frame → Owner) (s : Phys) (a : Space) (d : Frame) (va w : Word)
    (own' : Frame → Owner) (s' : Phys) : Prop extends Added own s a d own' s' where
  before : translate s d va = none
  after : ∀ va', translate s' d va'
    = if frameOf va' = frameOf va then some w else translate s d va'

section

variable (ht : Tables own s.mem a d) (hpde : s.mem d (PDX va) &&& PTE_P ≠ 0#32)
include ht hpde

/-- One entry is one page. -/
theorem translate_store {w : Word} (hw : w &&& PTE_P ≠ 0#32) (va' : Word) :
    translate (s.store (frameOf (s.mem d (PDX va))) (PTX va) w) d va'
      = if frameOf va' = frameOf va then some w else translate s d va' := by
  have hl := leaf_write ht (tags a) ((pdeFormat_valid _).mpr hpde) (PTX va) w (PDX va') (PTX va')
  unfold Kernel.translate
  rw [pte?_eq_leaf, pte?_eq_leaf]
  show (leaf pdeFormat (write s.mem (pdeFormat.target (s.mem d (PDX va))) (PTX va) w) d
    (PDX va') (PTX va')).filter _ = _
  rw [hl]
  by_cases h : frameOf va' = frameOf va
  · rw [if_pos ((PDX_PTX_eq_iff _ _).mpr h), if_pos h]
    simp [hw]
  · rw [if_neg (fun h' => h ((PDX_PTX_eq_iff _ _).mp h')), if_neg h]

/-- Clearing a PTE removes one translation. -/
theorem translate_clear (va' : Word) :
    translate (s.store (frameOf (s.mem d (PDX va))) (PTX va) 0) d va'
      = if frameOf va' = frameOf va then none else translate s d va' := by
  have hl := leaf_write ht (tags a) ((pdeFormat_valid _).mpr hpde) (PTX va) (0 : Word)
    (PDX va') (PTX va')
  unfold Kernel.translate
  rw [pte?_eq_leaf, pte?_eq_leaf]
  show (leaf pdeFormat (write s.mem (pdeFormat.target (s.mem d (PDX va))) (PTX va) 0) d
    (PDX va') (PTX va')).filter _ = _
  rw [hl]
  by_cases h : frameOf va' = frameOf va
  · rw [if_pos ((PDX_PTX_eq_iff _ _).mpr h), if_pos h]
    rfl
  · rw [if_neg (fun h' => h ((PDX_PTX_eq_iff _ _).mp h')), if_neg h]

end

/-- The page is mapped. -/
theorem mappages_page_true (hl : FreeList own s) (ht : Tables own s.mem a d)
    (hva : va.toNat % 4096 = 0) (h : mappages s d va PGSIZE pa perm = .ok (true, s')) :
    ∃ own', Mapped own s a d va (pa ||| perm ||| PTE_P) own' s' := by
  rw [mappages_page hva] at h
  cases hw : walkpgdir s d va true with
  | mk r s1 =>
  cases r with
  | none => simp [hw] at h
  | some ti =>
    obtain ⟨t, i⟩ := ti
    obtain ⟨own1, w⟩ := walkpgdir_true_some hl ht hw
    simp only [hw] at h
    split at h
    · simp at h
    · rename_i hnp
      simp only [ok.injEq, Prod.mk.injEq, true_and] at h
      have hbefore : translate s d va = none := by
        rw [w.word] at hnp
        unfold Kernel.translate
        cases hp : pte? s d va with
        | none => rfl
        | some pte => simpa [hp, filter_eq_none_iff] using hnp
      rw [w.table, w.idx] at h
      subst h
      refine ⟨own1, w.toAdded.trans (.store w.list w.tables w.pde _ _), hbefore, fun va' => ?_⟩
      rw [translate_store w.tables w.pde (or_PTE_P_and_PTE_P_ne_zero _), w.translate]

/-- Out of memory: nothing changed. -/
theorem mappages_page_false (hva : va.toNat % 4096 = 0)
    (h : mappages s d va PGSIZE pa perm = .ok (false, s')) :
    s' = s ∧ s.freelist = [] ∧ pte? s d va = none := by
  rw [mappages_page hva] at h
  cases hw : walkpgdir s d va true with
  | mk r s1 =>
  cases r with
  | none =>
    simp only [hw, ok.injEq, Prod.mk.injEq, true_and] at h
    subst h
    exact walkpgdir_true_none hw
  | some ti =>
    simp only [hw] at h
    split at h <;> simp at h

/-- `mappages` panics on a page exactly when the page is already mapped. -/
theorem mappages_page_panic (hl : FreeList own s) (ht : Tables own s.mem a d)
    (hva : va.toNat % 4096 = 0) :
    mappages s d va PGSIZE pa perm = .panic e ↔ e = .remap ∧ translate s d va ≠ none := by
  rw [mappages_page hva]
  cases hw : walkpgdir s d va true with
  | mk r s1 =>
  cases r with
  | none =>
    obtain ⟨rfl, -, hp⟩ := walkpgdir_true_none hw
    simp [Kernel.translate, hp]
  | some ti =>
    obtain ⟨t, i⟩ := ti
    obtain ⟨own1, w⟩ := walkpgdir_true_some hl ht hw
    have hiff : s1.mem t i &&& PTE_P ≠ 0#32 ↔ translate s d va ≠ none := by
      rw [w.word]
      unfold Kernel.translate
      cases hp : pte? s d va with
      | none => simp
      | some pte => simp [filter_eq_none_iff]
    simp only
    by_cases hnp : s1.mem t i &&& PTE_P ≠ 0#32
    · rw [if_pos hnp]
      have htr := hiff.mp hnp
      constructor
      · rintro ⟨rfl⟩
        exact ⟨rfl, htr⟩
      · rintro ⟨rfl, -⟩
        rfl
    · rw [if_neg hnp]
      simp only [reduceCtorEq, false_iff, not_and]
      intro _ h
      exact hnp (hiff.mpr h)

/-! ### A new page

`mmap`, the page-fault handler and `allocuvm` all take a frame, clear it and map it; `fork`
and `copyuvm` fill it with a copy instead. -/

/-- The page of `va` is now mapped to the frame `f`, which was free and holds `x`. -/
structure NewPage (own : Frame → Owner) (s : Phys) (a : Space) (d : Frame) (va : Word) (f : Frame)
    (x : Idx → Word) (perm : Word) (own' : Frame → Owner) (s' : Phys) : Prop where
  free : Free own' s'
  tables : Tables own' s'.mem a d
  touch : Touch (Owner.within a) own s.mem own' s'.mem
  before : translate s d va = none
  after : ∀ va', translate s' d va'
    = if frameOf va' = frameOf va then some (base f ||| perm ||| PTE_P) else translate s d va'
  fresh : own f = .free
  frame : own' f = .page a (frameOf va)
  content : s'.mem f = x
  keep : ∀ g, own g ≠ .free → own' g = own g
  data : ∀ g, ¬ (own g).inTables a → s'.mem g = s.mem g
  suffix : s'.freelist <:+ s.freelist
  taken : f ∈ s.freelist
  table : pte? s d va ≠ none ∨ 2 ≤ s.freelist.length
  room : ∀ n, Roomy s d (n + 1) → Roomy s' d n
  held : ∀ g, g ∈ s.freelist ∨ PageTable s d g ↔ g = f ∨ g ∈ s'.freelist ∨ PageTable s' d g

section

variable (hf : Free own s) (ht : Tables own s.mem a d)
include hf ht

/-- Hand the frame `kalloc` returned to an owner that is not one of `a`'s tables, and fill
    it. -/
theorem newPage_start (hk : kalloc s = (some f, s1)) {o : Owner} (ho : ¬ o.inTables a)
    (x : Idx → Word) :
    Free (Function.update own f o) (s1.setFrame f x)
      ∧ Tables (Function.update own f o) (s1.setFrame f x).mem a d
      ∧ (∀ va', translate (s1.setFrame f x) d va' = translate s d va') := by
  obtain ⟨hl, hm⟩ := kalloc_some hk
  obtain ⟨hof, hf1⟩ := hf.kalloc hk o
  have hself : update own f o f = o := update_self _ _ _
  have hfree : update own f o f ≠ .free := by
    rintro heq
    exact ho (by rw [← hself, heq]; trivial)
  have hdir : update own f o f ≠ .dir a := by
    rintro heq
    exact ho (by rw [← hself, heq]; rfl)
  have htab : ∀ i, update own f o f ≠ .table a i := by
    rintro i heq
    exact ho (by rw [← hself, heq]; rfl)
  have ht1 : Tables (update own f o) s1.mem a d := by
    grind [Rooted.congr, update_of_ne]
  have hs : ∀ va', translate s1 d va' = translate s d va' := by
    intro va'
    exact translate_congr ht (fun g _ => by rw [hm]) va'
  refine ⟨hf1.setFrame hfree _, Rooted.setFrame ht1 hdir htab _, fun va' => ?_⟩
  rw [translate_setFrame ht1 hdir htab, hs]

/-- With one free frame left and no page table for `va`, the page cannot be mapped. -/
theorem newPage_nomem (hva : va.toNat % 4096 = 0) (hk : kalloc s = (some f, s1))
    (hl : s.freelist.length ≤ 1) (hp : pte? s d va = none) :
    mappages (s1.setFrame f x) d va PGSIZE pa perm = .ok (false, s1.setFrame f x) := by
  obtain ⟨hcons, hm⟩ := kalloc_some hk
  have hof : own f = .free := hf.free f (by simp [hcons])
  have hnil : (s1.setFrame f x).freelist = [] := by simp_all
  have hd : d ≠ f := by
    rintro rfl
    rw [ht.dir] at hof
    simp at hof
  have hpde : ¬ ((s1.setFrame f x).mem d (PDX va) &&& PTE_P ≠ 0#32) := by
    rw [setFrame_mem_ne _ _ hd, hm]
    intro hv
    rw [pte?_eq_leaf, leaf_of_valid ((pdeFormat_valid _).mpr hv)] at hp
    simp at hp
  rw [mappages_page hva]
  have hw : walkpgdir (s1.setFrame f x) d va true = (none, s1.setFrame f x) := by
    unfold walkpgdir
    rw [if_neg hpde, if_pos rfl, kalloc_nil hnil]
  rw [hw]

/-- A new frame, filled and mapped. -/
theorem newPage_true (hva : va.toNat % 4096 = 0) (hk : kalloc s = (some f, s1))
    (h : mappages (s1.setFrame f x) d va PGSIZE (base f) perm = .ok (true, s')) :
    ∃ own', NewPage own s a d va f x perm own' s' := by
  obtain ⟨hl, hm⟩ := kalloc_some hk
  obtain ⟨hf1, ht1, htr⟩ := newPage_start hf ht hk (o := .page a (frameOf va))
    (by simp [inTables]) x
  have hof : own f = .free := hf.free f (by simp [hl])
  have hself : update own f (page a (frameOf va)) f = .page a (frameOf va) :=
    update_self _ _ _
  obtain ⟨own', w⟩ := mappages_page_true hf1.list ht1 hva h
  -- the frame itself is no table, so mapping it does not change it
  have hfk := w.touch.keeps (f := f) (by rw [hself]; exact id)
  have hne : ∀ g, own g ≠ .free → g ≠ f := by
    rintro g hg rfl
    exact hg hof
  have hdf : d ≠ f := hne d (by simp [ht.dir])
  refine ⟨own', w.free hf1, w.tables, ?_, ?_, ?_, hof, hfk.1.trans hself, ?_, ?_, ?_,
    ?_, by simp [hl], ?_,
    fun n hn => w.room n ((hn.kalloc hk).setFrame hdf.symm x), fun g => ?_⟩
  · refine Touch.trans ?_ (w.touch.mono (fun _ => within_of_inTables))
    intro g
    by_cases hg : g = f
    · subst hg
      exact .inr ⟨by rw [hof]; trivial, by rw [hself]; rfl⟩
    · refine .inl ⟨update_of_ne hg _ _, ?_⟩
      rw [setFrame_mem_ne _ _ hg, hm]
  · rw [← htr va]
    exact w.before
  · intro va'
    rw [w.after va', htr]
  · rw [hfk.2]
    exact setFrame_mem_self _ _ _
  · intro g hg
    have hgf := hne g hg
    have hog : update own f (page a (frameOf va)) g = own g :=
      update_of_ne hgf _ _
    rw [w.keep g (by rw [hog]; exact hg), hog]
  · intro g hg
    have hgf : g ≠ f := by
      rintro rfl
      exact hg (by rw [hof]; trivial)
    have hk' := w.touch.keeps (f := g) (by rw [update_of_ne hgf]; exact hg)
    rw [hk'.2, setFrame_mem_ne _ _ hgf, hm]
  · have h1 : (s1.setFrame f x).freelist = s1.freelist := rfl
    rw [hl]
    exact (h1 ▸ w.suffix).trans (suffix_cons f _)
  · by_contra hno
    rw [not_or, not_not, not_le] at hno
    cases (newPage_nomem hf ht hva hk (by omega) hno.1).symm.trans h
  · rw [w.held, setFrame_freelist, pageTable_congr (setFrame_mem_ne s1 x hdf), hl, mem_cons,
      pageTable_congr (congrFun hm d)]
    tauto

end

/-- There was no memory for the page table: with the frame given back, all is as before but
    for the contents of that frame, the only free one. -/
structure NoPage (own : Frame → Owner) (s : Phys) (a : Space) (d : Frame) (va : Word) (f : Frame)
    (s' : Phys) : Prop where
  free : Free own s'
  tables : Tables own s'.mem a d
  touch : Touch (Owner.within a) own s.mem own s'.mem
  before : pte? s d va = none
  after : ∀ va', pte? s' d va' = pte? s d va'
  data : ∀ g, own g ≠ .free → s'.mem g = s.mem g
  freelist : s'.freelist = [f]
  only : s.freelist = [f]

section

variable (hf : Free own s) (ht : Tables own s.mem a d) (hva : va.toNat % 4096 = 0)
variable (hk : kalloc s = (some f, s1))
include hf ht hva hk

/-- Then the frame was the only free one. -/
theorem newPage_none {s2 : Phys}
    (h : mappages (s1.setFrame f x) d va PGSIZE (base f) perm = .ok (false, s2)) :
    s2 = s1.setFrame f x ∧ s.freelist = [f] ∧ pte? s d va = none := by
  obtain ⟨hl, hm⟩ := kalloc_some hk
  obtain ⟨rfl, hnil, hpte⟩ := mappages_page_false hva h
  rw [show s1.freelist = [] from hnil] at hl
  refine ⟨rfl, hl, ?_⟩
  rw [← hpte, pte?_eq_leaf, pte?_eq_leaf]
  refine (leaf_congr ht (fun g hg => ?_) _ _).symm
  have hgf : g ≠ f := by
    rintro rfl
    have hof : own g = .free := hf.free g (by simp [hl])
    rcases hg with hg | ⟨i, hg⟩ <;> rw [hof] at hg <;> cases hg
  rw [setFrame_mem_ne _ _ hgf, hm]

/-- No page table: the frame is freed again. -/
theorem newPage_false {s2 : Phys}
    (h : mappages (s1.setFrame f x) d va PGSIZE (base f) perm = .ok (false, s2))
    (hfr : kfree L s2 (P2V (base f)) = .ok s') : NoPage own s a d va f s' := by
  obtain ⟨hl, hm⟩ := kalloc_some hk
  have hof : own f = .free := hf.free f (by simp [hl])
  obtain ⟨rfl, honly, hpte⟩ := newPage_none hf ht hva hk h
  have hnil : s1.freelist = [] := (cons.inj (hl.symm.trans honly)).2
  obtain ⟨hl', hm', hj⟩ := kfree_ok hfr
  rw [V2P_P2V, frameOf_base] at hl' hm' hj
  have hl'' : s'.freelist = [f] := by rw [hl', setFrame_freelist, hnil]
  have hmem : ∀ g, g ≠ f → s'.mem g = s.mem g := by
    intro g hg
    rw [hm' g hg, setFrame_mem_ne _ _ hg, hm]
  have hin : ∀ g, own g ≠ .free → g ≠ f := by
    rintro g hg rfl
    exact hg hof
  have htab : ∀ g, (own g = .dir a ∨ ∃ i, own g = .table a i) → g ≠ f := by
    intro g hg
    apply hin
    rcases hg with hg | ⟨i, hg⟩ <;> rw [hg] <;> simp
  have hpte' : ∀ va', pte? s' d va' = pte? s d va' := by
    intro va'
    rw [pte?_eq_leaf, pte?_eq_leaf]
    exact leaf_congr ht (fun g hg => hmem g (htab g hg)) _ _
  refine ⟨⟨by simp [hl''], ?_, ?_, ?_⟩, ?_, ?_, hpte, hpte', ?_, hl'', honly⟩
  · intro g hg
    rw [hl'', mem_singleton] at hg
    rw [hg, hof]
  · intro g hg i hi
    rw [hl'', mem_singleton] at hg
    rw [hg]
    exact hj i hi
  · intro g hg
    rw [hl'', mem_singleton] at hg
    rw [hg]
    exact hf.bound f (by simp [hl])
  · exact Rooted.congr ht (fun g hg => ⟨hmem g (htab g hg), rfl⟩)
  · intro g
    by_cases hg : g = f
    · subst hg
      exact .inr ⟨by rw [hof]; trivial, by rw [hof]; trivial⟩
    · exact .inl ⟨rfl, hmem g hg⟩
  · intro g hg
    exact hmem g (hin g hg)

/-- Mapping a new page panics only on a page that is already mapped. -/
theorem newPage_panic (h : mappages (s1.setFrame f x) d va PGSIZE (base f) perm = .panic e) :
    e = .remap ∧ translate s d va ≠ none := by
  obtain ⟨hf1, ht1, htr⟩ := newPage_start hf ht hk (o := .page a (frameOf va))
    (by simp [inTables]) x
  rw [← htr]
  exact (mappages_page_panic hf1.list ht1 hva).mp h

end

/-- `mappages` of one page returns or panics. -/
theorem mappages_page_total (hva : va.toNat % 4096 = 0) :
    (∃ r, mappages s d va PGSIZE pa perm = .ok r)
      ∨ mappages s d va PGSIZE pa perm = .panic .remap := by
  rw [mappages_page hva]
  cases walkpgdir s d va true with
  | mk r s1 =>
    cases r with
    | none => exact .inl ⟨_, rfl⟩
    | some ti =>
      by_cases hnp : s1.mem ti.1 ti.2 &&& PTE_P ≠ 0#32
      · exact .inr (by simp [hnp])
      · exact .inl ⟨(true, s1.store ti.1 ti.2 (pa ||| perm ||| PTE_P)), by simp [hnp]⟩

/-- What mapping a new page does. -/
theorem newPage_cases (x : Idx → Word) (perm : Word) (hf : Free own s) (ht : Tables own s.mem a d)
    (hva : va.toNat % 4096 = 0) (hk : kalloc s = (some f, s1)) :
    translate s d va ≠ none ∧ mappages (s1.setFrame f x) d va PGSIZE (base f) perm = .panic .remap
      ∨ (∃ own' s', NewPage own s a d va f x perm own' s'
          ∧ mappages (s1.setFrame f x) d va PGSIZE (base f) perm = .ok (true, s'))
      ∨ s.freelist = [f] ∧ pte? s d va = none
          ∧ (∀ L s', kfree L (s1.setFrame f x) (P2V (base f)) = .ok s' → NoPage own s a d va f s')
          ∧ mappages (s1.setFrame f x) d va PGSIZE (base f) perm
            = .ok (false, s1.setFrame f x) := by
  have htotal : (∃ r, mappages (s1.setFrame f x) d va PGSIZE (base f) perm = .ok r)
      ∨ mappages (s1.setFrame f x) d va PGSIZE (base f) perm = .panic .remap :=
    mappages_page_total hva
  rcases htotal with ⟨⟨b, s'⟩, h⟩ | h
  · cases b with
    | true =>
      obtain ⟨own', w⟩ := newPage_true hf ht hva hk h
      exact .inr (.inl ⟨own', s', w, h⟩)
    | false =>
      obtain ⟨rfl, honly, hpte⟩ := newPage_none hf ht hva hk h
      exact .inr (.inr ⟨honly, hpte, fun L s' hfr => newPage_false hf ht hva hk h hfr, h⟩)
  · exact .inl ⟨(newPage_panic hf ht hva hk h).2, h⟩

end Xv6
