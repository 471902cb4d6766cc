import Xv6.UvmSpec

namespace Xv6

open BitVec Function Kernel Kmap List Outcome Owner

/-!
# What `setupkvm` and `freevm` do

A new address space is built page by page, and taken down again where memory runs out.

* `Grows own s a d own' s'` — pages were added to `a`, and nothing else happened; it
  composes;
* `Fresh` — one of these pages, in a frame that was free, with given contents;
* `mappagesLoop_range` — `mappages` on a range of pages, as far as there are frames for page tables;
* `freevm_frees`, `freevm_returns` — the frames that `freevm` gives back, and when it returns;
* `kernelPte` — the kernel's half of every address space, from `kmap`;
* `setupkvm_cases` — an address space with the kernel's half only, or one that was given up.
-/

variable {L : Link} {own own' own'' : Frame → Owner} {s s' s'' : Phys} {a : Space} {d : Frame}
  {va : Word} {lo mid hi : Nat}
variable {f : Frame} {w pa perm : Word} {x : Idx → Word} {b : Bool} {n : Nat} {m : Kmap}
   {ms : List Kmap}

/-! ### Adding pages -/

/-- Pages were added to `a`: what was mapped stays, what was in use keeps its owner and,
    but for the directory and tables of `a`, its contents. -/
structure Grows (own : Frame → Owner) (s : Phys) (a : Space) (d : Frame) (own' : Frame → Owner)
    (s' : Phys) : Prop where
  free : Free own' s'
  tables : Tables own' s'.mem a d
  touch : Touch (Owner.within a) own s.mem own' s'.mem
  keep : ∀ g, own g ≠ .free → own' g = own g
  data : ∀ g, own g ≠ .free → ¬ (own g).inTables a → s'.mem g = s.mem g
  mono : ∀ va pte, translate s d va = some pte → translate s' d va = some pte

namespace Grows

theorem refl (hf : Free own s) (ht : Tables own s.mem a d) : Grows own s a d own s :=
  ⟨hf, ht, .refl, fun _ _ => rfl, fun _ _ _ => rfl, fun _ _ => id⟩

/-- One growth after another. -/
theorem trans (h : Grows own s a d own' s') (h' : Grows own' s' a d own'' s'') :
    Grows own s a d own'' s'' where
  free := h'.free
  tables := h'.tables
  touch := h.touch.trans h'.touch
  keep := by
    intro g hg
    rw [h'.keep g (by rwa [h.keep g hg]), h.keep g hg]
  data := by
    intro g hg ht
    rw [h'.data g (by rwa [h.keep g hg]) (by rwa [h.keep g hg]), h.data g hg ht]
  mono := fun va pte hva => h'.mono va pte (h.mono va pte hva)

/-- What is free afterwards was free before. -/
theorem was_free (h : Grows own s a d own' s') (hf : own' f = .free) : own f = .free := by
  by_contra hne
  rw [h.keep f hne] at hf
  exact hne hf

end Grows

/-- A page mapped. -/
theorem Mapped.grows (h : Mapped own s a d va w own' s') (hf : Free own s) :
    Grows own s a d own' s' where
  free := h.free hf
  tables := h.tables
  touch := h.touch.mono (fun _ => within_of_inTables)
  keep := h.keep
  data := fun _ _ hg => (h.touch.keeps hg).2
  mono := fun va' _ => translate_mono h.before (h.after va')

/-- A page allocated. -/
theorem NewPage.grows (h : NewPage own s a d va f x perm own' s') : Grows own s a d own' s' where
  free := h.free
  tables := h.tables
  touch := h.touch
  keep := h.keep
  data := fun g _ hg => h.data g hg
  mono := fun va' _ => translate_mono h.before (h.after va')

/-- The page of `va` is in frame `f`, which was free before and holds `x`. -/
structure Fresh (own : Frame → Owner) (a : Space) (d : Frame) (va : Word) (f : Frame)
    (x : Idx → Word) (perm : Word) (own' : Frame → Owner) (s' : Phys) : Prop where
  free : own f = .free
  bound : f.toNat < PHYSTOP.toNat / 4096
  owner : own' f = .page a (frameOf va)
  trans : translate s' d va = some (base f ||| perm ||| PTE_P)
  content : s'.mem f = x

namespace Fresh

variable {f : Frame} {x : Idx → Word} {perm : Word}

/-- It stays when more pages are added. -/
theorem grows (h : Fresh own a d va f x perm own' s') (hg : Grows own' s' a d own'' s'') :
    Fresh own a d va f x perm own'' s'' where
  free := h.free
  bound := h.bound
  owner := by rw [hg.keep f (by rw [h.owner]; simp), h.owner]
  trans := hg.mono _ _ h.trans
  content := by rw [hg.data f (by rw [h.owner]; simp) (by rw [h.owner]; exact id), h.content]

/-- It was new also with respect to an earlier state. -/
theorem before (h : Fresh own' a d va f x perm own'' s'') (hg : Grows own s a d own' s') :
    Fresh own a d va f x perm own'' s'' :=
  { h with free := hg.was_free h.free }

end Fresh

/-- Every address of a new page. -/
theorem NewPage.isFresh (hf : Free own s) (h : NewPage own s a d va f x perm own' s') {va' : Word}
    (hpage : frameOf va' = frameOf va) :
    Fresh own a d va' f x perm own' s' where
  free := h.fresh
  bound := hf.bound f h.taken
  owner := by rw [hpage, h.frame]
  trans := by rw [h.after, if_pos hpage]
  content := h.content

/-! ### `mappages` on a range -/

/-- The `k` pages from `va` on, which were not mapped, have entries for the frames from `pa` on. -/
structure RangeMapped (own : Frame → Owner) (s : Phys) (a : Space) (d : Frame) (va pa perm : Word)
    (k : Nat) (own' : Frame → Owner) (s' : Phys) : Prop extends Added own s a d own' s' where
  before : ∀ va' : Word, va.toNat ≤ va'.toNat → va'.toNat < va.toNat + k * 4096 →
    translate s d va' = none
  after : ∀ va' : Word, translate s' d va'
    = if va.toNat ≤ va'.toNat ∧ va'.toNat < va.toNat + k * 4096 then
        some ((pa + (PGROUNDDOWN va' - va)) ||| perm ||| PTE_P)
      else translate s d va'

theorem RangeMapped.nil (hl : FreeList own s) (ht : Tables own s.mem a d) :
    RangeMapped own s a d va pa perm 0 own s where
  toAdded := .refl hl ht
  before := fun va' h1 h2 => by omega
  after := fun va' => by rw [if_neg (by omega)]

/-- One page is mapped, and then `k` pages from the next one on. -/
theorem Mapped.cons {k : Nat} (h : Mapped own s a d va (pa ||| perm ||| PTE_P) own' s')
    (h' : RangeMapped own' s' a d (va + PGSIZE) (pa + PGSIZE) perm k own'' s'')
    (hal : va.toNat % 4096 = 0) (hnext : k ≠ 0 → (va + PGSIZE).toNat = va.toNat + 4096) :
    RangeMapped own s a d va pa perm (k + 1) own'' s'' where
  toAdded := h.toAdded.trans h'.toAdded
  before := by
    intro va' h1 h2
    by_cases hin : frameOf va' = frameOf va
    · rw [translate_congr_page s d hin, h.before]
    · have hr := mt (frameOf_eq_iff hal va').mpr hin
      have hnone := h'.before va' (by omega) (by omega)
      rwa [h.after, if_neg hin] at hnone
  after := by
    intro va'
    rw [h'.after, h.after]
    by_cases hin : frameOf va' = frameOf va
    · have hr := (frameOf_eq_iff hal va').mp hin
      rw [if_neg (by omega), if_pos hin, if_pos (by omega), PGROUNDDOWN_of_page hal hin,
        BitVec.sub_self, BitVec.add_zero]
    · have hr := mt (frameOf_eq_iff hal va').mpr hin
      have hshift : pa + PGSIZE + (PGROUNDDOWN va' - (va + PGSIZE))
        = pa + (PGROUNDDOWN va' - va) := by
        bv_omega
      rw [if_neg hin, hshift]
      exact if_congr (by omega) rfl rfl

/-- The loop maps a page and goes on. -/
theorem mappagesLoop_succ {last pa : Word} (hva : va.toNat % 4096 = 0) :
    mappagesLoop d last perm (n + 1) s va pa = mappages s d va PGSIZE pa perm >>= fun x =>
          if x.1 = true ∧ va ≠ last then
            mappagesLoop d last perm n x.2 (va + PGSIZE) (pa + PGSIZE)
          else .ok x := by
  rw [mappages_page hva, mappagesLoop]
  cases walkpgdir s d va true with
  | mk r s1 =>
    cases r with
    | none => rfl
    | some ti =>
      obtain ⟨t, i⟩ := ti
      by_cases hp : s1.mem t i &&& PTE_P ≠ 0#32
      · simp only [if_pos hp]
        rfl
      · simp [*]

/-- No frame is free, and a page table is missing. -/
def Stuck (s : Phys) (d : Frame) (x : Word) : Prop := s.freelist = [] ∧ pte? s d x = none

theorem Roomy.not_stuck {x : Word} (h : Roomy s d n) : ¬ Stuck s d x := by
  rintro ⟨hnil, hpte⟩
  have hlt := h.lt_length hpte
  rw [hnil] at hlt
  cases hlt

/-- The loop from page `va` on panics if it comes to a page that is mapped.  Otherwise it has mapped
    `k` pages when it ends: all of them, if it returns 0, and else those in front of a page whose
    table is missing, when no frame is left. -/
theorem mappagesLoop_range {last : Word} (pa perm : Word) (hl : FreeList own s)
    (ht : Tables own s.mem a d) (hal : va.toNat % 4096 = 0) (hlast : last.toNat % 4096 = 0)
    (hle : va.toNat ≤ last.toNat)
    (hn : last.toNat - va.toNat < n * 4096) :
    (mappagesLoop d last perm n s va pa = .panic .remap ∧
      ∃ va' : Word, va.toNat ≤ va'.toNat ∧ va'.toNat < last.toNat + 4096 ∧
        translate s d va' ≠ none) ∨
    ∃ b own' s' k, mappagesLoop d last perm n s va pa = .ok (b, s') ∧
      RangeMapped own s a d va pa perm k own' s' ∧
      if b then va.toNat + k * 4096 = last.toNat + 4096
      else va.toNat + k * 4096 ≤ last.toNat ∧
        ∃ x : Word, x.toNat = va.toNat + k * 4096 ∧ Stuck s' d x := by
  induction n generalizing own s va pa with
  | zero => omega
  | succ n ih =>
    have htotal : (∃ r, mappages s d va PGSIZE pa perm = .ok r)
        ∨ mappages s d va PGSIZE pa perm = .panic .remap := mappages_page_total hal
    rw [mappagesLoop_succ hal]
    rcases htotal with ⟨⟨b, s1⟩, hmap⟩ | hpanic
    · rw [hmap, ok_bind]
      cases b with
      | false =>
        obtain ⟨rfl, hnil, hpte⟩ := mappages_page_false hal hmap
        exact .inr ⟨false, own, s1, 0, if_neg (by simp), .nil hl ht, by omega,
          va, by omega, hnil, hpte⟩
      | true =>
        obtain ⟨own1, w⟩ := mappages_page_true hl ht hal hmap
        by_cases heq : va = last
        · refine .inr ⟨true, own1, s1, 1, if_neg (by simp [heq]),
            w.cons (.nil w.list w.tables) hal (fun h => absurd rfl h), ?_⟩
          rw [if_pos rfl, heq, Nat.one_mul]
        · have hne : va.toNat ≠ last.toNat := fun h' => heq (eq_of_toNat_eq h')
          have hnext := toNat_add_PGSIZE va (by omega)
          have hal' : (va + PGSIZE).toNat % 4096 = 0 := by omega
          rw [if_pos ⟨rfl, heq⟩]
          rcases ih (pa + PGSIZE) w.list w.tables hal' (by omega) (by omega) with
            ⟨hpanic, va', h1, h2, h3⟩ | ⟨b, own2, s2, k, hloop, w2, hb⟩
          · -- a page behind this one was mapped before
            refine .inl ⟨hpanic, va', by omega, h2, ?_⟩
            rwa [w.after, if_neg fun hin => by have := (frameOf_eq_iff hal va').mp hin; omega] at h3
          · refine .inr ⟨b, own2, s2, k + 1, hloop, w.cons w2 hal fun _ => hnext, ?_⟩
            rw [hnext, show va.toNat + 4096 + k * 4096 = va.toNat + (k + 1) * 4096 by omega] at hb
            exact hb
    · rw [hpanic]
      exact .inl ⟨rfl, va, le_rfl, by omega, ((mappages_page_panic hl ht hal).mp hpanic).2⟩

/-- With frames for the page tables, and the page not mapped, it is mapped. -/
theorem mappages_page_roomy {m : Nat} (hl : FreeList own s) (ht : Tables own s.mem a d)
    (hal : va.toNat % 4096 = 0) (hroom : Roomy s d m) (habsent : translate s d va = none) :
    ∃ s', mappages s d va PGSIZE pa perm = .ok (true, s') := by
  have htotal : (∃ r, mappages s d va PGSIZE pa perm = .ok r)
      ∨ mappages s d va PGSIZE pa perm = .panic .remap := mappages_page_total hal
  rcases htotal with ⟨⟨b, s1⟩, h⟩ | h
  · cases b with
    | true => exact ⟨s1, h⟩
    | false => exact absurd (mappages_page_false hal h).2 hroom.not_stuck
  · exact absurd habsent ((mappages_page_panic hl ht hal).mp h).2

/-! ### `freevm` -/

/-- The loop of `freevm` gives back the tables of the slots that are left, each once, unless `kfree`
    does not take one. -/
theorem freevmLoop_frees {e : Idx → Word} (hn : n ≤ 1024) (hdir : s.mem d = e)
    (htab : ∀ i, e i &&& PTE_P ≠ 0#32 → frameOf (e i) ≠ d)
    (hdist : ∀ i j, e i &&& PTE_P ≠ 0#32 → e j &&& PTE_P ≠ 0#32 →
      frameOf (e i) = frameOf (e j) → i = j) :
    (∃ i, e i &&& PTE_P ≠ 0#32 ∧ ¬ Usable L (frameOf (e i))) ∧ freevmLoop L d n s = .panic .kfree ∨
    ∃ s' ts, freevmLoop L d n s = .ok s' ∧ Returned s ts s' ∧ ts.Nodup ∧
      (∀ g, g ∈ ts ↔ ∃ i : Idx, 1024 - n ≤ i.toNat ∧ e i &&& PTE_P ≠ 0#32 ∧ frameOf (e i) = g) ∧
      ∀ g ∉ ts, s'.mem g = s.mem g := by
  induction n generalizing s with
  | zero =>
    refine .inr ⟨s, [], rfl, ⟨rfl, nofun, nofun⟩, nodup_nil, fun g => ⟨nofun, ?_⟩, fun _ _ => rfl⟩
    rintro ⟨i, hi, -⟩
    omega
  | succ n ih =>
    have hi : (BitVec.ofNat 10 (1024 - (n + 1))).toNat = 1024 - (n + 1) := by
      rw [toNat_ofNat]
      omega
    unfold freevmLoop
    generalize BitVec.ofNat 10 (1024 - (n + 1)) = i at hi ⊢
    -- the slots from here on are this one and the others
    have hsplit : ∀ (P : Idx → Prop), (∃ j : Idx, 1024 - (n + 1) ≤ j.toNat ∧ P j) ↔
        P i ∨ ∃ j : Idx, 1024 - n ≤ j.toNat ∧ P j := by
      intro P
      constructor
      · rintro ⟨j, hj, hP⟩
        by_cases hij : j = i
        · exact .inl (hij ▸ hP)
        · have hne : j.toNat ≠ i.toNat := fun e => hij (eq_of_toNat_eq e)
          exact .inr ⟨j, by omega, hP⟩
      · grind
    simp only [hdir]
    by_cases hpde : e i &&& PTE_P ≠ 0#32
    · rw [if_pos hpde]
      rw [← base_frameOf]
      rcases kfree_cases L s (P2V (base (frameOf (e i)))) with ⟨s1, hfree⟩ | hfail
      · obtain ⟨hret, hmem⟩ := kfree_returned hfree
        rw [hfree, ok_bind]
        rcases ih (by omega) ((hmem d (htab i hpde).symm).trans hdir) with
          hbad | ⟨s', ts, hloop, hrest, hnd, hin, hother⟩
        · exact .inl hbad
        refine .inr ⟨s', ts ++ [frameOf (e i)], hloop, hret.trans hrest fun g _ => hother g, ?_,
          fun g => ?_, fun g hg => ?_⟩
        · -- the tables of later slots are others
          rw [← concat_eq_append]
          refine List.Nodup.concat (fun hmem => ?_) hnd
          obtain ⟨j, hj, hpde', heq⟩ := (hin _).mp hmem
          have := hdist j i hpde' hpde heq
          subst this
          omega
        · rw [mem_append, hin g, hsplit, mem_singleton]
          exact ⟨fun h => h.symm.imp_left fun h => ⟨hpde, h.symm⟩,
            fun h => h.symm.imp_right fun h => h.2.symm⟩
        · rw [hother g (fun h => hg (mem_append_left _ h)),
            hmem g fun h => hg (mem_append_right _ (mem_singleton.mpr h))]
      · refine .inl ⟨⟨i, hpde, fun hu => ?_⟩, by rw [hfail]; rfl⟩
        obtain ⟨s1, hfree⟩ := hu.kfree s
        rw [hfail] at hfree
        cases hfree
    · rw [if_neg hpde]
      rcases ih (by omega) hdir with hbad | ⟨s', ts, hloop, hrest, hnd, hin, hother⟩
      · exact .inl hbad
      refine .inr ⟨s', ts, hloop, hrest, hnd, fun g => ?_, hother⟩
      rw [hin g, hsplit]
      exact ⟨.inr, fun h => h.resolve_left fun hi => hpde hi.1⟩

/-- The run of `freevm`: the user pages, then the tables, then the directory. -/
theorem freevm_frees (ht : Tables own s.mem a d) (hp : Apart own s a d)
    (h : freevm L s d = .ok s') :
    ∃ fs, Returned s fs s' ∧ (∀ g, g ∈ fs ↔ g = d ∨ PageTable s d g ∨ UserFrame s d g) ∧
      (Unshared s d 0 KERNBASE.toNat → fs.Nodup) ∧
      ∀ g, ¬ (own g = .dir a ∨ ∃ i, own g = .table a i) → g ∉ fs → s'.mem g = s.mem g := by
  have hvalid := fun i => (pdeFormat_valid (s.mem d i)).mpr
  obtain ⟨⟨r, s1⟩, hde, hrest⟩ := bind_eq_ok.mp h
  obtain ⟨s2, hloop, hlast⟩ := bind_eq_ok.mp hrest
  obtain ⟨-, us, w⟩ := deallocuvm_cleared ht hp le_rfl (by decide) hde
  have hus := FramesIn.userFrame w.frames
  rcases freevmLoop_frees (L := L) le_rfl w.dir (fun i hi => ht.table_ne_dir (tags a) (hvalid i hi))
    (fun i j hi hj => ht.table_inj (tags a) (hvalid i hi) (hvalid j hj)) with
    ⟨-, hfail⟩ | ⟨s2', ts, hloop', hret, hnd, hts, hother⟩
  · rw [hfail] at hloop
    cases hloop
  rw [hloop'] at hloop
  cases hloop
  obtain ⟨hret', hmem⟩ := kfree_returned hlast
  have htab : ∀ g, g ∈ ts ↔ PageTable s d g := by
    intro g
    rw [hts g]
    exact ⟨fun ⟨i, _, hi⟩ => ⟨i, hi⟩, fun ⟨i, hi⟩ => ⟨i, by omega, hi⟩⟩
  have howner : ∀ g, g ∈ ts → ∃ i, own g = .table a i := by
    intro g hg
    obtain ⟨i, hi, rfl⟩ := (htab g).mp hg
    exact ⟨i, ht.table i (hvalid i hi)⟩
  have huser : ∀ g, g ∈ us → ¬ (own g = .dir a ∨ ∃ i, own g = .table a i) := by
    intro g hg
    obtain ⟨va, pte, hva, hpte, rfl⟩ := (hus g).mp hg
    exact hp va pte hva hpte
  refine ⟨[d] ++ (ts ++ us), (w.returned.trans hret fun g _ => hother g).trans hret' fun g _ hg =>
    hmem g fun heq => hg (mem_singleton.mpr heq), fun g => ?_, fun hun => ?_, fun g hg hfs => ?_⟩
  · rw [mem_append, mem_append, mem_singleton, htab, hus]
  · -- the three kinds of frames have nothing in common
    show (d :: (ts ++ us)).Nodup
    refine nodup_cons.mpr ⟨fun hd => ?_, hnd.append (w.nodup hun) fun g h1 h2 => ?_⟩
    · rcases mem_append.mp hd with hd | hd
      · obtain ⟨i, hi⟩ := howner d hd
        rw [ht.dir] at hi
        cases hi
      · exact huser d hd (.inl ht.dir)
    · exact huser g h2 (.inr (howner g h1))
  · rw [hmem g fun heq => hg (.inl (heq ▸ ht.dir)), hother g fun h => hg (.inr (howner g h)),
      w.data g hg fun h => hfs (mem_append_right _ (mem_append_right _ h))]

/-- It returns if all these frames are ones that `kfree` takes. -/
theorem freevm_returns (ht : Tables own s.mem a d) (hp : Apart own s a d)
    (hu : ∀ g, g = d ∨ PageTable s d g ∨ UserFrame s d g → Usable L g) :
    ∃ s', freevm L s d = .ok s' := by
  have hvalid := fun i => (pdeFormat_valid (s.mem d i)).mpr
  obtain ⟨s1, hde⟩ := deallocuvm_returns ht hp (fun g hg => hu g (.inr (.inr hg))) le_rfl
    (show (0 : Word) < KERNBASE by decide)
  obtain ⟨-, us, w⟩ := deallocuvm_cleared ht hp le_rfl (by decide) hde
  rcases freevmLoop_frees (L := L) le_rfl w.dir (fun i hi => ht.table_ne_dir (tags a) (hvalid i hi))
    (fun i j hi hj => ht.table_inj (tags a) (hvalid i hi) (hvalid j hj)) with
    ⟨⟨i, hi, hbad⟩, -⟩ | ⟨s2, ts, hloop, -⟩
  · exact absurd (hu _ (.inr (.inl ⟨i, hi, rfl⟩))) hbad
  obtain ⟨s3, hfree⟩ := (hu d (.inl rfl)).kfree s2
  refine ⟨s3, ?_⟩
  rw [freevm, hde, ok_bind]
  show (freevmLoop L d 1024 s1 >>= fun s => kfree L s (P2V (base d))) = .ok s3
  rw [hloop, ok_bind, hfree]

/-- `freevm` frees frames of `a` only. -/
theorem freevm_ok (hf : Free own s) (ht : Tables own s.mem a d) (hp : Pages own s a d)
    (h : freevm L s d = .ok s') :
    ∃ own', Free own' s' ∧ Touch (Owner.within a) own s.mem own' s'.mem := by
  obtain ⟨fs, hret, hin, hnd, hmem⟩ := freevm_frees ht hp.apart h
  have hown : ∀ g ∈ fs, (own g).within a ∧ own g ≠ .free := by
    intro g hg
    rcases (hin g).mp hg with rfl | ⟨i, hi, rfl⟩ | ⟨va, pte, hva, hpte, rfl⟩
    · rw [ht.dir]
      exact ⟨rfl, nofun⟩
    · have htab : own (frameOf (s.mem d i)) = .table a i := ht.table i ((pdeFormat_valid _).mpr hi)
      rw [htab]
      exact ⟨rfl, nofun⟩
    · rw [hp va pte hva hpte]
      exact ⟨rfl, nofun⟩
  refine ⟨freed fs own, hf.returned hret (hnd (hp.unshared le_rfl)) (fun g hg => (hown g hg).2)
    fun g hg => ?_, touch_freed trivial (fun g hg => (hown g hg).1) fun g hg => ?_⟩
  · have ho := hf.free g hg
    exact hmem g (by simp [ho]) fun hg => (hown g hg).2 ho
  · by_cases ho : own g = .dir a ∨ ∃ i, own g = .table a i
    · right
      rcases ho with ho | ⟨i, ho⟩ <;> rw [ho] <;> rfl
    · exact .inl (hmem g ho hg)

/-! ### `setupkvm` -/

/-- A line of `kmap` that maps a range of the kernel's half, from `virt` up to `hi`. -/
structure Kmap.Ok (m : Kmap) (hi : Nat) : Prop where
  aligned : m.virt.toNat % 4096 = 0
  kernel : KERNBASE.toNat ≤ m.virt.toNat
  pos : m.virt.toNat < hi
  top : hi ≤ 2 ^ 32
  mod : hi % 4096 = 0
  size : m.virt.toNat + (m.phys_end - m.phys_start).toNat = hi

/-- The lines of the list map ranges of the kernel's half, one above the other from `lo` on. -/
inductive Stacked : Nat → List Kmap → Prop
  | nil (lo : Nat) : Stacked lo []
  | cons {lo hi : Nat} {m : Kmap} {ms : List Kmap} :
      lo ≤ m.virt.toNat → m.Ok hi → Stacked hi ms → Stacked lo (m :: ms)

/-- The kernel's mappings lie one above the other. -/
theorem kmap_stacked (L : Link) : Stacked KERNBASE.toNat (kmap L) := by
  have hkern := toNat_KERNBASE
  have hlink : KERNLINK.toNat = 0x80100000 := rfl
  have hstop : (P2V PHYSTOP).toNat = 0x8E000000 := rfl
  have hstop' : PHYSTOP.toNat = 0xE000000 := rfl
  have h1 := L.data_aligned
  have h2 := L.data_gt
  have h3 := L.data_le
  have h4 := L.end_lt
  have hdata : (V2P L.data).toNat = L.data.toNat - 0x80000000 := by
    rw [V2P, toNat_sub, hkern]
    omega
  have hlow : Ok ⟨KERNBASE, 0, EXTMEM, PTE_W⟩ 0x80100000 :=
    ⟨rfl, le_rfl, by decide, by decide, rfl, rfl⟩
  have htext : Ok ⟨KERNLINK, V2P KERNLINK, V2P L.data, 0⟩ L.data.toNat := by
    refine ⟨?_, ?_, h2, by omega, h1, ?_⟩
    · show KERNLINK.toNat % 4096 = 0
      decide
    · show KERNBASE.toNat ≤ KERNLINK.toNat
      decide
    · show KERNLINK.toNat + (V2P L.data - V2P KERNLINK).toNat = L.data.toNat
      have hl : (V2P KERNLINK).toNat = 0x100000 := rfl
      rw [toNat_sub, hdata, hl, hlink]
      omega
  have hmem : Ok ⟨L.data, V2P L.data, PHYSTOP, PTE_W⟩ 0x8E000000 := by
    refine ⟨h1, ?_, ?_, by decide, rfl, ?_⟩
    · show KERNBASE.toNat ≤ L.data.toNat
      omega
    · show L.data.toNat < 0x8E000000
      omega
    · grind
  have hdev : Ok ⟨DEVSPACE, DEVSPACE, 0, PTE_W⟩ 0x100000000 :=
    ⟨rfl, by decide, by decide, le_rfl, rfl, rfl⟩
  exact .cons le_rfl hlow (.cons le_rfl htext (.cons le_rfl hmem (.cons (by decide) hdev (.nil _))))

/-- The last page of a line. -/
theorem Kmap.Ok.last (h : m.Ok hi) :
    (PGROUNDDOWN (m.virt + (m.phys_end - m.phys_start) - 1)).toNat + 4096 = hi := by
  have h1 : (1 : Word).toNat = 1 := rfl
  have hpos := h.pos
  have htop := h.top
  have hmod := h.mod
  have hsize := h.size
  rw [toNat_PGROUNDDOWN, toNat_sub, toNat_add, h1]
  omega

/-- The line of `kmap` is about the address. -/
def Kmap.Covers (m : Kmap) (va : Word) : Prop :=
  m.virt.toNat ≤ va.toNat ∧ va.toNat < m.virt.toNat + (m.phys_end - m.phys_start).toNat

instance (m : Kmap) (va : Word) : Decidable (m.Covers va) := inferInstanceAs (Decidable (_ ∧ _))

/-- The entry for an address that is covered. -/
def Kmap.pte (m : Kmap) (va : Word) : Word :=
  (m.phys_start + (PGROUNDDOWN va - m.virt)) ||| m.perm ||| PTE_P

/-- The entry for an address of the kernel's half. -/
def kernelPte (L : Link) (va : Word) : Option Word :=
  ((kmap L).find? fun m => m.Covers va).map fun m => m.pte va

/-- The kernel half starts there. -/
theorem kernelPte_KERNBASE (L : Link) : kernelPte L KERNBASE ≠ none := by
  unfold kernelPte kmap
  rw [find?_cons, decide_eq_true (show Covers ⟨KERNBASE, 0, EXTMEM, PTE_W⟩ KERNBASE by decide)]
  exact nofun

/-- The lines are in order: none of them is about an address before the first. -/
theorem Stacked.find_none (hms : Stacked lo ms) (hva : va.toNat < lo) :
    (ms.find? fun m => m.Covers va) = none := by
  induction hms with
  | nil => rfl
  | cons hle hm hrest ih => grind [hm.pos, decide_eq_false, Covers]

/-- A line of `kmap` is mapped, as far as there are frames for page tables. -/
theorem mappages_kmap (hm : m.Ok hi) (hl : FreeList own s) (ht : Tables own s.mem a d)
    (habsent : ∀ va : Word, m.virt.toNat ≤ va.toNat → translate s d va = none) :
    ∃ b own' s' k,
      mappages s d m.virt (m.phys_end - m.phys_start) m.phys_start m.perm = .ok (b, s') ∧
      RangeMapped own s a d m.virt m.phys_start m.perm k own' s' ∧
      if b then m.virt.toNat + k * 4096 = hi else ∃ x, Stuck s' d x := by
  have hlast := hm.last
  have hal := hm.aligned
  have hpos := hm.pos
  have hmod := hm.mod
  have hb : loopBound = 2097152 := rfl
  unfold mappages
  rw [PGROUNDDOWN_of_aligned hal]
  generalize PGROUNDDOWN (m.virt + (m.phys_end - m.phys_start) - 1) = last at hlast ⊢
  rcases mappagesLoop_range m.phys_start m.perm hl ht hal (show last.toNat % 4096 = 0 by omega)
    (by omega) (show last.toNat - m.virt.toNat < loopBound * 4096 by omega) with
    ⟨-, va', h1, -, h3⟩ | ⟨b, own', s', k, hloop, w, hb⟩
  · exact absurd (habsent va' h1) h3
  · refine ⟨b, own', s', k, hloop, w, ?_⟩
    cases b with
    | true => exact hb.trans hlast
    | false =>
      obtain ⟨-, x, -, hx⟩ := hb
      exact ⟨x, hx⟩

/-- The loop maps the lines one after the other, or frees the directory where memory runs out. -/
theorem setupkvmLoop_cases (hms : Stacked lo ms) (hl : FreeList own s) (ht : Tables own s.mem a d)
    (habsent : ∀ va : Word, lo ≤ va.toNat → translate s d va = none) :
    (∃ own' s', setupkvmLoop L d ms s = .ok (true, s') ∧ Added own s a d own' s' ∧
      ∀ va, translate s' d va = match ms.find? fun m => m.Covers va with
        | some m => some (m.pte va)
        | none => translate s d va) ∨
    ∃ own' s' x, setupkvmLoop L d ms s = (freevm L s' d >>= fun s => .ok (false, s)) ∧
      Added own s a d own' s' ∧ Stuck s' d x ∧
      ∀ va : Word, va.toNat < lo → translate s' d va = translate s d va := by
  induction hms generalizing own s with
  | nil lo => exact .inl ⟨own, s, rfl, .refl hl ht, fun va => rfl⟩
  | @cons lo hi m ms hle hm hms ih =>
    obtain ⟨b, own1, s1, k, hmap, w, hb⟩ :=
      mappages_kmap hm hl ht fun va hva => habsent va (by omega)
    have hbelow (va : Word) (hva : va.toNat < lo) : translate s1 d va = translate s d va := by
      rw [w.after, if_neg (by omega)]
    rw [setupkvmLoop, hmap, ok_bind]
    cases b with
    | true =>
      rw [if_pos rfl] at hb
      rcases ih w.list w.tables fun va hva => by
        rw [w.after, if_neg (by omega), habsent va (by omega)]
        with ⟨own2, s2, hloop, w2, htr⟩ | ⟨own2, s2, x, hloop, w2, hx, htr⟩
      · refine .inl ⟨own2, s2, hloop, w.toAdded.trans w2, fun va => ?_⟩
        rw [htr, find?_cons]
        by_cases hva : m.Covers va
        · have hlt : va.toNat < m.virt.toNat + _ := hva.2
          rw [hm.size] at hlt
          rw [hms.find_none hlt, decide_eq_true hva]
          exact (w.after va).trans (if_pos ⟨hva.1, by omega⟩)
        · rw [decide_eq_false hva]
          rw [w.after, if_neg fun hin => hva ⟨hin.1, by rw [hm.size]; omega⟩]
      · exact .inr ⟨own2, s2, x, hloop, w.toAdded.trans w2, hx, fun va hva => by
          rw [htr va (by omega), hbelow va hva]⟩
    | false =>
      obtain ⟨x, hx⟩ := hb
      exact .inr ⟨own1, s1, x, rfl, w.toAdded, hx, hbelow⟩

/-- The new directory, before anything is mapped. -/
theorem setupkvm_start {s1 : Phys} (hf : Free own s) (hk : kalloc s = (some f, s1)) (a : Space) :
    Free (Function.update own f (.dir a)) (s1.memset f 0)
      ∧ Tables (Function.update own f (.dir a)) (s1.memset f 0).mem a f
      ∧ Touch (Owner.within a) own s.mem (Function.update own f (.dir a)) (s1.memset f 0).mem
      ∧ (∀ g, own g ≠ .free → g ≠ f ∧ (s1.memset f 0).mem g = s.mem g)
      ∧ ∀ va, translate (s1.memset f 0) f va = none := by
  obtain ⟨hl, hm⟩ := kalloc_some hk
  obtain ⟨hof, hf1⟩ := hf.kalloc hk (.dir a)
  have hself : update own f (.dir a) f = .dir a := update_self _ _ _
  have hblank : ∀ i, ¬ (s1.memset f 0).mem f i &&& PTE_P ≠ 0#32 := by
    intro i
    rw [memset_eq_setFrame, setFrame_mem_self]
    decide
  refine ⟨hf1.setFrame (by rw [hself]; simp) _, ⟨hself, fun i hi => ?_⟩,
    fun g => ?_, fun g hg => ?_,
    fun va => ?_⟩
  · exact absurd ((pdeFormat_valid _).mp hi) (hblank i)
  · by_cases hg : g = f
    · subst hg
      exact .inr ⟨by rw [hof]; trivial, by rw [hself]; rfl⟩
    · refine .inl ⟨update_of_ne hg _ _, ?_⟩
      rw [memset_eq_setFrame, setFrame_mem_ne _ _ hg, hm]
  · grind [memset_eq_setFrame, setFrame_mem_ne]
  · rw [Kernel.translate, pte?_eq_leaf,
      TwoLevel.leaf_of_not_valid (by simpa [pdeFormat] using hblank (PDX va))]
    rfl

/-- The frames in `F` are the free ones and those of the address space. -/
def Account (F : Frame → Prop) (s : Phys) (d : Frame) : Prop :=
  ∀ g, F g ↔ (g ∈ s.freelist ∨ PageTable s d g) ∨ g = d ∨ UserFrame s d g

/-- Directory `d` is new, and has no user pages yet. -/
structure Begun (own : Frame → Owner) (s : Phys) (a : Space) (d : Frame) (own' : Frame → Owner)
    (s' : Phys) : Prop where
  free : Free own' s'
  tables : Tables own' s'.mem a d
  touch : Touch (Owner.within a) own s.mem own' s'.mem
  keep : ∀ g, own g ≠ .free → own' g = own g
  data : ∀ g, own g ≠ .free → ¬ (own g).inTables a → s'.mem g = s.mem g
  user : ∀ va, va < KERNBASE → translate s' d va = none
  room : ∀ n, 1025 + n ≤ s.freelist.length → Roomy s' d n
  account : Account (· ∈ s.freelist) s' d

theorem Begun.pages (h : Begun own s a d own' s') : Pages own' s' a d := by
  intro va pte hva hpte
  rw [h.user va hva] at hpte
  cases hpte

/-- Where tables were added to a new directory. -/
theorem Added.begun {s1 : Phys} (hf : Free own s) (hk : kalloc s = (some d, s1))
    (w : Added (Function.update own d (.dir a)) (s1.memset d 0) a d own' s')
    (huser : ∀ va, va < KERNBASE → translate s' d va = none) : Begun own s a d own' s' := by
  obtain ⟨hf1, ht1, htouch, hin, hnone⟩ := setupkvm_start hf hk a
  obtain ⟨hlist, -⟩ := kalloc_some hk
  have hown : ∀ g, own g ≠ .free → update own d (.dir a) g = own g :=
    fun g hg => update_of_ne (hin g hg).1 _ _
  refine ⟨w.free hf1, w.tables, htouch.trans (w.touch.mono fun _ => within_of_inTables),
    fun g hg => ?_,
    fun g hg ht => ?_, huser, fun n hn => w.room n (Roomy.of_length ?_), fun g => ?_⟩
  · rw [w.keep g (by rwa [hown g hg]), hown g hg]
  · rw [(w.touch.keeps (by rwa [hown g hg])).2, (hin g hg).2]
  · rw [hlist, length_cons] at hn
    show 1024 + n ≤ s1.freelist.length
    omega
  · have htab : ¬ PageTable (s1.memset d 0) d g := by
      rintro ⟨i, hi, -⟩
      rw [memset_eq_setFrame, setFrame_mem_self] at hi
      exact hi (by decide)
    have hno : ¬ UserFrame s' d g := by
      rintro ⟨va, pte, hva, hpte, -⟩
      rw [huser va hva] at hpte
      cases hpte
    change g ∈ s.freelist ↔ _
    rw [w.held, hlist, mem_cons]
    change _ ↔ (g ∈ s1.freelist ∨ _) ∨ _
    tauto

/-- `setupkvm` returns a directory with the kernel's half, or null; if it has begun one it is freed
    again. -/
theorem setupkvm_cases (hf : Free own s) (L : Link) (a : Space) :
    setupkvm L s = .ok (none, s) ∧ s.freelist = [] ∨
    (∃ d own' s', setupkvm L s = .ok (some d, s') ∧ Begun own s a d own' s' ∧
      ∀ va, translate s' d va = kernelPte L va) ∨
    ∃ d own' s' x, setupkvm L s = (freevm L s' d >>= fun s => .ok (none, s)) ∧
      Begun own s a d own' s' ∧ Stuck s' d x := by
  cases hl : s.freelist with
  | nil => exact .inl ⟨by simp only [setupkvm, kalloc_nil hl], rfl⟩
  | cons d rest =>
    have hk := kalloc_cons hl
    obtain ⟨hf1, ht1, -, -, hnone⟩ := setupkvm_start hf hk a
    right
    rcases setupkvmLoop_cases (L := L) (kmap_stacked L) hf1.list ht1 fun va _ => hnone va with
      ⟨own', s', hloop, w, htr⟩ | ⟨own', s', x, hloop, w, hx, htr⟩
    · have hpte (va : Word) : translate s' d va = kernelPte L va := by
        rw [htr, kernelPte]
        cases (kmap L).find? fun m => m.Covers va with
        | none => exact hnone va
        | some m => rfl
      refine .inl ⟨d, own', s', ?_, w.begun hf hk fun va hva => ?_, hpte⟩
      · simp only [setupkvm, hk, hloop, ok_bind]
        rfl
      · rw [hpte, kernelPte, (kmap_stacked L).find_none hva]
        rfl
    · refine .inr ⟨d, own', s', x, ?_, w.begun hf hk fun va hva => ?_, hx⟩
      · simp only [setupkvm, hk, hloop, bind_assoc, ok_bind]
        rfl
      · rw [htr va hva, hnone]

end Xv6
