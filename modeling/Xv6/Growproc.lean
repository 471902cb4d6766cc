import Xv6.Translation

namespace Xv6

open Function Kernel List Owner Outcome

/-!
# A `growproc` that fails

`growproc` returns -1 when a size it gets is 0.  For `allocuvm` that is the size of a failed
call, which has taken back everything between the two sizes; for `deallocuvm` it is also the
size of a process that gave back all its memory.

* `RolledBack` — what is left of a call of `allocuvm` that failed;
* `allocuvm_rolledBack` — such a call clears the range it was to fill, whatever was there;
* `growproc_failed_iff` — so all is as before exactly if nothing was.
-/

variable {L : Link} {own own' : Frame → Owner} {s s' s2 : Phys} {a : Space} {d f : Frame}
  {va oldsz newsz : Word} {lo hi : Nat}
variable {g : Frame} {x : Idx → Word} {perm : Word} {s1 : Phys}

/-- Free frames and the tables of `a` hold no user pages of `a`; these may share frames. -/
structure Backed (own : Frame → Owner) (s : Phys) (a : Space) (d : Frame) : Prop where
  free : Free own s
  tables : Tables own s.mem a d
  pages : ∀ va pte, va < KERNBASE → translate s d va = some pte → ¬ (own (frameOf pte)).inTables a

theorem not_table_of_not_inTables {o : Owner} (h : ¬ o.inTables a) :
    ¬ (o = .dir a ∨ ∃ i, o = .table a i) := by
  rintro (rfl | ⟨i, rfl⟩)
  · exact h rfl
  · exact h rfl

theorem Backed.apart (h : Backed own s a d) : Apart own s a d :=
  fun va pte hva hpte => not_table_of_not_inTables (h.pages va pte hva hpte)

/-- The frame is free, a page table, or that of a user page that starts in `[lo, hi)`. -/
def Held (s : Phys) (d : Frame) (lo hi : Nat) (f : Frame) : Prop :=
  f ∈ s.freelist ∨ PageTable s d f
    ∨ ∃ va pte : Word, lo ≤ va.toNat ∧ va.toNat / 4096 * 4096 < hi ∧ translate s d va = some pte
      ∧ frameOf pte = f

/-- The user pages that start in `[lo, hi)` are gone; all else is as it was, but that free
    frames may have become page tables. -/
structure RolledBack (own : Frame → Owner) (s : Phys) (a : Space) (d : Frame) (lo hi : Nat)
    (s' : Phys) : Prop where
  gone : ∀ va : Word, lo ≤ va.toNat → va.toNat / 4096 * 4096 < hi → translate s' d va = none
  same : ∀ va : Word, ¬ (lo ≤ va.toNat ∧ va.toNat / 4096 * 4096 < hi) →
    translate s' d va = translate s d va
  data : ∀ g, ¬ (own g).inTables a →
    (∀ va pte : Word, lo ≤ va.toNat → va.toNat / 4096 * 4096 < hi → translate s d va = some pte →
      frameOf pte ≠ g) → s'.mem g = s.mem g
  kept : ∀ g, Held s d lo hi g → g ∈ s'.freelist ∨ PageTable s' d g

/-- What was mapped is gone. -/
theorem Cleared.rolledBack {fs : List Frame} (h : Cleared own s a d lo hi fs s') :
    RolledBack own s a d lo hi s' where
  gone := h.gone
  same := h.same
  data := by
    refine fun g hg hpages => h.data g (not_table_of_not_inTables hg) fun hfs => ?_
    obtain ⟨va, pte, h1, h2, h3, h4⟩ := (h.frames g).mp hfs
    exact hpages va pte h1 h2 h3 h4
  kept := by
    rintro g (hg | hg | hg)
    · exact .inl (h.returned.freelist ▸ mem_append_right _ hg)
    · exact .inr ((pageTable_congr h.dir).mpr hg)
    · exact .inl (h.returned.freelist ▸ mem_append_left _ ((h.frames g).mpr hg))

/-! ### One page -/

/-- Giving a page first does not change what is left of a call that fails. -/
theorem NewPage.rolledBack (hperm : (perm ||| PTE_P).toNat < 4096)
    (w : NewPage own s a d va f x perm own' s2) (hal : va.toNat % 4096 = 0)
    (hlo : lo ≤ va.toNat) (hhi : va.toNat < hi) (h : RolledBack own' s2 a d lo hi s') :
    RolledBack own s a d lo hi s' := by
  have hpage := frameOf_eq_iff hal
  have hword : frameOf (base f ||| perm ||| PTE_P) = f := by
    rw [BitVec.or_assoc, frameOf_base_or hperm]
  refine ⟨h.gone, fun va' hva' => ?_, fun g hg hpages => ?_, fun g hg => ?_⟩
  · rw [h.same va' hva', w.after, if_neg]
    intro heq
    have := (hpage va').mp heq
    omega
  · have hfree : own g ≠ .free := fun heq => hg (by rw [heq]; trivial)
    rw [h.data g (by rw [w.keep g hfree]; exact hg), w.data g hg]
    intro va' pte h1 h2 hpte
    rw [w.after] at hpte
    split at hpte
    · cases hpte
      rw [hword]
      rintro rfl
      exact hfree w.fresh
    · exact hpages va' pte h1 h2 hpte
  · apply h.kept
    have hnew : Held s2 d lo hi f := by
      refine .inr (.inr ⟨va, _, hlo, by omega, ?_, hword⟩)
      rw [w.after, if_pos rfl]
    have hfirst : g ∈ s.freelist ∨ PageTable s d g → Held s2 d lo hi g := by
      intro hg
      rcases (w.held g).mp hg with rfl | hg | hg
      · exact hnew
      · exact .inl hg
      · exact .inr (.inl hg)
    rcases hg with hg | hg | ⟨va', pte, h1, h2, hpte, hg⟩
    · exact hfirst (.inl hg)
    · exact hfirst (.inr hg)
    · have hpte' := translate_mono w.before (w.after va') hpte
      exact .inr (.inr ⟨va', pte, h1, h2, hpte', hg⟩)

/-- The new page has its frame. -/
theorem NewPage.backed (hperm : (perm ||| PTE_P).toNat < 4096) (h : Backed own s a d)
    (w : NewPage own s a d va f x perm own' s2) : Backed own' s2 a d where
  free := w.free
  tables := w.tables
  pages := by
    intro va' pte hva' hpte
    rw [w.after] at hpte
    split at hpte
    · cases hpte
      rw [BitVec.or_assoc, frameOf_base_or hperm, w.frame]
      simp [inTables]
    · have hown := h.pages va' pte hva' hpte
      rw [w.keep _ (fun heq => hown (by rw [heq]; trivial))]
      exact hown

/-! ### The whole call -/

/-- A frame was taken for a page, but there was none for its page table: after everything has
    been cleared, the frame is given back. -/
theorem Cleared.giveBack {fs : List Frame} (hf : Free own s) (ht : Tables own s.mem a d)
    (hk : kalloc s = (some f, s1)) (hnil : s1.freelist = [])
    (h : Cleared (Function.update own f .reserved) (s1.setFrame f x) a d lo hi fs s2)
    (hfr : kfree L s2 (P2V (base f)) = .ok s') : RolledBack own s a d lo hi s' := by
  obtain ⟨hlist, hmem⟩ := kalloc_some hk
  have hof : own f = .free := hf.free f (by simp [hlist])
  obtain ⟨-, -, htr⟩ := newPage_start hf ht hk (o := .reserved) id x
  obtain ⟨hret, hmem'⟩ := kfree_returned hfr
  have hself : update own f .reserved f = .reserved := update_self _ _ _
  -- the frame is none of the tables
  have hne : ∀ g, (update own f .reserved g = .dir a
      ∨ ∃ i, update own f .reserved g = .table a i) → g ≠ f := by
    rintro g hg rfl
    rw [hself] at hg
    rcases hg with hg | ⟨i, hg⟩ <;> cases hg
  have htr' : ∀ va, translate s' d va = translate s2 d va :=
    translate_congr h.tables (fun g hg => hmem' g (hne g hg))
  have hd : d ≠ f := hne d (.inl h.tables.dir)
  have hdir : s'.mem d = s.mem d := by
    rw [hmem' d hd, h.dir, setFrame_mem_ne _ _ hd, hmem]
  refine ⟨fun va h1 h2 => ?_, fun va hva => ?_, fun g hg hpages => ?_, fun g hg => ?_⟩
  · rw [htr', h.gone va h1 h2]
  · rw [htr', h.same va hva, htr]
  · have hgf : g ≠ f := by
      rintro rfl
      exact hg (by rw [hof]; trivial)
    rw [hmem' g hgf, h.data g, setFrame_mem_ne _ _ hgf, hmem]
    · rw [update_of_ne hgf]
      exact not_table_of_not_inTables hg
    · intro hfs
      obtain ⟨va, pte, h1, h2, hpte, heq⟩ := (h.frames g).mp hfs
      rw [htr] at hpte
      exact hpages va pte h1 h2 hpte heq
  · rw [hret.freelist, h.returned.freelist, setFrame_freelist, hnil, pageTable_congr hdir]
    rcases hg with hg | hg | ⟨va, pte, h1, h2, hpte, hg⟩
    · rw [hlist, hnil] at hg
      exact .inl (mem_append_left _ hg)
    · exact .inr hg
    · rw [← htr] at hpte
      exact .inl (mem_append_right _
        (mem_append_left _ ((h.frames g).mpr ⟨va, pte, h1, h2, hpte, hg⟩)))

/-- The loop of `allocuvm`, when it fails at some page. -/
theorem allocuvmLoop_rolledBack {n : Nat} (h : Backed own s a d) (hsz : newsz < KERNBASE)
    (hlt : oldsz < newsz) (hal : va.toNat % 4096 = 0) (hlo : (PGROUNDUP oldsz).toNat ≤ va.toNat)
    (hr : allocuvmLoop L d oldsz newsz n s va = .ok (0, s')) :
    RolledBack own s a d (PGROUNDUP oldsz).toNat newsz.toNat s' := by
  have hkern := toNat_KERNBASE
  have hsz' : newsz.toNat < KERNBASE.toNat := hsz
  induction n generalizing own s va with
  | zero => cases hr
  | succ n ih =>
    unfold allocuvmLoop at hr
    by_cases hva : va < newsz
    · have hva' : va.toNat < newsz.toNat := hva
      rw [if_pos hva] at hr
      cases hk : kalloc s with
      | mk o s1 =>
      cases o with
      | none =>
        -- out of memory
        obtain ⟨-, rfl⟩ := kalloc_none hk
        simp only [hk] at hr
        obtain ⟨⟨r1, s2⟩, hde, hr⟩ := bind_eq_ok.mp hr
        cases hr
        obtain ⟨-, fs, w⟩ := deallocuvm_cleared h.tables h.apart (by omega) hlt hde
        exact w.rolledBack
      | some f =>
        simp only [hk] at hr
        obtain ⟨⟨mapped, s2⟩, hmap, hr⟩ := bind_eq_ok.mp hr
        cases mapped with
        | true =>
          obtain ⟨own1, w⟩ := newPage_true h.free h.tables hal hk hmap
          have hnext := toNat_add_PGSIZE va (by omega)
          have hrest := ih (w.backed (by decide) h) (by omega) (by omega) hr
          exact w.rolledBack (by decide) hal hlo hva' hrest
        | false =>
          -- out of memory (2)
          obtain ⟨⟨r1, s3⟩, hde, hr⟩ := bind_eq_ok.mp hr
          obtain ⟨s4, hfree, hr⟩ := bind_eq_ok.mp hr
          cases hr
          obtain ⟨rfl, hnil, -⟩ := mappages_page_false hal hmap
          obtain ⟨-, ht1, htr1⟩ := newPage_start h.free h.tables hk (o := .reserved) id (fun _ => 0)
          have hof : own f = .free := h.free.free f (by simp [(kalloc_some hk).1])
          have hp1 : Apart (update own f .reserved) (s1.memset f 0) a d := by
            intro va' pte hva' hpte
            rw [memset_eq_setFrame, htr1] at hpte
            have hown := h.pages va' pte hva' hpte
            rw [update_of_ne]
            · exact not_table_of_not_inTables hown
            · intro heq
              exact hown (by rw [heq, hof]; trivial)
          obtain ⟨-, fs, w⟩ := deallocuvm_cleared ht1 hp1 (by omega) hlt hde
          exact w.giveBack h.free h.tables hk hnil hfree
    · simp_all

/-- A call of `allocuvm` that fails does nothing if the new size is too large, and clears the
    range between the two sizes otherwise. -/
theorem allocuvm_rolledBack (h : Backed own s a d) (hne : oldsz ≠ newsz)
    (hr : allocuvm L s d oldsz newsz = .ok (0, s')) :
    KERNBASE ≤ newsz ∧ s' = s
      ∨ newsz < KERNBASE ∧ RolledBack own s a d (PGROUNDUP oldsz).toNat newsz.toNat s' := by
  unfold allocuvm at hr
  split at hr
  · rename_i hge
    cases hr
    exact .inl ⟨hge, rfl⟩
  rename_i hkern
  split at hr
  · -- the size is not 0, as it is greater than another
    rename_i hlt
    cases hr
    exact absurd hlt (BitVec.not_lt.mpr (BitVec.le_def.mpr (Nat.zero_le _)))
  · have hlt : oldsz < newsz := by grind
    have hsz := BitVec.not_le.mp hkern
    exact .inr ⟨hsz, allocuvmLoop_rolledBack h hsz hlt (toNat_PGROUNDUP_mod oldsz) le_rfl hr⟩

namespace Kernel

variable {k k' : Kernel} {p : Slot} {n : Word}

/-- The size of the process, the translation and contents of its user pages are as before, and
    every frame that was free or a page table still is one or the other. -/
structure AsBefore (k : Kernel) (p : Slot) (k' : Kernel) : Prop where
  size : (k'.proc p).sz = (k.proc p).sz
  trans : ∀ va, va < KERNBASE → k'.trans p va = k.trans p va
  data : ∀ va pte, va < KERNBASE → k.trans p va = some pte →
    k'.phys.mem (frameOf pte) = k.phys.mem (frameOf pte)
  frames : ∀ f, f ∈ k.phys.freelist ∨ PageTable k.phys (k.proc p).pgdir f →
    f ∈ k'.phys.freelist ∨ PageTable k'.phys (k'.proc p).pgdir f

theorem AsBefore.refl (k : Kernel) (p : Slot) : AsBefore k p k :=
  ⟨rfl, fun _ _ => rfl, fun _ _ _ _ => rfl, fun _ h => h⟩

/-- No page that starts in `[lo, hi)` is present. -/
def NonePresent (k : Kernel) (p : Slot) (lo hi : Nat) : Prop :=
  ∀ va : Word, lo ≤ va.toNat → va.toNat / 4096 * 4096 < hi → k.trans p va = none

/-- Clearing a range changes nothing iff there was nothing in it. -/
theorem asBefore_rolledBack_iff (h : Backed own k.phys (.proc p) (k.proc p).pgdir)
    (hhi : hi ≤ KERNBASE.toNat) (w : RolledBack own k.phys (.proc p) (k.proc p).pgdir lo hi s') :
    AsBefore k p { k with phys := s' } ↔ NonePresent k p lo hi := by
  have hkern := toNat_KERNBASE
  constructor
  · intro hsame va h1 h2
    rw [← hsame.trans va (BitVec.lt_def.mpr (by omega))]
    exact w.gone va h1 h2
  · intro hnone
    refine ⟨rfl, fun va hva => ?_, fun va pte hva hpte => ?_, fun f hf => ?_⟩
    · by_cases hin : lo ≤ va.toNat ∧ va.toNat / 4096 * 4096 < hi
      · rw [hnone va hin.1 hin.2]
        exact w.gone va hin.1 hin.2
      · exact w.same va hin
    · refine w.data _ (h.pages va pte hva hpte) (fun va' pte' h1 h2 hpte' => ?_)
      have := hnone va' h1 h2
      rw [trans, hpte'] at this
      cases this
    · apply w.kept
      rcases hf with hf | hf
      · exact .inl hf
      · exact .inr (.inl hf)

/-- After a `growproc` that returns -1 all is as before iff the range it worked on was empty:
    from the size of the process to the size asked for, or, when all memory is given back,
    the process's whole memory. -/
theorem growproc_failed_iff (h : Backed own k.phys (.proc p) (k.proc p).pgdir)
    (hr : growproc L k p n = .ok (-1, k')) :
    AsBefore k p k' ↔
      (0 < n.toInt → KERNBASE ≤ (k.proc p).sz + n
        ∨ NonePresent k p (PGROUNDUP (k.proc p).sz).toNat ((k.proc p).sz + n).toNat)
      ∧ (n.toInt < 0 → NonePresent k p 0 (k.proc p).sz.toNat) := by
  have hkern := toNat_KERNBASE
  unfold growproc at hr
  simp only at hr
  by_cases hpos : 0 < n.toInt
  · rw [if_pos hpos] at hr
    obtain ⟨⟨sz, s'⟩, halloc, hr⟩ := Outcome.bind_eq_ok.mp hr
    split at hr
    swap
    · cases hr
    rename_i hzero
    subst hzero
    cases hr
    have hne : (k.proc p).sz ≠ (k.proc p).sz + n := by grind
    have hneg : ¬ n.toInt < 0 := by omega
    rcases allocuvm_rolledBack h hne halloc with ⟨hge, rfl⟩ | ⟨hlt, w⟩
    · simp only [hpos, hneg, hge, true_or, forall_const, false_implies, and_self, iff_true]
      exact .refl k p
    · have hlt' : ((k.proc p).sz + n).toNat < KERNBASE.toNat := hlt
      rw [asBefore_rolledBack_iff h (by omega) w]
      simp only [hpos, hneg, BitVec.not_le.mpr hlt, false_or, forall_const, false_implies, and_true]
  · rw [if_neg hpos] at hr
    split at hr
    swap
    · cases hr
    rename_i hneg
    obtain ⟨⟨sz, s'⟩, hdealloc, hr⟩ := Outcome.bind_eq_ok.mp hr
    split at hr
    swap
    · cases hr
    rename_i hzero
    subst hzero
    cases hr
    simp only [hpos, hneg, false_implies, true_and, forall_const]
    by_cases hlt : (k.proc p).sz + n < (k.proc p).sz
    · -- all memory is given back, so the size is that of `n`
      have hsz := deallocuvm_size hdealloc
      rw [if_neg (BitVec.not_le.mpr hlt)] at hsz
      have hle : (k.proc p).sz.toNat ≤ KERNBASE.toNat := by
        have hsum := congrArg BitVec.toNat hsz.symm
        rw [BitVec.toNat_add] at hsum
        rw [BitVec.toInt_eq_toNat_cond] at hneg
        have hz : (0#32 : Word).toNat = 0 := rfl
        split at hneg <;> omega
      obtain ⟨-, fs, w⟩ := deallocuvm_cleared h.tables h.apart hle hlt hdealloc
      rw [← hsz] at w
      exact asBefore_rolledBack_iff h hle w.rolledBack
    · unfold deallocuvm at hdealloc
      rw [if_pos (BitVec.not_lt.mp hlt)] at hdealloc
      have hpair := Outcome.ok.inj hdealloc
      have hsz : (k.proc p).sz = 0#32 := congrArg Prod.fst hpair
      obtain rfl : k.phys = s' := congrArg Prod.snd hpair
      refine ⟨fun _ va _ h2 => ?_, fun _ => .refl k p⟩
      rw [hsz] at h2
      exact absurd h2 (Nat.not_lt_zero _)

theorem Intact.backed (h : Intact own k p) : Backed own k.phys (.proc p) (k.proc p).pgdir where
  free := h.free
  tables := h.tables
  pages := by
    intro va pte hva hpte
    rw [h.pages va pte hva hpte]
    simp [inTables]

/-- Eight pages asked for with four frames left. -/
theorem growproc_failed_start :
    ∃ k', growproc startLink (start 4) 0 0x8000 = .ok (-1, k') ∧ AsBefore (start 4) 0 k' := by
  obtain ⟨⟨r, k'⟩, hk, htest⟩ := Outcome.holds_iff.mp (show
    (growproc startLink (start 4) 0 0x8000).holds (fun r => r.1 = -1) = true by decide +kernel)
  obtain rfl : r = -1 := of_decide_eq_true htest
  have hnone : ∀ i : Fin 8, (start 4).trans 0 (base (BitVec.ofNat 20 (3 + i))) = none := by
    decide +kernel
  have hback : Backed (startOwn 4) (start 4).phys (.proc 0) ((start 4).proc 0).pgdir :=
    (start_execed (by decide)).intact.backed
  refine ⟨k', hk, (growproc_failed_iff hback hk).mpr ⟨fun _ => .inr fun va h1 h2 => ?_, ?_⟩⟩
  · have hlo : (PGROUNDUP ((start 4).proc 0).sz).toNat = 3 * 4096 := by decide
    have hhi : (((start 4).proc 0).sz + 0x8000).toNat ≤ 11 * 4096 := by decide
    rw [← hnone ⟨va.toNat / 4096 - 3, by omega⟩]
    apply trans_congr_page
    rw [frameOf_base]
    apply BitVec.eq_of_toNat_eq
    rw [toNat_frameOf, BitVec.toNat_ofNat]
    show _ = (3 + (va.toNat / 4096 - 3)) % 2 ^ 20
    omega
  · exact fun hneg => absurd hneg (by decide)

/-- A process that gives back all its memory is told that this failed, and has none left. -/
theorem growproc_failed_unmaps :
    ∃ k', growproc startLink (start 4) 0 (-0x3000) = .ok (-1, k')
      ∧ ((start 4).proc 0).sz = 0x3000 ∧ (k'.proc 0).sz = 0x3000 ∧ ¬ AsBefore (start 4) 0 k' := by
  obtain ⟨⟨r, k'⟩, hk, htest⟩ := Outcome.holds_iff.mp (show
    (growproc startLink (start 4) 0 (-0x3000)).holds (fun r =>
      r.1 = -1 ∧ (r.2.proc 0).sz = 0x3000 ∧ r.2.trans 0 0x1000 = none) = true by decide +kernel)
  obtain ⟨hr, hsz, hnone⟩ := of_decide_eq_true htest
  obtain rfl : r = -1 := hr
  refine ⟨k', hk, by decide, hsz, fun hsame => ?_⟩
  have hsome : (start 4).trans 0 0x1000 ≠ none := by decide +kernel
  rw [← hsame.trans 0x1000 (by decide)] at hsome
  exact hsome hnone

end Kernel

end Xv6
