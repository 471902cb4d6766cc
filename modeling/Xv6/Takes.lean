import Xv6.MunmapSpec
import Xv6.ListSpec

namespace Xv6

open Function List Outcome

/-!
# What faults and mappings do to free frames

The page-fault handler and `mappages` only take frames: whatever state they start from, they
give back no frame they have not just taken, and of a frame that was in use they clear no
word.

* `Takes s s'` — that relation between two states of the memory;
* `trapPgflt_takes` — a fault is such a change;
* `faultClosed_takes` — hence `munmap` is, whose only work on memory is that of faults;
* `mmapPlace_fewer` — `mmap`, once it has found a place, keeps a frame.
-/

/-- Frames were at most taken, and of those in use before no word was cleared. -/
structure Takes (s s' : Phys) : Prop where
  free : s'.freelist.Sublist s.freelist
  words : ∀ f, f ∉ s.freelist → ∀ i, s.mem f i ≠ 0#32 → s'.mem f i ≠ 0#32

namespace Takes

variable {s s' s'' : Phys}
variable {f : Frame}

/-- Nothing is done. -/
theorem refl (s : Phys) : Takes s s := ⟨Sublist.refl _, fun _ _ _ => id⟩

/-- One after the other. -/
theorem trans (h : Takes s s') (h' : Takes s' s'') : Takes s s'' :=
  ⟨h'.free.trans h.free, fun f hf i hi =>
    h'.words f (fun hmem => hf (h.free.subset hmem)) i (h.words f hf i hi)⟩

/-- Taking a frame and filling it. -/
theorem fill (h : kalloc s = (some f, s')) (w : Word) : Takes s (s'.memset f w) := by
  obtain ⟨hlist, hmem⟩ := kalloc_some h
  refine ⟨?_, fun g hg i hi => ?_⟩
  · rw [hlist]
    exact sublist_cons_self f s'.freelist
  · simp_all [memset_eq_setFrame, setFrame_mem_ne]

/-- Writing a word that is not zero. -/
theorem store (s : Phys) (f : Frame) (i : Idx) {w : Word} (hw : w ≠ 0#32) :
    Takes s (s.store f i w) := by
  refine ⟨Sublist.refl _, fun g _ j hj => ?_⟩
  rw [store_eq_setFrame]
  by_cases hg : g = f
  · subst hg
    rw [setFrame_mem_self]
    by_cases hij : j = i
    · rw [hij, update_self]
      exact hw
    · rwa [update_of_ne hij]
  · rwa [setFrame_mem_ne _ _ hg]

/-- Giving back the frame taken first, when all the others have gone too. -/
theorem giveBack {L : Link} {s1 s2 s3 : Phys} (hk : kalloc s = (some f, s1)) (h : Takes s s2)
    (hnil : s2.freelist = []) (hfr : kfree L s2 (P2V (base f)) = .ok s3) :
    Takes s s3 := by
  obtain ⟨hlist, -⟩ := kalloc_some hk
  obtain ⟨hlist3, hmem3, -⟩ := kfree_ok hfr
  rw [V2P_P2V, frameOf_base] at hlist3 hmem3
  refine ⟨?_, fun g hg i hi => ?_⟩
  · rw [hlist3, hnil, hlist]
    exact Sublist.cons_cons f (nil_sublist _)
  · simp_all [h.words]

end Takes

variable {L : Link} {s s' : Phys} {d : Frame} {va : Word}
variable {b : Bool} {n : Nat}

/-- An entry that is present is not 0. -/
theorem or_present_ne_zero (w : Word) : w ||| PTE_P ≠ 0#32 := by
  intro h
  have hbit := congrArg (fun x : Word => x.getLsbD 0) h
  simp [PTE_P] at hbit

/-- `walkpgdir` takes frames only; if it fails, none is left. -/
theorem walkpgdir_takes {r : Option (Frame × Idx)} (h : walkpgdir s d va true = (r, s')) :
    Takes s s' ∧ (r = none → s'.freelist = []) := by
  unfold walkpgdir at h
  simp only at h
  split at h
  · cases h
    exact ⟨.refl s, by simp⟩
  · rw [if_pos trivial] at h
    split at h
    · rename_i hk
      cases h
      obtain ⟨hnil, rfl⟩ := kalloc_none hk
      exact ⟨.refl _, fun _ => hnil⟩
    · rename_i t s1 hk
      cases h
      refine ⟨(Takes.fill hk 0).trans (Takes.store _ _ _ ?_), by simp⟩
      intro h0
      apply (pde_word t).2
      rw [h0]
      rfl

/-- `mappages` takes frames for page tables only, and fails only when there are none left. -/
theorem mappagesLoop_takes {last perm : Word} {a pa : Word}
    (h : mappagesLoop d last perm n s a pa = .ok (b, s')) :
    Takes s s' ∧ (b = false → s'.freelist = []) := by
  induction n generalizing s a pa with
  | zero => cases h
  | succ n ih =>
    unfold mappagesLoop at h
    split at h
    · rename_i s1 hwalk
      cases h
      obtain ⟨ht, hnil⟩ := walkpgdir_takes hwalk
      exact ⟨ht, fun _ => hnil rfl⟩
    · rename_i t i s1 hwalk
      have ht := (walkpgdir_takes hwalk).1
      split at h
      · cases h
      have hstore := Takes.store s1 t i (or_present_ne_zero (pa ||| perm))
      split at h
      · cases h
        exact ⟨ht.trans hstore, by simp⟩
      · obtain ⟨hrest, hnil⟩ := ih h
        exact ⟨(ht.trans hstore).trans hrest, hnil⟩

/-- `mappages` takes frames only; if it fails, none is left. -/
theorem mappagesV2P_takes {size pa perm : Word}
    (h : mappagesV2P s d va size pa perm = .ok (b, s')) :
    Takes s s' ∧ (b = false → s'.freelist = []) :=
  mappagesLoop_takes h

namespace Kernel

variable {k k' : Kernel} {p : Slot}
variable {i start flags : Word} {vma : Frame}

/-- An area grows. -/
theorem pgfltGrow_takes {x : VmaPtr} (h : pgfltGrow L k p x = .ok k') : Takes k.phys k'.phys := by
  obtain ⟨c, -, h⟩ := bind_eq_ok.mp h
  split at h
  · cases h
  rename_i pa s hk
  obtain ⟨⟨mapped, s1⟩, hmap, h⟩ := bind_eq_ok.mp h
  obtain ⟨htakes, hnil⟩ := mappagesV2P_takes hmap
  have ht := (Takes.fill hk 0).trans htakes
  cases mapped with
  | true =>
    obtain ⟨next, -, h⟩ := bind_eq_ok.mp h
    cases h
    rw [setVma_phys]
    exact ht
  | false =>
    obtain ⟨s2, hfr, h⟩ := bind_eq_ok.mp h
    cases h
    exact Takes.giveBack hk ht (hnil rfl) hfr

/-- Whatever the list of areas is, a page fault takes frames at most. -/
theorem trapPgflt_takes (h : trapPgflt L k p va = .ok k') : Takes k.phys k'.phys := by
  -- every pointer may be followed here: nothing is known about the list
  rcases trapPgflt_cases (N := fun _ => True) (fun _ _ _ _ _ => .inr trivial) trivial h with
    h | h | h | h | ⟨x, v, -, -, -, -, -, h⟩
  · cases h
    exact .refl _
  · cases h
    exact .refl _
  · cases h
  · cases h
  · exact pgfltGrow_takes h.symm

/-- A byte is stored. -/
theorem storeByte_fewer {b : Byte} (h : k.storeByte L p va b = .ok k') :
    k'.phys.freelist.Sublist k.phys.freelist := by
  obtain ⟨k1, pte, hk1, rfl⟩ := storeByte_cases h
  rcases hk1 with rfl | htrap
  · exact Sublist.refl _
  · exact (trapPgflt_takes htrap).free

/-- Bytes are stored. -/
theorem storeBytes_fewer {bytes : List Byte} (h : storeBytes L p k va bytes = .ok k') :
    k'.phys.freelist.Sublist k.phys.freelist := by
  induction bytes generalizing k va with
  | nil =>
    cases h
    exact Sublist.refl _
  | cons b bs ih =>
    obtain ⟨k1, hone, h⟩ := bind_eq_ok.mp h
    exact (ih h).trans (storeByte_fewer hone)

/-- A page is loaded from a file. -/
theorem mmapLoad_fewer {fd : Word} (h : k.mmapLoad L p fd i = .ok k') :
    k'.phys.freelist.Sublist k.phys.freelist := by
  unfold mmapLoad at h
  split at h
  · rename_i fi _
    obtain ⟨⟨r, k1⟩, hread, h⟩ := bind_eq_ok.mp h
    cases h
    rcases @fileread_cases L (k.setFile fi { k.file fi with off := 0 }) p fi i PGSIZE with
      ⟨v, hv⟩ | hv | hv | ⟨bytes, g, -, hg, hv⟩
    · cases hv.symm.trans hread
      exact Sublist.refl _
    · cases hv.symm.trans hread
    · cases hv.symm.trans hread
    · rw [hv] at hread
      obtain ⟨k2, hstore, hread⟩ := bind_eq_ok.mp hread
      have hk' : (g k2).2 = k' := congrArg Prod.snd (Outcome.ok.inj hread)
      have hfree := storeBytes_fewer hstore
      rw [← hk', (hg k2).1]
      exact hfree
  · cases h

/-- A page is mapped. -/
theorem mmapPage_fewer {prot fd : Word} (h : k.mmapPage L p vma start prot flags fd i = .ok k') :
    k'.phys.freelist.Sublist k.phys.freelist := by
  unfold mmapPage at h
  split at h
  · cases h
  rename_i pa s hk
  obtain ⟨⟨mapped, s1⟩, hmap, h⟩ := bind_eq_ok.mp h
  obtain ⟨k1, hmapped, h⟩ := bind_eq_ok.mp h
  obtain ⟨htakes, hnil⟩ := mappagesV2P_takes hmap
  have ht := (Takes.fill hk 0).trans htakes
  have hfree : k1.phys.freelist.Sublist k.phys.freelist := by
    unfold mmapMapped at hmapped
    split at hmapped
    · cases hmapped
      exact ht.free
    · rename_i hfalse
      obtain ⟨s2, hfr, hmapped⟩ := bind_eq_ok.mp hmapped
      cases hmapped
      exact (Takes.giveBack hk ht (hnil (Bool.eq_false_iff.mpr hfalse)) hfr).free
  split at h
  · exact (mmapLoad_fewer h).trans hfree
  · cases h
    exact hfree

/-- All pages of an area are mapped. -/
theorem mmapPages_fewer {end_ prot fd : Word}
    (h : mmapPages L p vma start end_ prot flags fd n k i = .ok k') :
    k'.phys.freelist.Sublist k.phys.freelist := by
  induction n generalizing k i with
  | zero => cases h
  | succ n ih =>
    unfold mmapPages at h
    split at h
    · obtain ⟨k1, hpage, h⟩ := bind_eq_ok.mp h
      exact (ih h).trans (mmapPage_fewer hpage)
    · cases h
      exact Sublist.refl _

/-- Placing an area takes a frame for its record, and keeps it. -/
theorem mmapPlace_fewer {prev curr : VmaPtr} {length prot fd r : Word} {fixed : Bool}
    (h : k.mmapPlace L p prev curr start length prot flags fd fixed = .ok (r, k')) :
    k'.phys.freelist.length < k.phys.freelist.length := by
  obtain ⟨c, -, h⟩ := bind_eq_ok.mp h
  obtain ⟨⟨vma, k1⟩, hcreate, h⟩ := bind_eq_ok.mp h
  obtain ⟨k2, hpages, h⟩ := bind_eq_ok.mp h
  obtain ⟨k3, hunguard, hguard⟩ := bind_eq_ok.mp h
  have htaken : k1.phys.freelist.length < k.phys.freelist.length := by
    unfold createVma at hcreate
    rw [setVma_phys] at hcreate
    split at hcreate
    · cases hcreate
    rename_i f s hk
    obtain ⟨n, -, hcreate⟩ := bind_eq_ok.mp hcreate
    obtain ⟨pr, -, hcreate⟩ := bind_eq_ok.mp hcreate
    cases hcreate
    rw [setVma_phys, setVma_phys, (kalloc_some hk).1]
    exact Nat.lt_succ_self _
  have hsub := (mmapPages_fewer hpages).length_le
  have hphys : k'.phys = k2.phys := by
    have h3 := (mmapUnguard_ok hunguard).phys
    unfold mmapGuard at hguard
    split at hguard
    · obtain ⟨n, -, hguard⟩ := bind_eq_ok.mp hguard
      split at hguard
      · cases hguard
        rw [setVma_phys, h3]
      · cases hguard
        exact h3
    · cases hguard
      exact h3
  rw [hphys]
  refine lt_of_le_of_lt hsub ?_
  split
  · rwa [setVma_phys]
  · exact htaken

end Kernel

end Xv6
