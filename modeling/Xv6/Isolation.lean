import Xv6.Growproc
import Xv6.CopyuvmSpec
import Xv6.Resume

namespace Xv6

open BitVec Kernel Kmap List Owner Outcome

/-!
# `copyuvm`, all or nothing

A copy of an address space shares no frame with it, and if there is not enough memory for a copy
everything is as before.

* `AddressSpace` — a directory with tables and user pages of its own;
* `copyuvm_all_or_nothing` — for any number of free frames `copyuvm` returns: a copy, or null with
  the same frames free as before.
-/

variable {L : Link} {own own' : Frame → Owner} {s s' s1 s2 : Phys} {a b : Space} {d f g pd : Frame}
  {va pa perm : Word} {lo hi : Nat}
variable {n : Nat} {va' sz va : Word} {ms : List Kmap}

/-! ### A parent -/

/-- A page directory with tables of its own, none of them free, and user pages that are not free.
    The kernel's half is that of all address spaces. -/
structure AddressSpace (L : Link) (s : Phys) (pd : Frame) : Prop where
  dir : pd ∉ s.freelist
  tables : ∀ i, s.mem pd i &&& PTE_P ≠ 0#32 →
    frameOf (s.mem pd i) ∉ s.freelist ∧ frameOf (s.mem pd i) ≠ pd
  distinct : ∀ i j, s.mem pd i &&& PTE_P ≠ 0#32 → s.mem pd j &&& PTE_P ≠ 0#32 →
    frameOf (s.mem pd i) = frameOf (s.mem pd j) → i = j
  user : ∀ g, UserFrame s pd g → g ∉ s.freelist
  kernel : ∀ va, KERNBASE ≤ va → translate s pd va = kernelPte L va

/-- The frames on the free list are different frames of memory behind the kernel. -/
structure FreeFrames (L : Link) (s : Phys) : Prop where
  nodup : s.freelist.Nodup
  filled : ∀ f ∈ s.freelist, ∀ i, i ≠ 0#10 → s.mem f i = junk
  usable : ∀ f ∈ s.freelist, Usable L f

open Classical in
/-- Who has which frame, as far as it concerns the copy. -/
noncomputable def parentOwner (s : Phys) (pd : Frame) : Frame → Owner :=
  freed s.freelist fun g =>
  if g = pd then .dir (.proc 0)
  else if h : PageTable s pd g then .table (.proc 0) h.choose
  else .reserved

theorem parentOwner_free : parentOwner s pd g = .free ↔ g ∈ s.freelist := by
  unfold parentOwner freed
  by_cases hg : g ∈ s.freelist
  · simp [hg]
  · simp only [hg, if_false, iff_false]
    split_ifs <;> exact not_false

theorem FreeFrames.free (h : FreeFrames L s) : Free (parentOwner s pd) s where
  nodup := h.nodup
  free := fun _ hf => parentOwner_free.mpr hf
  filled := h.filled
  bound := fun f hf => (h.usable f hf).2

theorem parentOwner_tables (hdir : pd ∉ s.freelist)
    (htables : ∀ i, s.mem pd i &&& PTE_P ≠ 0#32 →
      frameOf (s.mem pd i) ∉ s.freelist ∧ frameOf (s.mem pd i) ≠ pd)
    (hdistinct : ∀ i j, s.mem pd i &&& PTE_P ≠ 0#32 → s.mem pd j &&& PTE_P ≠ 0#32 →
      frameOf (s.mem pd i) = frameOf (s.mem pd j) → i = j) :
    Tables (parentOwner s pd) s.mem (.proc 0) pd where
  dir := by
    unfold parentOwner freed
    exact (if_neg hdir).trans (if_pos rfl)
  table := by
    intro i hi
    rw [pdeFormat_valid] at hi
    rw [pdeFormat_target]
    have htable : PageTable s pd (frameOf (s.mem pd i)) := ⟨i, hi, rfl⟩
    unfold parentOwner freed
    refine (if_neg (htables i hi).1).trans ((if_neg (htables i hi).2).trans ?_)
    rw [dif_pos htable]
    -- the slot is the only one with this table
    congr
    obtain ⟨hvalid, heq⟩ := htable.choose_spec
    exact hdistinct _ _ hvalid hi heq

namespace AddressSpace

theorem owner_tables (h : AddressSpace L s pd) : Tables (parentOwner s pd) s.mem (.proc 0) pd :=
  parentOwner_tables h.dir h.tables h.distinct

/-- What is not free is not the copy's. -/
theorem owner_within (hg : g ∉ s.freelist) : ¬ (parentOwner s pd g).within .scratch := by
  simp only [parentOwner, freed, if_neg hg]
  split_ifs <;> simp [within]

/-- The source of a copy. -/
theorem source (h : AddressSpace L s pd) :
    Source (· < KERNBASE) (parentOwner s pd) s (.proc 0) pd .scratch where
  ne := nofun
  tables := h.owner_tables
  pages := fun va pte hva hpte => owner_within (h.user _ ⟨va, pte, hva, hpte, rfl⟩)

end AddressSpace

/-! ### The copy -/

theorem base_getLsbD {i : Nat} (hi : i < 12) : (base f).getLsbD i = false := by
  unfold base
  simp [hi]

/-- The flags of a page are those of the page it was copied from. -/
theorem PTE_FLAGS_copy {pte : Word} (h : pte &&& PTE_P ≠ 0#32) :
    PTE_FLAGS (base f ||| PTE_FLAGS pte ||| PTE_P) = PTE_FLAGS pte := by
  rw [and_PTE_P_ne_zero_iff] at h
  apply eq_of_getLsbD_eq
  intro i hi
  simp only [PTE_FLAGS, getLsbD_and, getLsbD_or]
  by_cases hlow : i < 12
  · rw [base_getLsbD hlow]
    rcases Nat.eq_zero_or_pos i with rfl | hpos
    · rw [h]
      decide
    · have hP : PTE_P.getLsbD i = false := by
        revert hpos
        revert i
        decide
      simp [hP]
  · have hmask : (0xFFF#32).getLsbD i = false := by
      revert hlow
      revert i
      decide
    simp [hmask]

/-- `d` has the pages of `pd` below `sz`, in frames that were free. -/
structure IsCopy (s : Phys) (pd : Frame) (sz : Word) (s' : Phys) (d : Frame) : Prop where
  kernel : ∀ va, KERNBASE ≤ va → translate s' d va = translate s pd va
  page : ∀ va, PGROUNDDOWN va < sz → ∃ pte pte', translate s pd va = some pte ∧
    translate s' d va = some pte' ∧ PTE_FLAGS pte' = PTE_FLAGS pte ∧
    s'.mem (frameOf pte') = s.mem (frameOf pte) ∧
    ¬ UserFrame s pd (frameOf pte') ∧ ¬ PageTable s pd (frameOf pte') ∧ frameOf pte' ≠ pd
  distinct : ∀ va va' pte pte', va < KERNBASE → va' < KERNBASE → translate s' d va = some pte →
    translate s' d va' = some pte' → frameOf pte = frameOf pte' → PGROUNDDOWN va = PGROUNDDOWN va'
  above : ∀ va, va < KERNBASE → sz ≤ PGROUNDDOWN va → translate s' d va = none

theorem PGROUNDDOWN_inj (h : frameOf va = frameOf va') : PGROUNDDOWN va = PGROUNDDOWN va' := by
  apply eq_of_toNat_eq
  rw [toNat_PGROUNDDOWN, toNat_PGROUNDDOWN, ← toNat_frameOf, ← toNat_frameOf, h]

/-- What `copyuvm` makes. -/
theorem Copied.isCopy {own' : Frame → Owner} (hp : AddressSpace L s pd)
    (hsz : sz.toNat ≤ KERNBASE.toNat)
    (h : Copied L (· < KERNBASE) (parentOwner s pd) s pd sz.toNat .scratch d own' s') :
    IsCopy s pd sz s' d where
  kernel := by
    intro va hva
    rw [h.kernel va hva, hp.kernel va hva]
  page := by
    intro va hva
    have hlt : (PGROUNDDOWN va).toNat < sz.toNat := hva
    rw [toNat_PGROUNDDOWN] at hlt
    have hk := toNat_KERNBASE
    have huser : va < KERNBASE := lt_def.mpr (by omega)
    obtain ⟨pte, f, x, htr, hfresh, hx⟩ := h.image va hlt
    have hfree : f ∈ s.freelist := parentOwner_free.mp hfresh.free
    have hframe : frameOf (base f ||| PTE_FLAGS pte ||| PTE_P) = f := by
      rw [BitVec.or_assoc]
      exact frameOf_base_or (PTE_FLAGS_lt pte)
    refine ⟨pte, _, htr, hfresh.trans, PTE_FLAGS_copy (translate_iff.mp htr).2.2, ?_, ?_⟩
    · rw [hframe, hfresh.content, hx huser]
    · -- the frame was free, those of the parent were not
      rw [hframe]
      refine ⟨fun hg => hp.user f hg hfree, ?_, ?_⟩
      · rintro ⟨i, hi, rfl⟩
        exact (hp.tables i hi).1 hfree
      · rintro rfl
        exact hp.dir hfree
  distinct := by
    intro va va' pte pte' hva hva' htr htr' heq
    have h1 := h.pages va pte hva htr
    have h2 := h.pages va' pte' hva' htr'
    rw [heq, h2] at h1
    exact PGROUNDDOWN_inj (page.inj h1).2.symm
  above := by
    intro va hva hge
    have hle : sz.toNat ≤ (PGROUNDDOWN va).toNat := hge
    rw [toNat_PGROUNDDOWN] at hle
    exact h.above va hva hle

/-- `copyuvm` for any number of free frames: it returns a copy, or null and the same frames are
    free as before.  Nothing changes in the address space that is copied. -/
theorem copyuvm_all_or_nothing (L : Link) (s : Phys) (pd : Frame) (sz : Word)
    (hp : AddressSpace L s pd) (hf : FreeFrames L s) (hsz : sz ≤ PHYSTOP)
    (hpresent : ∀ va, va < sz → translate s pd va ≠ none) :
    ∃ r s', copyuvm L s pd sz = .ok (r, s') ∧
      (∀ va, translate s' pd va = translate s pd va) ∧
      (∀ g, UserFrame s pd g → s'.mem g = s.mem g) ∧
      match r with
      | some d => IsCopy s pd sz s' d
      | none => ∀ g, g ∈ s'.freelist ↔ g ∈ s.freelist := by
  have hbound : sz.toNat ≤ KERNBASE.toNat := by
    have h1 : sz.toNat ≤ PHYSTOP.toNat := hsz
    have h2 : PHYSTOP.toNat ≤ KERNBASE.toNat := by decide
    omega
  obtain ⟨⟨r, s'⟩, hcopy⟩ := copyuvm_returns hp.source hf.free hbound
    hpresent
    (.inl hf.usable)
  have hspec := copyuvm_ok hp.source hf.free hbound hcopy
  refine ⟨r, s', hcopy, ?_⟩
  cases r with
  | none =>
    obtain ⟨own', w⟩ := hspec
    obtain ⟨-, htr, hmem⟩ := hp.source.touch w.touch
    refine ⟨htr, ?_, w.frames⟩
    rintro g ⟨va, pte, hva, hpte, rfl⟩
    exact hmem va pte hva hpte
  | some d =>
    obtain ⟨own', hcopied⟩ := hspec
    obtain ⟨-, htr, hmem⟩ := hp.source.touch hcopied.touch
    refine ⟨htr, ?_, hcopied.isCopy hp hbound⟩
    rintro g ⟨va, pte, hva, hpte, rfl⟩
    exact hmem va pte hva hpte

/-! ### The machine with one process -/

namespace Kernel

theorem start_mem (n : Nat) : (start n).phys.mem = startMem := rfl

/-- The entry at an address of the kernel's half, by the directory slot. -/
theorem start_kernel_slot (hva : KERNBASE ≤ va) : translate (start n).phys 0x400#20 va =
      if kernelSlot (PDX va) then
        some (base (kernelPage (PDX va) (PTX va)) ||| kernelPerm (kernelPage (PDX va) (PTX va)))
      else none := by
  have hva' : 0x80000000 ≤ va.toNat := hva
  have hpdx := toNat_PDX va
  have h0 : PDX va ≠ 0#10 := by
    intro h
    rw [h] at hpdx
    have : (0#10).toNat = 0 := rfl
    omega
  by_cases hk : kernelSlot (PDX va)
  · rw [if_pos hk, translate_iff]
    obtain ⟨hval, hslot⟩ := startTable_slot (PDX va)
    have hdir : (start n).phys.mem 0x400#20 (PDX va) = base (startTable (PDX va)) ||| 7#32 := by
      rw [start_mem, startMem]
      rw [if_pos rfl, if_neg h0, if_pos hk]
    have hne : ∀ c : Frame, c.toNat < 0x1800 → startTable (PDX va) ≠ c := by
      rintro c hc rfl
      omega
    rw [hdir, frameOf_base_or (by decide)]
    have hP : ∀ g : Frame, (base g ||| kernelPerm g) &&& PTE_P ≠ 0#32 := by
      intro g
      rw [and_PTE_P_ne_zero_iff, getLsbD_or, kernelPerm]
      split <;> simp [PTE_P, PTE_W]
    refine ⟨?_, ?_, hP _⟩
    · rw [and_PTE_P_ne_zero_iff, getLsbD_or]
      simp
    · rw [start_mem, startMem]
      rw [if_neg (hne _ (by decide)), if_neg (hne _ (by decide)), hslot, if_pos ⟨by omega, hk⟩]
  · rw [if_neg hk]
    cases htr : translate (start n).phys 0x400#20 va with
    | none => rfl
    | some pte =>
      rcases start_slot (PDX va) (translate_iff.mp htr).1 with ⟨h, -⟩ | ⟨h, -⟩
      · exact absurd h h0
      · exact absurd h hk

theorem kernelPage_low (h1 : 0x80000000 ≤ va.toNat) (h2 : va.toNat < 0x8E000000) :
    base (kernelPage (PDX va) (PTX va)) = PGROUNDDOWN va - KERNBASE ∧
      (kernelPage (PDX va) (PTX va)).toNat = (va.toNat - 0x80000000) / 4096 := by
  have hpdx := toNat_PDX va
  have hptx := toNat_PTX va
  have hsub : (PDX va - 512#10).toNat = (PDX va).toNat - 512 := by grind
  have hpage : (kernelPage (PDX va) (PTX va)).toNat = (va.toNat - 0x80000000) / 4096 := by
    rw [kernelPage, if_pos (lt_def.mpr (by rw [toNat_ofNat]; omega)),
      toNat_append, ← Nat.shiftLeft_add_eq_or_of_lt (PTX va).isLt, Nat.shiftLeft_eq]
    omega
  refine ⟨eq_of_toNat_eq ?_, hpage⟩
  have hk := toNat_KERNBASE
  have hdown := toNat_PGROUNDDOWN va
  rw [toNat_base, hpage, toNat_sub_of_le (le_def.mpr (by omega)), hdown, hk]
  omega

theorem kernelPage_high (h : 0xFE000000 ≤ va.toNat) :
    base (kernelPage (PDX va) (PTX va)) = PGROUNDDOWN va ∧
      (kernelPage (PDX va) (PTX va)).toNat = va.toNat / 4096 := by
  have hpdx := toNat_PDX va
  have hptx := toNat_PTX va
  have hpage : (kernelPage (PDX va) (PTX va)).toNat = va.toNat / 4096 := by
    have hnot : ¬ PDX va < 568#10 := by
      rw [lt_def, toNat_ofNat]
      omega
    rw [kernelPage, if_neg hnot, toNat_append, ← Nat.shiftLeft_add_eq_or_of_lt (PTX va).isLt,
      Nat.shiftLeft_eq]
    omega
  refine ⟨eq_of_toNat_eq ?_, hpage⟩
  rw [toNat_base, hpage, toNat_PGROUNDDOWN]

/-- The line of `kmap` for an address. -/
theorem kernelPte_startLink (va : Word) : kernelPte startLink va =
    if va.toNat < 0x80000000 then none
    else if va.toNat < 0x80100000 then some (Kmap.pte ⟨KERNBASE, 0, EXTMEM, PTE_W⟩ va)
    else if va.toNat < 0x80108000 then
      some (Kmap.pte ⟨KERNLINK, V2P KERNLINK, V2P startLink.data, 0⟩ va)
    else if va.toNat < 0x8E000000 then
      some (Kmap.pte ⟨startLink.data, V2P startLink.data, PHYSTOP, PTE_W⟩ va)
    else if va.toNat < 0xFE000000 then none
    else some (Kmap.pte ⟨DEVSPACE, DEVSPACE, 0, PTE_W⟩ va) := by
  have hlt := va.isLt
  have c1 : Covers ⟨KERNBASE, 0, EXTMEM, PTE_W⟩ va ↔
    0x80000000 ≤ va.toNat ∧ va.toNat < 0x80100000 := Iff.rfl
  have c2 : Covers ⟨KERNLINK, V2P KERNLINK, V2P startLink.data, 0⟩ va ↔
    0x80100000 ≤ va.toNat ∧ va.toNat < 0x80108000 := Iff.rfl
  have c3 : Covers ⟨startLink.data, V2P startLink.data, PHYSTOP, PTE_W⟩ va ↔
    0x80108000 ≤ va.toNat ∧ va.toNat < 0x8E000000 := Iff.rfl
  have c4 : Covers ⟨DEVSPACE, DEVSPACE, 0, PTE_W⟩ va ↔
    0xFE000000 ≤ va.toNat ∧ va.toNat < 2 ^ 32 := Iff.rfl
  simp only [kernelPte, kmap, find?_cons, find?_nil, c1, c2, c3, c4]
  grind

/-- The kernel half. -/
theorem start_kernel (n : Nat) (hva : KERNBASE ≤ va) :
    translate (start n).phys 0x400#20 va = kernelPte startLink va := by
  have hva' : 0x80000000 ≤ va.toNat := hva
  have hpdx := toNat_PDX va
  have hslot : kernelSlot (PDX va) ↔ va.toNat < 0x8E000000 ∨ 0xFE000000 ≤ va.toNat := by
    have : kernelSlot (PDX va) ↔ 512 ≤ (PDX va).toNat ∧ (PDX va).toNat < 568 ∨
      1016 ≤ (PDX va).toNat := Iff.rfl
    rw [this, hpdx]
    omega
  have hperm : ∀ g : Frame, kernelPerm g = if 0x100 ≤ g.toNat ∧ g.toNat < 0x108 then PTE_P
    else PTE_P ||| PTE_W := fun _ => rfl
  -- memory is mapped at a fixed distance
  have hdist : ∀ v : Word, V2P v + (PGROUNDDOWN va - v) = PGROUNDDOWN va - KERNBASE := by
    intro v
    unfold V2P
    bv_omega
  have hPW : ∀ w : Word, w ||| (PTE_P ||| PTE_W) = w ||| PTE_W ||| PTE_P := by
    intro w
    rw [BitVec.or_comm PTE_P, BitVec.or_assoc]
  rw [start_kernel_slot hva, kernelPte_startLink]
  by_cases hlow : va.toNat < 0x8E000000
  · obtain ⟨hbase, hpage⟩ := kernelPage_low hva' hlow
    rw [if_pos (hslot.mpr (.inl hlow)), hbase, hperm, hpage,
      if_neg (by omega : ¬ va.toNat < 0x80000000)]
    by_cases h1 : va.toNat < 0x80100000
    · rw [if_neg (by omega), if_pos h1, hPW]
      exact congrArg (fun w => some (w ||| PTE_W ||| PTE_P)) (hdist KERNBASE).symm
    · rw [if_neg h1]
      by_cases h2 : va.toNat < 0x80108000
      · rw [if_pos (by omega), if_pos h2]
        have := congrArg (fun w => some (w ||| 0 ||| PTE_P)) (hdist KERNLINK).symm
        simpa [pte] using this
      · rw [if_neg (by omega), if_neg h2, if_pos hlow, hPW]
        exact congrArg (fun w => some (w ||| PTE_W ||| PTE_P)) (hdist startLink.data).symm
  · by_cases hhigh : 0xFE000000 ≤ va.toNat
    · obtain ⟨hbase, hpage⟩ := kernelPage_high hhigh
      have hdev : DEVSPACE + (PGROUNDDOWN va - DEVSPACE) = PGROUNDDOWN va := by
        bv_omega
      rw [if_pos (hslot.mpr (.inr hhigh)), hbase, hperm, hpage, if_neg (by omega),
        if_neg (by omega),
        if_neg (by omega), if_neg (by omega), if_neg hlow, if_neg (by omega), hPW]
      exact congrArg (fun w => some (w ||| PTE_W ||| PTE_P)) hdev.symm
    · grind

/-- The start is one. -/
theorem start_addressSpace (hn : n ≤ 0x800) : AddressSpace startLink (start n).phys 0x400#20 := by
  have hf := start_free hn
  have ht := start_tables (n := n)
  -- what has an owner is not free
  have hnot : ∀ g, startOwn n g ≠ .free → g ∉ (start n).phys.freelist :=
    fun g hg hmem => hg (hf.free g hmem)
  have htable : ∀ i, (start n).phys.mem 0x400#20 i &&& PTE_P ≠ 0#32 →
      startOwn n (frameOf ((start n).phys.mem 0x400#20 i)) = .table (.proc 0) i :=
    fun i hi => ht.table i ((pdeFormat_valid _).mpr hi)
  have hdir : startOwn n 0x400#20 ≠ .free := by
    rw [ht.dir]
    exact Owner.noConfusion
  refine ⟨hnot _ hdir, fun i hi => ⟨hnot _ ?_, fun heq => ?_⟩, fun i j hi hj heq => ?_,
    ?_, fun va hva => start_kernel n hva⟩
  · rw [htable i hi]
    exact Owner.noConfusion
  · have h1 := htable i hi
    rw [heq, ht.dir] at h1
    cases h1
  · have h1 := htable i hi
    rw [heq, htable j hj] at h1
    exact (table.inj h1).2.symm
  · rintro g ⟨va, pte, hva, hpte, rfl⟩
    apply hnot
    rw [start_pages va pte hva hpte]
    exact Owner.noConfusion

/-- Its free frames. -/
theorem start_freeFrames (hn : n ≤ 0x800) : FreeFrames startLink (start n).phys where
  nodup := (start_free hn).nodup
  filled := (start_free hn).filled
  usable := by
    intro f hf
    have hbound := (start_free hn).bound f hf
    obtain ⟨j, hj, rfl⟩ := mem_map.mp hf
    rw [mem_range] at hj
    refine ⟨le_def.mpr ?_, hbound⟩
    have hend : startLink.end_.toNat = 0x80115000 := rfl
    rw [toNat_P2V_base hbound, toNat_ofNat, hend]
    omega

/-- All pages below the size are there. -/
theorem start_present (n : Nat) (hva : va < 0x3000#32) :
    translate (start n).phys 0x400#20 va ≠ none := by
  have hlt : va.toNat < 0x3000 := hva
  have hpdx := toNat_PDX va
  have hptx := toNat_PTX va
  have h0 : PDX va = 0#10 := eq_of_toNat_eq (by rw [toNat_ofNat]; omega)
  have h3 : PTX va < 3#10 := lt_def.mpr (by rw [toNat_ofNat]; omega)
  have hpage : translate (start n).phys 0x400#20 va
      = some (base (0x410#20 + (PTX va).setWidth 20) ||| 7#32) := by
    have hdir : startMem 0x400#20 0#10 = base 0x401#20 ||| 7#32 := rfl
    rw [translate_iff, start_mem, h0, hdir, frameOf_base_or (by decide)]
    refine ⟨by decide, ?_, ?_⟩
    · rw [startMem, if_neg (by decide), if_pos rfl, if_pos h3]
    · rw [and_PTE_P_ne_zero_iff, getLsbD_or]
      simp
  rw [hpage]
  exact Option.some_ne_none _

end Kernel

/-- The machine with one process has an address space to copy, and two thousand frames for it. -/
theorem copyuvm_all_or_nothing_start :
    ∃ d s', copyuvm startLink (Kernel.start 2000).phys 0x400#20 0x3000#32 = .ok (some d, s') ∧
      (∀ va, translate s' 0x400#20 va = translate (Kernel.start 2000).phys 0x400#20 va) ∧
      (∀ g, UserFrame (Kernel.start 2000).phys 0x400#20 g →
        s'.mem g = (Kernel.start 2000).phys.mem g) ∧
      IsCopy (Kernel.start 2000).phys 0x400#20 0x3000#32 s' d := by
  have hp := Kernel.start_addressSpace (n := 2000) (by decide)
  have hf := Kernel.start_freeFrames (n := 2000) (by decide)
  have hlen : (Kernel.start 2000).phys.freelist.length = 2000 := by
    simp [Kernel.start, Kernel.startFree]
  obtain ⟨d, s1, hsome⟩ : ∃ d s1,
      copyuvm startLink (Kernel.start 2000).phys 0x400#20 0x3000#32 = .ok (some d, s1) :=
    copyuvm_total hp.source hf.free (by decide) (fun _ hva => Kernel.start_present 2000 hva)
      (by rw [hlen]; decide)
  obtain ⟨r, s', hcopy, htr, hmem, hres⟩ :=
    copyuvm_all_or_nothing startLink (Kernel.start 2000).phys 0x400#20 0x3000#32 hp hf (by decide)
      fun _ hva => Kernel.start_present 2000 hva
  cases hsome.symm.trans hcopy
  exact ⟨d, s1, hcopy, htr, hmem, hres⟩

end Xv6
