import Xv6.Isolation

namespace Xv6

open BitVec Function Kernel List TwoLevel

/-!
# `mappages` on any range

`sysfile.c`, `proc.c` and `trap.c` have a `mappages` of their own that takes a kernel address.

* `Directory` — a page directory whose tables are its own and not free;
* `mappagesV2P_range` — the copied function.
-/

variable {s s' : Phys} {d f : Frame} {va pa perm last : Word} {n : Nat}
variable {w : Word}

/-- A page directory.  Its tables are distinct, and neither they nor the directory are free. -/
structure Directory (s : Phys) (d : Frame) : Prop where
  nodup : s.freelist.Nodup
  dir : d ∉ s.freelist
  tables : ∀ i, s.mem d i &&& PTE_P ≠ 0#32 →
    frameOf (s.mem d i) ∉ s.freelist ∧ frameOf (s.mem d i) ≠ d
  distinct : ∀ i j, s.mem d i &&& PTE_P ≠ 0#32 → s.mem d j &&& PTE_P ≠ 0#32 →
    frameOf (s.mem d i) = frameOf (s.mem d j) → i = j

namespace Directory

theorem rooted (h : Directory s d) : Tables (parentOwner s d) s.mem (.proc 0) d :=
  parentOwner_tables h.dir h.tables h.distinct

theorem list (h : Directory s d) : FreeList (parentOwner s d) s :=
  ⟨h.nodup, fun _ hf => parentOwner_free.mpr hf⟩

end Directory

/-! ### The copied function -/

/-- An entry made of a page address and flags. -/
theorem entry_parts (hw : w.toNat % 4096 = 0) (hperm : perm.toNat < 4096) :
    frameOf (w ||| perm ||| PTE_P) = frameOf w
      ∧ PTE_FLAGS (w ||| perm ||| PTE_P) = perm ||| PTE_P := by
  have hlow : (perm ||| PTE_P).toNat < 2 ^ 12 := by
    rw [toNat_or]
    exact Nat.or_lt_two_pow hperm (by decide)
  have hbase : w = base (frameOf w) := by
    apply eq_of_toNat_eq
    rw [toNat_base, toNat_frameOf]
    omega
  constructor
  · rw [BitVec.or_assoc, hbase, frameOf_base_or hlow, frameOf_base]
  · rw [BitVec.or_assoc]
    apply eq_of_toNat_eq
    have hmask : (0xFFF#32).toNat = 2 ^ 12 - 1 := rfl
    rw [PTE_FLAGS, toNat_and, toNat_or, hmask, Nat.and_two_pow_sub_one_eq_mod,
      Nat.or_mod_two_pow, hw, Nat.zero_or, Nat.mod_eq_of_lt hlow]

/-- The physical page for the page of `va`. -/
theorem page_at {first : Word} (hpa : pa.toNat % 4096 = 0) (hfirst : first.toNat % 4096 = 0)
    (hle : first.toNat ≤ va.toNat) : (pa + (PGROUNDDOWN va - first)).toNat % 4096 = 0 ∧
    frameOf (pa + (PGROUNDDOWN va - first)) = frameOf pa + (frameOf va - frameOf first) := by
  have hdown := toNat_PGROUNDDOWN va
  have hdist : (PGROUNDDOWN va - first).toNat = va.toNat / 4096 * 4096 - first.toNat := by
    rw [toNat_sub_of_le (le_def.mpr (by omega)), hdown]
  have hsum : (pa + (PGROUNDDOWN va - first)).toNat
      = (pa.toNat + (va.toNat / 4096 * 4096 - first.toNat)) % 2 ^ 32 := by
    rw [toNat_add, hdist]
  refine ⟨by omega, eq_of_toNat_eq ?_⟩
  rw [toNat_frameOf, hsum, toNat_add, toNat_sub, toNat_frameOf, toNat_frameOf, toNat_frameOf]
  omega

/-- Just the `n` pages from `first` on have been given entries: for the frames from `pa` on, with
    these flags. -/
structure Gives (s : Phys) (d : Frame) (first : Word) (n : Nat) (pa flags : Word) (s' : Phys) :
    Prop where
  inside : ∀ va : Word, first.toNat ≤ va.toNat → va.toNat < first.toNat + n * 4096 →
    ∃ pte, translate s' d va = some pte ∧ frameOf pte = frameOf pa + (frameOf va - frameOf first) ∧
      PTE_FLAGS pte = flags
  outside : ∀ va : Word, ¬ (first.toNat ≤ va.toNat ∧ va.toNat < first.toNat + n * 4096) →
    translate s' d va = translate s d va

/-- `mappages` of `sysfile.c`, `proc.c` and `trap.c` ends, and is that of `vm.c` for the physical
    address.  It panics only if a page of the range was mapped before.  If it returns 0 it has
    mapped all pages of the range; if it returns -1 it has mapped only some, from the first one on,
    and there is no frame for the page table that the next one needs. -/
theorem mappagesV2P_range (s : Phys) (d : Frame) (h : Directory s d) (va size pa perm : Word)
    (hsize : 0 < size) (hwrap : va.toNat + size.toNat - 1 < 2 ^ 32) (hpa : pa.toNat % 4096 = 0)
    (hkern : KERNBASE ≤ pa) (hperm : perm.toNat < 4096) :
    mappagesV2P s d va size pa perm = mappages s d va size (V2P pa) perm ∧
    ((mappagesV2P s d va size pa perm = .panic .remap ∧
        ∃ x, frameOf va ≤ frameOf x ∧ frameOf x ≤ frameOf (va + size - 1) ∧
          translate s d x ≠ none) ∨
      ∃ b s' n, mappagesV2P s d va size pa perm = .ok (b, s') ∧
        Gives s d (PGROUNDDOWN va) n (V2P pa) (perm ||| PTE_P) s' ∧
        let pages := (frameOf (va + size - 1)).toNat - (frameOf va).toNat + 1
        if b then n = pages
        else n < pages ∧ s'.freelist = [] ∧
          ∃ x, (frameOf x).toNat = (frameOf va).toNat + n ∧ s'.mem d (PDX x) &&& PTE_P = 0#32) := by
  refine ⟨rfl, ?_⟩
  have hpos : 0 < size.toNat := hsize
  have hkern' : KERNBASE.toNat ≤ pa.toNat := hkern
  have hk := toNat_KERNBASE
  have hone : (1 : Word).toNat = 1 := rfl
  have hend : (va + size - 1).toNat = va.toNat + size.toNat - 1 := by
    rw [BitVec.toNat_sub, BitVec.toNat_add, hone]
    omega
  have hfirst := toNat_PGROUNDDOWN va
  have hlast := toNat_PGROUNDDOWN (va + size - 1)
  have hf1 := toNat_frameOf va
  have hf2 := toNat_frameOf (va + size - 1)
  have hphys : (V2P pa).toNat = pa.toNat - 0x80000000 := by
    unfold V2P
    rw [BitVec.toNat_sub_of_le (BitVec.le_def.mpr hkern'), hk]
  have hfuel : (PGROUNDDOWN (va + size - 1)).toNat - (PGROUNDDOWN va).toNat < loopBound * 4096 := by
    have hb : loopBound = 2097152 := rfl
    omega
  rcases mappagesLoop_range (V2P pa) perm h.list h.rooted (by omega) (by omega) (by omega) hfuel
    with ⟨hpanic, x, h1, h2, hx⟩ | ⟨b, own', s', n, hloop, w, hb⟩
  · have hfx := toNat_frameOf x
    exact .inl ⟨hpanic, x, BitVec.le_def.mpr (by omega), BitVec.le_def.mpr (by omega), hx⟩
  · refine .inr ⟨b, s', n, hloop, ⟨fun va' h1 h2 => ?_, fun va' hout => ?_⟩, ?_⟩
    · refine ⟨_, by rw [w.after, if_pos ⟨h1, h2⟩], ?_⟩
      have haligned := page_at (by omega : (V2P pa).toNat % 4096 = 0)
        (by omega : (PGROUNDDOWN va).toNat % 4096 = 0) h1
      rw [← haligned.2]
      exact entry_parts haligned.1 hperm
    · rw [w.after, if_neg hout]
    · cases b with
      | true =>
        rw [if_pos rfl] at hb
        show n = _
        omega
      | false =>
        obtain ⟨hlt, x, hx, hnil, hpte⟩ := hb
        have hfx := toNat_frameOf x
        refine ⟨by omega, hnil, x, by omega, ?_⟩
        by_contra hpde
        rw [pte?_eq_leaf, leaf_of_valid ((pdeFormat_valid _).mpr hpde)] at hpte
        cases hpte

theorem AddressSpace.directory {L : Link} (h : AddressSpace L s d) (hf : FreeFrames L s) :
    Directory s d :=
  ⟨hf.nodup, h.dir, h.tables, h.distinct⟩

/-- Two pages and a bit in the machine with one process: three pages are mapped. -/
theorem mappagesV2P_range_start : ∃ s',
    mappagesV2P (Kernel.start 3).phys 0x400#20 0x60000123#32 0x2000#32 0x80500000#32 6#32
      = .ok (true, s') ∧
    Gives (Kernel.start 3).phys 0x400#20 (PGROUNDDOWN 0x60000123#32) 3 (V2P 0x80500000#32)
      (6#32 ||| PTE_P) s' := by
  obtain ⟨⟨b, s'⟩, hok, ht⟩ := Outcome.holds_iff.mp (show
    (mappagesV2P (Kernel.start 3).phys 0x400#20 0x60000123#32 0x2000#32 0x80500000#32 6#32).holds
      (fun r => r.1) = true by decide +kernel)
  obtain rfl : b = true := ht
  obtain ⟨-, hrange⟩ := mappagesV2P_range (Kernel.start 3).phys 0x400#20
    ((Kernel.start_addressSpace (by decide)).directory (Kernel.start_freeFrames (by decide)))
    0x60000123#32 0x2000#32 0x80500000#32 6#32 (by decide) (by decide) (by decide) (by decide)
    (by decide)
  rw [hok] at hrange
  rcases hrange with ⟨⟨⟩, -⟩ | ⟨_, _, n, ⟨⟩, hgives, hn⟩
  obtain rfl : n = 3 := hn
  exact ⟨s', hok, hgives⟩

end Xv6
