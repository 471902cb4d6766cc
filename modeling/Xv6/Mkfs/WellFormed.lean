import Xv6.Mkfs.Program

namespace Xv6.Mkfs

open Fs Function Prod State Outcome

/-!
# Which images are well formed

* `State.WellFormed` — every block of a file is its own and marked as used, and the inodes are those
  that the super block counts;
* `Inv.of_run`, `Finished.addr_eq` — the files at the end of a run that gets through;
* `image_wellFormed_iff` — when the image that mkfs makes is well formed.
-/

/-- Block `bn` is within the size of inode `i`, which is allocated. -/
def State.HasBlock (s : State) (i bn : Nat) : Prop :=
  i < NINODES ∧ (s.volume.dinode i).type ≠ .free ∧ bn * BSIZE < (s.volume.dinode i).size

/-- The address of block `bn` of inode `i`. -/
def State.addr (s : State) (i bn : Nat) : Nat :=
  slotAddr s.volume.block (s.volume.dinode i) (dataSlot bn)

/-- Inodes are in range, and the blocks of files are allocated data blocks, each used once. -/
structure State.WellFormed (s : State) : Prop where
  inodes : ∀ i, 1 ≤ i → i < s.freeinode.toNat → i < NINODES
  block : ∀ i bn, s.HasBlock i bn → bn < MAXFILE ∧ s.addr i bn ≠ 0 ∧ nmeta ≤ s.addr i bn
    ∧ s.addr i bn < FSSIZE ∧ s.volume.bit (s.addr i bn) = true
  distinct : ∀ i bn j bn', s.HasBlock i bn → s.HasBlock j bn' → s.addr i bn = s.addr j bn' →
    i = j ∧ bn = bn'

variable {s s' : State} {f : Made} {i j bn : Nat} {argv : List Arg}

/-! ### A run that gets through -/

theorem Made.n_le_run (f : Made) (ops : List Op) : f.n ≤ (f.run ops).n := by
  induction ops generalizing f with
  | nil => exact Nat.le_refl _
  | cons op ops ih =>
    refine le_trans ?_ (ih (f.step op))
    cases op with
    | ialloc t => exact Nat.le_succ _
    | iappend i p => exact Nat.le_refl _

/-- Where mkfs gets through, there was room for everything. -/
theorem Inv.of_run {ops : List Op} (h : Inv s f) (hv : f.Valid ops)
    (hn : (f.run ops).n < maxInodes) (hrun : ops.foldlM State.step s = .ok s') :
    Inv s' (f.run ops) := by
  induction ops generalizing s f with
  | nil =>
    cases hrun
    exact h
  | cons op ops ih =>
    obtain ⟨s1, hstep, hrun⟩ := bind_eq_ok.mp hrun
    refine ih (f := f.step op) ?_ hv.2 hn hrun
    cases op with
    | ialloc t =>
      have hlt : f.n + 1 < maxInodes := lt_of_le_of_lt ((f.step (.ialloc t)).n_le_run ops) hn
      obtain ⟨s2, hok, h2⟩ := ialloc_ok h hlt hv.1
      simp only [State.step] at hstep
      rw [hok] at hstep
      cases hstep
      exact h2
    | iappend i p =>
      change s.iappend _ p = _ at hstep
      rcases iappend_ok h hv.1.1 hv.1.2 p with ⟨s2, hok, h2⟩ | ⟨⟨e, he⟩, -⟩
      · rw [hok] at hstep
        cases hstep
        exact h2
      · rw [he] at hstep
        cases hstep

/-- mkfs stops at a file that it cannot open. -/
theorem good_of_addFiles {rootino : Word} (h : argv.foldlM (State.addFile rootino) s = .ok s') :
    ∀ a ∈ argv, a.Good := by
  induction argv generalizing s with
  | nil => exact fun a ha => absurd ha List.not_mem_nil
  | cons b argv ih =>
    obtain ⟨s1, hadd, h⟩ := bind_eq_ok.mp h
    intro a ha
    rcases List.mem_cons.mp ha with rfl | ha
    · exact addFile_good hadd
    · exact ih h a ha

/-- mkfs as steps, when it exits with 0. -/
theorem mkfs_ok (h : mkfs argv = .ok s') : ∃ s, (mkfsOps argv).foldlM State.step State.blank = .ok s
      ∧ s.finish (BitVec.ofNat 32 ROOTINO) = .ok s' := by
  have hgood : ∀ a ∈ argv, a.Good := by
    obtain ⟨⟨rootino, s1⟩, -, h⟩ := bind_eq_ok.mp h
    obtain ⟨s2, hadd, -⟩ := bind_eq_ok.mp h
    exact good_of_addFiles hadd
  exact bind_eq_ok.mp ((mkfs_eq hgood).symm.trans h)

/-! ### The image at the end -/

section

variable (hs : Finished s s') (h : Inv s f)
include hs h

/-- The inodes that there are, and their sizes. -/
theorem Finished.hasBlock_iff (hn : 1 ≤ f.n) :
    s'.HasBlock i bn ↔ i < NINODES ∧ 1 ≤ i ∧ i ≤ f.n ∧ bn * BSIZE <
      if i = ROOTINO then roundSize (f.data i).length else (f.data i).length := by
  unfold HasBlock
  rw [hs.dinode]
  refine and_congr_right fun hlt => ?_
  by_cases hroot : i = ROOTINO
  · subst hroot
    have hH := h.file ROOTINO (Nat.le_refl _) hn
    rw [update_self, if_pos rfl, hH.size]
    exact ⟨fun hb => ⟨Nat.le_refl _, hn, hb.2⟩, fun hb => ⟨hH.allocated, hb.2.2⟩⟩
  · rw [update_of_ne hroot, if_neg hroot]
    constructor
    · rintro ⟨ht, hb⟩
      have hi1 : 1 ≤ i := by
        by_contra h0
        exact ht (h.free i (.inl (by omega))).1
      have hin : i ≤ f.n := by
        by_contra h0
        exact ht (h.free i (.inr (by omega))).1
      rw [(h.file i hi1 hin).size] at hb
      exact ⟨hi1, hin, hb⟩
    · rintro ⟨hi1, hin, hb⟩
      have hH := h.file i hi1 hin
      exact ⟨hH.allocated, by rw [hH.size]; exact hb⟩

/-- The addresses are those from before. -/
theorem Finished.addr_eq (hi1 : 1 ≤ i) (hin : i ≤ f.n) :
    s'.addr i bn = slotAddr s.sector (s.dinode i) (dataSlot bn) := by
  have hH := h.file i hi1 hin
  have hlow := low_of_owns h.owns hH.allocated
  have haddrs : (s'.volume.dinode i).addrs = (s.dinode i).addrs := by
    rw [hs.dinode]
    by_cases hroot : i = ROOTINO
    · rw [hroot, update_self]
    · rw [update_of_ne hroot]
  unfold addr
  rw [slotAddr_of_addrs haddrs]
  exact congrFun (slotAddr_high hs.sector (hlow (.addr (Fin.last NDIRECT)))) _

/-- A block below the size that was appended. -/
theorem Finished.block_ok (hi1 : 1 ≤ i) (hin : i ≤ f.n) (hb : bn * BSIZE < (f.data i).length) :
    bn < MAXFILE ∧ s'.addr i bn ≠ 0 ∧ nmeta ≤ s'.addr i bn
      ∧ s'.addr i bn < FSSIZE ∧ s'.volume.bit (s'.addr i bn) = true := by
  have hH := h.file i hi1 hin
  obtain ⟨hmax, hne⟩ := hH.full bn hb
  have htab : table s.sector s.dinode (i, dataSlot bn)
      = slotAddr s.sector (s.dinode i) (dataSlot bn) :=
    table_of_type hH.allocated
  rw [hs.addr_eq h hi1 hin, ← htab]
  rw [← htab] at hne
  have hrange := h.owns.range _ hne
  have hmarked : _ < s.freeblock.toNat := of_decide_eq_true (h.owns.marked _ hne)
  refine ⟨hmax, hne, hrange.1, hrange.2, ?_⟩
  exact (hs.bit _ (lt_trans hrange.2 (by decide))).trans (decide_eq_true hmarked)

/-- No block twice. -/
theorem Finished.distinct {bn' : Nat} (hi1 : 1 ≤ i) (hin : i ≤ f.n) (hj1 : 1 ≤ j) (hjn : j ≤ f.n)
    (hb : bn * BSIZE < (f.data i).length) (hb' : bn' * BSIZE < (f.data j).length)
    (he : s'.addr i bn = s'.addr j bn') : i = j ∧ bn = bn' := by
  have hi := hs.block_ok h hi1 hin hb
  have hj := hs.block_ok h hj1 hjn hb'
  have htab (i bn : Nat) (hi1 : 1 ≤ i) (hin : i ≤ f.n) :
      table s.sector s.dinode (i, dataSlot bn) = s'.addr i bn := by
    rw [hs.addr_eq h hi1 hin]
    exact table_of_type (h.file i hi1 hin).allocated
  have hplace := h.owns.inj (i, dataSlot bn) (j, dataSlot bn') ((htab i bn hi1 hin).trans_ne hi.2.1)
    ((htab i bn hi1 hin).trans (he.trans (htab j bn' hj1 hjn).symm))
  exact ⟨congrArg fst hplace, dataSlot_inj hi.1 hj.1 (congrArg snd hplace)⟩

end

/-- A directory whose entries do not fill its last block keeps its number of blocks. -/
theorem lt_of_lt_roundSize {n : Nat} (hn : n % BSIZE ≠ 0) (hb : bn * BSIZE < roundSize n) :
    bn * BSIZE < n := by
  have hdiv := Nat.div_add_mod n BSIZE
  have hle : bn ≤ n / BSIZE := by
    have := Nat.lt_of_mul_lt_mul_right hb
    omega
  have := Nat.mul_le_mul_right BSIZE hle
  rw [Nat.mul_comm] at hdiv
  omega

/-- What there is in the image when mkfs exits with 0, if there are inodes enough. -/
theorem finished_of_mkfs (h : mkfs argv = .ok s') (hn : argv.length + 1 < maxInodes) :
    ∃ s, Inv s (Made.none.run (mkfsOps argv)) ∧ Finished s s' := by
  obtain ⟨s, hrun, hfin⟩ := mkfs_ok h
  have hcount := n_mkfsOps argv
  have hI := Inv.blank.of_run (run_mkfsOps argv).2 (by omega) hrun
  obtain ⟨s2, hok, hs2⟩ := finish_ok hI (by omega)
  cases hok.symm.trans hfin
  exact ⟨s, hI, hs2⟩

/-- The root and one inode a file. -/
theorem freeinode_of_mkfs (h : mkfs argv = .ok s') (hargc : argv.length + 2 < 2 ^ 31) :
    s'.freeinode.toNat = argv.length + 2 := by
  obtain ⟨s, hrun, hfin⟩ := mkfs_ok h
  rw [finish_freeinode hfin, run_freeinode blank_freeinode hrun, n_mkfsOps, BitVec.toNat_ofNat]
  omega

/-- **The image is well formed**, when mkfs exits with 0, exactly if there are inodes for all files
    and the entries of the root directory do not fill its last block: only then does rounding up its
    size add no block.  There are at most `INT_MAX` arguments. -/
theorem image_wellFormed_iff (hargc : argv.length + 2 < 2 ^ 31) (h : mkfs argv = .ok s) :
    s.WellFormed ↔ argv.length ≤ 198 ∧ (argv.length + 2) % 32 ≠ 0 := by
  have hfree := freeinode_of_mkfs h hargc
  have hcount := n_mkfsOps argv
  have hlen := root_mkfsOps argv
  rw [DIRENT] at hlen
  constructor
  · intro hw
    have hfew : argv.length ≤ 198 := by
      have := hw.inodes (argv.length + 1) (by omega) (by omega)
      unfold NINODES at this
      omega
    refine ⟨hfew, fun hfull => ?_⟩
    obtain ⟨s0, hI, hs⟩ := finished_of_mkfs h (lt_of_le_of_lt (Nat.succ_le_succ hfew) (by decide))
    -- the block that comes with the new size has no address
    have hhas : s.HasBlock ROOTINO ((argv.length + 2) / 32) := by
      rw [hs.hasBlock_iff hI (by omega), if_pos rfl, hlen]
      refine ⟨by decide, Nat.le_refl _, by unfold ROOTINO; omega, ?_⟩
      unfold roundSize BSIZE
      omega
    have hroot : ROOTINO ≤ (Made.none.run (mkfsOps argv)).n := by
      unfold ROOTINO
      omega
    apply (hw.block _ _ hhas).2.1
    rw [hs.addr_eq hI (show 1 ≤ ROOTINO from Nat.le_refl _) hroot]
    apply (hI.file ROOTINO (Nat.le_refl _) hroot).exact.data
    · exact (hw.block _ _ hhas).1
    · rw [hlen]
      unfold BSIZE
      omega
  · rintro ⟨hfew, hpart⟩
    obtain ⟨s0, hI, hs⟩ := finished_of_mkfs h (lt_of_le_of_lt (Nat.succ_le_succ hfew) (by decide))
    have hwithin {i bn : Nat} (hhas : s.HasBlock i bn) :
      1 ≤ i ∧ i ≤ (Made.none.run (mkfsOps argv)).n
        ∧ bn * BSIZE < ((Made.none.run (mkfsOps argv)).data i).length := by
      obtain ⟨-, hi1, hin, hb⟩ := (hs.hasBlock_iff hI (by omega)).mp hhas
      refine ⟨hi1, hin, ?_⟩
      split at hb
      · rename_i hroot
        subst hroot
        apply lt_of_lt_roundSize _ hb
        rw [hlen]
        unfold BSIZE
        omega
      · exact hb
    refine ⟨fun i _ hi => ?_, fun i bn hhas => ?_, fun i bn j bn' hi hj => ?_⟩
    · unfold NINODES
      omega
    · obtain ⟨hi1, hin, hb⟩ := hwithin hhas
      exact hs.block_ok hI hi1 hin hb
    · grind [hs.distinct]

/-- A file `a` of three bytes, and an empty file `_b`. -/
def twoFiles : List Arg := [⟨[97], some [⟨[1, 2, 3], by decide⟩]⟩, ⟨[95, 98], some []⟩]

/-- An image with two files is well formed. -/
theorem image_wellFormed_twoFiles : ∃ s, mkfs twoFiles = .ok s ∧ s.WellFormed := by
  have hf : (Made.none.run (mkfsOps twoFiles)).Fits := ⟨by decide, by decide, by decide⟩
  have hgood : ∀ a ∈ twoFiles, a.Good := by
    intro a ha
    rcases List.mem_pair.mp ha with rfl | rfl <;> exact ⟨by decide, rfl⟩
  obtain ⟨s, hok, -⟩ := mkfs_reads hgood hf
  exact ⟨s, hok, (image_wellFormed_iff (by decide) hok).mpr (by decide)⟩

/-- Thirty files whose names fill the first block of the root directory. -/
def thirtyFiles : List Arg := List.replicate 30 ⟨[98], some []⟩

/-- Thirty files. -/
theorem image_not_wellFormed : ∃ s, mkfs thirtyFiles = .ok s ∧ s.HasBlock ROOTINO 1
    ∧ s.addr ROOTINO 1 = 0 ∧ ¬ s.WellFormed := by
  obtain ⟨s, hok, htest⟩ := Outcome.holds_iff.mp (show (mkfs thirtyFiles).holds (fun s =>
      decide ((s.volume.dinode ROOTINO).type ≠ .free ∧ 1 * BSIZE < (s.volume.dinode ROOTINO).size
        ∧ s.addr ROOTINO 1 = 0)) = true by
    unfold mkfs
    rw [blank_eq]
    decide +kernel)
  obtain ⟨htype, hsize, hzero⟩ := of_decide_eq_true htest
  have hhas : s.HasBlock ROOTINO 1 := ⟨by decide, htype, hsize⟩
  exact ⟨s, hok, hhas, hzero, fun hw => (hw.block _ _ hhas).2.1 hzero⟩

end Xv6.Mkfs
