import Xv6.Mkfs.WellFormed

namespace Xv6

open Fs Function Outcome Run

/-!
# The kernel on the image

* `Fs.step_sameFile` — an operation keeps the files that it does not write, free or change;
* `Mkfs.Finished.wellFormed` — the image that mkfs makes is one that the kernel starts from;
* `Mkfs.image_file_kept` — the files of the image, after any operations on others.
-/

namespace Fs

/-- The operation changes file `j`; `iput` only if there are no links to it. -/
def Op.Changes (j : Nat) (v : Volume) : Op → Prop
  | .writei i .. | .update i .. => i = j
  | .iput i last => i = j ∧ (v.dinode j).nlink = 0 ∧ last = true
  | .ialloc _ | .readi .. | .recycle _ => False

/-- File `j` is there as before. -/
structure SameFile (j : Nat) (v v' : Volume) : Prop where
  dinode : v'.dinode j = v.dinode j
  bytes : ∀ k, k < (v.dinode j).size →
    fileByte v'.block (v.dinode j) k = fileByte v.block (v.dinode j) k

variable {sb : Superblock} {devsw : BitVec 16 → Device} {v v' : Volume} {i j : Nat}

theorem SameFile.trans {v'' : Volume} (h : SameFile j v v') (h' : SameFile j v' v'') :
    SameFile j v v'' := by
  refine ⟨h'.dinode.trans h.dinode, fun k hk => ?_⟩
  have hb := h'.bytes k
  rw [h.dinode] at hb
  exact (hb hk).trans (h.bytes k hk)

theorem writei_sameFile {src : Nat → Byte} {off n : Word} {r : Int} {ip : Dinode} (h : v.Sound sb)
    (htype : (v.dinode i).type ≠ .free) (hj : j ≠ i) (ht : (v.dinode j).type ≠ .free)
    (hw : v.writei sb devsw i (v.dinode i) src off n = .ok (r, ip, v')) : SameFile j v v' := by
  have hsame : SameFile j v v := ⟨rfl, fun _ _ => rfl⟩
  unfold Volume.writei at hw
  -- a device, an offset beyond the end and a file that would get too large: nothing is written
  split at hw
  · split at hw
    · cases hw
      exact hsame
    · split at hw <;> cases hw <;> exact hsame
  split at hw
  · cases hw
    exact hsame
  split at hw
  · cases hw
    exact hsame
  rename_i hoff hmax
  rw [BitVec.toNat_add] at hoff hmax
  obtain ⟨⟨off', ip1, v1⟩, hloop, hw⟩ := bind_eq_ok.mp hw
  have hfull := h.full i htype
  have hkept := h.kept_refl i
  have hbytes := (writeLoop_bytes src n.toNat n.toNat hkept.owns htype (by omega) hloop).2
  rcases writeLoop_ok src n.toNat htype hfull n.toNat 0 off.toNat hkept (hfull.mono (by omega))
    (.inl rfl) (by omega) (by omega) with hp | ⟨ip2, v2, hok, hk, -⟩
  · cases hp.symm.trans hloop
  cases hok.symm.trans hloop
  have h1 : SameFile j v v1 := by
    -- file `j` has its blocks
    refine ⟨by rw [hk.dinode], fun k hlt => hbytes j k hj ht (h.full j ht _ ?_).2⟩
    exact lt_of_le_of_lt (Nat.div_mul_le_self k BSIZE) hlt
  dsimp only at hw
  split at hw
  · cases hw
    exact ⟨(update_of_ne hj ..).trans h1.dinode, h1.bytes⟩
  · cases hw
    exact h1

theorem ilock_inv {ip : Dinode} (h : v.Sound sb) (hl : v.ilock i = .ok (ip, v')) :
    (v.dinode i).type ≠ .free ∧ ip = v.dinode i
      ∧ v' = { v with mem := update v.mem i (some (v.dinode i)) } := by
  rcases ilock_ok h i with hp | ⟨htype, hok⟩
  · cases hp.symm.trans hl
  · cases hok.symm.trans hl
    exact ⟨htype, rfl, rfl⟩

theorem step_sameFile {op : Op} (h : v.Sound sb) (ht : (v.dinode j).type ≠ .free)
    (hop : ¬ op.Changes j v) (hs : v.step sb devsw op = .ok v') : SameFile j v v' := by
  cases op with
  | ialloc type =>
    obtain ⟨⟨inum, v1⟩, hi, hs⟩ := bind_eq_ok.mp hs
    cases hs
    unfold Volume.ialloc at hi
    split at hi
    · rename_i hfound
      cases hi
      -- the inode that was found is free, and `j` is not
      refine ⟨update_of_ne ?_ .., fun _ _ => rfl⟩
      rintro rfl
      exact ht (by simpa using List.find?_some hfound)
    · cases hi
  | readi i off n =>
    obtain ⟨⟨ip, v1⟩, hl, hs⟩ := bind_eq_ok.mp hs
    obtain ⟨htype, rfl, rfl⟩ := ilock_inv h hl
    obtain ⟨r, hr⟩ := readi_ok sb devsw ((h.locked htype).full i htype) off n
    cases (congrArg (· >>= _) hr).symm.trans hs
    exact ⟨rfl, fun _ _ => rfl⟩
  | writei i src off n =>
    obtain ⟨⟨ip, v1⟩, hl, hs⟩ := bind_eq_ok.mp hs
    obtain ⟨htype, rfl, rfl⟩ := ilock_inv h hl
    obtain ⟨⟨r, ip, v1⟩, hw, hs⟩ := bind_eq_ok.mp hs
    cases hs
    have hk := writei_sameFile (h.locked htype) htype (Ne.symm hop) ht hw
    exact ⟨hk.dinode, hk.bytes⟩
  | update i major minor nlink =>
    obtain ⟨⟨ip, v1⟩, hl, hs⟩ := bind_eq_ok.mp hs
    obtain ⟨-, rfl, rfl⟩ := ilock_inv h hl
    cases hs
    exact ⟨update_of_ne (Ne.symm hop) .., fun _ _ => rfl⟩
  | iput i last =>
    change v.iput i last = _ at hs
    unfold Volume.iput at hs
    split at hs
    · cases hs
      exact ⟨rfl, fun _ _ => rfl⟩
    · rename_i ip hip
      obtain ⟨rfl, htype⟩ := h.copy i ip hip
      split at hs
      · rename_i hlast
        obtain ⟨bit, hok, -⟩ := itrunc_ok (h.kept_refl i).owns htype
        rw [hok] at hs
        cases hs
        have hne : j ≠ i := by
          rintro rfl
          exact hop ⟨rfl, hlast⟩
        exact ⟨(update_of_ne hne ..).trans (update_of_ne hne ..), fun _ _ => rfl⟩
      · cases hs
        exact ⟨rfl, fun _ _ => rfl⟩
  | recycle i =>
    cases hs
    exact ⟨rfl, fun _ _ => rfl⟩

/-- So do all runs of operations that do not change the file. -/
theorem sameFile_of_reach {v₀ : Volume} (h₀ : v₀.WellFormed sb) (ht : (v₀.dinode j).type ≠ .free)
    (hr : Reach (Volume.step sb devsw) (fun v op => ¬ op.Changes j v) v₀ v) : SameFile j v₀ v := by
  have h := hr.invariant (I := fun v => Reach (Volume.step sb devsw) (fun _ _ => True) v₀ v
    ∧ SameFile j v₀ v) ⟨.refl, rfl, fun _ _ => rfl⟩ fun v op v' ⟨hr, hk⟩ hop hs =>
      ⟨hr.tail trivial hs, hk.trans (step_sameFile (sound_of_reach h₀ hr) (hk.dinode ▸ ht) hop hs)⟩
  exact h.2

end Fs

namespace Mkfs

variable {s s' : State} {f : Made} {argv : List Arg}

/-- The image at the end is one that the kernel starts from. -/
theorem Finished.wellFormed (hs : Finished s s') (h : Inv s f) (hn : 1 ≤ f.n) (hmax : f.n < NINODES)
    (hpart : (f.data ROOTINO).length % BSIZE ≠ 0) : s'.volume.WellFormed imageSb := by
  have htab : table s'.sector s'.volume.dinode = table s.sector s.dinode := by
    rw [hs.dinode,
      ← table_high hs.sector fun j ht => low_of_owns h.owns ht (.addr (Fin.last NDIRECT))]
    -- a size is no address
    funext ⟨j, σ⟩
    by_cases hj : j = ROOTINO
    · subst hj
      unfold table
      rw [update_self]
      rfl
    · unfold table
      rw [update_of_ne hj]
  have hbit (b : Nat) (hb : b < FSSIZE) : s'.volume.bit b = s.view.bit b :=
    hs.bit b (lt_trans hb (by decide))
  have hO : Owned imageSb.dataStart FSSIZE s.view.bit (table s.sector s.dinode) := h.owns
  refine ⟨?_, fun i ht bn hb => ?_, fun _ => rfl⟩
  · show Owned _ FSSIZE _ (table s'.sector s'.volume.dinode)
    rw [htab]
    refine ⟨hO.pos, fun b hb => ?_, hO.range, fun k hk => ?_, hO.inj, fun b hlo hhi hb => ?_⟩
    · rw [hbit b (lt_trans hb (by decide))]
      exact hO.low b hb
    · rw [hbit _ (hO.range k hk).2]
      exact hO.marked k hk
    · rw [hbit b hhi] at hb
      exact hO.owner b hlo hhi hb
  · have hin : i ≤ f.n := by
      by_contra hlt
      rw [hs.dinode, update_of_ne (by unfold ROOTINO; omega)] at ht
      exact ht (h.free i (.inr (by omega))).1
    -- rounding up the size of the root directory has added no block
    obtain ⟨-, hi1, -, hb⟩ := (hs.hasBlock_iff h hn).mp ⟨by omega, ht, hb⟩
    have hlen : bn * BSIZE < (f.data i).length := by
      split at hb
      · rename_i hroot
        subst hroot
        exact lt_of_lt_roundSize hpart hb
      · exact hb
    obtain ⟨hlt, hne, -⟩ := hs.block_ok h hi1 hin hlen
    exact ⟨hlt, hne⟩

/-- **Files of the image are kept.**  The kernel is started on an image that mkfs made, with inodes
    for all files and a root directory whose entries do not fill its last block.  Whatever is done
    then, a file that was not written, changed or freed is read as it was on the host; and what is
    done next returns, or finds no block or inode, or an inode that is not allocated. -/
theorem image_file_kept {devsw : BitVec 16 → Device} {v : Volume} {k : Nat} {a : Arg}
    (h : mkfs argv = .ok s) (hfew : argv.length ≤ 198) (hpart : (argv.length + 2) % 32 ≠ 0)
    (ha : argv[k]? = some a) (hr : Reach (Volume.step imageSb devsw)
      (fun v op => ¬ op.Changes (ROOTINO + 1 + k) v) s.volume v) :
    Reads v (ROOTINO + 1 + k) a.contents
    ∧ ∀ op, (∃ v', v.step imageSb devsw op = .ok v')
      ∨ ∃ e, v.step imageSb devsw op = .panic e ∧ e ∈ [BPanic.outOfBlocks, .noInodes, .noType] := by
  obtain ⟨s0, hI, hs⟩ := finished_of_mkfs h (lt_of_le_of_lt (Nat.succ_le_succ hfew) (by decide))
  have hcount := n_mkfsOps argv
  have hlen := root_mkfsOps argv
  rw [DIRENT] at hlen
  have hwf := hs.wellFormed hI (by omega) (by unfold NINODES; omega)
    (by rw [hlen]; unfold BSIZE; omega)
  obtain ⟨hlt, -⟩ := List.getElem?_eq_some_iff.mp ha
  -- the file as mkfs left it, and then as the run left it
  have hH := hI.file (ROOTINO + 1 + k) (by omega) (by unfold ROOTINO; omega)
  have hd : s.dinode (ROOTINO + 1 + k) = s0.dinode (ROOTINO + 1 + k) := by
    show s.volume.dinode _ = _
    rw [hs.dinode, update_of_ne (by omega)]
  replace hH := hH.of_high (low_of_owns hI.owns hH.allocated) hs.sector hd
  have hdata : (Made.none.run (mkfsOps argv)).data (ROOTINO + 1 + k) = a.contents :=
    (run_mkfsOps argv).1.new k a ha
  rw [hdata] at hH
  have hk := sameFile_of_reach hwf hH.allocated hr
  have hv := sound_of_reach hwf (hr.mono fun _ _ _ => trivial)
  have htype : (v.dinode (ROOTINO + 1 + k)).type ≠ .free := hk.dinode ▸ hH.allocated
  have hsize : (v.dinode (ROOTINO + 1 + k)).size = a.contents.length := hk.dinode ▸ hH.size
  refine ⟨reads_of_bytes (hk.dinode ▸ hH.not_dev) hsize (hsize ▸ hv.full _ htype) fun t ht => ?_,
    fun op => ?_⟩
  · rw [hk.dinode, hk.bytes t (hH.size.symm ▸ ht)]
    exact hH.bytes t ht
  · rcases step_sound devsw hv op with ⟨v', hok, -⟩ | hp
    · exact .inl ⟨v', hok⟩
    · exact .inr hp

/-- Another file is written. -/
theorem image_file_kept_oneFile : ∃ s v, mkfs oneFile = .ok s
    ∧ Reach (Volume.step imageSb noDevices) (fun v op => ¬ op.Changes 2 v) s.volume v
    ∧ (v.dinode 3).size = 600 ∧ Reads v 2 [120] := by
  obtain ⟨s, hok, ht⟩ := holds_iff.mp (show (mkfs oneFile).holds (fun s =>
      (([.ialloc .file, .writei 3 (fun _ => 7) 0 600] : List Fs.Op).foldlM
        (Volume.step imageSb noDevices) s.volume).holds fun v => (v.dinode 3).size = 600) = true by
    unfold mkfs
    rw [blank_eq]
    decide +kernel)
  obtain ⟨v, hv, hsize⟩ := holds_iff.mp ht
  have hr : Reach (Volume.step imageSb noDevices) (fun v op => ¬ op.Changes 2 v) s.volume v := by
    refine .of_foldlM (fun v op hop => ?_) hv
    rcases List.mem_pair.mp hop with rfl | rfl
    · exact id
    · exact (by decide : ¬ 3 = 2)
  exact ⟨s, v, hok, hr, of_decide_eq_true hsize,
    (image_file_kept (k := 0) hok (by decide) (by decide) rfl hr).1⟩

end Mkfs

end Xv6
