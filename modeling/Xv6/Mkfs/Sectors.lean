import Xv6.Mkfs.Image
import Xv6.Fs.BlockSpec

namespace Xv6.Mkfs

open BitVec Fs Function State

/-!
# Sectors and inodes of the image

* `xint_eq`, `xshort_eq` — nothing changes on such a host;
* `getDin_putDin`, `getDin_putDin_ne` — inodes in a sector;
* `Ready` — the image while it is being filled: blocks from `freeblock` on are blank;
* `State.view` — the image as the kernel would see it if blocks below `freeblock` were marked;
* `winode_ok`, `rinode_ok` — inodes are written and read where the kernel reads them.
-/

@[simp] theorem xint_eq (x : Word) : xint x = x := by
  unfold xint
  ext i hi
  simp only [getElem_append, getElem_setWidth, getLsbD_ushiftRight]
  interval_cases i <;> simp

@[simp] theorem xshort_eq (x : BitVec 16) : xshort x = x := by
  unfold xshort
  ext i hi
  simp only [getElem_append, getElem_setWidth, getLsbD_ushiftRight]
  interval_cases i <;> simp

/-! ### Inodes in a sector -/

variable {n k : Nat} {b : Block} {sec inum : Word}

theorem ofNat_word (h : n < NINDIRECT) : (Fin.ofNat NINDIRECT n).val = n :=
  Nat.mod_eq_of_lt h

/-- A word of an inode that was put into the sector. -/
theorem putDin_word {d : Din} {k' o : Nat} (hk : k' < IPB) (ho : o < 16) :
    putDin b k d (Fin.ofNat NINDIRECT (16 * k' + o)) =
      if k' = k then d.word o else b (Fin.ofNat NINDIRECT (16 * k' + o)) := by
  have hval : (Fin.ofNat NINDIRECT (16 * k' + o)).val = 16 * k' + o :=
    ofNat_word (by unfold IPB NINDIRECT BSIZE at *; omega)
  unfold putDin
  rw [hval, show (16 * k' + o) / 16 = k' by omega, show (16 * k' + o) % 16 = o by omega]

theorem getDin_putDin (b : Block) (d : Din) (hk : k < IPB) : getDin (putDin b k d) k = d := by
  have hlow (x y : BitVec 16) : (x ++ y : BitVec 32).setWidth 16 = y := by grind
  have hhigh (x y : BitVec 16) : ((x ++ y : BitVec 32) >>> 16).setWidth 16 = x := by grind
  unfold getDin
  simp only [putDin_word hk (show 0 < 16 by decide), putDin_word hk (show 1 < 16 by decide),
    putDin_word hk (show 2 < 16 by decide), if_true, Din.word, hlow, hhigh]
  cases d with
  | mk type major minor nlink size addrs =>
    congr 1
    funext a
    have ha := a.isLt
    rw [show 3 + a.val = a.val + 3 by omega, putDin_word hk (by unfold NDIRECT at ha; omega),
      if_pos rfl]
    exact congrArg addrs (Fin.ext (Nat.mod_eq_of_lt ha))

theorem getDin_putDin_ne (b : Block) {k' : Nat} (d : Din) (hk : k' < IPB) (hne : k' ≠ k) :
    getDin (putDin b k d) k' = getDin b k' := by
  have hword {o : Nat} (ho : o < 16) := putDin_word (b := b) (d := d) (k := k) hk ho
  unfold getDin
  simp only [hword (show 0 < 16 by decide), hword (show 1 < 16 by decide),
    hword (show 2 < 16 by decide), if_neg hne]
  congr 1
  funext a
  have ha := a.isLt
  rw [hword (by unfold NDIRECT at ha; omega), if_neg hne]

/-! ### The image while it is being filled -/

/-- The super block, as far as the kernel's functions read it. -/
def imageSb : Superblock where
  size := FSSIZE
  ninodes := NINODES
  bmapstart := 2 + nlog + ninodeblocks
  size_lt := by decide

theorem dataStart_imageSb : imageSb.dataStart = nmeta := by decide

/-- The inodes that the blocks for inodes have room for. -/
def maxInodes : Nat := ninodeblocks * IPB

/-- The image has its size and its super block, and nothing is in the blocks from `freeblock` on. -/
structure Ready (s : State) : Prop where
  nsect : s.nsect = FSSIZE
  super : s.sector 1 = sb.block
  low : nmeta ≤ s.freeblock.toNat
  high : s.freeblock.toNat ≤ FSSIZE
  blank : ∀ b, s.freeblock.toNat ≤ b → s.sector b = fun _ => 0

/-- What the kernel would see if the blocks below `freeblock` were marked. -/
def State.view (s : State) : Volume where
  bit := fun b => decide (b < s.freeblock.toNat)
  dinode := s.dinode
  block := s.sector
  mem := fun _ => none

variable {s s' : State} {din : Din}

theorem seek_of_lt (h : sec.toNat < 2 ^ 23) : State.seek sec = sec.toNat := by
  unfold seek BSIZE
  rw [toNat_mul, toNat_ofNat]
  omega

/-- An inode as the kernel finds it. -/
theorem Ready.dinode (hr : Ready s) (i : Nat) : s.dinode i =
    if i < maxInodes then (getDin (s.sector (i / IPB + (2 + nlog))) (i % IPB)).dinode
      else .zero := by
  have h6 : s.sbWord 6 = 2 + nlog + ninodeblocks := by
    unfold State.sbWord
    rw [hr.super]
    decide
  have h5 : s.sbWord 5 = 2 + nlog := by
    unfold State.sbWord
    rw [hr.super]
    decide
  unfold State.dinode
  rw [h6, h5, Nat.add_sub_cancel_left]
  rfl

/-- The sector of an inode. -/
theorem iblock_toNat (h : inum.toNat < maxInodes) :
    (State.iblock inum).toNat = inum.toNat / IPB + (2 + nlog) := by
  have h1 : (BitVec.ofNat 32 IPB).toNat = IPB := by decide
  have h2 : (BitVec.ofNat 32 (2 + nlog)).toNat = 2 + nlog := by decide
  have h3 : sb.inodestart = BitVec.ofNat 32 (2 + nlog) := xint_eq _
  unfold iblock
  rw [h3, toNat_add, toNat_udiv, h1, h2]
  unfold maxInodes ninodeblocks NINODES IPB BSIZE nlog LOGSIZE MAXOPBLOCKS at *
  omega

/-- Sectors of inodes are before the data. -/
theorem iblock_lt {i : Nat} (h : i < maxInodes) : 1 < i / IPB + (2 + nlog) ∧
    i / IPB + (2 + nlog) < 2 + nlog + ninodeblocks := by
  unfold maxInodes IPB BSIZE nlog LOGSIZE MAXOPBLOCKS ninodeblocks NINODES IPB BSIZE at *
  omega

theorem rsect_ok (hr : Ready s) (h : sec.toNat < FSSIZE) :
    s.rsect sec = .ok (s.sector sec.toNat) := by
  unfold rsect
  rw [seek_of_lt (by unfold FSSIZE at h; omega), hr.nsect, if_pos h]

theorem rsect_beyond (hn : s.nsect = FSSIZE) (h : sec.toNat = FSSIZE) :
    s.rsect sec = .panic .exit := by
  unfold rsect
  rw [seek_of_lt (by unfold FSSIZE at h; omega), hn, if_neg (by omega)]

theorem wsect_eq (b : Block) (hr : Ready s) (h : sec.toNat < FSSIZE) :
    s.wsect sec b = { s with sector := update s.sector sec.toNat b } := by
  unfold wsect
  rw [seek_of_lt (by unfold FSSIZE at h; omega), hr.nsect, Nat.max_eq_left (by omega)]

/-- A sector in use is written. -/
theorem Ready.write (hr : Ready s) (h1 : 1 < n) (hn : n < s.freeblock.toNat) :
    Ready { s with sector := update s.sector n b } where
  nsect := hr.nsect
  super := by
    show update s.sector n b 1 = _
    rw [update_of_ne (by omega), hr.super]
  low := hr.low
  high := hr.high
  blank c hc := by
    show update s.sector n b c = _
    rw [update_of_ne (by rintro rfl; exact absurd hn (Nat.not_lt.mpr hc)), hr.blank c hc]

theorem rinode_ok (hr : Ready s) (h : inum.toNat < maxInodes) :
    ∃ din, s.rinode inum = .ok din ∧ din.dinode = s.dinode inum.toNat := by
  have hi := iblock_toNat h
  have hlt := iblock_lt h
  unfold rinode
  have hsect : (State.iblock inum).toNat < FSSIZE := by
    rw [hi]
    unfold FSSIZE nlog LOGSIZE MAXOPBLOCKS ninodeblocks NINODES IPB BSIZE at *
    omega
  rw [rsect_ok hr hsect]
  refine ⟨_, rfl, ?_⟩
  rw [hr.dinode, if_pos h, hi]

/-- An inode is written, and the others stay. -/
theorem winode_ok (hr : Ready s) (h : inum.toNat < maxInodes) (ip : Din) :
    ∃ s', s.winode inum ip = .ok s' ∧ Ready s' ∧ s'.dinode = update s.dinode inum.toNat ip.dinode
      ∧ s'.freeblock = s.freeblock ∧ s'.freeinode = s.freeinode
      ∧ ∀ b, nmeta ≤ b → s'.sector b = s.sector b := by
  have hi := iblock_toNat h
  have hlt := iblock_lt h
  have hlow := hr.low
  have hmeta : 2 + nlog + ninodeblocks < nmeta := by decide
  have hsize : nmeta < FSSIZE := by decide
  have hsec : (iblock inum).toNat < FSSIZE := by omega
  have hr' := hr.write (n := (iblock inum).toNat)
    (b := putDin (s.sector (iblock inum).toNat) (inum.toNat % IPB) ip) (by omega) (by omega)
  unfold winode
  rw [rsect_ok hr hsec]
  simp only [Outcome.ok_bind]
  rw [wsect_eq _ hr hsec]
  refine ⟨_, rfl, hr', ?_, rfl, rfl, fun b hb => update_of_ne (by omega) ..⟩
  have hmod (i : Nat) : i % IPB < IPB := Nat.mod_lt _ (by decide)
  funext i
  rw [hr'.dinode]
  by_cases hin : i = inum.toNat
  · simp_all [update_self, getDin_putDin]
  · rw [update_of_ne hin, hr.dinode]
    split
    · simp only
      rw [hi]
      by_cases hsame : i / IPB = inum.toNat / IPB
      · -- another inode of the same sector
        have hne : i % IPB ≠ inum.toNat % IPB := fun he => hin (by
          rw [← Nat.div_add_mod i IPB, hsame, he, Nat.div_add_mod])
        rw [hsame, update_self, getDin_putDin_ne _ _ (hmod _) hne]
      · rw [update_of_ne (by omega)]
    · rfl

/-- Writing a block of data leaves the inodes alone. -/
theorem dinode_write (hr : Ready s) (hn : nmeta ≤ n) (hlt : n < s.freeblock.toNat) :
    State.dinode { s with sector := update s.sector n b } = s.dinode := by
  have hmeta : 2 + nlog + ninodeblocks < nmeta := by decide
  have hr' := hr.write (b := b) (n := n) (by omega) hlt
  funext i
  rw [hr'.dinode, hr.dinode]
  split
  · rename_i hi
    have := iblock_lt hi
    simp only
    rw [update_of_ne (by omega)]
  · rfl

end Xv6.Mkfs
