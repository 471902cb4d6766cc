import Xv6.Mkfs.Sectors
import Xv6.Fs.Contents

namespace Xv6.Mkfs

open BitVec Fin Fs Function List Outcome State Volume

/-!
# `iappend` does what `writei` would do

The block that mkfs takes next is the first one that the kernel would find free.

* `blocksOf` — how many blocks a file of a given size takes;
* `Exact` — a file has no blocks beyond its end;
* `blockFor_sim` — `blockFor` is `bmap`, unless the block would be beyond the image;
* `iappendLoop_sim` — the loop of `iappend` is the loop of `writei`.
-/

/-- Blocks of a file of `n` bytes: those of its data, and the indirect block. -/
def blocksOf (n : Nat) : Nat := (n + BSIZE - 1) / BSIZE + if NDIRECT * BSIZE < n then 1 else 0

/-- The file has no blocks beyond offset `n`. -/
structure Exact (block : Nat → Block) (d : Dinode) (n : Nat) : Prop where
  data : ∀ bn, bn < MAXFILE → n ≤ bn * BSIZE → slotAddr block d (dataSlot bn) = 0
  indirect : n ≤ NDIRECT * BSIZE → d.indirect = 0

variable {s s' : State} {din din' : Din} {i : Nat}
variable {n fbn : Nat} {x : Word} {block : Nat → Block} {d : Dinode}

/-- `freeblock++` -/
def State.bump (s : State) : State := { s with freeblock := s.freeblock + 1 }

/-- It does not wrap. -/
theorem bump_toNat (h : s.freeblock.toNat < FSSIZE) :
    s.bump.freeblock.toNat = s.freeblock.toNat + 1 := by
  show (s.freeblock + 1).toNat = _
  rw [toNat_add]
  unfold FSSIZE at h
  show (_ + 1) % 2 ^ 32 = _
  omega

theorem Ready.bump (hr : Ready s) (h : s.freeblock.toNat < FSSIZE) : Ready s.bump := by
  have hb := bump_toNat h
  have hlow := hr.low
  exact ⟨hr.nsect, hr.super, by omega, by omega, fun b hle => hr.blank b (by omega)⟩

/-- The kernel would find the same block, which is blank. -/
theorem balloc_sim (hr : Ready s) (h : s.freeblock.toNat < FSSIZE) :
    s.view.balloc imageSb = .ok (s.freeblock.toNat, s.bump.view) := by
  have hfind : (range FSSIZE).find? (fun b => !s.view.bit b) = some s.freeblock.toNat := by
    rw [find?_eq_some_iff_getElem]
    refine ⟨by simp [view], s.freeblock.toNat, by simpa using h, by simp, fun j hj => ?_⟩
    simp [view, hj]
  have hbit : update s.view.bit s.freeblock.toNat true = s.bump.view.bit := by
    funext b
    show _ = decide (b < s.bump.freeblock.toNat)
    rw [bump_toNat h]
    by_cases hb : b = s.freeblock.toNat
    · rw [hb, update_self]
      exact (decide_eq_true (by omega)).symm
    · rw [update_of_ne hb]
      exact decide_eq_decide.mpr (by omega)
  have hblock : update s.sector s.freeblock.toNat (fun _ => 0) = s.sector := by
    rw [← hr.blank _ (Nat.le_refl _), update_eq_self]
  unfold Volume.balloc
  rw [show imageSb.size = FSSIZE from rfl, hfind]
  show ok (s.freeblock.toNat, Volume.mk (update s.view.bit s.freeblock.toNat true) s.dinode
    (update s.sector s.freeblock.toNat fun _ => 0) fun _ => none) = _
  rw [hbit, hblock]
  rfl

/-- A block in use is written. -/
theorem view_write {b : Block} (hr : Ready s) (hn : nmeta ≤ n) (hlt : n < s.freeblock.toNat) :
    State.view { s with sector := update s.sector n b }
      = { s.view with block := update s.sector n b } := by
  unfold view
  rw [dinode_write hr hn hlt]

/-- How many blocks `blockFor` takes. -/
def newBlocks (block : Nat → Block) (d : Dinode) (fbn : Nat) : Nat :=
  (if slotAddr block d (dataSlot fbn) = 0 then 1 else 0) +
    if ¬fbn < NDIRECT ∧ d.indirect = 0 then 1 else 0

/-- One address changes. -/
theorem dinode_setAddr (d : Din) (k : Fin (NDIRECT + 1)) (w : Word) :
    Din.dinode { d with addrs := update d.addrs k w } =
      { d.dinode with addrs := update d.dinode.addrs k w.toNat } := by
  have haddrs : (fun a => (update d.addrs k w a).toNat) =
      update (fun a => (d.addrs a).toNat) k w.toNat := by grind
  unfold Din.dinode
  rw [haddrs]

/-- The same address is found, or the same block is taken, as by the kernel. -/
theorem getAddr_sim (hr : Ready s) (k : Fin (NDIRECT + 1))
    (hfits : din.dinode.addrs k = 0 → s.freeblock.toNat < FSSIZE) :
    Ready (s.getAddr din k).2
    ∧ s.view.getAddr imageSb din.dinode k = .ok (((s.getAddr din k).1.addrs k).toNat,
        (s.getAddr din k).1.dinode, (s.getAddr din k).2.view)
    ∧ slotAddr (s.getAddr din k).2.sector (s.getAddr din k).1.dinode
        = update (slotAddr s.sector din.dinode) (.addr k) ((s.getAddr din k).1.addrs k).toNat
    ∧ (s.getAddr din k).2.freeblock.toNat
        = s.freeblock.toNat + if din.dinode.addrs k = 0 then 1 else 0 := by
  have hval : din.dinode.addrs k = (din.addrs k).toNat := rfl
  by_cases hz' : din.dinode.addrs k = 0
  · have hlt := hfits hz'
    have hz : din.addrs k = 0 := eq_of_toNat_eq hz'
    have hget : s.getAddr din k
        = ({ din with addrs := update din.addrs k s.freeblock }, s.bump) := by
      unfold State.getAddr
      rw [xint_eq, xint_eq, if_pos hz]
      rfl
    rw [hget, if_pos hz']
    simp only [update_self]
    refine ⟨hr.bump hlt, ?_, ?_, bump_toNat hlt⟩
    · unfold Volume.getAddr
      rw [if_pos hz', balloc_sim hr hlt, dinode_setAddr]
      rfl
    · rw [dinode_setAddr]
      refine slotAddr_update_addr k s.freeblock.toNat fun hk => ⟨?_, hr.blank _ (Nat.le_refl _)⟩
      show din.dinode.addrs (last NDIRECT) = 0
      rw [← hk, hz']
  · have hget : s.getAddr din k = (din, s) := by
      unfold State.getAddr
      rw [xint_eq, if_neg fun hz => hz' (hval.trans (congrArg BitVec.toNat hz))]
    rw [hget, if_neg hz']
    refine ⟨hr, ?_, ?_, rfl⟩
    · unfold Volume.getAddr
      rw [if_neg hz', hval]
    · exact (update_eq_self (Slot.addr k) (slotAddr s.sector din.dinode)).symm

theorem dataSlot_entry (h : ¬fbn < NDIRECT) :
    dataSlot fbn = .entry (Fin.ofNat NINDIRECT (fbn - NDIRECT)) := dif_neg h

/-- The kernel gets the indirect block first. -/
theorem bmap_of_getAddr {v v1 : Volume} {ip ip1 : Dinode} (hge : ¬fbn < NDIRECT)
    (h : v.getAddr imageSb ip (Fin.last NDIRECT) = .ok (ip1.indirect, ip1, v1))
    (hne : ip1.indirect ≠ 0) : v.bmap imageSb ip fbn = v1.bmap imageSb ip1 fbn := by
  have h1 : v1.getAddr imageSb ip1 (last NDIRECT) = .ok (ip1.indirect, ip1, v1) := if_neg hne
  unfold bmap
  rw [dif_neg hge, dif_neg hge, h, h1]

/-- A block that an inode has the address of is in use. -/
theorem used_of_owns (h : s.view.Owns imageSb (update s.dinode i din.dinode))
    (htype : din.dinode.type ≠ .free) (σ : Slot) (hne : slotAddr s.sector din.dinode σ ≠ 0) :
    nmeta ≤ slotAddr s.sector din.dinode σ
      ∧ slotAddr s.sector din.dinode σ < s.freeblock.toNat := by
  have htab := table_self s.sector s.dinode i σ htype
  have hrange := (h.range (i, σ) (by rw [← htab] at hne; exact hne)).1
  have hused := h.used htype σ hne
  exact ⟨htab ▸ hrange, of_decide_eq_true hused⟩

/-- The same entry is found or filled as by the kernel. -/
theorem getEntry_sim (hr : Ready s) (h : s.view.Owns imageSb (update s.dinode i din.dinode))
    (htype : din.dinode.type ≠ .free) (hge : ¬fbn < NDIRECT) (hfbn : fbn < MAXFILE)
    (hne : din.dinode.indirect ≠ 0)
    (hfits : slotAddr s.sector din.dinode (dataSlot fbn) = 0 → s.freeblock.toNat < FSSIZE) :
    ∃ x s', s.getEntry din fbn = .ok (x, din, s') ∧ Ready s'
      ∧ s.view.bmap imageSb din.dinode fbn = .ok (x.toNat, din.dinode, s'.view)
      ∧ slotAddr s'.sector din.dinode = update (slotAddr s.sector din.dinode) (dataSlot fbn) x.toNat
      ∧ s'.freeblock.toNat = s.freeblock.toNat
          + if slotAddr s.sector din.dinode (dataSlot fbn) = 0 then 1 else 0 := by
  obtain ⟨hlow, hused⟩ := used_of_owns h htype (.addr (last NDIRECT)) hne
  have hhigh := hr.high
  have hind : (din.addrs (last NDIRECT)).toNat = din.dinode.indirect := rfl
  change nmeta ≤ din.dinode.indirect at hlow
  change din.dinode.indirect < _ at hused
  have hsect : s.rsect (xint (din.addrs (last NDIRECT))) = .ok (s.sector din.dinode.indirect) := by
    rw [xint_eq, rsect_ok hr (by rw [hind]; omega), hind]
  have hslot := dataSlot_entry hge
  generalize he : Fin.ofNat NINDIRECT (fbn - NDIRECT) = e at hslot
  have hentry : slotAddr s.sector din.dinode (dataSlot fbn)
      = (s.sector din.dinode.indirect e).toNat := by
    rw [hslot]
    exact entryAddr_of_ne hne e
  by_cases hz : s.sector din.dinode.indirect e = 0
  · have hz' : slotAddr s.sector din.dinode (dataSlot fbn) = 0 := by rw [hentry, hz]; rfl
    have hlt := hfits hz'
    have hrb := hr.bump hlt
    have hb := bump_toNat hlt
    have hw := hrb.write (b := update (s.sector din.dinode.indirect) e s.freeblock)
      (n := din.dinode.indirect) (by have : 1 < nmeta := by decide
                                     omega) (by omega)
    have hb32 : BitVec.ofNat 32 s.freeblock.toNat = s.freeblock := by simp
    refine ⟨s.freeblock, { s.bump with
      sector := update s.sector din.dinode.indirect
        (update (s.sector din.dinode.indirect) e s.freeblock) }, ?_, hw, ?_, ?_, ?_⟩
    · unfold getEntry
      rw [hsect]
      simp only [ok_bind, he, xint_eq]
      rw [if_pos hz, update_self]
      have := wsect_eq (update (s.sector din.dinode.indirect) e s.freeblock) hrb
        (show (din.addrs (last NDIRECT)).toNat < FSSIZE by rw [hind]; omega)
      exact congrArg (fun t => ok (s.freeblock, din, t)) this
    · have hget : s.view.getAddr imageSb din.dinode (last NDIRECT)
          = .ok (din.dinode.indirect, din.dinode, s.view) := if_neg hne
      have hlt' : fbn - NDIRECT < NINDIRECT := by
        unfold MAXFILE at hfbn
        omega
      have he' : (⟨fbn - NDIRECT, hlt'⟩ : Fin NINDIRECT) = e := by
        rw [← he]
        exact Fin.ext (Nat.mod_eq_of_lt hlt').symm
      unfold bmap
      rw [dif_neg hge, dif_pos hlt', hget]
      simp only [ok_bind, he']
      rw [if_pos (show s.view.block din.dinode.indirect e = 0 from hz), balloc_sim hr hlt]
      simp only [ok_bind, hb32]
      exact congrArg (fun v => ok (s.freeblock.toNat, din.dinode, v))
        (view_write hrb hlow (by omega)).symm
    · rw [hslot]
      exact slotAddr_update_entry s.sector hne e s.freeblock
    · rw [if_pos hz']
      exact hb
  · have hz' : slotAddr s.sector din.dinode (dataSlot fbn) ≠ 0 := by
      rw [hentry]
      exact fun he => hz (eq_of_toNat_eq he)
    refine ⟨s.sector din.dinode.indirect e, s, ?_, hr, ?_, ?_, ?_⟩
    · unfold getEntry
      rw [hsect]
      simp only [ok_bind, he, xint_eq]
      rw [if_neg hz]
    · rw [bmap_of_ne hfbn hz']
      exact congrArg (fun n => ok (n, _, _)) hentry
    · rw [← hentry, update_eq_self]
    · rw [if_neg hz', Nat.add_zero]

/-- What `blockFor` does when there are enough blocks. -/
structure Placed (s : State) (din : Din) (fbn : Nat) (x : Word) (din' : Din)
    (s' : State) : Prop where
  ready : Ready s'
  sim : s.view.bmap imageSb din.dinode fbn = .ok (x.toNat, din'.dinode, s'.view)
  slots : ∀ σ, σ ≠ dataSlot fbn → σ ≠ .addr (Fin.last NDIRECT) →
    slotAddr s'.sector din'.dinode σ = slotAddr s.sector din.dinode σ
  indirect : fbn < NDIRECT → din'.dinode.indirect = din.dinode.indirect
  count : s'.freeblock.toNat = s.freeblock.toNat + newBlocks s.sector din.dinode fbn

/-- The indirect block is blank after it was taken. -/
theorem getAddr_entry (hr : Ready s) (e : Fin NINDIRECT)
    (hfits : din.dinode.indirect = 0 → s.freeblock.toNat < FSSIZE) :
    slotAddr (s.getAddr din (Fin.last NDIRECT)).2.sector
      (s.getAddr din (Fin.last NDIRECT)).1.dinode (.entry e)
        = slotAddr s.sector din.dinode (.entry e) := by
  rw [(getAddr_sim hr _ hfits).2.2.1, update_of_ne (fun he => by cases he)]

/-- `blockFor` is `bmap`. -/
theorem blockFor_sim (hr : Ready s) (h : s.view.Owns imageSb (update s.dinode i din.dinode))
    (htype : din.dinode.type ≠ .free) (hfbn : fbn < MAXFILE)
    (hfits : s.freeblock.toNat + newBlocks s.sector din.dinode fbn ≤ FSSIZE) :
    ∃ x din' s', s.blockFor din fbn = .ok (x, din', s') ∧ Placed s din fbn x din' s' := by
  unfold newBlocks at hfits
  by_cases hlt : fbn < NDIRECT
  · -- one of the inode's own places
    have hslot : dataSlot fbn = .addr ⟨fbn, Nat.lt_succ_of_lt hlt⟩ := dif_pos hlt
    generalize hk : (⟨fbn, Nat.lt_succ_of_lt hlt⟩ : Fin (NDIRECT + 1)) = k at hslot
    have hval : slotAddr s.sector din.dinode (dataSlot fbn) = din.dinode.addrs k := by
      rw [hslot]
      rfl
    have hkl : k ≠ last NDIRECT := by grind
    have hone : din.dinode.addrs k = 0 → s.freeblock.toNat < FSSIZE := fun hz => by
      rw [hval, if_pos hz] at hfits
      omega
    obtain ⟨hr', hget, hslots, hcount⟩ := getAddr_sim hr k hone
    refine ⟨(s.getAddr din k).1.addrs k, (s.getAddr din k).1, (s.getAddr din k).2, ?_, hr', ?_, ?_,
      fun _ => ?_, ?_⟩
    · unfold blockFor
      rw [dif_pos hlt, hk]
      simp only [xint_eq]
    · unfold bmap
      rw [dif_pos hlt, hk]
      exact hget
    · intro σ hσ _
      rw [hslots, update_of_ne (by rw [← hslot]; exact hσ)]
    · have := congrFun hslots (.addr (last NDIRECT))
      rw [update_of_ne (fun he => hkl (Slot.addr.inj he).symm)] at this
      exact this
    · rw [hcount]
      unfold newBlocks
      have hno : ¬(¬fbn < NDIRECT ∧ din.dinode.indirect = 0) := fun h => h.1 hlt
      rw [hval, if_neg hno, Nat.add_zero]
  · -- the indirect block, and an entry in it
    have hone : din.dinode.indirect = 0 → s.freeblock.toNat < FSSIZE := fun hz => by grind
    have hentry := getAddr_entry hr (Fin.ofNat NINDIRECT (fbn - NDIRECT)) hone
    obtain ⟨hr1, hget, hslots, hcount⟩ := getAddr_sim hr (last NDIRECT) hone
    rw [← dataSlot_entry hlt] at hentry
    have hbf : s.blockFor din fbn = (s.getAddr din (last NDIRECT)).2.getEntry
        (s.getAddr din (last NDIRECT)).1 fbn := by
      unfold blockFor
      rw [dif_neg hlt]
    generalize s.getAddr din (last NDIRECT) = r at *
    obtain ⟨din1, s1⟩ := r
    simp only at *
    -- the kernel has the same after it got the indirect block
    rcases getAddr_ok h htype (last NDIRECT) with hp | ⟨ip1, v1, hok, hg, hne⟩
    · rw [hget] at hp
      cases hp
    rw [hget] at hok
    obtain ⟨-, hip, hv⟩ : _ ∧ din1.dinode = ip1 ∧ s1.view = v1 := by
      simpa using hok
    subst hip hv
    have hown1 : s1.view.Owns imageSb (update s1.dinode i din1.dinode) := hg.owns'
    have hcond : (¬fbn < NDIRECT ∧ din.dinode.indirect = 0) ↔
        din.dinode.addrs (last NDIRECT) = 0 := ⟨fun h => h.2, fun h => ⟨hlt, h⟩⟩
    rw [if_congr hcond rfl rfl] at hfits
    have hsecond : slotAddr s1.sector din1.dinode (dataSlot fbn) = 0 →
        s1.freeblock.toNat < FSSIZE := by
      intro hz
      rw [hentry] at hz
      rw [if_pos hz] at hfits
      omega
    obtain ⟨x, s2, hge, hr2, hsim, hslots2, hcount2⟩ :=
      getEntry_sim hr1 hown1 (hg.type htype) hlt hfbn hne hsecond
    refine ⟨x, din1, s2, hbf.trans hge, hr2, ?_, fun σ h1 h2 => ?_, fun h => absurd h hlt, ?_⟩
    · rw [bmap_of_getAddr hlt hget hne, hsim]
    · rw [hslots2, update_of_ne h1, hslots, update_of_ne h2]
    · rw [hcount2, hcount, hentry]
      unfold newBlocks
      rw [if_congr hcond rfl rfl]
      omega

/-- With the last block taken, a new entry is for a block beyond the image. -/
theorem getEntry_full (din : Din) (fbn : Nat) (hr : Ready s) (hfull : s.freeblock.toNat = FSSIZE)
    (hind : din.dinode.indirect < FSSIZE)
    (hz : s.sector din.dinode.indirect (Fin.ofNat NINDIRECT (fbn - NDIRECT)) = 0) :
    ∃ x s', s.getEntry din fbn = .ok (x, din, s') ∧ s'.rsect x = .panic .exit := by
  have hval : (din.addrs (last NDIRECT)).toNat = din.dinode.indirect := rfl
  unfold getEntry
  rw [xint_eq, rsect_ok hr (by rw [hval]; exact hind), hval]
  simp only [ok_bind, xint_eq]
  rw [if_pos hz, update_self]
  refine ⟨_, _, rfl, rsect_beyond ?_ hfull⟩
  show max s.nsect (seek (din.addrs (last NDIRECT)) + 1) = FSSIZE
  rw [seek_of_lt (by rw [hval]; unfold FSSIZE at hind; omega), hval, hr.nsect]
  exact Nat.max_eq_left hind

/-- When there are not enough blocks, mkfs reads beyond the image and exits. -/
theorem blockFor_fails (hr : Ready s) (h : s.view.Owns imageSb (update s.dinode i din.dinode))
    (htype : din.dinode.type ≠ .free)
    (hno : FSSIZE < s.freeblock.toNat + newBlocks s.sector din.dinode fbn) :
    s.blockFor din fbn = .panic .exit
    ∨ ∃ x din' s', s.blockFor din fbn = .ok (x, din', s') ∧ s'.rsect x = .panic .exit := by
  have hhigh := hr.high
  unfold newBlocks at hno
  unfold State.blockFor
  by_cases hlt : fbn < NDIRECT
  · have hno' : ¬(¬fbn < NDIRECT ∧ din.dinode.indirect = 0) := fun h => h.1 hlt
    rw [if_neg hno'] at hno
    have hz : slotAddr s.sector din.dinode (dataSlot fbn) = 0 := by
      by_contra hne
      rw [if_neg hne] at hno
      omega
    have hslot : dataSlot fbn = .addr ⟨fbn, Nat.lt_succ_of_lt hlt⟩ := dif_pos hlt
    rw [hslot] at hz
    have hz' : din.addrs ⟨fbn, Nat.lt_succ_of_lt hlt⟩ = 0 := eq_of_toNat_eq hz
    rw [dif_pos hlt]
    right
    unfold State.getAddr
    simp only [xint_eq]
    rw [if_pos hz']
    simp only [update_self]
    exact ⟨_, _, _, rfl, rsect_beyond hr.nsect (by rw [hslot, if_pos hz] at hno; omega)⟩
  · rw [dif_neg hlt]
    have hentry := dataSlot_entry hlt
    by_cases hind : din.dinode.indirect = 0
    · -- no indirect block yet
      have hz' : din.addrs (last NDIRECT) = 0 := eq_of_toNat_eq hind
      have hget : s.getAddr din (last NDIRECT)
          = ({ din with addrs := update din.addrs (last NDIRECT) s.freeblock }, s.bump) := by
        unfold State.getAddr
        rw [xint_eq, xint_eq, if_pos hz']
        rfl
      have hval : Dinode.indirect (Din.dinode { din with
          addrs := update din.addrs (last NDIRECT) s.freeblock }) = s.freeblock.toNat := by
        rw [dinode_setAddr]
        exact update_self (last NDIRECT) s.freeblock.toNat din.dinode.addrs
      rw [hget]
      by_cases hfull : s.freeblock.toNat = FSSIZE
      · left
        simp only
        unfold State.getEntry
        rw [xint_eq]
        simp only [update_self]
        rw [rsect_beyond (s := s.bump) hr.nsect hfull]
        rfl
      · right
        have hlt' : s.freeblock.toNat < FSSIZE := by omega
        have hb := bump_toNat hlt'
        have hnew : FSSIZE ≤ s.freeblock.toNat + 1 := by
          split at hno <;> split at hno <;> omega
        obtain ⟨x, s', hok, hfail⟩ := getEntry_full { din with
          addrs := update din.addrs (last NDIRECT) s.freeblock } fbn (hr.bump hlt') (by omega)
          (by rw [hval]; exact hlt') (by
            rw [hval]
            show s.sector s.freeblock.toNat _ = 0
            rw [hr.blank _ (Nat.le_refl _)])
        exact ⟨x, _, s', hok, hfail⟩
    · right
      have hno' : ¬(¬fbn < NDIRECT ∧ din.dinode.indirect = 0) := fun h => hind h.2
      rw [if_neg hno'] at hno
      have hz : slotAddr s.sector din.dinode (dataSlot fbn) = 0 := by
        by_contra hne
        rw [if_neg hne] at hno
        omega
      rw [if_pos hz] at hno
      have hget : s.getAddr din (last NDIRECT) = (din, s) := by
        unfold State.getAddr
        rw [xint_eq, if_neg fun hz => hind (show (din.addrs (last NDIRECT)).toNat = 0 by
          rw [hz]
          rfl)]
      obtain ⟨-, hused⟩ := used_of_owns h htype (.addr (last NDIRECT)) hind
      change din.dinode.indirect < _ at hused
      rw [hentry] at hz
      have hword : (s.sector din.dinode.indirect (Fin.ofNat NINDIRECT (fbn - NDIRECT))).toNat
        = 0 := by
        rw [← entryAddr_of_ne hind]
        exact hz
      rw [hget]
      obtain ⟨x, s', hok, hfail⟩ := getEntry_full din fbn hr (by omega) (by omega)
        (eq_of_toNat_eq hword)
      exact ⟨x, din, s', hok, hfail⟩

/-! ### What does not change -/

theorem getAddr_freeinode (k : Fin (NDIRECT + 1)) :
    (s.getAddr din k).2.freeinode = s.freeinode := by
  unfold State.getAddr
  split <;> rfl

theorem blockFor_freeinode (h : s.blockFor din fbn = .ok (x, din', s')) :
    s'.freeinode = s.freeinode := by
  unfold blockFor at h
  split at h
  · cases h
    exact getAddr_freeinode _
  · simp only [getEntry] at h
    obtain ⟨buf, -, h⟩ := bind_eq_ok.mp h
    split at h <;> cases h <;> exact getAddr_freeinode _

/-- Appends make no inode. -/
theorem iappendLoop_freeinode {fuel off off' : Nat} {p : List Byte}
    (h : s.iappendLoop fuel din off p = .ok (off', din', s')) : s'.freeinode = s.freeinode := by
  induction fuel generalizing s din off p with
  | zero =>
    unfold iappendLoop at h
    split at h <;> cases h
    rfl
  | succ fuel ih =>
    unfold iappendLoop at h
    split at h
    · simp only at h
      split at h
      · obtain ⟨⟨x, din1, s1⟩, hbf, h⟩ := bind_eq_ok.mp h
        obtain ⟨buf, -, h⟩ := bind_eq_ok.mp h
        have hs1 : s1.freeinode = s.freeinode := blockFor_freeinode hbf
        exact (ih h).trans hs1
      · cases h
    · cases h
      rfl

/-! ### The loop -/

/-- The blocks that are taken for a piece of a file, at the end of what it has. -/
theorem newBlocks_add {off m : Nat} (hfull : Full block d off) (hexact : Exact block d off)
    (hlt : off / BSIZE < MAXFILE) (hm : 0 < m) (hm' : m ≤ BSIZE - off % BSIZE) :
    newBlocks block d (off / BSIZE) + blocksOf off = blocksOf (off + m) := by
  have hdata : (if slotAddr block d (dataSlot (off / BSIZE)) = 0 then 1 else 0)
      = if off % BSIZE = 0 then 1 else 0 := by
    by_cases hz : off % BSIZE = 0
    · rw [if_pos hz, if_pos (hexact.data _ hlt (by unfold BSIZE at *; omega))]
    · rw [if_neg hz, if_neg (hfull _ (by unfold BSIZE at *; omega)).2]
  have hind : (if ¬off / BSIZE < NDIRECT ∧ d.indirect = 0 then 1 else 0)
      + (if NDIRECT * BSIZE < off then 1 else 0) = if NDIRECT * BSIZE < off + m then 1 else 0 := by
    by_cases hoff : NDIRECT * BSIZE < off
    · -- the first entry is there, so the indirect block is
      have hne : d.indirect ≠ 0 := fun h0 => by
        obtain ⟨-, hslot⟩ := hfull NDIRECT hoff
        simp only [slotAddr, h0, entryAddr_zero] at hslot
        exact hslot rfl
      rw [if_neg (fun h => hne h.2), if_pos hoff, if_pos (by omega)]
    · have h0 := hexact.indirect (by omega)
      rw [if_neg hoff]
      by_cases hb : off / BSIZE < NDIRECT
      · rw [if_neg (fun h => h.1 hb), if_neg (by unfold BSIZE NDIRECT at *; omega)]
      · rw [if_pos ⟨hb, h0⟩, if_pos (by unfold BSIZE NDIRECT at *; omega)]
  unfold newBlocks blocksOf
  rw [hdata]
  have hceil : (if off % BSIZE = 0 then 1 else 0) + (off + BSIZE - 1) / BSIZE
      = (off + m + BSIZE - 1) / BSIZE := by
    unfold BSIZE at *
    split <;> omega
  omega

/-- The file has no blocks beyond its end after a piece was appended. -/
theorem Exact.extend {off m : Nat} (hp : Placed s din (off / BSIZE) x din' s')
    (hexact : Exact s.sector din.dinode off) (hlt : off / BSIZE < MAXFILE) (hm : 0 < m) :
    Exact s'.sector din'.dinode (off + m) where
  data bn hbn hle := by
    have hne : bn ≠ off / BSIZE := by
      rintro rfl
      unfold BSIZE at *
      omega
    rw [hp.slots _ (fun he => hne (dataSlot_inj hbn hlt he)) (dataSlot_ne_indirect bn)]
    exact hexact.data bn hbn (by omega)
  indirect hle := by
    rw [hp.indirect (by unfold BSIZE NDIRECT at *; omega)]
    exact hexact.indirect (by omega)

theorem blocksOf_mono {m : Nat} (h : m ≤ n) : blocksOf m ≤ blocksOf n := by
  unfold blocksOf BSIZE
  split <;> split <;> omega

theorem Exact.of_slots {block' : Nat → Block} (h : Exact block d n)
    (hs : slotAddr block' d = slotAddr block d) : Exact block' d n :=
  ⟨fun bn hbn hle => by rw [hs]; exact h.data bn hbn hle, h.indirect⟩

/-- The loop of `iappend` is at byte `off` of inode `i`, which has the blocks of the bytes before
    and no others. -/
structure Appending (i : Nat) (s : State) (din : Din) (off : Nat) : Prop where
  ready : Ready s
  owns : s.view.Owns imageSb (update s.dinode i din.dinode)
  type : din.dinode.type ≠ .free
  full : Full s.sector din.dinode off
  exact : Exact s.sector din.dinode off

namespace Appending

variable {P : List Byte} {tot off m : Nat}

/-- The block for byte `off` is one of the file's, and is written up to byte `off + m`. -/
theorem write (w : Appending i s din off) (hp : Placed s din (off / BSIZE) x din' s')
    (hbn : off / BSIZE < MAXFILE) (hm : 0 < m) (hm' : m ≤ BSIZE - off % BSIZE) (data : Block) :
    nmeta ≤ x.toNat ∧ x.toNat < s'.freeblock.toNat
      ∧ Appending i { s' with sector := update s'.sector x.toNat data } din' (off + m) := by
  -- what the kernel has after `bmap`
  rcases bmap_ok w.owns w.type hbn with hpanic | ⟨ip1, v1, hmap, hg, hne⟩
  · rw [hp.sim] at hpanic
    cases hpanic
  rw [hp.sim] at hmap
  obtain ⟨hx, rfl, rfl⟩ : x.toNat = _ ∧ din'.dinode = ip1 ∧ s'.view = v1 := by simpa using hmap
  have hx : slotAddr s'.sector din'.dinode (dataSlot (off / BSIZE)) = x.toNat := hx.symm
  have htype := hg.type w.type
  have hown : s'.view.Owns imageSb (update s'.dinode i din'.dinode) := hg.owns'
  obtain ⟨hlow, hused⟩ := used_of_owns hown htype _ hne
  rw [hx] at hlow hused
  have hkept := Kept.of_write (off / BSIZE) hown htype data
  have hslots := slotAddr_write_self (off / BSIZE) hown htype data
  rw [show slotAddr s'.view.block din'.dinode (dataSlot (off / BSIZE)) = x.toNat from hx]
    at hkept hslots
  have hview := view_write (b := data) hp.ready hlow hused
  have hmeta : 1 < nmeta := by decide
  refine ⟨hlow, hused, hp.ready.write (by omega) hused, ?_, htype, ?_, ?_⟩
  · rw [show State.dinode { s' with sector := update s'.sector x.toNat data } = s'.dinode from
      congrArg Volume.dinode hview, hview]
    exact hkept.owns'
  · exact ((w.full.kept hg.toKept).extend (by omega) hbn hne).kept hkept
  · exact (w.exact.extend hp hbn hm).of_slots hslots

/-- One round: both loops fill the block that byte `off` is in. -/
theorem round (w : Appending i s din off) (hlt : tot < P.length) (hbn : off / BSIZE < MAXFILE)
    (hm : min (P.length - tot) (BSIZE - off % BSIZE) = m)
    (hfits : s.freeblock.toNat + newBlocks s.sector din.dinode (off / BSIZE) ≤ FSSIZE) :
    ∃ s' din', Appending i s' din' (off + m)
      ∧ s'.freeblock.toNat = s.freeblock.toNat + newBlocks s.sector din.dinode (off / BSIZE)
      ∧ ∀ fuel, s.iappendLoop (fuel + 1) din off (P.drop tot)
          = s'.iappendLoop fuel din' (off + m) (P.drop (tot + m))
        ∧ Volume.writeLoop imageSb (fun t => P.getD t 0) (fuel + 1) s.view din.dinode tot off
            P.length
          = Volume.writeLoop imageSb (fun t => P.getD t 0) fuel s'.view din'.dinode (tot + m)
            (off + m) P.length := by
  have hmod : off % BSIZE < BSIZE := Nat.mod_lt _ (by decide)
  obtain ⟨x, din', s', hbf, hp⟩ := blockFor_sim w.ready w.owns w.type hbn hfits
  obtain ⟨hlow, hused, w'⟩ := w.write (m := m) hp hbn (by omega) (by omega)
    ((s'.sector x.toNat).move (off % BSIZE) (fun t => P.getD (tot + t) 0) m)
  have hhigh := hp.ready.high
  refine ⟨_, din', w', hp.count, fun fuel => ⟨?_, ?_⟩⟩
  · have hmin : min (P.drop tot).length ((off / BSIZE + 1) * BSIZE - off) = m := by
      grind [length_drop, BSIZE]
    have hsrc : (fun t => (P.drop tot).getD t 0) = fun t => P.getD (tot + t) 0 := by
      funext t
      simp [getD_eq_getElem?_getD]
    have hoff : off - off / BSIZE * BSIZE = off % BSIZE := by
      unfold BSIZE
      omega
    rw [iappendLoop, if_pos (by rw [length_drop]; omega), if_pos hbn, hbf]
    simp only [ok_bind]
    rw [rsect_ok hp.ready (by omega)]
    simp only [ok_bind]
    rw [hmin, wsect_eq _ hp.ready (by omega), drop_drop, hsrc, hoff]
  · rw [Volume.writeLoop, if_pos hlt, hp.sim, hm, view_write hp.ready hlow hused]
    rfl

/-- The round panics if the block is beyond the largest file, or there are not enough blocks. -/
theorem stuck (w : Appending i s din off) (hlt : tot < P.length) (fuel : Nat)
    (h : off / BSIZE < MAXFILE →
      FSSIZE < s.freeblock.toNat + newBlocks s.sector din.dinode (off / BSIZE)) :
    ∃ e, s.iappendLoop (fuel + 1) din off (P.drop tot) = .panic e := by
  unfold iappendLoop
  rw [if_pos (by rw [length_drop]; omega)]
  by_cases hbn : off / BSIZE < MAXFILE
  · rw [if_pos hbn]
    rcases blockFor_fails w.ready w.owns w.type (h hbn) with hpanic | ⟨x, din1, s1, hbf, hrs⟩
    · exact ⟨_, by rw [hpanic]; rfl⟩
    · simp [*]
  · exact ⟨_, if_neg hbn⟩

end Appending

/-- What the loop of `iappend` has done when it returns. -/
structure Looped (P : List Byte) (fuel tot off : Nat) (s : State) (din : Din) (s' : State)
    (din' : Din) : Prop where
  run : s.iappendLoop fuel din off (P.drop tot) = .ok (off + (P.length - tot), din', s')
  sim : Volume.writeLoop imageSb (fun t => P.getD t 0) fuel s.view din.dinode tot off P.length
    = .ok (off + (P.length - tot), din'.dinode, s'.view)
  ready : Ready s'
  max : tot < P.length → off + (P.length - tot) ≤ MAXFILE * BSIZE
  exact : Exact s'.sector din'.dinode (off + (P.length - tot))
  count : s'.freeblock.toNat + blocksOf off
    = s.freeblock.toNat + blocksOf (off + (P.length - tot))

/-- Nothing is left to write. -/
theorem Looped.done {P : List Byte} {fuel tot off : Nat} (w : Appending i s din off)
    (hz : ¬tot < P.length) : Looped P fuel tot off s din s din := by
  have h0 : off + (P.length - tot) = off := by omega
  refine ⟨?_, ?_, w.ready, fun h => absurd h hz, by rw [h0]; exact w.exact, by rw [h0]⟩
  · rw [h0]
    cases fuel <;> exact if_neg (by rw [length_drop]; omega)
  · rw [h0]
    cases fuel <;> exact if_neg hz

/-- The loop of `iappend` is the loop of `writei`, unless the file gets too large or there are not
    enough blocks. -/
theorem iappendLoop_sim (P : List Byte) (fuel tot off : Nat) (w : Appending i s din off)
    (hfuel : P.length - tot ≤ fuel) :
    (∃ s' din', Looped P fuel tot off s din s' din')
    ∨ (∃ e, s.iappendLoop fuel din off (P.drop tot) = .panic e)
      ∧ (MAXFILE * BSIZE < off + (P.length - tot)
        ∨ FSSIZE + blocksOf off < s.freeblock.toNat + blocksOf (off + (P.length - tot))) := by
  induction fuel generalizing s din tot off with
  | zero => exact .inl ⟨s, din, .done w (by omega)⟩
  | succ fuel ih =>
    by_cases hlt : tot < P.length
    swap
    · exact .inl ⟨s, din, .done w hlt⟩
    by_cases hbn : off / BSIZE < MAXFILE
    swap
    · refine .inr ⟨w.stuck hlt fuel fun h => absurd h hbn, .inl ?_⟩
      unfold MAXFILE NDIRECT NINDIRECT BSIZE at *
      omega
    have hmod : off % BSIZE < BSIZE := Nat.mod_lt _ (by decide)
    generalize hm : min (P.length - tot) (BSIZE - off % BSIZE) = m
    have hend : off + m + (P.length - (tot + m)) = off + (P.length - tot) := by omega
    have hnew := newBlocks_add w.full w.exact hbn (m := m) (by omega) (by omega)
    by_cases hfits : s.freeblock.toNat + newBlocks s.sector din.dinode (off / BSIZE) ≤ FSSIZE
    swap
    · have hmono := blocksOf_mono (show off + m ≤ off + (P.length - tot) by omega)
      exact .inr ⟨w.stuck hlt fuel fun _ => Nat.not_le.mp hfits, .inr (by omega)⟩
    obtain ⟨s1, din1, w1, hcount, hround⟩ := w.round hlt hbn hm hfits
    obtain ⟨hrun, hsim⟩ := hround fuel
    rcases ih (tot + m) (off + m) w1 (by omega) with ⟨s', din', hl⟩ | ⟨⟨e, hpanic⟩, hbad⟩
    · obtain ⟨hlrun, hlsim, hlready, hlmax, hlexact, hlcount⟩ := hl
      rw [hend] at hlrun hlsim hlmax hlexact hlcount
      refine .inl ⟨s', din', hrun.trans hlrun, hsim.trans hlsim, hlready, fun _ => ?_, hlexact,
        by omega⟩
      by_cases hmore : tot + m < P.length
      · exact hlmax hmore
      · unfold MAXFILE NDIRECT NINDIRECT BSIZE at *
        omega
    · rw [hend] at hbad
      exact .inr ⟨⟨e, hrun.trans hpanic⟩, by omega⟩

end Xv6.Mkfs
