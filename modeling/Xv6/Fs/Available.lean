import Xv6.Fs.Contents
import Mathlib.Data.Finset.Card
import Mathlib.Data.Finset.Union
import Mathlib.Order.Interval.Finset.Nat

namespace Xv6.Fs

open Fin Finset Function Outcome Volume

/-!
# What a write needs

How many blocks `writei` takes from the free map, and that it does not run out of them if there are
as many.

* `Volume.free` — the blocks that `balloc` hands out;
* `missing` — the places for addresses of blocks that are still empty;
* `Volume.need` — how many of them a write fills;
* `bmap_free`, `writeLoop_free` — enough free blocks are enough.
-/

/-- The blocks that `balloc` can hand out. -/
def Volume.free (sb : Superblock) (v : Volume) : Finset Nat :=
  (Finset.range sb.size).filter fun b => v.bit b = false

/-- The places that `bmap(ip, bn)` looks at. -/
def bmapSlots (bn : Nat) : Finset Slot :=
  if bn < NDIRECT then {dataSlot bn} else {.addr (Fin.last NDIRECT), dataSlot bn}

/-- The blocks of a file where bytes `off`, …, `off + n - 1` are. -/
def blocksOf (off n : Nat) : Finset Nat :=
  if n = 0 then ∅ else Finset.Icc (off / BSIZE) ((off + n - 1) / BSIZE)

/-- Places of an inode that have no block. -/
def missing (block : Nat → Block) (d : Dinode) (s : Finset Slot) : Finset Slot :=
  s.filter fun σ => slotAddr block d σ = 0

/-- The number of blocks that have to be allocated for bytes `off`, …, `off + n - 1`. -/
def Volume.need (v : Volume) (ip : Dinode) (off n : Nat) : Nat :=
  (missing v.block ip ((blocksOf off n).biUnion bmapSlots)).card

variable {sb : Superblock} {v v' : Volume} {i : Nat} {ip ip' : Dinode}
variable {n a bn : Nat} {block : Nat → Block} {e : BPanic} {k : Fin (NDIRECT + 1)}

/-! ### Blocks where bytes are -/

theorem blocksOf_zero (off : Nat) : blocksOf off 0 = ∅ := if_pos rfl

/-- The first piece is in one block, and the others are where the rest is. -/
theorem blocksOf_piece (off : Nat) (hn : 0 < n) :
    blocksOf off n = insert (off / BSIZE) (blocksOf (off + min n (BSIZE - off % BSIZE))
      (n - min n (BSIZE - off % BSIZE))) := by
  ext bn
  unfold blocksOf
  rw [if_neg (by omega), mem_insert, mem_Icc]
  split
  · simp only [notMem_empty, or_false]
    unfold BSIZE at *
    omega
  · rw [mem_Icc]
    unfold BSIZE at *
    omega

theorem notMem_blocksOf_rest (off n : Nat) :
    off / BSIZE ∉ blocksOf (off + min n (BSIZE - off % BSIZE))
      (n - min n (BSIZE - off % BSIZE)) := by
  unfold blocksOf
  split
  · exact notMem_empty _
  · rw [mem_Icc]
    unfold BSIZE at *
    omega

/-- The blocks of a write. -/
theorem card_blocksOf (off : Nat) (hn : 0 < n) :
    (blocksOf off n).card = (off + n - 1) / BSIZE - off / BSIZE + 1 := by
  unfold blocksOf
  rw [if_neg (by omega), Nat.card_Icc]
  unfold BSIZE
  omega

/-! ### Places that get filled -/

theorem mem_missing {s : Finset Slot} {σ : Slot} :
    σ ∈ missing block ip s ↔ σ ∈ s ∧ slotAddr block ip σ = 0 := mem_filter

theorem card_missing_singleton (block : Nat → Block) (d : Dinode) (σ : Slot) :
    (missing block d {σ}).card = if slotAddr block d σ = 0 then 1 else 0 := by
  unfold missing
  rw [filter_singleton]
  split <;> rfl

/-- A place that was filled is not missing any more, and no place becomes missing. -/
theorem Kept.missing_le (hk : Kept sb i v ip v' ip') {s t : Finset Slot}
    (hs : ∀ σ ∈ s, slotAddr v'.block ip' σ ≠ 0) :
    (missing v'.block ip' t).card + (missing v.block ip s).card
      ≤ (missing v.block ip (s ∪ t)).card := by
  have hback (σ : Slot) (hz : slotAddr v'.block ip' σ = 0) : slotAddr v.block ip σ = 0 := by
    by_contra hne
    rw [hk.keeps σ hne] at hz
    exact hne hz
  rw [← card_union_of_disjoint]
  · apply card_le_card
    intro σ hσ
    rcases mem_union.mp hσ with ht | hs'
    · obtain ⟨hmem, hz⟩ := mem_missing.mp ht
      exact mem_missing.mpr ⟨mem_union_right _ hmem, hback σ hz⟩
    · obtain ⟨hmem, hz⟩ := mem_missing.mp hs'
      exact mem_missing.mpr ⟨mem_union_left _ hmem, hz⟩
  · rw [disjoint_left]
    intro σ ht hs'
    exact hs σ (mem_missing.mp hs').1 (mem_missing.mp ht).2

/-! ### Allocation -/

/-- One free block less. -/
theorem balloc_free {b : Nat} (hok : v.balloc sb = .ok (b, v')) :
    (v.free sb).card = (v'.free sb).card + 1 := by
  rcases balloc_ok sb v with hp | ⟨c, hc, hlt, hok'⟩
  · rw [hp] at hok
    cases hok
  · rw [hok'] at hok
    cases hok
    have hmem : b ∈ v.free sb := mem_filter.mpr ⟨mem_range.mpr hlt, hc⟩
    have herase : ({ v with bit := update v.bit b true }.bzero b).free sb
      = (v.free sb).erase b := by
      ext a
      rw [mem_erase]
      unfold free
      rw [mem_filter, mem_filter]
      show _ ∧ update v.bit b true a = false ↔ _
      by_cases ha : a = b
      · rw [ha, update_self]
        simp
      · rw [update_of_ne ha]
        exact ⟨fun h => ⟨ha, h⟩, fun h => h.2⟩
    rw [herase, card_erase_of_mem hmem]
    have := card_pos.mpr ⟨b, hmem⟩
    omega

/-- No free block. -/
theorem balloc_none (hp : v.balloc sb = .panic e) : (v.free sb).card = 0 := by
  rw [card_eq_zero, eq_empty_iff_forall_notMem]
  intro b hb
  obtain ⟨hlt, hbit⟩ := mem_filter.mp hb
  unfold balloc at hp
  split at hp
  · cases hp
  · simp_all

/-- One block is taken if the place is empty. -/
theorem getAddr_free (hok : v.getAddr sb ip k = .ok (a, ip', v')) :
    (v.free sb).card = (v'.free sb).card + (missing v.block ip {.addr k}).card := by
  rw [card_missing_singleton]
  unfold getAddr at hok
  split at hok
  · rename_i hz
    obtain ⟨⟨b, v1⟩, hb, hrest⟩ := bind_eq_ok.mp hok
    cases hrest
    rw [if_pos (show slotAddr v.block ip (.addr k) = 0 from hz)]
    exact balloc_free hb
  · rename_i hne
    cases hok
    rw [if_neg (show ¬slotAddr v.block ip (.addr k) = 0 from hne)]
    rfl

theorem getAddr_none (hp : v.getAddr sb ip k = .panic e) :
    (v.free sb).card < (missing v.block ip {.addr k}).card := by
  rw [card_missing_singleton]
  unfold getAddr at hp
  split at hp
  · rename_i hz
    rw [if_pos (show slotAddr v.block ip (.addr k) = 0 from hz)]
    rcases bind_eq_panic.mp hp with hb | ⟨x, -, hx⟩
    · rw [balloc_none hb]
      exact Nat.one_pos
    · cases hx
  · cases hp

theorem bmapSlots_indirect (hge : ¬bn < NDIRECT) :
    bmapSlots bn = {.addr (Fin.last NDIRECT)} ∪ {dataSlot bn} := if_neg hge

/-- Once there is an indirect block, the entry is missing if it is 0. -/
theorem Grown.missing_entry (hg : Grown sb i v ip v' ip') (hne : ip'.addrs (Fin.last NDIRECT) ≠ 0)
    (e : Fin NINDIRECT) :
    (if v'.block (ip'.addrs (Fin.last NDIRECT)) e = 0 then 1 else 0)
        + (missing v.block ip {.addr (Fin.last NDIRECT)}).card
      ≤ (missing v.block ip ({.addr (Fin.last NDIRECT)} ∪ {.entry e})).card := by
  have hboth := hg.missing_le (s := {.addr (last NDIRECT)}) (t := {.entry e}) fun σ hσ => by
    rw [mem_singleton.mp hσ]
    exact hne
  have hentry : slotAddr v'.block ip' (.entry e) = (v'.block (ip'.addrs (last NDIRECT)) e).toNat :=
    entryAddr_of_ne hne e
  rw [card_missing_singleton, hentry] at hboth
  refine le_of_eq_of_le ?_ hboth
  congr 1
  exact if_congr ⟨fun h => congrArg BitVec.toNat h, fun h => BitVec.eq_of_toNat_eq h⟩ rfl rfl

/-- Blocks of the file beyond the direct ones are in the indirect block. -/
theorem bmapSlots_filled {d : Dinode} (hne : slotAddr block d (dataSlot bn) ≠ 0) :
    ∀ σ ∈ bmapSlots bn, slotAddr block d σ ≠ 0 := by
  intro σ hσ
  by_cases hlt : bn < NDIRECT
  · unfold bmapSlots at hσ
    rw [if_pos hlt, mem_singleton] at hσ
    rw [hσ]
    exact hne
  · rw [bmapSlots_indirect hlt, mem_union, mem_singleton, mem_singleton] at hσ
    rcases hσ with rfl | rfl
    · intro hz
      apply hne
      unfold dataSlot
      rw [dif_neg hlt]
      show entryAddr block d.indirect _ = 0
      rw [show d.indirect = 0 from hz, entryAddr_zero]
    · exact hne

section

variable {bn : Nat}

theorem dataSlot_direct (hlt : bn < NDIRECT) :
    dataSlot bn = .addr ⟨bn, Nat.lt_succ_of_lt hlt⟩ := dif_pos hlt

theorem dataSlot_indirect (hge : ¬bn < NDIRECT) (hlt : bn - NDIRECT < NINDIRECT) :
    dataSlot bn = .entry ⟨bn - NDIRECT, hlt⟩ := by
  unfold dataSlot
  rw [dif_neg hge, show Fin.ofNat NINDIRECT (bn - NDIRECT) = ⟨bn - NDIRECT, hlt⟩ from
    Fin.ext (Nat.mod_eq_of_lt hlt)]

/-- `bmap` takes no more blocks than there are places missing. -/
theorem bmap_free (h : v.Owns sb (update v.dinode i ip)) (htype : ip.type ≠ .free)
    (hok : v.bmap sb ip bn = .ok (a, ip', v')) :
    (v.free sb).card ≤ (v'.free sb).card + (missing v.block ip (bmapSlots bn)).card := by
  unfold bmap at hok
  split at hok
  · rename_i hlt
    unfold bmapSlots
    rw [if_pos hlt, dataSlot_direct hlt, getAddr_free hok]
  · rename_i hge
    split at hok
    case isFalse => cases hok
    case isTrue hlt =>
      rw [bmapSlots_indirect hge, dataSlot_indirect hge hlt]
      generalize (⟨bn - NDIRECT, hlt⟩ : Fin NINDIRECT) = e at hok ⊢
      rcases getAddr_ok h htype (last NDIRECT) with hp | ⟨ip1, v1, hget, hg, hne⟩
      · rw [hp] at hok
        cases hok
      have hfree := getAddr_free hget
      have hboth := hg.missing_entry hne e
      rw [hget] at hok
      simp only [ok_bind] at hok
      split at hok
      · rename_i hz
        rw [if_pos hz] at hboth
        obtain ⟨⟨b, v2⟩, hb, hrest⟩ := bind_eq_ok.mp hok
        cases hrest
        have := balloc_free hb
        show _ ≤ (v2.free sb).card + _
        omega
      · cases hok
        omega

/-- `bmap` runs out of blocks only if there are more places missing than blocks free. -/
theorem bmap_none (h : v.Owns sb (update v.dinode i ip)) (htype : ip.type ≠ .free)
    (hp : v.bmap sb ip bn = .panic .outOfBlocks) :
    (v.free sb).card < (missing v.block ip (bmapSlots bn)).card := by
  unfold bmap at hp
  split at hp
  · rename_i hlt
    unfold bmapSlots
    rw [if_pos hlt, dataSlot_direct hlt]
    exact getAddr_none hp
  · rename_i hge
    split at hp
    case isFalse => cases hp
    case isTrue hlt =>
      rw [bmapSlots_indirect hge, dataSlot_indirect hge hlt]
      generalize (⟨bn - NDIRECT, hlt⟩ : Fin NINDIRECT) = e at hp ⊢
      rcases getAddr_ok h htype (last NDIRECT) with hget | ⟨ip1, v1, hget, hg, hne⟩
      · apply (getAddr_none hget).trans_le
        exact card_le_card (filter_subset_filter _ subset_union_left)
      have hfree := getAddr_free hget
      have hboth := hg.missing_entry hne e
      rw [hget] at hp
      simp only [ok_bind] at hp
      split at hp
      · rename_i hz
        rw [if_pos hz] at hboth
        rcases bind_eq_panic.mp hp with hb | ⟨x, -, hx⟩
        · have := balloc_none hb
          omega
        · cases hx
      · cases hp

end

/-- Bytes that a file without holes has need no blocks. -/
theorem need_of_full {off : Nat} (hfull : Full v.block ip ip.size) (hin : off + n ≤ ip.size) :
    v.need ip off n = 0 := by
  unfold need
  rw [card_eq_zero, eq_empty_iff_forall_notMem]
  intro σ hσ
  obtain ⟨hmem, hz⟩ := mem_missing.mp hσ
  obtain ⟨bn, hbn, hslot⟩ := mem_biUnion.mp hmem
  unfold blocksOf at hbn
  split at hbn
  · cases hbn
  · have hlt : bn * BSIZE < ip.size := by
      have := (mem_Icc.mp hbn).2
      unfold BSIZE at *
      omega
    exact bmapSlots_filled (hfull bn hlt).2 σ hslot hz

/-- What is needed for the rest, once the first piece has its block. -/
theorem need_piece {off m : Nat} (hn : 0 < n) (hm : m = min n (BSIZE - off % BSIZE))
    (hk : Kept sb i v ip v' ip') (hne : slotAddr v'.block ip' (dataSlot (off / BSIZE)) ≠ 0) :
    v'.need ip' (off + m) (n - m) + (missing v.block ip (bmapSlots (off / BSIZE))).card
      ≤ v.need ip off n := by
  unfold need
  rw [blocksOf_piece off hn, ← hm, biUnion_insert]
  exact hk.missing_le (bmapSlots_filled hne)

/-- Writing into a block of the file fills no place. -/
theorem need_write (bn : Nat) (h : v.Owns sb (update v.dinode i ip)) (htype : ip.type ≠ .free)
    (x : Block) (off n : Nat) :
    Volume.need { v with block := update v.block (slotAddr v.block ip (dataSlot bn)) x } ip off n
      = v.need ip off n := by
  unfold need missing
  rw [slotAddr_write_self _ h htype]

/-- The loop of `writei` does not run out of blocks if there are enough. -/
theorem writeLoop_free (src : Nat → Byte) (n fuel : Nat) {tot off : Nat}
    (h : v.Owns sb (update v.dinode i ip)) (htype : ip.type ≠ .free)
    (hmax : off + (n - tot) ≤ MAXFILE * BSIZE)
    (hneed : v.need ip off (n - tot) ≤ (v.free sb).card) :
    Volume.writeLoop sb src fuel v ip tot off n ≠ .panic .outOfBlocks := by
  induction fuel generalizing v ip tot off with
  | zero =>
    unfold writeLoop
    split <;> rintro ⟨⟩
  | succ fuel ih =>
    unfold writeLoop
    split
    case isFalse => rintro ⟨⟩
    case isTrue hlt =>
      have hbn : off / BSIZE < MAXFILE := by
        unfold MAXFILE NINDIRECT NDIRECT BSIZE at *
        omega
      -- the blocks for the first piece are among those needed
      have hfirst : (missing v.block ip (bmapSlots (off / BSIZE))).card
        ≤ v.need ip off (n - tot) := by
        unfold need
        rw [blocksOf_piece off (by omega), biUnion_insert]
        exact card_le_card (filter_subset_filter _ subset_union_left)
      rcases bmap_ok h htype hbn with hp | ⟨ip1, v1, hmap, hg, hne⟩
      · have := bmap_none h htype hp
        omega
      have hfree := bmap_free h htype hmap
      have hrest := need_piece (by omega) rfl hg.toKept hne (n := n - tot)
      rw [hmap]
      generalize hm : min (n - tot) (BSIZE - off % BSIZE) = m at hrest ⊢
      have hw := Kept.of_write (off / BSIZE) hg.owns' (hg.type htype)
        ((v1.block (slotAddr v1.block ip1 (dataSlot (off / BSIZE)))).move (off % BSIZE)
          (fun t => src (tot + t)) m)
      refine ih hw.owns' (hg.type htype) (by omega) ?_
      rw [need_write _ hg.owns' (hg.type htype), Nat.sub_add_eq]
      show _ ≤ (v1.free sb).card
      omega

end Xv6.Fs
