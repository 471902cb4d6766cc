import Xv6.Fs.Available
import Xv6.Lib.Traced
import Xv6.Log.Protocol

namespace Xv6.Fs

open Fin Finset Function List Run Traced Volume Outcome

/-!
# What a write logs

`writei` and what it calls once more, with every `log_write` on record, and how many blocks a chunk
of `filewrite` logs.

* `Logged.writei` — the function with its record; `Logged.writei_out` — without the record it is
  `Volume.writei`;
* `Within` — all logged blocks but one are among so many;
* `bmap_within`, `writeLoop_within` — a block, and all blocks of a write;
* `writei_logs` — a chunk stays within `MAXOPBLOCKS`.
-/

/-- `BBLOCK(b, sb)` -/
def Superblock.bblock (sb : Superblock) (b : Nat) : Nat := b / BPB + sb.bmapstart

/-- A function of `fs.c` with the blocks that it logs. -/
abbrev Logs := Traced Nat BPanic

namespace Logged

/-- `log_write` of the buffer of block `b`. -/
def logWrite (b : Nat) : Logs Unit := Traced.record b

/-- `balloc`: the block of the free map is logged, and then the block, by `bzero`. -/
def balloc (sb : Superblock) (v : Volume) : Logs (Nat × Volume) := do
  let (b, v) ← Traced.lift (v.balloc sb)
  logWrite (sb.bblock b)
  logWrite b
  return (b, v)

/-- `if((addr = ip->addrs[k]) == 0) ip->addrs[k] = addr = balloc(ip->dev);` -/
def getAddr (sb : Superblock) (v : Volume) (ip : Dinode) (k : Fin (NDIRECT + 1)) :
    Logs (Nat × Dinode × Volume) :=
  if ip.addrs k = 0 then do
    let (addr, v) ← balloc sb v
    return (addr, { ip with addrs := update ip.addrs k addr }, v)
  else return (ip.addrs k, ip, v)

/-- `bmap` -/
def bmap (sb : Superblock) (v : Volume) (ip : Dinode) (bn : Nat) : Logs (Nat × Dinode × Volume) :=
  if h : bn < NDIRECT then getAddr sb v ip ⟨bn, Nat.lt_succ_of_lt h⟩
  else if h : bn - NDIRECT < NINDIRECT then do
    let (addr, ip, v) ← getAddr sb v ip (Fin.last NDIRECT)
    let a := v.block addr
    let e : Fin NINDIRECT := ⟨bn - NDIRECT, h⟩
    if a e = 0 then do
      let (b, v) ← balloc sb v
      logWrite addr
      return (b, ip, { v with block := update v.block addr (update a e (BitVec.ofNat 32 b)) })
    else return ((a e).toNat, ip, v)
  else Traced.lift (.panic .outOfRange)

/-- The loop of `writei`. -/
def writeLoop (sb : Superblock) (src : Nat → Byte) : (fuel : Nat) → Volume → (ip : Dinode) →
    (tot off n : Nat) → Logs (Nat × Dinode × Volume)
  | 0, v, ip, tot, off, n => if tot < n then Traced.lift .hang else return (off, ip, v)
  | fuel + 1, v, ip, tot, off, n =>
    if tot < n then do
      let (addr, ip, v) ← bmap sb v ip (off / BSIZE)
      let m := min (n - tot) (BSIZE - off % BSIZE)
      let data := (v.block addr).move (off % BSIZE) (fun t => src (tot + t)) m
      logWrite addr
      writeLoop sb src fuel { v with block := update v.block addr data } ip (tot + m) (off + m) n
    else return (off, ip, v)

/-- `writei` of inode `i`; `iupdate` logs the block of the inode, `IBLOCK(i, sb)`. -/
def writei (sb : Superblock) (inodestart : Nat) (devsw : BitVec 16 → Device) (v : Volume) (i : Nat)
    (ip : Dinode) (src : Nat → Byte) (off n : Word) : Logs (Int × Dinode × Volume) :=
  if ip.type = .dev then
    if ip.major.toInt < 0 ∨ ip.major.toInt ≥ NDEV then return (-1, ip, v)
    else
      match (devsw ip.major).write with
      | none => return (-1, ip, v)
      | some write => return (write src n, ip, v)
  else if off.toNat > ip.size ∨ (off + n).toNat < off.toNat then return (-1, ip, v)
  else if (off + n).toNat > MAXFILE * BSIZE then return (-1, ip, v)
  else do
    let (off, ip, v) ← writeLoop sb src n.toNat v ip 0 off.toNat n.toNat
    if n.toNat > 0 ∧ off > ip.size then do
      let ip := { ip with size := off }
      logWrite (i / IPB + inodestart)
      return ((n.toNat : Int), ip, v.iupdate i ip)
    else return ((n.toNat : Int), ip, v)

end Logged

/-! ### Without the record -/

variable {sb : Superblock} {v v' : Volume} {i : Nat} {ip ip' : Dinode}
variable {l : List Nat} {x a : Nat} {e : BPanic} {k : Fin (NDIRECT + 1)}

@[simp] theorem Logged.balloc_out (sb : Superblock) (v : Volume) :
    (Logged.balloc sb v).out = v.balloc sb := by
  unfold Logged.balloc Logged.logWrite
  cases v.balloc sb <;> simp

@[simp] theorem Logged.getAddr_out (sb : Superblock) (v : Volume) (ip : Dinode)
    (k : Fin (NDIRECT + 1)) : (Logged.getAddr sb v ip k).out = v.getAddr sb ip k := by
  unfold Logged.getAddr Volume.getAddr
  split
  · simp
  · rfl

@[simp] theorem Logged.bmap_out (sb : Superblock) (v : Volume) (ip : Dinode) (bn : Nat) :
    (Logged.bmap sb v ip bn).out = v.bmap sb ip bn := by
  unfold Logged.bmap Volume.bmap
  split
  · simp
  · split
    · rw [bind_out, Logged.getAddr_out]
      congr 1
      funext x
      simp only
      split
      · simp [Logged.logWrite]
      · rfl
    · rfl

@[simp] theorem Logged.writeLoop_out (sb : Superblock) (src : Nat → Byte) (fuel : Nat) (v : Volume)
    (ip : Dinode) (tot off n : Nat) :
    (Logged.writeLoop sb src fuel v ip tot off n).out
      = Volume.writeLoop sb src fuel v ip tot off n := by
  induction fuel generalizing v ip tot off with
  | zero =>
    unfold Logged.writeLoop Volume.writeLoop
    split <;> rfl
  | succ fuel ih =>
    unfold Logged.writeLoop Volume.writeLoop
    split
    · simp [Logged.logWrite, ih]
    · rfl

/-- Without its record, `Logged.writei` is `Volume.writei`. -/
theorem Logged.writei_out (sb : Superblock) (inodestart : Nat) (devsw : BitVec 16 → Device)
    (v : Volume) (i : Nat) (ip : Dinode) (src : Nat → Byte) (off n : Word) :
    (Logged.writei sb inodestart devsw v i ip src off n).out
      = v.writei sb devsw i ip src off n := by
  unfold Logged.writei Volume.writei
  split
  · split
    · rfl
    · cases (devsw ip.major).write <;> rfl
  · split
    · rfl
    · split
      · rfl
      · rw [bind_out, Logged.writeLoop_out]
        congr 1
        funext x
        simp only
        split <;> rfl

/-! ### How many blocks -/

/-- All of `l` but `x` is among `m` blocks. -/
def Within (l : List Nat) (x m : Nat) : Prop :=
  ∃ s : Finset Nat, s.card ≤ m ∧ ∀ b ∈ l, b ∈ s ∨ b = x

theorem Within.nil (x m : Nat) : Within [] x m := ⟨∅, Nat.zero_le _, nofun⟩

theorem Within.mono {m m' : Nat} (h : Within l x m) (hm : m ≤ m') : Within l x m' := by
  obtain ⟨s, hs, hmem⟩ := h
  exact ⟨s, hs.trans hm, hmem⟩

/-- Bounds add up. -/
theorem Within.append {l' : List Nat} {m m' : Nat} (h : Within l x m) (h' : Within l' x m') :
    Within (l ++ l') x (m + m') := by
  obtain ⟨s, hs, hmem⟩ := h
  obtain ⟨t, ht, hmem'⟩ := h'
  refine ⟨s ∪ t, (card_union_le s t).trans (Nat.add_le_add hs ht), fun b hb => ?_⟩
  rcases mem_append.mp hb with hl | hl
  · exact (hmem b hl).imp_left (mem_union_left t)
  · exact (hmem' b hl).imp_left (mem_union_right s)

theorem within_single (b x : Nat) : Within [b] x 1 :=
  ⟨{b}, Nat.le_refl _, fun _ hc => .inl (Finset.mem_singleton.mpr (List.mem_singleton.mp hc))⟩

theorem within_same (x : Nat) : Within [x] x 0 :=
  ⟨∅, Nat.le_refl _, fun _ hc => .inr (List.mem_singleton.mp hc)⟩

/-- A bound on the blocks. -/
theorem Within.card_le {m : Nat} (h : Within l x m) : l.toFinset.card ≤ m + 1 := by
  obtain ⟨s, hs, hmem⟩ := h
  apply (card_le_card (t := insert x s) ?_).trans
  · exact (card_insert_le x s).trans (by omega)
  · intro b hb
    rw [mem_insert]
    exact (hmem b (mem_toFinset.mp hb)).symm

theorem within_after {α β : Type} {o : Outcome BPanic α} {f : α → Logs β} {m : Nat}
    (h : ∀ y, Within (f y).log x m) : Within (Traced.after o f) x m := by
  cases o with
  | ok y => exact h y
  | _ => exact .nil _ _

/-- `balloc` logs a block of the free map and the block itself. -/
theorem balloc_within {b : Nat} (hok : v.balloc sb = .ok (b, v')) :
    (Logged.balloc sb v).log = [sb.bblock b, b] := by
  unfold Logged.balloc
  rw [bind_log, lift_log, lift_out, hok]
  rfl

theorem balloc_panic_log (hp : v.balloc sb = .panic e) : (Logged.balloc sb v).log = [] := by
  unfold Logged.balloc
  rw [bind_log, lift_log, lift_out, hp]
  rfl

/-- What `getAddr` logs. -/
theorem getAddr_log (hok : v.getAddr sb ip k = .ok (a, ip', v')) :
    (Logged.getAddr sb v ip k).log = if ip.addrs k = 0 then [sb.bblock a, a] else [] := by
  unfold Logged.getAddr
  unfold getAddr at hok
  split
  · rename_i hz
    rw [if_pos hz] at hok
    obtain ⟨⟨b, v1⟩, hb, hrest⟩ := bind_eq_ok.mp hok
    cases hrest
    rw [bind_log, Logged.balloc_out, balloc_within hb, hb]
    rfl
  · rfl

theorem getAddr_panic_log (hp : v.getAddr sb ip k = .panic e) :
    (Logged.getAddr sb v ip k).log = [] := by
  unfold Logged.getAddr
  unfold getAddr at hp
  split
  · rename_i hz
    rw [if_pos hz] at hp
    rcases bind_eq_panic.mp hp with hb | ⟨x, -, hx⟩
    · rw [bind_log, Logged.balloc_out, balloc_panic_log hb, hb]
      rfl
    · cases hx
  · rfl

/-- A block of the free map for each place that is filled, and the address itself. -/
theorem getAddr_within (hok : v.getAddr sb ip k = .ok (a, ip', v')) :
    Within (Logged.getAddr sb v ip k).log a (missing v.block ip {.addr k}).card := by
  rw [getAddr_log hok, card_missing_singleton]
  show Within (if ip.addrs k = 0 then _ else _) a (if ip.addrs k = 0 then 1 else 0)
  split
  · exact (within_single _ a).append (within_same a)
  · exact .nil a 0

section

variable {bn a : Nat}

/-- The log of `bmap` beyond the direct blocks: the indirect block, and the entry in it. -/
theorem bmap_log_indirect (hge : ¬bn < NDIRECT) (hlt : bn - NDIRECT < NINDIRECT) {ip1 : Dinode}
    {v1 : Volume} (hget : v.getAddr sb ip (Fin.last NDIRECT) = .ok (a, ip1, v1)) :
    (Logged.bmap sb v ip bn).log = (Logged.getAddr sb v ip (Fin.last NDIRECT)).log
      ++ if v1.block a ⟨bn - NDIRECT, hlt⟩ = 0 then
          (Logged.balloc sb v1).log ++ Traced.after (v1.balloc sb) fun _ => Logged.logWrite a
        else [] := by
  unfold Logged.bmap
  rw [dif_neg hge, dif_pos hlt, Traced.bind_log, Logged.getAddr_out, hget, Traced.after_ok]
  congr 1
  simp only
  split
  · rw [Traced.bind_log, Logged.balloc_out]
    cases v1.balloc sb <;> simp [Logged.logWrite, Traced.after]
  · rfl

/-- The blocks logged for block `bn` of the file, the block itself with them: one, and one of the
    free map for every place that was missing, besides the indirect block. -/
theorem bmap_within (h : v.Owns sb (update v.dinode i ip)) (htype : ip.type ≠ .free)
    (hok : v.bmap sb ip bn = .ok (a, ip', v')) (hx : ip'.indirect ≠ 0 → x = ip'.indirect) :
    Within ((Logged.bmap sb v ip bn).log ++ [a]) x
      ((missing v.block ip (bmapSlots bn)).card + 1) := by
  by_cases hdir : bn < NDIRECT
  · have hget : v.getAddr sb ip ⟨bn, Nat.lt_succ_of_lt hdir⟩ = .ok (a, ip', v') := by
      unfold bmap at hok
      rw [dif_pos hdir] at hok
      exact hok
    unfold bmapSlots Logged.bmap
    rw [if_pos hdir, dif_pos hdir, dataSlot_direct hdir]
    obtain ⟨s, hs, hmem⟩ := getAddr_within hget
    refine ⟨insert a s, (Finset.card_insert_le a s).trans (by omega), fun b hb => .inl ?_⟩
    rw [Finset.mem_insert]
    rcases List.mem_append.mp hb with hl | hl
    · exact (hmem b hl).symm
    · exact .inl (List.mem_singleton.mp hl)
  · unfold bmap at hok
    rw [dif_neg hdir] at hok
    split at hok
    case isFalse => cases hok
    case isTrue hlt =>
      rcases getAddr_ok h htype (last NDIRECT) with hp | ⟨ip1, v1, hget, hg, hne⟩
      · rw [hp] at hok
        cases hok
      rw [bmap_log_indirect hdir hlt hget, bmapSlots_indirect hdir, dataSlot_indirect hdir hlt]
      rw [hget] at hok
      simp only [ok_bind] at hok
      generalize (⟨bn - NDIRECT, hlt⟩ : Fin NINDIRECT) = e at hok ⊢
      have hboth := hg.missing_entry hne e
      have hfirst := getAddr_within hget
      split at hok
      · rename_i hz
        obtain ⟨⟨b, v2⟩, hb, hrest⟩ := bind_eq_ok.mp hok
        cases hrest
        cases hx hne
        rw [if_pos hz] at hboth ⊢
        rw [hb, balloc_within hb]
        -- the block of the free map and the new block, which is logged again with the data
        have hlast : Within ([sb.bblock b, b] ++ [ip'.addrs (last NDIRECT)] ++ [b])
            (ip'.addrs (last NDIRECT)) 2 := by
          refine ⟨{sb.bblock b, b}, Finset.card_le_two, fun c hc => ?_⟩
          simp only [List.cons_append, List.nil_append, List.mem_cons,
            List.not_mem_nil, or_false] at hc
          rw [Finset.mem_insert, Finset.mem_singleton]
          tauto
        have hall := hfirst.append hlast
        rw [← List.append_assoc, ← List.append_assoc] at hall
        rw [← List.append_assoc]
        exact hall.mono (by omega)
      · rename_i hnz
        cases hok
        cases hx hne
        rw [if_neg hnz, List.append_nil]
        exact (hfirst.append (within_single _ _)).mono (by omega)

/-- If there is no block left, what was logged until then. -/
theorem bmap_panic_within (h : v.Owns sb (update v.dinode i ip)) (htype : ip.type ≠ .free)
    (hbn : bn < MAXFILE) (hp : v.bmap sb ip bn = .panic .outOfBlocks) :
    ∃ x, (ip.indirect ≠ 0 → x = ip.indirect) ∧
      Within (Logged.bmap sb v ip bn).log x (missing v.block ip (bmapSlots bn)).card := by
  by_cases hdir : bn < NDIRECT
  · have hget : v.getAddr sb ip ⟨bn, Nat.lt_succ_of_lt hdir⟩ = .panic .outOfBlocks := by
      unfold bmap at hp
      rw [dif_pos hdir] at hp
      exact hp
    refine ⟨ip.indirect, fun _ => rfl, ?_⟩
    unfold Logged.bmap
    rw [dif_pos hdir, getAddr_panic_log hget]
    exact .nil _ _
  · have hlt : bn - NDIRECT < NINDIRECT := by
      unfold MAXFILE at hbn
      omega
    rcases getAddr_ok h htype (last NDIRECT) with hget | ⟨ip1, v1, hget, hg, hne⟩
    · refine ⟨ip.indirect, fun _ => rfl, ?_⟩
      unfold Logged.bmap
      rw [dif_neg hdir, dif_pos hlt, bind_log, Logged.getAddr_out, hget, getAddr_panic_log hget]
      exact .nil _ _
    · refine ⟨ip1.indirect, fun hi => hg.keeps (.addr (last NDIRECT)) hi, ?_⟩
      unfold bmap at hp
      rw [dif_neg hdir, dif_pos hlt, hget] at hp
      simp only [ok_bind] at hp
      rw [bmap_log_indirect hdir hlt hget, bmapSlots_indirect hdir]
      have hmono : (missing v.block ip {.addr (last NDIRECT)}).card
          ≤ (missing v.block ip ({.addr (last NDIRECT)} ∪ {dataSlot bn})).card :=
        card_le_card (filter_subset_filter _ subset_union_left)
      have hfirst := (getAddr_within hget).mono hmono
      split at hp
      · rename_i hz
        rcases bind_eq_panic.mp hp with hb | ⟨y, -, hy⟩
        · rw [if_pos hz, balloc_panic_log hb, hb, after_panic, append_nil, append_nil]
          exact hfirst
        · cases hy
      · cases hp

end

/-- The blocks that the loop of `writei` logs. -/
theorem writeLoop_within (src : Nat → Byte) (n fuel : Nat) {tot off : Nat}
    (h : v.Owns sb (update v.dinode i ip)) (htype : ip.type ≠ .free)
    (hmax : off + (n - tot) ≤ MAXFILE * BSIZE) :
    ∃ x, (ip.indirect ≠ 0 → x = ip.indirect) ∧
      Within (Logged.writeLoop sb src fuel v ip tot off n).log x
        ((blocksOf off (n - tot)).card + v.need ip off (n - tot)) := by
  induction fuel generalizing v ip tot off with
  | zero =>
    refine ⟨ip.indirect, fun _ => rfl, ?_⟩
    unfold Logged.writeLoop
    split <;> exact .nil _ _
  | succ fuel ih =>
    unfold Logged.writeLoop
    split
    case isFalse => exact ⟨ip.indirect, fun _ => rfl, .nil _ _⟩
    case isTrue hlt =>
      have hbn : off / BSIZE < MAXFILE := by
        unfold MAXFILE NINDIRECT NDIRECT BSIZE at *
        omega
      have hpiece := blocksOf_piece off (n := n - tot) (by omega)
      have hcard := card_insert_of_notMem (notMem_blocksOf_rest off (n - tot))
      rw [← hpiece] at hcard
      rw [bind_log, Logged.bmap_out]
      rcases bmap_ok h htype hbn with hp | ⟨ip1, v1, hmap, hg, hne⟩
      · obtain ⟨x, hx, hin⟩ := bmap_panic_within h htype hbn hp
        refine ⟨x, hx, ?_⟩
        rw [hp, after_panic, List.append_nil]
        apply hin.mono
        unfold need
        rw [hpiece, biUnion_insert]
        exact (card_le_card (filter_subset_filter _ subset_union_left)).trans (Nat.le_add_left _ _)
      · have hrest := need_piece (by omega) rfl hg.toKept hne (n := n - tot)
        rw [hmap, after_ok]
        simp only [bind_log, Logged.logWrite, record_log, record_out, after_ok]
        generalize hm : min (n - tot) (BSIZE - off % BSIZE) = m at hrest hcard ⊢
        have hw := Kept.of_write (off / BSIZE) hg.owns' (hg.type htype)
          ((v1.block (slotAddr v1.block ip1 (dataSlot (off / BSIZE)))).move (off % BSIZE)
            (fun t => src (tot + t)) m)
        have hfit : off + m + (n - (tot + m)) ≤ MAXFILE * BSIZE := by omega
        obtain ⟨x, hx, hin⟩ := ih hw.owns' (hg.type htype) hfit
        rw [need_write _ hg.owns' (hg.type htype), Nat.sub_add_eq] at hin
        refine ⟨x, fun hi => ?_, ?_⟩
        · have hsame : ip1.indirect = ip.indirect := hg.keeps (.addr (last NDIRECT)) hi
          rw [hx (by rw [hsame]; exact hi), hsame]
        · have hall := (bmap_within h htype hmap hx).append hin
          rw [List.append_assoc] at hall
          exact hall.mono (by omega)

/-! ### A chunk of `filewrite` -/

/-- What is missing for a write that begins inside a file without holes: only a block that begins
    beyond the size may have no block yet, and the indirect block. -/
theorem need_le {off n : Nat} (hfull : Full v.block ip ip.size) (hoff : off ≤ ip.size) :
    v.need ip off n ≤ ((blocksOf off n).filter fun bn => off ≤ bn * BSIZE).card + 1 := by
  have hsub : missing v.block ip ((blocksOf off n).biUnion bmapSlots)
      ⊆ insert (.addr (last NDIRECT))
        (((blocksOf off n).filter fun bn => off ≤ bn * BSIZE).image dataSlot) := by
    intro σ hσ
    obtain ⟨hmem, hz⟩ := mem_missing.mp hσ
    obtain ⟨bn, hbn, hslot⟩ := Finset.mem_biUnion.mp hmem
    rw [Finset.mem_insert]
    -- a block that begins below the offset is there
    have hdata : σ = dataSlot bn →
        σ ∈ ((blocksOf off n).filter fun bn => off ≤ bn * BSIZE).image dataSlot := by
      rintro rfl
      refine Finset.mem_image_of_mem _ (Finset.mem_filter.mpr ⟨hbn, ?_⟩)
      by_contra hlt
      exact (hfull bn (by omega)).2 hz
    unfold bmapSlots at hslot
    split at hslot
    · exact .inr (hdata (Finset.mem_singleton.mp hslot))
    · rw [Finset.mem_insert, Finset.mem_singleton] at hslot
      exact hslot.imp_right hdata
  apply (Finset.card_le_card hsub).trans
  apply (Finset.card_insert_le _ _).trans
  exact Nat.add_le_add_right Finset.card_image_le 1

/-- The blocks that hold bytes of a chunk, and those of them that begin in it. -/
theorem chunk_blocks (off : Nat) {n : Nat} (hn : n ≤ 1536) :
    (blocksOf off n).card + ((blocksOf off n).filter fun bn => off ≤ bn * BSIZE).card ≤ 7 := by
  rcases Nat.eq_zero_or_pos n with rfl | hpos
  · rw [blocksOf_zero, filter_empty]
    decide
  · have hcard := card_blocksOf off hpos
    by_cases hal : off % BSIZE = 0
    · -- at most three blocks
      have := card_filter_le (blocksOf off n) fun bn => off ≤ bn * BSIZE
      unfold BSIZE at hcard hal
      omega
    · -- at most four, and the first begins before the chunk
      have hsub : (blocksOf off n).filter (fun bn => off ≤ bn * BSIZE)
          ⊆ (blocksOf off n).erase (off / BSIZE) := by
        grind [mem_filter.mp, mem_erase.mpr, BSIZE]
      have hfirst : off / BSIZE ∈ blocksOf off n := by
        rw [blocksOf_piece off hpos]
        exact mem_insert_self _ _
      have hlt := card_le_card hsub
      rw [card_erase_of_mem hfirst] at hlt
      unfold BSIZE at hcard
      omega

/-- A chunk of `filewrite` fits the reservation of its operation: `writei` logs at most
    `MAXOPBLOCKS` blocks. -/
theorem writei_logs (inodestart : Nat) (devsw : BitVec 16 → Device) (src : Nat → Byte)
    (h : v.Sound sb) (htype : (v.dinode i).type ≠ .free) (off n : Word)
    (hn : n.toNat ≤ (MAXOPBLOCKS - 1 - 1 - 2) / 2 * 512) :
    (Logged.writei sb inodestart devsw v i (v.dinode i) src off n).log.toFinset.card
      ≤ MAXOPBLOCKS := by
  have hchunk : n.toNat ≤ 1536 := hn
  -- a call that does not get to the loop logs nothing
  have hnone : ([] : List Nat).toFinset.card ≤ MAXOPBLOCKS := Nat.zero_le _
  unfold Logged.writei
  split
  · split
    · exact hnone
    · cases (devsw (v.dinode i).major).write <;> exact hnone
  · split
    · exact hnone
    · rename_i hoff
      split
      · exact hnone
      · rename_i hmax
        rw [BitVec.toNat_add] at hoff hmax
        have howns := (h.kept_refl i).owns
        have hfull := h.full i htype
        have hfit : off.toNat + (n.toNat - 0) ≤ MAXFILE * BSIZE := by omega
        obtain ⟨x, -, hloop⟩ := writeLoop_within src n.toNat n.toNat howns htype hfit
        rw [Nat.sub_zero] at hloop
        have hneed := need_le (n := n.toNat) hfull (by omega : off.toNat ≤ (v.dinode i).size)
        have hblocks := chunk_blocks off.toNat hchunk
        -- at the end the block of the inode
        have hall := hloop.append (within_after (x := x) (m := 1)
          (o := (Logged.writeLoop sb src n.toNat v (v.dinode i) 0 off.toNat n.toNat).out)
          (f := fun y => if n.toNat > 0 ∧ y.1 > y.2.1.size then do
              Logged.logWrite (i / IPB + inodestart)
              return ((n.toNat : Int), { y.2.1 with size := y.1 },
                y.2.2.iupdate i { y.2.1 with size := y.1 })
            else return ((n.toNat : Int), y.2.1, y.2.2)) fun y => by
          split
          · exact within_single _ _
          · exact .nil _ _)
        exact (hall.mono (by omega : _ ≤ 9)).card_le

/-- The largest chunk at the end of a file of 600 bytes. -/
theorem writei_logs_append : ∃ v : Volume, v.Sound blankBlocks ∧ (v.dinode 1).size = 600
    ∧ (Logged.writei blankBlocks 2 noDevices v 1 (v.dinode 1)
      (fun _ => 8) 600 1536).log.toFinset.card
      ≤ MAXOPBLOCKS := by
  obtain ⟨v, hs, ht⟩ := sound_makeFile
    (Q := fun v => (v.dinode 1).size = 600 ∧ (v.dinode 1).type = .file) (by decide +kernel)
  obtain ⟨hsize, htype⟩ := of_decide_eq_true ht
  exact ⟨v, hs, hsize,
    writei_logs 2 noDevices _ hs (by rw [htype]; exact nofun) 600 1536 (by decide)⟩

end Xv6.Fs
