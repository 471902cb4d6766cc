import Xv6.Fs.BlockInv

namespace Xv6.Fs

open Fin Function Prod Volume

/-!
# Contents of files

What is read from a file is what was last written there, and writing to one file leaves the others
alone.

* `byte_move` — bytes of a block after `memmove`;
* `Grown.fileByte`, `fileByte_write` — allocation keeps the bytes of every file, and a write to a
  block changes those that are in the block;
* `writeLoop_bytes` — the loop of `writei`;
* `readi_bytes` — `readi` gives what `fileByte` says.
-/

/-! ### Bytes of a block -/

theorem byte_setByte (b : Block) {k j : Nat} (x : Byte) (hk : k < BSIZE) (hj : j < BSIZE) :
    (b.setByte k x).byte j = if j = k then x else b.byte j := by
  have hfin {n : Nat} (hn : n < BSIZE) : (Fin.ofNat NINDIRECT (n / 4)).val = n / 4 :=
    Nat.mod_eq_of_lt (by unfold NINDIRECT BSIZE at *; omega)
  unfold Block.setByte Block.byte
  by_cases hword : j / 4 = k / 4
  · -- the same word
    rw [hword, update_self, byte_of_word _ _ (Nat.mod_lt _ (by decide)) (Nat.mod_lt _ (by decide))]
    by_cases hjk : j = k
    · rw [if_pos (by rw [hjk]), if_pos hjk]
    · rw [if_neg (by omega), if_neg hjk]
  · grind

/-- The bytes of a block after `memmove`. -/
theorem byte_move (b : Block) {k m j : Nat} (src : Nat → Byte) (hm : k + m ≤ BSIZE)
    (hj : j < BSIZE) :
    (b.move k src m).byte j = if k ≤ j ∧ j < k + m then src (j - k) else b.byte j := by
  unfold Block.move
  induction m with
  | zero =>
    rw [if_neg (by omega)]
    rfl
  | succ m ih =>
    rw [List.range_succ, List.foldl_append, List.foldl_cons, List.foldl_nil,
      byte_setByte _ _ (by omega) hj, ih (by omega)]
    by_cases hjm : j = k + m
    · rw [if_pos hjm, if_pos (by omega), hjm, Nat.add_sub_cancel_left]
    · grind

/-! ### Bytes of files -/

variable {sb : Superblock} {v v' : Volume} {i j k : Nat} {ip ip' : Dinode}
variable {bn : Nat} {x : Block}

theorem dataSlot_inj {a b : Nat} (ha : a < MAXFILE) (hb : b < MAXFILE)
    (h : dataSlot a = dataSlot b) : a = b := by
  have hmod {n : Nat} (hn : n < MAXFILE) : (n - NDIRECT) % NINDIRECT = n - NDIRECT :=
    Nat.mod_eq_of_lt (by unfold MAXFILE NDIRECT NINDIRECT BSIZE at *; omega)
  unfold dataSlot at h
  split at h <;> split at h
  · exact congrArg val (Slot.addr.inj h)
  · cases h
  · cases h
  · have := congrArg val (Slot.entry.inj h)
    simp only [val_ofNat] at this
    rw [hmod ha, hmod hb] at this
    omega

section

variable (hg : Grown sb i v ip v' ip') (h : v.Owns sb (update v.dinode i ip))
variable (htype : ip.type ≠ .free)
include hg h htype

/-- Blocks of data in use are not touched when blocks are allocated. -/
theorem Grown.block_eq {d : Dinode} (hd : update v.dinode i ip j = d) (ht : d.type ≠ .free)
    (hne : slotAddr v.block d (dataSlot bn) ≠ 0) :
    v'.block (slotAddr v.block d (dataSlot bn)) = v.block (slotAddr v.block d (dataSlot bn)) := by
  have htab : table v.block (update v.dinode i ip) (j, dataSlot bn)
      = slotAddr v.block d (dataSlot bn) := by
    rw [table_of_type (by rw [hd]; exact ht), hd]
  rw [← htab] at hne ⊢
  refine hg.blocks _ (h.marked _ hne) fun he => ?_
  have hind : table v.block (update v.dinode i ip) (i, .addr (last NDIRECT)) = ip.indirect :=
    table_self v.block v.dinode i _ htype
  have hplace := h.inj _ _ hne (he.trans hind.symm)
  exact dataSlot_ne_indirect bn (congrArg snd hplace)

/-- Allocation keeps the bytes of the file. -/
theorem Grown.fileByte (hne : slotAddr v.block ip (dataSlot (k / BSIZE)) ≠ 0) :
    fileByte v'.block ip' k = fileByte v.block ip k := by
  unfold Fs.fileByte
  rw [hg.keeps _ hne, hg.block_eq h htype (update_self ..) htype hne]

/-- Allocation keeps the bytes of other files. -/
theorem Grown.fileByte_other (hj : j ≠ i) (ht : (v.dinode j).type ≠ .free)
    (hne : slotAddr v.block (v.dinode j) (dataSlot (k / BSIZE)) ≠ 0) :
    Fs.fileByte v'.block (v.dinode j) k = Fs.fileByte v.block (v.dinode j) k := by
  unfold Fs.fileByte
  rw [hg.others j hj ht, hg.block_eq h htype (update_of_ne hj ..) ht hne]

end

/-- A block of the file is written. -/
theorem fileByte_write (h : v.Owns sb (update v.dinode i ip)) (htype : ip.type ≠ .free)
    (hbn : bn < MAXFILE) (hk : k / BSIZE < MAXFILE)
    (hne : slotAddr v.block ip (dataSlot (k / BSIZE)) ≠ 0) :
    fileByte (update v.block (slotAddr v.block ip (dataSlot bn)) x) ip k
      = if k / BSIZE = bn then x.byte (k % BSIZE) else fileByte v.block ip k := by
  have hw := Kept.of_write bn h htype x
  unfold fileByte
  rw [show slotAddr (update v.block (slotAddr v.block ip (dataSlot bn)) x) ip (dataSlot (k / BSIZE))
    = slotAddr v.block ip (dataSlot (k / BSIZE)) from hw.keeps _ hne]
  by_cases hkb : k / BSIZE = bn
  · rw [if_pos hkb, hkb, update_self]
  · rw [if_neg hkb, update_of_ne fun he => hkb ?_]
    have hself (n : Nat) := table_self v.block v.dinode i (dataSlot n) htype
    rw [← hself] at he hne
    rw [← hself] at he
    exact dataSlot_inj hk hbn (congrArg snd (h.inj _ _ hne he))

/-- A block of another file is written. -/
theorem fileByte_write_other (bn : Nat) (h : v.Owns sb (update v.dinode i ip))
    (htype : ip.type ≠ .free) (hj : j ≠ i) (ht : (v.dinode j).type ≠ .free)
    (hne : slotAddr v.block (v.dinode j) (dataSlot (k / BSIZE)) ≠ 0) :
    fileByte (update v.block (slotAddr v.block ip (dataSlot bn)) x) (v.dinode j) k
      = fileByte v.block (v.dinode j) k := by
  have hw := Kept.of_write bn h htype x
  unfold fileByte
  rw [show slotAddr (update v.block (slotAddr v.block ip (dataSlot bn)) x) (v.dinode j)
    = slotAddr v.block (v.dinode j) from hw.others j hj ht, update_of_ne fun he => hj ?_]
  have htab : table v.block (update v.dinode i ip) (j, dataSlot (k / BSIZE))
      = slotAddr v.block (v.dinode j) (dataSlot (k / BSIZE)) := by
    rw [table_of_type (by rw [update_of_ne hj]; exact ht), update_of_ne hj]
  rw [← htab, ← table_self v.block v.dinode i (dataSlot bn) htype] at he
  rw [← htab] at hne
  exact congrArg fst (h.inj _ _ hne he)

/-- A piece of the file is written into the block where it lies, which is allocated first. -/
theorem fileByte_piece {off m : Nat} (src : Nat → Byte) (hg : Grown sb i v ip v' ip')
    (h : v.Owns sb (update v.dinode i ip)) (htype : ip.type ≠ .free) (hbn : bn = off / BSIZE)
    (hmax : bn < MAXFILE) (hm : off % BSIZE + m ≤ BSIZE)
    (hne : slotAddr v'.block ip' (dataSlot bn) ≠ 0) (hk : k / BSIZE < MAXFILE)
    (hslot : off ≤ k ∧ k < off + m ∨ slotAddr v.block ip (dataSlot (k / BSIZE)) ≠ 0) :
    fileByte (update v'.block (slotAddr v'.block ip' (dataSlot bn))
        ((v'.block (slotAddr v'.block ip' (dataSlot bn))).move (off % BSIZE) src m)) ip' k
      = if off ≤ k ∧ k < off + m then src (k - off) else fileByte v.block ip k := by
  have hmodk : k % BSIZE < BSIZE := Nat.mod_lt _ (by decide)
  -- where bytes of the piece are
  have hin : off ≤ k ∧ k < off + m → k / BSIZE = bn := by
    rw [hbn]
    unfold BSIZE at *
    omega
  have hiff : k / BSIZE = bn →
      (off % BSIZE ≤ k % BSIZE ∧ k % BSIZE < off % BSIZE + m ↔ off ≤ k ∧ k < off + m)
      ∧ k % BSIZE - off % BSIZE = k - off := by
    rw [hbn]
    unfold BSIZE at *
    omega
  have hne' : slotAddr v'.block ip' (dataSlot (k / BSIZE)) ≠ 0 := by
    rcases hslot with hr | hs
    · rw [hin hr]
      exact hne
    · rw [hg.keeps _ hs]
      exact hs
  rw [fileByte_write hg.owns' (hg.type htype) hmax hk hne']
  by_cases hkb : k / BSIZE = bn
  · obtain ⟨hrange, hsub⟩ := hiff hkb
    rw [if_pos hkb, byte_move _ _ hm hmodk]
    by_cases hr : off ≤ k ∧ k < off + m
    · rw [if_pos hr, if_pos (hrange.mpr hr), hsub]
    · rw [if_neg hr, if_neg fun h => hr (hrange.mp h),
        ← hg.fileByte h htype (hslot.resolve_left hr)]
      unfold fileByte
      rw [hkb]
  · rw [if_neg hkb, if_neg fun hr => hkb (hin hr)]
    exact hg.fileByte h htype (hslot.resolve_left fun hr => hkb (hin hr))

/-- The bytes of files after the loop of `writei`. -/
theorem writeLoop_bytes (src : Nat → Byte) (n fuel : Nat) {tot off off' : Nat}
    (h : v.Owns sb (update v.dinode i ip)) (htype : ip.type ≠ .free)
    (hmax : off + (n - tot) ≤ MAXFILE * BSIZE)
    (hok : Volume.writeLoop sb src fuel v ip tot off n = .ok (off', ip', v')) :
    (∀ k, k / BSIZE < MAXFILE →
      (off ≤ k ∧ k < off + (n - tot) ∨ slotAddr v.block ip (dataSlot (k / BSIZE)) ≠ 0) →
      fileByte v'.block ip' k
        = if off ≤ k ∧ k < off + (n - tot) then src (tot + (k - off)) else fileByte v.block ip k)
    ∧ ∀ j k, j ≠ i → (v.dinode j).type ≠ .free →
      slotAddr v.block (v.dinode j) (dataSlot (k / BSIZE)) ≠ 0 →
      fileByte v'.block (v.dinode j) k = fileByte v.block (v.dinode j) k := by
  have hstop : ∀ {v : Volume} {ip : Dinode} {tot off : Nat}, ¬tot < n → (∀ k, k / BSIZE < MAXFILE →
        (off ≤ k ∧ k < off + (n - tot) ∨ slotAddr v.block ip (dataSlot (k / BSIZE)) ≠ 0) →
        fileByte v.block ip k = if off ≤ k ∧ k < off + (n - tot) then src (tot + (k - off))
          else fileByte v.block ip k) := by
    intro v ip tot off hlt k _ _
    rw [if_neg (by omega)]
  induction fuel generalizing v ip tot off with
  | zero => grind [writeLoop]
  | succ fuel ih =>
    unfold writeLoop at hok
    split at hok
    case isFalse hlt =>
      cases hok
      exact ⟨hstop hlt, fun _ _ _ _ _ => rfl⟩
    case isTrue hlt =>
      have hbn : off / BSIZE < MAXFILE := by
        unfold MAXFILE NINDIRECT NDIRECT BSIZE at *
        omega
      rcases bmap_ok h htype hbn with hp | ⟨ip1, v1, hmap, hg, hne⟩
      · rw [hp] at hok
        cases hok
      rw [hmap] at hok
      generalize hm : min (n - tot) (BSIZE - off % BSIZE) = m at hok
      have hmod : off % BSIZE < BSIZE := Nat.mod_lt _ (by decide)
      have hw := Kept.of_write (off / BSIZE) hg.owns' (hg.type htype)
        ((v1.block (slotAddr v1.block ip1 (dataSlot (off / BSIZE)))).move (off % BSIZE)
          (fun t => src (tot + t)) m)
      have hd1 : v1.dinode = v.dinode := hg.dinode
      obtain ⟨hself, hothers⟩ := ih hw.owns' (hg.type htype) (by omega) hok
      refine ⟨fun k hk hslot => ?_, fun j k hj ht hs => ?_⟩
      · rw [hself k hk]
        · have hpiece := fileByte_piece (fun t => src (tot + t)) (m := m) hg h htype rfl hbn
            (by omega) hne hk
          by_cases hrest : off + m ≤ k ∧ k < off + m + (n - (tot + m))
          · rw [if_pos hrest, if_pos (by omega)]
            congr 1
            omega
          · rw [if_neg hrest]
            -- the byte is in this piece, or it stays
            have hin : off ≤ k ∧ k < off + m ∨ slotAddr v.block ip (dataSlot (k / BSIZE)) ≠ 0 := by
              omega
            rw [hpiece hin]
            by_cases hr : off ≤ k ∧ k < off + m
            · rw [if_pos hr, if_pos (by omega)]
            · rw [if_neg hr, if_neg (by omega)]
        · by_cases hrest : off + m ≤ k ∧ k < off + m + (n - (tot + m))
          · exact .inl hrest
          · refine .inr ?_
            have hne1 : slotAddr v1.block ip1 (dataSlot (k / BSIZE)) ≠ 0 := by
              rcases hslot with hr | hs
              · have hkb : k / BSIZE = off / BSIZE := by
                  unfold BSIZE at *
                  omega
                rw [hkb]
                exact hne
              · rw [hg.keeps _ hs]
                exact hs
            rw [hw.keeps _ hne1]
            exact hne1
      · have ht1 : (v1.dinode j).type ≠ .free := by
          rw [hd1]
          exact ht
        have hslot1 : slotAddr v1.block (v1.dinode j) (dataSlot (k / BSIZE)) ≠ 0 := by
          rw [hd1, hg.others j hj ht]
          exact hs
        have hwj := hw.others j hj ht1
        have hlast := hothers j k hj ht1 (by
          rw [show slotAddr _ _ = _ from hwj]
          exact hslot1)
        have hmid := fileByte_write_other (off / BSIZE) (x := (v1.block (slotAddr v1.block ip1
          (dataSlot (off / BSIZE)))).move (off % BSIZE) (fun t => src (tot + t)) m)
          hg.owns' (hg.type htype) hj ht1 hslot1
        have hfirst := hg.fileByte_other h htype hj ht hs
        rw [hd1] at hmid hlast
        exact hlast.trans (hmid.trans hfirst)

/-- `readi` gives the bytes of the file from `off` on, up to its size. -/
theorem readi_bytes (sb : Superblock) (devsw : BitVec 16 → Device)
    (hfull : Full v.block ip ip.size) (htype : ip.type ≠ .dev) (off n : Word) :
    v.readi sb devsw ip off n
      = .ok (if off.toNat > ip.size ∨ (off + n).toNat < off.toNat then ((-1, []), ip, v)
        else
          let m := min n.toNat (ip.size - off.toNat)
          (((m : Int), (List.range m).map fun t => fileByte v.block ip (off.toNat + t)),
            ip, v)) := by
  unfold readi
  rw [if_neg htype]
  split
  · rfl
  · have hsum : (off + n).toNat = off.toNat + n.toNat := by
      rw [BitVec.toNat_add] at *
      omega
    have hm : (if (off + n).toNat > ip.size then ip.size - off.toNat else n.toNat)
        = min n.toNat (ip.size - off.toNat) := by
      split <;> omega
    simp only
    rw [hm, readLoop_ok hfull _ (Nat.le_of_eq (Nat.sub_zero _)) (fun _ => by omega)]
    rfl

end Xv6.Fs
