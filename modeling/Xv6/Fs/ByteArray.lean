import Xv6.File
import Xv6.Fs.Available

namespace Xv6.Fs

open BitVec Function List Run

/-!
# Files as byte arrays

`readi` and `writei` on blocks do to the contents of a file what the functions of the same name in
`Xv6.File` do to a list of bytes.

* `contents` — the bytes of a file up to its size;
* `readi_contents`, `writei_contents` — the functions, on contents;
* `file_bytes` — both, with the conditions spelled out.
-/

/-- The contents of a file. -/
def contents (block : Nat → Block) (d : Dinode) : List Byte :=
  (List.range d.size).map (fileByte block d)

/-- `n` bytes at `src`. -/
def bytesAt (src : Nat → Byte) (n : Nat) : List Byte := (List.range n).map src

variable {sb : Superblock} {v v' : Volume} {i j : Nat} {ip : Dinode}

@[simp] theorem length_contents (block : Nat → Block) (d : Dinode) :
    (contents block d).length = d.size := by
  simp [contents]

@[simp] theorem length_bytesAt (src : Nat → Byte) (n : Nat) : (bytesAt src n).length = n := by
  simp [bytesAt]

theorem getElem_contents {block : Nat → Block} {d : Dinode} {k : Nat}
    (hk : k < (contents block d).length) : (contents block d)[k] = fileByte block d k := by
  simp [contents]

theorem getElem_bytesAt {src : Nat → Byte} {n k : Nat} (hk : k < (bytesAt src n).length) :
    (bytesAt src n)[k] = src k := by
  simp [bytesAt]

/-- Bytes `off`, …, `off + src.length - 1` replaced, one at a time. -/
theorem getElem_replaced {l src : List Byte} {off k : Nat} (hoff : off ≤ l.length)
    (hk : k < (l.take off ++ src ++ l.drop (off + src.length)).length) :
    (l.take off ++ src ++ l.drop (off + src.length))[k]
      = if off ≤ k ∧ k < off + src.length then src.getD (k - off) 0 else l.getD k 0 := by
  have htake : (l.take off).length = off := by
    rw [List.length_take]
    omega
  simp only [List.append_assoc]
  simp only [List.length_append, List.length_drop, htake] at hk
  split
  · grind
  · by_cases hlt : k < off
    · rw [List.getElem_append_left (by omega), List.getElem_take,
        List.getD_eq_getElem _ _ (by omega)]
    · rw [List.getElem_append_right (by omega), List.getElem_append_right (by omega),
        List.getElem_drop, List.getD_eq_getElem _ _ (by omega)]
      congr 1
      omega

/-! ### Reading -/

/-- `readi` reads the contents. -/
theorem readi_contents (sb : Superblock) (devsw : BitVec 16 → Device)
    (hfull : Full v.block ip ip.size) (htype : ip.type ≠ .dev) (off n : Word) :
    v.readi sb devsw ip off n = .ok (match Xv6.readi (contents v.block ip) off n with
      | none => ((-1, []), ip, v)
      | some bytes => (((bytes.length : Int), bytes), ip, v)) := by
  rw [readi_bytes sb devsw hfull htype]
  unfold Xv6.readi
  have hlt (a b : Word) : a < b ↔ a.toNat < b.toNat := Iff.rfl
  simp only [length_contents, hlt, gt_iff_lt]
  split
  · rfl
  · have hbytes : ((contents v.block ip).drop off.toNat).take n.toNat
        = (range (min n.toNat (ip.size - off.toNat))).map
          fun t => fileByte v.block ip (off.toNat + t) := by
      apply ext_getElem
      · simp
      · intro t h1 h2
        rw [getElem_take, getElem_drop, getElem_contents, getElem_map, getElem_range]
    simp only [hbytes, length_map, length_range]

/-! ### Writing -/

/-- What a write that fits leaves behind: the inode after it, and every byte of every file. -/
structure Wrote (v : Volume) (i : Nat) (src : Nat → Byte) (off n : Nat)
    (ip' : Dinode) (v' : Volume) :
    Prop where
  dinode : v'.dinode = update v.dinode i ip'
  type : ip'.type = (v.dinode i).type
  size : ip'.size = max (v.dinode i).size (off + n)
  byte : ∀ k, k < ip'.size → fileByte v'.block ip' k
    = if off ≤ k ∧ k < off + n then src (k - off) else fileByte v.block (v.dinode i) k
  others : ∀ j, j ≠ i → (v.dinode j).type ≠ .free →
    contents v'.block (v.dinode j) = contents v.block (v.dinode j)

/-- A write that fits is done, unless there are not as many free blocks as it needs. -/
theorem writei_fits (devsw : BitVec 16 → Device) (src : Nat → Byte) (h : v.Sound sb)
    (htype : (v.dinode i).type ≠ .free) (hdev : (v.dinode i).type ≠ .dev) {off n : Word}
    (hoff : off.toNat ≤ (v.dinode i).size) (hmax : off.toNat + n.toNat ≤ MAXFILE * BSIZE) :
    v.writei sb devsw i (v.dinode i) src off n = .panic .outOfBlocks
        ∧ ¬v.need (v.dinode i) off.toNat n.toNat ≤ (v.free sb).card
    ∨ ∃ ip' v', v.writei sb devsw i (v.dinode i) src off n = .ok ((n.toNat : Int), ip', v')
      ∧ Wrote v i src off.toNat n.toNat ip' v' := by
  have howns := (h.kept_refl i).owns
  have hfull := h.full i htype
  have hsum : (off + n).toNat = off.toNat + n.toNat := by
    rw [toNat_add]
    unfold MAXFILE NINDIRECT NDIRECT BSIZE at hmax
    omega
  rcases writeLoop_ok src n.toNat htype hfull n.toNat 0 off.toNat (h.kept_refl i) (hfull.mono hoff)
    (.inl rfl) (by omega) hmax with hp | ⟨ip', v', hok, hk, hfull', hsize⟩
  · left
    constructor
    · unfold Volume.writei
      rw [if_neg hdev, if_neg (by rw [hsum]; omega), if_neg (by rw [hsum]; omega), hp]
      rfl
    · intro hneed
      exact absurd hp (writeLoop_free src n.toNat n.toNat howns htype hmax hneed)
  obtain ⟨hself, hothers⟩ := writeLoop_bytes src n.toNat n.toNat howns htype hmax hok
  have hsz : ip'.size = (v.dinode i).size := by rw [hk.fields]
  rw [Nat.sub_zero] at hok hfull' hsize hself
  -- bytes below the size had their blocks
  have hbyte (k : Nat) (hlt : k < max (v.dinode i).size (off.toNat + n.toNat)) :
      fileByte v'.block ip' k = if off.toNat ≤ k ∧ k < off.toNat + n.toNat then src (k - off.toNat)
          else fileByte v.block (v.dinode i) k := by
    by_cases hin : off.toNat ≤ k ∧ k < off.toNat + n.toNat
    · rw [hself k (by unfold MAXFILE NINDIRECT NDIRECT BSIZE at *; omega) (.inl hin), Nat.zero_add]
    · have hold : k / BSIZE * BSIZE < (v.dinode i).size := by
        unfold BSIZE
        omega
      obtain ⟨hb, hne⟩ := hfull _ hold
      rw [hself k hb (.inr hne), Nat.zero_add]
  have hcontents (j : Nat) (hj : j ≠ i) (ht : (v.dinode j).type ≠ .free) :
      contents v'.block (v.dinode j) = contents v.block (v.dinode j) := by
    apply map_congr_left
    intro k hlt
    have hold : k / BSIZE * BSIZE < (v.dinode j).size := by
      have := mem_range.mp hlt
      unfold BSIZE
      omega
    exact hothers j k hj ht (h.full j ht _ hold).2
  have hwrite : v.writei sb devsw i (v.dinode i) src off n
      = (if n.toNat > 0 ∧ off.toNat + n.toNat > ip'.size then
          .ok ((n.toNat : Int), { ip' with size := off.toNat + n.toNat },
            v'.iupdate i { ip' with size := off.toNat + n.toNat })
        else .ok ((n.toNat : Int), ip', v')) := by
    unfold Volume.writei
    rw [if_neg hdev, if_neg (by rw [hsum]; omega), if_neg (by rw [hsum]; omega), hok]
    rfl
  have htype' : ip'.type = (v.dinode i).type := by rw [hk.fields]
  rw [hwrite, hsz]
  right
  split
  · rename_i hgrow
    refine ⟨_, _, rfl, ?_, htype', (Nat.max_eq_right (Nat.le_of_lt hgrow.2)).symm, fun k hlt => ?_,
      hcontents⟩
    · show update v'.dinode i _ = _
      rw [hk.dinode]
    · exact hbyte k (lt_max_of_lt_right hlt)
  · -- nothing was allocated
    have hip : ip' = v.dinode i := hsize.resolve_right (by omega)
    have hmax' : max (v.dinode i).size (off.toNat + n.toNat) = (v.dinode i).size :=
      Nat.max_eq_left (by omega)
    refine ⟨_, _, rfl, ?_, htype', ?_, fun k hlt => hbyte k ?_, hcontents⟩
    · rw [hk.dinode, hip, update_eq_self]
    · rw [hmax', hsz]
    · rw [hmax', ← hsz]
      exact hlt

/-- `writei` writes the contents, and no others. -/
theorem writei_contents (devsw : BitVec 16 → Device) (src : Nat → Byte) (h : v.Sound sb)
    (htype : (v.dinode i).type ≠ .free) (hdev : (v.dinode i).type ≠ .dev) {off n : Word}
    (hoff : off.toNat ≤ (v.dinode i).size) (hmax : off.toNat + n.toNat ≤ MAXFILE * BSIZE)
    (hneed : v.need (v.dinode i) off.toNat n.toNat ≤ (v.free sb).card) :
    ∃ ip' v', v.writei sb devsw i (v.dinode i) src off n = .ok ((n.toNat : Int), ip', v')
      ∧ Xv6.writei (contents v.block (v.dinode i)) off (bytesAt src n.toNat)
        = some (contents v'.block ip')
      ∧ v'.dinode = update v.dinode i ip'
      ∧ ∀ j, j ≠ i → (v.dinode j).type ≠ .free →
          contents v'.block (v.dinode j) = contents v.block (v.dinode j) := by
  obtain ⟨ip', v', hok, hd, -, hsize, hbyte, hothers⟩ :=
    (writei_fits devsw src h htype hdev hoff hmax).resolve_left fun hp => hp.2 hneed
  refine ⟨ip', v', hok, ?_, hd, hothers⟩
  have hword : BitVec.ofNat 32 n.toNat = n := by simp
  have hsum : (off + n).toNat = off.toNat + n.toNat := by
    rw [toNat_add]
    unfold MAXFILE NINDIRECT NDIRECT BSIZE at hmax
    omega
  have hguard : ¬((contents v.block (v.dinode i)).length < off.toNat
      ∨ off + BitVec.ofNat 32 (bytesAt src n.toNat).length < off
      ∨ MAXFILESIZE < off.toNat + (bytesAt src n.toNat).length) := by
    rw [length_contents, length_bytesAt, hword, lt_def, hsum]
    show ¬(_ ∨ _ ∨ MAXFILE * BSIZE < _)
    omega
  unfold Xv6.writei
  rw [if_neg hguard]
  congr 1
  apply ext_getElem
  · simp only [length_append, length_take, length_drop, length_contents, length_bytesAt, hsize]
    omega
  · intro k h1 h2
    rw [getElem_replaced (by rwa [length_contents]), getElem_contents h2, length_bytesAt]
    rw [length_contents] at h2
    rw [hbyte k h2]
    split
    · rw [getD_eq_getElem _ _ (by rw [length_bytesAt]; omega), getElem_bytesAt]
    · rw [getD_eq_getElem _ _ (by rw [length_contents]; omega), getElem_contents]

/-- The ranges that `writei` writes. -/
def Fits (size : Nat) (off n : Word) : Prop :=
  off.toNat ≤ size ∧ off.toNat + n.toNat < 2 ^ 32 ∧ off.toNat + n.toNat ≤ MAXFILE * BSIZE

/-- A write that does not fit changes nothing. -/
theorem writei_refused (devsw : BitVec 16 → Device) (src : Nat → Byte) (hdev : ip.type ≠ .dev)
    {off n : Word} (hfit : ¬Fits ip.size off n) :
    v.writei sb devsw i ip src off n = .ok (-1, ip, v) := by
  unfold Volume.writei
  rw [if_neg hdev]
  split
  · rfl
  · rw [if_pos]
    · rfl
    · unfold Fits at hfit
      rw [toNat_add] at *
      omega

/-- Files and directories are byte arrays: `writei` replaces bytes, growing the file if it has to,
    `readi` reads them, and the other files keep theirs. -/
theorem file_bytes (devsw : BitVec 16 → Device) (src : Nat → Byte) (h : v.Sound sb)
    (htype : (v.dinode i).type = .file ∨ (v.dinode i).type = .dir) (off n : Word)
    (hneed : Fits (v.dinode i).size off n →
      v.need (v.dinode i) off.toNat n.toNat ≤ (v.free sb).card) :
    (∃ r ip' v', v.writei sb devsw i (v.dinode i) src off n = .ok (r, ip', v')
      ∧ (r = n.toNat ↔ Fits (v.dinode i).size off n)
      ∧ (Fits (v.dinode i).size off n →
          contents v'.block ip' = (contents v.block (v.dinode i)).take off.toNat
              ++ bytesAt src n.toNat ++ (contents v.block (v.dinode i)).drop (off.toNat + n.toNat)
          ∧ ip'.size = max (v.dinode i).size (off.toNat + n.toNat) ∧ v'.dinode i = ip')
      ∧ (¬Fits (v.dinode i).size off n → r = -1 ∧ ip' = v.dinode i ∧ v' = v)
      ∧ ∀ j, j ≠ i → v'.dinode j = v.dinode j ∧ ((v.dinode j).type ≠ .free →
          contents v'.block (v'.dinode j) = contents v.block (v.dinode j)))
    ∧ v.readi sb devsw (v.dinode i) off n
      = .ok (if off.toNat ≤ (v.dinode i).size ∧ off.toNat + n.toNat < 2 ^ 32 then
          let bytes := ((contents v.block (v.dinode i)).drop off.toNat).take n.toNat
          (((bytes.length : Int), bytes), v.dinode i, v)
        else ((-1, []), v.dinode i, v)) := by
  have hfree : (v.dinode i).type ≠ .free := by
    rcases htype with ht | ht <;> rw [ht] <;> exact nofun
  have hdev : (v.dinode i).type ≠ .dev := by
    rcases htype with ht | ht <;> rw [ht] <;> exact nofun
  constructor
  · by_cases hfit : Fits (v.dinode i).size off n
    · obtain ⟨ip', v', hok, hwrite, hd, hothers⟩ :=
        writei_contents devsw src h hfree hdev hfit.1 hfit.2.2 (hneed hfit)
      refine ⟨_, ip', v', hok, iff_of_true rfl hfit, fun _ => ?_, fun hno => absurd hfit hno, ?_⟩
      · unfold Xv6.writei at hwrite
        split at hwrite
        · cases hwrite
        · have hc := Option.some.inj hwrite
          rw [length_bytesAt] at hc
          refine ⟨hc.symm, ?_, by rw [hd, Function.update_self]⟩
          have hlen := congrArg List.length hc
          have := hfit.1
          simp only [List.length_append, List.length_take, List.length_drop, length_contents,
            length_bytesAt] at hlen
          omega
      · simp_all
    · refine ⟨_, _, _, writei_refused devsw src hdev hfit, ?_, fun hf => absurd hf hfit,
        fun _ => ⟨rfl, rfl, rfl⟩, fun j _ => ⟨rfl, fun _ => rfl⟩⟩
      exact iff_of_false (by omega) hfit
  · rw [readi_contents sb devsw (h.full i hfree) hdev]
    congr 1
    unfold Xv6.readi
    have hguard : (contents v.block (v.dinode i)).length < off.toNat ∨ off + n < off
        ↔ ¬(off.toNat ≤ (v.dinode i).size ∧ off.toNat + n.toNat < 2 ^ 32) := by
      rw [length_contents, BitVec.lt_def, BitVec.toNat_add]
      omega
    by_cases hin : off.toNat ≤ (v.dinode i).size ∧ off.toNat + n.toNat < 2 ^ 32
    · rw [if_pos hin, if_neg (mt hguard.mp (not_not_intro hin))]
    · rw [if_neg hin, if_pos (hguard.mpr hin)]

/-- A file of 600 bytes is written from byte 100 on, and grows by a block. -/
theorem file_bytes_grow : ∃ v : Volume, v.Sound blankBlocks ∧ (v.dinode 1).size = 600
    ∧ ∃ ip' v', v.writei blankBlocks noDevices 1 (v.dinode 1) (fun _ => 8) 100 1000
        = .ok (1000, ip', v')
      ∧ contents v'.block ip'
        = (contents v.block (v.dinode 1)).take 100 ++ bytesAt (fun _ => 8) 1000
          ++ (contents v.block (v.dinode 1)).drop 1100 := by
  obtain ⟨v, hs, ht⟩ := sound_makeFile (Q := fun v => (v.dinode 1).size = 600
    ∧ (v.dinode 1).type = .file ∧ v.need (v.dinode 1) 100 1000 ≤ (v.free blankBlocks).card)
    (by decide +kernel)
  obtain ⟨hsize, htype, hneed⟩ := of_decide_eq_true ht
  have hfit : Fits (v.dinode 1).size 100 1000 := by
    rw [hsize]
    unfold Fits
    decide
  obtain ⟨⟨r, ip', v', hok, hr, hin, -, -⟩, -⟩ :=
    file_bytes noDevices (fun _ => 8) hs (.inl htype) 100 1000 fun _ => hneed
  rw [hr.mpr hfit] at hok
  exact ⟨v, hs, hsize, ip', v', hok, (hin hfit).1⟩

/-- Bytes of the file are asked for, more than there are addresses: nothing is read. -/
theorem readi_wraps : ∃ v : Volume, v.Sound blankBlocks ∧ (v.dinode 1).type = .file
    ∧ ((contents v.block (v.dinode 1)).drop 1).length = 599
    ∧ v.readi blankBlocks noDevices (v.dinode 1) 1 0xffffffff = .ok ((-1, []), v.dinode 1, v) := by
  obtain ⟨v, hs, ht⟩ := sound_makeFile
    (Q := fun v => (v.dinode 1).size = 600 ∧ (v.dinode 1).type = .file) (by decide +kernel)
  obtain ⟨hsize, htype⟩ := of_decide_eq_true ht
  refine ⟨v, hs, htype, ?_, ?_⟩
  · rw [List.length_drop, length_contents, hsize]
  · rw [readi_bytes _ _ (hs.full 1 (by rw [htype]; exact nofun))
      (by rw [htype]; exact nofun), hsize]
    rfl

end Xv6.Fs
