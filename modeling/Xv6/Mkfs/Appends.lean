import Xv6.Mkfs.Made

namespace Xv6.Mkfs

open BitVec Fs Function List State

/-!
# The kernel reads what mkfs wrote

* `Op`, `State.step`, `Made.step` — files are added and bytes appended, in the image and to lists;
* `Inv.blank`, `run_ok` — the image holds the files after any such steps;
* `finish_ok` — what mkfs does last changes the root directory and the free map only;
* `Reads` — what `readi` returns for a file with given contents;
* `Inv.reads`, `Finished.reads` — it returns the contents of the files.
-/

/-- What the image is filled with. -/
inductive Op where
  | ialloc (t : BitVec 16)
  | iappend (i : Nat) (p : List Byte)

/-- A step of mkfs. -/
def State.step (s : State) : Op → Outcome Stop State
  | .ialloc t => do
    let (_, s) ← s.ialloc t
    return s
  | .iappend i p => s.iappend (BitVec.ofNat 32 i) p

variable {ops : List Op} {op : Op}

namespace Made

/-- The same for lists of bytes. -/
def step (f : Made) : Op → Made
  | .ialloc t => f.ialloc t
  | .iappend i p => f.iappend i p

/-- Directories and files are added, and bytes are appended to what was added. -/
def Allows (f : Made) : Op → Prop
  | .ialloc t => t = T_DIR ∨ t = T_FILE
  | .iappend i _ => 1 ≤ i ∧ i ≤ f.n

/-- The same for one step after another. -/
def Valid (f : Made) : List Op → Prop
  | [] => True
  | op :: ops => f.Allows op ∧ (f.step op).Valid ops

/-- What there is after these steps. -/
def run (f : Made) (ops : List Op) : Made := ops.foldl step f

variable {f : Made}

theorem blocks_mono (h : f.Allows op) : f.blocks ≤ (f.step op).blocks := by
  cases op with
  | ialloc t => exact (f.blocks_ialloc t).ge
  | iappend i p =>
    have hb := f.blocks_iappend h.2 p
    have hm := blocksOf_mono (show (f.data i).length ≤ (f.data i ++ p).length by simp)
    show _ ≤ (f.iappend i p).blocks
    omega

/-- Files that fit did so before. -/
theorem Fits.of_step (h : f.Allows op) (hf : (f.step op).Fits) : f.Fits := by
  have hblocks := blocks_mono h
  have hfits := hf.blocks
  refine ⟨?_, fun i hi => ?_, by omega⟩
  · have := hf.inodes
    cases op with
    | ialloc t => exact Nat.lt_of_succ_lt this
    | iappend i p => exact this
  · cases op with
    | ialloc t =>
      have := hf.sizes i (Nat.le_succ_of_le hi)
      change (update f.data (f.n + 1) [] i).length ≤ _ at this
      rwa [update_of_ne (by omega)] at this
    | iappend j p =>
      have := hf.sizes i hi
      change (update f.data j (f.data j ++ p) i).length ≤ _ at this
      by_cases hij : i = j
      · grind
      · rwa [update_of_ne hij] at this

theorem Fits.of_run (h : f.Valid ops) (hf : (f.run ops).Fits) : f.Fits := by
  induction ops generalizing f with
  | nil => exact hf
  | cons op ops ih => exact Fits.of_step h.1 (ih h.2 hf)

end Made

variable {s s' : State} {f : Made} {i : Nat} {c : List Byte}

/-! ### The image of zeros -/

/-- The sectors are written one after another. -/
theorem zeroes_eq {k : Nat} (hk : k ≤ FSSIZE) :
    (List.range k).foldl (fun (s : State) i => s.wsect (BitVec.ofNat 32 i) fun _ => 0) .empty
      = { State.empty with nsect := k } := by
  induction k with
  | zero => rfl
  | succ k ih =>
    have hval : (BitVec.ofNat 32 k).toNat = k := by
      rw [toNat_ofNat]
      unfold FSSIZE at hk
      omega
    have hseek : seek (BitVec.ofNat 32 k) = k := by
      rw [seek_of_lt (by rw [hval]; unfold FSSIZE at hk; omega), hval]
    have hsect : update State.empty.sector k (fun _ => 0) = State.empty.sector :=
      update_eq_self k State.empty.sector
    rw [range_succ, foldl_append, foldl_cons, foldl_nil, ih (by omega)]
    unfold wsect
    rw [hseek]
    rw [hsect, Nat.max_eq_right (Nat.le_succ k)]

theorem blank_eq : State.blank =
    { State.empty with nsect := FSSIZE, sector := update (fun _ _ => 0) 1 sb.block } := by
  unfold blank
  rw [zeroes_eq (Nat.le_refl _)]
  unfold wsect
  rw [show seek 1 = 1 by decide]
  rfl

theorem getDin_zero (k : Nat) : getDin (fun _ => 0) k = .zero := by
  unfold getDin Din.zero
  simp

theorem blank_sector {b : Nat} (h : b ≠ 1) : State.blank.sector b = fun _ => 0 := by
  rw [blank_eq]
  show update (fun _ _ => (0 : Word)) 1 sb.block b = _
  rw [update_of_ne h]

theorem blank_freeblock : State.blank.freeblock.toNat = nmeta := by
  rw [blank_eq]
  decide

theorem Ready.blank_image : Ready State.blank := by
  refine ⟨?_, ?_, ?_, ?_, fun b hb => blank_sector ?_⟩
  · rw [blank_eq]
  · rw [blank_eq]
    show update (fun _ _ => (0 : Word)) 1 sb.block 1 = sb.block
    rw [update_self]
  · rw [blank_freeblock]
  · rw [blank_freeblock]
    decide
  · rw [blank_freeblock] at hb
    have : 1 < nmeta := by decide
    omega

theorem blank_dinode (i : Nat) : (State.blank.dinode i).type = .free := by
  rw [Ready.blank_image.dinode]
  split
  · rename_i hi
    have := iblock_lt hi
    rw [blank_sector (by omega), getDin_zero]
    rfl
  · rfl

/-- An image without files. -/
theorem Inv.of_free (hr : Ready s) (hfb : s.freeblock.toNat = nmeta) (hfi : s.freeinode.toNat = 1)
    (hfree : ∀ i, (s.dinode i).type = .free) : Inv s .none := by
  have htab (p : Nat × Slot) : table s.sector s.dinode p = 0 := table_of_free (hfree p.1)
  refine ⟨hr, hfi, by decide, ⟨by decide, fun b hb => ?_, fun p hp => ?_, fun p hp => ?_,
    fun p q hp => ?_, fun b hlo _ hb => ?_⟩, fun i h1 h0 => ?_, fun i _ => ⟨hfree i, rfl⟩, ?_⟩
  · exact decide_eq_true (by rw [hfb]; exact hb)
  · exact absurd (htab p) hp
  · exact absurd (htab p) hp
  · exact absurd (htab p) hp
  · have hb : b < s.freeblock.toNat := of_decide_eq_true hb
    rw [dataStart_imageSb] at hlo
    omega
  · change i ≤ 0 at h0
    omega
  · rw [hfb]
    rfl

/-- The image of zeros holds no files. -/
theorem Inv.blank : Inv State.blank .none := by
  apply Inv.of_free Ready.blank_image
  · exact blank_freeblock
  · rw [blank_eq]
    rfl
  · exact blank_dinode

/-- A step that fits. -/
theorem step_ok (h : Inv s f) (ha : f.Allows op) (hf : (f.step op).Fits) :
    ∃ s', s.step op = .ok s' ∧ Inv s' (f.step op) := by
  cases op with
  | ialloc t =>
    obtain ⟨s', hok, hs'⟩ := ialloc_ok h hf.inodes ha
    refine ⟨s', ?_, hs'⟩
    simp only [State.step]
    rw [hok]
    rfl
  | iappend i p =>
    rcases iappend_ok h ha.1 ha.2 p with hok | ⟨-, hno⟩
    · exact hok
    · exact absurd hf hno

/-- All steps, if there is room for everything. -/
theorem run_ok (h : Inv s f) (hv : f.Valid ops) (hf : (f.run ops).Fits) :
    ∃ s', ops.foldlM State.step s = .ok s' ∧ Inv s' (f.run ops) := by
  induction ops generalizing s f with
  | nil => exact ⟨s, rfl, h⟩
  | cons op ops ih =>
    obtain ⟨s1, hok, h1⟩ := step_ok h hv.1 (Made.Fits.of_run hv.2 hf)
    obtain ⟨s', hrun, h'⟩ := ih h1 hv.2 hf
    refine ⟨s', ?_, h'⟩
    rw [foldlM_cons, hok]
    exact hrun

/-! ### What mkfs does last -/

/-- The bits of the free map. -/
theorem usedBits_bit {used b : Nat} (hu : used ≤ BPB) (hb : b < BPB) :
    ((State.usedBits used).byte (b / 8)).getLsbD (b % 8) = decide (b < used) := by
  have hbyte {n : Nat} (hn : n < BPB) : n / 8 < BSIZE := by
    unfold BPB BSIZE at *
    omega
  unfold usedBits
  induction used with
  | zero =>
    simp only [range_zero, foldl_nil]
    unfold Block.byte
    simp
  | succ used ih =>
    rw [range_succ, foldl_append, foldl_cons, foldl_nil,
      byte_setByte _ _ (hbyte (by omega)) (hbyte hb)]
    have hone : (BitVec.ofNat 8 (1 <<< (used % 8))).getLsbD (b % 8)
      = decide (b % 8 = used % 8) := by
      have h1 : used % 8 < 8 := Nat.mod_lt _ (by decide)
      have h2 : b % 8 < 8 := Nat.mod_lt _ (by decide)
      generalize used % 8 = x at *
      generalize b % 8 = y at *
      interval_cases x <;> interval_cases y <;> decide
    by_cases hsame : b / 8 = used / 8
    · grind
    · rw [if_neg hsame, ih (by omega), decide_eq_decide]
      omega

/-- `((off/BSIZE) + 1) * BSIZE` -/
def roundSize (n : Nat) : Nat := (n / BSIZE + 1) * BSIZE

/-- What `main` does after the last file. -/
def State.finish (s : State) (rootino : Word) : Outcome Stop State := do
  let s ← s.fixRoot rootino
  s.balloc s.freeblock

/-- The image at the end: the root directory has another size, and the free map is written. -/
structure Finished (s s' : State) : Prop where
  dinode : s'.volume.dinode
    = update s.dinode ROOTINO { s.dinode ROOTINO with size := roundSize (s.dinode ROOTINO).size }
  sector : ∀ b, nmeta ≤ b → s'.sector b = s.sector b
  bit : ∀ b, b < BPB → s'.volume.bit b = decide (b < s.freeblock.toNat)
  freeinode : s'.freeinode = s.freeinode

/-- The size of the root directory is rounded up. -/
theorem fixRoot_ok (h : Inv s f) (hn : 1 ≤ f.n) :
    ∃ s', s.fixRoot (BitVec.ofNat 32 ROOTINO) = .ok s' ∧ Ready s'
      ∧ s'.dinode = update s.dinode ROOTINO
        { s.dinode ROOTINO with size := roundSize (s.dinode ROOTINO).size }
      ∧ s'.freeblock = s.freeblock ∧ s'.freeinode = s.freeinode
      ∧ ∀ b, nmeta ≤ b → s'.sector b = s.sector b := by
  have hroot : (BitVec.ofNat 32 ROOTINO).toNat = ROOTINO := by decide
  have hlt : (BitVec.ofNat 32 ROOTINO).toNat < maxInodes := by decide
  have hH := h.file ROOTINO (Nat.le_refl _) hn
  have hle := hH.length_le
  rw [← hH.size] at hle
  obtain ⟨din, hread, hdin⟩ := rinode_ok h.ready hlt
  rw [hroot] at hdin
  have hsize : din.size.toNat = (s.dinode ROOTINO).size := by
    rw [← hdin]
    rfl
  have hround : xint ((xint din.size / BitVec.ofNat 32 BSIZE + 1) * BitVec.ofNat 32 BSIZE)
      = xint (BitVec.ofNat 32 (roundSize (s.dinode ROOTINO).size)) := by
    have h1 : (1 : Word).toNat = 1 := rfl
    have h2 : (BitVec.ofNat 32 BSIZE).toNat = BSIZE := by decide
    rw [xint_eq, xint_eq, xint_eq]
    apply eq_of_toNat_eq
    rw [toNat_mul, toNat_add, toNat_udiv, hsize, h1, h2, toNat_ofNat]
    unfold roundSize MAXFILE NDIRECT NINDIRECT BSIZE at *
    omega
  have hround32 : roundSize (s.dinode ROOTINO).size < 2 ^ 32 := by
    unfold roundSize MAXFILE NDIRECT NINDIRECT BSIZE at *
    omega
  obtain ⟨s1, hwrite, hr1, hd1, hrest⟩ := winode_ok h.ready hlt
    { din with size := xint ((xint din.size / BitVec.ofNat 32 BSIZE + 1) * BitVec.ofNat 32 BSIZE) }
  rw [hround, setSize_dinode _ hround32, hdin, hroot] at hd1
  refine ⟨s1, ?_, hr1, hd1, hrest⟩
  unfold fixRoot
  rw [hread]
  exact hwrite

/-- The free map is written. -/
theorem balloc_ok (hr : Ready s) : ∃ s', s.balloc s.freeblock = .ok s' ∧ s'.dinode = s.dinode
      ∧ (∀ b, nmeta ≤ b → s'.sector b = s.sector b)
      ∧ (∀ b, b < BPB → s'.volume.bit b = decide (b < s.freeblock.toNat))
      ∧ s'.freeinode = s.freeinode := by
  have hhigh := hr.high
  have hlow := hr.low
  have hmap : sb.bmapstart.toNat = 2 + nlog + ninodeblocks := by decide
  have hmeta : 2 + nlog + ninodeblocks < nmeta := by decide
  have hint : s.freeblock.toInt = s.freeblock.toNat := by
    rw [toInt_eq_toNat_cond, if_pos]
    unfold FSSIZE at hhigh
    omega
  have hr' := hr.write (b := usedBits s.freeblock.toNat) (n := 2 + nlog + ninodeblocks)
    (by decide) (by omega)
  have hok : s.balloc s.freeblock = .ok { s with
      sector := update s.sector (2 + nlog + ninodeblocks) (usedBits s.freeblock.toNat) } := by
    unfold balloc
    rw [if_pos (by rw [hint]; unfold FSSIZE BSIZE at *; omega), hint, Int.toNat_natCast,
      wsect_eq _ hr (by rw [hmap]; decide), hmap]
  generalize hs' : mk s.nsect (update s.sector (2 + nlog + ninodeblocks)
    (usedBits s.freeblock.toNat)) s.freeinode s.freeblock = s' at hr' hok
  have hsec : s'.sector = update s.sector (2 + nlog + ninodeblocks)
      (usedBits s.freeblock.toNat) := by rw [← hs']
  refine ⟨s', hok, ?_, fun b hb => ?_, fun b hb => ?_, by rw [← hs']⟩
  · -- the inodes are not in that sector
    funext i
    rw [hr'.dinode, hr.dinode, hsec]
    split
    · rename_i hi
      have := iblock_lt hi
      rw [update_of_ne (by omega)]
    · rfl
  · rw [hsec, update_of_ne (by omega)]
  · have h6 : s'.sbWord 6 = 2 + nlog + ninodeblocks := by
      unfold sbWord
      rw [hr'.super]
      decide
    show ((s'.sector (b / BPB + s'.sbWord 6)).byte (b % BPB / 8)).getLsbD (b % 8) = _
    rw [h6, Nat.div_eq_of_lt hb, Nat.mod_eq_of_lt hb, Nat.zero_add, hsec, update_self]
    exact usedBits_bit (by unfold FSSIZE BPB BSIZE at *; omega) hb

theorem finish_ok (h : Inv s f) (hn : 1 ≤ f.n) :
    ∃ s', s.finish (BitVec.ofNat 32 ROOTINO) = .ok s' ∧ Finished s s' := by
  obtain ⟨s1, hfix, hr1, hd1, hfb1, hfi1, hsec1⟩ := fixRoot_ok h hn
  obtain ⟨s2, hballoc, hd2, hsec2, hbit, hfi2⟩ := balloc_ok hr1
  refine ⟨s2, ?_, ?_, fun b hb => ?_, fun b hb => ?_, ?_⟩
  · unfold finish
    rw [hfix]
    exact hballoc
  · exact hd2.trans hd1
  · rw [hsec2 b hb, hsec1 b hb]
  · rw [hbit b hb, hfb1]
  · rw [hfi2, hfi1]

/-! ### Reading -/

/-- For a file with contents `c`, `readi` returns its bytes from `off` on, at most `n` of them. -/
def Reads (v : Volume) (i : Nat) (c : List Byte) : Prop :=
  ∀ (sb : Superblock) (devsw : BitVec 16 → Device) (off n : Word),
    v.readi sb devsw (v.dinode i) off n
      = .ok (if off.toNat > c.length ∨ (off + n).toNat < off.toNat then ((-1, []), v.dinode i, v)
        else
          let bytes := (c.drop off.toNat).take n.toNat
          (((bytes.length : Int), bytes), v.dinode i, v))

/-- The kernel reads the files that the image holds. -/
theorem reads_of_bytes {v : Volume} (htype : (v.dinode i).type ≠ .dev)
    (hsize : (v.dinode i).size = c.length) (hfull : Full v.block (v.dinode i) c.length)
    (hbytes : ∀ k, k < c.length → fileByte v.block (v.dinode i) k = c.getD k 0) : Reads v i c := by
  intro sb devsw off n
  rw [readi_bytes sb devsw (by rw [hsize]; exact hfull) htype, hsize]
  congr 1
  split
  · rfl
  · have hlen : ((c.drop off.toNat).take n.toNat).length = min n.toNat (c.length - off.toNat) := by
      rw [length_take, length_drop]
    have hlist : (range (min n.toNat (c.length - off.toNat))).map
        (fun t => fileByte v.block (v.dinode i) (off.toNat + t))
          = (c.drop off.toNat).take n.toNat := by
      apply ext_getElem
      · rw [length_map, length_range, hlen]
      · intro t h1 h2
        rw [getElem_map, getElem_range, hbytes _ (by omega), getElem_take,
          getElem_drop, getD_eq_getElem]
    simp only
    rw [hlist, hlen]

theorem Inv.reads (h : Inv s f) (hi1 : 1 ≤ i) (hin : i ≤ f.n) : Reads s.volume i (f.data i) := by
  have hH := h.file i hi1 hin
  exact reads_of_bytes hH.not_dev hH.size hH.full hH.bytes

/-- The same at the end, but for the root directory. -/
theorem Finished.reads (hs : Finished s s') (h : Inv s f) (hi1 : ROOTINO < i) (hin : i ≤ f.n) :
    Reads s'.volume i (f.data i) := by
  have hH := h.file i (by unfold ROOTINO at hi1; omega) hin
  have hd : s'.dinode i = s.dinode i := by
    show s'.volume.dinode i = _
    rw [hs.dinode, update_of_ne (by omega)]
  have hH' := hH.of_high (low_of_owns h.owns hH.allocated) hs.sector hd
  exact reads_of_bytes hH'.not_dev hH'.size hH'.full hH'.bytes

end Xv6.Mkfs
