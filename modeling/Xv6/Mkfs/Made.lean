import Xv6.Mkfs.Append
import Mathlib.Algebra.BigOperators.Group.Finset.Basic

namespace Xv6.Mkfs

open BitVec Fin Fs Function List Outcome State
open scoped BigOperators

/-!
# The files in the image

* `Made` — the files that were put into the image, as lists of bytes;
* `Holds`, `Inv` — the image holds these files, and no other blocks are in use;
* `ialloc_ok`, `iappend_ok` — the functions keep `Inv`, or there is no room.
-/

/-- Inodes 1 to `n`, each with its type and its contents. -/
structure Made where
  n : Nat
  type : Nat → BitVec 16
  data : Nat → List Byte

namespace Made

/-- No files. -/
def none : Made := ⟨0, fun _ => 0, fun _ => []⟩

/-- A file without contents is added. -/
def ialloc (f : Made) (t : BitVec 16) : Made :=
  { n := f.n + 1, type := update f.type (f.n + 1) t, data := update f.data (f.n + 1) [] }

/-- Bytes are appended to a file. -/
def iappend (f : Made) (i : Nat) (p : List Byte) : Made :=
  { f with data := update f.data i (f.data i ++ p) }

/-- The blocks that the files take. -/
def blocks (f : Made) : Nat := ∑ i ∈ Finset.range (f.n + 1), blocksOf (f.data i).length

/-- There are inodes and blocks enough, and no file is too large. -/
structure Fits (f : Made) : Prop where
  inodes : f.n < maxInodes
  sizes : ∀ i, i ≤ f.n → (f.data i).length ≤ MAXFILE * BSIZE
  blocks : nmeta + f.blocks ≤ FSSIZE

/-- An inode takes no block. -/
theorem blocks_ialloc (f : Made) (t : BitVec 16) : (f.ialloc t).blocks = f.blocks := by
  unfold blocks ialloc
  simp only
  rw [Finset.sum_range_succ, update_self, show blocksOf ([] : List Byte).length = 0 from rfl,
    Nat.add_zero]
  refine Finset.sum_congr rfl fun i hi => ?_
  rw [update_of_ne (by have := Finset.mem_range.mp hi; omega)]

/-- An append takes those it reaches. -/
theorem blocks_iappend (f : Made) {i : Nat} (hi : i ≤ f.n) (p : List Byte) :
    (f.iappend i p).blocks + blocksOf (f.data i).length
      = f.blocks + blocksOf (f.data i ++ p).length := by
  have hmem : i ∈ Finset.range (f.n + 1) := Finset.mem_range.mpr (by omega)
  unfold blocks iappend
  simp only
  rw [← Finset.add_sum_erase _ _ hmem,
    ← Finset.add_sum_erase _ (fun j => blocksOf (f.data j).length)
    hmem, update_self]
  have hrest :
    ∑ j ∈ (Finset.range (f.n + 1)).erase i, blocksOf (update f.data i (f.data i ++ p) j).length
      = ∑ j ∈ (Finset.range (f.n + 1)).erase i, blocksOf (f.data j).length := by
    refine Finset.sum_congr rfl fun j hj => ?_
    rw [update_of_ne (Finset.ne_of_mem_erase hj)]
  rw [hrest]
  omega

end Made

/-- Inode `i` has type `t` and contents `c`. -/
structure Holds (s : State) (i : Nat) (t : BitVec 16) (c : List Byte) : Prop where
  kind : t = T_DIR ∨ t = T_FILE
  type : (s.dinode i).type = typeOf t
  size : (s.dinode i).size = c.length
  full : Full s.sector (s.dinode i) c.length
  exact : Exact s.sector (s.dinode i) c.length
  bytes : ∀ k, k < c.length → fileByte s.sector (s.dinode i) k = c.getD k 0

/-- The image holds the files `f`. -/
structure Inv (s : State) (f : Made) : Prop where
  ready : Ready s
  count : s.freeinode.toNat = f.n + 1
  inodes : f.n < maxInodes
  owns : s.view.Owns imageSb s.dinode
  file : ∀ i, 1 ≤ i → i ≤ f.n → Holds s i (f.type i) (f.data i)
  free : ∀ i, i = 0 ∨ f.n < i → (s.dinode i).type = .free ∧ f.data i = []
  blocks : s.freeblock.toNat = nmeta + f.blocks

variable {s s' : State} {f : Made} {i j : Nat} {t : BitVec 16} {c : List Byte}
variable {dn : Nat → Dinode}

theorem Holds.allocated (h : Holds s i t c) : (s.dinode i).type ≠ .free := by
  rw [h.type]
  rcases h.kind with rfl | rfl <;> decide

theorem Holds.not_dev (h : Holds s i t c) : (s.dinode i).type ≠ .dev := by
  rw [h.type]
  rcases h.kind with rfl | rfl <;> decide

/-- Addresses of blocks are beyond the inodes. -/
theorem low_of_owns (h : s.view.Owns imageSb dn) (ht : (dn j).type ≠ .free) (σ : Slot)
    (hne : slotAddr s.sector (dn j) σ ≠ 0) : nmeta ≤ slotAddr s.sector (dn j) σ := by
  have htab : table s.sector dn (j, σ) = slotAddr s.sector (dn j) σ := table_of_type ht
  have hrange := (h.range (j, σ) (by rw [← htab] at hne; exact hne)).1
  exact htab ▸ hrange

/-- The places of an inode depend on the blocks of data only. -/
theorem slotAddr_high {block block' : Nat → Block} {d : Dinode}
    (hsec : ∀ b, nmeta ≤ b → block' b = block b) (hlow : d.indirect ≠ 0 → nmeta ≤ d.indirect) :
    slotAddr block' d = slotAddr block d :=
  slotAddr_congr fun hne => hsec _ (hlow hne)

/-- Another inode is written. -/
theorem Holds.of_high (h : Holds s j t c)
    (hlow : ∀ σ, slotAddr s.sector (s.dinode j) σ ≠ 0 → nmeta ≤ slotAddr s.sector (s.dinode j) σ)
    (hsec : ∀ b, nmeta ≤ b → s'.sector b = s.sector b) (hd : s'.dinode j = s.dinode j) :
    Holds s' j t c := by
  have hslots : slotAddr s'.sector (s.dinode j) = slotAddr s.sector (s.dinode j) :=
    slotAddr_high hsec (hlow (.addr (last NDIRECT)))
  have hblock (k : Nat) (hk : k < c.length) : fileByte s'.sector (s.dinode j) k
      = fileByte s.sector (s.dinode j) k := by
    obtain ⟨-, hne⟩ := h.full (k / BSIZE) (by
      have := Nat.div_mul_le_self k BSIZE
      omega)
    unfold fileByte
    rw [hslots, hsec _ (hlow _ hne)]
  refine ⟨h.kind, ?_, ?_, ?_, ?_, fun k hk => ?_⟩
  · rw [hd]
    exact h.type
  · rw [hd]
    exact h.size
  · rw [hd]
    intro bn hbn
    rw [hslots]
    exact h.full bn hbn
  · rw [hd]
    exact h.exact.of_slots hslots
  · rw [hd, hblock k hk]
    exact h.bytes k hk

/-- The table depends on the blocks of data only. -/
theorem table_high {block block' : Nat → Block} (hsec : ∀ b, nmeta ≤ b → block' b = block b)
    (hlow : ∀ j, (dn j).type ≠ .free → (dn j).indirect ≠ 0 → nmeta ≤ (dn j).indirect) :
    table block' dn = table block dn := by
  funext ⟨j, σ⟩
  by_cases ht : (dn j).type = .free
  · rw [table_of_free ht, table_of_free ht]
  · rw [table_of_type ht, table_of_type ht, slotAddr_high hsec (hlow j ht)]

/-! ### `ialloc` -/

/-- The inode that `ialloc` writes. -/
theorem newDin_dinode (t : BitVec 16) :
    Din.dinode { Din.zero with type := xshort t, nlink := xshort 1, size := xint 0 } =
      { Dinode.zero with type := typeOf t, nlink := 1 } := by
  rw [xshort_eq, xshort_eq, xint_eq]
  rfl

/-- A new file has no contents. -/
theorem holds_new (ht : t = T_DIR ∨ t = T_FILE)
    (hd : s.dinode i = { Dinode.zero with type := typeOf t, nlink := 1 }) : Holds s i t [] := by
  have hslots (σ : Slot) : slotAddr s.sector (s.dinode i) σ = 0 := by
    rw [hd]
    cases σ <;> rfl
  refine ⟨ht, ?_, ?_, ?_, ⟨fun bn _ _ => hslots _, fun _ => hslots (.addr (last NDIRECT))⟩, nofun⟩
  · rw [hd]
  · rw [hd]
    rfl
  · exact fun bn hbn => absurd hbn (Nat.not_lt_zero _)

/-- `ialloc` adds a file. -/
theorem ialloc_ok (h : Inv s f) (hn : f.n + 1 < maxInodes) (ht : t = T_DIR ∨ t = T_FILE) :
    ∃ s', s.ialloc t = .ok (BitVec.ofNat 32 (f.n + 1), s') ∧ Inv s' (f.ialloc t) := by
  have hinum : s.freeinode = BitVec.ofNat 32 (f.n + 1) := by
    rw [← h.count, ofNat_toNat, setWidth_eq]
  have hr1 : Ready { s with freeinode := s.freeinode + 1 } :=
    ⟨h.ready.nsect, h.ready.super, h.ready.low, h.ready.high, h.ready.blank⟩
  obtain ⟨s', hok, hr', hd, hfb, hfi, hsec⟩ := winode_ok hr1
    (show s.freeinode.toNat < maxInodes by rw [h.count]; exact hn)
    { Din.zero with type := xshort t, nlink := xshort 1, size := xint 0 }
  rw [newDin_dinode, h.count] at hd
  change s'.dinode = update s.dinode (f.n + 1) _ at hd
  have hself : s'.dinode (f.n + 1) = { Dinode.zero with type := typeOf t, nlink := 1 } := by
    rw [hd, update_self]
  have hother {j : Nat} (hj : j ≠ f.n + 1) : s'.dinode j = s.dinode j := by
    rw [hd, update_of_ne hj]
  refine ⟨s', ?_, hr', ?_, hn, ?_, fun j hj1 hjn => ?_, fun j hj => ?_, ?_⟩
  · unfold ialloc
    simp only
    rw [hok, hinum]
    rfl
  · rw [hfi]
    show (s.freeinode + 1).toNat = f.n + 1 + 1
    rw [toNat_add, h.count]
    unfold maxInodes ninodeblocks NINODES IPB BSIZE at hn
    show (f.n + 1 + 1) % 2 ^ 32 = _
    omega
  -- The new inode has no blocks, so nobody owns more than before.
  · have htab : table s'.sector s'.dinode = table s.sector s.dinode := by
      rw [← table_high hsec fun j ht => low_of_owns h.owns ht (.addr (last NDIRECT))]
      funext ⟨j, σ⟩
      by_cases hj : j = f.n + 1
      · have hfree := (h.free (f.n + 1) (.inr (by omega))).1
        rw [hj, table_of_free hfree]
        unfold table
        rw [hself]
        split
        · rfl
        · cases σ <;> rfl
      · unfold table
        rw [hother hj]
    have hbit : s'.view.bit = s.view.bit := by
      unfold view
      rw [hfb]
    show Owned _ _ s'.view.bit (table s'.sector s'.dinode)
    rw [htab, hbit]
    exact h.owns
  · by_cases hj : j = f.n + 1
    · rw [hj]
      show Holds s' _ (update f.type (f.n + 1) t (f.n + 1)) (update f.data (f.n + 1) [] (f.n + 1))
      rw [update_self, update_self]
      exact holds_new ht hself
    · show Holds s' _ (update f.type (f.n + 1) t j) (update f.data (f.n + 1) [] j)
      rw [update_of_ne hj, update_of_ne hj]
      change j ≤ f.n + 1 at hjn
      have hfile := h.file j hj1 (by omega)
      exact hfile.of_high (low_of_owns h.owns hfile.allocated) hsec (hother hj)
  · change j = 0 ∨ f.n + 1 < j at hj
    obtain ⟨h1, h2⟩ := h.free j (by omega)
    have hne : j ≠ f.n + 1 := by omega
    refine ⟨by rw [hother hne]; exact h1, ?_⟩
    show update f.data (f.n + 1) [] j = []
    rw [update_of_ne hne]
    exact h2
  · rw [hfb, Made.blocks_ialloc]
    exact h.blocks

/-! ### `iappend` -/

theorem setSize_dinode (d : Din) {n : Nat} (hn : n < 2 ^ 32) :
    Din.dinode { d with size := xint (BitVec.ofNat 32 n) } = { d.dinode with size := n } := by
  unfold Din.dinode
  rw [xint_eq]
  simp only [toNat_ofNat]
  rw [Nat.mod_eq_of_lt hn]

theorem Holds.length_le (h : Holds s i t c) : c.length ≤ MAXFILE * BSIZE := by
  by_contra hlt
  obtain ⟨hm, -⟩ := h.full MAXFILE (by omega)
  exact absurd hm (Nat.lt_irrefl _)

/-- The file that bytes were appended to. -/
theorem Holds.appended {s1 s2 : State} {din1 : Din} {p : List Byte} (h : Holds s i t c)
    (hk : Kept imageSb i s.view (s.dinode i) s1.view din1.dinode)
    (hfull : Full s1.sector din1.dinode (c ++ p).length)
    (hexact : Exact s1.sector din1.dinode (c ++ p).length)
    (hbytes : ∀ k, k < (c ++ p).length → fileByte s1.sector din1.dinode k
      = if c.length ≤ k then p.getD (k - c.length) 0 else fileByte s.sector (s.dinode i) k)
    (hsec : ∀ b, nmeta ≤ b → s2.sector b = s1.sector b)
    (hd : s2.dinode i = { din1.dinode with size := (c ++ p).length }) : Holds s2 i t (c ++ p) := by
  have htype1 := hk.type h.allocated
  have hlow := low_of_owns hk.owns' (j := i) (by rw [update_self]; exact htype1)
  rw [update_self] at hlow
  have hslots : slotAddr s2.sector (s2.dinode i) = slotAddr s1.sector din1.dinode := by
    rw [hd, slotAddr_of_addrs (d := din1.dinode) rfl]
    exact slotAddr_high hsec (hlow (.addr (last NDIRECT)))
  refine ⟨h.kind, ?_, ?_, ?_, ⟨fun bn hbn hle => ?_, fun hle => ?_⟩, fun k hk' => ?_⟩
  · rw [hd]
    show din1.dinode.type = _
    rw [hk.fields]
    exact h.type
  · rw [hd]
  · intro bn hbn
    rw [hslots]
    exact hfull bn hbn
  · rw [hslots]
    exact hexact.data bn hbn hle
  · rw [hd]
    exact hexact.indirect hle
  · obtain ⟨-, hne⟩ := hfull (k / BSIZE) (by
      have := Nat.div_mul_le_self k BSIZE
      omega)
    have hsame : fileByte s2.sector (s2.dinode i) k = fileByte s1.sector din1.dinode k := by
      unfold fileByte
      rw [hslots, hsec _ (hlow _ hne)]
    rw [hsame, hbytes k hk']
    by_cases hkc : c.length ≤ k
    · rw [if_pos hkc, getD_append_right _ _ _ _ hkc]
    · rw [if_neg hkc, getD_append _ _ _ _ (by omega)]
      exact h.bytes k (by omega)

/-- Another file. -/
theorem Holds.other {s1 s2 : State} {ip ip1 : Dinode} (h : Holds s j t c) (hj : j ≠ i)
    (hk : Kept imageSb i s.view ip s1.view ip1)
    (hbytes : ∀ k, k < c.length →
      fileByte s1.sector (s.dinode j) k = fileByte s.sector (s.dinode j) k)
    (hsec : ∀ b, nmeta ≤ b → s2.sector b = s1.sector b) (hd : s2.dinode j = s.dinode j) :
    Holds s2 j t c := by
  have hd1 : s1.dinode = s.dinode := hk.dinode
  have hslots : slotAddr s1.sector (s.dinode j) = slotAddr s.sector (s.dinode j) :=
    hk.others j hj h.allocated
  have h1 : Holds s1 j t c := by
    refine ⟨h.kind, ?_, ?_, ?_, ?_, fun k hk' => ?_⟩
    · rw [hd1]
      exact h.type
    · rw [hd1]
      exact h.size
    · rw [hd1]
      intro bn hbn
      rw [hslots]
      exact h.full bn hbn
    · rw [hd1]
      exact h.exact.of_slots hslots
    · rw [hd1, hbytes k hk']
      exact h.bytes k hk'
  refine h1.of_high ?_ hsec (by rw [hd, hd1])
  have hlow := low_of_owns hk.owns (j := j) (by
    rw [update_of_ne hj]
    exact h.allocated)
  rw [update_of_ne hj] at hlow
  rw [hd1]
  exact hlow

/-- `iappend` appends to a file, or there is no room. -/
theorem iappend_ok (h : Inv s f) (hi1 : 1 ≤ i) (hin : i ≤ f.n) (p : List Byte) :
    (∃ s', s.iappend (BitVec.ofNat 32 i) p = .ok s' ∧ Inv s' (f.iappend i p))
    ∨ (∃ e, s.iappend (BitVec.ofNat 32 i) p = .panic e) ∧ ¬(f.iappend i p).Fits := by
  have hH := h.file i hi1 hin
  have hlt : i < maxInodes := lt_of_le_of_lt hin h.inodes
  have hinum : (BitVec.ofNat 32 i).toNat = i := by
    rw [toNat_ofNat]
    unfold maxInodes ninodeblocks NINODES IPB BSIZE at hlt
    omega
  have hlen : (f.data i ++ p).length = (f.data i).length + (p.length - 0) := by
    rw [length_append]
    omega
  have happ : (f.iappend i p).data i = f.data i ++ p := update_self ..
  obtain ⟨din, hread, hdin⟩ := rinode_ok h.ready (by rw [hinum]; exact hlt)
  rw [hinum] at hdin
  have hsize : (xint din.size).toNat = (f.data i).length := by
    rw [xint_eq, ← hH.size, ← hdin]
    rfl
  have hown : s.view.Owns imageSb (update s.dinode i din.dinode) := by
    rw [hdin, update_eq_self]
    exact h.owns
  have htype : din.dinode.type ≠ .free := by
    rw [hdin]
    exact hH.allocated
  have hblocks := f.blocks_iappend hin p
  have hfb := h.blocks
  have hat : Appending i s din (f.data i).length :=
    ⟨h.ready, hown, htype, by rw [hdin]; exact hH.full, by rw [hdin]; exact hH.exact⟩
  rcases iappendLoop_sim p p.length 0 _ hat (by omega) with ⟨s1, din1, hl⟩ | ⟨⟨e, hpanic⟩, hbad⟩
  · left
    have hrun := hl.run
    have hsim := hl.sim
    have hexact := hl.exact
    have hcount := hl.count
    rw [← hlen] at hrun hsim hexact hcount
    have hmax : (f.data i).length + (p.length - 0) ≤ MAXFILE * BSIZE := by
      have hle := hH.length_le
      by_cases hp : 0 < p.length
      · exact hl.max hp
      · omega
    -- what is known of the kernel's loop
    have hfull0 : Full s.view.block din.dinode din.dinode.size := by
      rw [hdin, hH.size]
      exact hH.full
    rcases writeLoop_ok (fun t => p.getD t 0) p.length htype hfull0 p.length 0 (f.data i).length
      (Kept.refl hown) (by rw [hdin]; exact hH.full) (.inl rfl) (by omega) hmax with
      hp | ⟨ip', v', hok, hk, hfull, -⟩
    · rw [hsim] at hp
      cases hp
    obtain ⟨rfl, rfl⟩ : ip' = din1.dinode ∧ v' = s1.view := by simp_all
    obtain ⟨hself, hothers⟩ := writeLoop_bytes (fun t => p.getD t 0)
      p.length p.length hown htype hmax
      hsim
    rw [← hlen] at hfull
    have hd1 : s1.dinode = s.dinode := hk.dinode
    have hfi : s1.freeinode = s.freeinode := iappendLoop_freeinode hrun
    have hlt32 : (f.data i ++ p).length < 2 ^ 32 := by
      rw [hlen]
      unfold MAXFILE NDIRECT NINDIRECT BSIZE at hmax
      omega
    obtain ⟨s2, hwrite, hr2, hd2, hfb2, hfi2, hsec⟩ := winode_ok hl.ready
      (show (BitVec.ofNat 32 i).toNat < maxInodes by rw [hinum]; exact hlt)
      { din1 with size := xint (BitVec.ofNat 32 (f.data i ++ p).length) }
    rw [setSize_dinode _ hlt32, hinum, hd1] at hd2
    have hdi : s2.dinode i = { din1.dinode with size := (f.data i ++ p).length } := by
      rw [hd2, update_self]
    have hdj {j : Nat} (hj : j ≠ i) : s2.dinode j = s.dinode j := by
      rw [hd2, update_of_ne hj]
    rw [hdin] at hk hself
    refine ⟨s2, ?_, hr2, ?_, h.inodes, ?_, fun j hj1 hjn => ?_, fun j hj => ?_, ?_⟩
    · simp_all [iappend, ok_bind]
    · rw [hfi2, hfi]
      exact h.count
    · -- the places of the inode are those of `din1`
      have htab : table s2.sector s2.dinode = table s1.sector (update s.dinode i din1.dinode) := by
        have hlow (j : Nat) (ht : (update s.dinode i din1.dinode j).type ≠ .free) :=
          low_of_owns hk.owns ht (.addr (last NDIRECT))
        rw [← table_high hsec hlow]
        funext ⟨j, σ⟩
        unfold table
        by_cases hj : j = i
        · rw [hj, hdi, update_self]
          exact congrArg (fun g => if din1.dinode.type = .free then 0 else g σ)
            (slotAddr_of_addrs rfl)
        · rw [hdj hj, update_of_ne hj]
      have hbit : s2.view.bit = s1.view.bit := by
        unfold view
        rw [hfb2]
      show Owned _ _ s2.view.bit (table s2.sector s2.dinode)
      rw [htab, hbit]
      exact hk.owns
    · by_cases hj : j = i
      · rw [hj, happ]
        refine hH.appended hk hfull hexact (fun k hk' => ?_) hsec hdi
        have hdiv : k / BSIZE < MAXFILE := (hfull (k / BSIZE) (by
          have := Nat.div_mul_le_self k BSIZE
          omega)).1
        have hslot : (f.data i).length ≤ k ∧ k < (f.data i).length + (p.length - 0)
            ∨ slotAddr s.view.block (s.dinode i) (dataSlot (k / BSIZE)) ≠ 0 := by
          by_cases hkc : (f.data i).length ≤ k
          · exact .inl (by omega)
          · refine .inr (hH.full (k / BSIZE) ?_).2
            have := Nat.div_mul_le_self k BSIZE
            omega
        have hb := hself k hdiv hslot
        rw [← hlen] at hb
        refine hb.trans ?_
        by_cases hkc : (f.data i).length ≤ k
        · rw [if_pos ⟨hkc, hk'⟩, if_pos hkc, Nat.zero_add]
        · rw [if_neg (fun h => hkc h.1), if_neg hkc]
          rfl
      · have hfile := h.file j hj1 hjn
        have hdata : (f.iappend i p).data j = f.data j := update_of_ne hj ..
        rw [hdata]
        refine hfile.other hj hk (fun k hk' => hothers j k hj hfile.allocated ?_) hsec (hdj hj)
        refine (hfile.full (k / BSIZE) ?_).2
        have := Nat.div_mul_le_self k BSIZE
        omega
    · have hne : j ≠ i := by
        change j = 0 ∨ f.n < j at hj
        omega
      have hdata : (f.iappend i p).data j = f.data j := update_of_ne hne ..
      rw [hdata, hdj hne]
      exact h.free j hj
    · rw [hfb2]
      omega
  · right
    refine ⟨⟨e, ?_⟩, fun hfits => ?_⟩
    · simp_all [iappend, ok_bind, drop_zero]
    · have h1 := hfits.sizes i hin
      have h2 := hfits.blocks
      rw [happ] at h1
      rw [← hlen] at hbad
      omega

end Xv6.Mkfs
