import Xv6.Fs.BlockSpec
import Xv6.Lib.Run

namespace Xv6.Fs

open BitVec Dinode Function Outcome Run Volume

/-!
# Blocks stay with their owners

* `Full`, `Volume.Sound` — no holes in files, blocks with one owner, copies in memory that agree
  with the disk;
* `writeLoop_ok`, `writei_ok`, `readi_ok` — reading and writing;
* `step_sound` — every operation keeps `Sound`, and panics only when blocks or inodes run out;
* `blocks_owned` — what follows for all runs.
-/

/-- The file has all blocks below offset `n`. -/
def Full (block : Nat → Block) (d : Dinode) (n : Nat) : Prop :=
  ∀ bn, bn * BSIZE < n → bn < MAXFILE ∧ slotAddr block d (dataSlot bn) ≠ 0

/-- Every block has its owner, files have no holes, and copies in memory agree with the disk. -/
structure Volume.Sound (sb : Superblock) (v : Volume) : Prop where
  owns : v.Owns sb v.dinode
  full : ∀ i, (v.dinode i).type ≠ .free → Full v.block (v.dinode i) (v.dinode i).size
  copy : ∀ i d, v.mem i = some d → d = v.dinode i ∧ d.type ≠ .free

variable {sb : Superblock} {v v' : Volume} {i : Nat} {ip ip' : Dinode}
variable {block : Nat → Block} {d : Dinode} {n : Nat} {v₀ : Volume}

/-! ### Reading and writing -/

theorem Full.mono {m : Nat} (h : Full block d n) (hmn : m ≤ n) :
    Full block d m := fun bn hbn => h bn (Nat.lt_of_lt_of_le hbn hmn)

/-- A file without holes is no longer than the addresses go. -/
theorem Full.size_le (h : Full block d n) : n ≤ MAXFILE * BSIZE := by
  by_contra hlt
  exact absurd (h MAXFILE (Nat.lt_of_not_le hlt)).1 (Nat.lt_irrefl _)

theorem Full.kept (h : Full v.block ip n) (hk : Kept sb i v ip v' ip') : Full v'.block ip' n := by
  intro bn hbn
  obtain ⟨hlt, hne⟩ := h bn hbn
  exact ⟨hlt, by rw [hk.keeps _ hne]; exact hne⟩

/-- One more piece of a file, in the block where it is full up to. -/
theorem Full.extend {off m : Nat} (h : Full block d off) (hm : m ≤ BSIZE - off % BSIZE)
    (hlt : off / BSIZE < MAXFILE) (hne : slotAddr block d (dataSlot (off / BSIZE)) ≠ 0) :
    Full block d (off + m) := by
  intro bn hbn
  by_cases heq : bn = off / BSIZE
  · rw [heq]
    exact ⟨hlt, hne⟩
  · refine h bn ?_
    unfold BSIZE at *
    omega

theorem dataSlot_ne_indirect (bn : Nat) : dataSlot bn ≠ .addr (Fin.last NDIRECT) := by
  unfold dataSlot
  split
  · grind
  · exact nofun

/-- No inode has a block of data as its indirect block. -/
theorem slotAddr_write (bn : Nat) (h : v.Owns sb (update v.dinode i ip)) (htype : ip.type ≠ .free)
    (x : Block) {j : Nat} (ht : (update v.dinode i ip j).type ≠ .free) :
    slotAddr (update v.block (slotAddr v.block ip (dataSlot bn)) x) (update v.dinode i ip j)
      = slotAddr v.block (update v.dinode i ip j) := by
  refine slotAddr_congr fun hz => update_of_ne (fun he => ?_) ..
  have hself := table_self v.block v.dinode i (dataSlot bn) htype
  have hj : table v.block (update v.dinode i ip) (j, .addr (Fin.last NDIRECT))
      = (update v.dinode i ip j).indirect := table_of_type ht
  have hplace := h.inj _ (i, dataSlot bn) (by rw [hj]; exact hz) (by rw [hj, he, hself])
  exact dataSlot_ne_indirect bn (congrArg Prod.snd hplace).symm

theorem slotAddr_write_self (bn : Nat) (h : v.Owns sb (update v.dinode i ip))
    (htype : ip.type ≠ .free) (x : Block) :
    slotAddr (update v.block (slotAddr v.block ip (dataSlot bn)) x) ip = slotAddr v.block ip := by
  have := slotAddr_write bn h htype x (j := i) (by rw [update_self]; exact htype)
  rwa [update_self] at this

/-- Data are written into a block of the file. -/
theorem Kept.of_write (bn : Nat) (h : v.Owns sb (update v.dinode i ip)) (htype : ip.type ≠ .free)
    (x : Block) :
    Kept sb i v ip { v with block := update v.block (slotAddr v.block ip (dataSlot bn)) x } ip := by
  have hi := slotAddr_write_self bn h htype x
  refine ⟨?_, rfl, rfl, fun σ _ => by rw [hi], fun j hj ht => ?_⟩
  · have htab : table (update v.block (slotAddr v.block ip (dataSlot bn)) x) (update v.dinode i ip)
        = table v.block (update v.dinode i ip) := by
      funext ⟨j, σ⟩
      by_cases ht : (update v.dinode i ip j).type = .free
      · rw [table_of_free ht, table_of_free ht]
      · rw [table_of_type ht, table_of_type ht, slotAddr_write bn h htype x ht]
    show Owned _ _ _ (table _ _)
    rw [htab]
    exact h
  · have := slotAddr_write bn h htype x (by rw [update_of_ne hj]; exact ht)
    rwa [update_of_ne hj] at this

/-- The loop of `writei`: if it changes the inode, it gets beyond the old size. -/
theorem writeLoop_ok {ip₀ : Dinode} (src : Nat → Byte) (n : Nat) (htype : ip₀.type ≠ .free)
    (hfull₀ : Full v₀.block ip₀ ip₀.size) (fuel tot off : Nat) (hk : Kept sb i v₀ ip₀ v ip)
    (hfull : Full v.block ip off) (hsame : ip = ip₀ ∨ ip₀.size < off) (hfuel : n - tot ≤ fuel)
    (hmax : off + (n - tot) ≤ MAXFILE * BSIZE) :
    Volume.writeLoop sb src fuel v ip tot off n = .panic .outOfBlocks
    ∨ ∃ ip' v', Volume.writeLoop sb src fuel v ip tot off n = .ok (off + (n - tot), ip', v')
      ∧ Kept sb i v₀ ip₀ v' ip' ∧ Full v'.block ip' (off + (n - tot))
      ∧ (ip' = ip₀ ∨ ip₀.size < off + (n - tot)) := by
  induction fuel generalizing v ip tot off with
  | zero =>
    have hz : n - tot = 0 := by omega
    unfold writeLoop
    rw [if_neg (by omega), hz]
    exact .inr ⟨ip, v, rfl, hk, hfull, hsame⟩
  | succ fuel ih =>
    unfold writeLoop
    split
    · have hbn : off / BSIZE < MAXFILE := by
        unfold MAXFILE NINDIRECT NDIRECT BSIZE at *
        omega
      rcases bmap_ok hk.owns' (hk.type htype) hbn with hp | ⟨ip1, v1, hok, hg, hne⟩
      · rw [hp]
        exact .inl rfl
      · rw [hok]
        generalize hm : min (n - tot) (BSIZE - off % BSIZE) = m
        have hmod : off % BSIZE < BSIZE := Nat.mod_lt _ (by decide)
        have hrest : off + m + (n - (tot + m)) = off + (n - tot) := by omega
        have hk1 := hk.trans hg.toKept
        have hw := Kept.of_write (off / BSIZE) hk1.owns' (hk1.type htype)
          ((v1.block (slotAddr v1.block ip1 (dataSlot (off / BSIZE)))).move (off % BSIZE)
            (fun t => src (tot + t)) m)
        have hfull1 : Full v1.block ip1 (off + m) :=
          (hfull.kept hg.toKept).extend (by omega) hbn hne
        -- a new block is beyond the old size
        have hsame1 : ip1 = ip₀ ∨ ip₀.size < off + m := by
          by_cases hz : slotAddr v.block ip (dataSlot (off / BSIZE)) = 0
          · refine .inr ?_
            have hge : ip₀.size ≤ off / BSIZE * BSIZE := by
              by_contra hlt
              obtain ⟨-, hne₀⟩ := hfull₀ (off / BSIZE) (by omega)
              rw [hk.keeps _ hne₀] at hz
              exact hne₀ hz
            have := Nat.div_mul_le_self off BSIZE
            omega
          · grind [bmap_of_ne, Prod.mk.inj, Outcome.ok.inj]
        have hnext := ih (tot + m) (off + m) (hk1.trans hw) (hfull1.kept hw) hsame1
          (by omega) (by omega)
        rw [hrest] at hnext
        exact hnext
    · have hz : n - tot = 0 := by omega
      rw [hz]
      exact .inr ⟨ip, v, rfl, hk, hfull, hsame⟩

/-- The byte of a file at an offset. -/
def fileByte (block : Nat → Block) (d : Dinode) (off : Nat) : Byte :=
  (block (slotAddr block d (dataSlot (off / BSIZE)))).byte (off % BSIZE)

/-- The loop of `readi` gives what is in the file, and allocates nothing. -/
theorem readLoop_ok (hfull : Full v.block ip ip.size) (fuel : Nat) {tot off : Nat} {dst : List Byte}
    (hfuel : n - tot ≤ fuel) (hsize : tot < n → off + (n - tot) ≤ ip.size) :
    Volume.readLoop sb fuel v ip tot off n dst
      = .ok (dst ++ (List.range (n - tot)).map fun t => fileByte v.block ip (off + t), ip, v) := by
  induction fuel generalizing tot off dst with
  | zero =>
    have hz : n - tot = 0 := by omega
    unfold readLoop
    rw [if_neg (by omega), hz]
    simp
  | succ fuel ih =>
    unfold readLoop
    split
    · have hdiv := Nat.div_mul_le_self off BSIZE
      obtain ⟨hbn, hne⟩ := hfull (off / BSIZE) (by
        omega)
      rw [bmap_of_ne hbn hne]
      simp only [ok_bind]
      generalize hm : min (n - tot) (BSIZE - off % BSIZE) = m
      have hmod : off % BSIZE < BSIZE := Nat.mod_lt _ (by decide)
      rw [ih (by omega) (by omega), List.append_assoc]
      have hsplit : n - tot = m + (n - (tot + m)) := by omega
      -- the piece lies in one block
      have hpiece (t : Nat) (ht : t < m) : fileByte v.block ip (off + t)
          = (v.block (slotAddr v.block ip (dataSlot (off / BSIZE)))).byte (off % BSIZE + t) := by
        have hd : (off + t) / BSIZE = off / BSIZE := by
          unfold BSIZE at *
          omega
        have hr : (off + t) % BSIZE = off % BSIZE + t := by
          unfold BSIZE at *
          omega
        unfold fileByte
        rw [hd, hr]
      have hdata : (List.range m).map (fun t =>
          (v.block (slotAddr v.block ip (dataSlot (off / BSIZE)))).byte (off % BSIZE + t))
          = (List.range m).map fun t => fileByte v.block ip (off + t) :=
        List.map_congr_left fun t ht => (hpiece t (List.mem_range.mp ht)).symm
      rw [hsplit, List.range_add, List.map_append, List.map_map, hdata]
      simp only [comp_def, Nat.add_assoc]
    · have hz : n - tot = 0 := by omega
      rw [hz]
      simp

/-! ### Operations -/

/-- Inode `i` is written back, with the places of `ip` and a size up to which it is full. -/
theorem Volume.Sound.wrote (h : v.Sound sb) (hk : Kept sb i v (v.dinode i) v' ip)
    (htype : d.type ≠ .free) (htype' : ip.type ≠ .free) (haddrs : d.addrs = ip.addrs)
    (hfull : Full v'.block ip d.size) :
    Volume.Sound sb { v' with
      dinode := update v.dinode i d
      mem := update v.mem i (some d) } := by
  have hslots (block : Nat → Block) : slotAddr block d = slotAddr block ip :=
    slotAddr_of_addrs haddrs
  refine ⟨?_, fun j => ?_, fun j d' => ?_⟩
  · show Owned _ _ _ (table v'.block (update v.dinode i d))
    have htab : table v'.block (update v.dinode i d) = table v'.block (update v.dinode i ip) := by
      funext ⟨j, σ⟩
      by_cases hj : j = i
      · rw [hj, table_self _ _ _ _ htype, table_self _ _ _ _ htype', hslots]
      · unfold table
        rw [update_of_ne hj, update_of_ne hj]
    rw [htab]
    exact hk.owns
  · show (update v.dinode i d j).type ≠ .free →
      Full v'.block (update v.dinode i d j) (update v.dinode i d j).size
    by_cases hj : j = i
    · rw [hj, update_self]
      intro _ bn hbn
      rw [hslots]
      exact hfull bn hbn
    · rw [update_of_ne hj]
      intro ht bn hbn
      rw [hk.others j hj ht]
      exact h.full j ht bn hbn
  · show update v.mem i (some d) j = some d' → d' = update v.dinode i d j ∧ d'.type ≠ .free
    by_cases hj : j = i
    · grind
    · rw [update_of_ne hj, update_of_ne hj]
      exact h.copy j d'

theorem Volume.Sound.kept_refl (h : v.Sound sb) (i : Nat) :
    Kept sb i v (v.dinode i) v (v.dinode i) := by
  refine .refl ?_
  rw [update_eq_self]
  exact h.owns

/-- `ilock` gives what the disk has. -/
theorem ilock_ok (h : v.Sound sb) (i : Nat) : v.ilock i = .panic .noType
    ∨ (v.dinode i).type ≠ .free
      ∧ v.ilock i = .ok (v.dinode i, { v with mem := update v.mem i (some (v.dinode i)) }) := by
  unfold ilock
  split
  · rename_i ip hip
    obtain ⟨rfl, htype⟩ := h.copy i ip hip
    rw [← hip, update_eq_self]
    exact .inr ⟨htype, rfl⟩
  · split
    · exact .inl rfl
    · rename_i htype
      exact .inr ⟨htype, rfl⟩

theorem Volume.Sound.locked (h : v.Sound sb) (htype : (v.dinode i).type ≠ .free) :
    Volume.Sound sb { v with mem := update v.mem i (some (v.dinode i)) } := by
  have := h.wrote (d := v.dinode i) (h.kept_refl i) htype htype rfl (h.full i htype)
  rwa [update_eq_self] at this

/-- `readi` changes nothing. -/
theorem readi_ok (sb : Superblock) (devsw : BitVec 16 → Device) (hfull : Full v.block ip ip.size)
    (off n : Word) :
    ∃ r, v.readi sb devsw ip off n = .ok (r, ip, v) := by
  unfold readi
  split
  · split
    · exact ⟨_, rfl⟩
    · split
      · exact ⟨_, rfl⟩
      · exact ⟨_, rfl⟩
  · split
    · exact ⟨_, rfl⟩
    · simp only
      rw [readLoop_ok hfull _ (Nat.le_of_eq (Nat.sub_zero _)) (fun _ => ?_)]
      · exact ⟨_, rfl⟩
      · rw [toNat_add] at *
        split <;> omega

/-- `writei` runs out of blocks, or returns with the inode written back if it has changed. -/
theorem writei_ok (devsw : BitVec 16 → Device) (src : Nat → Byte) (h : v.Sound sb)
    (htype : (v.dinode i).type ≠ .free) (off n : Word) :
    v.writei sb devsw i (v.dinode i) src off n = .panic .outOfBlocks
    ∨ ∃ r ip' v', v.writei sb devsw i (v.dinode i) src off n = .ok (r, ip', v')
      ∧ Volume.Sound sb { v' with mem := update v'.mem i (some ip') } := by
  have hsame : Sound sb { v with mem := update v.mem i (some (v.dinode i)) } := h.locked htype
  unfold writei
  split
  · split
    · exact .inr ⟨_, _, _, rfl, hsame⟩
    · split
      · exact .inr ⟨_, _, _, rfl, hsame⟩
      · exact .inr ⟨_, _, _, rfl, hsame⟩
  · split
    · exact .inr ⟨_, _, _, rfl, hsame⟩
    · split
      · exact .inr ⟨_, _, _, rfl, hsame⟩
      · rename_i hoff hmax
        rw [toNat_add] at hoff hmax
        have hfull := h.full i htype
        rcases writeLoop_ok src n.toNat htype hfull n.toNat 0 off.toNat (h.kept_refl i)
          (hfull.mono (by omega)) (.inl rfl) (by omega)
          (by omega) with hp | ⟨ip', v', hok, hk, hfull', hsize⟩
        · rw [hp]
          exact .inl rfl
        · rw [hok]
          simp only [ok_bind]
          have hd := hk.dinode
          have hm : v'.mem = v.mem := by rw [hk.rest]
          split
          · refine .inr ⟨_, _, _, rfl, ?_⟩
            have := h.wrote (d := { ip' with size := off.toNat + (n.toNat - 0) }) hk (hk.type htype)
              (hk.type htype) rfl hfull'
            rw [← hd, ← hm] at this
            exact this
          · -- nothing was allocated
            have hsz : ip'.size = (v.dinode i).size := by rw [hk.fields]
            have hip : ip' = v.dinode i := by
              rcases hsize with he | hlt
              · exact he
              · omega
            subst hip
            refine .inr ⟨_, _, _, rfl, ?_⟩
            have := h.wrote (d := v.dinode i) hk htype htype rfl (hfull.kept hk)
            rw [update_eq_self] at this
            rw [hd, hm]
            exact this

/-- `iput` of the last reference to an inode without links frees it with all its blocks. -/
theorem iput_ok (h : v.Sound sb) (i : Nat) (last : Bool) :
    ∃ v', v.iput i last = .ok v' ∧ v'.Sound sb ∧ v'.block = v.block
      ∧ ∀ j, j ≠ i → v'.dinode j = v.dinode j := by
  unfold iput
  split
  · exact ⟨v, rfl, h, rfl, fun _ _ => rfl⟩
  · rename_i ip hip
    obtain ⟨rfl, htype⟩ := h.copy i ip hip
    split
    · obtain ⟨bit, hok, hown⟩ := itrunc_ok (h.kept_refl i).owns htype
      rw [hok]
      generalize hd : ({ v.dinode i with addrs := fun _ => 0, size := 0 } : Dinode) = d
      have hupd : update (update v.dinode i d) i { d with type := .free }
          = update v.dinode i { d with type := .free } := update_idem ..
      refine ⟨_, rfl, ⟨?_, fun j => ?_, fun j d' => ?_⟩, rfl, fun j hj => ?_⟩
      · show Owned _ _ _ (table v.block (update (update v.dinode i d) i { d with type := .free }))
        have htab : table v.block (update v.dinode i { d with type := .free })
            = fun p => if p.1 = i then 0 else table v.block v.dinode p := by
          funext x
          obtain ⟨j, σ⟩ := x
          by_cases hj : j = i
          · rw [hj, table_of_free (by rw [update_self])]
            simp
          · simp only [hj, if_false, table]
            rw [update_of_ne hj]
        rw [hupd, htab]
        exact hown
      · show (update (update v.dinode i d) i { d with type := .free } j).type ≠ .free →
          Full v.block (update (update v.dinode i d) i { d with type := .free } j)
            (update (update v.dinode i d) i { d with type := .free } j).size
        rw [hupd]
        by_cases hj : j = i
        · rw [hj, update_self]
          exact fun hne => absurd rfl hne
        · rw [update_of_ne hj]
          exact h.full j
      · show update v.mem i none j = some d' →
          d' = update (update v.dinode i d) i { d with type := .free } j ∧ d'.type ≠ .free
        rw [hupd]
        by_cases hj : j = i
        · rw [hj, update_self]
          rintro ⟨⟩
        · rw [update_of_ne hj, update_of_ne hj]
          exact h.copy j d'
      · show update (update v.dinode i d) i { d with type := .free } j = _
        rw [hupd, update_of_ne hj]
    · exact ⟨v, rfl, h, rfl, fun _ _ => rfl⟩

/-- The slot of an inode is used for another one. -/
theorem Volume.Sound.recycled (h : v.Sound sb) (i : Nat) :
    Volume.Sound sb { v with mem := update v.mem i none } := by
  refine ⟨h.owns, h.full, fun j d => ?_⟩
  show update v.mem i none j = some d → d = v.dinode j ∧ d.type ≠ .free
  by_cases hj : j = i
  · rw [hj, update_self]
    exact nofun
  · rw [update_of_ne hj]
    exact h.copy j d

/-- `ialloc` finds an inode that has no blocks, or there is none. -/
theorem ialloc_ok (h : v.Sound sb) (type : FileType) : v.ialloc sb type = .panic .noInodes
    ∨ ∃ inum v', v.ialloc sb type = .ok (inum, v') ∧ v'.Sound sb := by
  unfold ialloc
  split
  · rename_i inum hfound
    have hfree : (v.dinode inum).type = .free := by simpa using List.find?_some hfound
    refine .inr ⟨inum, _, rfl, ?_, fun j => ?_, fun j d => ?_⟩
    · show Owned _ _ _ (table v.block (update v.dinode inum { zero with type }))
      have htab : table v.block (update v.dinode inum { zero with type })
          = table v.block v.dinode := by
        funext ⟨j, σ⟩
        by_cases hj : j = inum
        · rw [hj, table_of_free hfree]
          unfold table
          simp only [update_self]
          split
          · rfl
          · cases σ <;> rfl
        · simp only [table]
          rw [update_of_ne hj]
      rw [htab]
      exact h.owns
    · show (update v.dinode inum { zero with type } j).type ≠ .free →
        Full v.block (update v.dinode inum { zero with type } j)
          (update v.dinode inum { zero with type } j).size
      by_cases hj : j = inum
      · rw [hj, update_self]
        exact fun _ bn hbn => absurd hbn (Nat.not_lt_zero _)
      · rw [update_of_ne hj]
        exact h.full j
    · show v.mem j = some d → d = update v.dinode inum { zero with type } j ∧ d.type ≠ .free
      intro hm
      obtain ⟨hd, htype⟩ := h.copy j d hm
      rw [update_of_ne]
      · exact ⟨hd, htype⟩
      · rintro rfl
        exact htype (hd ▸ hfree)
  · exact .inl rfl

/-- Every operation keeps `Sound`, and panics only when there are no blocks or inodes left or the
    inode is not allocated. -/
theorem step_sound (devsw : BitVec 16 → Device) (h : v.Sound sb) (op : Op) :
    (∃ v', v.step sb devsw op = .ok v' ∧ v'.Sound sb)
    ∨ ∃ e, v.step sb devsw op = .panic e ∧ e ∈ [BPanic.outOfBlocks, .noInodes, .noType] := by
  cases op with
  | ialloc type =>
    simp only [step]
    rcases ialloc_ok h type with hp | ⟨inum, v', hok, hs⟩
    · rw [hp]
      exact .inr ⟨_, rfl, by simp⟩
    · rw [hok]
      exact .inl ⟨v', rfl, hs⟩
  | readi i off n =>
    simp only [step]
    rcases ilock_ok h i with hp | ⟨htype, hok⟩
    · rw [hp]
      exact .inr ⟨_, rfl, by simp⟩
    · rw [hok]
      have hs := h.locked htype
      obtain ⟨r, hr⟩ := readi_ok sb devsw (hs.full i htype) off n
      simp only [ok_bind]
      rw [hr]
      exact .inl ⟨_, rfl, hs.locked htype⟩
  | writei i src off n =>
    simp only [step]
    rcases ilock_ok h i with hp | ⟨htype, hok⟩
    · rw [hp]
      exact .inr ⟨_, rfl, by simp⟩
    · rw [hok]
      simp only [ok_bind]
      rcases writei_ok devsw src (h.locked htype) htype off n with hp | ⟨r, ip', v', hw, hs⟩
      · rw [hp]
        exact .inr ⟨_, rfl, by simp⟩
      · rw [hw]
        exact .inl ⟨_, rfl, hs⟩
  | update i major minor nlink =>
    simp only [step]
    rcases ilock_ok h i with hp | ⟨htype, hok⟩
    · rw [hp]
      exact .inr ⟨_, rfl, by simp⟩
    · rw [hok]
      refine .inl ⟨_, rfl, ?_⟩
      have hs := h.locked htype
      have hw := hs.wrote (d := { v.dinode i with major, minor, nlink })
        (hs.kept_refl i) htype htype
        rfl (hs.full i htype)
      exact hw
  | iput i last =>
    obtain ⟨v', hok, hs, -⟩ := iput_ok h i last
    exact .inl ⟨v', hok, hs⟩
  | recycle i => exact .inl ⟨_, rfl, h.recycled i⟩

/-! ### All runs -/

/-- A well-formed image, as it is when the machine starts. -/
structure Volume.WellFormed (sb : Superblock) (v : Volume) : Prop where
  owns : v.Owns sb v.dinode
  full : ∀ i, (v.dinode i).type ≠ .free → Full v.block (v.dinode i) (v.dinode i).size
  mem : ∀ i, v.mem i = none

/-- Over the run. -/
theorem sound_of_reach {devsw : BitVec 16 → Device} (h₀ : v₀.WellFormed sb)
    (h : Reach (Volume.step sb devsw) (fun _ _ => True) v₀ v) : v.Sound sb := by
  refine h.invariant ⟨h₀.owns, h₀.full, fun i d hm => ?_⟩ fun s op s' hs _ hstep => ?_
  · rw [h₀.mem] at hm
    cases hm
  · rcases step_sound devsw hs op with ⟨v', hok, hv'⟩ | ⟨e, hp, -⟩
    · rw [hok] at hstep
      cases hstep
      exact hv'
    · rw [hp] at hstep
      cases hstep

/-- **Blocks have one owner.**  After any operations on a well-formed image: no two places of
    allocated inodes have the address of one block; every such block is in the data area and marked;
    every marked block of the data area has its place; files have no holes; and whatever is done
    next returns or finds no block or inode, so that no free block is ever freed. -/
theorem blocks_owned {devsw : BitVec 16 → Device} {v₀ : Volume} (h₀ : v₀.WellFormed sb)
    (h : Reach (Volume.step sb devsw) (fun _ _ => True) v₀ v) :
    (∀ p q, table v.block v.dinode p ≠ 0 →
      table v.block v.dinode p = table v.block v.dinode q → p = q)
    ∧ (∀ p, table v.block v.dinode p ≠ 0 → sb.dataStart ≤ table v.block v.dinode p
        ∧ table v.block v.dinode p < sb.size ∧ v.bit (table v.block v.dinode p) = true)
    ∧ (∀ b, sb.dataStart ≤ b → b < sb.size → v.bit b = true → ∃! p, table v.block v.dinode p = b)
    ∧ (∀ i, (v.dinode i).type ≠ .free → ∀ bn, bn * BSIZE < (v.dinode i).size →
        bn < MAXFILE ∧ slotAddr v.block (v.dinode i) (dataSlot bn) ≠ 0)
    ∧ ∀ op, (∃ v', v.step sb devsw op = .ok v')
        ∨ ∃ e, v.step sb devsw op = .panic e ∧ e ∈ [BPanic.outOfBlocks, .noInodes, .noType] := by
  have hs := sound_of_reach h₀ h
  refine ⟨hs.owns.inj, fun p hp => ?_, fun b hlo hhi hb => ?_, hs.full, fun op => ?_⟩
  · obtain ⟨hlo, hhi⟩ := hs.owns.range p hp
    exact ⟨hlo, hhi, hs.owns.marked p hp⟩
  · obtain ⟨p, hp⟩ := hs.owns.owner b hlo hhi hb
    have hpos := hs.owns.pos
    refine ⟨p, hp, fun q hq => (hs.owns.inj p q ?_ (hp.trans hq.symm)).symm⟩
    rw [hp]
    omega
  · rcases step_sound devsw hs op with ⟨v', hok, -⟩ | hp
    · exact .inl ⟨v', hok⟩
    · exact .inr hp

/-- A disk of 16 blocks without files. -/
def blankBlocks : Superblock where
  size := 16
  ninodes := 3
  bmapstart := 3
  size_lt := by decide

/-- An empty disk. -/
def blankVolume : Volume where
  bit := fun b => b < 4
  dinode := fun _ => .zero
  block := fun _ _ => 0
  mem := fun _ => none

theorem blankVolume_wellFormed : blankVolume.WellFormed blankBlocks := by
  refine ⟨⟨by decide, fun b hb => decide_eq_true hb, fun p hp => absurd rfl hp,
    fun p hp => absurd rfl hp, fun p q hp => absurd rfl hp, fun b hlo _ hb => ?_⟩,
    fun i hi => absurd rfl hi, fun i => rfl⟩
  have hlt : b < 4 := of_decide_eq_true hb
  have hge : 4 ≤ b := hlo
  omega

/-- No device. -/
def noDevices (_ : BitVec 16) : Device := ⟨none, none⟩

/-- A file of 600 bytes is made. -/
def makeFile : List Op := [.ialloc .file, .writei 1 (fun _ => 7) 0 600, .update 1 0 0 1]

/-- The file system is sound after it. -/
theorem sound_makeFile {Q : Volume → Bool}
    (h : (makeFile.foldlM (Volume.step blankBlocks noDevices) blankVolume).holds Q = true) :
    ∃ v : Volume, v.Sound blankBlocks ∧ Q v = true := by
  obtain ⟨v, hv, ht⟩ := Outcome.holds_iff.mp h
  exact ⟨v, sound_of_reach blankVolume_wellFormed (Reach.of_foldlM (fun _ _ _ => trivial) hv), ht⟩

/-- A file of two blocks. -/
theorem blocks_owned_makeFile :
    ∃ v, Reach (Volume.step blankBlocks noDevices) (fun _ _ => True) blankVolume v
      ∧ (v.dinode 1).size = 600 ∧ v.bit 5 = true ∧ ∃! p, table v.block v.dinode p = 5 := by
  obtain ⟨v, hv, ht⟩ := Outcome.holds_iff.mp
    (show (makeFile.foldlM (Volume.step blankBlocks noDevices) blankVolume).holds
      (fun v => (v.dinode 1).size = 600 ∧ v.bit 5 = true) = true by decide +kernel)
  obtain ⟨hsize, hbit⟩ := of_decide_eq_true ht
  have hr : Reach (Volume.step blankBlocks noDevices) (fun _ _ => True) blankVolume v :=
    Reach.of_foldlM (fun _ _ _ => trivial) hv
  exact ⟨v, hr, hsize, hbit,
    (blocks_owned blankVolume_wellFormed hr).2.2.1 5 (by decide) (by decide) hbit⟩

end Xv6.Fs
