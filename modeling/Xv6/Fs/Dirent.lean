import Xv6.Fs.ByteArray
import Xv6.Fs.CallSpec

namespace Xv6.Fs

open BitVec Function List Node Outcome

/-!
# Directory entries in memory

`namecmp`, `dirlookup` and `dirlink` of `fs.c`, with `strncmp` and `strncpy` of `string.c`, byte by
byte: a name is what is in memory from a pointer on, and a directory is a file that `readi` reads
and `writei` writes.

* `Name.read` — the name that a pointer stands for;
* `namecmp_eq_zero`, `direntBytes_eq` — the string functions work on names;
* `Inodes` — the disk and the inode cache; `Inodes.scan` — the loop through the entries;
* `Inodes.dirlookup`, `Inodes.dirlink`, `Inodes.unlinkEntry` — the functions;
* `Volume.dir` — a directory by its bytes; `scan_eq` — the loop is the search of `Xv6.Fs.Calls`;
* `dirlookup_eq`, `dirlink_eq`, `unlinkEntry_eq` — the functions, on names.
-/

/-! ### Strings -/

/-- `strncmp(p, q, n)` -/
def strncmp : (n : Nat) → (p q : Nat → Byte) → Int
  | 0, _, _ => 0
  | n + 1, p, q =>
    if p 0 ≠ 0 ∧ p 0 = q 0 then strncmp n (fun k => p (k + 1)) fun k => q (k + 1)
    else (p 0).toNat - (q 0).toNat

/-- What `strncpy(s, t, n)` writes to `s`. -/
def strncpy : (n : Nat) → (t : Nat → Byte) → List Byte
  | 0, _ => []
  | n + 1, t => t 0 :: if t 0 = 0 then List.replicate n 0 else strncpy n fun k => t (k + 1)

/-- `namecmp` -/
def namecmp (s t : Nat → Byte) : Int := strncmp DIRSIZ s t

/-- The string at `s`, up to `n` bytes. -/
def cstring (n : Nat) (s : Nat → Byte) : List Byte := ((List.range n).map s).takeWhile (· ≠ 0)

/-- The name at `s`. -/
def Name.read (s : Nat → Byte) : Name := .ofList ((List.range DIRSIZ).map s)

theorem Name.read_val (s : Nat → Byte) : (Name.read s).1 = cstring DIRSIZ s := by
  show takeWhile _ (take DIRSIZ _) = _
  rw [take_of_length_le (by simp)]
  rfl

theorem cstring_succ (n : Nat) (s : Nat → Byte) :
    cstring (n + 1) s = if s 0 = 0 then [] else s 0 :: cstring n fun k => s (k + 1) := by
  unfold cstring
  rw [range_succ_eq_map, map_cons, map_map, takeWhile_cons]
  by_cases h : s 0 = 0
  · simp [h]
  · simp [comp_def]

/-- Strings compare equal if they are, up to `n` bytes. -/
theorem strncmp_eq_zero (n : Nat) (p q : Nat → Byte) :
    strncmp n p q = 0 ↔ cstring n p = cstring n q := by
  induction n generalizing p q with
  | zero => exact iff_of_true rfl rfl
  | succ n ih =>
    rw [cstring_succ, cstring_succ]
    unfold strncmp
    by_cases hp : p 0 = 0
    · -- the first string ends here
      rw [if_neg fun h => h.1 hp, if_pos hp, hp]
      by_cases hq : q 0 = 0
      · simp [hq]
      · rw [if_neg hq]
        refine iff_of_false (fun h => hq ?_) nofun
        exact eq_of_toNat_eq (by simpa using h)
    · rw [if_neg hp]
      by_cases hpq : p 0 = q 0
      · rw [if_pos ⟨hp, hpq⟩, ih, if_neg fun h => hp (hpq.trans h), ← hpq]
        simp
      · rw [if_neg fun h => hpq h.2]
        refine iff_of_false (fun h => hpq ?_) ?_
        · exact eq_of_toNat_eq (by omega)
        · split
          · exact nofun
          · exact fun h => hpq (cons.inj h).1

/-- The string, filled up with zeros. -/
theorem strncpy_getD (n : Nat) (t : Nat → Byte) (k : Nat) :
    (strncpy n t).getD k 0 = (cstring n t).getD k 0 := by
  induction n generalizing t k with
  | zero => rfl
  | succ n ih =>
    rw [cstring_succ]
    unfold strncpy
    by_cases ht : t 0 = 0
    · rw [if_pos ht, if_pos ht, ht]
      cases k <;> simp
    · rw [if_neg ht, if_neg ht]
      cases k with
      | zero => rfl
      | succ k => exact ih (fun j => t (j + 1)) k

/-- Names agree on 14 bytes. -/
theorem namecmp_eq_zero (s t : Nat → Byte) : namecmp s t = 0 ↔ Name.read s = Name.read t := by
  rw [namecmp, strncmp_eq_zero, ← Name.read_val, ← Name.read_val]
  exact ⟨fun h => Subtype.ext h, fun h => congrArg Subtype.val h⟩

/-! ### Entries -/

/-- `de.inum` of an entry in memory. -/
def deInum (de : Nat → Byte) : BitVec 16 := (de 1).setWidth 16 <<< 8 ||| (de 0).setWidth 16

/-- `de.name` of an entry in memory. -/
def deName (de : Nat → Byte) (k : Nat) : Byte := de (2 + k)

/-- The entry that `dirlink` writes: `strncpy(de.name, name, DIRSIZ); de.inum = inum;` -/
def direntBytes (name : Nat → Byte) (inum : Word) : Nat → Byte
  | 0 => inum.setWidth 8
  | 1 => (inum >>> 8).setWidth 8
  | t + 2 => (strncpy DIRSIZ name).getD t 0

/-- `inum` is cut to 16 bits. -/
theorem direntBytes_eq (name : Nat → Byte) (inum : Word) :
    direntBytes name inum = Dirent.byte ⟨inum.setWidth 16, Name.read name⟩ := by
  funext t
  match t with
  | 0 =>
    show inum.setWidth 8 = (inum.setWidth 16).setWidth 8
    ext i hi
    simp
  | 1 =>
    show (inum >>> 8).setWidth 8 = (inum.setWidth 16 >>> 8).setWidth 8
    ext i hi
    simp
    omega
  | t + 2 =>
    show _ = (Name.read name).1.getD t 0
    rw [Name.read_val, ← strncpy_getD]
    rfl

/-! ### The functions -/

/-- The disk with the valid copies of inodes, and the references to slots of the inode cache: `refs`
    has an inode as often as `ip->ref` says. -/
structure Inodes where
  vol : Volume
  refs : List Nat

/-- The panics of functions on directories: their own, and those of the disk. -/
inductive DPanic where
  | dir (e : NPanic)
  | disk (e : BPanic)
  deriving DecidableEq

namespace Inodes

variable (sb : Superblock) (devsw : BitVec 16 → Device)

/-- `iget`: a slot that has the inode, or a free one. -/
def iget (s : Inodes) (i : Nat) : Outcome DPanic Inodes :=
  if i ∈ s.refs then .ok { s with refs := i :: s.refs }
  else if s.refs.dedup.length < NINODE then
    .ok { vol := { s.vol with mem := update s.vol.mem i none }, refs := i :: s.refs }
  else .panic (.dir .igetNoInodes)

/-- `iput` of inode `i` by a process that has locked `dp`: nobody else will release that lock. -/
def iput (s : Inodes) (dp i : Nat) : Outcome DPanic Inodes :=
  if i = dp then .hang
  else do
    let v ← (s.vol.iput i (s.refs.count i = 1)).mapPanic .disk
    return { vol := v, refs := s.refs.erase i }

/-- `for(; off < dp->size; off += sizeof(de))`: entries are read until one passes the test; its
    number, if one does, and the offset where the loop ends. -/
def scan (msg : NPanic) (test : (Nat → Byte) → Bool) : (fuel : Nat) → Volume → (ip : Dinode) →
    (off : Word) → Outcome DPanic (Option (BitVec 16) × Word × Dinode × Volume)
  | 0, _, _, _ => .hang
  | fuel + 1, v, ip, off =>
    if off.toNat < ip.size then do
      let ((r, bytes), ip, v) ← (v.readi sb devsw ip off 16).mapPanic .disk
      let de := fun t => bytes.getD t 0
      if r ≠ DIRENT then .panic (.dir msg)
      else if test de then .ok (some (deInum de), off, ip, v)
      else scan msg test fuel v ip (off + 16)
    else .ok (none, off, ip, v)

/-- `dirlookup(dp, name, &off)`: the number of the inode, a reference to which is taken, and the
    offset of the entry.  `ip` is the copy of the directory in memory. -/
def dirlookup (s : Inodes) (ip : Dinode) (name : Nat → Byte) :
    Outcome DPanic (Option (Nat × Word) × Dinode × Inodes) :=
  if ip.type ≠ .dir then .panic (.dir .dirlookupNotDir)
  else do
    let (found, off, ip, v) ← scan sb devsw .dirlookupRead
      (fun de => deInum de ≠ 0 ∧ namecmp name (deName de) = 0) (ip.size / DIRENT + 2) s.vol ip 0
    match found with
    | none => return (none, ip, { s with vol := v })
    | some inum => do
      let s ← iget { s with vol := v } inum.toNat
      return (some (inum.toNat, off), ip, s)

/-- `dirlink(dp, name, inum)` -/
def dirlink (s : Inodes) (dp : Nat) (ip : Dinode) (name : Nat → Byte) (inum : Word) :
    Outcome DPanic (Int × Dinode × Inodes) := do
  let (found, ip, s) ← s.dirlookup sb devsw ip name
  match found with
  | some (i, _) => do
    let s ← s.iput dp i
    return (-1, ip, s)
  | none => do
    let (_, off, ip, v) ← scan sb devsw .dirlinkRead (fun de => deInum de = 0)
      (ip.size / DIRENT + 2)
      s.vol ip 0
    let (r, ip, v) ← (v.writei sb devsw dp ip (direntBytes name inum) off 16).mapPanic .disk
    if r ≠ DIRENT then .panic (.dir .dirlink) else return (0, ip, { s with vol := v })

/-- What `sys_unlink` does to the directory: the entry is looked up and overwritten with zeros.  The
    reference to the inode is still there, for `ip->nlink--` and `iunlockput(ip)`. -/
def unlinkEntry (s : Inodes) (dp : Nat) (ip : Dinode) (name : Nat → Byte) :
    Outcome DPanic (Int × Dinode × Inodes) := do
  let (found, ip, s) ← s.dirlookup sb devsw ip name
  match found with
  | none => return (-1, ip, s)
  | some (_, off) => do
    let (r, ip, v) ← (s.vol.writei sb devsw dp ip (fun _ => 0) off 16).mapPanic .disk
    if r ≠ DIRENT then .panic (.dir .unlinkWritei) else return (0, ip, { s with vol := v })

end Inodes

/-! ### Directories by their bytes -/

/-- A directory with these bytes. -/
def Node.ofBytes (l : List Byte) : Node where
  type := .dir
  nlink := 0
  size := l.length
  data := fun k => l.getD k 0

/-- Directory `dp`, by its bytes. -/
def Volume.dir (v : Volume) (dp : Nat) : Node := .ofBytes (contents v.block (v.dinode dp))

/-- A directory that a process has a reference to. -/
structure IsDir (sb : Superblock) (dp : Nat) (s : Inodes) : Prop where
  sound : s.vol.Sound sb
  type : (s.vol.dinode dp).type = .dir
  held : dp ∈ s.refs

section

variable {sb : Superblock} {devsw : BitVec 16 → Device} {dp k : Nat} {s : Inodes} {v : Volume}
  {d : Node} {de : Nat → Byte}

@[simp] theorem size_dir (v : Volume) (dp : Nat) : (v.dir dp).size = (v.dinode dp).size :=
  length_contents ..

/-- Bytes of the file are the directory's. -/
theorem data_dir (hk : k < (v.dinode dp).size) :
    (v.dir dp).data k = fileByte v.block (v.dinode dp) k := by
  show (contents v.block (v.dinode dp)).getD k 0 = _
  rw [getD_eq_getElem _ _ (by rwa [length_contents]), getElem_contents]

namespace IsDir

theorem not_free (h : IsDir sb dp s) : (s.vol.dinode dp).type ≠ .free := by
  rw [h.type]
  exact nofun

theorem not_dev (h : IsDir sb dp s) : (s.vol.dinode dp).type ≠ .dev := by
  rw [h.type]
  exact nofun

theorem size_le (h : IsDir sb dp s) : (s.vol.dinode dp).size ≤ MAXFILE * BSIZE :=
  (h.sound.full dp h.not_free).size_le

end IsDir

/-- The bytes give the number. -/
theorem deInum_eq (h : ∀ t, t < DIRENT → de t = d.data (DIRENT * k + t)) :
    deInum de = (d.dirent k).inum := by
  unfold deInum dirent
  rw [h 0 (by decide), h 1 (by decide)]
  rfl

/-- And the name. -/
theorem read_deName (h : ∀ t, t < DIRENT → de t = d.data (DIRENT * k + t)) :
    Name.read (deName de) = (d.dirent k).name := by
  unfold Name.read dirent deName
  congr 1
  refine map_congr_left fun t ht => ?_
  have hlt := mem_range.mp ht
  rw [h _ (by unfold DIRSIZ at hlt; unfold DIRENT; omega), Nat.add_assoc]

/-- One step of a search. -/
theorem search_step {test : Dirent → Bool} (hk : k < d.size / DIRENT) :
    d.search k test = if test (d.dirent k) then .found k else d.search (k + 1) test := by
  unfold search
  have hn : d.size / DIRENT - k = d.size / DIRENT - (k + 1) + 1 := by omega
  rw [hn, range'_succ, find?_cons]
  by_cases ht : test (d.dirent k) = true
  · rw [ht]
    rfl
  · rw [Bool.not_eq_true] at ht
    rw [ht]
    simp only [Bool.false_eq_true, if_false]
    -- both end short or neither does
    have hiff : DIRENT * k < d.size ∧ d.size % DIRENT ≠ 0
        ↔ DIRENT * (k + 1) < d.size ∧ d.size % DIRENT ≠ 0 := by
      unfold DIRENT at *
      omega
    simp only [hiff]

section

variable (h : IsDir sb dp s)
include h

/-- The offset of an entry is a word. -/
theorem IsDir.toNat_off (hk : DIRENT * k ≤ (s.vol.dir dp).size) :
    (BitVec.ofNat 32 (DIRENT * k)).toNat = DIRENT * k := by
  have hsize := h.size_le
  rw [toNat_ofNat, Nat.mod_eq_of_lt]
  unfold MAXFILE NINDIRECT NDIRECT BSIZE at hsize
  rw [size_dir] at hk
  omega

/-- An entry is read in full unless the directory ends in it. -/
theorem readi_entry (devsw : BitVec 16 → Device) (hk : DIRENT * k < (s.vol.dir dp).size) :
    ∃ bytes : List Byte, s.vol.readi sb devsw (s.vol.dinode dp) (BitVec.ofNat 32 (DIRENT * k)) 16
        = .ok (((bytes.length : Int), bytes), s.vol.dinode dp, s.vol)
      ∧ bytes.length = min DIRENT ((s.vol.dir dp).size - DIRENT * k)
      ∧ ∀ t, t < bytes.length → bytes.getD t 0 = (s.vol.dir dp).data (DIRENT * k + t) := by
  have hsize := h.size_le
  have hoff := h.toNat_off (Nat.le_of_lt hk)
  have hguard : ¬((BitVec.ofNat 32 (DIRENT * k)).toNat > (s.vol.dinode dp).size
      ∨ (BitVec.ofNat 32 (DIRENT * k) + 16).toNat < (BitVec.ofNat 32 (DIRENT * k)).toNat) := by
    rw [size_dir] at hk
    unfold MAXFILE NINDIRECT NDIRECT BSIZE at hsize
    rw [toNat_add, hoff]
    show ¬(_ ∨ (_ + 16) % _ < _)
    omega
  refine ⟨(range (min DIRENT ((s.vol.dir dp).size - DIRENT * k))).map
    fun t => fileByte s.vol.block (s.vol.dinode dp) (DIRENT * k + t), ?_, by simp, fun t ht => ?_⟩
  · rw [readi_bytes sb devsw (h.sound.full dp h.not_free) h.not_dev, if_neg hguard,
      hoff, length_map,
      length_range, size_dir]
    rfl
  · rw [length_map, length_range, size_dir] at ht
    rw [getD_eq_getElem _ _ (by simpa using ht), getElem_map, getElem_range, data_dir (by omega)]

/-- The loop is a search. -/
theorem scan_eq (devsw : BitVec 16 → Device) (msg : NPanic) (f : (Nat → Byte) → Bool)
    (g : Dirent → Bool)
    (ht : ∀ k de, (∀ t, t < DIRENT → de t = (s.vol.dir dp).data (DIRENT * k + t)) →
      f de = g ((s.vol.dir dp).dirent k))
    (fuel : Nat) (hk : DIRENT * k ≤ (s.vol.dir dp).size)
    (hfuel : (s.vol.dir dp).size / DIRENT + 2 ≤ fuel + k) :
    Inodes.scan sb devsw msg f fuel s.vol (s.vol.dinode dp) (BitVec.ofNat 32 (DIRENT * k))
      = match (s.vol.dir dp).search k g with
        | .found j => .ok (some ((s.vol.dir dp).dirent j).inum, BitVec.ofNat 32 (DIRENT * j),
            s.vol.dinode dp, s.vol)
        | .none => .ok (none, BitVec.ofNat 32 (s.vol.dir dp).size, s.vol.dinode dp, s.vol)
        | .short => .panic (.dir msg) := by
  induction fuel generalizing k with
  | zero =>
    unfold DIRENT at *
    omega
  | succ fuel ih =>
    have hsize := h.size_le
    have hoff := h.toNat_off hk
    unfold Inodes.scan
    by_cases hlt : DIRENT * k < (s.vol.dir dp).size
    · obtain ⟨bytes, hread, hlen, hbytes⟩ := readi_entry h devsw hlt
      rw [if_pos (by rw [hoff, ← size_dir]; exact hlt), hread]
      simp only [mapPanic, ok_bind]
      by_cases hfull : k < (s.vol.dir dp).size / DIRENT
      · have hde : bytes.length = DIRENT := by
          rw [hlen]
          unfold DIRENT at *
          omega
        rw [hde] at hbytes ⊢
        rw [if_neg (not_not_intro rfl), search_step hfull, ht k _ hbytes, deInum_eq hbytes]
        by_cases hg : g ((s.vol.dir dp).dirent k) = true
        · rw [if_pos hg, if_pos hg]
        · have hnext : BitVec.ofNat 32 (DIRENT * k) + 16 = BitVec.ofNat 32 (DIRENT * (k + 1)) := by
            rw [Nat.mul_succ, BitVec.ofNat_add]
            rfl
          rw [if_neg hg, if_neg hg, hnext, ih (by unfold DIRENT at *; omega) (by omega)]
      · -- the last entry is not complete
        have hshort : (s.vol.dir dp).search k g = .short := by
          unfold search
          rw [show (s.vol.dir dp).size / DIRENT - k = 0 by omega, range'_zero, find?_nil]
          exact if_pos ⟨hlt, by unfold DIRENT at *; omega⟩
        rw [hshort, if_pos]
        unfold DIRENT at *
        omega
    · have hnone : (s.vol.dir dp).search k g = .none := by
        unfold search
        rw [show (s.vol.dir dp).size / DIRENT - k = 0 by unfold DIRENT at *; omega, range'_zero,
          find?_nil]
        exact if_neg fun h => hlt h.1
      rw [if_neg (by rw [hoff, ← size_dir]; exact hlt), hnone,
        show DIRENT * k = (s.vol.dir dp).size by omega]

/-! ### The functions, on names -/

/-- `dirlookup` finds the first entry in use that has the name. -/
theorem dirlookup_eq (devsw : BitVec 16 → Device) (name : Nat → Byte) :
    s.dirlookup sb devsw (s.vol.dinode dp) name
      = match (s.vol.dir dp).lookup (Name.read name) with
        | .found k => do
          let s' ← s.iget ((s.vol.dir dp).dirent k).inum.toNat
          return (some (((s.vol.dir dp).dirent k).inum.toNat, BitVec.ofNat 32 (DIRENT * k)),
            s.vol.dinode dp, s')
        | .none => .ok (none, s.vol.dinode dp, s)
        | .short => .panic (.dir .dirlookupRead) := by
  have hscan := scan_eq h devsw .dirlookupRead
    (fun de => decide (deInum de ≠ 0 ∧ namecmp name (deName de) = 0))
    (fun e => decide (e.inum ≠ 0 ∧ e.name = Name.read name)) (fun k de hde => ?_) (k := 0)
    ((s.vol.dir dp).size / DIRENT + 2) (Nat.zero_le _) (Nat.le_refl _)
  · unfold Inodes.dirlookup
    rw [size_dir, Nat.mul_zero] at hscan
    rw [if_neg (not_not_intro h.type), show (0 : Word) = BitVec.ofNat 32 0 from rfl, hscan]
    unfold Node.lookup
    cases (s.vol.dir dp).search 0 _ <;> rfl
  · apply decide_eq_decide.mpr
    rw [deInum_eq hde, namecmp_eq_zero, read_deName hde]
    exact and_congr_right fun _ => eq_comm

/-- `dirlink` writes the first entry that is free, or one more, unless the name is there. -/
theorem dirlink_eq (devsw : BitVec 16 → Device) (name : Nat → Byte) (inum : Word) :
    s.dirlink sb devsw dp (s.vol.dinode dp) name inum
      = match (s.vol.dir dp).lookup (Name.read name) with
        | .found k => do
          let s' ← s.iget ((s.vol.dir dp).dirent k).inum.toNat
          let s' ← s'.iput dp ((s.vol.dir dp).dirent k).inum.toNat
          return (-1, s.vol.dinode dp, s')
        | .short => .panic (.dir .dirlookupRead)
        | .none =>
          match (s.vol.dir dp).freeEntry with
          | none => .panic (.dir .dirlinkRead)
          | some k => do
            let (r, ip, v) ← (s.vol.writei sb devsw dp (s.vol.dinode dp)
              (Dirent.byte ⟨inum.setWidth 16, Name.read name⟩)
              (BitVec.ofNat 32 (DIRENT * k)) 16).mapPanic
                .disk
            if r ≠ DIRENT then .panic (.dir .dirlink) else return (0, ip, { s with vol := v }) := by
  unfold Inodes.dirlink
  rw [dirlookup_eq h]
  cases (s.vol.dir dp).lookup (Name.read name) with
  | found k => simp only [bind_assoc, pure_bind]
  | short => rfl
  | none =>
    have hscan := scan_eq h devsw .dirlinkRead (fun de => decide (deInum de = 0))
      (fun e => decide (e.inum = 0)) (fun k de hde => by rw [deInum_eq hde]) (k := 0)
      ((s.vol.dir dp).size / DIRENT + 2) (Nat.zero_le _) (Nat.le_refl _)
    rw [size_dir, Nat.mul_zero] at hscan
    unfold freeEntry
    simp only [ok_bind]
    rw [show (0 : Word) = BitVec.ofNat 32 0 from rfl, hscan, direntBytes_eq]
    cases hs : (s.vol.dir dp).search 0 fun e => decide (e.inum = 0) with
    | found k => rfl
    | short => rfl
    | none =>
      -- the loop ends behind the last entry
      have hend : (s.vol.dir dp).size = DIRENT * ((s.vol.dir dp).size / DIRENT) := by
        have := (search_none hs).2
        unfold DIRENT at *
        omega
      simp only [ok_bind]
      rw [← hend]
      simp only [size_dir]

/-- The entry is freed. -/
theorem unlinkEntry_eq (devsw : BitVec 16 → Device) (name : Nat → Byte) :
    s.unlinkEntry sb devsw dp (s.vol.dinode dp) name
      = match (s.vol.dir dp).lookup (Name.read name) with
        | .none => .ok (-1, s.vol.dinode dp, s)
        | .short => .panic (.dir .dirlookupRead)
        | .found k => do
          let s' ← s.iget ((s.vol.dir dp).dirent k).inum.toNat
          let (r, ip, v) ← (s'.vol.writei sb devsw dp (s.vol.dinode dp) Dirent.zero.byte
            (BitVec.ofNat 32 (DIRENT * k)) 16).mapPanic .disk
          if r ≠ DIRENT then .panic (.dir .unlinkWritei)
          else return (0, ip, { s' with vol := v }) := by
  have hzero : Dirent.zero.byte = fun _ => 0 := by
    funext t
    match t with
    | 0 => rfl
    | 1 => rfl
    | t + 2 => rfl
  unfold Inodes.unlinkEntry
  rw [dirlookup_eq h, hzero]
  cases (s.vol.dir dp).lookup (Name.read name) with
  | found k => simp only [bind_assoc, pure_bind]
  | short => rfl
  | none => rfl

end

end

end Xv6.Fs
