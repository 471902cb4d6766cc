import Xv6.Fs.Dirent
import Xv6.Lib.Slots

namespace Xv6.Fs

open BitVec Function List Node Outcome Prod

/-!
# Directories as maps

A directory that `dirlink` and `sys_unlink` have made is a map from names to inode numbers.

* `Node.slot`, `IsMap` — the entries as slots, and the map that they hold;
* `IsMap.link`, `IsMap.unlink`, `IsMap.entry_put` — entries written, on the map;
* `DirOp`, `Inodes.apply` — the calls, from `ilock(dp)` to `iunlock(dp)`;
* `link_present`, `link_absent`, `unlink_present` — what they do to the directory;
* `Built`, `latest` — directories as they are built, and the number last linked to a name;
* `directory_map` — what they have to do with each other;
* `link_self_hangs`, `full_disk_panics` — a name for the directory itself, and a full disk.
-/

/-- Entry `k`, if it is in use. -/
def Node.slot (d : Node) (k : Nat) : Option (Name × Nat) :=
  if (d.dirent k).inum = 0 then none else some ((d.dirent k).name, (d.dirent k).inum.toNat)

/-- The number that a name has, and the offset of its entry. -/
def Node.entry (d : Node) (n : Name) : Option (Nat × Word) :=
  match d.lookup n with
  | .found k => some ((d.dirent k).inum.toNat, BitVec.ofNat 32 (DIRENT * k))
  | _ => none

/-- A directory whose entries hold the map `m`. -/
structure IsMap (d : Node) (m : Name → Option Nat) : Prop where
  whole : d.size % DIRENT = 0
  stores : Stores (d.size / DIRENT) d.slot m

variable {d d' : Node} {m : Name → Option Nat} {k j i : Nat} {e : Dirent} {n : Name}
  {name : Nat → Byte} {inum : Word}

theorem slot_eq_none : d.slot k = none ↔ (d.dirent k).inum = 0 := by
  unfold slot
  split <;> simp_all

theorem slot_eq_some : d.slot k = some (n, i)
    ↔ (d.dirent k).inum ≠ 0 ∧ (d.dirent k).name = n ∧ (d.dirent k).inum.toNat = i := by
  unfold slot
  split <;> simp_all

/-- One slot changes. -/
theorem slot_put (e : Dirent) : (d.put k e).slot
    = update d.slot k (if e.inum = 0 then none else some (e.name, e.inum.toNat)) := by
  funext j
  by_cases hj : j = k
  · rw [hj, update_self]
    unfold slot
    rw [dirent_put_self]
  · rw [update_of_ne hj]
    unfold slot
    rw [dirent_put_ne hj]

theorem entries_size_put (hk : DIRENT * k ≤ d.size) :
    (d.put k e).size / DIRENT = max (d.size / DIRENT) (k + 1) := by
  show max d.size (DIRENT * k + DIRENT) / DIRENT = _
  unfold DIRENT at *
  omega

theorem search_ne_short (start : Nat) (test : Dirent → Bool) (h : d.size % DIRENT = 0) :
    d.search start test ≠ .short := by
  unfold search
  split
  · exact nofun
  · rw [if_neg fun hs => hs.2 h]
    exact nofun

namespace IsMap

section

variable (h : IsMap d m)
include h

/-- The entry that holds a name is found. -/
theorem lookup_of_slot (hk : k < d.size / DIRENT) (hs : d.slot k = some (n, i)) :
    d.lookup n = .found k := by
  obtain ⟨hne, hname, -⟩ := slot_eq_some.mp hs
  cases hl : d.lookup n with
  | found j =>
    obtain ⟨-, hj, ht⟩ := search_found hl
    obtain ⟨hjne, hjname⟩ := of_decide_eq_true ht
    have hjs : d.slot j = some (n, (d.dirent j).inum.toNat) := slot_eq_some.mpr ⟨hjne, hjname, rfl⟩
    rw [h.stores.once j k _ _ hj hk hjs hs rfl]
  | none =>
    have := (search_none hl).1 k (Nat.zero_le _) hk
    rw [decide_eq_false_iff_not] at this
    exact absurd ⟨hne, hname⟩ this
  | short => exact absurd hl (search_ne_short _ _ h.whole)

/-- The entry found is in this slot. -/
theorem entry_of_slot (hk : k < d.size / DIRENT) (hs : d.slot k = some (n, i)) :
    d.entry n = some (i, BitVec.ofNat 32 (DIRENT * k)) := by
  unfold entry
  rw [h.lookup_of_slot hk hs, ← (slot_eq_some.mp hs).2.2]

/-- A name that the map does not have is not found. -/
theorem lookup_of_absent (hm : m n = none) : d.lookup n = .none := by
  refine search_eq_none (fun k _ hk => ?_) h.whole
  apply decide_eq_false
  rintro ⟨hne, hname⟩
  exact h.stores.absent hm hk (slot_eq_some.mpr ⟨hne, hname, rfl⟩)

/-- The search is the map. -/
theorem entry_fst (n : Name) : (d.entry n).map Prod.fst = m n := by
  cases hm : m n with
  | none =>
    unfold entry
    rw [h.lookup_of_absent hm]
    rfl
  | some i =>
    obtain ⟨k, hk, hs⟩ := (h.stores.iff _ _).mp hm
    rw [h.entry_of_slot hk hs]
    rfl

/-- The entry that `dirlink` uses. -/
theorem freeEntry : ∃ k, d.freeEntry = some k ∧ k ≤ d.size / DIRENT
    ∧ (k < d.size / DIRENT → d.slot k = none)
    ∧ (k = d.size / DIRENT → ∀ j, j < k → d.slot j ≠ none) := by
  have hsome : d.freeEntry ≠ none := by
    unfold Node.freeEntry
    have hshort := search_ne_short 0 (fun e => decide (e.inum = 0)) h.whole
    cases hs : d.search 0 fun e => decide (e.inum = 0) with
    | short => exact absurd hs hshort
    | _ => exact nofun
  obtain ⟨k, hk⟩ := Option.ne_none_iff_exists'.mp hsome
  refine ⟨k, hk, ?_⟩
  rcases freeEntry_some hk with ⟨hlt, hz⟩ | ⟨hend, hused⟩
  · exact ⟨hlt.le, fun _ => slot_eq_none.mpr hz, fun he => absurd he hlt.ne⟩
  · have hn : d.size / DIRENT = k := by
      unfold DIRENT at *
      omega
    refine ⟨hn.ge, fun hlt => absurd hlt (by omega), fun _ j hj => ?_⟩
    rw [Ne, slot_eq_none]
    exact hused j hj

/-- The entry of a new name holds it. -/
theorem link (hm : m n = none) (hle : k ≤ d.size / DIRENT)
    (hfree : k < d.size / DIRENT → d.slot k = none) (hpos : 0 < inum.toNat)
    (hlt : inum.toNat < 2 ^ 16) :
    IsMap (d.put k ⟨inum.setWidth 16, n⟩) (update m n (some inum.toNat)) := by
  have hwhole := h.whole
  have hin : DIRENT * k ≤ d.size := by
    unfold DIRENT at *
    omega
  have hval : (inum.setWidth 16).toNat = inum.toNat := by
    rw [toNat_setWidth, Nat.mod_eq_of_lt hlt]
  have hne : inum.setWidth 16 ≠ 0 := by
    intro hz
    rw [hz] at hval
    exact absurd hval (by simp; omega)
  constructor
  · show max d.size (DIRENT * k + DIRENT) % DIRENT = 0
    unfold DIRENT at *
    omega
  · rw [slot_put, entries_size_put hin, if_neg hne, hval]
    exact h.stores.insert hm hle hfree

/-- The entry of a name is freed. -/
theorem unlink (hk : k < d.size / DIRENT) (hs : d.slot k = some (n, i)) :
    IsMap (d.put k Dirent.zero) (update m n none) := by
  have hin : DIRENT * k + DIRENT ≤ d.size := by
    unfold DIRENT at *
    omega
  have hsize : (d.put k Dirent.zero).size = d.size := max_eq_left hin
  refine ⟨by rw [hsize]; exact h.whole, ?_⟩
  rw [slot_put, hsize, if_pos (show Dirent.zero.inum = 0 from rfl)]
  exact h.stores.erase hk hs

/-- Names that are in other entries are found where they were. -/
theorem entry_put {m' : Name → Option Nat} (h' : IsMap (d.put k e) m') (hle : k ≤ d.size / DIRENT)
    (hk : k < d.size / DIRENT → ∀ i, d.slot k ≠ some (n, i)) (hm : m' n = m n) :
    (d.put k e).entry n = d.entry n := by
  have hin : DIRENT * k ≤ d.size := by
    unfold DIRENT at *
    omega
  cases hi : m n with
  | none =>
    unfold entry
    rw [h.lookup_of_absent hi, h'.lookup_of_absent (hm.trans hi)]
  | some i =>
    obtain ⟨j, hj, hs⟩ := (h.stores.iff _ _).mp hi
    have hjk : j ≠ k := by
      rintro rfl
      exact hk hj i hs
    have hs' : (d.put k e).slot j = some (n, i) := by
      rw [slot_put, update_of_ne hjk]
      exact hs
    have hj' : j < (d.put k e).size / DIRENT := by
      rw [entries_size_put hin]
      omega
    rw [h.entry_of_slot hj hs, h'.entry_of_slot hj' hs']

end

end IsMap

/-! ### The calls -/

/-- What is done to a directory: `dirlink`, or the removal of an entry by `sys_unlink`. -/
inductive DirOp where
  | link (name : Nat → Byte) (inum : Word)
  | unlink (name : Nat → Byte)

namespace DirOp

/-- The name that is linked or unlinked. -/
def key : DirOp → Name
  | link name _ => Name.read name
  | unlink name => Name.read name

/-- The numbers that an entry can hold. -/
def Valid : DirOp → Prop
  | link _ inum => 0 < inum.toNat ∧ inum.toNat < 2 ^ 16
  | unlink _ => True

/-- What is done to the map. -/
def update (m : Name → Option Nat) : DirOp → Name → Option Nat
  | link name inum => Function.update m (Name.read name) (some inum.toNat)
  | unlink name => Function.update m (Name.read name) none

end DirOp

namespace Inodes

/-- The copy of inode `dp` in memory. -/
def store (s : Inodes) (dp : Nat) (ip : Dinode) : Inodes :=
  { s with vol := { s.vol with mem := update s.vol.mem dp (some ip) } }

/-- From `ilock(dp)` to `iunlock(dp)`. -/
def locked {α : Type} (s : Inodes) (dp : Nat)
    (f : Inodes → Dinode → Outcome DPanic (α × Dinode × Inodes)) : Outcome DPanic (α × Inodes) := do
  let (ip, v) ← (s.vol.ilock dp).mapPanic .disk
  let (r, ip, s) ← f { s with vol := v } ip
  return (r, s.store dp ip)

variable (sb : Superblock) (devsw : BitVec 16 → Device)

/-- A name is looked up. -/
def lookup (s : Inodes) (dp : Nat) (name : Nat → Byte) :
    Outcome DPanic (Option (Nat × Word) × Inodes) :=
  s.locked dp fun s ip => s.dirlookup sb devsw ip name

/-- A call on a directory. -/
def apply (s : Inodes) (dp : Nat) : DirOp → Outcome DPanic (Int × Inodes)
  | .link name inum => s.locked dp fun s ip => s.dirlink sb devsw dp ip name inum
  | .unlink name => s.locked dp fun s ip => s.unlinkEntry sb devsw dp ip name

/-- `iget` finds a slot for the inode, if there is one to be found. -/
def CanGet (s : Inodes) : Option Nat → Prop
  | none => True
  | some i => i ∈ s.refs ∨ s.refs.dedup.length < NINODE

/-- There is an entry to be used again, or one more fits into the file, with disk blocks for it. -/
def HasRoom (s : Inodes) (dp : Nat) : Prop :=
  (∃ k, k < (s.vol.dir dp).size / DIRENT ∧ (s.vol.dir dp).slot k = none)
  ∨ (s.vol.dir dp).size + DIRENT ≤ MAXFILE * BSIZE
    ∧ s.vol.need (s.vol.dinode dp) (s.vol.dir dp).size DIRENT ≤ (s.vol.free sb).card

end Inodes

section

variable {sb : Superblock} {devsw : BitVec 16 → Device} {dp : Nat} {s s' : Inodes}

/-- The directory is locked. -/
def Inodes.lock (s : Inodes) (dp : Nat) : Inodes := s.store dp (s.vol.dinode dp)

theorem IsDir.lock (h : IsDir sb dp s) : IsDir sb dp (s.lock dp) :=
  ⟨h.sound.locked h.not_free, h.type, h.held⟩

/-- `ilock` of a directory gives what the disk has. -/
theorem locked_eq {α : Type} (h : IsDir sb dp s)
    (f : Inodes → Dinode → Outcome DPanic (α × Dinode × Inodes)) :
    s.locked dp f = f (s.lock dp) ((s.lock dp).vol.dinode dp) >>= fun x =>
      .ok (x.1, x.2.2.store dp x.2.1) := by
  have hlock := ((ilock_ok h.sound dp).resolve_left fun hp => ?_).2
  · unfold Inodes.locked
    rw [hlock]
    rfl
  · -- the inode has a type
    unfold Volume.ilock at hp
    split at hp
    · cases hp
    · rw [if_neg h.not_free] at hp
      cases hp

/-- `iget` leaves the disk alone. -/
theorem iget_cases (h : IsDir sb dp s) (i : Nat) :
    s.iget i = .panic (.dir .igetNoInodes) ∧ ¬s.CanGet (some i)
    ∨ ∃ s', s.iget i = .ok s' ∧ IsDir sb dp s' ∧ s'.vol.dinode = s.vol.dinode
      ∧ s'.vol.block = s.vol.block := by
  unfold Inodes.iget
  by_cases hi : i ∈ s.refs
  · rw [if_pos hi]
    exact .inr ⟨_, rfl, ⟨h.sound, h.type, mem_cons_of_mem _ h.held⟩, rfl, rfl⟩
  · rw [if_neg hi]
    by_cases hroom : s.refs.dedup.length < NINODE
    · rw [if_pos hroom]
      exact .inr ⟨_, rfl, ⟨h.sound.recycled i, h.type, mem_cons_of_mem _ h.held⟩, rfl, rfl⟩
    · rw [if_neg hroom]
      exact .inl ⟨rfl, not_or.mpr ⟨hi, hroom⟩⟩

/-- `iput` of another inode leaves the directory alone. -/
theorem iput_dir (h : IsDir sb dp s) (hne : i ≠ dp) :
    ∃ s', s.iput dp i = .ok s' ∧ IsDir sb dp s' ∧ s'.vol.dinode dp = s.vol.dinode dp
      ∧ s'.vol.dir dp = s.vol.dir dp := by
  obtain ⟨v, hok, hs, hblock, hothers⟩ := iput_ok h.sound i (s.refs.count i = 1)
  have hdp := hothers dp hne.symm
  refine ⟨⟨v, s.refs.erase i⟩, ?_, ⟨hs, by rw [hdp]; exact h.type, ?_⟩, hdp, ?_⟩
  · unfold Inodes.iput
    rw [if_neg hne, hok]
    rfl
  · exact (mem_erase_of_ne hne.symm).mpr h.held
  · unfold Volume.dir
    rw [hdp, hblock]

/-- Writing the bytes of an entry. -/
theorem ofBytes_put {l l' : List Byte} (hlen : l'.length = max l.length (DIRENT * k + DIRENT))
    (hdata : ∀ x, x < l'.length → l'.getD x 0
      = if DIRENT * k ≤ x ∧ x < DIRENT * k + DIRENT then e.byte (x - DIRENT * k) else l.getD x 0) :
    Node.ofBytes l' = (Node.ofBytes l).put k e := by
  unfold Node.ofBytes put
  simp only [Node.mk.injEq, true_and]
  refine ⟨hlen, funext fun x => ?_⟩
  by_cases hx : x < l'.length
  · exact hdata x hx
  · rw [if_neg (by omega), getD_eq_default _ _ (by omega), getD_eq_default _ _ (by omega)]

/-- An entry is written, unless there is no block for it. -/
theorem writei_put (h : IsDir sb dp s) (devsw : BitVec 16 → Device) (e : Dirent)
    (hk : DIRENT * k ≤ (s.vol.dir dp).size) (hmax : DIRENT * k + DIRENT ≤ MAXFILE * BSIZE) :
    s.vol.writei sb devsw dp (s.vol.dinode dp) e.byte (BitVec.ofNat 32 (DIRENT * k)) 16
        = .panic .outOfBlocks
      ∧ ¬s.vol.need (s.vol.dinode dp) (DIRENT * k) DIRENT ≤ (s.vol.free sb).card
    ∨ ∃ ip v, s.vol.writei sb devsw dp (s.vol.dinode dp) e.byte (BitVec.ofNat 32 (DIRENT * k)) 16
        = .ok ((DIRENT : Int), ip, v)
      ∧ IsDir sb dp (Inodes.store { s with vol := v } dp ip)
      ∧ v.dir dp = (s.vol.dir dp).put k e := by
  have hoff := h.toNat_off hk
  have hoff' : (BitVec.ofNat 32 (DIRENT * k)).toNat ≤ (s.vol.dinode dp).size := by
    rwa [hoff, ← size_dir]
  rcases writei_fits devsw e.byte h.sound h.not_free h.not_dev (n := 16) hoff'
    (by rw [hoff]; exact hmax) with hp | ⟨ip, v, hok, hw⟩
  · rw [hoff] at hp
    exact .inl hp
  · rw [hoff] at hw
    have hdp : v.dinode dp = ip := by rw [hw.dinode, update_self]
    refine .inr ⟨ip, v, hok, ⟨?_, ?_, h.held⟩, ?_⟩
    · rcases writei_ok devsw e.byte h.sound h.not_free (BitVec.ofNat 32 (DIRENT * k)) 16 with
        hp | ⟨r, ip', v', hok', hs⟩
      · rw [hp] at hok
        cases hok
      · rw [hok'] at hok
        cases hok
        exact hs
    · show (v.dinode dp).type = _
      rw [hdp, hw.type, h.type]
    · unfold Volume.dir
      rw [hdp]
      -- Byte by byte: inside the entry the new bytes, outside the old ones.
      refine ofBytes_put ?_ fun x hx => ?_
      · rw [length_contents, length_contents]
        exact hw.size
      · rw [getD_eq_getElem _ _ hx, getElem_contents]
        rw [length_contents] at hx
        rw [hw.byte x hx]
        have hlt := hw.size ▸ hx
        by_cases hin : DIRENT * k ≤ x ∧ x < DIRENT * k + DIRENT
        · rw [if_pos hin]
          exact if_pos hin
        · rw [if_neg hin]
          refine (if_neg hin).trans (data_dir ?_).symm
          change x < max _ (DIRENT * k + DIRENT) at hlt
          rw [size_dir] at hk
          omega

/-! ### The calls, on the map -/

section

variable (h : IsDir sb dp s) (hmap : IsMap (s.vol.dir dp) m) (devsw : BitVec 16 → Device)

include h hmap

/-- With a slot in the inode cache, `dirlookup` finds the entry. -/
theorem lookup_entry (hget : s.CanGet (m (Name.read name))) :
    ∃ t, s.lookup sb devsw dp name = .ok ((s.vol.dir dp).entry (Name.read name), t) := by
  unfold Inodes.lookup
  rw [locked_eq h, dirlookup_eq h.lock]
  cases hm : m (Name.read name) with
  | none =>
    unfold entry
    rw [show ((s.lock dp).vol.dir dp).lookup _ = _ from hmap.lookup_of_absent hm,
      hmap.lookup_of_absent hm]
    exact ⟨_, rfl⟩
  | some i =>
    obtain ⟨k, hk, hs⟩ := (hmap.stores.iff _ _).mp hm
    rw [hm] at hget
    rw [hmap.entry_of_slot hk hs,
      show ((s.lock dp).vol.dir dp).lookup _ = _ from hmap.lookup_of_slot hk hs]
    simp only
    rw [show (((s.lock dp).vol.dir dp).dirent k).inum.toNat = i from (slot_eq_some.mp hs).2.2]
    rcases iget_cases h.lock i with hp | ⟨t, hok, -⟩
    · exact absurd hget hp.2
    · rw [hok]
      exact ⟨_, rfl⟩

/-- A name that is there: `dirlink` gives back the reference that `dirlookup` took. -/
theorem link_found (inum : Word) (hm : m (Name.read name) = some i) :
    s.apply sb devsw dp (.link name inum) = do
      let s' ← (s.lock dp).iget i
      let s' ← s'.iput dp i
      return (-1, s'.store dp (s.vol.dinode dp)) := by
  obtain ⟨k, hk, hs⟩ := (hmap.stores.iff _ _).mp hm
  rw [Inodes.apply, locked_eq h, dirlink_eq h.lock,
    show ((s.lock dp).vol.dir dp).lookup _ = _ from hmap.lookup_of_slot hk hs]
  simp only [bind_assoc, pure_bind]
  rw [show (((s.lock dp).vol.dir dp).dirent k).inum.toNat = i from (slot_eq_some.mp hs).2.2]
  rfl

/-- A name that is there is not linked again. -/
theorem link_present (inum : Word) (hm : m (Name.read name) = some i) (hget : s.CanGet (some i))
    (hne : i ≠ dp) : ∃ s', s.apply sb devsw dp (.link name inum) = .ok (-1, s')
      ∧ IsDir sb dp s' ∧ s'.vol.dir dp = s.vol.dir dp := by
  rw [link_found h hmap devsw inum hm]
  rcases iget_cases h.lock i with hp | ⟨t, hok, ht, hd, hb⟩
  · exact absurd hget hp.2
  · obtain ⟨t', hput, ht', hd', hdir⟩ := iput_dir ht hne
    have hself : t'.vol.dinode dp = s.vol.dinode dp := by
      rw [hd', hd]
      rfl
    rw [hok, ok_bind, hput, ok_bind]
    refine ⟨_, rfl, ?_, ?_⟩
    · rw [← hself]
      exact ht'.lock
    · show t'.vol.dir dp = _
      rw [hdir]
      unfold Volume.dir
      rw [hd, hb]
      rfl

/-- **A name for the directory itself**, as `"."` is: `iput` waits for the lock that the caller of
    `dirlink` has. -/
theorem link_self_hangs (inum : Word) (hm : m (Name.read name) = some dp) :
    s.apply sb devsw dp (.link name inum) = .hang := by
  rw [link_found h hmap devsw inum hm]
  rcases iget_cases h.lock dp with hp | ⟨t, hok, -⟩
  · exact absurd (.inl h.held) hp.2
  · rw [hok, ok_bind]
    unfold Inodes.iput
    rw [if_pos rfl]
    rfl

/-- A new name gets an entry, if it fits into the file and there is a block for it. -/
theorem link_absent (inum : Word) (hm : m (Name.read name) = none) :
    ∃ k, k ≤ (s.vol.dir dp).size / DIRENT
      ∧ (k < (s.vol.dir dp).size / DIRENT → (s.vol.dir dp).slot k = none)
      ∧ (k = (s.vol.dir dp).size / DIRENT → ∀ j, j < k → (s.vol.dir dp).slot j ≠ none)
      ∧ (s.apply sb devsw dp (.link name inum) = .panic (.dir .dirlink)
          ∧ ¬DIRENT * k + DIRENT ≤ MAXFILE * BSIZE
        ∨ s.apply sb devsw dp (.link name inum) = .panic (.disk .outOfBlocks)
          ∧ ¬s.vol.need (s.vol.dinode dp) (DIRENT * k) DIRENT ≤ (s.vol.free sb).card
        ∨ ∃ s', s.apply sb devsw dp (.link name inum) = .ok (0, s') ∧ IsDir sb dp s'
          ∧ s'.vol.dir dp = (s.vol.dir dp).put k ⟨inum.setWidth 16, Name.read name⟩) := by
  obtain ⟨k, hk, hle, hfree, hused⟩ := hmap.freeEntry
  have hin : DIRENT * k ≤ (s.vol.dir dp).size := by
    unfold DIRENT at *
    omega
  refine ⟨k, hle, hfree, hused, ?_⟩
  rw [Inodes.apply, locked_eq h, dirlink_eq h.lock,
    show ((s.lock dp).vol.dir dp).lookup _ = _ from hmap.lookup_of_absent hm,
    show ((s.lock dp).vol.dir dp).freeEntry = _ from hk]
  simp only
  by_cases hmax : DIRENT * k + DIRENT ≤ MAXFILE * BSIZE
  · rcases writei_put h.lock devsw ⟨inum.setWidth 16, Name.read name⟩ hin hmax with
      ⟨hp, hneed⟩ | ⟨ip, v, hok, hdir, hput⟩
    · rw [hp]
      exact .inr (.inl ⟨rfl, hneed⟩)
    · rw [hok]
      exact .inr (.inr ⟨_, rfl, hdir, hput⟩)
  · -- the file would be too long
    rw [writei_refused devsw _ h.lock.not_dev fun hfit => hmax (h.toNat_off hin ▸ hfit.2.2)]
    exact .inl ⟨rfl, hmax⟩

/-- With room, a new name is linked. -/
theorem link_room (inum : Word) (hm : m (Name.read name) = none) (hroom : s.HasRoom sb dp) :
    ∃ s', s.apply sb devsw dp (.link name inum) = .ok (0, s') := by
  obtain ⟨k, hle, -, hused, hp | hp | ⟨s', hok, -⟩⟩ := link_absent h hmap devsw inum hm
  · refine absurd ?_ hp.2
    have hsize := h.size_le
    rw [← size_dir] at hsize
    rcases Nat.lt_or_ge k ((s.vol.dir dp).size / DIRENT) with hlt | hge
    · unfold DIRENT at *
      omega
    · rcases hroom with ⟨j, hj, hz⟩ | ⟨hmax, -⟩
      · exact absurd hz (hused (by omega) j (by omega))
      · unfold DIRENT at *
        omega
  · refine absurd ?_ hp.2
    rcases Nat.lt_or_ge k ((s.vol.dir dp).size / DIRENT) with hlt | hge
    · rw [size_dir] at hlt
      rw [need_of_full (h.sound.full dp h.not_free) (by unfold DIRENT at *; omega)]
      exact Nat.zero_le _
    · rcases hroom with ⟨j, hj, hz⟩ | ⟨-, hneed⟩
      · exact absurd hz (hused (by omega) j (by omega))
      · have hend : DIRENT * k = (s.vol.dir dp).size := by
          have := hmap.whole
          unfold DIRENT at *
          omega
        rw [hend]
        exact hneed
  · exact ⟨s', hok⟩

/-- The entry of a name is overwritten with zeros, if `iget` finds a slot. -/
theorem unlink_present (hk : k < (s.vol.dir dp).size / DIRENT)
    (hs : (s.vol.dir dp).slot k = some (Name.read name, i)) :
    s.apply sb devsw dp (.unlink name) = .panic (.dir .igetNoInodes)
    ∨ ∃ s', s.apply sb devsw dp (.unlink name) = .ok (0, s') ∧ IsDir sb dp s'
      ∧ s'.vol.dir dp = (s.vol.dir dp).put k Dirent.zero := by
  have hin : DIRENT * k + DIRENT ≤ (s.vol.dir dp).size := by
    unfold DIRENT at *
    omega
  rw [Inodes.apply, locked_eq h, unlinkEntry_eq h.lock,
    show ((s.lock dp).vol.dir dp).lookup _ = _ from hmap.lookup_of_slot hk hs]
  simp only
  rcases iget_cases h.lock (((s.lock dp).vol.dir dp).dirent k).inum.toNat with
    hp | ⟨t, hok, ht, hd, hb⟩
  · rw [hp.1]
    exact .inl rfl
  · have hdir : t.vol.dir dp = s.vol.dir dp := by
      unfold Volume.dir
      rw [hd, hb]
      rfl
    have hsize := h.size_le
    rw [← size_dir] at hsize
    rw [hok, ok_bind, ← hd]
    rcases writei_put ht devsw Dirent.zero (k := k) (by rw [hdir]; omega) (by omega) with
      ⟨-, hneed⟩ | ⟨ip, v, hw, hdir', hput⟩
    · -- the entry is in the file
      rw [need_of_full (ht.sound.full dp ht.not_free) (by rw [← size_dir, hdir]; exact hin)]
        at hneed
      exact absurd (Nat.zero_le _) hneed
    · rw [hw]
      refine .inr ⟨_, rfl, hdir', ?_⟩
      rw [← hdir]
      exact hput

/-- The call fails. -/
theorem unlink_absent (hm : m (Name.read name) = none) :
    ∃ s', s.apply sb devsw dp (.unlink name) = .ok (-1, s') := by
  rw [Inodes.apply, locked_eq h, unlinkEntry_eq h.lock,
    show ((s.lock dp).vol.dir dp).lookup _ = _ from hmap.lookup_of_absent hm]
  exact ⟨_, rfl⟩

/-- A call that succeeds does to the map what it says, and one entry is changed by it. -/
theorem apply_map {op : DirOp} (hv : op.Valid) (hop : s.apply sb devsw dp op = .ok (0, s')) :
    IsDir sb dp s' ∧ IsMap (s'.vol.dir dp) (op.update m)
      ∧ ∃ k e, s'.vol.dir dp = (s.vol.dir dp).put k e ∧ k ≤ (s.vol.dir dp).size / DIRENT
        ∧ ∀ n i, k < (s.vol.dir dp).size / DIRENT → n ≠ op.key →
          (s.vol.dir dp).slot k ≠ some (n, i) := by
  cases op with
  | link name inum =>
    cases hm : m (Name.read name) with
    | some i =>
      rw [link_found h hmap devsw inum hm] at hop
      obtain ⟨t, -, hop⟩ := bind_eq_ok.mp hop
      obtain ⟨t', -, hop⟩ := bind_eq_ok.mp hop
      exact absurd (mk.inj (ok.inj hop)).1 (by decide)
    | none =>
      obtain ⟨k, hle, hfree, -, hp | hp | ⟨t, hok, ht, hput⟩⟩ := link_absent h hmap devsw inum hm
      · rw [hp.1] at hop
        cases hop
      · rw [hp.1] at hop
        cases hop
      · rw [hok] at hop
        cases hop
        refine ⟨ht, ?_, k, _, hput, hle, fun n i hk _ => ?_⟩
        · rw [hput]
          exact hmap.link hm hle hfree hv.1 hv.2
        · rw [hfree hk]
          exact nofun
  | unlink name =>
    cases hm : m (Name.read name) with
    | none =>
      obtain ⟨t, hok⟩ := unlink_absent h hmap devsw hm
      rw [hok] at hop
      exact absurd (mk.inj (ok.inj hop)).1 (by decide)
    | some i =>
      obtain ⟨k, hk, hs⟩ := (hmap.stores.iff _ _).mp hm
      rcases unlink_present h hmap devsw hk hs with hp | ⟨t, hok, ht, hput⟩
      · rw [hp] at hop
        cases hop
      · rw [hok] at hop
        cases hop
        refine ⟨ht, ?_, k, _, hput, hk.le, fun n i' _ hn => ?_⟩
        · rw [hput]
          exact hmap.unlink hk hs
        · rw [hs]
          intro he
          exact hn (mk.inj (Option.some.inj he)).1.symm

end

/-! ### Directories as they are built -/

/-- Directories that successful calls make of an empty one, while the rest of the system does what
    it does. -/
inductive Built (sb : Superblock) (devsw : BitVec 16 → Device) (dp : Nat) :
    List DirOp → Inodes → Prop
  | new {s : Inodes} (hdir : IsDir sb dp s) (hsize : (s.vol.dinode dp).size = 0) :
    Built sb devsw dp [] s
  | call {ops : List DirOp} {s s' : Inodes} {op : DirOp} (h : Built sb devsw dp ops s)
    (hop : s.apply sb devsw dp op = .ok (0, s')) : Built sb devsw dp (ops ++ [op]) s'
  /-- Other inodes and the references change, and this one keeps its bytes. -/
  | other {ops : List DirOp} {s s' : Inodes} (h : Built sb devsw dp ops s) (hdir : IsDir sb dp s')
    (hsame : s'.vol.dir dp = s.vol.dir dp) : Built sb devsw dp ops s'

/-- The number that was last linked to a name and not unlinked since. -/
def latest (ops : List DirOp) : Name → Option Nat := ops.foldl DirOp.update fun _ => none

/-- One operation more. -/
theorem latest_append (ops : List DirOp) (op : DirOp) :
    latest (ops ++ [op]) = op.update (latest ops) := by
  unfold latest
  rw [foldl_append, foldl_cons, foldl_nil]

/-- Over the run. -/
theorem Built.isMap {ops : List DirOp} (h : Built sb devsw dp ops s) (hv : ∀ op ∈ ops, op.Valid) :
    IsDir sb dp s ∧ IsMap (s.vol.dir dp) (latest ops) := by
  induction h with
  | new hdir hsize =>
    rw [← size_dir] at hsize
    refine ⟨hdir, by rw [hsize]; rfl, ?_⟩
    rw [hsize]
    exact .empty _
  | call h hop ih =>
    obtain ⟨hdir, hmap⟩ := ih fun op hmem => hv op (mem_append_left _ hmem)
    obtain ⟨hdir', hmap', -⟩ := apply_map hdir hmap devsw
      (hv _ (mem_append_right _ (mem_singleton_self _))) hop
    rw [latest_append]
    exact ⟨hdir', hmap'⟩
  | other h hdir hsame ih =>
    rw [hsame]
    exact ⟨hdir, (ih hv).2⟩

/-- **A directory is a map**, if the numbers linked are those that an entry can hold, `iget` finds a
    slot for the inode of a name that is there, and there is room, with disk blocks, where a new
    name is linked: no name is in two entries, `dirlookup` gives the number last linked, `dirlink`
    fails for the names that are there, unless they name the directory itself, and other names are
    found where they were. -/
theorem directory_map {ops : List DirOp} (h : Built sb devsw dp ops s) (hv : ∀ op ∈ ops, op.Valid) :
    (∀ j k, j < (s.vol.dir dp).size / DIRENT → k < (s.vol.dir dp).size / DIRENT →
      ((s.vol.dir dp).dirent j).inum ≠ 0 → ((s.vol.dir dp).dirent k).inum ≠ 0 →
      ((s.vol.dir dp).dirent j).name = ((s.vol.dir dp).dirent k).name → j = k)
    ∧ (∀ name, s.CanGet (latest ops (Name.read name)) →
      ∃ r t, s.lookup sb devsw dp name = .ok (r, t)
        ∧ r.map Prod.fst = latest ops (Name.read name))
    ∧ (∀ name inum, s.CanGet (latest ops (Name.read name)) →
      latest ops (Name.read name) ≠ some dp →
      (latest ops (Name.read name) = none → s.HasRoom sb dp) →
      ∃ r s', s.apply sb devsw dp (.link name inum) = .ok (r, s')
        ∧ (r < 0 ↔ latest ops (Name.read name) ≠ none)
        ∧ (r < 0 → s'.vol.dir dp = s.vol.dir dp))
    ∧ ∀ op s', op.Valid → s.apply sb devsw dp op = .ok (0, s') → ∀ name, Name.read name ≠ op.key →
      s.CanGet (latest ops (Name.read name)) → s'.CanGet (latest ops (Name.read name)) →
      ∃ r t t', s.lookup sb devsw dp name = .ok (r, t)
        ∧ s'.lookup sb devsw dp name = .ok (r, t') := by
  obtain ⟨hdir, hmap⟩ := h.isMap hv
  refine ⟨fun j k hj hk hj0 hk0 hname => ?_, fun name hget => ?_,
    fun name inum hget hself hroom => ?_,
    fun op s' hvop hop name hname hget hget' => ?_⟩
  · exact hmap.stores.once j k _ _ hj hk (slot_eq_some.mpr ⟨hj0, rfl, rfl⟩)
      (slot_eq_some.mpr ⟨hk0, rfl, rfl⟩) hname
  · obtain ⟨t, hok⟩ := lookup_entry hdir hmap devsw hget
    exact ⟨_, t, hok, hmap.entry_fst _⟩
  · cases hm : latest ops (Name.read name) with
    | none =>
      obtain ⟨s', hok⟩ := link_room hdir hmap devsw inum hm (hroom hm)
      exact ⟨0, s', hok, iff_of_false (by decide) (not_not_intro rfl),
        fun hr => absurd hr (by decide)⟩
    | some i =>
      rw [hm] at hget hself
      obtain ⟨s', hok, -, hsame⟩ := link_present hdir hmap devsw inum hm hget
        fun he => hself (congrArg some he)
      exact ⟨-1, s', hok, iff_of_true (by decide) nofun, fun _ => hsame⟩
  · obtain ⟨hdir', hmap', k, e, hput, hle, hother⟩ := apply_map hdir hmap devsw hvop hop
    -- Another name: its entry stays where it was.
    have hkeep : op.update (latest ops) (Name.read name) = latest ops (Name.read name) := by
      cases op with
      | link name' inum => exact update_of_ne hname _ _
      | unlink name' => exact update_of_ne hname _ _
    obtain ⟨t, hok⟩ := lookup_entry hdir hmap devsw hget
    obtain ⟨t', hok'⟩ := lookup_entry hdir' hmap' devsw (by rw [hkeep]; exact hget')
    rw [hput] at hmap' hok'
    rw [hmap.entry_put hmap' hle (fun hk i => hother _ i hk hname) hkeep] at hok'
    exact ⟨_, t, t', hok, hok'⟩

end

/-- An empty directory, and a file that takes all blocks of the disk. -/
def fillDisk : List Op :=
  [.ialloc .dir, .update 1 0 0 1, .ialloc .file, .writei 2 (fun _ => 7) 0 6144, .update 2 0 0 1]

/-- Names of one byte. -/
def oneByteName (b : Byte) : Nat → Byte
  | 0 => b
  | _ => 0

/-- A run on the disk leaves a directory behind. -/
theorem IsDir.of_run {ops : List Op} {v : Volume}
    (hv : ops.foldlM (Volume.step blankBlocks noDevices) blankVolume = .ok v)
    (htype : (v.dinode 1).type = .dir) : IsDir blankBlocks 1 ⟨v, [1]⟩ :=
  ⟨sound_of_reach blankVolume_wellFormed (.of_foldlM (fun _ _ _ => trivial) hv), htype,
    mem_singleton_self 1⟩

/-- In an empty directory, names `a` and `b` are linked and `a` is unlinked. -/
def twoNames : Outcome DPanic (Volume × (Int × Inodes) × (Int × Inodes) × (Int × Inodes)) := do
  let v ← Outcome.mapPanic .disk
    ([Op.ialloc .dir, .update 1 0 0 1].foldlM (Volume.step blankBlocks noDevices) blankVolume)
  let x ← Inodes.apply blankBlocks noDevices ⟨v, [1]⟩ 1 (.link (oneByteName 97) 2)
  let y ← x.2.apply blankBlocks noDevices 1 (.link (oneByteName 98) 3)
  let z ← y.2.apply blankBlocks noDevices 1 (.unlink (oneByteName 97))
  return (v, x, y, z)

/-- Then `b` is found, and is not linked again. -/
theorem directory_map_twoNames :
    let ops := [DirOp.link (oneByteName 97) 2] ++ [.link (oneByteName 98) 3]
      ++ [.unlink (oneByteName 97)]
    ∃ s, Built blankBlocks noDevices 1 ops s
      ∧ (∃ r t, s.lookup blankBlocks noDevices 1 (oneByteName 98) = .ok (r, t)
        ∧ r.map Prod.fst = some 3)
      ∧ ∃ r s', s.apply blankBlocks noDevices 1 (.link (oneByteName 98) 5)
        = .ok (r, s') ∧ r < 0 := by
  intro ops
  obtain ⟨⟨v, x, y, z⟩, hrun, ht⟩ := holds_iff.mp
    (show twoNames.holds (fun (v, x, y, z) => (v.dinode 1).type = .dir ∧ (v.dinode 1).size = 0
      ∧ x.1 = 0 ∧ y.1 = 0 ∧ z.1 = 0 ∧ z.2.refs = [2, 1]) = true by decide +kernel)
  obtain ⟨htype, hsize, hx0, hy0, hz0, hrefs⟩ := of_decide_eq_true ht
  obtain ⟨v, hv, hrun⟩ := bind_eq_ok.mp hrun
  obtain ⟨x, hx, hrun⟩ := bind_eq_ok.mp hrun
  obtain ⟨y, hy, hrun⟩ := bind_eq_ok.mp hrun
  obtain ⟨z, hz, hrun⟩ := bind_eq_ok.mp hrun
  cases hrun
  have hbuilt : Built blankBlocks noDevices 1 ops z.2 := by
    refine .call (s := y.2) (.call (s := x.2) (.call (s := ⟨v, [1]⟩) (.new ?_ hsize) ?_) ?_) ?_
    · exact .of_run (mapPanic_eq_ok.mp hv) htype
    · rw [hx, ← hx0]
    · rw [hy, ← hy0]
    · rw [hz, ← hz0]
  have hlatest : latest ops (Name.read (oneByteName 98)) = some 3 := by decide
  have hget : z.2.CanGet (some 3) := .inr (by rw [hrefs]; decide)
  obtain ⟨-, hlookup, hlink, -⟩ := directory_map hbuilt (by
    simp [ops, DirOp.Valid])
  refine ⟨z.2, hbuilt, ?_, ?_⟩
  · rw [← hlatest]
    exact hlookup _ (by rw [hlatest]; exact hget)
  · obtain ⟨r, s', hok, hr, -⟩ := hlink _ 5 (by rw [hlatest]; exact hget) (by rw [hlatest]; decide)
      (by rw [hlatest]; exact nofun)
    exact ⟨r, s', hok, hr.mpr (by rw [hlatest]; exact nofun)⟩

/-- On a full disk a name that is not there is not linked: `balloc` panics. -/
theorem full_disk_panics : ∃ s, Built blankBlocks noDevices 1 [] s
    ∧ (∃ t, s.lookup blankBlocks noDevices 1 (oneByteName 97) = .ok (none, t))
    ∧ s.apply blankBlocks noDevices 1 (.link (oneByteName 97) 2) = .panic (.disk .outOfBlocks) := by
  obtain ⟨v, hv, ht⟩ := holds_iff.mp
    (show (fillDisk.foldlM (Volume.step blankBlocks noDevices) blankVolume).holds
      (fun v => (v.dinode 1).type = .dir ∧ (v.dinode 1).size = 0
        ∧ (Inodes.apply blankBlocks noDevices ⟨v, [1]⟩ 1 (.link (oneByteName 97) 2)).isPanic
          (.disk .outOfBlocks) = true) = true by decide +kernel)
  obtain ⟨htype, hsize, hpanic⟩ := of_decide_eq_true ht
  have hdir := IsDir.of_run hv htype
  have hnew : Built blankBlocks noDevices 1 [] ⟨v, [1]⟩ := .new hdir hsize
  have hmap := hnew.isMap nofun
  refine ⟨⟨v, [1]⟩, hnew, ?_, isPanic_iff.mp hpanic⟩
  have hget : Inodes.CanGet ⟨v, [1]⟩ (latest [] (Name.read (oneByteName 97))) := trivial
  obtain ⟨t, hok⟩ := lookup_entry hdir hmap.2 noDevices hget
  refine ⟨t, ?_⟩
  rw [hok]
  unfold entry
  rw [hmap.2.lookup_of_absent rfl]

end Xv6.Fs
