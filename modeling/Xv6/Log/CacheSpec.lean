import Xv6.Log.Bio

namespace Xv6.Logging

open BlockData Cache Xv6.Count Function List Option

/-!
# The buffer cache is transparent

* `Cache.view` — the contents of every block, as whoever reads it finds them: those of its
  buffer, or else those on the disk;
* `Cached` — the invariant of the cache: one buffer for a block, exact reference counts, locks
  held by processes that have a reference, and clean buffers equal to the disk;
* `Hold`, `Cache.Holds` — how far a process has come with a block;
* `Acts` and one lemma for every function of `bio.c` — what it does to the invariant, the view,
  the disk, and to what processes hold.
-/

variable {P α : Type}
variable {κ' κ : Key} {q : P}

/-! ### Updates of the state -/

namespace Cache

variable (c : Cache P α) (i : BufId) (b : Buf P α) (p : P) (κ : Key)

@[simp] theorem setBuf_self : (c.setBuf i b).buf i = b := update_self ..

theorem setBuf_ne {i j : BufId} (h : j ≠ i) : (c.setBuf i b).buf j = c.buf j :=
  update_of_ne h ..

@[simp] theorem setBuf_ptr : (c.setBuf i b).ptr = c.ptr := rfl

/-- The contents of a block: those of its buffer once it is read, or else the disk's. -/
def view (c : Cache P α) (κ : Key) : α :=
  match (List.finRange NBUF).find? (fun i => (c.buf i).key = κ ∧ (c.buf i).valid) with
  | some i => (c.buf i).data
  | none => c.disk κ

end Cache

/-- What holds of a buffer by itself: unsaved changes are those of the holder of its lock, what
    is dirty was read before, and what was neither logged nor changed since it was read or
    written is on the disk. -/
structure Buf.Ok (disk : Key → α) (b : Buf P α) : Prop where
  unsaved : b.unsaved = true → ∃ p, b.lock = some p
  dirty : b.dirty = true → b.valid = true
  bound : b.valid = true → 1 ≤ b.key.1 ∧ b.key.2 < FSSIZE
  clean : b.valid = true → b.dirty = false → b.unsaved = false → b.data = disk b.key

/-- 1 if the pointer for block `κ` is to buffer `i`. -/
def points (κ : Key) (i : BufId) (f : Key → Option BufId) : Nat := if f κ = some i then 1 else 0

theorem points_update_self (κ : Key) (i : BufId) (f : Key → Option BufId) (o : Option BufId) :
    points κ i (update f κ o) = if o = some i then 1 else 0 := by
  unfold points
  rw [update_self]

theorem points_update_ne (h : κ' ≠ κ) (i : BufId) (f : Key → Option BufId) (o : Option BufId) :
    points κ' i (update f κ o) = points κ' i f := by
  unfold points
  rw [update_of_ne h]

/-- The invariant of the cache. -/
structure Cached [Fintype P] (c : Cache P α) : Prop where
  all : ∀ i, i ∈ c.mru
  /-- A block has at most one buffer. -/
  unique : ∀ i j, (c.buf i).key = (c.buf j).key → 1 ≤ (c.buf i).key.1 → i = j
  /-- A buffer that a process has a pointer to stays the buffer of its block. -/
  ptr : ∀ p κ i, c.ptr p κ = some i → (c.buf i).key = κ ∧ 1 ≤ κ.1
  count : ∀ i, (c.buf i).refcnt = Count.total (points (c.buf i).key i) c.ptr
  lock : ∀ i p, (c.buf i).lock = some p → c.ptr p (c.buf i).key = some i
  ok : ∀ i, (c.buf i).Ok c.disk

/-! ### Views -/

section

variable {c c' : Cache P α} {i : BufId} {b : Buf P α} {κ : Key}

/-- Only the valid buffers of the block and its place on disk matter. -/
theorem view_congr_at
    (hb : ∀ i, ((c'.buf i).key = κ ∧ (c'.buf i).valid = true)
      ↔ (c.buf i).key = κ ∧ (c.buf i).valid = true)
    (hdata : ∀ i, (c.buf i).key = κ → (c.buf i).valid = true → (c'.buf i).data = (c.buf i).data)
    (hd : c'.disk κ = c.disk κ) : c'.view κ = c.view κ := by
  unfold view
  simp only [hb, hd]
  split
  · grind
  · rfl

/-- The view depends on keys, data and disk. -/
theorem view_congr (hb : ∀ i, (c'.buf i).key = (c.buf i).key ∧ (c'.buf i).valid = (c.buf i).valid
      ∧ (c'.buf i).data = (c.buf i).data) (hd : c'.disk = c.disk) : c'.view = c.view := by
  ext κ
  refine view_congr_at (fun i => ?_) (fun i _ _ => (hb i).2.2) (by rw [hd])
  rw [(hb i).1, (hb i).2.1]

/-- Without a valid buffer: the disk. -/
theorem view_invalid (hv : ∀ i, (c.buf i).key = κ → (c.buf i).valid = false) :
    c.view κ = c.disk κ := by
  unfold view
  split
  · grind
  · rfl

variable [Fintype P]

/-- With one: its data. -/
theorem Cached.view_valid (h : Cached c) (hk : (c.buf i).key = κ) (hv : (c.buf i).valid = true) :
    c.view κ = (c.buf i).data := by
  unfold view
  split
  · rename_i j hf
    have hj := find?_some hf
    rw [decide_eq_true_eq] at hj
    rw [h.unique j i (hj.1.trans hk.symm) ((h.ok j).bound hj.2).1]
  · simp_all

end

/-! ### One buffer changes -/

section

variable [Fintype P] {c : Cache P α} {i : BufId} {b : Buf P α}

/-- Buffer `i` changes and stays the buffer of its block, with as many references. -/
theorem Cached.setBuf (h : Cached c) (hkey : b.key = (c.buf i).key)
    (href : b.refcnt = (c.buf i).refcnt)
    (hlock : ∀ p, b.lock = some p → c.ptr p (c.buf i).key = some i) (hok : b.Ok c.disk) :
    Cached (c.setBuf i b) := by
  have hkeys (j : BufId) : ((c.setBuf i b).buf j).key = (c.buf j).key := by
    rcases eq_or_ne j i with rfl | hj
    · rw [setBuf_self, hkey]
    · rw [setBuf_ne c b hj]
  refine ⟨h.all, ?_, ?_, ?_, ?_, ?_⟩
  · intro j k
    rw [hkeys, hkeys]
    exact h.unique j k
  · intro p κ j
    rw [hkeys]
    exact h.ptr p κ j
  · intro j
    rw [hkeys]
    rcases eq_or_ne j i with rfl | hj
    · rw [setBuf_self, href]
      exact h.count j
    · rw [setBuf_ne c b hj]
      exact h.count j
  · intro j p
    rw [hkeys]
    rcases eq_or_ne j i with rfl | hj
    · rw [setBuf_self]
      exact hlock p
    · rw [setBuf_ne c b hj]
      exact h.lock j p
  · intro j
    rcases eq_or_ne j i with rfl | hj
    · rw [setBuf_self]
      exact hok
    · rw [setBuf_ne c b hj]
      exact h.ok j

omit [Fintype P] in
theorem view_setBuf_same (hkey : b.key = (c.buf i).key) (hv : b.valid = (c.buf i).valid)
    (hdata : b.data = (c.buf i).data) : (c.setBuf i b).view = c.view := by
  refine view_congr (fun j => ?_) rfl
  rcases eq_or_ne j i with rfl | hji
  · rw [setBuf_self]
    exact ⟨hkey, hv, hdata⟩
  · rw [setBuf_ne c b hji]
    exact ⟨rfl, rfl, rfl⟩

/-- What a buffer holds is written to its place on the disk. -/
theorem Cached.setDisk (h : Cached c) (i : BufId) :
    Cached (c.setDisk (c.buf i).key (c.buf i).data) := by
  refine ⟨h.all, h.unique, h.ptr, h.count, h.lock, fun j => ?_⟩
  have hok := h.ok j
  refine ⟨hok.unsaved, hok.dirty, hok.bound, fun hvj hd hu => ?_⟩
  show (c.buf j).data = update c.disk (c.buf i).key (c.buf i).data (c.buf j).key
  by_cases hk : (c.buf j).key = (c.buf i).key
  · rw [h.unique j i hk (hok.bound hvj).1, update_self]
  · rw [update_of_ne hk]
    exact hok.clean hvj hd hu

theorem Cached.view_setDisk (h : Cached c) (hv : (c.buf i).valid = true) :
    (c.setDisk (c.buf i).key (c.buf i).data).view = c.view := by
  ext κ
  rcases eq_or_ne κ (c.buf i).key with rfl | hκ
  · rw [h.view_valid rfl hv]
    exact (h.setDisk i).view_valid (i := i) rfl hv
  · exact view_congr_at (fun _ => .rfl) (fun _ _ _ => rfl) (update_of_ne hκ ..)

/-- The contents of a valid buffer are those of its block. -/
theorem Cached.view_setBuf (h : Cached (c.setBuf i b)) (hkey : b.key = (c.buf i).key)
    (hv : b.valid = true) : (c.setBuf i b).view = update c.view (c.buf i).key b.data := by
  ext κ
  rcases eq_or_ne κ (c.buf i).key with rfl | hκ
  · grind [update_self, h.view_valid, setBuf_self]
  · rw [update_of_ne hκ]
    refine view_congr_at (fun j => ?_) (fun j hj _ => ?_) rfl
    · rcases eq_or_ne j i with rfl | hj
      · grind [setBuf_self]
      · rw [setBuf_ne c b hj]
    · rcases eq_or_ne j i with rfl | hne
      · exact absurd hj.symm hκ
      · rw [setBuf_ne c b hne]

end

/-! ### What processes hold -/

/-- How far a process has come with a block. -/
inductive Hold where
  /-- It has no pointer to a buffer of the block. -/
  | none
  /-- It has a reference, but not the lock. -/
  | ref
  /-- It has the lock, and changed nothing. -/
  | locked
  /-- It has read the block, and changed nothing that is not saved. -/
  | valid
  /-- It has read the block, and may have changed it. -/
  | modified
  deriving DecidableEq

/-- Process `p` has come so far with block `κ`. -/
def Cache.Holds (c : Cache P α) (p : P) (κ : Key) : Hold → Prop
  | .none => c.ptr p κ = none
  | .ref => ∃ i, c.ptr p κ = some i ∧ (c.buf i).lock ≠ some p
  | .locked => ∃ i, c.ptr p κ = some i ∧ (c.buf i).lock = some p ∧ (c.buf i).unsaved = false
  | .valid => ∃ i, c.ptr p κ = some i ∧ (c.buf i).lock = some p ∧ (c.buf i).valid = true
      ∧ (c.buf i).unsaved = false
  | .modified => ∃ i, c.ptr p κ = some i ∧ (c.buf i).lock = some p ∧ (c.buf i).valid = true

/-- What process `q` holds of block `κ` stays as it is. -/
structure Kept (c c' : Cache P α) (q : P) (κ : Key) : Prop where
  ptr : c'.ptr q κ = c.ptr q κ
  lock : ∀ i, c.ptr q κ = some i → ((c'.buf i).lock = some q ↔ (c.buf i).lock = some q)
  buf : ∀ i, c.ptr q κ = some i → (c.buf i).lock = some q →
    (c'.buf i).valid = (c.buf i).valid ∧ (c'.buf i).unsaved = (c.buf i).unsaved

/-- Others keep what they hold. -/
theorem Kept.holds {c c' : Cache P α} {h : Hold} (hk : Kept c c' q κ) (hh : c.Holds q κ h) :
    c'.Holds q κ h := by
  cases h with
  | none => exact hk.ptr.trans hh
  | ref =>
    obtain ⟨i, hi, hl⟩ := hh
    exact ⟨i, hk.ptr.trans hi, fun hl' => hl ((hk.lock i hi).mp hl')⟩
  | locked =>
    obtain ⟨i, hi, hl, hu⟩ := hh
    exact ⟨i, hk.ptr.trans hi, (hk.lock i hi).mpr hl, (hk.buf i hi hl).2.trans hu⟩
  | valid =>
    obtain ⟨i, hi, hl, hv, hu⟩ := hh
    have hb := hk.buf i hi hl
    exact ⟨i, hk.ptr.trans hi, (hk.lock i hi).mpr hl, hb.1.trans hv, hb.2.trans hu⟩
  | modified =>
    obtain ⟨i, hi, hl, hv⟩ := hh
    exact ⟨i, hk.ptr.trans hi, (hk.lock i hi).mpr hl, (hk.buf i hi hl).1.trans hv⟩

/-- A buffer of the block is dirty. -/
def Cache.Pinned (c : Cache P α) (κ : Key) : Prop :=
  ∃ i, (c.buf i).key = κ ∧ (c.buf i).dirty = true

/-- Process `p` has changed block `κ`, and neither logged nor written it since. -/
def Cache.Unsaved (c : Cache P α) (p : P) (κ : Key) : Prop :=
  ∃ i, c.ptr p κ = some i ∧ (c.buf i).lock = some p ∧ (c.buf i).unsaved = true

/-- And what they have not saved. -/
theorem Kept.unsaved {c c' : Cache P α} (hk : Kept c c' q κ) (h : c.Unsaved q κ) :
    c'.Unsaved q κ := by
  obtain ⟨i, hi, hl, hu⟩ := h
  exact ⟨i, hk.ptr.trans hi, (hk.lock i hi).mpr hl, (hk.buf i hi hl).2.trans hu⟩

/-- Process `p` has done something with block `κ`: the invariant is kept, and so is what
    others hold, and what `p` holds of other blocks. -/
structure Acts [Fintype P] (c c' : Cache P α) (p : P) (κ : Key) : Prop where
  cached : Cached c'
  kept : ∀ q κ', q ≠ p ∨ κ' ≠ κ → Kept c c' q κ'
  pinned : ∀ κ', κ' ≠ κ → c.Pinned κ' → c'.Pinned κ'

/-- Process `p` has come so far with block `κ` as `h` says, the contents of the blocks are now
    `view`, and the disk and what is dirty stay. -/
structure Moves [Fintype P] (c c' : Cache P α) (p : P) (κ : Key) (h : Hold) (view : Key → α) :
    Prop extends Acts c c' p κ where
  holds : c'.Holds p κ h
  view : c'.view = view
  disk : c'.disk = c.disk
  pin : c.Pinned κ → c'.Pinned κ

section

variable [Fintype P] {c c' : Cache P α} {p q : P} {κ : Key} {i : BufId} {b : Buf P α}
variable {o : Option BufId}

omit [Fintype P] in
/-- A pin survives. -/
theorem pinned_setBuf (hkey : b.key = (c.buf i).key)
    (hd : κ' = b.key → (c.buf i).dirty = true → b.dirty = true) (hp : c.Pinned κ') :
    (c.setBuf i b).Pinned κ' := by
  obtain ⟨j, hj, hdj⟩ := hp
  rcases eq_or_ne j i with rfl | hji
  · refine ⟨j, ?_, ?_⟩
    · rw [setBuf_self, hkey, hj]
    · rw [setBuf_self]
      exact hd (by rw [hkey, hj]) hdj
  · refine ⟨j, ?_, ?_⟩ <;> rw [setBuf_ne c b hji]
    · exact hj
    · exact hdj

/-- The buffer that `p` has for `κ` changes, with nobody else's lock on it. -/
theorem Cached.acts (h : Cached c) (hi : c.ptr p κ = some i) (hkey : b.key = κ)
    (href : b.refcnt = (c.buf i).refcnt) (hlock : ∀ q, q ≠ p → (c.buf i).lock ≠ some q)
    (hlock' : ∀ q, q ≠ p → b.lock ≠ some q) (hok : b.Ok c.disk) :
    Acts c (c.setBuf i b) p κ := by
  obtain ⟨hki, hpos⟩ := h.ptr p κ i hi
  have hkey' := hkey.trans hki.symm
  refine ⟨h.setBuf hkey' href (fun q hq => ?_) hok, fun q κ' hne => ?_, fun κ' hne hp => ?_⟩
  · grind
  · -- another process has no lock on buffer `i`, and another block another buffer
    have hcase (j : BufId) (hj : c.ptr q κ' = some j) : q ≠ p ∨ j ≠ i := by
      refine hne.imp_right fun hκ hji => hκ ?_
      rw [← (h.ptr q κ' j hj).1, hji, hki]
    refine ⟨rfl, fun j hj => ?_, fun j hj hl => ?_⟩
    · rcases eq_or_ne j i with rfl | hji
      · simp_all
      · rw [setBuf_ne c b hji]
    · rcases eq_or_ne j i with rfl | hji
      · grind
      · rw [setBuf_ne c b hji]
        exact ⟨rfl, rfl⟩
  · exact pinned_setBuf hkey' (fun hκ => absurd (hκ.trans hkey) hne) hp

omit [Fintype P] in
theorem withBuf_some {β : Type} {f : BufId → Outcome BioPanic β} (hi : c.ptr p κ = some i) :
    c.withBuf p κ f = f i := by
  rw [withBuf, hi]

omit [Fintype P] in
/-- Only the holder's own lock is on the buffer. -/
theorem lock_ne_of (hl : (c.buf i).lock = some p) : ∀ q, q ≠ p → (c.buf i).lock ≠ some q := by
  intro q hq he
  rw [hl] at he
  exact hq (some.inj he).symm

/-- A read sees the view. -/
theorem read_ok {v : α} (h : Cached c) (hh : c.Holds p κ .modified) (ho : c.read p κ = .ok v) :
    v = c.view κ := by
  obtain ⟨i, hi, -, hv⟩ := hh
  rw [Cache.read, withBuf_some hi] at ho
  cases ho
  exact (h.view_valid (h.ptr p κ i hi).1 hv).symm

/-- The lock is taken. -/
theorem acquiresleep_ok (h : Cached c) (hh : c.Holds p κ .ref)
    (ho : c.acquiresleep p κ = .ok c') : Moves c c' p κ .locked c.view := by
  obtain ⟨i, hi, -⟩ := hh
  obtain ⟨hki, -⟩ := h.ptr p κ i hi
  rw [acquiresleep, withBuf_some hi] at ho
  split at ho
  · rename_i hfree
    cases ho
    have hok := h.ok i
    have hu : (c.buf i).unsaved = false := by
      by_contra hne
      obtain ⟨q, hq⟩ := hok.unsaved (by simpa using hne)
      rw [hfree] at hq
      cases hq
    have hacts : Acts c (c.setBuf i { c.buf i with lock := some p }) p κ := by
      refine h.acts hi hki rfl (fun q _ => ?_) (fun q hq he => hq (some.inj he).symm)
        ⟨fun _ => ⟨p, rfl⟩, hok.dirty, hok.bound, hok.clean⟩
      rw [hfree]
      exact nofun
    refine { hacts with holds := ⟨i, hi, ?_, ?_⟩, view := view_setBuf_same rfl rfl rfl, disk := rfl,
                        pin := pinned_setBuf (by rfl) (fun _ hd => hd) }
    · rw [setBuf_self]
    · rw [setBuf_self]
      exact hu
  · cases ho

/-- The lock is given back. -/
theorem releasesleep_ok [DecidableEq P] (h : Cached c) (hh : c.Holds p κ .valid)
    (ho : c.releasesleep p κ = .ok c') : Moves c c' p κ .ref c.view := by
  obtain ⟨i, hi, hl, -, hu⟩ := hh
  obtain ⟨hki, -⟩ := h.ptr p κ i hi
  rw [releasesleep, withBuf_some hi, if_pos hl] at ho
  cases ho
  have hok := h.ok i
  have hacts : Acts c (c.setBuf i { c.buf i with lock := none }) p κ := by
    refine h.acts hi hki rfl (lock_ne_of hl) (fun q _ => nofun)
      ⟨fun hu' => ?_, hok.dirty, hok.bound, hok.clean⟩
    rw [show (c.buf i).unsaved = true from hu'] at hu
    cases hu
  refine { hacts with holds := ⟨i, hi, ?_⟩, view := view_setBuf_same rfl rfl rfl, disk := rfl,
                      pin := pinned_setBuf (by rfl) (fun _ hd => hd) }
  rw [setBuf_self]
  exact nofun

/-- The buffer is pinned. -/
theorem pin_ok (h : Cached c) (hh : c.Holds p κ .modified) (ho : c.pin p κ = .ok c') :
    Moves c c' p κ .valid c.view ∧ c'.Pinned κ := by
  obtain ⟨i, hi, hl, hv⟩ := hh
  obtain ⟨hki, -⟩ := h.ptr p κ i hi
  rw [pin, withBuf_some hi] at ho
  cases ho
  have hok := h.ok i
  have hacts : Acts c (c.setBuf i { c.buf i with dirty := true, unsaved := false }) p κ :=
    h.acts hi hki rfl (lock_ne_of hl) (lock_ne_of hl) ⟨nofun, fun _ => hv, hok.bound, nofun⟩
  refine ⟨{ hacts with holds := ⟨i, hi, ?_, ?_, ?_⟩, view := view_setBuf_same rfl rfl rfl,
                       disk := rfl, pin := pinned_setBuf (by rfl) (fun _ _ => rfl) }, i, ?_, ?_⟩
  all_goals rw [setBuf_self]
  · exact hl
  · exact hv
  · exact hki

/-- The view changes at the key. -/
theorem modify_ok {f : α → α} (h : Cached c) (hh : c.Holds p κ .modified)
    (ho : c.modify p κ f = .ok c') :
    Moves c c' p κ .modified (update c.view κ (f (c.view κ))) ∧ c'.Unsaved p κ := by
  obtain ⟨i, hi, hl, hv⟩ := hh
  obtain ⟨hki, -⟩ := h.ptr p κ i hi
  rw [Cache.modify, withBuf_some hi] at ho
  cases ho
  have hok := h.ok i
  have hacts : Acts c (c.setBuf i { c.buf i with data := f (c.buf i).data, unsaved := true }) p κ :=
    h.acts hi hki rfl (lock_ne_of hl) (lock_ne_of hl)
      ⟨fun _ => ⟨p, hl⟩, hok.dirty, hok.bound, nofun⟩
  refine ⟨{ hacts with holds := ⟨i, hi, ?_, ?_⟩, view := ?_, disk := rfl,
                       pin := pinned_setBuf (by rfl) (fun _ hd => hd) }, i, hi, ?_, ?_⟩
  · rw [setBuf_self]
    exact hl
  · rw [setBuf_self]
    exact hv
  · rw [hacts.cached.view_setBuf rfl hv, hki, h.view_valid hki hv]
  · rw [setBuf_self]
    exact hl
  · rw [setBuf_self]

variable [DecidableEq P]

omit [Fintype P] in
/-- `iderw` reads what was not read. -/
theorem iderw_read (hl : (c.buf i).lock = some p) (hv : ¬ (c.buf i).valid = true)
    (hd : (c.buf i).dirty = false) (ho : c.iderw p i = .ok c') :
    (c.buf i).key.2 < FSSIZE
      ∧ c' = c.setBuf i { c.buf i with valid := true, data := c.disk (c.buf i).key } := by
  unfold iderw at ho
  rw [if_neg (fun hne => hne hl), if_neg (fun hv' => hv hv'.1)] at ho
  split at ho
  · cases ho
  · rw [if_neg (by rw [hd]; exact nofun)] at ho
    cases ho
    exact ⟨by omega, rfl⟩

omit [Fintype P] in
/-- `iderw` writes what is dirty. -/
theorem iderw_write (hl : (c.buf i).lock = some p) (hd : (c.buf i).dirty = true)
    (ho : c.iderw p i = .ok c') :
    c' = (c.setBuf i { c.buf i with valid := true, dirty := false, unsaved := false }).setDisk
      (c.buf i).key (c.buf i).data := by
  unfold iderw at ho
  rw [if_neg (fun hne => hne hl), if_neg (fun hv' => by rw [hd] at hv'; cases hv'.2)] at ho
  split at ho
  · cases ho
  · cases ho
    rfl

/-- The block is read. -/
theorem fill_ok (h : Cached c) (hh : c.Holds p κ .locked) (ho : c.fill p κ = .ok c') :
    Moves c c' p κ .valid c.view := by
  obtain ⟨i, hi, hl, hu⟩ := hh
  obtain ⟨hki, hpos⟩ := h.ptr p κ i hi
  have hok := h.ok i
  rw [fill, withBuf_some hi] at ho
  split at ho
  · rename_i hv
    cases ho
    exact ⟨⟨h, fun _ _ _ => ⟨rfl, fun _ _ => .rfl, fun _ _ _ => ⟨rfl, rfl⟩⟩, fun _ _ hp => hp⟩,
      ⟨i, hi, hl, hv, hu⟩, rfl, rfl, id⟩
  · rename_i hv
    have hd : (c.buf i).dirty = false := by
      by_contra hne
      exact hv (hok.dirty (by simpa using hne))
    obtain ⟨hfs, rfl⟩ := iderw_read hl hv hd ho
    have hacts : Acts c (c.setBuf i { c.buf i with valid := true
                                                   data := c.disk (c.buf i).key }) p κ :=
      h.acts hi hki rfl (lock_ne_of hl) (lock_ne_of hl)
        ⟨hok.unsaved, fun _ => rfl, fun _ => ⟨by rw [hki]; exact hpos, hfs⟩, fun _ _ _ => rfl⟩
    refine { hacts with holds := ⟨i, hi, ?_, ?_, ?_⟩, view := ?_, disk := rfl,
                        pin := pinned_setBuf (by rfl) (fun _ hd => hd) }
    · rw [setBuf_self]
      exact hl
    · rw [setBuf_self]
    · rw [setBuf_self]
      exact hu
    · -- before it was read, the block was shown by the disk
      have hview : c.view (c.buf i).key = c.disk (c.buf i).key := by grind [view_invalid, h.unique]
      rw [hacts.cached.view_setBuf rfl rfl, ← hview, update_eq_self]

/-- `bwrite` brings the contents of the block to the disk. -/
theorem bwrite_ok (h : Cached c) (hh : c.Holds p κ .modified) (ho : c.bwrite p κ = .ok c') :
    Acts c c' p κ ∧ c'.Holds p κ .valid ∧ c'.view = c.view
      ∧ c'.disk = update c.disk κ (c.view κ) := by
  obtain ⟨i, hi, hl, hv⟩ := hh
  obtain ⟨hki, hpos⟩ := h.ptr p κ i hi
  rw [bwrite, withBuf_some hi, if_pos hl] at ho
  have hw := iderw_write (by rw [setBuf_self]; exact hl) (by rw [setBuf_self]) ho
  -- first the disk, then the flags
  have h0 := h.setDisk i
  have hw' : c' = (c.setDisk (c.buf i).key (c.buf i).data).setBuf i
      { c.buf i with valid := true, dirty := false, unsaved := false } := by
    rw [hw]
    simp only [setBuf, setDisk, update_self, update_idem]
  have hclean : (c.buf i).data = update c.disk (c.buf i).key (c.buf i).data (c.buf i).key := by
    rw [update_self]
  have hacts := h0.acts (b := { c.buf i with valid := true, dirty := false, unsaved := false }) hi
    hki rfl (lock_ne_of hl) (lock_ne_of hl)
    ⟨nofun, nofun, fun _ => (h.ok i).bound hv, fun _ _ _ => hclean⟩
  rw [← hw'] at hacts
  refine ⟨⟨hacts.cached, fun q κ' hne => ?_, hacts.pinned⟩, ⟨i, ?_, ?_, ?_, ?_⟩, ?_, ?_⟩
  · have hk := hacts.kept q κ' hne
    exact ⟨hk.ptr, hk.lock, hk.buf⟩
  · rw [hw']
    exact hi
  · rw [hw', setBuf_self]
    exact hl
  · rw [hw', setBuf_self]
  · rw [hw', setBuf_self]
  · rw [hw', view_setBuf_same (by rfl) (by exact hv.symm) (by rfl)]
    exact h.view_setDisk hv
  · rw [hw', h.view_valid hki hv, hki]
    rfl

omit [DecidableEq P] in
/-- A buffer without references is no process's. -/
theorem Cached.no_ptr (h : Cached c) (href : (c.buf i).refcnt = 0) (q : P) (κ : Key) :
    c.ptr q κ ≠ some i := by
  intro hq
  have hle := weight_le (points (c.buf i).key i) c.ptr q
  rw [← h.count i, href, (h.ptr q κ i hq).1, points, if_pos hq] at hle
  exact absurd hle (by decide)

omit [Fintype P] in
theorem setPtr_ne (hne : q ≠ p ∨ κ' ≠ κ) : (c.setPtr p κ o).ptr q κ' = c.ptr q κ' := by
  show update c.ptr p (update (c.ptr p) κ o) q κ' = _
  rcases eq_or_ne q p with rfl | hq
  · simp_all
  · rw [update_of_ne hq]

omit [Fintype P] in
theorem setPtr_self : (c.setPtr p κ o).ptr p κ = o := by
  show update c.ptr p (update (c.ptr p) κ o) p κ = o
  rw [update_self, update_self]

/-- Process `p` takes or drops its reference to buffer `i`, which is from now on the buffer of
    block `κ`: it was before, or nobody had a pointer to it. -/
theorem Cached.setRef (h : Cached c) (p : P) (κ : Key) (i : BufId) (b : Buf P α)
    (o : Option BufId) (mru : List BufId) (hmru : ∀ j, j ∈ mru)
    (hkey : b.key = κ) (hpos : 1 ≤ κ.1) (hunique : ∀ j, j ≠ i → (c.buf j).key ≠ κ)
    (hold : (∀ q κ', c.ptr q κ' ≠ some i) ∨ (c.buf i).key = κ ∧ b.lock = (c.buf i).lock
      ∧ b.valid = (c.buf i).valid ∧ b.unsaved = (c.buf i).unsaved)
    (ho : o = some i ∨ o = none)
    (hcount : b.refcnt + points κ i (c.ptr p)
      = Count.total (points κ i) c.ptr + if o = some i then 1 else 0)
    (hdirty : (c.buf i).key = κ ∨ (c.buf i).dirty = false)
    (hlock : ∀ q, b.lock = some q → q ≠ p ∧ c.ptr q κ = some i) (hok : b.Ok c.disk) :
    Acts c { (c.setBuf i b).setPtr p κ o with mru := mru } p κ := by
  -- the new state, field by field
  have hptr (q : P) (κ' : Key) (hne : q ≠ p ∨ κ' ≠ κ) :
      ((c.setBuf i b).setPtr p κ o).ptr q κ' = c.ptr q κ' := setPtr_ne hne
  have hself : ((c.setBuf i b).setPtr p κ o).ptr p κ = o := setPtr_self
  have hbuf (j : BufId) (hj : j ≠ i) : (c.setBuf i b).buf j = c.buf j := setBuf_ne c b hj
  have hbufi : (c.setBuf i b).buf i = b := setBuf_self c i b
  have hkeys (j : BufId) : ((c.setBuf i b).buf j).key = κ ↔ j = i := by grind
  -- pointers to buffer `i` are pointers for `κ`
  have hcase (q : P) (κ' : Key) (hq : c.ptr q κ' = some i) : (c.buf i).key = κ ∧ κ' = κ
      ∧ b.lock = (c.buf i).lock ∧ b.valid = (c.buf i).valid ∧ b.unsaved = (c.buf i).unsaved := by
    rcases hold with hno | ⟨hki, hsame⟩
    · exact absurd hq (hno q κ')
    · exact ⟨hki, by rw [← (h.ptr q κ' i hq).1, hki], hsame⟩
  refine ⟨⟨hmru, ?_, ?_, ?_, ?_, ?_⟩, ?_, ?_⟩
  · intro j k hjk hposj
    by_cases hj : j = i
    · subst hj
      exact ((hkeys k).mp (hjk.symm.trans ((hkeys j).mpr rfl))).symm
    · have hk : k ≠ i := fun hk => hj ((hkeys j).mp (hjk.trans ((hkeys k).mpr hk)))
      simp only [setPtr, hbuf j hj, hbuf k hk] at hjk hposj
      exact h.unique j k hjk hposj
  · intro q κ' j hq
    by_cases hqκ : q = p ∧ κ' = κ
    · obtain ⟨rfl, rfl⟩ := hqκ
      have hoj : o = some j := hself.symm.trans hq
      rcases ho with ho | ho <;> rw [ho] at hoj <;> cases hoj
      exact ⟨(hkeys i).mpr rfl, hpos⟩
    · have hq' : c.ptr q κ' = some j := (hptr q κ' (by tauto)).symm.trans hq
      by_cases hj : j = i
      · subst hj
        obtain ⟨-, rfl, -⟩ := hcase q κ' hq'
        exact ⟨(hkeys j).mpr rfl, hpos⟩
      · simp only [setPtr, hbuf j hj]
        exact h.ptr q κ' j hq'
  · intro j
    by_cases hj : j = i
    · subst hj
      have htotal := total_update (points κ j) c.ptr p (update (c.ptr p) κ o)
      rw [points_update_self] at htotal
      simp only [setPtr, hbufi, hkey, setBuf_ptr]
      omega
    · have htotal := total_update (points (c.buf j).key j) c.ptr p (update (c.ptr p) κ o)
      rw [points_update_ne (hunique j hj)] at htotal
      have hcj := h.count j
      simp only [setPtr, hbuf j hj, setBuf_ptr]
      omega
  · intro j q hq
    by_cases hj : j = i
    · subst hj
      have hq' : b.lock = some q := by rw [← hbufi]; exact hq
      obtain ⟨hqp, hqi⟩ := hlock q hq'
      simp only [setPtr, hbufi, hkey]
      exact (hptr q κ (.inl hqp)).trans hqi
    · simp only [setPtr, hbuf j hj] at hq ⊢
      exact (hptr q _ (.inr (hunique j hj))).trans (h.lock j q hq)
  · intro j
    by_cases hj : j = i
    · subst hj
      simp only [setPtr, hbufi]
      exact hok
    · simp only [setPtr, hbuf j hj]
      exact h.ok j
  · intro q κ' hne
    refine ⟨hptr q κ' hne, fun j hj => ?_, fun j hj _ => ?_⟩
    · by_cases hji : j = i
      · grind [setPtr]
      · simp only [setPtr, hbuf j hji]
    · by_cases hji : j = i
      · grind [setPtr]
      · simp only [setPtr, hbuf j hji, and_self]
  · rintro κ' hne ⟨j, hj, hd⟩
    have hji : j ≠ i := by grind
    refine ⟨j, ?_, ?_⟩ <;> simp only [setPtr, hbuf j hji]
    · exact hj
    · exact hd

/-- The reference is dropped. -/
theorem bput_ok (h : Cached c) (hh : c.Holds p κ .ref) (ho : c.bput p κ = .ok c') :
    Moves c c' p κ .none c.view := by
  obtain ⟨i, hi, hl⟩ := hh
  obtain ⟨hki, hpos⟩ := h.ptr p κ i hi
  rw [bput, withBuf_some hi] at ho
  cases ho
  have hok := h.ok i
  have hone : points κ i (c.ptr p) = 1 := if_pos hi
  have hle := weight_le (points κ i) c.ptr p
  have hcount := h.count i
  rw [hki] at hcount
  have hacts := h.setRef p κ i { c.buf i with refcnt := (c.buf i).refcnt - 1 } none
    (if (c.buf i).refcnt - 1 = 0 then i :: c.mru.erase i else c.mru) ?_ hki hpos
    (fun j hj hk => hj (h.unique j i (hk.trans hki.symm) (by rw [hk]; exact hpos)))
    (.inr ⟨hki, rfl, rfl, rfl⟩) (.inr rfl) ?_ (.inl hki) ?_
    ⟨hok.unsaved, hok.dirty, hok.bound, hok.clean⟩
  · refine { hacts with holds := ?_, view := ?_, disk := rfl, pin := ?_ }
    · exact setPtr_self
    · exact view_setBuf_same (by rfl) (by rfl) (by rfl)
    · exact pinned_setBuf (by rfl) (fun _ hd => hd)
  · intro j
    split
    · by_cases hj : j = i
      · rw [hj]
        exact mem_cons_self ..
      · exact mem_cons_of_mem _ ((mem_erase_of_ne hj).mpr (h.all j))
    · exact h.all j
  · simp only [reduceCtorEq, if_false]
    omega
  · intro q hq
    have hq' : (c.buf i).lock = some q := hq
    refine ⟨fun hqp => hl (hqp ▸ hq'), ?_⟩
    rw [← hki]
    exact h.lock i q hq'

omit [DecidableEq P] in
/-- What a clean buffer without references showed is shown by the disk, once it is taken for
    another block. -/
theorem Cached.view_recycle (h : Cached c) (href : (c.buf i).refcnt = 0)
    (hd : (c.buf i).dirty = false) :
    (c.setBuf i { c.buf i with key := κ, valid := false, dirty := false, refcnt := 1,
                               unsaved := false }).view = c.view := by
  have hu : (c.buf i).unsaved = false := by
    by_contra hne
    obtain ⟨q, hq⟩ := (h.ok i).unsaved (by simpa using hne)
    exact h.no_ptr href q _ (h.lock i q hq)
  ext κ'
  by_cases hκ : κ' = (c.buf i).key ∧ (c.buf i).valid = true
  · obtain ⟨rfl, hv⟩ := hκ
    rw [h.view_valid rfl hv, (h.ok i).clean hv hd hu]
    refine view_invalid fun j hj => ?_
    by_cases hji : j = i
    · rw [hji, setBuf_self]
    · rw [setBuf_ne _ _ hji] at hj ⊢
      exact absurd (h.unique i j hj.symm ((h.ok i).bound hv).1) (Ne.symm hji)
  · refine view_congr_at (fun j => ?_) (fun j hj hv => ?_) rfl
    · by_cases hji : j = i
      · simp_all
      · rw [setBuf_ne _ _ hji]
    · by_cases hji : j = i
      · subst hji
        exact absurd ⟨hj.symm, hv⟩ hκ
      · rw [setBuf_ne _ _ hji]

/-- A reference is taken. -/
theorem bget_ok (h : Cached c) (hh : c.Holds p κ .none) (hpos : 1 ≤ κ.1)
    (ho : c.bget p κ = .ok c') : Moves c c' p κ .ref c.view := by
  have hh' : c.ptr p κ = none := hh
  have hzero (i : BufId) : points κ i (c.ptr p) = 0 := if_neg (by rw [hh']; exact nofun)
  unfold bget at ho
  split at ho
  · rename_i i hf
    cases ho
    -- The block is cached.
    have hki : (c.buf i).key = κ := by simpa using find?_some hf
    have hok := h.ok i
    have hcount := h.count i
    rw [hki] at hcount
    have hlock (q : P) (hq : (c.buf i).lock = some q) : q ≠ p ∧ c.ptr q κ = some i := by
      grind [h.lock]
    have hacts := h.setRef p κ i { c.buf i with refcnt := (c.buf i).refcnt + 1 } (some i) c.mru
      h.all hki hpos
      (fun j hj hk => hj (h.unique j i (hk.trans hki.symm) (by rw [hk]; exact hpos)))
      (.inr ⟨hki, rfl, rfl, rfl⟩) (.inl rfl) ?_ (.inl hki) hlock
      ⟨hok.unsaved, hok.dirty, hok.bound, hok.clean⟩
    · refine { hacts with holds := ⟨i, setPtr_self, ?_⟩, view := ?_, disk := rfl, pin := ?_ }
      · simp only [setPtr, setBuf_self]
        exact fun hl => (hlock p hl).1 rfl
      · exact view_setBuf_same (by rfl) (by rfl) (by rfl)
      · exact pinned_setBuf (by rfl) (fun _ hd => hd)
    · rw [hzero, if_pos rfl]
      show (c.buf i).refcnt + 1 + 0 = _
      omega
  · rename_i hf
    split at ho
    · rename_i i hr
      cases ho
      -- A buffer nobody points to and that is clean is recycled.
      have hnew (j : BufId) : (c.buf j).key ≠ κ := by
        simpa using find?_eq_none.mp hf j (h.all j)
      obtain ⟨href, hd⟩ : (c.buf i).refcnt = 0 ∧ (c.buf i).dirty = false := by
        simpa using find?_some hr
      have hno := h.no_ptr href
      have hacts := h.setRef p κ i { c.buf i with key := κ, valid := false, dirty := false,
                                                  refcnt := 1, unsaved := false } (some i) c.mru
        h.all rfl hpos (fun j _ => hnew j) (.inl hno) (.inl rfl) ?_ (.inr hd)
        (fun q hq => absurd (h.lock i q hq) (hno q _)) ⟨nofun, nofun, nofun, nofun⟩
      · refine { hacts with holds := ⟨i, setPtr_self, ?_⟩, view := ?_, disk := rfl, pin := ?_ }
        · simp only [setPtr, setBuf_self]
          exact fun hl => hno p _ (h.lock i p hl)
        · exact h.view_recycle href hd
        · rintro ⟨j, hj, -⟩
          exact absurd hj (hnew j)
      · have hcount : total (points κ i) c.ptr = 0 :=
          total_eq_zero fun q => if_neg (hno q κ)
        rw [hzero, hcount, if_pos rfl]
    · cases ho

end

/-- After `binit` the invariant holds, and the disk shows. -/
theorem binit_cached [Fintype P] (disk : Key → α) (junk : α) :
    Cached (.binit disk junk : Cache P α) where
  all := fun i => mem_reverse.mpr (mem_finRange i)
  unique := fun _ _ _ hpos => absurd hpos (Nat.not_succ_le_zero 0)
  ptr := nofun
  count := fun _ => (total_eq_zero fun _ => rfl).symm
  lock := nofun
  ok := fun _ => ⟨nofun, nofun, nofun, nofun⟩

/-- At first the view is the disk. -/
theorem binit_view (disk : Key → α) (junk : α) : (.binit disk junk : Cache P α).view = disk := by
  ext κ
  exact view_invalid fun _ _ => rfl

end Xv6.Logging
