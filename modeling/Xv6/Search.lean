import Xv6.Takes
import Xv6.Translation

namespace Xv6.Kernel

open Run

/-!
# The search of `mmap`, and what an `mmap` that fails leaves

`sys_mmap` searches the list for a place and then works there.  The search changes nothing;
the work is never taken back.  So a call that returns -1 has left everything as it was iff
its search found no place:

* `mmapFind`, `sysMmap_eq` — the search by itself, and the call in terms of it;
* `mmap_failed_iff` — when -1 means that nothing happened.
-/

variable {L : Link} {k k' : Kernel} {p : Slot} {addr length prot flags fd : Word}

/-- A place for a new area: at `start`, after `curr`; `prev` was visited before `curr`. -/
structure Place where
  prev : VmaPtr
  curr : VmaPtr
  start : Word
  fixed : Bool

/-- The search of the `MAP_FIXED` branch. -/
def fixedFind (k : Kernel) (addr length : Word) : Nat → VmaPtr → VmaPtr → Res (Option Place)
  | 0, _, _ => .hang
  | n + 1, prev, curr => do
    let c ← k.deref curr
    if c.start = MAX_ADDR then return none
    else if c.start ≤ addr ∧ addr ≤ c.end_ then return none
    else
      let next ← k.deref c.next
      if addr < next.start ∧ length.toInt < c.space_after.toInt then
        return some ⟨prev, curr, addr, true⟩
      else fixedFind k addr length n curr c.next

/-- The search of the other branch. -/
def anyFind (k : Kernel) (length : Word) : Nat → VmaPtr → VmaPtr → Res (Option Place)
  | 0, _, _ => .hang
  | n + 1, prev, curr => do
    let c ← k.deref curr
    if c.start = MAX_ADDR then return none
    else if length.toInt < c.space_after.toInt then return some ⟨prev, curr, c.end_ + 1, false⟩
    else anyFind k length n curr c.next

/-- Where `sys_mmap` would put an area, if anywhere. -/
def mmapFind (k : Kernel) (p : Slot) (addr length flags : Word) : Res (Option Place) :=
  if flags &&& MAP_FIXED ≠ 0#32 then
    if addr % PGSIZE ≠ 0#32 ∨ addr < MIN_ADDR ∨ MAX_ADDR ≤ addr then .ok none
    else k.fixedFind addr length loopBound (.head p) (.head p)
  else k.anyFind length loopBound (.head p) (.head p)

/-- What `sys_mmap` does with the result of its search. -/
def mmapAt (L : Link) (k : Kernel) (p : Slot) (length prot flags fd : Word) :
    Option Place → Res (Word × Kernel)
  | none => .ok (-1, k)
  | some pl => k.mmapPlace L p pl.prev pl.curr pl.start length prot flags fd pl.fixed

theorem mmapFixedLoop_eq (n : Nat) (prev curr : VmaPtr) :
    k.mmapFixedLoop L p addr length prot flags fd n prev curr
      = k.fixedFind addr length n prev curr >>= k.mmapAt L p length prot flags fd := by
  induction n generalizing prev curr with
  | zero => rfl
  | succ n ih =>
    rw [mmapFixedLoop, fixedFind, bind_assoc]
    congr 1
    funext c
    split
    · rfl
    split
    · rfl
    rw [bind_assoc]
    congr 1
    funext next
    split
    · rfl
    · exact ih curr c.next

theorem mmapAnyLoop_eq (n : Nat) (prev curr : VmaPtr) :
    k.mmapAnyLoop L p length prot flags fd n prev curr
      = k.anyFind length n prev curr >>= k.mmapAt L p length prot flags fd := by
  induction n generalizing prev curr with
  | zero => rfl
  | succ n ih =>
    rw [mmapAnyLoop, anyFind, bind_assoc]
    congr 1
    funext c
    split
    · rfl
    split
    · rfl
    · exact ih curr c.next

theorem sysMmap_eq : sysMmap L k p addr length prot flags fd
    = k.mmapFind p addr length flags >>= k.mmapAt L p length prot flags fd := by
  unfold sysMmap mmapFind
  split
  · split
    · rfl
    · exact mmapFixedLoop_eq _ _ _
  · exact mmapAnyLoop_eq _ _ _

/-! ### Failure -/

/-- The list of areas of `p`, its translations and the free frames are what they were. -/
structure Untouched (k : Kernel) (p : Slot) (k' : Kernel) : Prop where
  areas : ∀ n, k'.areas p n = k.areas p n
  tail : (k'.proc p).tail = (k.proc p).tail
  trans : ∀ va, k'.trans p va = k.trans p va
  free : k'.phys.freelist.Perm k.phys.freelist

theorem Untouched.refl (k : Kernel) (p : Slot) : Untouched k p k :=
  ⟨fun _ => rfl, rfl, fun _ => rfl, List.Perm.refl _⟩

/-- An area that was placed is not taken back: its record at least is a frame less. -/
theorem Untouched.not_placed {r : Word} (hr : sysMmap L k p addr length prot flags fd = .ok (r, k'))
    (h : Untouched k p k') : k.mmapFind p addr length flags = .ok none := by
  rw [sysMmap_eq] at hr
  obtain ⟨pl, hfind, hr⟩ := Outcome.bind_eq_ok.mp hr
  cases pl with
  | none => exact hfind
  | some pl =>
    have hlt := mmapPlace_fewer hr
    exact absurd h.free.length_eq (Nat.ne_of_lt hlt)

theorem sysMmap_of_none (h : k.mmapFind p addr length flags = .ok none) :
    sysMmap L k p addr length prot flags fd = .ok (-1, k) := by
  rw [sysMmap_eq, h]
  rfl

/-- In every state: an `mmap` that returns -1 has left everything as it was iff its search
    found no place. -/
theorem mmap_failed_iff (hr : sysMmap L k p addr length prot flags fd = .ok (-1, k')) :
    Untouched k p k' ↔ k.mmapFind p addr length flags = .ok none := by
  constructor
  · exact Untouched.not_placed hr
  · intro hnone
    rw [sysMmap_of_none hnone] at hr
    cases hr
    exact .refl k p

/-- A request that is not aligned. -/
theorem mmap_failed_unaligned :
    sysMmap startLink (start 16) 0 0x60000001 0x1000 3 0xD 0 = .ok (-1, start 16)
      ∧ Untouched (start 16) 0 (start 16) :=
  have hr : sysMmap startLink (start 16) 0 0x60000001 0x1000 3 0xD 0 = .ok (-1, start 16) := rfl
  ⟨hr, (mmap_failed_iff hr).mpr rfl⟩

/-- The page after the new area is taken: there is no room for a guard page, and `mmap`
    returns -1 with the area mapped. -/
theorem mmap_failed_mapped : ∃ k k', Reach (user startLink 0) (FlagsCall 0) (start 16) k
    ∧ sysMmap startLink k 0 0x60002000 0x1000 3 0x1D 0 = .ok (-1, k')
    ∧ k.trans 0 0x60002000 = none ∧ k'.trans 0 0x60002000 ≠ none ∧ ¬ Untouched k 0 k' := by
  obtain ⟨k, hk, hmap⟩ := Outcome.holds_iff.mp (show
    (user startLink 0 (start 16) (.mmap 0x60003000 0x1000 3 0xD 0)).holds (fun k =>
      (sysMmap startLink k 0 0x60002000 0x1000 3 0x1D 0).holds (fun r =>
        r.1 = -1 ∧ k.trans 0 0x60002000 = none ∧ r.2.trans 0 0x60002000 ≠ none)) = true by
      decide +kernel)
  obtain ⟨⟨r, k'⟩, hr, htest⟩ := Outcome.holds_iff.mp hmap
  obtain ⟨rfl, hnone, hsome⟩ := of_decide_eq_true htest
  have hc : FlagsCall 0 (start 16) (.mmap 0x60003000 0x1000 3 0xD 0) :=
    ⟨by decide, by decide, fun h => absurd h (by decide)⟩
  refine ⟨k, k', Reach.refl.tail hc hk, hr, hnone, hsome, fun h => hsome ?_⟩
  rw [h.trans, hnone]

end Xv6.Kernel
