import Xv6.MmapSpec
import Xv6.Lib.Chain

namespace Xv6.Kernel

open Chain List Outcome

/-!
# Where `mmap` puts an area

* `mmapFixedLoop_cases`, `mmapAnyLoop_cases` — the search ends at an area of the list, the
  areas before it having failed the branch's test;
* `mmapPlace_ok` — the new record is linked in after that area, its pages are mapped, and
  guard pages are adjusted;
* `placed` — the state in which the pages are mapped.
-/

variable {L : Link} {own own' : Frame → Owner} {k k' : Kernel} {p : Slot}
variable {length flags prot : Word} {curr : VmaPtr} {r : Res (Word × Kernel)} {n : Nat}
   {vma : Frame} {s : Phys}

/-- The area behind a pointer. -/
def read (k : Kernel) (x : VmaPtr) : Option VmArea := (k.deref x).get?

theorem read_eq_some {x : VmaPtr} {v : VmArea} : k.read x = some v ↔ k.deref x = .ok v :=
  get?_eq_some

/-- From `x`, following `next`, one comes to `y` through the areas of `l`. -/
abbrev Areas (k : Kernel) (x : VmaPtr) (l : List (VmaPtr × VmArea)) (y : VmaPtr) : Prop :=
  Path k.read VmArea.next x l y

/-! ### The search -/

/-- The pointer `prev_vma` of the search loops, when `l` has been passed and `curr` reached. -/
def prevOf (l : List (VmaPtr × VmArea)) (curr : VmaPtr) : VmaPtr :=
  (l.getLast?.map Prod.fst).getD curr

/-- The test of the `MAP_FIXED` branch fails at area `v`. -/
structure FixedFails (k : Kernel) (addr length : Word) (v : VmArea) : Prop where
  start : v.start ≠ MAX_ADDR
  out : ¬ (v.start ≤ addr ∧ addr ≤ v.end_)
  room : ∃ n, k.deref v.next = .ok n ∧ ¬ (addr < n.start ∧ length.toInt < v.space_after.toInt)

/-- The search of the `MAP_FIXED` branch, from `curr` on, `l0` having been passed. -/
theorem mmapFixedLoop_cases {addr fd : Word} (l0 : List (VmaPtr × VmArea))
    (h : mmapFixedLoop L k p addr length prot flags fd n (prevOf l0 curr) curr = r) :
    r = .ok (-1, k) ∨ r = .wild ∨ r = .hang
      ∨ ∃ l x v n, Areas k curr l x ∧ (∀ c u, (c, u) ∈ l → FixedFails k addr length u)
        ∧ k.deref x = .ok v ∧ v.start ≠ MAX_ADDR ∧ ¬ (v.start ≤ addr ∧ addr ≤ v.end_)
        ∧ k.deref v.next = .ok n ∧ addr < n.start ∧ length.toInt < v.space_after.toInt
        ∧ r = k.mmapPlace L p (prevOf (l0 ++ l) x) x addr length prot flags fd true := by
  induction n generalizing curr l0 with
  | zero => exact .inr (.inr (.inl h.symm))
  | succ m ih =>
    unfold mmapFixedLoop at h
    rcases deref_cases k curr with hd | ⟨c, hd⟩
    · rw [hd] at h
      exact .inr (.inl h.symm)
    rw [hd, ok_bind] at h
    by_cases hs : c.start = MAX_ADDR
    · rw [if_pos hs] at h
      exact .inl h.symm
    rw [if_neg hs] at h
    by_cases hin : c.start ≤ addr ∧ addr ≤ c.end_
    · rw [if_pos hin] at h
      exact .inl h.symm
    rw [if_neg hin] at h
    rcases deref_cases k c.next with hn | ⟨next, hn⟩
    · rw [hn] at h
      exact .inr (.inl h.symm)
    rw [hn, ok_bind] at h
    by_cases hroom : addr < next.start ∧ length.toInt < c.space_after.toInt
    · rw [if_pos hroom] at h
      refine .inr (.inr (.inr ⟨[], curr, c, next, .nil _, by simp, hd, hs, hin, hn, hroom.1,
        hroom.2, ?_⟩))
      rw [append_nil]
      exact h.symm
    · rw [if_neg hroom] at h
      have hprev : prevOf (l0 ++ [(curr, c)]) c.next = curr := by
        simp [prevOf]
      rw [← hprev] at h
      rcases ih _ h with h | h | h | ⟨l, x, v, n', hp, hf, hrest⟩
      · exact .inl h
      · exact .inr (.inl h)
      · exact .inr (.inr (.inl h))
      · refine .inr (.inr (.inr ⟨(curr, c) :: l, x, v, n', .cons (read_eq_some.mpr hd) hp, ?_, ?_⟩))
        · intro d u hmem
          rcases mem_cons.mp hmem with heq | hmem
          · cases heq
            exact ⟨hs, hin, next, hn, hroom⟩
          · exact hf d u hmem
        · rw [append_assoc, singleton_append] at hrest
          exact hrest

/-- The search of the other branch. -/
theorem mmapAnyLoop_cases {fd : Word} (l0 : List (VmaPtr × VmArea))
    (h : mmapAnyLoop L k p length prot flags fd n (prevOf l0 curr) curr = r) :
    r = .ok (-1, k) ∨ r = .wild ∨ r = .hang
      ∨ ∃ l x v, Areas k curr l x
        ∧ (∀ c u, (c, u) ∈ l → u.start ≠ MAX_ADDR ∧ ¬ length.toInt < u.space_after.toInt)
        ∧ k.deref x = .ok v ∧ v.start ≠ MAX_ADDR ∧ length.toInt < v.space_after.toInt
        ∧ r = k.mmapPlace L p (prevOf (l0 ++ l) x) x (v.end_ + 1) length prot flags fd false := by
  induction n generalizing curr l0 with
  | zero => exact .inr (.inr (.inl h.symm))
  | succ m ih =>
    unfold mmapAnyLoop at h
    rcases deref_cases k curr with hd | ⟨c, hd⟩
    · rw [hd] at h
      exact .inr (.inl h.symm)
    rw [hd, ok_bind] at h
    by_cases hs : c.start = MAX_ADDR
    · rw [if_pos hs] at h
      exact .inl h.symm
    rw [if_neg hs] at h
    by_cases hroom : length.toInt < c.space_after.toInt
    · rw [if_pos hroom] at h
      refine .inr (.inr (.inr ⟨[], curr, c, .nil _, by simp, hd, hs, hroom, ?_⟩))
      rw [append_nil]
      exact h.symm
    · rw [if_neg hroom] at h
      have hprev : prevOf (l0 ++ [(curr, c)]) c.next = curr := by
        simp [prevOf]
      rw [← hprev] at h
      rcases ih _ h with h | h | h | ⟨l, x, v, hp, hf, hrest⟩
      · exact .inl h
      · exact .inr (.inl h)
      · exact .inr (.inr (.inl h))
      · refine .inr (.inr (.inr ⟨(curr, c) :: l, x, v, .cons (read_eq_some.mpr hd) hp, ?_, ?_⟩))
        · grind
        · rw [append_assoc, singleton_append] at hrest
          exact hrest

/-! ### Linking in the record -/

/-- The state in which the pages of a new area are mapped: the area `v` is recorded in frame
    `vma` after `curr`, whose free space has been reduced; an area at the start of the region
    has been copied over the head of the list. -/
def placed (k : Kernel) (p : Slot) (s : Phys) (curr : VmaPtr) (c : VmArea)
    (vma : Frame) (v : VmArea)
    (length : Word) (fixed : Bool) : Kernel :=
  let k := (({ k with phys := s } : Kernel).setVma (.node vma) v).setVma curr
    { c with space_after := c.space_after - length, next := .node vma }
  if fixed ∧ v.start = MIN_ADDR then k.setVma (.head p) v else k

/-- `create_vma` after `curr`, whose `space_after` was reduced before. -/
theorem createVma_eq {c nx : VmArea} {start fd : Word} (hk : kalloc k.phys = (some vma, s))
    (hne : curr ≠ .node vma) (hd : k.deref curr = .ok c) (hn : k.deref c.next = .ok nx) :
    (k.setVma curr { c with space_after := c.space_after - length }).createVma p curr c.next
        start length prot flags fd
      = .ok (vma, (({ k with phys := s } : Kernel).setVma (.node vma)
          (({ k with phys := s } : Kernel).newVma p vma c.next nx.start start length prot flags
            fd)).setVma curr
          { c with space_after := c.space_after - length, next := .node vma }) := by
  have hcurr : curr ≠ .null := by
    rintro rfl
    cases hd
  -- the next area's start is read after the write to `curr`, which does not change it
  obtain ⟨n, hn', hstart⟩ : ∃ n, (k.setVma curr { c with
      space_after := c.space_after - length }).deref c.next = .ok n ∧ n.start = nx.start := by
    by_cases heq : c.next = curr
    · rw [heq, hd] at hn
      cases hn
      rw [heq]
      exact ⟨_, deref_setVma_self _ _ hcurr, rfl⟩
    · exact ⟨nx, by rw [deref_setVma_ne _ _ heq, hn], rfl⟩
  have hn2 : (({ k with phys := s } : Kernel).setVma curr { c with
      space_after := c.space_after - length }).deref c.next = .ok n := by
    rw [← hn', ← setVma_setPhys]
    cases c.next <;> rfl
  have hnew : (({ k with phys := s } : Kernel).setVma curr { c with
      space_after := c.space_after - length }).newVma
        p vma c.next n.start start length prot flags fd
      = ({ k with phys := s } : Kernel).newVma
        p vma c.next nx.start start length prot flags fd := by
    simp [newVma, ofileAt, hstart]
  unfold createVma
  rw [setVma_phys, hk]
  simp only
  rw [setVma_setPhys, hn2, ok_bind, hnew, setVma_node_comm _ _ _ hne,
    deref_setVma_self _ _ hcurr, ok_bind, setVma_setVma_self]
  rfl

/-- Placing an area: the record is linked in, the pages are mapped, guard pages adjusted. -/
theorem mmapPlace_eq {prev : VmaPtr} {c nx : VmArea} {start fd : Word} {fixed : Bool}
    (hk : kalloc k.phys = (some vma, s)) (hne : curr ≠ .node vma) (hd : k.deref curr = .ok c)
    (hn : k.deref c.next = .ok nx) :
    k.mmapPlace L p prev curr start length prot flags fd fixed = (mmapPages L p vma start
          (({ k with phys := s } : Kernel).newVma
            p vma c.next nx.start start length prot flags fd).end_
          prot flags fd loopBound
          (k.placed p s curr c vma
            (({ k with phys := s } : Kernel).newVma
              p vma c.next nx.start start length prot flags fd)
            length fixed) start >>= fun k =>
          k.mmapUnguard prev curr >>= fun k => k.mmapGuard vma start flags) := by
  unfold mmapPlace
  rw [hd, ok_bind]
  simp only
  rw [createVma_eq hk hne hd hn, ok_bind]
  have hv : ∀ (k : Kernel) (v w : VmArea),
      (((k.setVma (.node vma) v).setVma curr w).vma vma) = v := by
    intro k v w
    rw [← setVma_node_comm _ _ _ hne]
    simp [setVma]
  simp only [hv]
  rfl

end Xv6.Kernel
