import Xv6.Proc
import Xv6.Ordered
import Xv6.Lib.Run

namespace Xv6

open Chain List

/-!
# One process and its memory calls

* `Call`, `user` — what one process can do to its memory: `mmap`, `munmap`,
  `sbrk`, and faulting;
* `Execed k p` — the state in which `exec` leaves process `p`;
* `ListOk k p` — what every user of the list of areas takes for granted about it;
* `Execed.sound` — it holds, with all of `Sound`, when `exec` returns.
-/

/-- A system call or a fault of one process. -/
inductive Call where
  | mmap (addr length prot flags fd : Word)
  | munmap (addr length : Word)
  | fault (va : Word)
  | sbrk (n : Word)

namespace Kernel

/-- One call of process `p`.  A killed process does not get to make one: on its way back to
    user mode `trap` calls `exit`, which does not return. -/
def user (L : Link) (p : Slot) (k : Kernel) (c : Call) : Res Kernel :=
  if (k.proc p).killed then .hang
  else
    match c with
    | .mmap addr length prot flags fd => do
      let (_, k) ← k.sysMmap L p addr length prot flags fd
      return k
    | .munmap addr length => do
      let (_, k) ← k.sysMunmap L p addr length
      return k
    | .fault va => k.trapPgflt L p va
    | .sbrk n => do
      let (_, k) ← k.growproc L p n
      return k

/-- The state in which `exec` leaves process `p`: the head and tail of its list are set as
    `exec.c` sets them; of the head's other fields, `guardstart` is zero or junk, as no code
    gives the head a guard page.  The page tables, user pages and free frames are apart, the
    kernel's half of the address space is mapped, and user memory ends at `sz`, below the
    region for areas. -/
structure Execed (own : Frame → Owner) (k : Kernel) (p : Slot) : Prop where
  alive : (k.proc p).killed = false
  head_valid : (k.proc p).head.valid = 0
  head_start : (k.proc p).head.start = 0x60000000
  head_end : (k.proc p).head.end_ = 0x5FFFFFFF
  head_len : (k.proc p).head.len = 0
  head_space : (k.proc p).head.space_after = 0x20000000
  head_next : (k.proc p).head.next = .tail p
  head_guard : (k.proc p).head.guardstart = 0 ∨ (k.proc p).head.guardstart = junk
  tail_valid : (k.proc p).tail.valid = 0
  tail_start : (k.proc p).tail.start = 0x80000000
  tail_end : (k.proc p).tail.end_ = 0x80000000
  tail_len : (k.proc p).tail.len = 0
  tail_next : (k.proc p).tail.next = .null
  tail_guard : (k.proc p).tail.guardstart = 0
  free : Free own k.phys
  tables : Tables own k.phys.mem (.proc p) (k.proc p).pgdir
  pages : Pages own k.phys (.proc p) (k.proc p).pgdir
  records : ∀ f, own f ≠ .record p
  kern : k.trans p KERNBASE ≠ none
  size : (k.proc p).sz ≤ MIN_ADDR
  empty : ∀ va : Word, (PGROUNDUP (k.proc p).sz).toNat ≤ va.toNat → va.toNat < KERNBASE.toNat →
    k.trans p va = none

/-- The ranges of two areas have no address in common. -/
def Apart (a b : VmArea) : Prop :=
  a.end_ < a.start ∨ b.end_ < b.start ∨ a.end_ < b.start ∨ b.end_ < a.start

/-- The areas from head to tail, if there are at most `n`. -/
def areas (k : Kernel) (p : Slot) (n : Nat) : Option (List VmArea) :=
  (follow k.read VmArea.next (.tail p) n (.head p)).map (·.map Prod.snd)

/-- From the head one comes to the tail; the starts of the areas never decrease, their
    ranges are pairwise disjoint, and those that are not empty lie in the region. -/
def ListOk (k : Kernel) (p : Slot) : Prop :=
  ∃ n as, k.areas p n = some as
    ∧ (as.map VmArea.start ++ [(k.proc p).tail.start]).Pairwise (· ≤ ·)
    ∧ as.Pairwise Apart
    ∧ ∀ v ∈ as, v.start ≤ v.end_ → MIN_ADDR ≤ v.start ∧ v.end_ < MAX_ADDR

variable {L : Link} {own : Frame → Owner} {k k' : Kernel} {p : Slot}
  {l : List (VmaPtr × VmArea)}

/-- There is one list. -/
theorem areas_unique {m n : Nat} {as bs : List VmArea} (h : k.areas p m = some as)
    (h' : k.areas p n = some bs) : as = bs := by
  obtain ⟨l, hl, rfl⟩ := Option.map_eq_some_iff.mp h
  obtain ⟨l', hl', rfl⟩ := Option.map_eq_some_iff.mp h'
  rw [follow_unique hl hl']

theorem Ordered.areas (h : Ordered k p l) : k.areas p l.length = some (l.map Prod.snd) := by
  rw [Kernel.areas, follow_of_path h.path h.last]
  rfl

/-- An ordered list is as it should be. -/
theorem Ordered.listOk (h : Ordered k p l) : ListOk k p := by
  have hpair := h.laid.pairwise
  unfold segs at hpair
  rw [pairwise_map] at hpair
  refine ⟨l.length, l.map Prod.snd, h.areas, ?_, ?_, ?_⟩
  · rw [pairwise_append, map_map, pairwise_map]
    refine ⟨hpair.imp (fun hab => hab.1), pairwise_singleton _ _, ?_⟩
    intro s hs t ht
    obtain ⟨⟨c, v⟩, hv, rfl⟩ := mem_map.mp hs
    rw [mem_singleton] at ht
    have hb := h.start_lt hv
    rw [ht, h.tail]
    show v.start.toNat ≤ MAX_ADDR.toNat
    omega
  · rw [pairwise_map]
    refine hpair.imp (fun {a b} hab => .inr (.inr (.inl ?_)))
    exact hab.2
  · intro v hv hne
    obtain ⟨⟨c, u⟩, hmem, rfl⟩ := mem_map.mp hv
    have hb := h.start_lt hmem
    exact ⟨hb.1, hb.2.1⟩

/-! ### After `exec` -/

theorem Execed.ok (h : Execed own k p) : (k.proc p).head.Ok := by
  refine ⟨?_, ?_, ?_, ?_, ?_⟩
  · rw [h.head_start]
    decide
  · rw [h.head_start]
    decide
  · rw [h.head_end]
    decide
  · rw [h.head_end]
    decide
  · refine .inr (.inl ?_)
    rcases h.head_guard with hg | hg <;> rw [hg] <;> decide

theorem Execed.lists (h : Execed own k p) : Lists own k p := by
  refine ⟨fun x v hx hd => ?_, fun x v hx hd hs hn => ?_⟩
  · cases x with
    | null => cases hx
    | head q =>
      cases hx
      cases hd
      exact h.ok.guardOk
    | tail q =>
      cases hx
      cases hd
      refine .inl ?_
      rw [h.tail_guard]
      rfl
    | node f => exact absurd hx (h.records f)
  · cases x with
    | null => cases hx
    | head q =>
      cases hx
      cases hd
      exact ⟨h.ok, by rw [h.head_next]; rfl⟩
    | tail q =>
      cases hx
      cases hd
      exact absurd h.tail_next hn
    | node f => exact absurd hx (h.records f)

theorem Execed.ordered (h : Execed own k p) : Ordered k p [(.head p, (k.proc p).head)] where
  path := by
    refine .cons rfl ?_
    rw [h.head_next]
    exact .nil _
  last := by simp
  tail := h.tail_start
  first := by
    show (k.proc p).head.start.toNat = MIN_ADDR.toNat
    rw [h.head_start]
    rfl
  laid := by
    have hseg : (k.proc p).head.seg = ⟨0x60000000, 0x60000000, 0x20000000⟩ := by
      rw [VmArea.seg, h.head_start, h.head_end, h.head_space]
      decide
    show Intervals.Laid _ [(k.proc p).head.seg]
    rw [hseg]
    exact ⟨by decide, by decide, .inr ⟨by decide, by simp⟩, trivial⟩
  later := by simp

/-- The list and the memory when `exec` returns. -/
theorem Execed.sound (h : Execed own k p) : Sound own k p [(.head p, (k.proc p).head)]
      ∧ Covered k p [(.head p, (k.proc p).head)] := by
  refine ⟨⟨h.free, h.tables, h.kern, h.lists, h.ordered, fun _ c v hv va h1 h2 => ?_⟩,
    fun va h1 h2 htr => ?_⟩
  · -- the only area is empty
    rw [mem_singleton] at hv
    cases hv
    rw [h.head_start] at h1
    rw [h.head_end] at h2
    have h3 : (0x60000000 : Word).toNat = 0x60000000 := rfl
    have h4 : (0x5FFFFFFF : Word).toNat = 0x5FFFFFFF := rfl
    omega
  · -- no page of the region is mapped
    refine absurd (h.empty va ?_ h2) htr
    have hsz : (k.proc p).sz.toNat ≤ MIN_ADDR.toNat := h.size
    have hmin : MIN_ADDR.toNat = 0x60000000 := rfl
    rw [toNat_PGROUNDUP]
    omega

end Kernel

end Xv6
