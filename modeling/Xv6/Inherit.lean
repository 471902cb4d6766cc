import Xv6.ForkTotal
import Xv6.Translation

namespace Xv6

open Chain Function Kernel List

/-!
# The list a child has

`fork` never writes to the `head` and `tail` of the child: what it finds there is whatever
the slot's last process left.

* `fork_deref` — no record changes;
* `ListCopied k p k' np` — the list of `np` is a copy of the list of `p`, in records of
  its own;
* `child_list_copied_iff` — `fork` gives such a list exactly when it was there before.
-/

/-- What a child should find in the copy of an area. -/
def VmArea.inherits (v : VmArea) : Word × Word × Word × Word × Word × FilePtr :=
  (v.start, v.end_, v.len, v.prot, v.flags, v.f)

namespace Kernel

variable {L : Link} {own : Frame → Owner} {k k' : Kernel} {p np : Slot} {n : Nat}

/-- `fork` leaves the records of areas and the other processes alone. -/
theorem fork_deref (hne : p ≠ np) (h : fork L k p = .ok (some np, k')) :
    (∀ q, q ≠ np → k'.proc q = k.proc q) ∧ ∀ x, k'.deref x = k.deref x := by
  obtain ⟨f, s1, d, s2, k3, k4, -, -, -, hfiles, hareas, rfl⟩ := fork_some h
  have wf := forkFiles_ok hne hfiles
  have wa := forkAreas_only hareas
  obtain ⟨b, hb⟩ := wa.proc
  have hother : ∀ q, q ≠ np → (k4.setProc np { k4.proc np with state := .RUNNABLE }).proc q
      = k.proc q := by
    intro q hq
    rw [setProc_ne _ _ hq, hb, update_of_ne hq, wf.proc, update_of_ne hq,
      adopted_ne hq, embryo_ne hq]
  have hsame : ((k4.setProc np { k4.proc np with state := .RUNNABLE }).proc np).head
      = (k.proc np).head
      ∧ ((k4.setProc np { k4.proc np with state := .RUNNABLE }).proc np).tail
        = (k.proc np).tail := by
    rw [setProc_self, hb, update_self, wf.proc, update_self]
    simp [adopted, embryo]
  refine ⟨hother, deref_congr ?_ fun q => ?_⟩
  · show k4.vma = k.vma
    rw [wa.rest, wf.rest]
    rfl
  · grind

/-! ### A copy of a list -/

/-- Along the list of process `q` one comes to `x`. -/
def OnList (k : Kernel) (q : Slot) (x : VmaPtr) : Prop :=
  ∃ l, Path k.read VmArea.next (.head q) l x

/-- The list of `np` in `k'` has the areas of the list of `p` in `k`, one by one; it ends at
    the tail of `np`, and its records are on the list of no other process. -/
def ListCopied (k : Kernel) (p : Slot) (k' : Kernel) (np : Slot) : Prop :=
  ∃ m n l l', follow k.read VmArea.next (.tail p) m (.head p) = some l
    ∧ follow k'.read VmArea.next (.tail np) n (.head np) = some l'
    ∧ l'.map (fun x => x.2.inherits) = l.map (fun x => x.2.inherits)
    ∧ ∀ x ∈ l'.map Prod.fst, ∀ q, q ≠ np → (k'.proc q).state ≠ .UNUSED → ¬ OnList k' q x

/-- Only records matter, and which of the other processes are there. -/
theorem ListCopied.congr {k2 : Kernel} (h : ListCopied k p k' np)
    (hd : ∀ x, k2.deref x = k'.deref x)
    (hs : ∀ q, q ≠ np → (k2.proc q).state = (k'.proc q).state) : ListCopied k p k2 np := by
  have hread : k2.read = k'.read := by
    funext x
    rw [read, read, hd]
  obtain ⟨m, n, l, l', h1, h2, h3, h4⟩ := h
  refine ⟨m, n, l, l', h1, by rw [hread]; exact h2, h3, fun x hx q hq hstate => ?_⟩
  rw [hs q hq] at hstate
  rw [OnList, hread]
  exact h4 x hx q hq hstate

/-- After a `fork`, the list of the child is a copy of the parent's exactly if what the last
    process in the child's slot left there was one. -/
theorem child_list_copied_iff (hrun : (k.proc p).state = .RUNNING)
    (h : fork L k p = .ok (some np, k')) :
    ListCopied k p k' np ↔ ∀ q, k.unused = some q → ListCopied k p k q := by
  obtain ⟨-, -, -, -, -, -, hunused, -⟩ := fork_some h
  have hne : p ≠ np := by
    rintro rfl
    rw [unused_state hunused] at hrun
    cases hrun
  obtain ⟨hother, hd⟩ := fork_deref hne h
  constructor
  · intro hc q hq
    obtain rfl : np = q := by simpa [hunused] using hq
    exact hc.congr (fun x => (hd x).symm) fun q hq => by rw [hother q hq]
  · intro hc
    exact (hc np hunused).congr hd fun q hq => by rw [hother q hq]

/-! ### The machine with one process -/

theorem Intact.forkable (h : Intact own k p) (hne : p ≠ np) :
    Forkable (· < KERNBASE) own k p np where
  used := hne
  free := h.free
  tables := h.tables
  pages := by
    intro va pte hva hpte
    rw [h.pages va pte hva hpte]
    simpa [Owner.within] using hne
  lists := h.lists
  size := h.size

/-- The process can fork, whatever the last process in slot 1 has left there. -/
theorem start_fork (pr : Proc) (hpr : pr.state = .UNUSED) :
    ∃ k', fork startLink ((start 0x800).setProc 1 pr) 0 = .ok (some 1, k') := by
  have h := (start_execed (n := 0x800) le_rfl).setProc (q := 1) (by decide) pr
  have hp : ((start 0x800).setProc 1 pr).proc 0 = startProc := setProc_ne _ _ (by decide)
  have hunused : ((start 0x800).setProc 1 pr).unused = some 1 := by
    have h1 : ((start 0x800).setProc 1 pr).proc 1 = pr := setProc_self _ _ _
    have hlist : finRange NPROC = 0 :: 1 :: (finRange NPROC).drop 2 := by decide
    rw [unused, hlist, find?_cons_of_neg (by rw [hp]; decide),
      find?_cons_of_pos (by rw [h1, hpr]; decide)]
  obtain ⟨k', hk', -⟩ := h.ordered.fork_total (L := startLink) (h.sound.1.present h.alive)
    (h.intact.forkable (by decide)) hunused (show 1 < loopBound by decide) h.size
    (fun va hva => by
      have := start_image (n := 0x800) (show va.toNat < 0x3000 from hva)
      rwa [Kernel.trans, hp])
    (fun fd i hi => by
      have hi' : (if fd = 0 then some (0 : Fin NFILE) else none) = some i := hi
      split at hi'
      · cases hi'
        show (1 : Int) ≤ 1
        exact le_rfl
      · cases hi')
    (by
      have hlen : ∀ n, ((start n).setProc 1 pr).phys.freelist.length = n := by
        intro n
        show (startFree n).length = n
        rw [startFree, length_map, length_range]
      rw [EnoughFrames, hp, hlen]
      decide)
  exact ⟨k', hk'⟩

/-- The first child of the first process has no list: its head, never used before, leads
    nowhere. -/
theorem child_list_not_copied : ∃ k', fork startLink (start 0x800) 0 = .ok (some 1, k')
    ∧ ¬ ListCopied (start 0x800) 0 k' 1 := by
  have hsame : (start 0x800).setProc 1 zeroProc = start 0x800 := by
    rw [Kernel.setProc]
    congr 1
    exact Function.update_eq_self 1 (start 0x800).proc
  obtain ⟨k', hk'⟩ := start_fork zeroProc rfl
  rw [hsame] at hk'
  refine ⟨k', hk', ?_⟩
  rintro ⟨-, n, -, l', -, hl', -⟩
  obtain ⟨-, hd⟩ := fork_deref (by decide) hk'
  obtain ⟨hpath, -⟩ := Chain.path_of_follow hl'
  cases hpath with
  | cons hhead hrest =>
    have hv := read_eq_some.mp hhead
    rw [hd] at hv
    cases hv
    cases hrest with
    | cons hnull _ => cases read_eq_some.mp hnull

/-- What a process that never mapped anything leaves in its slot. -/
def leftProc : Proc :=
  { zeroProc with head := { startProc.head with next := .tail 1 }, tail := startProc.tail }

/-- A child in such a slot, of a parent that has mapped nothing, has the list it should
    have. -/
theorem child_list_left :
    ∃ k', fork startLink ((start 0x800).setProc 1 leftProc) 0 = .ok (some 1, k')
    ∧ ListCopied ((start 0x800).setProc 1 leftProc) 0 k' 1 := by
  obtain ⟨k', hk'⟩ := start_fork leftProc rfl
  refine ⟨k', hk', (child_list_copied_iff rfl hk').mpr fun q hq => ?_⟩
  obtain ⟨-, -, -, -, -, -, hunused, -⟩ := fork_some hk'
  obtain rfl : 1 = q := by simpa [hunused] using hq
  refine ⟨1, 1, [(.head 0, startProc.head)], [(.head 1, leftProc.head)], rfl, rfl, rfl, ?_⟩
  intro x hx q hq hstate
  obtain rfl : x = .head 1 := by simpa using hx
  -- slot 0 is the only other one in use, and its list has the head and the tail only
  have hq0 : q = 0 := by
    by_contra hq0
    rw [setProc_ne _ _ hq] at hstate
    exact hstate (by simp [start, hq0, zeroProc])
  subst hq0
  rintro ⟨l, hpath⟩
  cases hpath with
  | cons hhead hrest =>
    cases read_eq_some.mp hhead
    cases hrest with
    | cons htail hend =>
      cases read_eq_some.mp htail
      cases hend with
      | cons hnull _ => cases read_eq_some.mp hnull

end Kernel

end Xv6
