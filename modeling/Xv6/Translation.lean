import Xv6.Runs
import Xv6.Intact

namespace Xv6.Kernel

open Run Outcome

/-!
# Translations along runs

What the calls of one process do to translations that are there, for any lengths:

* `translations_kept` — in runs whose `mmap` calls give flags only in `prot`, `mmap` and
  faults keep every translation, and no call changes the kernel's half;
* `munmap_never_undoes` — no `munmap` undoes an `mmap`: it unlinks nothing, so that it finds
  the area again.

A `prot` with other bits makes a PTE name another frame, and a file is then loaded there.
-/

variable {L : Link} {own own' : Frame → Owner} {k k' k0 k1 : Kernel} {p : Slot}
variable {c : Call}

theorem Execed.intact (h : Execed own k p) : Intact own k p where
  free := h.free
  tables := h.tables
  pages := h.pages
  kern := h.kern
  lists := h.lists
  low := by
    intro x v hx hd
    cases x with
    | null => cases hx
    | head q =>
      cases hx
      cases hd
      refine .inr (.inl ?_)
      rcases h.head_guard with hg | hg <;> rw [hg] <;> decide
    | tail q =>
      cases hx
      cases hd
      refine .inr (.inl ?_)
      rw [h.tail_guard]
      decide
    | node f => exact absurd hx (h.records f)
  size := by
    have h1 : (k.proc p).sz.toNat ≤ MIN_ADDR.toNat := h.size
    have h2 : MIN_ADDR.toNat < KERNBASE.toNat := by decide
    exact Nat.lt_of_le_of_lt h1 h2

/-! ### What stays -/

/-- A call that gives flags only in `prot` and, to run at all, finds a page for the record
    and the file open that it is to load; the other calls are not restricted. -/
def FlagsCall (p : Slot) (k : Kernel) : Call → Prop
  | .mmap _ _ prot flags fd => prot.toNat < 4096 ∧ k.phys.freelist ≠ []
      ∧ (flags &&& MAP_ANON = 0#32 → ∃ i, k.ofileAt p fd = .file i)
  | .munmap .. => True
  | .fault _ => True
  | .sbrk _ => True

/-- An `mmap` gives flags only in `prot`. -/
def LowProt : Call → Prop
  | .mmap _ _ prot _ _ => prot.toNat < 4096
  | .munmap .. => True
  | .fault _ => True
  | .sbrk _ => True

theorem FlagsCall.lowProt (h : FlagsCall p k c) : LowProt c := by
  cases c with
  | mmap addr length prot flags fd => exact h.1
  | munmap addr length => trivial
  | fault va => trivial
  | sbrk n => trivial

/-- What one call does to the translations: `mmap` and faults keep all that are there, and
    the kernel's half stays. -/
theorem user_intact (h : Intact own k p) (hc : LowProt c) (hr : user L p k c = .ok k') :
    (∃ own', Intact own' k' p)
      ∧ (c.onAreas → ∀ va pte, k.trans p va = some pte → k'.trans p va = some pte)
      ∧ ∀ va, KERNBASE ≤ va → k'.trans p va = k.trans p va := by
  unfold user at hr
  split at hr
  · cases hr
  cases c with
  | mmap addr length prot flags fd =>
    obtain ⟨⟨r, k1⟩, hm, hr⟩ := bind_eq_ok.mp hr
    cases hr
    obtain ⟨own', w⟩ := sysMmap_effect h.free h.tables h.kern h.lists h.low hc hm
    exact ⟨⟨own', w.intact h⟩, fun _ va => (w.keeps va).1, fun va => (w.keeps va).2⟩
  | munmap addr length =>
    obtain ⟨⟨r, k1⟩, hm, hr⟩ := bind_eq_ok.mp hr
    cases hr
    have w := sysMunmap_kept h hm
    exact ⟨w.intact, fun _ => w.trans, w.kernel⟩
  | fault va =>
    obtain ⟨own', w⟩ := trapPgflt_effect h.free h.tables h.lists h.low hr
    exact ⟨⟨own', w.intact h⟩, fun _ va => (w.keeps va).1, fun va => (w.keeps va).2⟩
  | sbrk n =>
    obtain ⟨⟨r, k1⟩, hg, hr⟩ := bind_eq_ok.mp hr
    cases hr
    obtain ⟨own', s', sz, w, hsz, rfl⟩ := growproc_ok h hg
    refine ⟨⟨own', h.resized w hsz⟩, fun h => absurd h (by simp [Call.onAreas]), fun va hva => ?_⟩
    rw [trans, setProc_phys, setProc_self]
    exact w.kernel va hva

theorem flags_intact (h0 : Execed own k0 p) (hr : Reach (user L p) (FlagsCall p) k0 k) :
    ∃ own', Intact own' k p :=
  hr.invariant (I := fun k => ∃ own, Intact own k p) ⟨own, h0.intact⟩
    (fun _ _ _ ⟨_, h1⟩ hc h2 => (user_intact h1 hc.lowProt h2).1)

/-- Along every run whose `mmap` calls give flags only in `prot`, `mmap` and faults keep
    every translation that is there, and no call changes one of the kernel's half. -/
theorem translations_kept {c : Call} (h0 : Execed own k0 p)
    (hr : Reach (user L p) (FlagsCall p) k0 k) (hc : FlagsCall p k c)
    (hstep : user L p k c = .ok k') :
    (c.onAreas → ∀ va pte, k.trans p va = some pte → k'.trans p va = some pte)
      ∧ ∀ va, KERNBASE ≤ va → k'.trans p va = k.trans p va := by
  obtain ⟨own', h⟩ := flags_intact h0 hr
  exact (user_intact h hc.lowProt hstep).2

/-- An `sbrk` after an `mmap`. -/
theorem translations_kept_by_sbrk :
    ∃ k k', user startLink 0 (start 16) (.mmap 0x60002000 0x1000 3 0xC 0) = .ok k
      ∧ user startLink 0 k (.sbrk 0x1000) = .ok k'
      ∧ ∀ va, KERNBASE ≤ va → k'.trans 0 va = k.trans 0 va := by
  obtain ⟨k, hk, hk'⟩ := Outcome.holds_iff.mp (show
    (user startLink 0 (start 16) (.mmap 0x60002000 0x1000 3 0xC 0)).holds (fun k =>
      (user startLink 0 k (.sbrk 0x1000)).holds (fun _ => true)) = true by decide +kernel)
  obtain ⟨k', hk', -⟩ := Outcome.holds_iff.mp hk'
  have hc : FlagsCall 0 (start 16) (.mmap 0x60002000 0x1000 3 0xC 0) :=
    ⟨by decide, by decide, fun h => absurd h (by decide)⟩
  exact ⟨k, k', hk, hk',
    (translations_kept (c := .sbrk 0x1000) (start_execed (by decide))
      (Reach.refl.tail hc hk) trivial
      hk').2⟩

/-- A file mapped with high bits in `prot`: the PTE names one of the kernel's page tables, the
    file is loaded there, and an address of the kernel loses its translation. -/
theorem kernel_unmapped_by_load : Execed (startOwn 16) (start 16) 0
    ∧ ∃ k', user startLink 0 (start 16) (.mmap 0x60002000 0x1000 0xA00003 0x9 0) = .ok k'
      ∧ (start 16).trans 0 0x80400000 = some 0x400003 ∧ k'.trans 0 0x80400000 = none := by
  refine ⟨start_execed (by decide), ?_⟩
  obtain ⟨k', hk, htr⟩ := Outcome.holds_iff.mp (show
    (user startLink 0 (start 16) (.mmap 0x60002000 0x1000 0xA00003 0x9 0)).holds (fun k' =>
      (start 16).trans 0 0x80400000 = some 0x400003 ∧ k'.trans 0 0x80400000 = none) = true by
      decide +kernel)
  exact ⟨k', hk, of_decide_eq_true htr⟩

/-! ### What `munmap` does not undo -/

/-- `k2` is the state in which `munmap(a, length)` undoes in `k1` what the `mmap` that
    returned `a` did in `k`: the list of areas and the translations of the region are as they
    were, the frames of its pages are free, and `a` is no area any more, but can be one again. -/
structure Undone (L : Link) (k k1 k2 : Kernel) (p : Slot) (a length : Word) : Prop where
  returns : k1.sysMunmap L p a length = .ok (0, k2)
  areas : ∀ n, k2.areas p n = k.areas p n
  trans : ∀ va, MIN_ADDR ≤ va → va < MAX_ADDR → k2.trans p va = k.trans p va
  frames : ∀ va f, a ≤ va → va - a < length → k1.granted p (frameOf va) = some f →
    f ∈ k2.phys.freelist
  again : ∃ k3, k2.sysMunmap L p a length = .ok (-1, k3)
  fixed : ∃ prot flags fd k3, flags &&& MAP_FIXED ≠ 0#32
    ∧ k2.sysMmap L p a length prot flags fd = .ok (a, k3)

/-- `munmap` undoes no `mmap`, whatever the states and the arguments. -/
theorem munmap_never_undoes (L : Link) (k k1 k2 : Kernel) (p : Slot) (a length : Word) :
    ¬ Undone L k k1 k2 p a length := by
  intro h
  obtain ⟨k3, hagain⟩ := h.again
  have hzero : (-1 : Word) = 0 := munmap_finds_again h.returns hagain
  exact absurd hzero (by decide)

/-- After a page is mapped and unmapped again, its area is still listed, the page is mapped
    and its frame not free; `munmap` returns 0 once more, and nothing can be mapped there. -/
theorem page_left_by_munmap : Execed (startOwn 16) (start 16) 0
    ∧ ∃ k1 k2, sysMmap startLink (start 16) 0 0x60002000 0x1000 3 0xC 0 = .ok (0x60002000, k1)
      ∧ sysMunmap startLink k1 0 0x60002000 0x1000 = .ok (0, k2)
      ∧ ((start 16).areas 0 3).map List.length = some 1 ∧ (k2.areas 0 3).map List.length = some 2
      ∧ (start 16).trans 0 0x60002000 = none ∧ k2.trans 0 0x60002000 = some 0x1001007
      ∧ 0x1001 ∉ k2.phys.freelist
      ∧ (∃ k3, sysMunmap startLink k2 0 0x60002000 0x1000 = .ok (0, k3))
      ∧ ∃ k3, sysMmap startLink k2 0 0x60002000 0x1000 3 0xC 0 = .ok (-1, k3) := by
  refine ⟨start_execed (by decide), ?_⟩
  obtain ⟨⟨a, k1⟩, hk1, h⟩ := Outcome.holds_iff.mp (show
    (sysMmap startLink (start 16) 0 0x60002000 0x1000 3 0xC 0).holds (fun x =>
      x.1 = 0x60002000 ∧ (sysMunmap startLink x.2 0 0x60002000 0x1000).holds (fun y =>
        y.1 = 0 ∧ (((start 16).areas 0 3).map List.length = some 1
          ∧ (y.2.areas 0 3).map List.length = some 2
          ∧ (start 16).trans 0 0x60002000 = none ∧ y.2.trans 0 0x60002000 = some 0x1001007
          ∧ 0x1001 ∉ y.2.phys.freelist)
        ∧ (sysMunmap startLink y.2 0 0x60002000 0x1000).holds (fun z => z.1 = 0)
        ∧ (sysMmap startLink y.2 0 0x60002000 0x1000 3 0xC 0).holds (fun z => z.1 = -1))) = true
      by decide +kernel)
  obtain ⟨rfl, hrest⟩ := of_decide_eq_true h
  obtain ⟨⟨r, k2⟩, hk2, h⟩ := Outcome.holds_iff.mp hrest
  obtain ⟨rfl, ⟨h1, h2, h3, h4, h5⟩, h6, h7⟩ := of_decide_eq_true h
  obtain ⟨⟨r, k3⟩, hk3, hr⟩ := Outcome.holds_iff.mp h6
  obtain rfl : r = 0 := of_decide_eq_true hr
  obtain ⟨⟨r, k4⟩, hk4, hr⟩ := Outcome.holds_iff.mp h7
  obtain rfl : r = -1 := of_decide_eq_true hr
  exact ⟨k1, k2, hk1, hk2, h1, h2, h3, h4, h5, ⟨k3, hk3⟩, k4, hk4⟩

end Xv6.Kernel
