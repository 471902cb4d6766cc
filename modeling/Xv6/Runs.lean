import Xv6.Start

namespace Xv6

open Intervals Run List

/-!
# Runs of one process

What holds in every state that one process reaches by calling `mmap` and faulting, starting
from the state `exec` leaves.  The lengths of areas are signed and not checked, and the room
`mmap` goes by is an estimate, so the results are about runs whose calls meet a condition:

* `list_ok_of_positive` — with positive lengths the list of areas stays in order;
* `no_remap_of_roomy` — if requests do not run into areas that are there, and faults do not
  grow an area into the next one, nothing is mapped twice.

For each a run that breaks the condition shows what goes wrong.
-/

/-- The call is an `mmap` or a fault. -/
def Call.onAreas : Call → Bool
  | .mmap .. => true
  | .munmap .. => false
  | .fault _ => true
  | .sbrk _ => false

namespace Kernel

variable {L : Link} {own : Frame → Owner} {k k' k0 : Kernel} {p : Slot}
  {l l1 l2 : List (VmaPtr × VmArea)}
variable {flags prot length addr : Word}

/-- What `mmap` needs to run at all: a page for the record and, to load a file, an open
    descriptor.  The bits of `prot` above the flags of a PTE would name another frame. -/
structure Supplied (k : Kernel) (p : Slot) (prot flags fd : Word) : Prop where
  record : k.phys.freelist ≠ []
  file : flags &&& MAP_ANON = 0#32 → prot.toNat < 4096 ∧ ∃ i, k.ofileAt p fd = .file i

theorem Supplied.loadArgs {fd : Word} (h : Supplied k p prot flags fd) : LoadArgs prot flags := by
  by_cases ha : flags &&& MAP_ANON = 0#32
  · exact .inr (h.file ha).1
  · exact .inl ha

/-- The list is in order, its areas are mapped, and nothing else in the region is. -/
def Tidy (k : Kernel) (p : Slot) : Prop :=
  ∃ own l, Sound own k p l ∧ Covered k p l

theorem Execed.tidy (h : Execed own k p) : Tidy k p := ⟨own, _, h.sound⟩

/-- An `mmap` of positive length that has what it needs, or a fault. -/
def PositiveCall (p : Slot) (k : Kernel) : Call → Prop
  | .mmap _ length prot flags fd => 0 < length.toInt ∧ Supplied k p prot flags fd
  | .munmap .. => False
  | .fault _ => True
  | .sbrk _ => False

/-- A call of positive length, or a fault, keeps the list and the mapping tidy. -/
theorem user_tidy {c : Call} (h : Tidy k p) (hc : PositiveCall p k c)
    (hr : user L p k c = .ok k') : Tidy k' p := by
  obtain ⟨own, l, hs, hcov⟩ := h
  unfold user at hr
  split at hr
  · cases hr
  rename_i halive
  rw [Bool.not_eq_true] at halive
  cases c with
  | mmap addr length prot flags fd =>
    obtain ⟨⟨r, k1⟩, hm, hr⟩ := Outcome.bind_eq_ok.mp hr
    cases hr
    obtain ⟨own', l', hs', hcov'⟩ := sysMmap_sound hs halive hc.1 hc.2.loadArgs hm
    exact ⟨own', l', hs', hcov' hcov⟩
  | munmap addr length => exact hc.elim
  | fault va =>
    obtain ⟨own', l', hs', hcov'⟩ := trapPgflt_sound hs halive hr
    exact ⟨own', l', hs', hcov' hcov⟩
  | sbrk n => exact hc.elim

/-! ### The list stays in order -/

/-- In every state reached by calls of positive length, the list of areas is as it should
    be. -/
theorem list_ok_of_positive (h0 : Execed own k0 p)
    (hr : Reach (user L p) (PositiveCall p) k0 k) : ListOk k p := by
  obtain ⟨_, l, hs, -⟩ := hr.invariant h0.tidy (fun _ _ _ h1 hc h2 => user_tidy h1 hc h2)
  exact hs.ordered.listOk

/-- The run of one `mmap` of a page. -/
theorem list_ok_after_mmap :
    ∃ k, user startLink 0 (start 16) (.mmap 0x60002000 0x1000 3 0xC 0) = .ok k
    ∧ ListOk k 0 := by
  obtain ⟨k, hk, -⟩ := Outcome.holds_iff.mp (show
    (user startLink 0 (start 16) (.mmap 0x60002000 0x1000 3 0xC 0)).holds (fun _ => true) = true by
      decide +kernel)
  have hpos : PositiveCall 0 (start 16) (.mmap 0x60002000 0x1000 3 0xC 0) :=
    ⟨by decide, ⟨by decide, fun h => absurd h (by decide)⟩⟩
  exact ⟨k, hk, list_ok_of_positive (start_execed (by decide)) (Reach.refl.tail hpos hk)⟩

/-- A negative length wraps the end of the new area around; the next `mmap` goes there, below
    the region and out of order. -/
theorem list_broken_by_negative_length : Execed (startOwn 16) (start 16) 0
    ∧ ∃ k, Reach (user startLink 0) (fun _ c => c.onAreas) (start 16) k ∧ ¬ ListOk k 0 := by
  refine ⟨start_execed (by decide), ?_⟩
  obtain ⟨k, hk, has⟩ := Outcome.holds_iff.mp (show
    ([.mmap 0x70000000 (-0x60000000) 3 0xC 0, .mmap 0 0x1000 3 0x4 0].foldlM (user startLink 0)
      (start 16)).holds (fun k => (k.areas 0 3).map (·.map VmArea.start)
        = some [0x60000000, 0x70000000, 0x10000000]) = true by decide +kernel)
  refine ⟨k, Reach.of_foldlM (by simp [Call.onAreas]) hk, ?_⟩
  rintro ⟨n, as, h1, hsorted, -⟩
  obtain ⟨bs, h2, hstarts⟩ := Option.map_eq_some_iff.mp (of_decide_eq_true has)
  rw [areas_unique h1 h2, hstarts] at hsorted
  exact absurd (List.pairwise_append.mp hsorted).1 (by decide)

/-! ### Nothing is mapped twice -/

/-- `length` bytes from `start` on lie in the region and meet no area of the list. -/
def Clear (as : List VmArea) (start length : Word) : Prop :=
  start.toNat + length.toNat ≤ MAX_ADDR.toNat
    ∧ ∀ v ∈ as, v.end_.toNat < start.toNat ∨ start.toNat + length.toNat ≤ v.start.toNat

instance (as : List VmArea) (start length : Word) : Decidable (Clear as start length) :=
  inferInstanceAs (Decidable (_ ∧ ∀ v ∈ as, _ ∨ _))

/-- Where `mmap` goes for a place: to `addr` if it has to and no area is there, otherwise to
    the end of the first area that claims enough room. -/
def Target (as : List VmArea) (addr length flags start : Word) : Prop :=
  if flags &&& MAP_FIXED ≠ 0#32 then
    start = addr ∧ ∀ v ∈ as, ¬ (v.start ≤ addr ∧ addr ≤ v.end_)
  else ∃ v, as.find? (fun v => length.toInt < v.space_after.toInt) = some v ∧ start = v.end_ + 1

/-- Loading a file into pages without write permission makes the kernel fault there; the
    handler must not take one of them for a guard page of an area. -/
def NoGuard (as : List VmArea) (start length prot flags : Word) : Prop :=
  flags &&& MAP_ANON = 0#32 → prot &&& PROT_WRITE = 0#32 → ∀ v ∈ as, ∀ va : Word,
    start.toNat ≤ va.toNat → va.toNat < start.toNat + length.toNat → ¬ Hits v va

/-- A call of positive length for which there is room where `mmap` or the fault handler will
    map a page. -/
def RoomyCall (p : Slot) (k : Kernel) (c : Call) : Prop :=
  PositiveCall p k c ∧ ∀ n as, k.areas p n = some as →
    match c with
    | .mmap addr length prot flags _ => ∀ start, Target as addr length flags start →
        Clear as start length ∧ NoGuard as start length prot flags
    | .munmap .. => False
    | .fault va => ∀ v ∈ as, Hits v va → Clear as v.guardstart PGSIZE
    | .sbrk _ => False

/-- An area is placed only where a page of it would be mapped twice if the range asked for
    is not clear. -/
theorem place_no_remap {prev x : VmaPtr} {c : VmArea} {start fd : Word} {fixed : Bool}
    (h : Sound own k p l) (hcov : Covered k p l) (hx : (x, c) ∈ l) (hlen : 0 < length.toInt)
    (ha : LoadArgs prot flags) (hal : start.toNat % 4096 = 0) (hmin : MIN_ADDR.toNat ≤ start.toNat)
    (hclear : Clear (l.map Prod.snd) start length)
    (hguard : NoGuard (l.map Prod.snd) start length prot flags) :
    k.mmapPlace L p prev x start length prot flags fd fixed ≠ .panic .remap := by
  intro hr
  have hmax := toNat_MAX_ADDR
  have hkern := toNat_KERNBASE
  have hlisted : Listed p l x := .inl (mem_map.mpr ⟨_, hx, rfl⟩)
  obtain ⟨hlen0, -, -⟩ := toInt_pos hlen
  obtain ⟨hend, hapart⟩ := hclear
  obtain ⟨j, hj1, hj2, hj3, hcase⟩ := mmapPlace_remap h.free h.tables h.kern h.walk hlisted
    (h.mine hx) (h.deref hx) (h.ordered.start_ne hx) hal (by omega) hmin ha hr
  -- the page at `j` starts within the range asked for
  have hj : j.toNat < start.toNat + length.toNat := by
    have hsum : (start + length).toNat = start.toNat + length.toNat := by
      rw [BitVec.toNat_add]
      omega
    have hone : (1 : Word).toNat = 1 := rfl
    rw [BitVec.toNat_sub, toNat_PGROUNDUP, hsum, hone] at hj2
    omega
  rcases hcase with hpres | ⟨hanon, hprot, y, v, hy, hv, hhit⟩
  · obtain ⟨d, u, hdu, hlo, hhi⟩ := hcov j (by omega) (by omega) hpres
    rcases hapart u (mem_map.mpr ⟨_, hdu, rfl⟩) with hu | hu <;> omega
  · have hmem := h.listed_mem hy hv hhit.start
    exact hguard hanon hprot v (mem_map.mpr ⟨_, hmem, rfl⟩) j hj1 hj hhit

/-- Beyond where the `MAP_FIXED` search stops, no area holds the address. -/
theorem Ordered.not_in_later {x : VmaPtr} {c n : VmArea} (h : Ordered k p (l1 ++ (x, c) :: l2))
    (hn : k.deref c.next = .ok n) (hlt : addr < n.start) :
    ∀ d u, (d, u) ∈ l2 → ¬ (u.start ≤ addr ∧ addr ≤ u.end_) := by
  intro d u hu hin
  have hlaid := h.laid
  rw [segs_append, segs_cons] at hlaid
  have hb := hlaid.of_append.2.2.2.bounds u.seg (mem_map.mpr ⟨_, hu, rfl⟩)
  have hnext := (h.next_start rfl hn).1
  have h1 : addr.toNat < n.start.toNat := hlt
  have h2 : u.start.toNat ≤ addr.toNat := hin.1
  have h3 : nextLo MAX_ADDR.toNat (segs l2) ≤ u.start.toNat := hb.1
  omega

/-- `mmap` does not map a page twice if there is room where it goes for a place. -/
theorem sysMmap_no_remap {fd : Word} (h : Sound own k p l) (hcov : Covered k p l)
    (hlen : 0 < length.toInt) (ha : LoadArgs prot flags)
    (hroom : ∀ start, Target (l.map Prod.snd) addr length flags start →
      Clear (l.map Prod.snd) start length ∧ NoGuard (l.map Prod.snd) start length prot flags) :
    sysMmap L k p addr length prot flags fd ≠ .panic .remap := by
  intro hr
  unfold sysMmap at hr
  split at hr
  · rename_i hfixed
    split at hr
    · cases hr
    rename_i hargs
    rw [not_or, not_or, BitVec.not_lt, BitVec.not_le] at hargs
    obtain ⟨hal, hmin, -⟩ := hargs
    have hal' : addr.toNat % 4096 = 0 := by
      have := congrArg BitVec.toNat (not_not.mp hal)
      simpa [PGSIZE] using this
    rcases mmapFixedLoop_cases [] hr with hr | hr | hr |
      ⟨l1, x, c, n, hp, hpass, hd, hs, hout, hn, hlt, -, hr⟩
    · cases hr
    · cases hr
    · cases hr
    obtain ⟨l2, rfl⟩ := h.ordered.split hp (fun d u hdu => (hpass d u hdu).start) hd hs
    have hmem : (x, c) ∈ l1 ++ (x, c) :: l2 := by simp
    have htarget : Target ((l1 ++ (x, c) :: l2).map Prod.snd) addr length flags addr := by
      unfold Target
      rw [if_pos hfixed]
      refine ⟨rfl, fun v hv => ?_⟩
      obtain ⟨⟨d, u⟩, hdu, rfl⟩ := mem_map.mp hv
      rcases mem_append.mp hdu with hdu | hdu
      · exact (hpass d u hdu).out
      · grind [mem_cons.mp, h.ordered.not_in_later]
    obtain ⟨hclear, hguard⟩ := hroom addr htarget
    exact place_no_remap h hcov hmem hlen ha hal' hmin hclear hguard hr.symm
  · rename_i hany
    rcases mmapAnyLoop_cases [] hr with hr | hr | hr | ⟨l1, x, c, hp, hpass, hd, hs, hroom', hr⟩
    · cases hr
    · cases hr
    · cases hr
    obtain ⟨l2, rfl⟩ := h.ordered.split hp (fun d u hdu => (hpass d u hdu).1) hd hs
    have hmem : (x, c) ∈ l1 ++ (x, c) :: l2 := by simp
    have hok := h.ok hmem
    have hb := h.ordered.start_lt hmem
    have hstart := hok.toNat_end_add_one
    have hal' : (c.end_ + 1).toNat % 4096 = 0 := by rw [hstart]; exact hok.end_aligned
    have htarget : Target ((l1 ++ (x, c) :: l2).map Prod.snd) addr length flags (c.end_ + 1) := by
      unfold Target
      rw [if_neg hany]
      refine ⟨c, ?_, rfl⟩
      rw [map_append, map_cons, find?_append, find?_cons_of_pos (by simpa),
        find?_eq_none.mpr]
      · rfl
      · grind
    obtain ⟨hclear, hguard⟩ := hroom _ htarget
    exact place_no_remap h hcov hmem hlen ha hal' (by omega) hclear hguard hr.symm

/-- A fault does not map a page twice if the guard page it grows an area into is clear. -/
theorem trapPgflt_no_remap {va : Word} (h : Sound own k p l) (hcov : Covered k p l)
    (hroom : ∀ v ∈ l.map Prod.snd, Hits v va → Clear (l.map Prod.snd) v.guardstart PGSIZE) :
    trapPgflt L k p va ≠ .panic .remap := by
  intro hr
  have hsize := toNat_PGSIZE
  rcases trapPgflt_cases h.walk.closed h.walk.head hr with
    hr | hr | hr | hr | ⟨x, v, hx, hd, hhit, hlo, hhi, hr⟩
  · cases hr
  · cases hr
  · cases hr
  · cases hr
  · obtain ⟨hal, -, hmin, hmax⟩ := hhit.page (h.walk.guard x v hx hd) hlo hhi
    have hpres := grow_remap h.free h.tables hd hal hr.symm
    have hmem := h.listed_mem hx hd hhit.start
    obtain ⟨-, hapart⟩ := hroom v (mem_map.mpr ⟨_, hmem, rfl⟩) hhit
    obtain ⟨d, u, hdu, hu1, hu2⟩ := hcov _ hmin hmax hpres
    rcases hapart u (mem_map.mpr ⟨_, hdu, rfl⟩) with hu | hu <;> omega

/-- In every run whose calls find room, no call panics with "remap". -/
theorem no_remap_of_roomy {c : Call} (h0 : Execed own k0 p)
    (hr : Reach (user L p) (RoomyCall p) k0 k) (hc : RoomyCall p k c) :
    user L p k c ≠ .panic .remap := by
  obtain ⟨_, l, hs, hcov⟩ := hr.invariant h0.tidy (fun _ _ _ h1 hc h2 => user_tidy h1 hc.1 h2)
  obtain ⟨hpos, hroom⟩ := hc
  have hroom := hroom l.length (l.map Prod.snd) hs.ordered.areas
  intro hpanic
  unfold user at hpanic
  split at hpanic
  · cases hpanic
  cases c with
  | mmap addr length prot flags fd =>
    rcases Outcome.bind_eq_panic.mp hpanic with hm | ⟨_, -, hm⟩
    · exact sysMmap_no_remap hs hcov hpos.1 hpos.2.loadArgs hroom hm
    · cases hm
  | munmap addr length => exact hpos.elim
  | fault va => exact trapPgflt_no_remap hs hcov hroom hpanic
  | sbrk n => exact hpos.elim

/-- For a clear range of positive length, `mmap` with `MAP_FIXED` and `MAP_ANON` has room. -/
theorem roomy_of_clear {fd : Word} {as : List VmArea} {n : Nat}
    (hfixed : flags &&& MAP_FIXED ≠ 0#32) (hanon : flags &&& MAP_ANON ≠ 0#32)
    (hlen : 0 < length.toInt) (hfree : k.phys.freelist ≠ []) (has : k.areas p n = some as)
    (hclear : Clear as addr length) : RoomyCall p k (.mmap addr length prot flags fd) := by
  refine ⟨⟨hlen, hfree, fun h => absurd h hanon⟩, fun m bs hbs start htarget => ?_⟩
  rw [Target, if_pos hfixed] at htarget
  rw [areas_unique hbs has, htarget.1]
  exact ⟨hclear, fun h => absurd h hanon⟩

/-- A second area in front of the first, with room for it. -/
theorem no_remap_in_front :
    ∃ k, user startLink 0 (start 16) (.mmap 0x60002000 0x1000 3 0xC 0) = .ok k
    ∧ user startLink 0 k (.mmap 0x60001000 0x1000 3 0xC 0) ≠ .panic .remap := by
  obtain ⟨k, hk, hafter⟩ := Outcome.holds_iff.mp (show
    (user startLink 0 (start 16) (.mmap 0x60002000 0x1000 3 0xC 0)).holds (fun k =>
      k.phys.freelist ≠ [] ∧ ∃ as ∈ k.areas 0 2, Clear as 0x60001000 0x1000) = true by
      decide +kernel)
  obtain ⟨hfree, as, has, hclear⟩ := of_decide_eq_true hafter
  have h1 : RoomyCall 0 (start 16) (.mmap 0x60002000 0x1000 3 0xC 0) :=
    roomy_of_clear (n := 1) (by decide) (by decide) (by decide) (by decide) rfl (by decide)
  have h2 : RoomyCall 0 k (.mmap 0x60001000 0x1000 3 0xC 0) :=
    roomy_of_clear (by decide) (by decide) (by decide) hfree has hclear
  exact ⟨k, hk, no_remap_of_roomy (start_execed (by decide)) (Reach.refl.tail h1 hk) h2⟩

/-- The room after the head is still thought to be large when an area has been put into it,
    so a second area may run into the first. -/
theorem remap_by_overlap : Execed (startOwn 16) (start 16) 0
    ∧ ∃ k, Reach (user startLink 0) (fun _ c => c.onAreas) (start 16) k
      ∧ 8 ≤ k.phys.freelist.length
      ∧ user startLink 0 k (.mmap 0x60001000 0x2000 3 0xC 0) = .panic .remap := by
  refine ⟨start_execed (by decide), ?_⟩
  obtain ⟨k, hk, hpanic⟩ := Outcome.holds_iff.mp (show
    ([.mmap 0x60002000 0x1000 3 0xC 0].foldlM (user startLink 0) (start 16)).holds (fun k =>
      8 ≤ k.phys.freelist.length
        ∧ (user startLink 0 k (.mmap 0x60001000 0x2000 3 0xC 0)).isPanic .remap) = true by
      decide +kernel)
  obtain ⟨hfree, hpanic⟩ := of_decide_eq_true hpanic
  exact ⟨k, Reach.of_foldlM (by simp [Call.onAreas]) hk, hfree, Outcome.isPanic_iff.mp hpanic⟩

end Kernel

end Xv6
