import Xv6.ListSpec
import Xv6.Lib.Intervals

namespace Xv6

open Chain Intervals List VmArea

/-!
# The list of areas of a process

For a process whose `mmap` calls all ask for a positive length:

* `Ordered k p l` — from the head of the list one comes to its tail through the areas `l`,
  which lie one after another in the region (`Laid`);
* `Sound own k p l` — in addition every page of these areas is mapped, as long as the
  process has not been killed;
* `mmapPlace_sound`, `grow_sound` — placing and growing an area keep this.

`space_after` counts too much as soon as a mapping is not placed right after an area, so
none of this rests on it: that new areas do not overlap old ones follows from `mappages`
never returning from a page that is present.
-/

/-- The addresses of an area and what it claims about the room after it. -/
def VmArea.seg (v : VmArea) : Seg := ⟨v.start.toNat, v.end_.toNat + 1, v.space_after.toInt⟩

namespace Kernel

variable {L : Link} {own own' : Frame → Owner} {k k' : Kernel} {p : Slot}
  {l l1 l2 : List (VmaPtr × VmArea)}
variable {v : VmArea} {x c : VmaPtr} {length addr va : Word} {s' : Phys} {f : Frame}

/-- The segments of a list of areas. -/
def segs (l : List (VmaPtr × VmArea)) : List Seg := l.map (·.2.seg)

@[simp] theorem segs_nil : segs [] = [] := rfl

@[simp] theorem segs_cons (a : VmaPtr × VmArea) (l : List (VmaPtr × VmArea)) :
    segs (a :: l) = a.2.seg :: segs l := rfl

@[simp] theorem segs_append (l1 l2 : List (VmaPtr × VmArea)) :
    segs (l1 ++ l2) = segs l1 ++ segs l2 := map_append

/-- The areas from head to tail, in order. -/
structure Ordered (k : Kernel) (p : Slot) (l : List (VmaPtr × VmArea)) : Prop where
  path : Areas k (.head p) l (.tail p)
  last : .tail p ∉ l.map Prod.fst
  tail : (k.proc p).tail.start = MAX_ADDR
  first : nextLo MAX_ADDR.toNat (segs l) = MIN_ADDR.toNat
  laid : Laid MAX_ADDR.toNat (segs l)
  later : ∀ s ∈ (segs l).tail, s.lo < s.hi

/-- Every page of the listed areas is present. -/
def Present (k : Kernel) (p : Slot) (l : List (VmaPtr × VmArea)) : Prop :=
  ∀ c v, (c, v) ∈ l → ∀ va : Word, v.start.toNat ≤ va.toNat → va.toNat ≤ v.end_.toNat →
    k.trans p va ≠ none

/-- Every page present in the region belongs to a listed area. -/
def Covered (k : Kernel) (p : Slot) (l : List (VmaPtr × VmArea)) : Prop :=
  ∀ va : Word, MIN_ADDR.toNat ≤ va.toNat → va.toNat < MAX_ADDR.toNat → k.trans p va ≠ none →
    ∃ c v, (c, v) ∈ l ∧ v.start.toNat ≤ va.toNat ∧ va.toNat ≤ v.end_.toNat

/-- The memory of a process and its list of areas. -/
structure Sound (own : Frame → Owner) (k : Kernel) (p : Slot) (l : List (VmaPtr × VmArea)) :
    Prop where
  free : Free own k.phys
  tables : Tables own k.phys.mem (.proc p) (k.proc p).pgdir
  kern : k.trans p KERNBASE ≠ none
  lists : Lists own k p
  ordered : Ordered k p l
  present : (k.proc p).killed = false → Present k p l

namespace Ordered

/-- Areas lie in the range. -/
theorem start_lt (h : Ordered k p l) (hv : (c, v) ∈ l) :
    MIN_ADDR.toNat ≤ v.start.toNat ∧ v.end_.toNat < MAX_ADDR.toNat
      ∧ v.start.toNat ≤ v.end_.toNat + 1 := by
  have hmem : v.seg ∈ segs l := mem_map.mpr ⟨(c, v), hv, rfl⟩
  have hb := h.laid.bounds _ hmem
  rw [h.first] at hb
  obtain ⟨l1, l2, hl⟩ := append_of_mem hmem
  have hlaid := h.laid
  rw [hl] at hlaid
  exact ⟨hb.1, hb.2, hlaid.at_mem.1⟩

/-- An area of the list other than the head is not empty. -/
theorem nonempty (h : Ordered k p (l1 ++ l2)) (hl1 : l1 ≠ []) (hv : (c, v) ∈ l2) :
    v.start.toNat ≤ v.end_.toNat := by
  cases l1 with
  | nil => exact absurd rfl hl1
  | cons a l1 =>
    have hmem : v.seg ∈ (segs (a :: l1 ++ l2)).tail := by
      rw [cons_append, segs_cons, tail_cons, segs_append, mem_append]
      exact .inr (mem_map.mpr ⟨(c, v), hv, rfl⟩)
    have : v.start.toNat < v.end_.toNat + 1 := h.later _ hmem
    omega

/-- No area of the list is taken for its end. -/
theorem start_ne (h : Ordered k p l) (hv : (c, v) ∈ l) : v.start ≠ MAX_ADDR := by
  have hmin : MIN_ADDR.toNat = 1610612736 := rfl
  have hmax := toNat_MAX_ADDR
  have hlt : v.start.toNat < MAX_ADDR.toNat := by
    obtain ⟨l1, l2, rfl⟩ := append_of_mem hv
    have hb := h.start_lt hv
    by_cases hl1 : l1 = []
    · subst hl1
      have hfirst : v.start.toNat = MIN_ADDR.toNat := h.first
      omega
    · have := h.nonempty hl1 (mem_cons_self ..)
      omega
  intro heq
  rw [heq] at hlt
  omega

theorem deref_tail (k : Kernel) (p : Slot) : k.deref (.tail p) = .ok (k.proc p).tail := rfl

/-- Where a search from the head stops, it stops at an area of the list. -/
theorem split (h : Ordered k p l) {c : VmArea} (hp : Areas k (.head p) l1 x)
    (hl1 : ∀ d u, (d, u) ∈ l1 → u.start ≠ MAX_ADDR) (hd : k.deref x = .ok c)
    (hc : c.start ≠ MAX_ADDR) : ∃ l2, l = l1 ++ (x, c) :: l2 := by
  have hlast : VmaPtr.tail p ∉ l1.map Prod.fst := by
    intro hmem
    obtain ⟨⟨d, u⟩, hdu, hdt⟩ := mem_map.mp hmem
    have hread := read_eq_some.mp (hp.read_eq hdu)
    rw [show d = .tail p from hdt, deref_tail] at hread
    cases hread
    exact hl1 d _ hdu h.tail
  obtain ⟨r, rfl, hr⟩ := hp.extend h.path hlast
  cases hr with
  | nil =>
    cases hd
    exact absurd h.tail hc
  | @cons _ _ v r hread hr =>
    have := read_eq_some.mp hread
    rw [hd] at this
    cases this
    exact ⟨r, rfl⟩

/-- The area after one of the list. -/
theorem next_start (h : Ordered k p (l1 ++ l2)) {c nx : VmArea} (hl2 : l2 = (x, c) :: l)
    (hn : k.deref c.next = .ok nx) :
    nx.start.toNat = nextLo MAX_ADDR.toNat (segs l)
      ∧ ∀ y u r, l = (y, u) :: r → c.next = y ∧ u = nx := by
  have hpath := h.path
  rw [hl2] at hpath
  obtain ⟨-, -, hrest⟩ := hpath.split_cons
  generalize hy : c.next = y at hrest hn
  cases hrest with
  | nil =>
    cases hn
    refine ⟨by rw [h.tail]; rfl, ?_⟩
    intro y u r hl
    cases hl
  | @cons _ _ v r hread hr =>
    have hv := read_eq_some.mp hread
    rw [hn] at hv
    cases hv
    refine ⟨rfl, ?_⟩
    intro y' u r' hl
    cases hl
    exact ⟨rfl, rfl⟩

end Ordered

section

variable (h : Sound own k p l) (hc : (c, v) ∈ l)
include h hc

theorem Sound.mine : Mine own p c :=
  (h.lists.path h.ordered.path rfl (by simp) (fun _ _ hd => h.ordered.start_ne hd)).2 c v hc

theorem Sound.deref : k.deref c = .ok v :=
  read_eq_some.mp (h.ordered.path.read_eq hc)

/-- The areas of the list are as they should be. -/
theorem Sound.ok : v.Ok := by
  have hs := h.ordered.start_ne hc
  refine (h.lists.area c v (h.mine hc) (h.deref hc) hs ?_).1
  intro hnull
  obtain ⟨l1, l2, rfl⟩ := append_of_mem hc
  obtain ⟨-, -, hrest⟩ := h.ordered.path.split_cons
  rw [hnull] at hrest
  cases hrest with
  | cons hr _ => cases hr

end

/-! ### Placing an area -/

theorem toInt_pos {w : Word} (h : 0 < w.toInt) :
    0 < w.toNat ∧ w.toNat < 2147483648 ∧ w.toInt = w.toNat := by
  have := w.isLt
  rw [BitVec.toInt_eq_toNat_cond] at h ⊢
  split at h <;> rename_i hc
  · rw [if_pos hc]
    omega
  · omega

theorem toInt_sub_of_le {a b : Word} (h : a.toNat ≤ b.toNat) (hb : b.toNat - a.toNat < 2147483648) :
    (b - a).toInt = (b.toNat : Int) - a.toNat := by
  rw [BitVec.toInt_eq_toNat_cond, BitVec.toNat_sub]
  split <;> omega

/-- A positive length reaches at least the end of the first page, and the mapping loop only
    returns if the area ends below the kernel. -/
theorem newEnd {start : Word} (hal : start.toNat % 4096 = 0) (hle : start.toNat ≤ KERNBASE.toNat)
    (hlen : 0 < length.toInt) (hb : start < PGROUNDUP (start + length) - 1 →
      (PGROUNDUP (start + length) - 1).toNat + 1 ≤ KERNBASE.toNat) :
    start.toNat < (PGROUNDUP (start + length) - 1).toNat
      ∧ (PGROUNDUP (start + length) - 1).toNat + 1 ≤ KERNBASE.toNat
      ∧ start.toNat + length.toNat ≤ (PGROUNDUP (start + length) - 1).toNat + 1 := by
  have hk := toNat_KERNBASE
  have h1 : (1 : Word).toNat = 1 := rfl
  obtain ⟨hpos, hlt, -⟩ := toInt_pos hlen
  have hsum : (start + length).toNat = start.toNat + length.toNat := by
    rw [BitVec.toNat_add]
    omega
  have hround := toNat_PGROUNDUP (start + length)
  have hsub : (PGROUNDUP (start + length) - 1).toNat
      = (2 ^ 32 - 1 + (PGROUNDUP (start + length)).toNat) % 2 ^ 32 := by
    rw [BitVec.toNat_sub, h1]
  have hstart : start < PGROUNDUP (start + length) - 1 := by
    show start.toNat < (PGROUNDUP (start + length) - 1).toNat
    omega
  have := hb hstart
  have hstart' : start.toNat < (PGROUNDUP (start + length) - 1).toNat := hstart
  exact ⟨hstart', this, by omega⟩

section

variable {x : VmaPtr} {c nx v : VmArea} {vma : Frame} {s : Phys} {k5 : Kernel}
  {start length prot flags fd : Word} {fixed : Bool}
variable {y d : VmaPtr} {l' : List (VmaPtr × VmArea)}

section

variable (w : Placing own k p x c start length prot flags fd fixed vma s nx v own' k5 k')
include w

theorem Placing.end_eq : v.end_ = PGROUNDUP (start + length) - 1 := by
  rw [w.new]
  rfl

/-- The pages of the new area were not there. -/
theorem Placing.absent (h1 : start.toNat ≤ va.toNat) (h2 : va.toNat ≤ v.end_.toNat) :
    k.trans p va = none := by
  rw [← placed_trans w.taken p va]
  exact (w.paged.inside va h1 (by omega)).1

/-- Translations after the call: the new area's pages are there unless the process is
    killed, all others are as before. -/
theorem Placing.translation (va : Word) :
    (start.toNat ≤ va.toNat ∧ va.toNat ≤ v.end_.toNat →
        (k'.proc p).killed = true ∨ k'.trans p va ≠ none)
      ∧ (¬ (start.toNat ≤ va.toNat ∧ va.toNat ≤ v.end_.toNat) → k'.trans p va = k.trans p va) := by
  rw [w.guards.translation, w.guards.killed]
  refine ⟨fun ⟨h1, h2⟩ => ?_, fun h => ?_⟩
  · rcases (w.paged.inside va h1 (by omega)).2 with ⟨hk, -⟩ | ⟨f, -, -, htr, -⟩
    · exact .inl hk
    · exact .inr (by simp [htr])
  · rw [(w.paged.outside va (by omega)).1, placed_trans w.taken]

end

variable (s length fixed) in
/-- The list while the pages are mapped: the new area follows `x`, or takes the place of the
    head. -/
theorem placed_path (hp : Areas k (.head p) (l1 ++ (x, c) :: l2) y)
    (hy : y ∉ (l1 ++ (x, c) :: l2).map Prod.fst)
    (hmine : ∀ d u, (d, u) ∈ l1 ++ (x, c) :: l2 → Mine own p d) (hfree : own vma = .free)
    (hv : v.next = c.next) :
    if fixed = true ∧ v.start = MIN_ADDR then
      Areas (k.placed p s x c vma v length fixed) (.head p) ((.head p, v) :: l2) y
    else
      Areas (k.placed p s x c vma v length fixed) (.head p)
        (l1 ++ (x, { c with space_after := c.space_after - length, next := .node vma })
          :: (.node vma, v) :: l2) y := by
  have hx := hmine x c (by simp)
  have hne := hx.ne_node hfree
  have hnull := hx.ne_null
  have hnodup := hp.nodup hy
  -- the first pointer of the list is the head, so the head does not come again
  have hfirst : ∀ {d : VmaPtr} {u : VmArea}, (d, u) ∈ l2 → d ≠ .head p := by
    rintro d u hdu rfl
    have hin : VmaPtr.head p ∈ l2.map Prod.fst := mem_map.mpr ⟨_, hdu, rfl⟩
    cases l1 with
    | nil =>
      cases hp
      rw [nil_append, map_cons, nodup_cons] at hnodup
      exact hnodup.1 hin
    | cons a l1 =>
      cases hp
      rw [cons_append, map_cons, nodup_cons] at hnodup
      refine hnodup.1 ?_
      rw [map_append, map_cons, mem_append, mem_cons]
      exact .inr (.inr hin)
  rw [map_append, map_cons, nodup_append, nodup_cons] at hnodup
  -- what is read in the new state at a pointer that is not null
  have hread : ∀ {d : VmaPtr}, d ≠ .null →
      ∃ u, (k.placed p s x c vma v length fixed).deref d = .ok u := by
    intro d hd
    rcases deref_cases (k.placed p s x c vma v length fixed) d with hw | hu
    · cases d <;> cases hw
      exact absurd rfl hd
    · exact hu
  have hother : ∀ {d : VmaPtr} {u : VmArea}, (d, u) ∈ l1 ++ (x, c) :: l2 → d ≠ x →
      (d = .head p → ¬ (fixed = true ∧ v.start = MIN_ADDR)) →
      (k.placed p s x c vma v length fixed).read d = some u := by
    intro d u hdu hdx hdh
    have hd := read_eq_some.mp (hp.read_eq hdu)
    obtain ⟨u', hu'⟩ := hread (d := d) (by rintro rfl; cases hd)
    rw [read_eq_some, hu']
    rcases placed_deref hne hnull hu' with ⟨hdv, -⟩ | ⟨hdh', hfix, -⟩ | ⟨hdx', -⟩ | ⟨-, hdk⟩
    · exact absurd hdv ((hmine d u hdu).ne_node hfree)
    · exact absurd hfix (hdh hdh')
    · exact absurd hdx' hdx
    · rw [hd] at hdk
      exact hdk.symm
  have hl1 : ∀ {d : VmaPtr} {u : VmArea}, (d, u) ∈ l1 → d ≠ x := by
    rintro d u hdu rfl
    exact hnodup.2.2 d (mem_map.mpr ⟨(d, u), hdu, rfl⟩) d (by simp) rfl
  have hl2 : ∀ {d : VmaPtr} {u : VmArea}, (d, u) ∈ l2 → d ≠ x := by
    rintro d u hdu rfl
    exact hnodup.2.1.1 (mem_map.mpr ⟨(d, u), hdu, rfl⟩)
  by_cases hfix : fixed = true ∧ v.start = MIN_ADDR
  · rw [if_pos hfix]
    refine .cons (read_eq_some.mpr (placed_head hfix)) ?_
    rw [hv]
    refine hp.split_cons.2.2.congr (fun d u hdu => ?_)
    exact hother (by simp [hdu]) (hl2 hdu) (fun hd => absurd hd (hfirst hdu))
  · rw [if_neg hfix]
    refine Path.insert hp (read_eq_some.mpr (placed_curr hfix hnull)) rfl
      (read_eq_some.mpr (placed_node hne)) hv ?_ ?_
    · intro d u hdu
      exact hother (by simp [hdu]) (hl1 hdu) (fun _ => hfix)
    · intro d u hdu
      exact hother (by simp [hdu]) (hl2 hdu) (fun _ => hfix)

/-- Two lists of areas that agree in the sense of `SameArea`. -/
abbrev SameList : List (VmaPtr × VmArea) → List (VmaPtr × VmArea) → Prop :=
  List.Forall₂ (fun a b => b.1 = a.1 ∧ SameArea a.2 b.2)

/-- The path stays. -/
theorem SameAreas.path (h : SameAreas k k') (hp : Areas k x l y) :
    ∃ l', Areas k' x l' y ∧ SameList l l' := by
  refine hp.map (fun d u hdu => ?_)
  obtain ⟨u', hu', hsame⟩ := h.forward (read_eq_some.mp (hp.read_eq hdu))
  exact ⟨u', read_eq_some.mpr hu', by rw [hsame.eq], hsame⟩

theorem SameList.segs_eq (h : SameList l l') :
    segs l' = segs l ∧ l'.map Prod.fst = l.map Prod.fst := by
  induction h with
  | nil => exact ⟨rfl, rfl⟩
  | cons hab _ ih =>
    rw [segs_cons, segs_cons, map_cons, map_cons, ih.1, ih.2, hab.1]
    refine ⟨?_, rfl⟩
    rw [seg, seg, hab.2.eq]

theorem SameList.mem (h : SameList l l') {u' : VmArea} (hd : (d, u') ∈ l') :
    ∃ u, (d, u) ∈ l ∧ SameArea u u' := Path.map_mem h hd

theorem SameList.mem' (h : SameList l l') {u : VmArea} (hd : (d, u) ∈ l) :
    ∃ u', (d, u') ∈ l' ∧ SameArea u u' := Path.mem_map h hd

/-- A list in order again, with the range of area `v` added to those of `old` and no other
    changed. -/
structure NewList (k : Kernel) (p : Slot) (old l : List (VmaPtr × VmArea)) (v : VmArea) : Prop where
  path : Areas k (.head p) l (.tail p)
  last : .tail p ∉ l.map Prod.fst
  first : nextLo MAX_ADDR.toNat (segs l) = MIN_ADDR.toNat
  laid : Laid MAX_ADDR.toNat (segs l)
  later : ∀ s ∈ (segs l).tail, s.lo < s.hi
  mem : ∀ d u, (d, u) ∈ l → u.start = v.start ∧ u.end_ = v.end_
    ∨ ∃ d0 u0, (d0, u0) ∈ old ∧ u.start = u0.start ∧ u.end_ = u0.end_
  kept : ∀ d u, (d, u) ∈ old → u.start.toNat ≤ u.end_.toNat →
    ∃ d' u', (d', u') ∈ l ∧ u'.start = u.start ∧ u'.end_ = u.end_
  new : ∃ d u, (d, u) ∈ l ∧ u.start = v.start ∧ u.end_ = v.end_

/-- The new area's claim about the room after it is right. -/
theorem Placing.room (h : Ordered k p (l1 ++ (x, c) :: l2)) (hpos : 0 < v.end_.toNat)
    (hnext : v.end_.toNat + 1 ≤ nextLo MAX_ADDR.toNat (segs l2))
    (w : Placing own k p x c start length prot flags fd fixed vma s nx v own' k5 k') :
    v.space_after.toInt = (nextLo MAX_ADDR.toNat (segs l2) : Int) - v.end_.toNat := by
  have hmax := toNat_MAX_ADDR
  have hn : nx.start.toNat = nextLo MAX_ADDR.toNat (segs l2) := (h.next_start rfl w.next).1
  have hle : nextLo MAX_ADDR.toNat (segs l2) ≤ MAX_ADDR.toNat := by
    cases l2 with
    | nil => exact le_rfl
    | cons a l2 =>
      have hb := h.start_lt (c := a.1) (v := a.2) (by simp)
      show a.2.start.toNat ≤ MAX_ADDR.toNat
      omega
  have hv : v.space_after = nx.start - v.end_ := by
    rw [w.end_eq, w.new]
    rfl
  rw [hv, toInt_sub_of_le (by omega) (by omega), hn]

/-- The new area replaces the head only where the head is the empty area `x`. -/
theorem Ordered.replaces_head (h : Ordered k p (l1 ++ (x, c) :: l2))
    (hafter : c.end_.toNat < MIN_ADDR.toNat) : x = .head p ∧ l1 = [] := by
  have hl1 : l1 = [] := by
    by_contra hl1
    have h1 := h.nonempty hl1 (mem_cons_self ..)
    have h2 := h.start_lt (c := x) (v := c) (by simp)
    omega
  subst hl1
  have hpath := h.path
  cases hpath with
  | cons => exact ⟨rfl, rfl⟩

/-- The list with the new area. -/
theorem Sound.newList (h : Sound own k p (l1 ++ (x, c) :: l2)) (hlen : 0 < length.toInt)
    (hroom : length.toInt < c.space_after.toInt) (hafter : c.end_.toNat < start.toNat)
    (hlt : start.toNat < v.end_.toNat)
    (hreach : start.toNat + length.toNat ≤ v.end_.toNat + 1)
    (hnext : v.end_.toNat + 1 ≤ nextLo MAX_ADDR.toNat (segs l2))
    (w : Placing own k p x c start length prot flags fd fixed vma s nx v own' k5 k') :
    ∃ l4, NewList (k.placed p s x c vma v length fixed) p (l1 ++ (x, c) :: l2) l4 v := by
  obtain ⟨hlen0, hlen1, hlen2⟩ := toInt_pos hlen
  have hvs := w.start_eq
  have hvroom := w.room h.ordered (by omega) hnext
  have hlaid := h.ordered.laid
  rw [segs_append, segs_cons] at hlaid
  have hrep : fixed = true ∧ v.start = MIN_ADDR → x = .head p ∧ l1 = [] := by
    intro hfix
    refine h.ordered.replaces_head ?_
    rw [← hfix.2, hvs]
    exact hafter
  have hpath := placed_path s length fixed h.ordered.path h.ordered.last
    (fun d u hdu => h.mine hdu) w.fresh w.next_eq
  set c' : VmArea := { c with space_after := c.space_after - length, next := .node vma }
  have hc' : c'.seg = { c.seg with room := (c.space_after - length).toInt } := rfl
  have hsub : (c.space_after - length).toInt = c.space_after.toInt - length.toInt := by grind
  have hc'lo : c'.start.toNat = c.start.toNat := congrArg Seg.lo hc'
  have hc'hi : c'.end_.toNat + 1 = c.end_.toNat + 1 := congrArg Seg.hi hc'
  have hc'room : c'.space_after.toInt = (c.space_after - length).toInt := congrArg Seg.room hc'
  have hlast := h.ordered.last
  have hlater := h.ordered.later
  have hfirst := h.ordered.first
  rw [map_append, map_cons, mem_append, mem_cons, not_or, not_or] at hlast
  by_cases hfix : fixed = true ∧ v.start = MIN_ADDR
  · rw [if_pos hfix] at hpath
    obtain ⟨rfl, rfl⟩ := hrep hfix
    have hcs : v.start.toNat = c.start.toNat := by
      rw [hfix.2]
      exact hfirst.symm
    refine ⟨(.head p, v) :: l2, hpath, ?_, ?_, ?_, hlater, ?_, ?_, ⟨.head p, v, by simp⟩⟩
    · rw [map_cons, mem_cons, not_or]
      exact ⟨by simp, hlast.2.2⟩
    · show v.start.toNat = MIN_ADDR.toNat
      rw [hfix.2]
    · show Laid MAX_ADDR.toNat ([] ++ v.seg :: segs l2)
      refine hlaid.swap hcs ?_ hnext ?_ ?_
      · show v.start.toNat ≤ v.end_.toNat + 1
        rw [hvs]
        omega
      · show (nextLo MAX_ADDR.toNat (segs l2) : Int) - (v.end_.toNat + 1 : Nat)
          < v.space_after.toInt
        omega
      · intro hone
        have hone : c.space_after.toInt ≤ 1 := hone
        omega
    · grind
    · -- the head that is replaced was empty
      intro d u hdu hne
      rcases mem_cons.mp hdu with heq | hdu
      · cases heq
        rw [hvs] at hcs
        omega
      · exact ⟨d, u, by simp [hdu], rfl, rfl⟩
  · rw [if_neg hfix] at hpath
    refine ⟨_, hpath, ?_, ?_, ?_, ?_, ?_, ?_, ⟨.node vma, v, by simp⟩⟩
    · simp [*]
    · rw [← hfirst, segs_append, segs_append]
      exact nextLo_append_cons _ _ _ _ _ _ hc'lo
    · rw [segs_append, segs_cons, segs_cons]
      refine hlaid.insert (n := length.toNat) hc'lo hc'hi ?_ ?_ ?_ ?_ hnext ?_
      · show c'.space_after.toInt = c.space_after.toInt - length.toNat
        rw [hc'room, hsub]
        omega
      · show 1 < c.space_after.toInt
        omega
      · show c.end_.toNat + 1 ≤ v.start.toNat
        rw [hvs]
        omega
      · show v.start.toNat + length.toNat ≤ v.end_.toNat + 1
        rw [hvs]
        exact hreach
      · show v.space_after.toInt
          = (nextLo MAX_ADDR.toNat (segs l2) : Int) - (v.end_.toNat + 1 : Nat) + 1
        omega
    · have hv : v.seg.lo < v.seg.hi := by
        show v.start.toNat < v.end_.toNat + 1
        rw [hvs]
        omega
      intro t ht
      cases l1 with
      | nil =>
        rcases mem_cons.mp ht with rfl | ht
        · exact hv
        · exact hlater t ht
      | cons a l1 =>
        have hmem : ∀ t, t ∈ segs l1 ∨ t = c.seg ∨ t ∈ segs l2 → t.lo < t.hi := by simp_all
        rw [cons_append, segs_cons, tail_cons, segs_append, segs_cons, segs_cons,
          mem_append, mem_cons, mem_cons] at ht
        rcases ht with ht | rfl | rfl | ht
        · exact hmem t (.inl ht)
        · simp [*]
        · exact hv
        · exact hmem t (.inr (.inr ht))
    · grind
    · grind

/-- A state that has the areas of one with a list in order has its own. -/
theorem NewList.ordered {old l4 : List (VmaPtr × VmArea)} {k4 : Kernel} (n : NewList k4 p old l4 v)
    (hs : SameAreas k4 k') (htail : (k'.proc p).tail.start = MAX_ADDR) :
    ∃ l', Ordered k' p l' ∧ SameList l4 l' := by
  obtain ⟨l', hp, hl'⟩ := hs.path n.path
  obtain ⟨hsegs, hfst⟩ := hl'.segs_eq
  refine ⟨l', ⟨hp, ?_, htail, ?_, ?_, ?_⟩, hl'⟩
  · rw [hfst]
    exact n.last
  · rw [hsegs]
    exact n.first
  · rw [hsegs]
    exact n.laid
  · rw [hsegs]
    exact n.later

section

variable (h : Sound own k p (l1 ++ (x, c) :: l2)) (halive : (k.proc p).killed = false)
include h halive

/-- The new area ends before the next one: the loop would not have passed a page of that. -/
theorem Sound.before_next (hend : v.end_.toNat + 1 ≤ KERNBASE.toNat)
    (hbefore : start.toNat ≤ nextLo MAX_ADDR.toNat (segs l2))
    (w : Placing own k p x c start length prot flags fd fixed vma s nx v own' k5 k') :
    v.end_.toNat + 1 ≤ nextLo MAX_ADDR.toNat (segs l2) := by
  cases l2 with
  | nil => exact hend
  | cons a l2 =>
    obtain ⟨y, u⟩ := a
    by_contra hgt
    have hu : (y, u) ∈ l1 ++ (x, c) :: (y, u) :: l2 := by simp
    have hne : u.start.toNat ≤ u.end_.toNat := by
      have h' := h.ordered
      rw [show l1 ++ (x, c) :: (y, u) :: l2 = (l1 ++ [(x, c)]) ++ (y, u) :: l2 by simp] at h'
      exact h'.nonempty (by simp) (mem_cons_self ..)
    have hlo : nextLo MAX_ADDR.toNat (segs ((y, u) :: l2)) = u.start.toNat := rfl
    exact h.present halive y u hu u.start le_rfl hne (w.absent hbefore (by omega))

/-- Placing an area of positive length keeps the list in order and mapped. -/
theorem mmapPlace_sound (hlen : 0 < length.toInt) (hroom : length.toInt < c.space_after.toInt)
    (hal : start.toNat % 4096 = 0) (hle : start.toNat ≤ KERNBASE.toNat)
    (hafter : c.end_.toNat < start.toNat) (hbefore : start.toNat ≤ nextLo MAX_ADDR.toNat (segs l2))
    (w : Placing own k p x c start length prot flags fd fixed vma s nx v own' k5 k') :
    ∃ l', Sound own' k' p l' ∧ (Covered k p (l1 ++ (x, c) :: l2) → Covered k' p l') := by
  have hvs := w.start_eq
  have hve := w.end_eq
  obtain ⟨hlt, hend, hreach⟩ := newEnd hal hle hlen (hve ▸ w.below)
  rw [← hve] at hlt hend hreach
  have hnext := h.before_next halive hend hbefore w
  obtain ⟨l4, n⟩ := h.newList hlen hroom hafter hlt hreach hnext w
  have htail : (k'.proc p).tail.start = MAX_ADDR := by
    obtain ⟨t, ht, hst⟩ := w.same (.tail p) (k'.proc p).tail rfl
    have hx : VmaPtr.tail p ≠ x := by
      have := h.ordered.last
      rw [map_append, map_cons, mem_append, mem_cons, not_or, not_or] at this
      exact this.2.1
    rcases w.cases ht with ⟨h1, -⟩ | ⟨h1, -⟩ | ⟨h1, -⟩ | ⟨-, h1⟩
    · cases h1
    · cases h1
    · exact absurd h1 hx
    · cases h1
      rw [hst.eq]
      exact h.ordered.tail
  obtain ⟨l', hord, hl'⟩ := n.ordered w.same htail
  refine ⟨l', ⟨?_, ?_, ?_, w.lists, hord, ?_⟩, ?_⟩
  · rw [w.guards.phys]
    exact w.paged.free
  · rw [w.guards.phys, w.guards.pgdir, w.paged.pgdir]
    exact w.paged.tables
  · rw [(w.translation KERNBASE).2 (by omega)]
    exact h.kern
  · -- the new pages are there, the old ones are not touched
    intro halive' d u' hdu va h1 h2
    obtain ⟨u, hu, hsu⟩ := hl'.mem hdu
    have hus : u'.start = u.start := by rw [hsu.eq]
    have hue : u'.end_ = u.end_ := by rw [hsu.eq]
    rw [hus] at h1
    rw [hue] at h2
    rcases n.mem d u hu with ⟨hs1, he1⟩ | ⟨d0, u0, hmem, hs1, he1⟩
    · grind [w.translation]
    · rw [hs1] at h1
      rw [he1] at h2
      have hp := h.present halive d0 u0 hmem va h1 h2
      rw [(w.translation va).2 (fun hin => hp (w.absent hin.1 hin.2))]
      exact hp
  · intro hcov va h1 h2 htr
    by_cases hin : start.toNat ≤ va.toNat ∧ va.toNat ≤ v.end_.toNat
    · obtain ⟨d, u, hu, hs1, he1⟩ := n.new
      obtain ⟨u', hu', hsu⟩ := hl'.mem' hu
      refine ⟨d, u', hu', ?_, ?_⟩
      · rw [hsu.eq]
        show u.start.toNat ≤ va.toNat
        rw [hs1, hvs]
        exact hin.1
      · rw [hsu.eq]
        show va.toNat ≤ u.end_.toNat
        rw [he1]
        exact hin.2
    · rw [(w.translation va).2 hin] at htr
      obtain ⟨d, u, hu, hs1, he1⟩ := hcov va h1 h2 htr
      obtain ⟨d', u2, hu2, hs2, he2⟩ := n.kept d u hu (by omega)
      obtain ⟨u', hu', hsu⟩ := hl'.mem' hu2
      refine ⟨d', u', hu', ?_, ?_⟩
      · rw [hsu.eq]
        show u2.start.toNat ≤ va.toNat
        rw [hs2]
        exact hs1
      · rw [hsu.eq]
        show va.toNat ≤ u2.end_.toNat
        rw [he2]
        exact he1

/-- The `MAP_FIXED` search stops before no area: had it passed one for want of claimed room,
    the new area would run into it. -/
theorem Sound.fixed_after (hlen : 0 < length.toInt) (hroom : length.toInt < c.space_after.toInt)
    (hmin : MIN_ADDR.toNat ≤ addr.toNat) (hpass : ∀ d u, (d, u) ∈ l1 → FixedFails k addr length u)
    (hout : ¬ (c.start ≤ addr ∧ addr ≤ c.end_))
    (hreach : addr.toNat + length.toNat ≤ v.end_.toNat + 1)
    (w : Placing own k p x c addr length prot flags fd fixed vma s nx v own' k5 k') :
    c.end_.toNat < addr.toNat := by
  obtain ⟨-, -, hlen2⟩ := toInt_pos hlen
  have hlaid := h.ordered.laid
  have hfirst := h.ordered.first
  rw [segs_append, segs_cons] at hlaid hfirst
  have hle : c.start.toNat ≤ addr.toNat := by
    refine hlaid.reach (n := length.toNat) (by omega) ?_ (by omega) ?_ ?_
    · intro ls ls' t hls
      -- the passed interval is that of an area the search has passed
      obtain ⟨la, lb, hl1, -, hb⟩ := map_eq_append_iff.mp hls
      obtain ⟨⟨d, u⟩, lb', rfl, rfl, rfl⟩ := map_eq_cons_iff.mp hb
      obtain ⟨hus, huo, n, hn, hroom⟩ := hpass d u (by simp [hl1])
      refine ⟨fun hin => huo ⟨hin.1, Nat.le_of_lt_succ hin.2⟩, fun hlt => ?_⟩
      have hord := h.ordered
      rw [hl1, append_assoc, cons_append] at hord
      have hn' := (hord.next_start rfl hn).1
      rw [segs_append, segs_cons] at hn'
      have hroom' : ¬ length.toInt < u.space_after.toInt := by
        refine fun hlt' => hroom ⟨?_, hlt'⟩
        show addr.toNat < n.start.toNat
        rw [hn']
        exact hlt
      show u.space_after.toInt ≤ length.toNat
      omega
    · show (length.toNat : Int) < c.space_after.toInt
      omega
    · intro t ht hin
      rw [← segs_cons, ← segs_append] at ht
      have hne := h.ordered.later t ht
      obtain ⟨⟨d, u⟩, hu, rfl⟩ := mem_map.mp (mem_of_mem_tail ht)
      have hlo : addr.toNat < u.start.toNat ∧ u.start.toNat < addr.toNat + length.toNat := hin
      have hne' : u.start.toNat < u.end_.toNat + 1 := hne
      exact h.present halive d u hu u.start le_rfl (by omega) (w.absent (by omega) (by omega))
  by_contra hgt
  exact hout ⟨hle, not_lt.mp hgt⟩

end

end

/-- How `mmap` puts the area `v` into the list `l1 ++ (x, c) :: l2`: after `x`, between the
    end of `c` and the start of the next area. -/
structure Put (own : Frame → Owner) (k : Kernel) (p : Slot)
    (l1 : List (VmaPtr × VmArea)) (x : VmaPtr)
    (c : VmArea) (l2 : List (VmaPtr × VmArea)) (addr length prot flags fd start : Word)
    (fixed : Bool)
    (vma : Frame) (s : Phys) (nx v : VmArea) (own' : Frame → Owner) (k5 k6 k' : Kernel) (r : Word) :
    Prop where
  placing : Placing own k p x c start length prot flags fd fixed vma s nx v own' k5 k'
  junk : v.guardstart = Xv6.junk
  unguard : k5.mmapUnguard (prevOf l1 x) x = .ok k6
  guard : k6.mmapGuard vma start flags = .ok (r, k')
  room : length.toInt < c.space_after.toInt
  aligned : start.toNat % 4096 = 0
  le : start.toNat ≤ KERNBASE.toNat
  after : c.end_.toNat < start.toNat
  before : start.toNat ≤ nextLo MAX_ADDR.toNat (segs l2)
  fixedAt : fixed = true → flags &&& MAP_FIXED ≠ 0#32 ∧ start = addr

/-- `mmap` with a positive length changes nothing, or puts an area into the list. -/
theorem sysMmap_put {prot flags fd r : Word} (h : Sound own k p l)
    (halive : (k.proc p).killed = false) (hlen : 0 < length.toInt) (ha : LoadArgs prot flags)
    (hr : sysMmap L k p addr length prot flags fd = .ok (r, k')) :
    (r = -1 ∧ k' = k)
      ∨ ∃ l1 x c l2 start fixed vma s nx v own' k5 k6, l = l1 ++ (x, c) :: l2
          ∧ Put own k p l1 x c l2 addr length prot flags fd start fixed
            vma s nx v own' k5 k6 k' r := by
  unfold sysMmap at hr
  split at hr
  · rename_i hfixed
    split at hr
    · cases hr
      exact .inl ⟨rfl, rfl⟩
    rename_i hargs
    rw [not_or, not_or, BitVec.not_lt, BitVec.not_le] at hargs
    obtain ⟨hal, hmin, hmax⟩ := hargs
    rcases mmapFixedLoop_cases [] hr with hr | hr | hr |
      ⟨l1, x, c, n, hp, hpass, hd, hs, hout, hn, hlt, hroom, hr⟩
    · cases hr
      exact .inl ⟨rfl, rfl⟩
    · cases hr
    · cases hr
    obtain ⟨l2, rfl⟩ := h.ordered.split hp (fun d u hdu => (hpass d u hdu).start) hd hs
    have hmem : (x, c) ∈ l1 ++ (x, c) :: l2 := by simp
    have hal' : addr.toNat % 4096 = 0 := by
      have := congrArg BitVec.toNat (not_not.mp hal)
      simpa [PGSIZE] using this
    have hle : addr.toNat ≤ KERNBASE.toNat := le_of_lt hmax
    have hprev := h.lists.prev hp (fun d u hdu => (hpass d u hdu).start) (h.mine hmem)
    obtain ⟨-, vma, s, nx, v, own', k5, k6, w, hjunk, hun, hguard⟩ :=
      mmapPlace_ok h.free h.tables h.kern h.lists (h.mine hmem) hprev hd hs hal' hle ha hr.symm
    have hreach := (newEnd hal' hle hlen (w.end_eq ▸ w.below)).2.2
    rw [← w.end_eq] at hreach
    have hafter := h.fixed_after halive hlen hroom hmin hpass hout hreach w
    have hbefore : addr.toNat ≤ nextLo MAX_ADDR.toNat (segs l2) := by
      rw [← (h.ordered.next_start rfl hn).1]
      exact le_of_lt hlt
    exact .inr ⟨l1, x, c, l2, addr, true, vma, s, nx, v, own', k5, k6, rfl,
      w, hjunk, hun, hguard, hroom, hal', hle, hafter, hbefore, fun _ => ⟨hfixed, rfl⟩⟩
  · rcases mmapAnyLoop_cases [] hr with hr | hr | hr | ⟨l1, x, c, hp, hpass, hd, hs, hroom, hr⟩
    · cases hr
      exact .inl ⟨rfl, rfl⟩
    · cases hr
    · cases hr
    obtain ⟨l2, rfl⟩ := h.ordered.split hp (fun d u hdu => (hpass d u hdu).1) hd hs
    have hmem : (x, c) ∈ l1 ++ (x, c) :: l2 := by simp
    have hok := h.ok hmem
    have hstart := hok.toNat_end_add_one
    have hal' : (c.end_ + 1).toNat % 4096 = 0 := by rw [hstart]; exact hok.end_aligned
    have hle : (c.end_ + 1).toNat ≤ KERNBASE.toNat := by rw [hstart]; exact hok.end_lt
    have hprev := h.lists.prev hp (fun d u hdu => (hpass d u hdu).1) (h.mine hmem)
    obtain ⟨-, vma, s, nx, v, own', k5, k6, w, hjunk, hun, hguard⟩ :=
      mmapPlace_ok h.free h.tables h.kern h.lists (h.mine hmem) hprev hd hs hal' hle ha hr.symm
    have hbefore : (c.end_ + 1).toNat ≤ nextLo MAX_ADDR.toNat (segs l2) := by
      have hlaid := h.ordered.laid
      rw [segs_append, segs_cons] at hlaid
      rw [hstart]
      exact hlaid.at_mem.2.1
    exact .inr ⟨l1, x, c, l2, c.end_ + 1, false, vma, s, nx, v, own', k5, k6, rfl,
      w, hjunk, hun, hguard, hroom, hal', hle, by omega, hbefore, fun h => by cases h⟩

/-- `mmap` with a positive length keeps the list in order and mapped. -/
theorem sysMmap_sound {prot flags fd r : Word} (h : Sound own k p l)
    (halive : (k.proc p).killed = false) (hlen : 0 < length.toInt) (ha : LoadArgs prot flags)
    (hr : sysMmap L k p addr length prot flags fd = .ok (r, k')) :
    ∃ own' l', Sound own' k' p l' ∧ (Covered k p l → Covered k' p l') := by
  rcases sysMmap_put h halive hlen ha hr with
    ⟨-, rfl⟩ | ⟨l1, x, c, l2, start, fixed, vma, s, nx, v, own', k5, k6, rfl, w⟩
  · exact ⟨own, l, h, id⟩
  · obtain ⟨l', hl'⟩ :=
      mmapPlace_sound h halive hlen w.room w.aligned w.le w.after w.before w.placing
    exact ⟨own', l', hl'⟩

/-! ### Page faults -/

/-- The pointers of the list. -/
def Listed (p : Slot) (l : List (VmaPtr × VmArea)) (x : VmaPtr) : Prop :=
  x ∈ l.map Prod.fst ∨ x = .tail p

theorem Sound.listed_mine (h : Sound own k p l) (hx : Listed p l x) : Mine own p x := by
  rcases hx with hx | rfl
  · obtain ⟨⟨d, u⟩, hdu, rfl⟩ := mem_map.mp hx
    exact h.mine hdu
  · rfl

/-- An area of the list the handler does not stop at is one of `l`. -/
theorem Sound.listed_mem (h : Sound own k p l) (hx : Listed p l x) (hd : k.deref x = .ok v)
    (hs : v.start ≠ MAX_ADDR) : (x, v) ∈ l := by
  rcases hx with hx | rfl
  · obtain ⟨⟨d, u⟩, hdu, rfl⟩ := mem_map.mp hx
    have := h.deref hdu
    rw [hd] at this
    cases this
    exact hdu
  · cases hd
    exact absurd h.ordered.tail hs

/-- The list is a walk. -/
theorem Sound.walk (h : Sound own k p l) : Walk k p (Listed p l) where
  closed := by
    intro x v hx hd hs
    have hmem := h.listed_mem hx hd hs
    obtain ⟨l1, l2, rfl⟩ := append_of_mem hmem
    obtain ⟨-, -, hrest⟩ := h.ordered.path.split_cons
    right
    generalize hy : v.next = y at hrest
    cases hrest with
    | nil => exact .inr rfl
    | cons _ _ => exact .inl (by simp)
  head := by
    have hpath := h.ordered.path
    cases hpath with
    | cons _ _ => exact .inl (by simp)
  guard := fun x v hx hd => h.lists.guard x v (h.listed_mine hx) hd

/-- Killing the process loses nothing but the claim that its areas are mapped. -/
theorem Sound.kill (h : Sound own k p l) (hs : Still own k p s') :
    Sound own (({ k with phys := s' } : Kernel).kill p) p l
      ∧ (Covered k p l → Covered (({ k with phys := s' } : Kernel).kill p) p l) := by
  have hread : (({ k with phys := s' } : Kernel).kill p).read = k.read := by
    funext x
    rw [read, read, deref_kill_phys]
  have htr' : ∀ va, (({ k with phys := s' } : Kernel).kill p).trans p va = k.trans p va := by
    intro va
    rw [trans_kill, hs.trans]
  refine ⟨⟨hs.free, by simpa using hs.tables, by rw [htr']; exact h.kern, ⟨?_, ?_⟩,
    ⟨?_, h.ordered.last, ?_,
    h.ordered.first, h.ordered.laid, h.ordered.later⟩, ?_⟩, ?_⟩
  · intro x v hx hd
    rw [deref_kill_phys] at hd
    exact h.lists.guard x v hx hd
  · intro x v hx hd
    rw [deref_kill_phys] at hd
    exact h.lists.area x v hx hd
  · show Path (({ k with phys := s' } : Kernel).kill p).read _ _ _ _
    rw [hread]
    exact h.ordered.path
  · simpa using h.ordered.tail
  · intro hk
    simp at hk
  · intro hcov va h1 h2 hne
    rw [htr'] at hne
    exact hcov va h1 h2 hne

/-- The page an area grows into is not the first of the next area. -/
theorem Sound.grow_room (h : Sound own k p (l1 ++ (x, v) :: l2))
    (halive : (k.proc p).killed = false) (hg : v.guardstart = v.end_ + 1)
    (hlt : v.guardstart.toNat < MAX_ADDR.toNat) (habs : k.trans p v.guardstart = none) :
    v.end_.toNat + 1 + 4096 ≤ nextLo MAX_ADDR.toNat (segs l2) := by
  have hmax := toNat_MAX_ADDR
  have hok : v.Ok := h.ok (c := x) (by simp)
  have h1 := hok.toNat_end_add_one
  have hal := hok.end_aligned
  rw [← hg] at h1
  have hlaid := h.ordered.laid
  rw [segs_append, segs_cons] at hlaid
  have hnext : v.end_.toNat + 1 ≤ nextLo MAX_ADDR.toNat (segs l2) := hlaid.at_mem.2.1
  cases l2 with
  | nil =>
    show v.end_.toNat + 1 + 4096 ≤ MAX_ADDR.toNat
    omega
  | cons a l2 =>
    obtain ⟨y, u⟩ := a
    have hu : (y, u) ∈ l1 ++ (x, v) :: (y, u) :: l2 := by simp
    have hual := (h.ok hu).start_aligned
    have hlo : nextLo MAX_ADDR.toNat (segs ((y, u) :: l2)) = u.start.toNat := rfl
    by_contra hgt
    have hne : u.start.toNat ≤ u.end_.toNat := by
      have h' := h.ordered
      rw [show l1 ++ (x, v) :: (y, u) :: l2 = (l1 ++ [(x, v)]) ++ (y, u) :: l2 by simp] at h'
      exact h'.nonempty (by simp) (mem_cons_self ..)
    have heq : v.guardstart = u.start := BitVec.eq_of_toNat_eq (by omega)
    rw [heq] at habs
    exact h.present halive y u hu u.start le_rfl hne habs

/-- One area of the list is written: it keeps its start and its place in the list, and may
    become longer within the gap after it. -/
theorem Ordered.replace {v' : VmArea} (h : Ordered k p (l1 ++ (x, v) :: l2))
    (hself : k'.read x = some v') (hother : ∀ d, d ≠ x → k'.read d = k.read d)
    (hnext : v'.next = v.next) (hstart : v'.start = v.start) (hend : v.end_.toNat < v'.end_.toNat)
    (hgap : v'.end_.toNat + 1 ≤ nextLo MAX_ADDR.toNat (segs l2))
    (hroom : v'.space_after = v.space_after) : Ordered k' p (l1 ++ (x, v') :: l2) := by
  have hnodup := h.path.nodup h.last
  rw [map_append, map_cons, nodup_append, nodup_cons] at hnodup
  have hlast := h.last
  rw [map_append, map_cons, mem_append, mem_cons, not_or, not_or] at hlast
  have hlaid := h.laid
  rw [segs_append, segs_cons] at hlaid
  have hle : v.start.toNat ≤ v.end_.toNat + 1 := hlaid.at_mem.1
  have hrm : (nextLo MAX_ADDR.toNat (segs l2) : Int) - (v.end_.toNat + 1 : Nat)
      ≤ v.space_after.toInt := hlaid.at_mem.2.2
  refine ⟨?_, ?_, ?_, ?_, ?_, ?_⟩
  · refine Path.replace h.path hself hnext ?_ ?_
    · intro d u hdu
      rw [hother, h.path.read_eq (v := u) (by simp [hdu])]
      rintro rfl
      exact hnodup.2.2 d (mem_map.mpr ⟨(d, u), hdu, rfl⟩) d (by simp) rfl
    · grind [h.path.read_eq, hnodup.2.1.1, mem_map.mpr]
  · simp [*]
  · have htail := hother (.tail p) hlast.2.1
    have heq : (k'.proc p).tail = (k.proc p).tail := by
      simpa [read, Kernel.deref] using htail
    rw [heq]
    exact h.tail
  · rw [← h.first, segs_append, segs_append]
    exact nextLo_append_cons _ _ _ _ _ _ (congrArg BitVec.toNat hstart)
  · rw [segs_append, segs_cons]
    refine hlaid.swap (congrArg BitVec.toNat hstart) ?_ hgap ?_ ?_
    · show v'.start.toNat ≤ v'.end_.toNat + 1
      rw [hstart]
      omega
    · show (nextLo MAX_ADDR.toNat (segs l2) : Int) - (v'.end_.toNat + 1 : Nat)
        < v'.space_after.toInt
      rw [hroom]
      omega
    · intro hone
      show v'.space_after.toInt ≤ 1
      rw [hroom]
      exact hone
  · intro t ht
    have hlater := h.later
    cases l1 with
    | nil => exact hlater t ht
    | cons a l1 =>
      rw [cons_append, segs_cons, tail_cons, segs_append, segs_cons, mem_append, mem_cons] at ht
      have hmem : ∀ t, t ∈ segs l1 ∨ t = v.seg ∨ t ∈ segs l2 → t.lo < t.hi := by
        intro t ht
        refine hlater t ?_
        rw [cons_append, segs_cons, tail_cons, segs_append, segs_cons, mem_append, mem_cons]
        exact ht
      rcases ht with ht | rfl | ht
      · exact hmem t (.inl ht)
      · show v'.start.toNat < v'.end_.toNat + 1
        rw [hstart]
        omega
      · exact hmem t (.inr (.inr ht))

/-- Growing an area keeps the list in order and mapped. -/
theorem grow_sound {next : VmArea} (h : Sound own k p (l1 ++ (x, v) :: l2))
    (halive : (k.proc p).killed = false) (w : Grown own k p x v next f own' s' k') :
    Sound own' k' p (l1 ++ (x, v.growsUp next) :: l2)
      ∧ (Covered k p (l1 ++ (x, v) :: l2) → Covered k' p (l1 ++ (x, v.growsUp next) :: l2)) := by
  have hkern := toNat_KERNBASE
  have hmax := toNat_MAX_ADDR
  have hlt := w.lt
  have hend := (w.ok.growsUp w.guard w.lt next).2
  have hg1 := w.ok.toNat_end_add_one
  have hal := w.ok.end_aligned
  rw [← w.guard] at hg1
  have hroom := h.grow_room halive w.guard w.lt w.page.before
  have hother : ∀ d, d ≠ x → k'.read d = k.read d := by
    intro d hd
    rw [read, read, w.deref_ne hd]
  -- the page that was mapped is the one after the area
  have hpage : ∀ va : Word, frameOf va = frameOf v.guardstart
      ↔ v.end_.toNat + 1 ≤ va.toNat ∧ va.toNat < v.end_.toNat + 1 + 4096 := by
    intro va
    rw [frameOf_eq_iff (by omega), hg1]
  refine ⟨⟨?_, ?_, ?_, w.lists, ?_, ?_⟩, ?_⟩
  · rw [w.eq, setVma_phys]
    exact w.page.free
  · rw [w.eq, setVma_phys, setVma_pgdir]
    exact w.page.tables
  · rw [w.translation, if_neg (fun hk => by have := (hpage _).mp hk; omega)]
    exact h.kern
  · exact h.ordered.replace (read_eq_some.mpr w.deref_self) hother (growsUp_next v next)
      (growsUp_start v next)
      (by omega) (by omega) (growsUp_space_after v next)
  · intro _ d u hdu va h1 h2
    rw [w.translation]
    by_cases hin : frameOf va = frameOf v.guardstart
    · rw [if_pos hin]
      simp
    · rw [if_neg hin]
      rw [mem_append, mem_cons] at hdu
      rcases hdu with hdu | heq | hdu
      · exact h.present halive d u (by simp [hdu]) va h1 h2
      · cases heq
        rw [hpage] at hin
        rw [growsUp_start] at h1
        exact h.present halive x v (by simp) va h1 (by omega)
      · exact h.present halive d u (by simp [hdu]) va h1 h2
  · intro hcov va h1 h2 htr
    rw [w.translation] at htr
    have hle := h.ordered.start_lt (c := x) (v := v) (by simp)
    by_cases hin : frameOf va = frameOf v.guardstart
    · have := (hpage va).mp hin
      refine ⟨x, v.growsUp next, by simp, ?_, by omega⟩
      rw [growsUp_start]
      omega
    · rw [if_neg hin] at htr
      obtain ⟨d, u, hdu, hs, he⟩ := hcov va h1 h2 htr
      rw [mem_append, mem_cons] at hdu
      rcases hdu with hdu | heq | hdu
      · exact ⟨d, u, by simp [hdu], hs, he⟩
      · cases heq
        refine ⟨x, v.growsUp next, by simp, ?_, by omega⟩
        rw [growsUp_start]
        exact hs
      · exact ⟨d, u, by simp [hdu], hs, he⟩

/-- A page fault keeps the list in order and mapped. -/
theorem trapPgflt_sound (h : Sound own k p l) (halive : (k.proc p).killed = false)
    (hr : trapPgflt L k p va = .ok k') :
    ∃ own' l', Sound own' k' p l' ∧ (Covered k p l → Covered k' p l') := by
  rcases trapPgflt_ok h.free h.tables h.lists h.walk (fun x hx => h.listed_mine hx) hr with
    rfl | ⟨s', hs, rfl⟩ | ⟨x, v, next, f, own', s', hx, hhit, w⟩
  · exact ⟨own, l, h, id⟩
  · exact ⟨own, l, h.kill hs⟩
  · have hmem := h.listed_mem hx w.deref hhit.start
    obtain ⟨l1, l2, rfl⟩ := append_of_mem hmem
    exact ⟨own', _, grow_sound h halive w⟩

end Kernel

end Xv6
