import Xv6.PlaceSpec

namespace Xv6

open BitVec List Outcome Owner VmArea

/-!
# The records of a process

What holds of every area record of a process, on its list or not, whatever calls it makes:

* `VmArea.Ok` — the end of an area is the end of a page below the kernel, and its guard
  page, if any, is the page after it;
* `Lists own k p` — every record of `p` is so, and leads to another record of `p`;
* `mmapPlace_ok` — placing an area keeps this, maps exactly the pages of the area, and
  changes the other records only as `placed` says, guard pages apart.
-/

/-- The fields of an area that was placed by `mmap`, or by `exec`. -/
structure VmArea.Ok (v : VmArea) : Prop where
  start_aligned : v.start.toNat % 4096 = 0
  start_le : v.start.toNat ≤ KERNBASE.toNat
  end_aligned : (v.end_.toNat + 1) % 4096 = 0
  end_lt : v.end_.toNat < KERNBASE.toNat
  guard : v.guardstart = v.end_ + 1 ∨ v.guardstart.toNat + 4095 < MIN_ADDR.toNat
    ∨ MAX_ADDR.toNat ≤ v.guardstart.toNat

variable {v : VmArea} {a : Space} {q : Slot}

theorem VmArea.Ok.toNat_end_add_one (h : v.Ok) : (v.end_ + 1).toNat = v.end_.toNat + 1 := by
  have h1 : (1 : Word).toNat = 1 := rfl
  have := h.end_lt
  rw [toNat_add, h1]
  omega

/-- The first address behind the page after an area. -/
theorem VmArea.Ok.toNat_guard_end (h : v.Ok) :
    (v.end_ + 1 + PGSIZE).toNat = v.end_.toNat + 1 + 4096 := by
  have h1 := h.toNat_end_add_one
  have hlt := h.end_lt
  have hk := toNat_KERNBASE
  have hpg := toNat_PGSIZE
  rw [toNat_add, h1, hpg]
  omega

/-- Its guard too. -/
theorem VmArea.Ok.guardOk (h : v.Ok) : v.guardOk := by
  rcases h.guard with hg | hg
  · left
    rw [hg, h.toNat_end_add_one]
    exact h.end_aligned
  · exact .inr hg

theorem VmArea.growsUp_end (v next : VmArea) : (v.growsUp next).end_ = v.end_ + PGSIZE := rfl

theorem VmArea.growsUp_start (v next : VmArea) : (v.growsUp next).start = v.start := by
  simp only [growsUp]

theorem VmArea.growsUp_next (v next : VmArea) : (v.growsUp next).next = v.next := by
  simp only [growsUp]

theorem VmArea.growsUp_space_after (v next : VmArea) :
    (v.growsUp next).space_after = v.space_after := by
  simp only [growsUp]

theorem VmArea.growsUp_guardstart (v next : VmArea) : (v.growsUp next).guardstart = -1
      ∨ (v.growsUp next).guardstart = (v.growsUp next).end_ + 1 := by
  rw [growsUp]
  split
  · exact .inl rfl
  · exact .inr rfl

/-- An area that grows into the page after it, within the region, stays as it should be. -/
theorem VmArea.Ok.growsUp (hv : v.Ok) (hg : v.guardstart = v.end_ + 1)
    (hlt : v.guardstart.toNat < MAX_ADDR.toNat) (next : VmArea) :
    (v.growsUp next).Ok ∧ (v.growsUp next).end_.toNat = v.end_.toNat + 4096 := by
  have hmax := toNat_MAX_ADDR
  have hk := toNat_KERNBASE
  have hsize := toNat_PGSIZE
  have h1 := hv.toNat_end_add_one
  have hal := hv.end_aligned
  rw [← hg] at h1
  have hend : (v.growsUp next).end_.toNat = v.end_.toNat + 4096 := by
    rw [growsUp_end, toNat_add, hsize]
    omega
  refine ⟨⟨?_, ?_, by omega, by omega, ?_⟩, hend⟩
  · rw [growsUp_start]
    exact hv.start_aligned
  · rw [growsUp_start]
    exact hv.start_le
  rcases v.growsUp_guardstart next with h | h
  · refine .inr (.inr ?_)
    rw [h]
    decide
  · exact .inl h

/-- A page takes no record. -/
theorem NewPage.record_iff {own own' : Frame → Owner} {s s' : Phys} {d f : Frame} {va perm : Word}
    {x : Idx → Word} (w : NewPage own s a d va f x perm own' s') (g : Frame) :
    own' g = .record q ↔ own g = .record q := by grind [w.touch.kept, within, w.keep]

namespace Kernel

variable {L : Link} {own own' : Frame → Owner} {k k' : Kernel} {p : Slot}
variable {x : VmaPtr} {l : List (VmaPtr × VmArea)} {start : Word} {vma : Frame} {N : VmaPtr → Prop}

/-- The pointers to areas of process `p`. -/
def Mine (own : Frame → Owner) (p : Slot) : VmaPtr → Prop
  | .null => False
  | .head q => q = p
  | .tail q => q = p
  | .node f => own f = .record p

theorem Mine.ne_null (hx : Mine own p x) : x ≠ .null := by
  rintro rfl
  exact hx

/-- The records of `p`: an area that is not the last, and leads anywhere, leads to another
    of them. -/
structure Lists (own : Frame → Owner) (k : Kernel) (p : Slot) : Prop where
  guard : ∀ x v, Mine own p x → k.deref x = .ok v → v.guardOk
  area : ∀ x v, Mine own p x → k.deref x = .ok v → v.start ≠ MAX_ADDR → v.next ≠ .null →
    v.Ok ∧ Mine own p v.next

/-- The areas of a process are a walk. -/
theorem Lists.walk (h : Lists own k p) : Walk k p (Mine own p) where
  closed := by
    intro x v hx hd hs
    by_cases hn : v.next = .null
    · exact .inl hn
    · exact .inr (h.area x v hx hd hs hn).2
  head := rfl
  guard := h.guard

/-- A path from a record of the process leads through its records. -/
theorem Lists.path (hl : Lists own k p) {y : VmaPtr} (hp : Areas k x l y) (hx : Mine own p x)
    (hy : y ≠ .null) (hs : ∀ c v, (c, v) ∈ l → v.start ≠ MAX_ADDR) :
    Mine own p y ∧ ∀ c v, (c, v) ∈ l → Mine own p c := by
  induction hp with
  | nil => exact ⟨hx, by simp⟩
  | @cons x y v l hread hrest ih =>
    have hd := read_eq_some.mp hread
    have hnull : v.next ≠ .null := by
      intro hnull
      rw [hnull] at hrest
      cases hrest with
      | nil => exact hy rfl
      | cons hr _ => cases hr
    have hmine := (hl.area x v hx hd (hs x v (mem_cons_self ..)) hnull).2
    obtain ⟨h1, h2⟩ := ih hmine hy (fun c u hc => hs c u (mem_cons_of_mem _ hc))
    refine ⟨h1, fun c u hc => ?_⟩
    rcases mem_cons.mp hc with heq | hc
    · cases heq
      exact hx
    · exact h2 c u hc

/-- So does the pointer before the area where a search from the head stops. -/
theorem Lists.prev (hl : Lists own k p) {y : VmaPtr} (hp : Areas k (.head p) l y)
    (hs : ∀ c v, (c, v) ∈ l → v.start ≠ MAX_ADDR) (hy : Mine own p y) :
    Mine own p (prevOf ([] ++ l) y) := by
  rw [nil_append, prevOf]
  cases hlast : l.getLast? with
  | none => exact hy
  | some d => exact (hl.path hp rfl hy.ne_null hs).2 d.1 d.2 (mem_of_getLast? hlast)

/-- Writing one area. -/
theorem Lists.set (h : Lists own k p) (hg : v.guardOk)
    (hv : v.start ≠ MAX_ADDR → v.next ≠ .null → v.Ok ∧ Mine own p v.next) :
    Lists own (k.setVma x v) p where
  guard := by
    intro y u hy hd
    by_cases hyx : y = x
    · subst hyx
      rw [deref_setVma_self k v hy.ne_null] at hd
      cases hd
      exact hg
    · rw [deref_setVma_ne k v hyx] at hd
      exact h.guard y u hy hd
  area := by
    intro y u hy hd
    by_cases hyx : y = x
    · subst hyx
      rw [deref_setVma_self k v hy.ne_null] at hd
      cases hd
      exact hv
    · rw [deref_setVma_ne k v hyx] at hd
      exact h.area y u hy hd

/-- The records of `p` are the same frames. -/
theorem Lists.reown (h : Lists own k p) (hown : ∀ f, own' f = .record p ↔ own f = .record p) :
    Lists own' k p := by
  have hm : ∀ x, Mine own' p x ↔ Mine own p x := by
    intro x
    cases x <;> simp [Mine, hown]
  refine ⟨fun x v hx hd => h.guard x v ((hm x).mp hx) hd, fun x v hx hd hs hn => ?_⟩
  obtain ⟨h1, h2⟩ := h.area x v ((hm x).mp hx) hd hs hn
  exact ⟨h1, (hm _).mpr h2⟩

/-- Areas that agree but for `pa` and a guard page given up or put right after the end. -/
structure SameArea (v v' : VmArea) : Prop where
  eq : v' = { v with pa := v'.pa, guardstart := v'.guardstart }
  guard : v'.guardstart = v.guardstart ∨ v'.guardstart = -1
    ∨ v'.guardstart = v.end_ + 1 ∧ (v.end_ + 1).toNat % 4096 = 0

theorem SameArea.refl (v : VmArea) : SameArea v v := ⟨rfl, .inl rfl⟩

theorem SameArea.trans {u w : VmArea} (h : SameArea u v) (h' : SameArea v w) : SameArea u w := by
  have hend : v.end_ = u.end_ := by rw [h.eq]
  refine ⟨by rw [h'.eq, h.eq], ?_⟩
  rcases h'.guard with hg | hg | hg
  · rw [hg]
    exact h.guard
  · exact .inr (.inl hg)
  · rw [hend] at hg
    exact .inr (.inr hg)

/-- The guard stays fine. -/
theorem SameArea.guardOk {v' : VmArea} (h : SameArea v v') (hv : v.guardOk) : v'.guardOk := by
  rcases h.guard with hg | hg | ⟨hg, hal⟩
  · unfold VmArea.guardOk
    rw [hg]
    exact hv
  · refine .inr (.inr ?_)
    rw [hg]
    decide
  · left
    rw [hg]
    exact hal

theorem SameArea.ok {v' : VmArea} (h : SameArea v v') (hv : v.Ok) : v'.Ok := by
  have hend : v'.end_ = v.end_ := by rw [h.eq]
  have hstart : v'.start = v.start := by rw [h.eq]
  refine ⟨?_, ?_, ?_, ?_, ?_⟩
  · rw [hstart]; exact hv.start_aligned
  · rw [hstart]; exact hv.start_le
  · rw [hend]; exact hv.end_aligned
  · rw [hend]; exact hv.end_lt
  · rw [hend]
    rcases h.guard with hg | hg | ⟨hg, -⟩
    · rw [hg]; exact hv.guard
    · refine .inr (.inr ?_)
      rw [hg]
      decide
    · exact .inl hg

/-- The areas of `k'` are those of `k`, in the sense of `SameArea`. -/
def SameAreas (k k' : Kernel) : Prop :=
  ∀ x v', k'.deref x = .ok v' → ∃ v, k.deref x = .ok v ∧ SameArea v v'

theorem SameAreas.refl (k : Kernel) : SameAreas k k := fun _ v h => ⟨v, h, .refl v⟩

theorem SameAreas.trans {k k' k'' : Kernel} (h : SameAreas k k') (h' : SameAreas k' k'') :
    SameAreas k k'' := by
  intro x v'' hx
  obtain ⟨v', hv', hs'⟩ := h' x v'' hx
  obtain ⟨v, hv, hs⟩ := h x v' hv'
  exact ⟨v, hv, hs.trans hs'⟩

/-- The same read forwards: every area is still there. -/
theorem SameAreas.forward {k k' : Kernel} (h : SameAreas k k') (hx : k.deref x = .ok v) :
    ∃ v', k'.deref x = .ok v' ∧ SameArea v v' := by
  rcases deref_cases k' x with hw | ⟨v', hv'⟩
  · cases x <;> cases hw
    cases hx
  · obtain ⟨u, hu, hs⟩ := h x v' hv'
    rw [hx] at hu
    cases hu
    exact ⟨v', hv', hs⟩

/-- The list does not depend on guards. -/
theorem Lists.same (h : Lists own k p) (hs : SameAreas k k') : Lists own k' p where
  guard := by
    intro x v' hx hd
    obtain ⟨v, hv, hsame⟩ := hs x v' hd
    exact hsame.guardOk (h.guard x v hx hv)
  area := by
    intro x v' hx hd hstart hnext
    obtain ⟨v, hv, hsame⟩ := hs x v' hd
    have h1 : v'.start = v.start := by rw [hsame.eq]
    have h2 : v'.next = v.next := by rw [hsame.eq]
    rw [h1] at hstart
    rw [h2] at hnext ⊢
    obtain ⟨hok, hmine⟩ := h.area x v hx hv hstart hnext
    exact ⟨hsame.ok hok, hmine⟩

/-- Mapping pages changes one record's `pa`. -/
theorem Paged.sameAreas {perm : Word} {lo hi : Nat}
    (h : Paged own k p vma start lo hi perm own' k') :
    SameAreas k k' := by
  intro x v' hd
  obtain ⟨v, hv, heq⟩ := h.deref hd
  refine ⟨v, hv, ?_, .inl (by rw [heq])⟩
  rw [heq]

/-- Paging takes no record. -/
theorem Paged.record_iff {perm : Word} {lo hi : Nat}
    (h : Paged own k p vma start lo hi perm own' k') (f : Frame) :
    own' f = .record q ↔ own f = .record q := by grind [h.touch.kept, within, h.keep]

/-! ### Guard pages -/

/-- Between the two states only guard pages of areas have changed. -/
structure Reguarded (k k' : Kernel) : Prop where
  areas : SameAreas k k'
  rest : k' = { k with vma := k'.vma, proc := k'.proc }
  proc : ∀ q, k'.proc q = { k.proc q with head := (k'.proc q).head, tail := (k'.proc q).tail }
  pa : ∀ f, (k'.vma f).pa = (k.vma f).pa

theorem Reguarded.refl (k : Kernel) : Reguarded k k := ⟨.refl k, rfl, fun _ => rfl, fun _ => rfl⟩

theorem Reguarded.trans {k k' k'' : Kernel} (h : Reguarded k k') (h' : Reguarded k' k'') :
    Reguarded k k'' := by
  refine ⟨h.areas.trans h'.areas, by rw [h'.rest, h.rest], fun q => ?_,
    fun f => (h'.pa f).trans (h.pa f)⟩
  rw [h'.proc q, h.proc q]

/-- One area gets another guard. -/
theorem Reguarded.setVma {v' : VmArea} (hx : k.deref x = .ok v) (hv : SameArea v v')
    (hpa : v'.pa = v.pa) : Reguarded k (k.setVma x v') := by
  have hne : x ≠ .null := by
    rintro rfl
    cases hx
  refine ⟨fun y u hy => ?_, ?_, fun q => setVma_proc k x v' q, fun f => ?_⟩
  · by_cases hyx : y = x
    · subst hyx
      rw [deref_setVma_self k v' hne] at hy
      cases hy
      exact ⟨v, hx, hv⟩
    · rw [deref_setVma_ne k v' hyx] at hy
      exact ⟨u, hy, .refl u⟩
  · cases x <;> rfl
  · by_cases hfx : .node f = x
    · subst hfx
      cases hx
      have hself := ok.inj (deref_setVma_self k v' hne)
      rw [hself, hpa]
    · rw [ok.inj (deref_setVma_ne k v' hfx)]

section

variable (h : Reguarded k k')
include h

theorem Reguarded.phys : k'.phys = k.phys := by rw [h.rest]
theorem Reguarded.granted : k'.granted = k.granted := by rw [h.rest]
theorem Reguarded.pgdir (q : Slot) : (k'.proc q).pgdir = (k.proc q).pgdir := by rw [h.proc q]
theorem Reguarded.killed (q : Slot) : (k'.proc q).killed = (k.proc q).killed := by rw [h.proc q]

theorem Reguarded.translation (q : Slot) (va : Word) : k'.trans q va = k.trans q va := by
  unfold Kernel.trans
  rw [h.phys, h.pgdir]

end

/-- `mmapUnguard` only moves guards. -/
theorem mmapUnguard_ok {prev curr : VmaPtr} (h : k.mmapUnguard prev curr = .ok k') :
    Reguarded k k' := by
  obtain ⟨pr, hpr, h⟩ := bind_eq_ok.mp h
  obtain ⟨c, -, h⟩ := bind_eq_ok.mp h
  split at h
  · cases h
    exact Reguarded.setVma hpr ⟨rfl, .inr (.inl rfl)⟩ rfl
  · cases h
    exact .refl k

/-- The guard page that is lost is that of the area before. -/
theorem mmapUnguard_only {prev curr : VmaPtr} (h : k.mmapUnguard prev curr = .ok k') (x : VmaPtr) :
    k'.deref x = k.deref x
      ∨ x = prev ∧ ∃ u, k.deref x = .ok u ∧ k'.deref x = .ok { u with guardstart := -1 } := by
  obtain ⟨pr, hpr, h⟩ := bind_eq_ok.mp h
  obtain ⟨c, -, h⟩ := bind_eq_ok.mp h
  split at h
  · cases h
    by_cases hx : x = prev
    · subst hx
      have hne : x ≠ .null := by
        rintro rfl
        cases hpr
      exact .inr ⟨rfl, pr, hpr, deref_setVma_self _ _ hne⟩
    · exact .inl (deref_setVma_ne _ _ hx)
  · cases h
    exact .inl rfl

/-- The guard page that is given is that of the new area. -/
theorem mmapGuard_only {flags r : Word} (h : k.mmapGuard vma start flags = .ok (r, k'))
    (hx : x ≠ .node vma) :
    k'.deref x = k.deref x := by
  unfold mmapGuard at h
  split at h
  · obtain ⟨n, -, h⟩ := bind_eq_ok.mp h
    split at h
    · cases h
      exact deref_setVma_ne _ _ hx
    · cases h
      rfl
  · cases h
    rfl

/-- `sys_mmap` returns the start of the new area, or -1 where it found no room for the guard
    page of an area it has already mapped. -/
theorem mmapGuard_ok {flags r : Word} (hal : ((k.vma vma).end_ + 1).toNat % 4096 = 0)
    (h : k.mmapGuard vma start flags = .ok (r, k')) :
    Reguarded k k' ∧ (r = start ∨ r = -1 ∧ flags &&& MAP_GROWSUP ≠ 0#32) := by
  unfold mmapGuard at h
  split at h
  · rename_i hflags
    obtain ⟨n, -, h⟩ := bind_eq_ok.mp h
    split at h
    · cases h
      exact ⟨Reguarded.setVma (v := k.vma vma) rfl ⟨rfl, .inr (.inr ⟨rfl, hal⟩)⟩ rfl, .inl rfl⟩
    · cases h
      exact ⟨.refl k, .inr ⟨rfl, hflags⟩⟩
  · cases h
    exact ⟨.refl k, .inl rfl⟩

/-! ### Placing an area -/

section

variable {curr prev : VmaPtr} {c nx v : VmArea} {vma : Frame} {s : Phys}
  {start length prot flags fd r : Word} {fixed : Bool}

/-- A frame taken for a record is none of the tables. -/
theorem Tables.toRecord {m : Frame → Idx → Word} {d : Frame} (ht : Tables own m a d)
    (hfree : own vma = .free) : Tables (Function.update own vma (.record p)) m a d := by
  have htouch : Touch (fun o => o = .free ∨ o = .record p) own m
      (Function.update own vma (.record p)) m := Touch.hand (.inl hfree) (.inr rfl)
  exact htouch.tables (by simp) (by simp) ht

/-- With a new record there is one more pointer. -/
theorem mine_toRecord (hfree : own vma = .free) (x : VmaPtr) :
    Mine (Function.update own vma (.record p)) p x ↔ x = .node vma ∨ Mine own p x := by
  cases x with
  | node f =>
    by_cases hf : f = vma
    · subst hf; simp [Mine]
    · simp [Mine, hf]
  | _ => simp [Mine]

theorem Mine.ne_node (hx : Mine own p x) (hfree : own vma = .free) : x ≠ .node vma := by
  rintro rfl
  simp [Mine, hfree] at hx

@[simp] theorem placed_phys : (k.placed p s curr c vma v length fixed).phys = s := by
  unfold placed
  split <;> simp

/-- Placing changes no field of a process but `head` and `tail`. -/
theorem placed_proc (q : Slot) : (k.placed p s curr c vma v length fixed).proc q
    = { k.proc q with head := ((k.placed p s curr c vma v length fixed).proc q).head,
                      tail := ((k.placed p s curr c vma v length fixed).proc q).tail } := by
  unfold placed
  split
  · rw [setVma_proc, setVma_proc, setVma_proc]
  · rw [setVma_proc, setVma_proc]

/-- Placing an area maps nothing. -/
theorem placed_trans (hk : kalloc k.phys = (some vma, s)) (q : Slot) (va : Word) :
    (k.placed p s curr c vma v length fixed).trans q va = k.trans q va := by
  unfold trans
  rw [placed_proc, placed_phys]
  exact translate_mem (kalloc_some hk).2 _ va

/-- The areas while the pages are mapped. -/
theorem placed_deref (hne : curr ≠ .node vma) (hcurr : curr ≠ .null) {u : VmArea}
    (hx : (k.placed p s curr c vma v length fixed).deref x = .ok u) :
    x = .node vma ∧ u = v ∨ x = .head p ∧ (fixed = true ∧ v.start = MIN_ADDR) ∧ u = v
      ∨ x = curr ∧ u = { c with space_after := c.space_after - length, next := .node vma }
      ∨ x ≠ .node vma ∧ k.deref x = .ok u := by
  -- the areas before the head may be overwritten
  have key : ∀ {u : VmArea}, ((({ k with phys := s } : Kernel).setVma (.node vma) v).setVma curr
      { c with space_after := c.space_after - length, next := .node vma }).deref x = .ok u →
      x = .node vma ∧ u = v
        ∨ x = curr ∧ u = { c with space_after := c.space_after - length, next := .node vma }
        ∨ x ≠ .node vma ∧ k.deref x = .ok u := by
    intro u hu
    by_cases hxc : x = curr
    · simp_all [deref_setVma_self]
    · rw [deref_setVma_ne _ _ hxc] at hu
      by_cases hxv : x = .node vma
      · simp_all [deref_setVma_self]
      · rw [deref_setVma_ne _ _ hxv] at hu
        refine .inr (.inr ⟨hxv, ?_⟩)
        cases x <;> exact hu
  unfold placed at hx
  split at hx
  · by_cases hxh : x = .head p
    · simp_all [deref_setVma_self]
    · simp_all [deref_setVma_ne]
  · simp [*]

/-- In the head. -/
theorem placed_head (h : fixed = true ∧ v.start = MIN_ADDR) :
    (k.placed p s curr c vma v length fixed).deref (.head p) = .ok v := by
  unfold placed
  rw [if_pos h]
  exact deref_setVma_self _ _ (by simp)

/-- The area before it. -/
theorem placed_curr (h : ¬ (fixed = true ∧ v.start = MIN_ADDR)) (hcurr : curr ≠ .null) :
    (k.placed p s curr c vma v length fixed).deref curr
      = .ok { c with space_after := c.space_after - length, next := .node vma } := by
  unfold placed
  rw [if_neg h]
  exact deref_setVma_self _ _ hcurr

/-- In its own record. -/
theorem placed_node (hne : curr ≠ .node vma) :
    (k.placed p s curr c vma v length fixed).deref (.node vma) = .ok v := by
  unfold placed
  split
  · rw [deref_setVma_ne _ _ (by simp), deref_setVma_ne _ _ hne.symm]
    exact deref_setVma_self _ _ (by simp)
  · rw [deref_setVma_ne _ _ hne.symm]
    exact deref_setVma_self _ _ (by simp)

/-- The handler can walk the list while the pages are mapped. -/
theorem placed_walk (hN : Walk k p N) (hne : curr ≠ .node vma) (hx : N curr)
    (hd : k.deref curr = .ok c) (hs : c.start ≠ MAX_ADDR) (hn : c.next ≠ .null) (hv : v.guardOk)
    (hvn : v.next = c.next) :
    Walk (k.placed p s curr c vma v length fixed) p (fun x => x = .node vma ∨ N x) := by
  have hcurr : curr ≠ .null := by
    rintro rfl
    cases hd
  have hnext : N c.next := (hN.closed curr c hx hd hs).resolve_left hn
  refine ⟨fun x u hxm hxd hus => ?_, .inr hN.head, fun x u hxm hxd => ?_⟩
  · rcases placed_deref hne hcurr hxd with ⟨-, rfl⟩ | ⟨-, -, rfl⟩ | ⟨-, rfl⟩ | ⟨hxv, hxd⟩
    · rw [hvn]
      exact .inr (.inr hnext)
    · rw [hvn]
      exact .inr (.inr hnext)
    · exact .inr (.inl rfl)
    · rcases hN.closed x u (hxm.resolve_left hxv) hxd hus with h | h
      · exact .inl h
      · exact .inr (.inr h)
  · rcases placed_deref hne hcurr hxd with ⟨-, rfl⟩ | ⟨-, -, rfl⟩ | ⟨-, rfl⟩ | ⟨hxv, hxd⟩
    · exact hv
    · exact hv
    · exact hN.guard curr c hx hd
    · exact hN.guard x u (hxm.resolve_left hxv) hxd

/-- If the new area is as it should be, the records of the process are. -/
theorem placed_lists (hl : Lists own k p) (hfree : own vma = .free) (hx : Mine own p curr)
    (hd : k.deref curr = .ok c) (hs : c.start ≠ MAX_ADDR) (hn : c.next ≠ .null)
    (hv : v.Ok) (hvn : v.next = c.next) :
    Lists (Function.update own vma (.record p)) (k.placed p s curr c vma v length fixed) p := by
  have hne := hx.ne_node hfree
  have hcurr := hx.ne_null
  have hm := mine_toRecord (p := p) hfree
  obtain ⟨hok, hmine⟩ := hl.area curr c hx hd hs hn
  refine ⟨fun x u hxm hxd => ?_, fun x u hxm hxd hus hun => ?_⟩
  · exact (placed_walk hl.walk hne hx hd hs hn hv.guardOk hvn).guard x u ((hm x).mp hxm) hxd
  rcases placed_deref hne hcurr hxd with ⟨-, rfl⟩ | ⟨-, -, rfl⟩ | ⟨-, rfl⟩ | ⟨hxv, hxd⟩
  · rw [hvn]
    exact ⟨hv, (hm _).mpr (.inr hmine)⟩
  · rw [hvn]
    exact ⟨hv, (hm _).mpr (.inr hmine)⟩
  · exact ⟨⟨hok.start_aligned, hok.start_le, hok.end_aligned, hok.end_lt, hok.guard⟩,
      (hm _).mpr (.inl rfl)⟩
  · grind [hl.area]

/-- The new area is as it should be, once the mapping loop has ended. -/
theorem newVma_ok (hjunk : k.phys.mem vma 4 = junk) (hal : start.toNat % 4096 = 0)
    (hle : start.toNat ≤ KERNBASE.toNat) {next : VmaPtr} {nstart : Word}
    (hend : start < (k.newVma p vma next nstart start length prot flags fd).end_ →
      (k.newVma p vma next nstart start length prot flags fd).end_.toNat + 1 ≤ KERNBASE.toNat) :
    (k.newVma p vma next nstart start length prot flags fd).Ok where
  start_aligned := hal
  start_le := hle
  end_aligned := toNat_PGROUNDUP_sub_one _
  end_lt := by
    have hmod :
        ((k.newVma p vma next nstart start length prot flags fd).end_.toNat + 1) % 4096 = 0 :=
      toNat_PGROUNDUP_sub_one _
    by_cases hlt : start < (k.newVma p vma next nstart start length prot flags fd).end_
    · exact hend hlt
    · have hge : (k.newVma p vma next nstart start length prot flags fd).end_.toNat ≤ start.toNat :=
        BitVec.not_lt.mp hlt
      omega
  guard := by
    refine .inr (.inl ?_)
    show (k.phys.mem vma 4).toNat + 4095 < MIN_ADDR.toNat
    rw [hjunk]
    decide

/-- What `mmapPlace` has done when it returns: the area `v` was recorded in the free frame
    `vma` after `curr`, which was `c` (`placed`), its pages were mapped (`Paged`, up to state
    `k5`), and guard pages were adjusted (`Reguarded`). -/
structure Placing (own : Frame → Owner) (k : Kernel) (p : Slot) (curr : VmaPtr) (c : VmArea)
    (start length prot flags fd : Word) (fixed : Bool) (vma : Frame) (s : Phys) (nx v : VmArea)
    (own' : Frame → Owner) (k5 k' : Kernel) : Prop where
  mine : Mine own p curr
  deref : k.deref curr = .ok c
  taken : kalloc k.phys = (some vma, s)
  fresh : own vma = .free
  next : k.deref c.next = .ok nx
  new : v = ({ k with phys := s } : Kernel).newVma p vma c.next nx.start start length prot flags fd
  paged : Paged (Function.update own vma (.record p)) (k.placed p s curr c vma v length fixed) p vma
    start start.toNat (max start.toNat (v.end_.toNat + 1)) (prot ||| PTE_U) own' k5
  below : start < v.end_ → v.end_.toNat + 1 ≤ KERNBASE.toNat
  guards : Reguarded k5 k'
  others : ∀ x, x ≠ .node vma → k'.deref x = k5.deref x
    ∨ Mine own p x ∧ ∃ u, k5.deref x = .ok u ∧ k'.deref x = .ok { u with guardstart := -1 }
  ok : v.Ok
  lists : Lists own' k' p

namespace Placing

variable {nx v : VmArea} {k5 : Kernel}
  (w : Placing own k p curr c start length prot flags fd fixed vma s nx v own' k5 k')
include w

theorem start_eq : v.start = start := by rw [w.new]; rfl

theorem next_eq : v.next = c.next := by rw [w.new]; rfl

theorem prot_eq : v.prot = prot := by rw [w.new]; rfl

/-- Mapping the pages and adjusting guard pages keeps the areas. -/
theorem same : SameAreas (k.placed p s curr c vma v length fixed) k' :=
  w.paged.sameAreas.trans w.guards.areas

/-- The new area is recorded in `vma`. -/
theorem node : (k.placed p s curr c vma v length fixed).deref (.node vma) = .ok v :=
  placed_node (w.mine.ne_node w.fresh)

/-- What was written before the pages were mapped. -/
theorem cases {u : VmArea} (hx : (k.placed p s curr c vma v length fixed).deref x = .ok u) :
    x = .node vma ∧ u = v ∨ x = .head p ∧ (fixed = true ∧ v.start = MIN_ADDR) ∧ u = v
      ∨ x = curr ∧ u = { c with space_after := c.space_after - length, next := .node vma }
      ∨ x ≠ .node vma ∧ k.deref x = .ok u :=
  placed_deref (w.mine.ne_node w.fresh) w.mine.ne_null hx

end Placing

/-- A place is only used if there is a frame for the record and a next area. -/
theorem mmapPlace_taken (hd : k.deref curr = .ok c) {x : Word × Kernel}
    (h : k.mmapPlace L p prev curr start length prot flags fd fixed = .ok x
      ∨ ∃ e, k.mmapPlace L p prev curr start length prot flags fd fixed = .panic e) :
    (∃ vma s, kalloc k.phys = (some vma, s)) ∧ ∃ nx, k.deref c.next = .ok nx := by
  unfold mmapPlace at h
  rw [hd, ok_bind] at h
  simp only [createVma, setVma_phys] at h
  cases hk : kalloc k.phys with
  | mk f s =>
  cases f with
  | none => simp [hk] at h
  | some vma =>
    refine ⟨⟨vma, s, rfl⟩, ?_⟩
    rcases deref_cases k c.next with hn | hn
    · -- a null pointer is null in every state
      have hnull : c.next = .null := by
        cases hc : c.next <;> simp [hc, deref] at hn ⊢
      simp [hk, hnull, deref] at h
    · exact hn

/-- The start of the mapping loop: the area `v` is recorded in `vma` after `curr`. -/
structure Entry (own : Frame → Owner) (N : VmaPtr → Prop) (k : Kernel) (p : Slot) (curr : VmaPtr)
    (c : VmArea) (start length prot flags fd : Word) (fixed : Bool) (vma : Frame) (s : Phys)
    (nx v : VmArea) : Prop where
  taken : kalloc k.phys = (some vma, s)
  next : k.deref c.next = .ok nx
  notNull : c.next ≠ .null
  new : v = ({ k with phys := s } : Kernel).newVma p vma c.next nx.start start length prot flags fd
  fresh : own vma = .free
  junk : v.guardstart = junk
  ready : Ready (Function.update own vma (.record p)) (k.placed p s curr c vma v length fixed) p
    (fun x => x = .node vma ∨ N x)
  kern : (k.placed p s curr c vma v length fixed).trans p KERNBASE ≠ none
  end_aligned : (v.end_.toNat + 1) % 4096 = 0

section

variable (hf : Free own k.phys) (ht : Tables own k.phys.mem (.proc p) (k.proc p).pgdir)
variable (hkern : k.trans p KERNBASE ≠ none)
include hf ht hkern

/-- What `mmapPlace` starts from. -/
theorem mmapPlace_entry (hN : Walk k p N) (hxN : N curr) (hx : Mine own p curr)
    (hd : k.deref curr = .ok c) (hs : c.start ≠ MAX_ADDR) {x : Word × Kernel}
    (h : k.mmapPlace L p prev curr start length prot flags fd fixed = .ok x
      ∨ ∃ e, k.mmapPlace L p prev curr start length prot flags fd fixed = .panic e) :
    ∃ vma s nx v, Entry own N k p curr c start length prot flags fd fixed vma s nx v := by
  obtain ⟨⟨vma, s, hk⟩, nx, hn⟩ := mmapPlace_taken hd h
  have hnull : c.next ≠ .null := by
    intro hnull
    rw [hnull] at hn
    cases hn
  obtain ⟨hfree, hf'⟩ := hf.kalloc hk (.record p)
  have hjunk : s.mem vma 4 = Xv6.junk := hf.kalloc_junk hk (by decide)
  refine ⟨vma, s, nx, _, hk, hn, hnull, rfl, hfree, hjunk, ⟨?_, ?_, ?_⟩, ?_,
    toNat_PGROUNDUP_sub_one _⟩
  · refine placed_walk hN (hx.ne_node hfree) hxN hd hs hnull (.inr (.inl ?_)) rfl
    show (s.mem vma 4).toNat + 4095 < MIN_ADDR.toNat
    rw [hjunk]
    decide
  · rw [placed_phys]
    exact hf'
  · rw [placed_phys, placed_proc, (kalloc_some hk).2]
    exact Tables.toRecord ht hfree
  · rw [placed_trans hk]
    exact hkern

/-- Placing an area that returns, with its last two steps, which deal with guard pages. -/
theorem mmapPlace_ok (hl : Lists own k p) (hx : Mine own p curr) (hprev : Mine own p prev)
    (hd : k.deref curr = .ok c) (hs : c.start ≠ MAX_ADDR) (hal : start.toNat % 4096 = 0)
    (hle : start.toNat ≤ KERNBASE.toNat) (ha : LoadArgs prot flags)
    (h : k.mmapPlace L p prev curr start length prot flags fd fixed = .ok (r, k')) :
    (r = start ∨ r = -1 ∧ flags &&& MAP_GROWSUP ≠ 0#32)
      ∧ ∃ vma s nx v own' k5 k6,
          Placing own k p curr c start length prot flags fd fixed vma s nx v own' k5 k'
          ∧ v.guardstart = Xv6.junk ∧ k5.mmapUnguard prev curr = .ok k6
          ∧ k6.mmapGuard vma start flags = .ok (r, k') := by
  obtain ⟨vma, s, nx, v, e⟩ := mmapPlace_entry hf ht hkern hl.walk hx hx hd hs (.inl h)
  have hne := hx.ne_node e.fresh
  rw [mmapPlace_eq e.taken hne hd e.next, ← e.new] at h
  obtain ⟨k5, hpages, h⟩ := bind_eq_ok.mp h
  obtain ⟨k6, hun, hguard⟩ := bind_eq_ok.mp h
  obtain ⟨⟨own', w⟩, hbelow⟩ := mmapPages_ok e.ready e.kern hal hle hal e.end_aligned ha hpages
  have hok : v.Ok := by
    have hj := e.junk
    have hb := hbelow
    rw [e.new] at hj hb ⊢
    exact newVma_ok hj hal hle hb
  have hu := mmapUnguard_ok hun
  -- the record still has the end it was given
  have hal6 : ((k6.vma vma).end_ + 1).toNat % 4096 = 0 := by
    obtain ⟨u, hu4, hsame⟩ := (w.sameAreas.trans hu.areas) (.node vma) (k6.vma vma) rfl
    have huv : u = v := by
      rw [placed_node hne] at hu4
      cases hu4
      rfl
    have hend : (k6.vma vma).end_ = v.end_ := by rw [hsame.eq, huv]
    rw [hend, hok.toNat_end_add_one]
    exact hok.end_aligned
  obtain ⟨hg, hr⟩ := mmapGuard_ok hal6 hguard
  have hothers : ∀ x, x ≠ .node vma → k'.deref x = k5.deref x
      ∨ Mine own p x ∧ ∃ u, k5.deref x = .ok u ∧ k'.deref x = .ok { u with guardstart := -1 } := by
    intro x hxv
    rw [mmapGuard_only hguard hxv]
    rcases mmapUnguard_only hun x with hsame | ⟨heq, hlost⟩
    · exact .inl hsame
    · exact .inr ⟨heq ▸ hprev, hlost⟩
  have hvnext : v.next = c.next := by rw [e.new]; rfl
  have hlists : Lists own' k' p :=
    ((placed_lists hl e.fresh hx hd hs e.notNull hok hvnext).reown w.record_iff).same
      (w.sameAreas.trans (hu.trans hg).areas)
  exact ⟨hr, vma, s, nx, v, own', k5, k6,
    ⟨hx, hd, e.taken, e.fresh, e.next, e.new, w, hbelow, hu.trans hg, hothers, hok, hlists⟩,
    e.junk, hun, hguard⟩

/-- Placing an area panics with "remap" only in the mapping loop. -/
theorem mmapPlace_remap (hN : Walk k p N) (hxN : N curr) (hx : Mine own p curr)
    (hd : k.deref curr = .ok c) (hs : c.start ≠ MAX_ADDR) (hal : start.toNat % 4096 = 0)
    (hle : start.toNat ≤ KERNBASE.toNat) (hmin : MIN_ADDR.toNat ≤ start.toNat)
    (ha : LoadArgs prot flags)
    (h : k.mmapPlace L p prev curr start length prot flags fd fixed = .panic .remap) :
    ∃ j : Word, start.toNat ≤ j.toNat ∧ j.toNat < (PGROUNDUP (start + length) - 1).toNat
      ∧ j.toNat % 4096 = 0
      ∧ (k.trans p j ≠ none
        ∨ flags &&& MAP_ANON = 0#32 ∧ prot &&& PROT_WRITE = 0#32
          ∧ ∃ x v, N x ∧ k.deref x = .ok v ∧ Hits v j) := by
  obtain ⟨vma, s, nx, v, e⟩ :=
    mmapPlace_entry (x := (0, k)) hf ht hkern hN hxN hx hd hs (.inr ⟨_, h⟩)
  have hne := hx.ne_node e.fresh
  rw [mmapPlace_eq e.taken hne hd e.next, ← e.new] at h
  have hpages : mmapPages L p vma start v.end_ prot flags fd loopBound
      (k.placed p s curr c vma v length fixed) start = .panic .remap := by
    rcases bind_eq_panic.mp h with h | ⟨k5, -, h⟩
    · exact h
    · exfalso
      rcases bind_eq_panic.mp h with h | ⟨k6, -, h⟩
      · unfold mmapUnguard at h
        rcases deref_cases k5 prev with h1 | ⟨pr, h1⟩
        · rw [h1] at h
          cases h
        · rcases deref_cases k5 curr with h2 | ⟨cr, h2⟩
          · rw [h1, ok_bind, h2] at h
            cases h
          · rw [h1, ok_bind, h2, ok_bind] at h
            split at h <;> cases h
      · unfold mmapGuard at h
        simp only at h
        split at h
        · rcases deref_cases k6 (k6.vma vma).next with h1 | ⟨n, h1⟩
          · rw [h1] at h
            cases h
          · rw [h1, ok_bind] at h
            split at h <;> cases h
        · cases h
  obtain ⟨j, hj1, hj2, hj3, hcase⟩ := mmapPages_remap e.ready e.kern hal hle hal ha hpages
  have hend : v.end_ = PGROUNDUP (start + length) - 1 := by rw [e.new]; rfl
  rw [hend] at hj2
  refine ⟨j, hj1, hj2, hj3, ?_⟩
  rcases hcase with htr | ⟨hanon, hw, x, u, hxm, hxd, hhit⟩
  · rw [placed_trans e.taken] at htr
    exact .inl htr
  · refine .inr ⟨hanon, hw, ?_⟩
    -- the new record's guard page is not yet set
    have hnew : ¬ Hits v j := by
      intro hh
      have h1 : j.toNat ≤ (v.guardstart + PGSIZE - 1).toNat := hh.ge
      rw [e.junk] at h1
      have h2 : (Xv6.junk + PGSIZE - 1).toNat < MIN_ADDR.toNat := by decide
      omega
    rcases placed_deref hne hx.ne_null hxd with
      ⟨-, rfl⟩ | ⟨-, -, rfl⟩ | ⟨rfl, rfl⟩ | ⟨hxv, hxd⟩
    · exact absurd hhit hnew
    · exact absurd hhit hnew
    · exact ⟨x, c, hxN, hd, hhit.start, hhit.flags, hhit.le, hhit.ge⟩
    · exact ⟨x, u, hxm.resolve_left hxv, hxd, hhit⟩

end

end

/-! ### Growing an area -/

/-- What a page fault that grew the area `v` at `x` has done: the guard page, which was the
    page after the area, is mapped to the free frame `f` and belongs to the area. -/
structure Grown (own : Frame → Owner) (k : Kernel) (p : Slot) (x : VmaPtr) (v next : VmArea)
    (f : Frame) (own' : Frame → Owner) (s' : Phys) (k' : Kernel) : Prop where
  mine : Mine own p x
  deref : k.deref x = .ok v
  nextEq : k.deref v.next = .ok next
  start : v.start ≠ MAX_ADDR
  ok : v.Ok
  guard : v.guardstart = v.end_ + 1
  ge : MIN_ADDR.toNat ≤ v.guardstart.toNat
  lt : v.guardstart.toNat < MAX_ADDR.toNat
  page : NewPage own k.phys (.proc p) (k.proc p).pgdir v.guardstart f (fun _ => 0)
    (v.prot ||| PTE_U) own' s'
  eq : k' = (({ k with phys := s' } : Kernel).grant p v.guardstart (some f)).setVma x
    (v.growsUp next)
  ok' : (v.growsUp next).Ok
  lists : Lists own' k' p

namespace Grown

variable {v next : VmArea} {f : Frame} {s' : Phys} (w : Grown own k p x v next f own' s' k')
include w

theorem aligned : v.guardstart.toNat % 4096 = 0 := by
  rw [w.guard, w.ok.toNat_end_add_one]
  exact w.ok.end_aligned

theorem deref_self : k'.deref x = .ok (v.growsUp next) := by
  rw [w.eq, deref_setVma_self _ _ w.mine.ne_null]

theorem deref_ne {y : VmaPtr} (hy : y ≠ x) : k'.deref y = k.deref y := by
  rw [w.eq, deref_setVma_ne _ _ hy]
  cases y <;> rfl

/-- No record is taken or given back. -/
theorem mine_iff (y : VmaPtr) : Mine own' p y ↔ Mine own p y := by
  cases y <;> simp [Mine, w.page.record_iff]

/-- The guard page is mapped, and no other. -/
theorem translation (va : Word) : k'.trans p va = if frameOf va = frameOf v.guardstart
      then some (base f ||| (v.prot ||| PTE_U) ||| PTE_P) else k.trans p va := by
  rw [w.eq, trans_setVma]
  exact w.page.after va

end Grown

/-- Physical memory `s'` is as in `k` for process `p`: free frames may have other contents. -/
structure Still (own : Frame → Owner) (k : Kernel) (p : Slot) (s' : Phys) : Prop where
  free : Free own s'
  tables : Tables own s'.mem (.proc p) (k.proc p).pgdir
  touch : Touch (Owner.within (.proc p)) own k.phys.mem own s'.mem
  trans : ∀ va, ({ k with phys := s' } : Kernel).trans p va = k.trans p va

theorem deref_kill_phys (s' : Phys) (x : VmaPtr) :
    (({ k with phys := s' } : Kernel).kill p).deref x = k.deref x := by
  rw [deref_kill]
  cases x <;> rfl

/-- What a page fault does, if the handler returns. -/
theorem trapPgflt_ok {va : Word} (hf : Free own k.phys)
    (ht : Tables own k.phys.mem (.proc p) (k.proc p).pgdir) (hl : Lists own k p) (hN : Walk k p N)
    (hsub : ∀ x, N x → Mine own p x) (h : trapPgflt L k p va = .ok k') :
    k' = k ∨ (∃ s', Still own k p s' ∧ k' = ({ k with phys := s' } : Kernel).kill p)
      ∨ ∃ x v next f own' s', N x ∧ Hits v va ∧ Grown own k p x v next f own' s' k' := by
  rcases trapPgflt_cases hN.closed hN.head h with hr | hr | hr | hr |
    ⟨x, v, hx, hd, hhit, hlo, hhi, hr⟩
  · cases hr
    exact .inl rfl
  · cases hr
    exact .inr (.inl ⟨k.phys, ⟨hf, ht, .refl, fun _ => rfl⟩, rfl⟩)
  · cases hr
  · cases hr
  obtain ⟨hal, hpage, hge, hlt⟩ := hhit.page (hN.guard x v hx hd) hlo hhi
  rcases grow_ok hf ht hd hal hr.symm with ⟨f, own', s', next, w, hn, heq⟩ | ⟨f, s', w, heq⟩
  · have hnull : v.next ≠ .null := by
      intro hnull
      rw [hnull] at hn
      cases hn
    obtain ⟨hok, hmine⟩ := hl.area x v (hsub x hx) hd hhit.start hnull
    -- the only guard pages in the region are those right after an area
    have hg : v.guardstart = v.end_ + 1 := by
      rcases hok.guard with hg | hg | hg
      · exact hg
      · omega
      · omega
    obtain ⟨hok', -⟩ := hok.growsUp hg hlt next
    refine .inr (.inr ⟨x, v, next, f, own', s', hx, hhit, hsub x hx, hd, hn, hhit.start, hok, hg,
      hge, hlt, w, heq, hok', ?_⟩)
    rw [heq]
    have hl' : Lists own' ((({ k with phys := s' } : Kernel).grant p v.guardstart (some f))) p := by
      refine Lists.reown ⟨fun y u hy hyd => hl.guard y u hy ?_, fun y u hy hyd => hl.area y u hy ?_⟩
        w.record_iff
      · cases y <;> exact hyd
      · cases y <;> exact hyd
    refine hl'.set hok'.guardOk (fun _ _ => ⟨hok', ?_⟩)
    rw [growsUp_next]
    have hmine' : Mine own' p v.next := by
      have := hmine
      revert this
      cases v.next <;> simp [Mine, w.record_iff]
    exact hmine'
  · exact .inr (.inl ⟨s', ⟨w.free, w.tables, w.touch, fun va => trans_phys_eq w.after va⟩, heq⟩)

end Kernel

end Xv6
