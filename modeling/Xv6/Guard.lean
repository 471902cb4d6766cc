import Xv6.Fault

namespace Xv6.Kernel

open Intervals List Outcome Run VmArea

/-!
# Areas that grow

An area with `MAP_GROWSUP` has a guard page, which is mapped when it is touched.

* `growth_gap_iff` — after an area has grown there is a gap before the next one iff there was
  one after its guard page;
* `Guarded` — areas with two free pages after them have their guard page right there;
* `growth_served` — a fault on it is served, along runs that keep this.
-/

variable {L : Link} {own own' : Frame → Owner} {k k' k0 : Kernel} {p : Slot} {va : Word}
  {x : VmaPtr} {v v' next : VmArea} {l l1 l2 : List (VmaPtr × VmArea)}
variable {u : VmArea} {f : Frame} {s' : Phys}

/-- No area is followed by the head, and an area that may grow has a guard page, right after
    it unless fewer than two pages are left before the next area. -/
structure Guarded (own : Frame → Owner) (k : Kernel) (p : Slot) : Prop where
  noHead : ∀ x v, Mine own p x → k.deref x = .ok v → v.next ≠ .head p
  set : ∀ x v n, Mine own p x → k.deref x = .ok v → v.start ≠ MAX_ADDR → k.deref v.next = .ok n →
    v.flags &&& MAP_GROWSUP ≠ 0#32 →
    v.guardstart ≠ 0#32
      ∧ (v.guardstart = v.end_ + 1 ∨ n.start.toNat < v.end_.toNat + 1 + 8192)

/-- The guard before is given up, or not. -/
theorem mmapUnguard_cases {prev curr : VmaPtr} (h : k.mmapUnguard prev curr = .ok k') :
    k' = k ∨ ∃ pr c, k.deref prev = .ok pr ∧ k.deref curr = .ok c
      ∧ pr.guardstart + PGSIZE = c.start ∧ k' = k.setVma prev { pr with guardstart := -1 } := by
  obtain ⟨pr, hpr, h⟩ := bind_eq_ok.mp h
  obtain ⟨c, hc, h⟩ := bind_eq_ok.mp h
  split at h
  · rename_i hfire
    cases h
    exact .inr ⟨pr, c, hpr, hc, hfire.2, rfl⟩
  · cases h
    exact .inl rfl

/-- The new area's guard. -/
theorem mmapGuard_cases {vma : Frame} {start flags r : Word}
    (h : k.mmapGuard vma start flags = .ok (r, k')) (hflags : flags &&& MAP_GROWSUP ≠ 0#32) :
    ∃ n, k.deref (k.vma vma).next = .ok n
      ∧ (k' = k.setVma (.node vma) { k.vma vma with guardstart := (k.vma vma).end_ + 1 }
        ∨ n.start - ((k.vma vma).end_ + 1) < PGSIZE ∧ k' = k) := by
  unfold mmapGuard at h
  rw [if_pos hflags] at h
  obtain ⟨n, hn, h⟩ := bind_eq_ok.mp h
  refine ⟨n, hn, ?_⟩
  split at h
  · cases h
    exact .inl rfl
  · rename_i hno
    cases h
    exact .inr ⟨BitVec.not_le.mp hno, rfl⟩

section

variable {c nx : VmArea} {vma : Frame} {s : Phys} {k5 k6 : Kernel}
  {addr start length prot flags fd r : Word} {fixed : Bool}
variable {y : VmaPtr}

/-- Word subtraction below a page. -/
theorem lt_of_sub_lt {a b : Word} (hle : b.toNat ≤ a.toNat) (h : a - b < PGSIZE) :
    a.toNat < b.toNat + 4096 := by
  have hpg := toNat_PGSIZE
  have h' : (a - b).toNat < PGSIZE.toNat := h
  rw [BitVec.toNat_sub_of_le hle] at h'
  omega

variable (h : Sound own k p (l1 ++ (x, c) :: l2))
  (w : Put own k p l1 x c l2 addr length prot flags fd start fixed vma s nx v own' k5 k6 k' r)
include h w

/-- The pointers of an area that has one after it. -/
theorem Put.next_mine : Mine own p c.next := by
  have hmem : (x, c) ∈ l1 ++ (x, c) :: l2 := by simp
  have hnull : c.next ≠ .null := by
    intro heq
    have hn := w.placing.next
    rw [heq] at hn
    cases hn
  exact (h.lists.area x c (h.mine hmem) (h.deref hmem) (h.ordered.start_ne hmem) hnull).2

/-- No old area but the head moves its start. -/
theorem Put.start_eq {k1 : Kernel} (hs : SameAreas (k.placed p s x c vma v length fixed) k1)
    {u' : VmArea} (hy : Mine own p y) (hhead : y ≠ .head p) (hu : k.deref y = .ok u)
    (hu' : k1.deref y = .ok u') : u'.start = u.start := by
  obtain ⟨u4, hu4, hsame⟩ := hs y u' hu'
  rw [show u'.start = u4.start by rw [hsame.eq]]
  rcases w.placing.cases hu4 with ⟨rfl, -⟩ | ⟨rfl, -⟩ | ⟨rfl, rfl⟩ | ⟨-, hk⟩
  · exact absurd rfl (hy.ne_node w.placing.fresh)
  · exact absurd rfl hhead
  · cases hu.symm.trans w.placing.deref
    rfl
  · cases hu.symm.trans hk
    rfl

/-- The new area has its guard page, unless there is less than a page before the next. -/
theorem Put.new_guard (halive : (k.proc p).killed = false) (hlen : 0 < length.toInt)
    (hg : Guarded own k p) (hflags : flags &&& MAP_GROWSUP ≠ 0#32) :
    (k'.vma vma).guardstart ≠ 0#32
      ∧ ((k'.vma vma).guardstart = v.end_ + 1 ∨ nx.start.toNat < v.end_.toNat + 1 + 8192) := by
  have hend := w.placing.ok.toNat_end_add_one
  have hnz : v.end_ + 1 ≠ 0#32 := by
    intro h0
    rw [h0] at hend
    cases hend
  -- the record as it is before the last step
  have hsame6 : SameAreas (k.placed p s x c vma v length fixed) k6 :=
    w.placing.paged.sameAreas.trans (mmapUnguard_ok w.unguard).areas
  obtain ⟨u4, hu4, hsame⟩ := hsame6 (.node vma) (k6.vma vma) rfl
  obtain rfl : v = u4 := ok.inj (w.placing.node.symm.trans hu4)
  have hend6 : (k6.vma vma).end_ = v.end_ := by rw [hsame.eq]
  have hnext6 : (k6.vma vma).next = c.next := by
    rw [hsame.eq]
    exact w.placing.next_eq
  obtain ⟨n, hn, hcase⟩ := mmapGuard_cases w.guard hflags
  rw [hnext6] at hn
  have hnstart : n.start = nx.start := w.start_eq h hsame6 (w.next_mine h)
    (hg.noHead x c w.placing.mine w.placing.deref) w.placing.next hn
  rw [hend6] at hcase
  rcases hcase with rfl | ⟨hno, rfl⟩
  · have hset : ((k6.setVma (.node vma)
        { k6.vma vma with guardstart := v.end_ + 1 }).vma vma).guardstart = v.end_ + 1 := by
      simp [setVma]
    rw [hset]
    exact ⟨hnz, .inl rfl⟩
  · refine ⟨?_, .inr ?_⟩
    · rcases hsame.guard with hguard | hguard | ⟨hguard, -⟩
      · rw [hguard, w.junk]
        decide
      · rw [hguard]
        decide
      · rw [hguard]
        exact hnz
    · -- the new area ends before the next one
      have hbelow := w.placing.below
      rw [w.placing.end_eq] at hbelow
      have hend' := (newEnd w.aligned w.le hlen hbelow).2.1
      rw [← w.placing.end_eq] at hend'
      have hbefore := h.before_next halive hend' w.before w.placing
      rw [← (h.ordered.next_start rfl w.placing.next).1] at hbefore
      rw [hnstart] at hno
      have := lt_of_sub_lt (by omega) hno
      omega

/-- The area the new one is put after keeps its start, also where it is replaced. -/
theorem Put.curr_start {c5 : VmArea}
    (hc5 : (k.placed p s x c vma v length fixed).deref x = .ok c5) :
    c5.start = c.start := by
  rcases w.placing.cases hc5 with ⟨rfl, -⟩ | ⟨-, hfix, rfl⟩ | ⟨-, rfl⟩ | ⟨-, hk⟩
  · exact absurd rfl (w.placing.mine.ne_node w.placing.fresh)
  · -- the head: both start at the beginning of the region
    have hvs := w.placing.start_eq
    have hafter := w.after
    rw [← hvs, hfix.2] at hafter
    obtain ⟨-, rfl⟩ := h.ordered.replaces_head hafter
    have hfirst : c.start.toNat = MIN_ADDR.toNat := h.ordered.first
    rw [hfix.2]
    exact (BitVec.eq_of_toNat_eq hfirst).symm
  · rfl
  · cases hk.symm.trans w.placing.deref
    rfl

/-- An old area keeps its guard page, unless it is the one visited before `x` and its guard
    page fills the gap up to `x`. -/
theorem Put.old_guard {u' : VmArea} (hy : y ≠ .node vma)
    (hu : (k.placed p s x c vma v length fixed).deref y = .ok u)
    (hu' : k'.deref y = .ok u') :
    u'.guardstart = u.guardstart
      ∨ y = prevOf l1 x ∧ u'.guardstart = -1 ∧ u.guardstart + PGSIZE = c.start := by
  have hxv := w.placing.mine.ne_node w.placing.fresh
  rw [mmapGuard_only w.guard hy] at hu'
  rw [← w.placing.paged.deref_ne hy] at hu
  rcases mmapUnguard_cases w.unguard with rfl | ⟨pr, c5, hpr, hc5, hfire, rfl⟩
  · cases hu.symm.trans hu'
    exact .inl rfl
  · by_cases hyp : y = prevOf l1 x
    · rw [← hyp] at hpr hu'
      cases hu.symm.trans hpr
      have hnull : y ≠ .null := by
        rintro rfl
        cases hpr
      rw [deref_setVma_self _ _ hnull] at hu'
      cases hu'
      rw [w.placing.paged.deref_ne hxv] at hc5
      rw [w.curr_start h hc5] at hfire
      exact .inr ⟨hyp, rfl, hfire⟩
    · rw [deref_setVma_ne _ _ hyp] at hu'
      cases hu.symm.trans hu'
      exact .inl rfl

omit w in
/-- The area visited before `x` is followed by `x`, if it is not `x` itself. -/
theorem prevOf_next (hu : k.deref (prevOf l1 x) = .ok u) :
    prevOf l1 x = x ∨ u.next = x := by
  rcases eq_nil_or_concat l1 with rfl | ⟨l0, ⟨d, u0⟩, heq⟩
  · exact .inl rfl
  · rw [concat_eq_append] at heq
    subst heq
    have hprev : prevOf (l0 ++ [(d, u0)]) x = d := by simp [prevOf]
    rw [hprev] at hu
    have hpath := h.ordered.path
    rw [append_assoc] at hpath
    obtain ⟨-, hread, hrest⟩ := hpath.split_cons
    cases hu.symm.trans (read_eq_some.mp hread)
    generalize hn : u.next = n at hrest
    cases hrest with
    | cons => exact .inr rfl

/-- Putting an area into the list keeps the guard pages, unless it is one with `MAP_GROWSUP`
    that replaces the head: the copy in the head has no guard page. -/
theorem Put.guarded (halive : (k.proc p).killed = false) (hlen : 0 < length.toInt)
    (hg : Guarded own k p)
    (hcond : ¬ (fixed = true ∧ v.start = MIN_ADDR ∧ flags &&& MAP_GROWSUP ≠ 0#32)) :
    Guarded own' k' p := by
  have hmem : (x, c) ∈ l1 ++ (x, c) :: l2 := by simp
  have hx := w.placing.mine
  have hd := w.placing.deref
  have hcs := h.ordered.start_ne hmem
  have hvn := w.placing.next_eq
  have hvf : v.flags = flags := by
    rw [w.placing.new]
    rfl
  have hcn := hg.noHead x c hx hd
  have hsame := w.placing.same
  constructor
  · intro y u' hy hu'
    obtain ⟨u, hu, hsu⟩ := hsame y u' hu'
    rw [show u'.next = u.next by rw [hsu.eq]]
    rcases w.placing.cases hu with ⟨-, rfl⟩ | ⟨-, -, rfl⟩ | ⟨-, rfl⟩ | ⟨hyv, hk⟩
    · rwa [hvn]
    · rwa [hvn]
    · simp
    · exact hg.noHead y u (((w.placing.mine_iff y).mp hy).resolve_left hyv) hk
  · intro y u' n' hy hu' hus hn' hflags
    obtain ⟨u, hu, hsu⟩ := hsame y u' hu'
    have hend : u'.end_ = u.end_ := by rw [hsu.eq]
    rw [show u'.flags = u.flags by rw [hsu.eq]] at hflags
    rw [show u'.next = u.next by rw [hsu.eq]] at hn'
    rw [show u'.start = u.start by rw [hsu.eq]] at hus
    rw [hend]
    -- an area that is as it was: what was said of it still holds
    have hold : ∀ {n : VmArea}, y ≠ .node vma → n'.start = n.start → (u.guardstart ≠ 0#32
          ∧ (u.guardstart = u.end_ + 1 ∨ n.start.toNat < u.end_.toNat + 1 + 8192)) →
        (y = prevOf l1 x → u.guardstart + PGSIZE = c.start →
          n.start.toNat < u.end_.toNat + 1 + 8192) →
        u'.guardstart ≠ 0#32
          ∧ (u'.guardstart = u.end_ + 1 ∨ n'.start.toNat < u.end_.toNat + 1 + 8192) := by
      intro n hyv hnn hset hfire
      rw [hnn]
      rcases w.old_guard h hyv hu hu' with hguard | ⟨hprev, hguard, hfired⟩
      · rwa [hguard]
      · rw [hguard]
        exact ⟨by decide, .inr (hfire hprev hfired)⟩
    have hbefore := w.before
    rw [← (h.ordered.next_start rfl w.placing.next).1] at hbefore
    have hset := hg.set x c nx hx hd hcs w.placing.next
    -- the area `x` itself does not start behind its own guard page
    have hself : c.guardstart + PGSIZE = c.start → c.guardstart ≠ c.end_ + 1 := by
      intro hfire hguard
      rw [hguard] at hfire
      have h1 := (h.ok hmem).toNat_guard_end
      rw [hfire] at h1
      have h2 := (h.ordered.start_lt hmem).2.2
      omega
    rcases w.placing.cases hu with ⟨rfl, rfl⟩ | ⟨-, hfix, rfl⟩ | ⟨rfl, rfl⟩ | ⟨hyv, hk⟩
    · rw [hvf] at hflags
      have hnew := w.new_guard h halive hlen hg hflags
      obtain rfl : k'.vma vma = u' := ok.inj hu'
      rw [hvn] at hn'
      rwa [← w.start_eq h hsame (w.next_mine h) hcn w.placing.next hn'] at hnew
    · rw [hvf] at hflags
      exact absurd ⟨hfix.1, hfix.2, hflags⟩ hcond
    · -- the new area comes next
      obtain ⟨v4, hv4, hsv⟩ := hsame (.node vma) n' hn'
      cases w.placing.node.symm.trans hv4
      have hvs := w.placing.start_eq
      refine hold (n := v) (hx.ne_node w.placing.fresh) (by rw [hsv.eq]) ?_ ?_
      · obtain ⟨hnz, hguard⟩ := hset hflags
        refine ⟨hnz, hguard.imp id (fun hlt => ?_)⟩
        rw [hvs]
        show start.toNat < c.end_.toNat + 1 + 8192
        omega
      · intro _ hfire
        rw [hvs]
        show start.toNat < c.end_.toNat + 1 + 8192
        rcases (hset hflags).2 with hguard | hlt
        · exact absurd hguard (hself hfire)
        · omega
    · have hy' : Mine own p y := ((w.placing.mine_iff y).mp hy).resolve_left hyv
      have hun : u.next ≠ .null := by
        intro heq
        rw [heq] at hn'
        cases hn'
      obtain ⟨hok, hnm⟩ := h.lists.area y u hy' hk hus hun
      obtain ⟨n, hn⟩ : ∃ n, k.deref u.next = .ok n := by
        rcases deref_cases k u.next with hw | hn
        · generalize u.next = z at hw hun
          cases z <;> cases hw
          exact absurd rfl hun
        · exact hn
      have hstart := w.start_eq h hsame hnm (hg.noHead y u hy' hk) hn hn'
      have hsetu := hg.set y u n hy' hk hus hn hflags
      refine hold hyv hstart hsetu (fun hprev hfire => ?_)
      rcases hsetu.2 with hguard | hlt
      · rw [hprev] at hk
        rcases prevOf_next h hk with hpx | hpx
        · rw [hpx] at hk
          cases hk.symm.trans hd
          exact absurd hguard (hself hfire)
        · rw [hpx] at hn
          cases hn.symm.trans hd
          rw [← hfire, hguard, hok.toNat_guard_end]
          omega
      · exact hlt

end

/-! ### Growing -/

/-- What is said of guard pages does not depend on the rest of the state. -/
theorem Guarded.congr (h : Guarded own k p) (hd : ∀ x, k'.deref x = k.deref x) :
    Guarded own k' p where
  noHead := fun x v hx hv => h.noHead x v hx (by rwa [hd] at hv)
  set := fun x v n hx hv hs hn => h.set x v n hx (by rwa [hd] at hv) hs (by rwa [hd] at hn)

section

variable (h : Sound own k p (l1 ++ (x, v) :: l2)) (halive : (k.proc p).killed = false)
include h halive

/-- An area that has grown has a guard page again, unless there is only one page left. -/
theorem Grown.new_guard (w : Grown own k p x v next f own' s' k') :
    (v.growsUp next).guardstart ≠ 0#32
      ∧ ((v.growsUp next).guardstart = (v.growsUp next).end_ + 1
        ∨ next.start.toNat < (v.growsUp next).end_.toNat + 1 + 8192) := by
  have hend := (w.ok.growsUp w.guard w.lt next).2
  have hend1 := w.ok'.toNat_end_add_one
  have hroom := h.grow_room halive w.guard w.lt w.page.before
  rw [← (h.ordered.next_start rfl w.nextEq).1] at hroom
  by_cases hfew : next.start - ((v.growsUp next).end_ + 1) < 2 * PGSIZE
  · refine ⟨?_, .inr ?_⟩
    · have hguard : (v.growsUp next).guardstart = -1 := if_pos hfew
      rw [hguard]
      decide
    · have hle : (v.growsUp next).end_ + 1 ≤ next.start := by
        show ((v.growsUp next).end_ + 1).toNat ≤ next.start.toNat
        omega
      have h2 : (2 * PGSIZE : Word).toNat = 8192 := rfl
      have hlt : (next.start - ((v.growsUp next).end_ + 1)).toNat
        < (2 * PGSIZE : Word).toNat := hfew
      rw [BitVec.toNat_sub_of_le hle] at hlt
      omega
  · have hguard : (v.growsUp next).guardstart = (v.growsUp next).end_ + 1 := if_neg hfew
    refine ⟨?_, .inl hguard⟩
    rw [hguard]
    intro h0
    rw [h0] at hend1
    cases hend1

/-- Every guard, after growth. -/
theorem Grown.guarded (hg : Guarded own k p) (w : Grown own k p x v next f own' s' k') :
    Guarded own' k' p := by
  -- no start moves
  have hstart : ∀ {y n n'}, k.deref y = .ok n → k'.deref y = .ok n' → n'.start = n.start := by
    intro y n n' hn hn'
    by_cases hy : y = x
    · subst hy
      cases w.deref_self.symm.trans hn'
      cases hn.symm.trans w.deref
      exact growsUp_start v next
    · rw [w.deref_ne hy, hn] at hn'
      cases hn'
      rfl
  constructor
  · intro y u hy hu
    by_cases hyx : y = x
    · subst hyx
      cases w.deref_self.symm.trans hu
      rw [growsUp_next]
      exact hg.noHead y v w.mine w.deref
    · rw [w.deref_ne hyx] at hu
      exact hg.noHead y u ((w.mine_iff y).mp hy) hu
  · intro y u n' hy hu hus hn' hflags
    by_cases hyx : y = x
    · subst hyx
      cases w.deref_self.symm.trans hu
      rw [growsUp_next] at hn'
      rw [hstart w.nextEq hn']
      exact w.new_guard h halive
    · rw [w.deref_ne hyx] at hu
      obtain ⟨n, hn⟩ : ∃ n, k.deref u.next = .ok n := by
        by_cases hux : u.next = x
        · exact ⟨v, by rw [hux]; exact w.deref⟩
        · exact ⟨n', by rw [← w.deref_ne hux]; exact hn'⟩
      rw [hstart hn hn']
      exact hg.set y u n ((w.mine_iff y).mp hy) hu hus hn hflags

end

/-! ### Runs -/

/-- The list is in order, mapped and guarded. -/
structure Growable (own : Frame → Owner) (k : Kernel) (p : Slot) (l : List (VmaPtr × VmArea)) :
    Prop where
  sound : Sound own k p l
  covered : Covered k p l
  low : Low own k p
  guarded : Guarded own k p

/-- An `mmap` of positive length, with flags only in `prot`, that does not put an area with
    `MAP_GROWSUP` at the beginning of the region by `MAP_FIXED`; or a fault. -/
def GuardCall (_ : Kernel) : Call → Prop
  | .mmap addr length prot flags _ => 0 < length.toInt ∧ prot.toNat < 4096
      ∧ ¬ (flags &&& MAP_FIXED ≠ 0#32 ∧ flags &&& MAP_GROWSUP ≠ 0#32 ∧ addr = MIN_ADDR)
  | .munmap .. => False
  | .fault _ => True
  | .sbrk _ => False

/-- `mmap` keeps it. -/
theorem Growable.mmap {addr length prot flags fd r : Word} (h : Growable own k p l)
    (halive : (k.proc p).killed = false) (hc : GuardCall k (.mmap addr length prot flags fd))
    (hr : sysMmap L k p addr length prot flags fd = .ok (r, k')) :
    ∃ own' l', Growable own' k' p l' := by
  obtain ⟨hlen, hprot, hcond⟩ := hc
  rcases sysMmap_put h.sound halive hlen (.inr hprot) hr with
    ⟨-, rfl⟩ | ⟨l1, x, c, l2, start, fixed, vma, s, nx, v, own', k5, k6, rfl, w⟩
  · exact ⟨own, l, h⟩
  · obtain ⟨l', hs, hcov⟩ :=
      mmapPlace_sound h.sound halive hlen w.room w.aligned w.le w.after w.before w.placing
    refine ⟨own', l', hs, hcov h.covered, w.placing.low h.low hprot, ?_⟩
    refine w.guarded h.sound halive hlen h.guarded (fun hfix => ?_)
    obtain ⟨hflag, rfl⟩ := w.fixedAt hfix.1
    exact hcond ⟨hflag, hfix.2.2, w.placing.start_eq.symm.trans hfix.2.1⟩

/-- A fault keeps it. -/
theorem Growable.fault (h : Growable own k p l) (halive : (k.proc p).killed = false)
    (hr : trapPgflt L k p va = .ok k') : ∃ own' l', Growable own' k' p l' := by
  rcases trapPgflt_ok h.sound.free h.sound.tables h.sound.lists h.sound.walk
    (fun x hx => h.sound.listed_mine hx) hr with
    rfl | ⟨s', hs, rfl⟩ | ⟨x, v, next, f, own', s', hx, hhit, w⟩
  · exact ⟨own, l, h⟩
  · obtain ⟨hs', hcov⟩ := h.sound.kill hs
    refine ⟨own, l, hs', hcov h.covered, fun x v hx hv => ?_, h.guarded.congr (deref_kill_phys s')⟩
    rw [deref_kill_phys] at hv
    exact h.low x v hx hv
  · have hmem := h.sound.listed_mem hx w.deref hhit.start
    obtain ⟨l1, l2, rfl⟩ := append_of_mem hmem
    obtain ⟨hs, hcov⟩ := grow_sound h.sound halive w
    exact ⟨own', _, hs, hcov h.covered, (w.effect h.low).low, w.guarded h.sound halive h.guarded⟩

/-- The walk goes past areas that start below the address, if those that may grow have their
    guard page elsewhere. -/
theorem scan_skip (hv : v.start ≤ va)
    (hl : ∀ c u, (c, u) ∈ l1 → u.start ≤ va ∧ (u.flags &&& MAP_GROWSUP ≠ 0#32 →
      u.guardstart ≠ 0#32 ∧ ¬ (u.guardstart ≤ va ∧ va ≤ u.guardstart + PGSIZE - 1))) :
    scan va (l1 ++ (x, v) :: l2) = scan va ((x, v) :: l2) := by
  induction l1 with
  | nil => rfl
  | cons a l1 ih =>
    obtain ⟨c, u⟩ := a
    -- the next area starts below the address too
    have hnext : ¬ va < nextStart (l1 ++ (x, v) :: l2) := by
      rw [BitVec.not_lt]
      cases l1 with
      | nil => exact hv
      | cons b l1 => exact (hl b.1 b.2 (by simp)).1
    have hnone : u.verdict va c (nextStart (l1 ++ (x, v) :: l2)) = none := by
      unfold verdict
      by_cases hflags : u.flags &&& MAP_GROWSUP = 0#32
      · rw [if_pos hflags, if_neg (fun h => hnext h.2)]
      · grind
    show scan va ((c, u) :: (l1 ++ (x, v) :: l2)) = _
    simp only [scan, hnone]
    exact ih (fun d w hd => hl d w (mem_cons_of_mem _ hd))

theorem Ordered.areaList (h : Ordered k p l) : AreaList k p l :=
  ⟨⟨.tail p, _, h.path, rfl, h.tail⟩, fun _ _ hc => h.start_ne hc⟩

/-- An area of the list ends before a later one starts. -/
theorem Ordered.end_le (h : Ordered k p (l1 ++ (x, v) :: l2)) {c : VmaPtr} (hc : (c, u) ∈ l1) :
    u.end_.toNat + 1 ≤ v.start.toNat := by
  have hpair := h.laid.pairwise
  rw [segs_append, pairwise_append] at hpair
  exact (hpair.2.2 u.seg (mem_map.mpr ⟨(c, u), hc, rfl⟩) v.seg (by simp)).2

/-- The areas after one of the list start where the next one starts, or later. -/
theorem Ordered.next_le (h : Ordered k p (l1 ++ (x, v) :: l2)) (hn : k.deref v.next = .ok next) :
    next.start.toNat ≤ MAX_ADDR.toNat
      ∧ ∀ c u, (c, u) ∈ l2 → next.start.toNat ≤ u.start.toNat := by
  have hrest : Laid MAX_ADDR.toNat (segs l2) := by
    have := h.laid
    rw [segs_append, segs_cons] at this
    exact this.of_append.2.2.2
  rw [(h.next_start rfl hn).1]
  exact ⟨hrest.nextLo_le, fun c u hc => (hrest.bounds u.seg (mem_map.mpr ⟨(c, u), hc, rfl⟩)).1⟩

section

variable (h : Growable own k p (l1 ++ (x, v) :: l2))
include h

/-- The walk for a fault on that page finds the area. -/
theorem Growable.scan_eq (hflags : v.flags &&& MAP_GROWSUP ≠ 0#32) (hn : k.deref v.next = .ok next)
    (hroom : v.end_.toNat + 1 + 8192 ≤ next.start.toNat) (hlo : v.end_.toNat < va.toNat)
    (hhi : va.toNat ≤ v.end_.toNat + 4096) : scan va (l1 ++ (x, v) :: l2) = .grow x := by
  have hmem : (x, v) ∈ l1 ++ (x, v) :: l2 := by simp
  have hb := h.sound.ordered.start_lt hmem
  have htop := (h.sound.ordered.next_le hn).1
  have hok := h.sound.ok hmem
  have hend := hok.toNat_end_add_one
  have hgend := hok.toNat_guard_end
  obtain ⟨hpos, hguard⟩ := h.guarded.set x v next (h.sound.mine hmem) (h.sound.deref hmem)
    (h.sound.ordered.start_ne hmem) hn hflags
  replace hguard := hguard.resolve_right (by omega)
  rw [scan_skip (BitVec.le_def.mpr (by omega))]
  · have hself : v.verdict va x (nextStart l2) = some (.grow x) := by
      unfold verdict
      rw [if_neg hflags, if_pos ((BitVec.pos_iff_ne_zero _).mpr hpos), if_pos]
      rw [hguard]
      refine ⟨BitVec.le_def.mpr (by omega), BitVec.le_def.mpr ?_⟩
      rw [BitVec.toNat_sub, hgend]
      show va.toNat ≤ (2 ^ 32 - 1 + (v.end_.toNat + 1 + 4096)) % 2 ^ 32
      omega
    simp only [scan, hself]
  · intro c u hc
    have hcm : (c, u) ∈ l1 ++ (x, v) :: l2 := mem_append_left _ hc
    have hbefore := h.sound.ordered.end_le hc
    have hbc := h.sound.ordered.start_lt hcm
    have hv := h.sound.ordered.nonempty (ne_nil_of_mem hc) (mem_cons_self (a := (x, v)))
    refine ⟨BitVec.le_def.mpr (by omega), fun hf => ⟨?_, fun hin => ?_⟩⟩
    · obtain ⟨n, hcn⟩ := h.sound.ordered.areaList.next hcm
      exact (h.guarded.set c u n (h.sound.mine hcm) (h.sound.deref hcm)
        (h.sound.ordered.start_ne hcm) hcn hf).1
    · -- a guard page right after `u` ends before `v` does
      obtain ⟨next', hit⟩ := h.sound.ordered.areaList.hit h.sound.lists h.low hcm
        ⟨h.sound.ordered.start_ne hcm, hf, hin.1, hin.2⟩ (BitVec.le_def.mpr (by omega))
        (BitVec.lt_def.mpr (by omega))
      have hu := hit.ok.toNat_end_add_one
      have hpage := (frameOf_eq_iff hit.aligned va).mp hit.page.symm
      rw [hit.guard] at hpage
      have := hok.start_aligned
      have := hok.end_aligned
      omega

end

end Xv6.Kernel
