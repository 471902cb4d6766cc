import Xv6.Unmap

namespace Xv6

open Chain List Outcome Run VmArea

/-!
# What the page-fault handler decides

The handler walks the list of areas, decides, and only then acts.

* `Kernel.faultVerdict`, `trapPgflt_eq` — the decision by itself, and the handler in terms of
  it;
* `AreaList k p l` — the areas its loop goes through, up to the one that starts at `MAX_ADDR`;
* `scan`, `AreaList.verdict` — the decision is a function of these areas;
* `scan_outside` — an address in no area and on no guard page gets the process killed.
-/

/-- What the handler decides for a fault: nothing, to kill the process, or to map the guard
    page of an area. -/
inductive Verdict where
  | pass
  | kill
  | grow (x : VmaPtr)
  deriving DecidableEq

/-- What the area `c` behind `x` makes of a fault at `va`, the next area starting at
    `nstart`; none to go on. -/
def VmArea.verdict (va : Word) (x : VmaPtr) (c : VmArea) (nstart : Word) : Option Verdict :=
  if c.flags &&& MAP_GROWSUP = 0#32 then
    if c.end_ < va ∧ va < nstart then some .kill else none
  else if 0#32 < c.guardstart then
    if c.guardstart ≤ va ∧ va ≤ c.guardstart + PGSIZE - 1 then some (.grow x)
    else if va < nstart then some .kill else none
  else some .kill

namespace Kernel

/-- The decision of the handler's loop, from `curr` on. -/
def pgfltFind (k : Kernel) (va : Word) : Nat → VmaPtr → Res Verdict
  | 0, _ => .hang
  | n + 1, curr => do
    let c ← k.deref curr
    if c.start = MAX_ADDR then return .pass
    else if c.flags &&& MAP_GROWSUP = 0#32 then
      if c.end_ < va then
        let next ← k.deref c.next
        if va < next.start then return .kill else pgfltFind k va n c.next
      else pgfltFind k va n c.next
    else if 0#32 < c.guardstart then
      if c.guardstart ≤ va ∧ va ≤ c.guardstart + PGSIZE - 1 then return .grow curr
      else
        let next ← k.deref c.next
        if va < next.start then return .kill else pgfltFind k va n c.next
    else return .kill

/-- The decision of the handler for a fault at `va`. -/
def faultVerdict (k : Kernel) (p : Slot) (va : Word) : Res Verdict :=
  if va < MIN_ADDR ∨ MAX_ADDR ≤ va then .ok .kill else k.pgfltFind va loopBound (.head p)

/-- What the handler does about it. -/
def pgfltAct (L : Link) (k : Kernel) (p : Slot) : Verdict → Res Kernel
  | .pass => .ok k
  | .kill => .ok (k.kill p)
  | .grow x => k.pgfltGrow L p x

variable {L : Link} {own own' : Frame → Owner} {k k' k0 : Kernel} {p : Slot} {va : Word}
variable {l : List (VmaPtr × VmArea)} {y x : VmaPtr} {e c v : VmArea} {nstart : Word}

/-- Find, then act. -/
theorem pgfltLoop_eq (n : Nat) (curr : VmaPtr) :
    k.pgfltLoop L p va n curr = k.pgfltFind va n curr >>= k.pgfltAct L p := by
  induction n generalizing curr with
  | zero => rfl
  | succ n ih =>
    rw [pgfltLoop, pgfltFind, bind_assoc]
    congr 1
    funext c
    split
    · rfl
    split
    · split
      · rw [bind_assoc]
        congr 1
        funext next
        split
        · rfl
        · exact ih c.next
      · exact ih c.next
    split
    · split
      · rfl
      · rw [bind_assoc]
        congr 1
        funext next
        split
        · rfl
        · exact ih c.next
    · rfl

/-- Verdict, then act. -/
theorem trapPgflt_eq : k.trapPgflt L p va = k.faultVerdict p va >>= k.pgfltAct L p := by
  unfold trapPgflt faultVerdict
  split
  · rfl
  · exact pgfltLoop_eq _ _

/-! ### The areas the loop goes through -/

/-- The areas before the first that starts at `MAX_ADDR`, which ends the list. -/
structure AreaList (k : Kernel) (p : Slot) (l : List (VmaPtr × VmArea)) : Prop where
  path : ∃ y e, Areas k (.head p) l y ∧ k.deref y = .ok e ∧ e.start = MAX_ADDR
  start_ne : ∀ c v, (c, v) ∈ l → v.start ≠ MAX_ADDR

/-- The start of the first of these areas, or of the end. -/
def nextStart : List (VmaPtr × VmArea) → Word
  | [] => MAX_ADDR
  | (_, v) :: _ => v.start

/-- What the areas of a list make of a fault at `va`. -/
def scan (va : Word) : List (VmaPtr × VmArea) → Verdict
  | [] => .pass
  | (x, c) :: l =>
    match c.verdict va x (nextStart l) with
    | some d => d
    | none => scan va l

/-- The loop decides as `scan` does. -/
theorem pgfltFind_path {curr : VmaPtr} {n : Nat} (hp : Areas k curr l y)
    (hne : ∀ c v, (c, v) ∈ l → v.start ≠ MAX_ADDR) (he : k.deref y = .ok e)
    (hend : e.start = MAX_ADDR) (hn : l.length < n) :
    k.pgfltFind va n curr = .ok (scan va l) := by
  induction hp generalizing n with
  | nil =>
    cases n with
    | zero => cases hn
    | succ n =>
      rw [pgfltFind, he, ok_bind, if_pos hend]
      rfl
  | @cons x y v l hread hp ih =>
    cases n with
    | zero => cases hn
    | succ n =>
      have hrest := ih (fun c u hc => hne c u (mem_cons_of_mem _ hc)) he (Nat.lt_of_succ_lt_succ hn)
      -- the area after this one, which the loop looks at too
      have hnext : ∃ u, k.deref v.next = .ok u ∧ u.start = nextStart l := by
        cases hp with
        | nil => exact ⟨e, he, hend⟩
        | @cons _ _ u _ hread' _ => exact ⟨u, read_eq_some.mp hread', rfl⟩
      obtain ⟨u, hu, hustart⟩ := hnext
      rw [pgfltFind, read_eq_some.mp hread, ok_bind,
        if_neg (hne x v (mem_cons_self ..)), hu, scan, verdict]
      simp only [ok_bind, hustart, hrest]
      by_cases hflags : v.flags &&& MAP_GROWSUP = 0#32
      · by_cases hlt : v.end_ < va
        · by_cases hb : va < nextStart l <;> simp [hflags, hlt, hb]
        · simp [hflags, hlt]
      · by_cases hg : 0#32 < v.guardstart
        · by_cases hit : v.guardstart ≤ va ∧ va ≤ v.guardstart + PGSIZE - 1
          · rw [if_neg hflags, if_pos hg, if_pos hit, if_neg hflags, if_pos hg, if_pos hit]
            rfl
          · rw [if_neg hflags, if_pos hg, if_neg hit, if_neg hflags, if_pos hg, if_neg hit]
            by_cases hb : va < nextStart l <;> simp [hb]
        · rw [if_neg hflags, if_neg hg, if_neg hflags, if_neg hg]
          rfl

/-- Whatever an area decides, it decides something. -/
theorem verdict_ne_pass {d : Verdict} (h : c.verdict va x nstart = some d) : d ≠ .pass := by
  unfold verdict at h
  rintro rfl
  split at h
  · split at h <;> cases h
  · split at h
    · split at h
      · cases h
      · split at h <;> cases h
    · cases h

/-- An area that grows is hit on its guard page. -/
theorem verdict_grow (hs : c.start ≠ MAX_ADDR) (h : c.verdict va x nstart = some (.grow y)) :
    y = x ∧ Hits c va := by
  unfold verdict at h
  split at h
  · split at h <;> cases h
  · rename_i hflags
    split at h
    · split at h
      · rename_i hit
        cases h
        exact ⟨rfl, hs, hflags, hit.1, hit.2⟩
      · split at h <;> cases h
    · cases h

/-- The area that grows is hit. -/
theorem scan_grow (hne : ∀ c v, (c, v) ∈ l → v.start ≠ MAX_ADDR) (h : scan va l = .grow x) :
    ∃ v, (x, v) ∈ l ∧ Hits v va := by
  induction l with
  | nil => cases h
  | cons a l ih =>
    obtain ⟨y, c⟩ := a
    rw [scan] at h
    split at h
    · rename_i d hd
      rw [h] at hd
      obtain ⟨rfl, hit⟩ := verdict_grow (hne y c (mem_cons_self ..)) hd
      exact ⟨c, mem_cons_self .., hit⟩
    · grind

/-- An address at or after the start of the first area and in none of them is decided
    about: the last area that starts at or before it is followed by one that starts later. -/
theorem scan_ne_pass (hle : nextStart l ≤ va) (hmax : va < MAX_ADDR)
    (hout : ∀ c v, (c, v) ∈ l → ¬ (v.start ≤ va ∧ va ≤ v.end_)) : scan va l ≠ .pass := by
  induction l with
  | nil => exact absurd hmax (BitVec.not_lt.mpr hle)
  | cons a l ih =>
    obtain ⟨x, c⟩ := a
    have hend : c.end_ < va :=
      BitVec.not_le.mp (fun h => hout x c (mem_cons_self ..) ⟨hle, h⟩)
    rw [scan]
    split
    · rename_i d hd
      exact verdict_ne_pass hd
    · rename_i hnone
      refine ih (BitVec.not_lt.mp (fun hlt => ?_)) (fun c v hc => hout c v (mem_cons_of_mem _ hc))
      -- the next area starts later: this one has to decide
      unfold verdict at hnone
      split at hnone
      · rw [if_pos ⟨hend, hlt⟩] at hnone
        cases hnone
      · grind

/-- An address in no area and on no guard page gets the process killed. -/
theorem scan_outside (hne : ∀ c v, (c, v) ∈ l → v.start ≠ MAX_ADDR) (hle : nextStart l ≤ va)
    (hmax : va < MAX_ADDR) (hout : ∀ c v, (c, v) ∈ l → ¬ (v.start ≤ va ∧ va ≤ v.end_))
    (hguard : ∀ c v, (c, v) ∈ l → ¬ Hits v va) : scan va l = .kill := by
  cases h : scan va l with
  | pass => exact absurd h (scan_ne_pass hle hmax hout)
  | kill => rfl
  | grow x =>
    obtain ⟨v, hv, hit⟩ := scan_grow hne h
    exact absurd hit (hguard x v hv)

/-! ### The list has an end -/

namespace AreaList

variable {l : List (VmaPtr × VmArea)}

theorem mine (h : AreaList k p l) (hl : Lists own k p) {c : VmaPtr} (hc : (c, v) ∈ l) :
    Mine own p c := by
  obtain ⟨y, e, hp, he, -⟩ := h.path
  have hy : y ≠ .null := by
    rintro rfl
    cases he
  exact (hl.path hp rfl hy h.start_ne).2 c v hc

theorem deref (h : AreaList k p l) {c : VmaPtr} (hc : (c, v) ∈ l) : k.deref c = .ok v := by
  obtain ⟨y, e, hp, -⟩ := h.path
  exact read_eq_some.mp (hp.read_eq hc)

/-- The end of the list is not one of its areas. -/
theorem end_notMem (h : AreaList k p l) (he : k.deref y = .ok e) (hend : e.start = MAX_ADDR) :
    y ∉ l.map Prod.fst := by
  intro hmem
  obtain ⟨⟨c, v⟩, hcv, rfl⟩ := mem_map.mp hmem
  cases he.symm.trans (h.deref hcv)
  exact h.start_ne _ _ hcv hend

theorem nodup (h : AreaList k p l) : (l.map Prod.fst).Nodup := by
  obtain ⟨y, e, hp, he, hend⟩ := h.path
  exact hp.nodup (h.end_notMem he hend)

/-- A number for each pointer of one process. -/
def code : VmaPtr → Nat
  | .null => 0
  | .head _ => 1
  | .tail _ => 2
  | .node f => 3 + f.toNat

/-- Areas have different addresses. -/
theorem code_inj (hx : Mine own p x) (hy : Mine own p y) (h : code x = code y) : x = y := by
  cases x with
  | null => exact hx.elim
  | head q =>
    cases y with
    | null => exact hy.elim
    | head q' => rw [show q = p from hx, show q' = p from hy]
    | tail q' => cases h
    | node f =>
      have : 1 = 3 + f.toNat := h
      omega
  | tail q =>
    cases y with
    | null => exact hy.elim
    | head q' => cases h
    | tail q' => rw [show q = p from hx, show q' = p from hy]
    | node f =>
      have : 2 = 3 + f.toNat := h
      omega
  | node f =>
    cases y with
    | null => exact hy.elim
    | head q' =>
      have : 3 + f.toNat = 1 := h
      omega
    | tail q' =>
      have : 3 + f.toNat = 2 := h
      omega
    | node g =>
      have : 3 + f.toNat = 3 + g.toNat := h
      rw [BitVec.eq_of_toNat_eq (show f.toNat = g.toNat by omega)]

/-- There are no more areas than frames and the two in `struct proc`. -/
theorem length_lt (h : AreaList k p l) (hl : Lists own k p) : l.length < loopBound := by
  have hnodup : ((l.map Prod.fst).map code).Nodup := by
    refine h.nodup.map_on ?_
    intro x hx y hy
    obtain ⟨⟨_, v⟩, hv, rfl⟩ := mem_map.mp hx
    obtain ⟨⟨_, w⟩, hw, rfl⟩ := mem_map.mp hy
    exact code_inj (h.mine hl hv) (h.mine hl hw)
  have hsub : ((l.map Prod.fst).map code).toFinset ⊆ Finset.range 1048580 := by
    intro n hn
    rw [mem_toFinset] at hn
    obtain ⟨x, -, rfl⟩ := mem_map.mp hn
    rw [Finset.mem_range]
    cases x with
    | null => decide
    | head q => exact show 1 < 1048580 by decide
    | tail q => exact show 2 < 1048580 by decide
    | node f =>
      show 3 + f.toNat < 1048580
      omega
  have hcard := Finset.card_le_card hsub
  rw [toFinset_card_of_nodup hnodup, length_map, length_map, Finset.card_range] at hcard
  have hb : loopBound = 2097152 := rfl
  omega

/-- The handler's decision, as a function of the list. -/
theorem verdict (h : AreaList k p l) (hl : Lists own k p) : k.faultVerdict p va
      = .ok (if va < MIN_ADDR ∨ MAX_ADDR ≤ va then .kill else scan va l) := by
  obtain ⟨y, e, hp, he, hend⟩ := h.path
  unfold faultVerdict
  split
  · rfl
  · exact pgfltFind_path hp h.start_ne he hend (h.length_lt hl)

/-- Where a search from the head stops, it stops at an area of the list. -/
theorem split (h : AreaList k p l) {l1 : List (VmaPtr × VmArea)} (hp : Areas k (.head p) l1 x)
    (hl1 : ∀ d u, (d, u) ∈ l1 → u.start ≠ MAX_ADDR) (hd : k.deref x = .ok c)
    (hc : c.start ≠ MAX_ADDR) : ∃ l2, l = l1 ++ (x, c) :: l2 := by
  obtain ⟨y, e, hpath, he, hend⟩ := h.path
  have hy : y ∉ l1.map Prod.fst := by
    intro hmem
    obtain ⟨⟨d, u⟩, hdu, rfl⟩ := mem_map.mp hmem
    cases he.symm.trans (read_eq_some.mp (hp.read_eq hdu))
    exact hl1 _ _ hdu hend
  obtain ⟨r, rfl, hr⟩ := hp.extend hpath hy
  cases hr with
  | nil =>
    cases hd.symm.trans he
    exact absurd hend hc
  | @cons _ _ v r hread _ =>
    cases hd.symm.trans (read_eq_some.mp hread)
    exact ⟨r, rfl⟩

/-- Writes that keep the links keep the list. -/
theorem links (h : AreaList k p l) (hs : SameLinks k k') : ∃ l', AreaList k' p l' := by
  obtain ⟨y, e, hp, he, hend⟩ := h.path
  obtain ⟨l', hp', hl'⟩ := hp.map (R := fun v v' => v'.link = v.link) (fun c v hc => by
    obtain ⟨v', hv', hlink⟩ := hs c v (read_eq_some.mp (hp.read_eq hc))
    exact ⟨v', read_eq_some.mpr hv', congrArg (fun t => t.2.2) hlink, hlink⟩)
  obtain ⟨e', he', hlink⟩ := hs y e he
  refine ⟨l', ⟨⟨y, e', hp', he', ?_⟩, ?_⟩⟩
  · exact (congrArg (fun t => t.1) hlink).trans hend
  · intro c v hc
    obtain ⟨u, hmem, hlink⟩ := Path.map_mem (R := fun v v' => v'.link = v.link) hl' hc
    rw [show v.start = u.start from congrArg (fun t => t.1) hlink]
    exact h.start_ne c u hmem

end AreaList

theorem SameAreas.links (h : SameAreas k k') : SameLinks k k' := by
  intro x v hv
  obtain ⟨v', hv', hsame⟩ := h.forward hv
  refine ⟨v', hv', ?_⟩
  rw [hsame.eq]
  rfl

/-- The list of areas has an end, and its head is where `exec` put it. -/
structure Ended (k : Kernel) (p : Slot) : Prop where
  list : ∃ l, AreaList k p l
  first : (k.proc p).head.start = MIN_ADDR

theorem Ended.links (h : Ended k p) (hs : SameLinks k k') : Ended k' p := by
  obtain ⟨l, hl⟩ := h.list
  obtain ⟨v', hv', hlink⟩ := hs (.head p) (k.proc p).head rfl
  cases hv'
  exact ⟨hl.links hs, (congrArg (fun t => t.1) hlink).trans h.first⟩

/-- The first area of the list is the head. -/
theorem Ended.nextStart (h : Ended k p) (hl : AreaList k p l) :
    nextStart l = MIN_ADDR := by
  obtain ⟨y, e, hp, he, hend⟩ := hl.path
  cases hp with
  | nil =>
    cases he
    rw [h.first] at hend
    cases hend
  | cons hread hp =>
    cases hread
    exact h.first

section

variable {x : VmaPtr} {c nx v : VmArea} {vma : Frame} {s : Phys} {k5 : Kernel}
  {start length prot flags fd : Word} {fixed : Bool} {l l1 l2 : List (VmaPtr × VmArea)}

/-- A new area is linked into the list, or cuts off its beginning; either way it has an
    end. -/
theorem Ended.placed (h : Ended k p) (hl : Lists own k p)
    (ha : AreaList k p (l1 ++ (x, c) :: l2)) (hfree : own vma = .free) (hvn : v.next = c.next) :
    Ended (k.placed p s x c vma v length fixed) p := by
  obtain ⟨y, e, hp, he, hend⟩ := ha.path
  have hmine : ∀ d u, (d, u) ∈ l1 ++ (x, c) :: l2 → Mine own p d := fun d u hdu => ha.mine hl hdu
  have hx := hmine x c (by simp)
  have hyMem := ha.end_notMem he hend
  have hyx : y ≠ x := by
    rintro rfl
    exact hyMem (by simp)
  -- the end of the list is not written
  have hy : (k.placed p s x c vma v length fixed).deref y = .ok e := by
    obtain ⟨u, hu⟩ : ∃ u, (k.placed p s x c vma v length fixed).deref y = .ok u := by
      rcases deref_cases (k.placed p s x c vma v length fixed) y with hw | hu
      · cases y <;> cases hw
        cases he
      · exact hu
    have hymine : Mine own p y := by
      refine (hl.path hp rfl ?_ ha.start_ne).1
      rintro rfl
      cases he
    rcases placed_deref (hx.ne_node hfree) hx.ne_null hu
      with ⟨rfl, -⟩ | ⟨rfl, -⟩ | ⟨rfl, -⟩ | ⟨-, hk⟩
    · exact absurd rfl (hymine.ne_node hfree)
    · cases he
      rw [h.first] at hend
      cases hend
    · exact absurd rfl hyx
    · rw [hu, ← hk, he]
  have hfirst : ((k.placed p s x c vma v length fixed).proc p).head.start = MIN_ADDR := by
    have hhead : (k.placed p s x c vma v length fixed).deref (.head p)
        = .ok ((k.placed p s x c vma v length fixed).proc p).head := rfl
    rcases placed_deref (hx.ne_node hfree) hx.ne_null hhead with
      ⟨hv, -⟩ | ⟨-, hfix, hv⟩ | ⟨rfl, hc⟩ | ⟨-, hk⟩
    · cases hv
    · rw [hv]
      exact hfix.2
    · rw [hc]
      cases ha.deref (c := .head p) (v := c) (by simp)
      exact h.first
    · rw [← ok.inj hk]
      exact h.first
  have hpath := placed_path s length fixed hp hyMem hmine hfree hvn
  refine ⟨?_, hfirst⟩
  by_cases hfix : fixed = true ∧ v.start = MIN_ADDR
  · rw [if_pos hfix] at hpath
    refine ⟨_, ⟨⟨y, e, hpath, hy, hend⟩, fun d u hdu => ?_⟩⟩
    rcases mem_cons.mp hdu with heq | hdu
    · cases heq
      rw [hfix.2]
      decide
    · exact ha.start_ne d u (by simp [hdu])
  · rw [if_neg hfix] at hpath
    have hold : ∀ d u, (d, u) ∈ l1 ∨ (d, u) = (x, { c with
        space_after := c.space_after - length, next := .node vma }) → u.start ≠ MAX_ADDR := by
      grind [ha.start_ne]
    by_cases hvs : v.start = MAX_ADDR
    · -- an area of negative length at the very end: it ends the list from now on
      rw [append_cons] at hpath
      obtain ⟨hpath, hread, -⟩ := hpath.split_cons
      refine ⟨_, ⟨⟨_, v, hpath, read_eq_some.mp hread, hvs⟩, fun d u hdu => hold d u ?_⟩⟩
      rw [mem_append, mem_singleton] at hdu
      exact hdu
    · refine ⟨_, ⟨⟨y, e, hpath, hy, hend⟩, fun d u hdu => ?_⟩⟩
      rw [mem_append, mem_cons, mem_cons] at hdu
      rcases hdu with hdu | heq | heq | hdu
      · exact hold d u (.inl hdu)
      · exact hold d u (.inr heq)
      · cases heq
        exact hvs
      · exact ha.start_ne d u (by simp [hdu])

/-- `mmap` keeps the end of the list, whatever the length. -/
theorem sysMmap_ended {addr r : Word} (h : Intact own k p) (he : Ended k p)
    (hprot : prot.toNat < 4096) (hr : sysMmap L k p addr length prot flags fd = .ok (r, k')) :
    Ended k' p := by
  rcases sysMmap_path h.lists hr with
    ⟨-, rfl⟩ | ⟨l1, x, c, start, fixed, hp, hl1, hd, hs, hal, hle, hm⟩
  · exact he
  obtain ⟨l, hl⟩ := he.list
  obtain ⟨l2, rfl⟩ := hl.split hp hl1 hd hs
  have hx : Mine own p x := hl.mine h.lists (v := c) (by simp)
  obtain ⟨-, vma, s, nx, v, own', k5, -, w, -⟩ := mmapPlace_ok h.free h.tables h.kern h.lists hx
    (h.lists.prev hp hl1 hx) hd hs hal hle (.inr hprot) hm
  exact (he.placed h.lists hl w.fresh w.next_eq).links w.same.links

end

/-! ### Runs of `mmap` calls and faults -/

/-- The call is an `mmap` with flags only in `prot`, or a fault. -/
def MappingCall (_ : Kernel) (c : Call) : Prop := LowProt c ∧ c.onAreas = true

theorem Execed.ended (h : Execed own k p) : Ended k p where
  list := by
    refine ⟨[(.head p, (k.proc p).head)], ⟨.tail p, (k.proc p).tail, ?_, rfl, h.tail_start⟩, ?_⟩
    · exact h.ordered.path
    · intro c v hc
      rw [mem_singleton] at hc
      cases hc
      rw [h.head_start]
      decide
  first := h.head_start

/-- Every call keeps the end. -/
theorem user_ended {c : Call} (h : Intact own k p) (he : Ended k p) (hc : MappingCall k c)
    (hr : user L p k c = .ok k') : Ended k' p := by
  unfold user at hr
  split at hr
  · cases hr
  cases c with
  | mmap addr length prot flags fd =>
    obtain ⟨⟨r, k1⟩, hm, hr⟩ := bind_eq_ok.mp hr
    cases hr
    exact sysMmap_ended h he hc.1 hm
  | munmap addr length => cases hc.2
  | fault va => exact he.links (trapPgflt_links hr)
  | sbrk n => cases hc.2

/-- In every state reached the memory is in order, and the list has an end. -/
theorem mapping_ended (h0 : Execed own k0 p) (hr : Reach (user L p) MappingCall k0 k) :
    ∃ own', Intact own' k p ∧ Ended k p := by
  refine hr.invariant (I := fun k => ∃ own, Intact own k p ∧ Ended k p)
    ⟨own, h0.intact, h0.ended⟩ ?_
  rintro k1 c k2 ⟨own1, h1, he⟩ hc hstep
  obtain ⟨own2, h2⟩ := (user_intact h1 hc.1 hstep).1
  exact ⟨own2, h2, user_ended h1 he hc hstep⟩

/-! ### What growing an area does -/

section

variable {x : VmaPtr} {c next : VmArea}

end

/-- An area of the list that is hit: its guard page is the page after it, and the address is
    on that page. -/
structure HitArea (own : Frame → Owner) (k : Kernel) (p : Slot) (x : VmaPtr) (v next : VmArea)
    (va : Word) : Prop where
  mine : Mine own p x
  deref : k.deref x = .ok v
  next : k.deref v.next = .ok next
  flags : v.flags &&& MAP_GROWSUP ≠ 0#32
  ok : v.Ok
  guard : v.guardstart = v.end_ + 1
  aligned : v.guardstart.toNat % 4096 = 0
  page : frameOf v.guardstart = frameOf va
  prot : v.prot.toNat < 4096

theorem AreaList.next (h : AreaList k p l) (hx : (x, v) ∈ l) :
    ∃ next, k.deref v.next = .ok next := by
  obtain ⟨y, e, hp, he, -⟩ := h.path
  obtain ⟨l1, l2, rfl⟩ := append_of_mem hx
  obtain ⟨-, -, hrest⟩ := hp.split_cons
  generalize hn : v.next = n at hrest
  cases hrest with
  | nil => exact ⟨e, he⟩
  | cons hread _ => exact ⟨_, read_eq_some.mp hread⟩

theorem AreaList.ok (hl : AreaList k p l) (h : Lists own k p) (hx : (x, v) ∈ l) : v.Ok := by
  obtain ⟨next, hnext⟩ := hl.next hx
  have hnull : v.next ≠ .null := by
    intro heq
    rw [heq] at hnext
    cases hnext
  exact (h.area x v (hl.mine h hx) (hl.deref hx) (hl.start_ne x v hx) hnull).1

/-- The hit area. -/
theorem AreaList.hit (hl : AreaList k p l) (h : Lists own k p) (hlow : Low own k p)
    (hx : (x, v) ∈ l) (hit : Hits v va) (hlo : MIN_ADDR ≤ va) (hhi : va < MAX_ADDR) :
    ∃ next, HitArea own k p x v next va := by
  obtain ⟨next, hnext⟩ := hl.next hx
  have hmine := hl.mine h hx
  have hd := hl.deref hx
  have hok := hl.ok h hx
  obtain ⟨hal, hpage, hge, hlt⟩ := hit.page hok.guardOk hlo hhi
  have hguard : v.guardstart = v.end_ + 1 := by
    rcases hok.guard with h | h | h
    · exact h
    · omega
    · omega
  have hprot : v.prot.toNat < 4096 := by
    rcases hlow x v hmine hd with h | h | h
    · exact h
    · omega
    · omega
  exact ⟨next, hmine, hd, hnext, hit.flags, hok, hguard, hal, hpage, hprot⟩

/-- Nothing but who is killed differs: the translations and the areas are the same. -/
structure Unmoved (k : Kernel) (p : Slot) (k' : Kernel) : Prop where
  trans : ∀ va, k'.trans p va = k.trans p va
  areas : ∀ x, k'.deref x = k.deref x

/-- The page of `va` was mapped, to a frame that is all zeros, and area `x` has grown by it. -/
structure OnePage (k : Kernel) (p : Slot) (va : Word) (x : VmaPtr) (v : VmArea) (k' : Kernel) :
    Prop where
  flags : v.flags &&& MAP_GROWSUP ≠ 0#32
  aligned : (v.end_ + 1).toNat % 4096 = 0
  page : frameOf va = frameOf (v.end_ + 1)
  before : k.trans p va = none
  after : ∃ pte, (∀ i, k'.phys.mem (frameOf pte) i = 0#32)
    ∧ pte = base (frameOf pte) ||| (v.prot ||| PTE_U) ||| PTE_P
    ∧ ∀ va', k'.trans p va' = if frameOf va' = frameOf va then some pte else k.trans p va'
  grown : ∃ g, k'.deref x
    = .ok { v with end_ := v.end_ + PGSIZE, len := v.len + PGSIZE, guardstart := g }
  others : ∀ y, y ≠ x → k'.deref y = k.deref y

/-- Mapping the guard page of an area that is hit is such a change. -/
theorem HitArea.onePage {next : VmArea} {f : Frame} {s' : Phys} (h : HitArea own k p x v next va)
    (w : NewPage own k.phys (.proc p) (k.proc p).pgdir v.guardstart f (fun _ => 0)
      (v.prot ||| PTE_U) own' s')
    (heq : k' = (({ k with phys := s' } : Kernel).grant p v.guardstart (some f)).setVma x
      (v.growsUp next)) : OnePage k p va x v k' := by
  have hpte := frameOf_pte (f := f) h.prot
  refine ⟨h.flags, ?_, ?_, ?_, ⟨base f ||| (v.prot ||| PTE_U) ||| PTE_P, ?_, ?_, ?_⟩, ?_, ?_⟩
  · rw [← h.guard]
    exact h.aligned
  · rw [← h.guard, h.page]
  · rw [trans_congr_page k p h.page.symm]
    exact w.before
  · intro i
    rw [hpte, heq, setVma_phys]
    exact congrFun w.content i
  · rw [hpte]
  · intro va'
    rw [heq, trans_setVma]
    show translate s' (k.proc p).pgdir va' = _
    rw [w.after, h.page]
    rfl
  · refine ⟨(v.growsUp next).guardstart, ?_⟩
    rw [heq, deref_setVma_self _ _ h.mine.ne_null]
    rfl
  · intro y hy
    rw [heq, deref_setVma_ne _ _ hy]
    cases y <;> rfl

/-- What the handler does to the memory and the areas of a process in order: nothing, or it
    maps one page. -/
theorem fault_moves (h : Intact own k p) (hl : AreaList k p l) :
    (∃ e, trapPgflt L k p va = .panic e)
      ∨ ∃ k', trapPgflt L k p va = .ok k'
        ∧ (Unmoved k p k' ∨ ∃ x v, (x, v) ∈ l ∧ OnePage k p va x v k') := by
  have hkill : Unmoved k p (k.kill p) := ⟨fun va => trans_kill k p p va, fun x => deref_kill k p x⟩
  rw [trapPgflt_eq, hl.verdict h.lists, ok_bind]
  split
  · exact .inr ⟨_, rfl, .inl hkill⟩
  rename_i hrange
  rw [not_or, BitVec.not_lt, BitVec.not_le] at hrange
  cases hscan : scan va l with
  | pass => exact .inr ⟨k, rfl, .inl ⟨fun _ => rfl, fun _ => rfl⟩⟩
  | kill => exact .inr ⟨_, rfl, .inl hkill⟩
  | grow x =>
    obtain ⟨v, hx, hit⟩ := scan_grow hl.start_ne hscan
    obtain ⟨next, ha⟩ := hl.hit h.lists h.low hx hit hrange.1 hrange.2
    rcases grow_cases (L := L) h.free h.tables ha.deref ha.aligned with
      ⟨-, he⟩ | ⟨-, he⟩ | ⟨f, own', s', w, he⟩ | ⟨f, s, -, -, hno, he⟩
    · exact .inl ⟨_, he⟩
    · exact .inl ⟨_, he⟩
    · rw [ha.next] at he
      exact .inr ⟨_, he, .inr ⟨x, v, hx, ha.onePage w rfl⟩⟩
    · rcases kfree_cases L s (P2V (base f)) with ⟨s', hs⟩ | hs
      · rw [hs] at he
        refine .inr ⟨_, he, .inl ⟨fun va' => ?_, fun y => deref_kill_phys s' y⟩⟩
        rw [trans_kill]
        exact trans_phys_eq (hno s' hs).after va'
      · rw [hs] at he
        exact .inl ⟨_, he⟩

/-- An address in no area and not on the page after an area that grows gets the process
    killed. -/
theorem fault_outside (h : Intact own k p) (he : Ended k p) (hl : AreaList k p l)
    (hlo : MIN_ADDR ≤ va) (hhi : va < MAX_ADDR)
    (hout : ∀ x v, (x, v) ∈ l → ¬ (v.start ≤ va ∧ va ≤ v.end_))
    (hpage : ∀ x v, (x, v) ∈ l → v.flags &&& MAP_GROWSUP ≠ 0#32 →
      frameOf va ≠ frameOf (v.end_ + 1)) :
    trapPgflt L k p va = .ok (k.kill p) := by
  have hscan : scan va l = .kill := by
    refine scan_outside hl.start_ne ?_ hhi hout (fun x v hx hit => ?_)
    · rw [he.nextStart hl]
      exact hlo
    · obtain ⟨next, ha⟩ := hl.hit h.lists h.low hx hit hlo hhi
      apply hpage x v hx hit.flags
      rw [← ha.guard, ha.page]
  have hrange : ¬ (va < MIN_ADDR ∨ MAX_ADDR ≤ va) := by
    rw [not_or, BitVec.not_lt, BitVec.not_le]
    exact ⟨hlo, hhi⟩
  rw [trapPgflt_eq, hl.verdict h.lists, ok_bind, if_neg hrange, hscan]
  rfl

/-- In every state that `mmap` calls (with flags only in `prot`, a page for the record and the file
    open that is to be loaded) and faults lead to: a fault either panics, or changes no translation
    and no area, or maps one page, of zeros, that contains the address and starts where an area with
    `MAP_GROWSUP` ended, which grows by it; and an address of the region in no area and on no such
    page gets the process killed. -/
theorem fault_frame (h0 : Execed own k0 p)
    (hr : Reach (user L p) (fun k c => FlagsCall p k c ∧ c.onAreas = true) k0 k) (va : Word) :
    ∃ l, AreaList k p l
      ∧ ((∃ e, trapPgflt L k p va = .panic e)
        ∨ ∃ k', trapPgflt L k p va = .ok k'
          ∧ (Unmoved k p k' ∨ ∃ x v, (x, v) ∈ l ∧ OnePage k p va x v k'))
      ∧ (MIN_ADDR ≤ va → va < MAX_ADDR →
          (∀ x v, (x, v) ∈ l → ¬ (v.start ≤ va ∧ va ≤ v.end_)) →
          (∀ x v, (x, v) ∈ l → v.flags &&& MAP_GROWSUP ≠ 0#32 →
            frameOf va ≠ frameOf (v.end_ + 1)) →
          ∃ k', trapPgflt L k p va = .ok k' ∧ (∀ va', k'.trans p va' = k.trans p va')
            ∧ (k'.proc p).killed = true) := by
  obtain ⟨own', h, he⟩ := mapping_ended h0 (hr.mono fun _ _ hc => ⟨hc.1.lowProt, hc.2⟩)
  obtain ⟨l, hl⟩ := he.list
  refine ⟨l, hl, fault_moves h hl, fun hlo hhi hout hpage => ?_⟩
  refine ⟨k.kill p, fault_outside h he hl hlo hhi hout hpage, fun va' => trans_kill k p p va', ?_⟩
  rw [kill_self]

/-- A fault on the page after an area that grows maps this page. -/
theorem fault_frame_growsUp :
    ∃ k k', user startLink 0 (start 16) (.mmap 0x60002000 0x1000 3 0x1D 0) = .ok k
      ∧ trapPgflt startLink k 0 0x60003000 = .ok k'
      ∧ ∃ l x v, AreaList k 0 l ∧ (x, v) ∈ l ∧ OnePage k 0 0x60003000 x v k' := by
  obtain ⟨k, hk, hfault⟩ := Outcome.holds_iff.mp (show
    (user startLink 0 (start 16) (.mmap 0x60002000 0x1000 3 0x1D 0)).holds (fun k =>
      (trapPgflt startLink k 0 0x60003000).holds fun k' =>
        k'.trans 0 0x60003000 ≠ k.trans 0 0x60003000) = true by decide +kernel)
  obtain ⟨k', hk', htest⟩ := Outcome.holds_iff.mp hfault
  have hc : FlagsCall 0 (start 16) (.mmap 0x60002000 0x1000 3 0x1D 0) :=
    ⟨by decide, by decide, fun h => absurd h (by decide)⟩
  obtain ⟨l, hl, hmoves, -⟩ :=
    fault_frame (start_execed (by decide)) (Reach.refl.tail ⟨hc, rfl⟩ hk) 0x60003000
  refine ⟨k, k', hk, hk', ?_⟩
  rw [hk'] at hmoves
  rcases hmoves with ⟨_, ⟨⟩⟩ | ⟨_, ⟨⟩, hsame | ⟨x, v, hx, hone⟩⟩
  · exact absurd (hsame.trans _) (of_decide_eq_true htest)
  · exact ⟨l, x, v, hl, hx, hone⟩

/-- With a bit above the flags in `prot`, the PTE of the new page names a frame that nobody
    has cleared. -/
theorem fault_not_zeroed :
    ∃ k k', user startLink 0 (start 16) (.mmap 0x60002000 0x1000 0x4003 0x1D 0) = .ok k
      ∧ trapPgflt startLink k 0 0x60003000 = .ok k' ∧ k.trans 0 0x60003000 = none
      ∧ ∃ pte, k'.trans 0 0x60003000 = some pte ∧ k'.phys.mem (frameOf pte) 1 = junk := by
  obtain ⟨k, hk, hfault⟩ := Outcome.holds_iff.mp (show
    (user startLink 0 (start 16) (.mmap 0x60002000 0x1000 0x4003 0x1D 0)).holds (fun k =>
      (trapPgflt startLink k 0 0x60003000).holds (fun k' => k.trans 0 0x60003000 = none
        ∧ k'.trans 0 0x60003000 = some 0x1007007 ∧ k'.phys.mem (frameOf 0x1007007) 1 = junk)) = true
      by decide +kernel)
  obtain ⟨k', hk', htest⟩ := Outcome.holds_iff.mp hfault
  obtain ⟨hbefore, hafter, hjunk⟩ := of_decide_eq_true htest
  exact ⟨k, k', hk, hk', hbefore, _, hafter, hjunk⟩

end Kernel

end Xv6
