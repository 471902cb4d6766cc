import Xv6.ListSpec

namespace Xv6

open Function

/-!
# What a call of `mmap` or a page fault can do

`Effect own k p own' k'` says it in one place, for a process whose records are in order
(`Lists`) and ask for flags only in `prot` (`Low`).  Whatever the arguments, lengths
included:

* a translation that was there stays, a new one is to a frame that was free and that
  `granted` remembers;
* only free frames and frames of `p` change hands or contents;
* records and fields of other processes stay as they are.

`sysMmap_effect` and `trapPgflt_effect` are what the invariants of several processes are
derived from.
-/

/-- An area the fault handler maps pages for with flags only, or has no guard page to map. -/
def VmArea.Low (v : VmArea) : Prop :=
  v.prot.toNat < 4096 ∨ v.guardstart.toNat + 4095 < MIN_ADDR.toNat
    ∨ MAX_ADDR.toNat ≤ v.guardstart.toNat

namespace Kernel

variable {L : Link} {own own' : Frame → Owner} {k k' : Kernel} {p : Slot}
variable {x : VmaPtr} {length flags : Word}

/-- The areas of `p` ask for flags only. -/
def Low (own : Frame → Owner) (k : Kernel) (p : Slot) : Prop :=
  ∀ x v, Mine own p x → k.deref x = .ok v → v.Low

/-- What a call of process `p` can do to the kernel. -/
structure Effect (own : Frame → Owner) (k : Kernel) (p : Slot)
    (own' : Frame → Owner) (k' : Kernel) :
    Prop where
  free : Free own' k'.phys
  tables : Tables own' k'.phys.mem (.proc p) (k.proc p).pgdir
  lists : Lists own' k' p
  low : Low own' k' p
  touch : Touch (fun o => o.within (.proc p) ∨ o = .record p) own k.phys.mem own' k'.phys.mem
  keep : ∀ g, own g ≠ .free → own' g = own g
  page : ∀ va : Word,
    (k'.trans p va = k.trans p va ∧ k'.granted p (frameOf va) = k.granted p (frameOf va))
      ∨ va < KERNBASE ∧ k.trans p va = none ∧ ∃ pte, k'.trans p va = some pte
          ∧ own (frameOf pte) = .free ∧ own' (frameOf pte) = .page (.proc p) (frameOf va)
          ∧ k'.granted p (frameOf va) = some (frameOf pte)
  areas : ∀ x, ¬ Mine own p x → (∀ f, x = .node f → own f ≠ .free) → k'.deref x = k.deref x
  self : k'.proc p = { k.proc p with
    head := (k'.proc p).head, tail := (k'.proc p).tail, killed := (k'.proc p).killed }
  others : ∀ q, q ≠ p → k'.proc q = k.proc q
  granted : ∀ q, q ≠ p → k'.granted q = k.granted q
  files : SameFiles k.file k'.file
  rest : k' = { k with phys := k'.phys, vma := k'.vma, proc := k'.proc, file := k'.file,
                       pipe := k'.pipe, granted := k'.granted }

/-- A process is the same if its fields but for the areas are, and the areas are. -/
theorem proc_eq_of_areas {q : Slot} {b : Bool}
    (h : k'.proc q = { k.proc q with
      head := (k'.proc q).head, tail := (k'.proc q).tail, killed := b })
    (hb : b = (k.proc q).killed) (hhead : k'.deref (.head q) = k.deref (.head q))
    (htail : k'.deref (.tail q) = k.deref (.tail q)) : k'.proc q = k.proc q := by
  have h1 : (k'.proc q).head = (k.proc q).head := by simpa [deref] using hhead
  have h2 : (k'.proc q).tail = (k.proc q).tail := by simpa [deref] using htail
  rw [h, h1, h2, hb]

/-- Nothing happens to memory but that the contents of free frames change, and the process
    is killed. -/
theorem Effect.nothing {s : Phys} (hs : Still own k p s) (hl : Lists own k p)
    (hlow : Low own k p) : Effect own k p own (({ k with phys := s } : Kernel).kill p) where
  free := hs.free
  tables := hs.tables
  lists := ⟨fun x v hx hd => hl.guard x v hx (by rwa [deref_kill_phys] at hd),
    fun x v hx hd => hl.area x v hx (by rwa [deref_kill_phys] at hd)⟩
  low := fun x v hx hd => hlow x v hx (by rwa [deref_kill_phys] at hd)
  touch := hs.touch.mono (fun _ h => .inl h)
  keep := fun _ _ => rfl
  page := fun va => .inl ⟨by rw [trans_kill]; exact hs.trans va, rfl⟩
  areas := fun x _ _ => deref_kill_phys s x
  self := by simp [kill]
  others := fun q hq => by simp [kill, setProc, hq]
  granted := fun _ _ => rfl
  files := .refl _
  rest := rfl

theorem Effect.refl (hf : Free own k.phys) (ht : Tables own k.phys.mem (.proc p) (k.proc p).pgdir)
    (hl : Lists own k p) (hlow : Low own k p) : Effect own k p own k where
  free := hf
  tables := ht
  lists := hl
  low := hlow
  touch := .refl
  keep := fun _ _ => rfl
  page := fun _ => .inl ⟨rfl, rfl⟩
  areas := fun _ _ _ => rfl
  self := rfl
  others := fun _ _ => rfl
  granted := fun _ _ => rfl
  files := .refl _
  rest := rfl

/-! ### `mmap` -/

section

variable {curr : VmaPtr} {c nx v : VmArea} {vma : Frame} {s : Phys} {k5 : Kernel}
  {start length prot flags fd r : Word} {fixed : Bool}

variable (k p s curr c vma v length fixed) in
theorem placed_rest : k.placed p s curr c vma v length fixed
    = { k with phys := s, vma := (k.placed p s curr c vma v length fixed).vma,
               proc := (k.placed p s curr c vma v length fixed).proc } := by
  unfold placed
  split
  · cases curr <;> rfl
  · cases curr <;> rfl

/-- An area that is neither new nor `curr` nor the head is not touched while placing. -/
theorem placed_other (hcurr : Mine own p curr) (hfree : own vma = .free) (hx : ¬ Mine own p x)
    (hxv : x ≠ .node vma) :
    (k.placed p s curr c vma v length fixed).deref x = k.deref x := by
  rcases deref_cases (k.placed p s curr c vma v length fixed) x with hw | ⟨u, hu⟩
  · rw [hw]
    cases x <;> cases hw
    rfl
  · rcases placed_deref (hcurr.ne_node hfree) hcurr.ne_null hu with
      ⟨h, -⟩ | ⟨rfl, -⟩ | ⟨rfl, -⟩ | ⟨-, h⟩
    · exact absurd h hxv
    · exact absurd rfl hx
    · exact absurd hcurr hx
    · rw [hu, h]

/-- Records other than the new one are not touched while pages are mapped. -/
theorem Paged.deref_ne {perm : Word} {lo hi : Nat} (w : Paged own k p vma start lo hi perm own' k')
    (hx : x ≠ .node vma) :
    k'.deref x = k.deref x := by
  obtain ⟨u, hu⟩ := w.record
  obtain ⟨b, hb⟩ := w.proc
  cases x with
  | null => rfl
  | head q =>
    by_cases hq : q = p
    · subst hq
      simp [Kernel.deref, hb]
    · simp [Kernel.deref, hb, hq]
  | tail q =>
    by_cases hq : q = p
    · subst hq
      simp [Kernel.deref, hb]
    · simp [Kernel.deref, hb, hq]
  | node f =>
    have hf : f ≠ vma := by
      rintro rfl
      exact hx rfl
    simp [Kernel.deref, hu, hf]

section

variable (w : Placing own k p curr c start length prot flags fd fixed vma s nx v own' k5 k')
include w

/-- Records before and after placing: one more. -/
theorem Placing.mine_iff (x : VmaPtr) : Mine own' p x ↔ x = .node vma ∨ Mine own p x := by
  rw [← mine_toRecord w.fresh x]
  cases x <;> simp [Mine, w.paged.record_iff]

/-- The areas after placing ask for flags only if they did before and the new one does. -/
theorem Placing.low (hlow : Low own k p) (hprot : prot.toNat < 4096) : Low own' k' p := by
  have hv : v.prot.toNat < 4096 := by
    rw [w.prot_eq]
    exact hprot
  intro x u hx hu
  by_cases hxv : x = .node vma
  · subst hxv
    obtain ⟨u0, hu0, hsame⟩ := w.same _ u hu
    cases w.node.symm.trans hu0
    refine .inl ?_
    rw [hsame.eq]
    exact hv
  · rcases w.others x hxv with hsame | ⟨-, u1, -, hlost⟩
    · -- an area that was there keeps its guard page
      rw [hsame] at hu
      obtain ⟨u0, hu0, heq⟩ := w.paged.deref hu
      have hu0low : u0.Low := by
        rcases w.cases hu0 with ⟨-, rfl⟩ | ⟨-, -, rfl⟩ | ⟨rfl, rfl⟩ | ⟨-, hold⟩
        · exact .inl hv
        · exact .inl hv
        · exact hlow x c w.mine w.deref
        · exact hlow x u0 (((w.mine_iff x).mp hx).resolve_left hxv) hold
      rw [heq]
      exact hu0low
    · -- or loses it
      rw [hlost] at hu
      cases hu
      refine .inr (.inr ?_)
      show MAX_ADDR.toNat ≤ (-1 : Word).toNat
      decide

/-- An area that is not of the process is not touched. -/
theorem Placing.areas (hx : ¬ Mine own p x) (hxv : x ≠ .node vma) :
    k'.deref x = k.deref x := by
  rcases w.others x hxv with hsame | ⟨hmine, -⟩
  · rw [hsame, w.paged.deref_ne hxv, placed_other w.mine w.fresh hx hxv]
  · exact absurd hmine hx

/-- The fields of a process but for its areas; only `p` may be killed. -/
theorem Placing.proc (q : Slot) :
    k'.proc q = { k.proc q with
        head := (k'.proc q).head, tail := (k'.proc q).tail, killed := (k'.proc q).killed }
      ∧ (q ≠ p → (k'.proc q).killed = (k.proc q).killed) := by
  obtain ⟨b, hb⟩ := w.paged.proc
  by_cases hq : q = p
  · subst hq
    refine ⟨?_, fun h => absurd rfl h⟩
    rw [w.guards.proc q, hb, update_self, placed_proc q]
  · have h5 : k5.proc q = (k.placed p s curr c vma v length fixed).proc q := by
      rw [hb, update_of_ne hq]
    refine ⟨?_, fun _ => ?_⟩
    · rw [w.guards.proc q, h5, placed_proc q]
    · rw [w.guards.proc q, h5, placed_proc q]

/-- The effect of placing an area with flags only. -/
theorem Placing.effect (hlow : Low own k p) (hprot : prot.toNat < 4096) :
    Effect own k p own' k' := by
  have hfree := w.fresh
  have hmem := (kalloc_some w.taken).2
  have hrest := placed_rest k p curr c v vma s length fixed
  have hneq : ∀ x, ¬ Mine own p x → (∀ f, x = .node f → own f ≠ .free) → x ≠ .node vma := by
    rintro x - hx rfl
    exact hx vma rfl hfree
  refine {
    free := by rw [w.guards.phys]; exact w.paged.free
    tables := ?_
    lists := w.lists
    low := w.low hlow hprot
    touch := ?_
    keep := ?_
    page := ?_
    areas := fun x hx hx' => w.areas hx (hneq x hx hx')
    self := (w.proc p).1
    others := ?_
    granted := ?_
    files := ?_
    rest := ?_ }
  · rw [w.guards.phys]
    have := w.paged.tables
    rwa [placed_proc] at this
  · rw [w.guards.phys]
    refine Touch.trans ?_ (w.paged.touch.mono (fun _ h => .inl h))
    rw [placed_phys, hmem]
    exact Touch.hand (.inl (by rw [hfree]; trivial)) (.inr rfl)
  · intro g hg
    have hgv : g ≠ vma := by
      rintro rfl
      exact hg hfree
    have hog : update own vma (Owner.record p) g = own g := update_of_ne hgv _ _
    rw [w.paged.keep g (by rw [hog]; exact hg), hog]
  · intro va
    rw [w.guards.translation, w.guards.granted]
    -- Pages of the new area, and all others.
    by_cases hin : start.toNat ≤ va.toNat ∧ va.toNat < max start.toNat (v.end_.toNat + 1)
    · obtain ⟨hnone, hcase⟩ := w.paged.inside va hin.1 hin.2
      rw [placed_trans w.taken] at hnone
      rcases hcase with ⟨-, htr, hgr⟩ | ⟨f, hf0, hown, htr, hgr⟩
      · refine .inl ⟨htr.trans hnone.symm, ?_⟩
        rw [hgr, hrest]
      · have hend := w.ok.end_lt
        have hva : va < KERNBASE := by
          show va.toNat < KERNBASE.toNat
          omega
        have hpte := frameOf_pte (f := f) hprot
        refine .inr ⟨hva, hnone, _, htr, ?_, ?_, ?_⟩
        · grind
        · rw [hpte]
          exact hown
        · rw [hpte]
          exact hgr
    · obtain ⟨htr, hgr⟩ := w.paged.outside va hin
      rw [placed_trans w.taken] at htr
      refine .inl ⟨htr, ?_⟩
      rw [hgr, hrest]
  · intro q hq
    obtain ⟨h1, h2⟩ := w.proc q
    refine proc_eq_of_areas h1 (h2 hq) ?_ ?_
    · exact w.areas hq (by simp)
    · exact w.areas hq (by simp)
  · intro q hq
    rw [w.guards.granted, w.paged.others q hq, hrest]
  · have h1 := w.paged.files
    rw [hrest] at h1
    rw [w.guards.rest]
    exact h1
  · rw [w.guards.rest, w.paged.rest, hrest]

end

end

/-- `mmap` either finds no place and changes nothing, or places an area at the start of a
    page, after one that the search comes to. -/
theorem sysMmap_path {addr prot fd r : Word} (hl : Lists own k p)
    (h : sysMmap L k p addr length prot flags fd = .ok (r, k')) :
    (r = -1 ∧ k' = k)
      ∨ ∃ l x c start fixed, Areas k (.head p) l x ∧ (∀ d u, (d, u) ∈ l → u.start ≠ MAX_ADDR)
          ∧ k.deref x = .ok c ∧ c.start ≠ MAX_ADDR ∧ start.toNat % 4096 = 0
          ∧ start.toNat ≤ KERNBASE.toNat
          ∧ k.mmapPlace L p (prevOf l x) x start length prot flags fd fixed = .ok (r, k') := by
  have hnull : ∀ {x c}, k.deref x = .ok c → x ≠ .null := by
    rintro x c hd rfl
    cases hd
  unfold sysMmap at h
  split at h
  · split at h
    · cases h
      exact .inl ⟨rfl, rfl⟩
    rename_i hargs
    rw [not_or, not_or, BitVec.not_lt, BitVec.not_le] at hargs
    obtain ⟨hal, -, hmax⟩ := hargs
    have hal' : addr.toNat % 4096 = 0 := by
      have := congrArg BitVec.toNat (not_not.mp hal)
      simpa [PGSIZE] using this
    rcases mmapFixedLoop_cases [] h with h | h | h | ⟨l, x, c, n, hp, hpass, hd, hs, -, -, -, -, h⟩
    · cases h
      exact .inl ⟨rfl, rfl⟩
    · cases h
    · cases h
    exact .inr ⟨l, x, c, addr, true, hp, fun d u hdu => (hpass d u hdu).start, hd, hs, hal',
      le_of_lt hmax, h.symm⟩
  · rcases mmapAnyLoop_cases [] h with h | h | h | ⟨l, x, c, hp, hpass, hd, hs, -, h⟩
    · cases h
      exact .inl ⟨rfl, rfl⟩
    · cases h
    · cases h
    have hstart := fun d u hdu => (hpass d u hdu).1
    have hx := (hl.path hp rfl (hnull hd) hstart).1
    obtain ⟨-, nx, hn⟩ := mmapPlace_taken hd (.inl h.symm)
    have hok := (hl.area x c hx hd hs (hnull hn)).1
    have hend := hok.toNat_end_add_one
    refine .inr ⟨l, x, c, c.end_ + 1, false, hp, hstart, hd, hs, ?_, ?_, h.symm⟩
    · rw [hend]
      exact hok.end_aligned
    · rw [hend]
      exact hok.end_lt

/-- The areas around the place are the process's own. -/
theorem sysMmap_cases {addr prot fd r : Word} (hl : Lists own k p)
    (h : sysMmap L k p addr length prot flags fd = .ok (r, k')) :
    (r = -1 ∧ k' = k)
      ∨ ∃ prev x c start fixed, Mine own p x ∧ Mine own p prev ∧ k.deref x = .ok c
          ∧ c.start ≠ MAX_ADDR ∧ start.toNat % 4096 = 0 ∧ start.toNat ≤ KERNBASE.toNat
          ∧ k.mmapPlace L p prev x start length prot flags fd fixed = .ok (r, k') := by
  rcases sysMmap_path hl h with h | ⟨l, x, c, start, fixed, hp, hstart, hd, hs, hal, hle, h⟩
  · exact .inl h
  · have hnull : x ≠ .null := by
      rintro rfl
      cases hd
    have hx := (hl.path hp rfl hnull hstart).1
    exact .inr ⟨_, x, c, start, fixed, hx, hl.prev hp hstart hx, hd, hs, hal, hle, h⟩

/-- The effect of `mmap`, whatever the length, if `prot` has flags only. -/
theorem sysMmap_effect {addr prot fd r : Word} (hf : Free own k.phys)
    (ht : Tables own k.phys.mem (.proc p) (k.proc p).pgdir) (hkern : k.trans p KERNBASE ≠ none)
    (hl : Lists own k p) (hlow : Low own k p) (hprot : prot.toNat < 4096)
    (h : sysMmap L k p addr length prot flags fd = .ok (r, k')) :
    ∃ own', Effect own k p own' k' := by
  rcases sysMmap_cases hl h with
    ⟨-, rfl⟩ | ⟨prev, x, c, start, fixed, hx, hprev, hd, hs, hal, hle, h⟩
  · exact ⟨own, .refl hf ht hl hlow⟩
  · obtain ⟨-, vma, s, nx, v, own', k5, -, w, -⟩ :=
      mmapPlace_ok hf ht hkern hl hx hprev hd hs hal hle (.inr hprot) h
    exact ⟨own', w.effect hlow hprot⟩

/-! ### Page faults -/

/-- The effect of growing an area that asks for flags only. -/
theorem Grown.effect {v next : VmArea} {f : Frame} {s' : Phys} (hlow : Low own k p)
    (w : Grown own k p x v next f own' s' k') : Effect own k p own' k' := by
  have hge := w.ge
  have hlt := w.lt
  have hprot : v.prot.toNat < 4096 := by
    rcases hlow x v w.mine w.deref with h | h | h
    · exact h
    · omega
    · omega
  refine {
    free := by rw [w.eq, setVma_phys]; exact w.page.free
    tables := by rw [w.eq, setVma_phys]; exact w.page.tables
    lists := w.lists
    low := ?_
    touch := by rw [w.eq, setVma_phys]; exact w.page.touch.mono (fun _ h => .inl h)
    keep := w.page.keep
    page := ?_
    areas := fun y hy _ => w.deref_ne (fun h => hy (h ▸ w.mine))
    self := ?_
    others := ?_
    granted := ?_
    files := ?_
    rest := ?_ }
  · intro y u hy hu
    by_cases hyx : y = x
    · subst hyx
      cases w.deref_self.symm.trans hu
      exact .inl (by simpa only [VmArea.growsUp] using hprot)
    · rw [w.deref_ne hyx] at hu
      exact hlow y u ((w.mine_iff y).mp hy) hu
  · intro va
    have hgr : k'.granted p (frameOf va)
        = if frameOf va = frameOf v.guardstart then some f else k.granted p (frameOf va) := by
      rw [w.eq, setVma_granted]
      simp [grant, update_apply]
    by_cases hin : frameOf va = frameOf v.guardstart
    · have hal := w.aligned
      have hpage := (frameOf_eq_iff hal va).mp hin
      have hkern := toNat_KERNBASE
      have hmax := toNat_MAX_ADDR
      have hva : va < KERNBASE := by
        show va.toNat < KERNBASE.toNat
        omega
      have hpte := frameOf_pte (f := f) hprot
      refine .inr ⟨hva, ?_, _, (w.translation va).trans (if_pos hin), ?_, ?_, ?_⟩
      · rw [trans_congr_page k p hin]
        exact w.page.before
      · rw [hpte]
        exact w.page.fresh
      · rw [hpte, hin]
        exact w.page.frame
      · rw [hpte, hgr, if_pos hin]
    · exact .inl ⟨(w.translation va).trans (if_neg hin), by rw [hgr, if_neg hin]⟩
  · rw [w.eq, setVma_proc]
    rfl
  · intro q hq
    have hne : ∀ y, (y = .head q ∨ y = .tail q) → y ≠ x := by
      rintro y hy rfl
      rcases hy with rfl | rfl <;> exact hq w.mine
    refine proc_eq_of_areas (b := (k.proc q).killed) ?_ rfl (w.deref_ne (hne _ (.inl rfl)))
      (w.deref_ne (hne _ (.inr rfl)))
    rw [w.eq, setVma_proc]
    rfl
  · intro q hq
    rw [w.eq, setVma_granted]
    simp [grant, hq]
  · rw [w.eq]
    cases x <;> exact .refl _
  · rw [w.eq]
    cases x <;> rfl

/-- The effect of a page fault. -/
theorem trapPgflt_effect {va : Word} (hf : Free own k.phys)
    (ht : Tables own k.phys.mem (.proc p) (k.proc p).pgdir) (hl : Lists own k p)
    (hlow : Low own k p) (h : trapPgflt L k p va = .ok k') : ∃ own', Effect own k p own' k' := by
  rcases trapPgflt_ok hf ht hl hl.walk (fun _ hx => hx) h with
    rfl | ⟨s', hs, rfl⟩ | ⟨x, v, next, f, own', s', -, -, w⟩
  · exact ⟨own, .refl hf ht hl hlow⟩
  · exact ⟨own, .nothing hs hl hlow⟩
  · exact ⟨own', w.effect hlow⟩

end Kernel

end Xv6
