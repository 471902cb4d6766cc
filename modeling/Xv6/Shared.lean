import Xv6.Inherit

namespace Xv6

open BitVec Option Outcome Run

/-!
# The pages a child has

`fork` maps every page of a shared area to the one frame whose address the record of the
area holds, and copies the pages of a private area one by one.

* `Backed own k p` — every record in a frame of its own holds the address of the first page
  of its area;
* `user_backed` — calls with positive lengths keep it so;
* `shared_pages_same` — a child has the same pages of a shared area as its parent, if the
  area has one page and is not recorded in the head;
* `private_pages_copied` — the pages of a private area are copies in frames of their own.
-/

namespace Kernel

variable {L : Link} {own own' : Frame → Owner} {k k' k0 : Kernel} {p np : Slot}
variable {f : Frame} {l : List (VmaPtr × VmArea)}

/-! ### What a record says about the first page -/

/-- What the records of a process say about its pages.  A record in a frame of its own
    names the frame of the first page of its area.  The head does not: if an area is recorded
    there, `pa` is what `kalloc` left in the record it was copied from. -/
structure Backed (own : Frame → Owner) (k : Kernel) (p : Slot) : Prop where
  first : ∀ f, own f = .record p → k.trans p (k.vma f).start
    = some (V2P (k.vma f).pa ||| ((k.vma f).prot ||| PTE_U) ||| PTE_P)
  flags : ∀ f, own f = .record p → (k.vma f).prot.toNat < 4096
  guard : (k.proc p).head.guardstart.toNat + 4095 < MIN_ADDR.toNat
    ∨ MAX_ADDR.toNat ≤ (k.proc p).head.guardstart.toNat
  head : (k.proc p).head.end_ < (k.proc p).head.start
    ∨ (k.proc p).head.pa = junk ∧ (k.proc p).head.prot.toNat < 4096

/-- The fields `Backed` is about. -/
def backing (v : VmArea) : Word × Word × Word := (v.start, v.pa, v.prot)

/-- A record that keeps these fields stays as it should be, if the pages are kept. -/
theorem Backed.of_backing (h : Backed own k p) (hf : own f = .record p)
    (hb : backing (k'.vma f) = backing (k.vma f))
    (hkeep : ∀ va pte, k.trans p va = some pte → k'.trans p va = some pte) :
    k'.trans p (k'.vma f).start = some (V2P (k'.vma f).pa ||| ((k'.vma f).prot ||| PTE_U) ||| PTE_P)
      ∧ (k'.vma f).prot.toNat < 4096 := by
  simp only [backing, Prod.mk.injEq] at hb
  obtain ⟨h1, h2, h3⟩ := hb
  rw [h1, h2, h3]
  exact ⟨hkeep _ _ (h.first f hf), h.flags f hf⟩

section

variable {curr : VmaPtr} {c nx v : VmArea} {vma : Frame} {s : Phys} {k5 : Kernel}
  {start length prot flags fd r : Word} {fixed : Bool}

variable (w : Placing own k p curr c start length prot flags fd fixed vma s nx v own' k5 k')
include w

/-- Placing an area leaves what the other records say about their first pages. -/
theorem Placing.backing_ne (hfv : f ≠ vma) : backing (k'.vma f) = backing (k.vma f) := by
  have hxv : VmaPtr.node f ≠ .node vma := by simpa using hfv
  have h5 : k5.deref (.node f) = .ok (k5.vma f) := rfl
  have hback5 : backing (k5.vma f) = backing (k.vma f) := by
    rw [w.paged.deref_ne hxv] at h5
    rcases w.cases h5 with ⟨h, -⟩ | ⟨h, -⟩ | ⟨rfl, hu⟩ | ⟨-, hold⟩
    · exact absurd h hxv
    · cases h
    · rw [hu, ok.inj w.deref]
      rfl
    · rw [← ok.inj hold]
  rcases w.others (.node f) hxv with hsame | ⟨-, u, hu, hlost⟩
  · rw [← hback5, ok.inj hsame]
  · rw [← hback5, ok.inj hlost, ok.inj hu]
    rfl

/-- The record of a new area that is not empty names its first page. -/
theorem Placing.backing_self (hpos : start.toNat < v.end_.toNat)
    (halive : (k'.proc p).killed = false) :
    k'.trans p (k'.vma vma).start
        = some (V2P (k'.vma vma).pa ||| ((k'.vma vma).prot ||| PTE_U) ||| PTE_P)
      ∧ (k'.vma vma).prot = prot := by
  obtain ⟨u0, hu0, hsame⟩ := w.same (.node vma) (k'.vma vma) rfl
  cases w.node.symm.trans hu0
  have hstart : (k'.vma vma).start = start := by rw [hsame.eq, w.new]; rfl
  have hprot : (k'.vma vma).prot = prot := by rw [hsame.eq, w.new]; rfl
  rw [w.guards.killed] at halive
  obtain ⟨-, ⟨hk, -⟩ | ⟨f, -, -, htr, hgr⟩⟩ := w.paged.inside start le_rfl (by omega)
  · rw [halive] at hk
    cases hk
  rcases w.paged.first le_rfl (by omega) with hk | ⟨g, hg, hpa⟩
  · rw [halive] at hk
    cases hk
  -- the frame that was granted is the one that is recorded
  cases hgr.symm.trans hg
  refine ⟨?_, hprot⟩
  rw [hstart, hprot, w.guards.pa, hpa, V2P_P2V, w.guards.translation, htr]

/-- The head stays, or becomes a copy of the new record as `kalloc` left it. -/
theorem Placing.head :
    ∃ u, (u = v ∨ u = (k.proc p).head
        ∨ u = { c with space_after := c.space_after - length, next := .node vma }
          ∧ c = (k.proc p).head)
      ∧ ((k'.proc p).head = u ∨ (k'.proc p).head = { u with guardstart := -1 }) := by
  have hxv : VmaPtr.head p ≠ .node vma := by simp
  have h5 : k5.deref (.head p) = .ok (k5.proc p).head := rfl
  refine ⟨(k5.proc p).head, ?_, ?_⟩
  · rw [w.paged.deref_ne hxv] at h5
    rcases w.cases h5 with ⟨h, -⟩ | ⟨-, -, hu⟩ | ⟨rfl, hu⟩ | ⟨-, hold⟩
    · cases h
    · exact .inl hu
    · exact .inr (.inr ⟨hu, (ok.inj w.deref).symm⟩)
    · exact .inr (.inl (ok.inj hold).symm)
  · rcases w.others (.head p) hxv with hsame | ⟨-, u, hu, hlost⟩
    · exact .inl (ok.inj hsame)
    · rw [ok.inj hlost, ← ok.inj hu]
      exact .inr rfl

/-- What `kalloc` leaves in a record. -/
theorem Placing.junk (hf : Free own k.phys) : v.pa = Xv6.junk ∧ v.guardstart = Xv6.junk := by
  obtain ⟨hl, hm⟩ := kalloc_some w.taken
  have hmem : vma ∈ k.phys.freelist := by simp [hl]
  rw [w.new]
  constructor
  · show s.mem vma 3 = _
    rw [hm]
    exact hf.filled vma hmem 3 (by decide)
  · show s.mem vma 4 = _
    rw [hm]
    exact hf.filled vma hmem 4 (by decide)

theorem Placing.backed (hf : Free own k.phys) (hpos : start.toNat < v.end_.toNat)
    (hprot : prot.toNat < 4096) (halive : (k'.proc p).killed = false)
    (heff : Effect own k p own' k') (h : Backed own k p) : Backed own' k' p := by
  have hrecord : ∀ f, own' f = .record p → k'.trans p (k'.vma f).start
        = some (V2P (k'.vma f).pa ||| ((k'.vma f).prot ||| PTE_U) ||| PTE_P)
      ∧ (k'.vma f).prot.toNat < 4096 := by
    intro f hfo
    by_cases hfv : f = vma
    · simp_all [w.backing_self]
    · have hold : own f = .record p := by
        rcases (w.mine_iff (.node f)).mp hfo with hx | hx
        · exact absurd (by simpa using hx) hfv
        · exact hx
      exact h.of_backing hold (w.backing_ne hfv) fun va => (heff.keeps va).1
  obtain ⟨hpa, hguard⟩ := w.junk hf
  have hvprot := w.prot_eq
  obtain ⟨u, hu, hhead⟩ := w.head
  have hug : u.guardstart.toNat + 4095 < MIN_ADDR.toNat ∨ MAX_ADDR.toNat ≤ u.guardstart.toNat := by
    rcases hu with rfl | rfl | ⟨rfl, rfl⟩
    · rw [hguard]
      decide
    · exact h.guard
    · exact h.guard
  have huh : u.end_ < u.start ∨ u.pa = Xv6.junk ∧ u.prot.toNat < 4096 := by grind [h.head]
  refine ⟨fun f hf => (hrecord f hf).1, fun f hf => (hrecord f hf).2, ?_, ?_⟩
  · rcases hhead with hh | hh <;> rw [hh]
    · exact hug
    · exact .inr (show MAX_ADDR.toNat ≤ (-1 : Word).toNat by decide)
  · rcases hhead with hh | hh <;> rw [hh] <;> exact huh

end

/-- `mmap` keeps it. -/
theorem sysMmap_backed {addr length prot flags fd r : Word} (h : Intact own k p)
    (hb : Backed own k p) (hlen : 0 < length.toInt) (hprot : prot.toNat < 4096)
    (hm : sysMmap L k p addr length prot flags fd = .ok (r, k')) :
    ∃ own', Intact own' k' p ∧ ((k'.proc p).killed = false → Backed own' k' p) := by
  rcases sysMmap_cases h.lists hm with
    ⟨-, rfl⟩ | ⟨prev, x, c, start, fixed, hx, hprev, hd, hs, hal, hle, hplace⟩
  · exact ⟨own, h, fun _ => hb⟩
  · obtain ⟨-, vma, s, nx, v, own', k5, -, w, -⟩ :=
      mmapPlace_ok h.free h.tables h.kern h.lists hx hprev hd hs hal hle (.inr hprot) hplace
    have heff := w.effect h.low hprot
    have hpos : start.toNat < v.end_.toNat := by
      have hbelow := w.below
      rw [w.end_eq] at hbelow ⊢
      exact (newEnd hal hle hlen hbelow).1
    exact ⟨own', heff.intact h, fun halive => w.backed h.free hpos hprot halive heff hb⟩

/-- A fault that grows an area leaves its first page where it is. -/
theorem trapPgflt_backed {va : Word} (h : Intact own k p) (hb : Backed own k p)
    (ht : trapPgflt L k p va = .ok k') :
    ∃ own', Intact own' k' p ∧ ((k'.proc p).killed = false → Backed own' k' p) := by
  rcases trapPgflt_ok h.free h.tables h.lists h.lists.walk (fun _ hx => hx) ht with
    rfl | ⟨s', hs, rfl⟩ | ⟨x, v, next, f, own', s', -, -, w⟩
  · exact ⟨own, h, fun _ => hb⟩
  · refine ⟨own, (Effect.nothing hs h.lists h.low).intact h, ?_⟩
    intro halive
    simp [kill] at halive
  · have heff := w.effect h.low
    refine ⟨own', heff.intact h, fun _ => ?_⟩
    have hback : ∀ g, backing (k'.vma g) = backing (k.vma g) := by
      intro g
      by_cases hgx : .node g = x
      · subst hgx
        rw [ok.inj w.deref_self, ok.inj w.deref]
        simp only [VmArea.growsUp, backing]
      · rw [ok.inj (w.deref_ne hgx)]
    -- the head has no guard page where a fault could hit it
    have hxh : .head p ≠ x := by
      rintro rfl
      have hv : (k.proc p).head = v := ok.inj w.deref
      have hge := w.ge
      have hlt := w.lt
      rw [← hv] at hge hlt
      rcases hb.guard with hg | hg <;> omega
    have hhead : (k'.proc p).head = (k.proc p).head := ok.inj (w.deref_ne hxh)
    have hrecord := fun g (hg : own' g = .record p) =>
      hb.of_backing ((w.page.record_iff g).mp hg) (hback g) fun va => (heff.keeps va).1
    exact ⟨fun g hg => (hrecord g hg).1, fun g hg => (hrecord g hg).2,
      by rw [hhead]; exact hb.guard,
      by rw [hhead]; exact hb.head⟩

/-! ### Runs -/

/-- An `mmap` of positive length and with flags only in `prot`, or a fault. -/
def AreaCall (p : Slot) (k : Kernel) (c : Call) : Prop := PositiveCall p k c ∧ FlagsCall p k c

/-- What holds of a process that has made only such calls. -/
structure Mapper (own : Frame → Owner) (k : Kernel) (p : Slot) : Prop where
  intact : Intact own k p
  tidy : Tidy k p
  backed : (k.proc p).killed = false → Backed own k p

/-- Every call keeps it. -/
theorem user_backed {c : Call} (h : Mapper own k p) (hc : AreaCall p k c)
    (hr : user L p k c = .ok k') : ∃ own', Mapper own' k' p := by
  have htidy := user_tidy h.tidy hc.1 hr
  unfold user at hr
  split at hr
  · cases hr
  rename_i halive
  have hb := h.backed (by simpa using halive)
  cases c with
  | mmap addr length prot flags fd =>
    obtain ⟨⟨r, k1⟩, hm, hr⟩ := bind_eq_ok.mp hr
    cases hr
    obtain ⟨own', hi, hb'⟩ := sysMmap_backed h.intact hb hc.1.1 hc.2.1 hm
    exact ⟨own', hi, htidy, hb'⟩
  | munmap addr length => exact hc.1.elim
  | fault va =>
    obtain ⟨own', hi, hb'⟩ := trapPgflt_backed h.intact hb hr
    exact ⟨own', hi, htidy, hb'⟩
  | sbrk n => exact hc.1.elim

/-- After `exec`. -/
theorem Execed.mapper (h : Execed own k p) : Mapper own k p where
  intact := h.intact
  tidy := h.tidy
  backed := by
    intro _
    refine ⟨fun f hf => absurd hf (h.records f), fun f hf => absurd hf (h.records f), ?_, .inl ?_⟩
    · rcases h.head_guard with hg | hg <;> rw [hg] <;> decide
    · rw [h.head_start, h.head_end]
      decide

/-- Over the run. -/
theorem mapper_of_reach (h0 : Execed own k0 p) (hr : Reach (user L p) (AreaCall p) k0 k) :
    ∃ own', Mapper own' k p :=
  hr.invariant (I := fun k => ∃ own, Mapper own k p) ⟨own, h0.mapper⟩
    (fun _ _ _ ⟨_, h1⟩ hc h2 => user_backed h1 hc h2)

/-- The records on the list, but for the head, are in frames of their own. -/
theorem Mapper.node (h : Mapper own k p) (hv : Visits k (.head p) l) {x : VmaPtr} {c : VmArea}
    (hc : (x, c) ∈ l) (hx : x ≠ .head p) :
    c.Ok ∧ ∃ f, x = .node f ∧ own f = .record p ∧ k.vma f = c := by
  obtain ⟨hmine, hd, hok⟩ := hv.ok h.intact.lists (show Mine own p (.head p) from rfl) x c hc
  refine ⟨hok, ?_⟩
  cases x with
  | null => cases hmine
  | head q =>
    cases hmine
    exact absurd rfl hx
  | tail q =>
    -- the tail marks the end
    cases hmine
    obtain ⟨own1, l1, hs, -⟩ := h.tidy
    have hstart := hs.ordered.tail
    cases hd
    have hne := hv.start_ne hc
    exact absurd hstart hne
  | node f => exact ⟨f, rfl, hmine, ok.inj hd⟩

/-- What `fork` has done for a parent that has made only such calls, if the child is not
    killed or there were frames enough. -/
theorem Mapper.forked (h : Mapper own k p) (hrun : (k.proc p).state = .RUNNING)
    (hf : fork L k p = .ok (some np, k')) (hv : Visits k (.head p) l)
    (hsafe : (k'.proc np).killed = false ∨ EnoughFrames k p l) :
    Forkable (· < KERNBASE) own k p np ∧ ∃ own', Forked (· < KERNBASE) own k p np l own' k' := by
  obtain ⟨-, -, -, -, -, -, hunused, -⟩ := fork_some hf
  have hne : p ≠ np := by
    rintro rfl
    rw [unused_state hunused] at hrun
    cases hrun
  have hp := h.intact.forkable hne
  obtain ⟨l', own', w⟩ := fork_ok hp hf (fun _ hv' => .inr (hv'.unique hv ▸ hsafe))
  rw [w.visits.unique hv] at w
  exact ⟨hp, own', w⟩

/-! ### The machine with one process can fork -/

/-- What a run of the machine with one process has to leave for `fork` to succeed; `as` are
    the areas. -/
def CanFork (k : Kernel) (as : List VmArea) : Prop :=
  (k.proc 0).killed = false ∧ (k.proc 0).state = .RUNNING ∧ k.unused = some 1
    ∧ (k.proc 1).killed = false ∧ (k.proc 0).sz = 0x3000
    ∧ (k.trans 0 0 ≠ none ∧ k.trans 0 0x1000 ≠ none ∧ k.trans 0 0x2000 ≠ none)
    ∧ (∀ fd, ∀ i ∈ (k.proc 0).ofile fd, 1 ≤ (k.file i).ref)
    ∧ 1029 + (as.map (fun v => (v.end_.toNat + 1 - v.start.toNat) / 4096)).sum
        ≤ k.phys.freelist.length

instance (k : Kernel) (as : List VmArea) : Decidable (CanFork k as) :=
  inferInstanceAs (Decidable (_ ∧ _ ∧ _ ∧ _ ∧ _ ∧ _ ∧ _ ∧ _))

theorem Tidy.fork_total {n : Nat} {as : List VmArea} (h : Tidy k 0) (has : k.areas 0 n = some as)
    (hlen : as.length < loopBound) (hc : CanFork k as) :
    ∃ l k', Visits k (.head 0) l ∧ l.map Prod.snd = as
      ∧ (∃ own, Forkable (fun _ => False) own k 0 1)
      ∧ fork startLink k 0 = .ok (some 1, k') ∧ (k'.proc 1).killed = false
      ∧ EnoughFrames k 0 l := by
  obtain ⟨halive, -, hunused, hkilled, hsz, himage, hopen, henough⟩ := hc
  obtain ⟨own, l, hs, -⟩ := h
  have hl : l.map Prod.snd = as := areas_unique hs.ordered.areas has
  have hp : Forkable (fun _ => False) own k 0 1 :=
    ⟨by decide, hs.free, hs.tables, fun _ _ h => h.elim, hs.lists, by rw [hsz]; decide⟩
  have hframes : EnoughFrames k 0 l := by
    rw [← hl, List.map_map] at henough
    rw [EnoughFrames, hsz]
    exact henough
  obtain ⟨k', hk', hkill⟩ := hs.ordered.fork_total (L := startLink) (hs.present halive) hp hunused
    (by rw [← List.length_map Prod.snd, hl]; exact hlen) (by rw [hsz]; decide)
    (fun va hva => by
      rw [hsz] at hva
      have hva' : va.toNat < 0x3000 := hva
      have hfr := toNat_frameOf va
      have hcase :
          frameOf va = frameOf 0 ∨ frameOf va = frameOf 0x1000 ∨ frameOf va = frameOf 0x2000 := by
        have h3 : (frameOf va).toNat = 0 ∨ (frameOf va).toNat = 1
          ∨ (frameOf va).toNat = 2 := by omega
        exact h3.imp (eq_of_toNat_eq ·) (Or.imp (eq_of_toNat_eq ·) (eq_of_toNat_eq ·))
      rcases hcase with heq | heq | heq <;> rw [trans_congr_page k 0 heq]
      · exact himage.1
      · exact himage.2.1
      · exact himage.2.2)
    hopen hframes
  exact ⟨l, k', hs.ordered.visits, hl, ⟨own, hp⟩, hk', by rw [hkill, hkilled], hframes⟩

/-! ### Shared areas -/

/-- A child has the same page of a shared area as its parent, with the same permissions, if
    the area has one page and a record of its own and there were frames enough for the child. -/
theorem shared_pages_same {l : List (VmaPtr × VmArea)} {x : VmaPtr} {c : VmArea}
    (h0 : Execed own k0 p) (hr : Reach (user L p) (AreaCall p) k0 k)
    (hrun : (k.proc p).state = .RUNNING) (halive : (k.proc p).killed = false)
    (hf : fork L k p = .ok (some np, k')) (hv : Visits k (.head p) l)
    (henough : EnoughFrames k p l) (hc : (x, c) ∈ l) (hs : c.flags &&& MAP_SHARED ≠ 0#32)
    (hx : x ≠ .head p) (hone : c.end_.toNat < c.start.toNat + 4096) (va : Word)
    (h1 : c.start ≤ va) (h2 : va ≤ c.end_) :
    ∃ pte, k.trans p va = some pte ∧ k'.trans p va = some pte ∧ k'.trans np va = some pte := by
  obtain ⟨own1, hm⟩ := mapper_of_reach h0 hr
  obtain ⟨hp, own', w⟩ := hm.forked hrun hf hv (.inr henough)
  obtain ⟨hok, f, rfl, hfo, hrec⟩ := hm.node hv hc hx
  have hpage := w.pages (.inr henough) _ c hc (.inl hs) va h1 h2
  rw [AreaPage, if_pos hs] at hpage
  -- the parent has at `va` what it has at the start of the area
  have hsame : frameOf va = frameOf c.start := by
    have h1' : c.start.toNat ≤ va.toNat := h1
    have h2' : va.toNat ≤ c.end_.toNat := h2
    rw [frameOf_eq_iff hok.start_aligned]
    omega
  have htr : k.trans p va = some (V2P c.pa ||| (c.prot ||| PTE_U) ||| PTE_P) := by
    rw [trans_congr_page k p hsame, ← hrec]
    exact (hm.backed halive).first f hfo
  exact ⟨_, htr, by rw [(w.parent hp).1, htr], hpage.1⟩

/-- A page that is mapped shared, and a child that has it. -/
theorem shared_page_same : ∃ k k',
    user startLink 0 (start 0x800) (.mmap 0x60002000 0x1000 3 0xE 0) = .ok k
      ∧ fork startLink k 0 = .ok (some 1, k')
      ∧ ∃ pte, k.trans 0 0x60002000 = some pte ∧ k'.trans 0 0x60002000 = some pte
        ∧ k'.trans 1 0x60002000 = some pte := by
  obtain ⟨k, hk, h⟩ := Outcome.holds_iff.mp (show
    (user startLink 0 (start 0x800) (.mmap 0x60002000 0x1000 3 0xE 0)).holds (fun k =>
      ∃ as ∈ k.areas 0 3, CanFork k as ∧ as.length < loopBound
        ∧ (k.proc 0).head.start ≠ 0x60002000#32
        ∧ ∃ c ∈ as, c.flags &&& MAP_SHARED ≠ 0#32 ∧ c.start = 0x60002000#32
          ∧ c.end_ = 0x60002FFF#32) = true by decide +kernel)
  obtain ⟨as, has, hfork, hlen, hhead, c, hc, hs, hstart, hend⟩ := of_decide_eq_true h
  have hcall : AreaCall 0 (start 0x800) (.mmap 0x60002000 0x1000 3 0xE 0) :=
    ⟨⟨by decide, by decide +kernel, fun h => absurd h (by decide)⟩,
      by decide, by decide +kernel, fun h => absurd h (by decide)⟩
  have h0 := start_execed (n := 0x800) le_rfl
  have hr : Reach (user startLink 0) (AreaCall 0) (start 0x800) k := Reach.refl.tail hcall hk
  obtain ⟨own, hm⟩ := mapper_of_reach h0 hr
  obtain ⟨l, k', hv, hl, -, hk', -, henough⟩ := hm.tidy.fork_total has hlen hfork
  rw [← hl] at hc
  obtain ⟨⟨x, c'⟩, hx, rfl⟩ := List.mem_map.mp hc
  refine ⟨k, k', hk, hk', shared_pages_same h0 hr hfork.2.1 hfork.1 hk' hv henough hx hs ?_
    (by rw [hstart, hend]; decide) 0x60002000 (by rw [hstart]; decide) (by rw [hend]; decide)⟩
  rintro rfl
  obtain ⟨-, hd, -⟩ := hv.ok hm.intact.lists (show Mine own 0 (.head 0) from rfl) _ c' hx
  rw [← Outcome.ok.inj hd] at hstart
  exact hhead hstart

/-- Of two pages that are mapped shared, a child has the first one twice. -/
theorem shared_page_differs : Execed (startOwn 0x800) (start 0x800) 0
    ∧ ∃ k k' l x c, Reach (user startLink 0) (fun _ c => c.onAreas) (start 0x800) k
      ∧ fork startLink k 0 = .ok (some 1, k') ∧ (k'.proc 1).killed = false
      ∧ Visits k (.head 0) l ∧ (x, c) ∈ l ∧ c.flags &&& MAP_SHARED ≠ 0#32
      ∧ c.start ≤ 0x60003000#32 ∧ 0x60003000#32 ≤ c.end_
      ∧ k'.trans 0 0x60003000 = some 0x1003007#32 ∧ k'.trans 1 0x60003000 = some 0x1001007#32 := by
  have h0 := start_execed (n := 0x800) le_rfl
  refine ⟨h0, ?_⟩
  obtain ⟨k, hk, h⟩ := Outcome.holds_iff.mp (show
    (user startLink 0 (start 0x800) (.mmap 0x60002000 0x2000 3 0xE 0)).holds (fun k =>
      ∃ as ∈ k.areas 0 3, CanFork k as ∧ as.length < loopBound
        ∧ k.trans 0 0x60003000 = some 0x1003007#32
        ∧ ∃ c ∈ as, c.flags &&& MAP_SHARED ≠ 0#32 ∧ c.start ≤ 0x60003000#32
          ∧ 0x60003000#32 ≤ c.end_ ∧ V2P c.pa ||| (c.prot ||| PTE_U) ||| PTE_P = 0x1001007#32)
      = true by decide +kernel)
  obtain ⟨as, has, hfork, hlen, hparent, c, hc, hs, h1, h2, hpa⟩ := of_decide_eq_true h
  have hcall : AreaCall 0 (start 0x800) (.mmap 0x60002000 0x2000 3 0xE 0) :=
    ⟨⟨by decide, by decide +kernel, fun h => absurd h (by decide)⟩,
      by decide, by decide +kernel, fun h => absurd h (by decide)⟩
  obtain ⟨own, hm⟩ := mapper_of_reach h0 (Reach.refl.tail hcall hk)
  obtain ⟨l, k', hv, hl, -, hk', hchild, -⟩ := hm.tidy.fork_total has hlen hfork
  rw [← hl] at hc
  obtain ⟨⟨x, c'⟩, hx, rfl⟩ := List.mem_map.mp hc
  obtain ⟨hp, own', w⟩ := hm.forked hfork.2.1 hk' hv (.inl hchild)
  have hpage := w.pages (.inl hchild) x c' hx (.inl hs) 0x60003000 h1 h2
  rw [AreaPage, if_pos hs, hpa] at hpage
  refine ⟨k, k', l, x, c', Reach.refl.tail rfl hk, hk', hchild, hv, hx, hs, h1, h2, ?_, hpage.1⟩
  rw [(w.parent hp).1, hparent]

/-! ### Private areas -/

/-- The frames of the child's other pages are not `f`, which was free before and is now the
    frame of the page of `va`. -/
theorem Mapper.child_frame_ne (h : Mapper own k p) (halive : (k.proc p).killed = false)
    (w : Forked (· < KERNBASE) own k p np l own' k') {va va' pte : Word} (hfree : own f = .free)
    (hbound : f.toNat < PHYSTOP.toNat / 4096) (hown : own' f = .page (.proc np) (frameOf va))
    (hva : va' < KERNBASE) (hne : frameOf va' ≠ frameOf va) (hpte : k'.trans np va' = some pte) :
    frameOf pte ≠ f := by
  have hb := h.backed halive
  -- a frame the child got at another page has another owner
  have hfresh : ∀ {g : Frame} {x : Idx → Word} {perm : Word}, (perm ||| PTE_P).toNat < 4096 →
      Fresh own (.proc np) (k'.proc np).pgdir va' g x perm own' k'.phys → frameOf pte ≠ f := by
    intro g x perm hperm hg heq
    rw [Kernel.trans, hg.trans] at hpte
    obtain rfl := some.inj hpte
    rw [BitVec.or_assoc, frameOf_base_or hperm] at heq
    have := hg.owner
    rw [heq, hown] at this
    exact hne (by simpa using this.symm)
  rcases w.new va' pte hva hpte with himage | ⟨y, c, hc, h1, h2, hpage⟩
  · obtain ⟨pte0, g, x, -, hg, -⟩ := w.image va' himage
    exact hfresh (PTE_FLAGS_lt pte0) hg
  -- the flags of the area
  have hflags : c.prot.toNat < 4096 ∧ (y = .head p → c.pa = junk)
      ∧ (y ≠ .head p → k.trans p c.start = some (V2P c.pa ||| (c.prot ||| PTE_U) ||| PTE_P)) := by
    by_cases hy : y = .head p
    · subst hy
      obtain ⟨-, hd, -⟩ := w.visits.ok h.intact.lists (show Mine own p (.head p) from rfl) _ c hc
      have hhead : (k.proc p).head = c := ok.inj hd
      have hle : c.start.toNat ≤ c.end_.toNat := Nat.le_trans h1 h2
      have hpa := hb.head
      rw [hhead] at hpa
      rcases hpa with hempty | ⟨hpa, hprot⟩
      · have hempty' : c.end_.toNat < c.start.toNat := hempty
        omega
      · exact ⟨hprot, fun _ => hpa, fun hy => absurd rfl hy⟩
    · obtain ⟨-, g, rfl, hgo, hrec⟩ := h.node w.visits hc hy
      have h3 := hb.flags g hgo
      have h4 := hb.first g hgo
      rw [hrec] at h3 h4
      exact ⟨h3, fun h => absurd h hy, fun _ => h4⟩
  obtain ⟨hprot, hhead, hnode⟩ := hflags
  unfold AreaPage at hpage
  split at hpage
  · obtain rfl := some.inj (hpte.symm.trans hpage.1)
    by_cases hy : y = .head p
    · -- a page that does not exist
      rw [hhead hy]
      have hframe : frameOf (V2P junk ||| (c.prot ||| PTE_U) ||| PTE_P) = 0x81010#20 := by
        have hjunk : V2P junk = base 0x81010#20 ||| 0x101#32 := by decide
        have hlow := perm_lt hprot
        rw [hjunk, BitVec.or_assoc, BitVec.or_assoc]
        refine frameOf_base_or ?_
        rw [toNat_or]
        exact Nat.or_lt_two_pow (n := 12) (by decide) hlow
      rw [hframe]
      rintro rfl
      exact absurd hbound (by decide)
    · -- a page of the parent
      intro heq
      have hok := (w.visits.ok h.intact.lists (show Mine own p (.head p) from rfl) _ c hc).2.2
      have hlt : c.start < KERNBASE := Nat.lt_of_le_of_lt (Nat.le_trans h1 h2) hok.end_lt
      have hp := h.intact.pages c.start _ hlt (hnode hy)
      rw [heq, hfree] at hp
      cases hp
  · obtain ⟨g, x, hg, -, -⟩ := hpage
    exact hfresh (perm_lt hprot) hg

/-- The page of `va`, in the area `c`, was copied for the child `np`: it is there with the
    protection of the area and the contents it had in the parent, in a frame that neither the
    parent nor, at another page, the child has. -/
def PrivateCopy (k : Kernel) (p np : Slot) (c : VmArea) (va : Word) (k' : Kernel) : Prop :=
  ∃ f pte, k'.trans np va = some (base f ||| (c.prot ||| PTE_U) ||| PTE_P)
    ∧ k.trans p va = some pte ∧ k'.phys.mem f = k.phys.mem (frameOf pte)
    ∧ (∀ va' pte', va' < KERNBASE → k'.trans p va' = some pte' → frameOf pte' ≠ f)
    ∧ ∀ va' pte', va' < KERNBASE → frameOf va' ≠ frameOf va → k'.trans np va' = some pte' →
        frameOf pte' ≠ f

/-- The parent has the same pages as before, with the same contents. -/
def ParentKept (k : Kernel) (p : Slot) (k' : Kernel) : Prop :=
  ∀ va : Word, k'.trans p va = k.trans p va
    ∧ ∀ pte, va < KERNBASE → k.trans p va = some pte →
        k'.phys.mem (frameOf pte) = k.phys.mem (frameOf pte)

/-- A child has copies of its own of the pages of private areas, and the parent keeps what
    it has. -/
theorem private_pages_copied {l : List (VmaPtr × VmArea)} (h0 : Execed own k0 p)
    (hr : Reach (user L p) (AreaCall p) k0 k) (hrun : (k.proc p).state = .RUNNING)
    (halive : (k.proc p).killed = false) (hf : fork L k p = .ok (some np, k'))
    (hchild : (k'.proc np).killed = false) (hv : Visits k (.head p) l) :
    (∀ x c, (x, c) ∈ l → c.flags &&& MAP_PRIVATE ≠ 0#32 → c.flags &&& MAP_SHARED = 0#32 →
      ∀ va : Word, c.start ≤ va → va ≤ c.end_ → PrivateCopy k p np c va k')
      ∧ ParentKept k p k' := by
  obtain ⟨own1, hm⟩ := mapper_of_reach h0 hr
  obtain ⟨hp, own', w⟩ := hm.forked hrun hf hv (.inl hchild)
  obtain ⟨htr, hmem⟩ := w.parent hp
  refine ⟨fun x c hc hpriv hshared va h1 h2 => ?_, fun va => ⟨htr va, fun pte => hmem va pte⟩⟩
  have hpage := w.pages (.inl hchild) x c hc (.inr hpriv) va h1 h2
  rw [AreaPage, if_neg (not_not.mpr hshared)] at hpage
  obtain ⟨f, content, hfresh, hcopy, -⟩ := hpage
  obtain ⟨-, -, hok⟩ := hv.ok hm.intact.lists (show Mine own1 p (.head p) from rfl) x c hc
  have hva : va < KERNBASE := Nat.lt_of_le_of_lt h2 hok.end_lt
  -- the page is there in the parent
  obtain ⟨own2, l2, hs, -⟩ := hm.tidy
  obtain rfl := hs.ordered.visits.unique hv
  obtain ⟨pte, hpte⟩ := Option.ne_none_iff_exists'.mp (hs.present halive x c hc va h1 h2)
  refine ⟨f, pte, hfresh.trans, hpte, by rw [hfresh.content, hcopy hva pte hpte], ?_, ?_⟩
  · intro va' pte' hva' hpte' heq
    rw [htr] at hpte'
    have hown := hm.intact.pages va' pte' hva' hpte'
    rw [heq, hfresh.free] at hown
    cases hown
  · intro va' pte' hva' hne hpte'
    exact hm.child_frame_ne halive w hfresh.free hfresh.bound hfresh.owner hva' hne hpte'

/-- A private page, and the copy a child has of it. -/
theorem private_page_copied : ∃ k k',
    user startLink 0 (start 0x800) (.mmap 0x60002000 0x1000 3 0xD 0) = .ok k
      ∧ fork startLink k 0 = .ok (some 1, k')
      ∧ (∃ c : VmArea, c.prot = 3 ∧ PrivateCopy k 0 1 c 0x60002000 k') ∧ ParentKept k 0 k' := by
  obtain ⟨k, hk, h⟩ := Outcome.holds_iff.mp (show
    (user startLink 0 (start 0x800) (.mmap 0x60002000 0x1000 3 0xD 0)).holds (fun k =>
      ∃ as ∈ k.areas 0 3, CanFork k as ∧ as.length < loopBound
        ∧ ∃ c ∈ as, c.flags &&& MAP_PRIVATE ≠ 0#32 ∧ c.flags &&& MAP_SHARED = 0#32
          ∧ c.start ≤ 0x60002000#32 ∧ 0x60002000#32 ≤ c.end_ ∧ c.prot = 3) = true by decide +kernel)
  obtain ⟨as, has, hfork, hlen, c, hc, hpriv, hs, h1, h2, hprot⟩ := of_decide_eq_true h
  have hcall : AreaCall 0 (start 0x800) (.mmap 0x60002000 0x1000 3 0xD 0) :=
    ⟨⟨by decide, by decide +kernel, fun h => absurd h (by decide)⟩,
      by decide, by decide +kernel, fun h => absurd h (by decide)⟩
  have h0 := start_execed (n := 0x800) le_rfl
  have hr : Reach (user startLink 0) (AreaCall 0) (start 0x800) k := Reach.refl.tail hcall hk
  obtain ⟨own, hm⟩ := mapper_of_reach h0 hr
  obtain ⟨l, k', hv, hl, -, hk', hchild, -⟩ := hm.tidy.fork_total has hlen hfork
  rw [← hl] at hc
  obtain ⟨⟨x, c'⟩, hx, rfl⟩ := List.mem_map.mp hc
  obtain ⟨hcopy, hkept⟩ := private_pages_copied h0 hr hfork.2.1 hfork.1 hk' hchild hv
  exact ⟨k, k', hk, hk', ⟨c', hprot, hcopy x c' hx hpriv hs _ h1 h2⟩, hkept⟩

/-- The directory of a child is the second frame of the free list. -/
theorem fork_pgdir {d : Frame} {fs : List Frame} (hne : p ≠ np) (h : fork L k p = .ok (some np, k'))
    (hl : k.phys.freelist = f :: d :: fs) :
    (k'.proc np).pgdir = d := by
  obtain ⟨g, s1, e, s2, k3, k4, -, hk, hcopy, hfiles, hareas, rfl⟩ := fork_some h
  have hs1 : s1.freelist = d :: fs := by
    have := (kalloc_some hk).1
    rw [hl] at this
    exact (List.cons.inj this).2.symm
  -- the directory comes from `setupkvm`
  have he : e = d := by
    obtain ⟨⟨o, s3⟩, hset, hrest⟩ := bind_eq_ok.mp hcopy
    unfold setupkvm at hset
    rw [kalloc_cons hs1] at hset
    obtain ⟨⟨mapped, s4⟩, -, hend⟩ := bind_eq_ok.mp hset
    cases mapped with
    | false =>
      cases hend
      cases hrest
    | true =>
      cases hend
      obtain ⟨⟨copied, s5⟩, -, hend⟩ := bind_eq_ok.mp hrest
      cases copied with
      | false =>
        obtain ⟨s6, -, hend⟩ := bind_eq_ok.mp hend
        cases hend
      | true =>
        cases hend
        rfl
  have wf := forkFiles_ok hne hfiles
  rw [setProc_self, (forkAreas_only hareas).pgdir np, wf.proc, Function.update_self, ← he]
  simp [adopted]

/-- The high bits of `prot` give the parent a frame that is free; `fork` takes it for the
    directory of the child. -/
theorem parent_page_overwritten : Execed (startOwn 0x800) (start 0x800) 0
    ∧ ∃ k k' l x c, Reach (user startLink 0) (fun _ c => c.onAreas) (start 0x800) k
      ∧ fork startLink k 0 = .ok (some 1, k') ∧ (k'.proc 1).killed = false
      ∧ Visits k (.head 0) l ∧ (x, c) ∈ l ∧ c.flags &&& MAP_PRIVATE ≠ 0#32
      ∧ c.flags &&& MAP_SHARED = 0#32 ∧ c.prot = 3 ∧ c.start ≤ c.end_
      ∧ ¬ ParentKept k 0 k' := by
  have h0 := start_execed (n := 0x800) le_rfl
  refine ⟨h0, ?_⟩
  obtain ⟨k1, hk1, h⟩ := Outcome.holds_iff.mp (show
    (user startLink 0 (start 0x800) (.mmap 0x60002000 0x1000 3 0xD 0)).holds (fun k1 =>
      k1.phys.freelist ≠ [] ∧ (user startLink 0 k1 (.mmap 0x60003000 0x1000 0x2003 0xC 0)).holds
        (fun k => ∃ as ∈ k.areas 0 4, CanFork k as ∧ as.length < loopBound
          ∧ k.trans 0 0x60003000 = some 0x1006007#32 ∧ k.phys.freelist.take 2 = [0x1005, 0x1006]
          ∧ k.phys.mem 0x1006 512 = junk ∧ k.phys.mem 0x1006 513 = junk
          ∧ ∃ c ∈ as, c.flags &&& MAP_PRIVATE ≠ 0#32 ∧ c.flags &&& MAP_SHARED = 0#32
            ∧ c.prot = 3 ∧ c.start ≤ c.end_)) = true by decide +kernel)
  obtain ⟨hrec, h⟩ := of_decide_eq_true h
  obtain ⟨k, hk, h⟩ := Outcome.holds_iff.mp h
  obtain ⟨as, has, hfork, hlen, htr, hlist, hj1, hj2, c, hc, hpriv, hs, hprot, hle⟩ :=
    of_decide_eq_true h
  have htidy : Tidy k 0 := by
    have htidy1 := user_tidy h0.tidy (c := .mmap 0x60002000 0x1000 3 0xD 0)
      ⟨by decide, by decide +kernel, fun h => absurd h (by decide)⟩ hk1
    exact user_tidy htidy1 (c := .mmap 0x60003000 0x1000 0x2003 0xC 0)
      ⟨by decide, hrec, fun h => absurd h (by decide)⟩ hk
  obtain ⟨l, k', hv, hl, ⟨own, hp⟩, hk', hchild, -⟩ := htidy.fork_total has hlen hfork
  rw [← hl] at hc
  obtain ⟨⟨x, c'⟩, hx, rfl⟩ := List.mem_map.mp hc
  have hr1 : Reach (user startLink 0) (fun _ c => c.onAreas) (start 0x800) k1 :=
    Reach.refl.tail rfl hk1
  have hr : Reach (user startLink 0) (fun _ c => c.onAreas) (start 0x800) k := hr1.tail rfl hk
  refine ⟨k, k', l, x, c', hr, hk', hchild, hv, hx, hpriv, hs, hprot, hle, fun hkept => ?_⟩
  -- the frame would still be filled with junk, and two slots of the directory name one table
  obtain ⟨l', own', w⟩ := fork_ok hp hk' (fun _ _ => .inr (.inl hchild))
  have hlist' : k.phys.freelist = 0x1005 :: 0x1006 :: k.phys.freelist.drop 2 := by
    rw [← List.take_append_drop 2 k.phys.freelist, hlist]
    rfl
  have hdir := fork_pgdir (by decide) hk' hlist'
  have hmem : k'.phys.mem 0x1006 = k.phys.mem 0x1006 :=
    (hkept 0x60003000).2 0x1006007#32 (by decide) htr
  have htab := w.tables
  rw [hdir] at htab
  have hvalid : ∀ i, k.phys.mem 0x1006 i = junk → own' (frameOf junk) = .table (.proc 1) i := by
    intro i hi
    have := htab.table i
    rw [hmem, hi] at this
    exact this ((pdeFormat_valid _).mpr (by decide))
  have h512 := hvalid 512 hj1
  rw [hvalid 513 hj2] at h512
  exact absurd h512 (by decide)

end Kernel

end Xv6
