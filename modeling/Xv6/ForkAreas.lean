import Xv6.CopyuvmSpec
import Xv6.ListSpec
import Xv6.Proc

namespace Xv6.Kernel

open Function List Outcome

/-!
# What `fork` does with the areas

`fork` walks the list of the parent and gives the child a page for every page of every
area: a copy in a frame of its own, or, if the area is shared, whatever frame the record of
the area names.

* `Child own k np own' k'` — pages were added to process `np`, and nothing else happened;
* `AreaPage` — one of these pages;
* `forkAreas_ok` — all pages of all areas are so, unless the child was killed.
-/

variable {U : Word → Prop} {L : Link} {own own' own'' : Frame → Owner}
  {k k' k'' : Kernel} {p np : Slot}
variable {i va : Word} {n : Nat} {curr x : VmaPtr} {c : VmArea} {s' : Phys}
   {l : List (VmaPtr × VmArea)}

/-! ### What the loops leave alone -/

/-- A pointer reads the same if the records are the same. -/
theorem deref_congr (hvma : k'.vma = k.vma)
    (hproc : ∀ q, (k'.proc q).head = (k.proc q).head ∧ (k'.proc q).tail = (k.proc q).tail)
    (x : VmaPtr) : k'.deref x = k.deref x := by simp_all [Kernel.deref]

/-- Memory and grants apart, nothing has happened but that `np` may have been killed. -/
structure OnlyKills (k : Kernel) (np : Slot) (k' : Kernel) : Prop where
  proc : ∃ b, k'.proc
    = Function.update k.proc np { k.proc np with killed := (k.proc np).killed || b }
  rest : k' = { k with phys := k'.phys, proc := k'.proc, granted := k'.granted }

namespace OnlyKills

theorem refl (s : Phys) (g : Slot → Frame → Option Frame) :
    OnlyKills k np { k with phys := s, granted := g } :=
  ⟨⟨false, by simp⟩, rfl⟩

theorem killed_phys (s : Phys) : OnlyKills k np (({ k with phys := s } : Kernel).kill np) :=
  ⟨⟨true, by simp [kill, setProc]⟩, rfl⟩

theorem comp (h : OnlyKills k np k') (h' : OnlyKills k' np k'') : OnlyKills k np k'' := by
  obtain ⟨b, hb⟩ := h.proc
  obtain ⟨b', hb'⟩ := h'.proc
  refine ⟨⟨b || b', ?_⟩, by rw [h'.rest, h.rest]⟩
  rw [hb', hb]
  simp [Bool.or_assoc]

theorem deref (h : OnlyKills k np k') (x : VmaPtr) : k'.deref x = k.deref x := by
  obtain ⟨b, hb⟩ := h.proc
  refine deref_congr (by rw [h.rest]) (fun q => ?_) x
  rw [hb]
  by_cases hq : q = np
  · subst hq
    simp
  · simp [hq]

theorem pgdir (h : OnlyKills k np k') (q : Slot) : (k'.proc q).pgdir = (k.proc q).pgdir := by
  obtain ⟨b, hb⟩ := h.proc
  rw [hb]
  by_cases hq : q = np
  · subst hq
    rw [update_self]
  · rw [update_of_ne hq]

/-- A process that has been killed stays so. -/
theorem killed (h : OnlyKills k np k') (hk : (k'.proc np).killed = false) :
    (k.proc np).killed = false := by
  obtain ⟨b, hb⟩ := h.proc
  rw [hb, update_self, Bool.or_eq_false_iff] at hk
  exact hk.1

end OnlyKills

/-- One page of an area that is shared, or of one that is not. -/
def forkRound (L : Link) (p np : Slot) (c : VmArea) (k : Kernel) (i : Word) : Res Kernel :=
  if c.flags &&& MAP_SHARED ≠ 0#32 then
    mappagesV2P k.phys (k.proc np).pgdir i PGSIZE c.pa (c.prot ||| PTE_U) >>= fun r =>
      if r.1 then .ok (({ k with phys := r.2 } : Kernel).grant np i (k.granted p (frameOf i)))
      else kfree L r.2 c.pa >>= fun s => pure (({ k with phys := s } : Kernel).kill np)
  else k.forkPage L p np c.prot i

/-- The pages of an area, from `i` on. -/
def forkRounds (L : Link) (p np : Slot) (c : VmArea) : Nat → Kernel → Word → Res Kernel
  | 0, _, _ => .hang
  | n + 1, k, i =>
    if i < c.end_ then forkRound L p np c k i >>= fun k => forkRounds L p np c n k (i + PGSIZE)
    else .ok k

/-- The pages of one area. -/
def forkArea (L : Link) (p np : Slot) (c : VmArea) (k : Kernel) : Res Kernel :=
  if c.flags &&& MAP_SHARED ≠ 0#32 ∨ c.flags &&& MAP_PRIVATE ≠ 0#32 then
    forkRounds L p np c loopBound k c.start
  else .ok k

/-- The two page loops of `fork` are one. -/
theorem forkRounds_eq : forkRounds L p np c n k i =
    if c.flags &&& MAP_SHARED ≠ 0#32 then forkShared L p np c.end_ c.pa c.prot n k i
    else forkPrivate L p np c.end_ c.prot n k i := by
  induction n generalizing k i with
  | zero => split <;> rfl
  | succ n ih =>
    by_cases hs : c.flags &&& MAP_SHARED ≠ 0#32
    · simp only [if_pos hs] at ih ⊢
      simp only [forkRounds, ih, forkRound, if_pos hs, forkShared, bind_assoc]
      split
      · refine congrArg (mappagesV2P _ _ _ _ _ _ >>= ·) (funext fun r => ?_)
        cases r.1 <;> simp [bind_assoc]
      · rfl
    · simp only [if_neg hs] at ih ⊢
      simp only [forkRounds, ih, forkRound, if_neg hs, forkPrivate]

/-- One area, then the next. -/
theorem forkAreas_succ : forkAreas L p np (n + 1) k curr = k.deref curr >>= fun c =>
        if c.start = MAX_ADDR then .ok k
        else forkArea L p np c k >>= fun k => forkAreas L p np n k c.next := by
  rw [forkAreas]
  refine congrArg (k.deref curr >>= ·) (funext fun c => ?_)
  unfold forkArea
  rw [forkRounds_eq]
  split
  · rfl
  by_cases hs : c.flags &&& MAP_SHARED ≠ 0#32
  · rw [if_pos hs, if_pos (.inl hs), if_pos hs]
  · simp only [if_neg hs, or_iff_right hs]
    split <;> rfl

/-- Over one page. -/
theorem forkRound_only (h : forkRound L p np c k i = .ok k') : OnlyKills k np k' := by
  unfold forkRound at h
  split at h
  · obtain ⟨⟨mapped, s⟩, -, h⟩ := bind_eq_ok.mp h
    cases mapped with
    | true =>
      cases h
      exact .refl s _
    | false =>
      obtain ⟨s1, -, hk1⟩ := bind_eq_ok.mp h
      cases hk1
      exact .killed_phys s1
  · unfold forkPage at h
    split at h
    · cases h
    split at h
    · cases h
    obtain ⟨⟨mapped, s⟩, -, hrest⟩ := bind_eq_ok.mp h
    cases mapped with
    | true =>
      cases hrest
      exact .refl s _
    | false =>
      obtain ⟨s1, -, hk1⟩ := bind_eq_ok.mp hrest
      cases hk1
      exact .killed_phys s1

/-- Over the pages of an area. -/
theorem forkRounds_only (h : forkRounds L p np c n k i = .ok k') : OnlyKills k np k' := by
  induction n generalizing k i with
  | zero => cases h
  | succ n ih =>
    unfold forkRounds at h
    split at h
    · obtain ⟨k1, hpage, hrest⟩ := bind_eq_ok.mp h
      exact (forkRound_only hpage).comp (ih hrest)
    · cases h
      exact .refl _ _

/-- Over one area. -/
theorem forkArea_only (h : forkArea L p np c k = .ok k') : OnlyKills k np k' := by
  unfold forkArea at h
  split at h
  · exact forkRounds_only h
  · cases h
    exact .refl _ _

/-- Over all areas. -/
theorem forkAreas_only (h : forkAreas L p np n k curr = .ok k') : OnlyKills k np k' := by
  induction n generalizing k curr with
  | zero => cases h
  | succ n ih =>
    rw [forkAreas_succ] at h
    obtain ⟨c, -, h⟩ := bind_eq_ok.mp h
    split at h
    · cases h
      exact .refl _ _
    · obtain ⟨k1, harea, hrest⟩ := bind_eq_ok.mp h
      exact (forkArea_only harea).comp (ih hrest)

/-! ### Pages added to the child -/

theorem grant_self (k : Kernel) (p : Slot) (va : Word) (f : Option Frame) :
    (k.grant p va f).granted p (frameOf va) = f := by
  simp [grant]

theorem grant_page_ne (k : Kernel) (p : Slot) (f : Option Frame) {n : Frame} (h : n ≠ frameOf va) :
    (k.grant p va f).granted p n = k.granted p n := by
  simp [grant, h]

theorem grant_proc_ne (k : Kernel) {p q : Slot} (va : Word) (f : Option Frame) (h : q ≠ p) :
    (k.grant p va f).granted q = k.granted q := by
  simp [grant, h]

/-- Pages were added to process `np`, which may have been killed; a page that was there
    keeps the frame it was granted. -/
structure Child (own : Frame → Owner) (k : Kernel) (np : Slot)
    (own' : Frame → Owner) (k' : Kernel) :
    Prop where
  grows : Grows own k.phys (.proc np) (k.proc np).pgdir own' k'.phys
  only : OnlyKills k np k'
  others : ∀ q, q ≠ np → k'.granted q = k.granted q
  same : ∀ va, k.trans np va ≠ none →
    k'.granted np (frameOf va) = k.granted np (frameOf va)

namespace Child

theorem pgdir (h : Child own k np own' k') (q : Slot) : (k'.proc q).pgdir = (k.proc q).pgdir :=
  h.only.pgdir q

/-- What the child has stays mapped. -/
theorem mono (h : Child own k np own' k') {pte : Word} (hva : k.trans np va = some pte) :
    k'.trans np va = some pte := by
  rw [trans, h.pgdir]
  exact h.grows.mono va pte hva

theorem refl (hf : Free own k.phys) (ht : Tables own k.phys.mem (.proc np) (k.proc np).pgdir) :
    Child own k np own k where
  grows := .refl hf ht
  only := .refl _ _
  others := fun _ _ => rfl
  same := fun _ _ => rfl

theorem comp (h : Child own k np own' k') (h' : Child own' k' np own'' k'') :
    Child own k np own'' k'' where
  grows := by
    refine h.grows.trans ?_
    rw [← h.pgdir np]
    exact h'.grows
  only := h.only.comp h'.only
  others := fun q hq => (h'.others q hq).trans (h.others q hq)
  same := by
    intro va hva
    obtain ⟨pte, hpte⟩ := Option.ne_none_iff_exists'.mp hva
    rw [h'.same va (by rw [h.mono hpte]; simp), h.same va hva]

end Child

/-- A page of the area `c` in the child: of a shared area it is what the record names, of
    another a copy in a new frame. -/
def AreaPage (U : Word → Prop) (own : Frame → Owner) (k : Kernel) (p np : Slot)
    (c : VmArea) (va : Word)
    (own' : Frame → Owner) (k' : Kernel) : Prop :=
  if c.flags &&& MAP_SHARED ≠ 0#32 then
    k'.trans np va = some (V2P c.pa ||| (c.prot ||| PTE_U) ||| PTE_P)
      ∧ k'.granted np (frameOf va) = k.granted p (frameOf va)
  else
    ∃ f x, Fresh own (.proc np) (k'.proc np).pgdir va f x (c.prot ||| PTE_U) own' k'.phys
      ∧ (U va → ∀ pte, k.trans p va = some pte → x = k.phys.mem (frameOf pte))
      ∧ k'.granted np (frameOf va) = some f

/-- It stays when more pages are added. -/
theorem AreaPage.after (h : AreaPage U own k p np c va own' k') (w : Child own' k' np own'' k'') :
    AreaPage U own k p np c va own'' k'' := by
  unfold AreaPage at h ⊢
  split
  · rename_i hs
    rw [if_pos hs] at h
    exact ⟨w.mono h.1, by rw [w.same va (by rw [h.1]; simp), h.2]⟩
  · rename_i hs
    rw [if_neg hs] at h
    obtain ⟨f, x, hfresh, hx, hg⟩ := h
    have htr : k'.trans np va ≠ none := by
      rw [trans, hfresh.trans]
      simp
    rw [w.pgdir]
    exact ⟨f, x, hfresh.grows w.grows, hx, by rw [w.same va htr, hg]⟩

/-- The parent, whose memory is not the child's. -/
structure Parent (U : Word → Prop) (own : Frame → Owner) (k : Kernel) (p np : Slot) : Prop where
  ne : p ≠ np
  source : Source U own k.phys (.proc p) (k.proc p).pgdir (.proc np)
  free : Free own k.phys
  tables : Tables own k.phys.mem (.proc np) (k.proc np).pgdir

/-- The parent sees nothing of what happens to the child. -/
theorem Parent.child (h : Parent U own k p np) (w : Child own k np own' k') :
    Parent U own' k' p np ∧ (∀ va, k'.trans p va = k.trans p va)
      ∧ (∀ va pte, U va → k.trans p va = some pte →
          k'.phys.mem (frameOf pte) = k.phys.mem (frameOf pte))
      ∧ k'.granted p = k.granted p := by
  obtain ⟨hsrc, htr, hmem⟩ := h.source.touch w.grows.touch
  have htr' : ∀ va, k'.trans p va = k.trans p va := by
    intro va
    rw [trans, w.pgdir]
    exact htr va
  refine ⟨⟨h.ne, ?_, w.grows.free, ?_⟩, htr', hmem, w.others p h.ne⟩
  · rw [w.pgdir]
    exact hsrc
  · rw [w.pgdir]
    exact w.grows.tables

/-- An earlier state of the parent, with the same memory, will do as well. -/
theorem AreaPage.before {k1 : Kernel} {own1 : Frame → Owner}
    (h : AreaPage U own1 k1 p np c va own' k') (hfree : ∀ f, own1 f = .free → own f = .free)
    (htr : ∀ va, k1.trans p va = k.trans p va) (hmem : ∀ va pte, U va → k.trans p va = some pte →
      k1.phys.mem (frameOf pte) = k.phys.mem (frameOf pte)) (hgr : k1.granted p = k.granted p) :
    AreaPage U own k p np c va own' k' := by
  unfold AreaPage at h ⊢
  split
  · rename_i hs
    rw [if_pos hs] at h
    exact ⟨h.1, by rw [h.2, hgr]⟩
  · rename_i hs
    rw [if_neg hs] at h
    obtain ⟨f, x, hfresh, hx, hg⟩ := h
    refine ⟨f, x, { hfresh with free := hfree f hfresh.free }, fun hU pte hpte => ?_, hg⟩
    rw [hx hU pte (by rw [htr, hpte]), hmem va pte hU hpte]

/-- A round, seen from before the loop. -/
theorem AreaPage.before_child (h : AreaPage U own' k' p np c va own'' k'')
    (hp : Parent U own k p np) (w : Child own k np own' k') :
    AreaPage U own k p np c va own'' k'' := by
  obtain ⟨-, htr, hmem, hgr⟩ := hp.child w
  exact h.before (fun f => w.grows.was_free) htr hmem hgr

/-! ### The pages of one area -/

/-- The pages of area `c` in `[lo, hi)` were added to the child, all of them if it is
    alive or there were frames enough. -/
structure AreaMapped (U : Word → Prop) (own : Frame → Owner) (k : Kernel) (p np : Slot)
    (c : VmArea) (lo hi : Nat) (own' : Frame → Owner) (k' : Kernel) : Prop where
  child : Child own k np own' k'
  pages : (k'.proc np).killed = false ∨ Roomy k.phys (k.proc np).pgdir ((hi - lo) / 4096) →
    ∀ va : Word, lo ≤ va.toNat → va.toNat < hi → AreaPage U own k p np c va own' k'
  new : ∀ va pte, k'.trans np va = some pte → k.trans np va = some pte
    ∨ lo ≤ va.toNat ∧ va.toNat < hi ∧ AreaPage U own k p np c va own' k'
  room : ∀ m, Roomy k.phys (k.proc np).pgdir ((hi - lo) / 4096 + m) →
    Roomy k'.phys (k.proc np).pgdir m

namespace AreaMapped

variable {c : VmArea} {lo mid hi : Nat}

theorem refl (hp : Parent U own k p np) (hhi : hi ≤ lo) :
    AreaMapped U own k p np c lo hi own k where
  child := .refl hp.free hp.tables
  pages := fun _ va h1 h2 => absurd h2 (by omega)
  new := fun va pte h => .inl h
  room := by
    intro m hm
    have hcount : (hi - lo) / 4096 + m = m := by omega
    rwa [hcount] at hm

theorem comp (hp : Parent U own k p np) (h : AreaMapped U own k p np c lo mid own' k')
    (h' : AreaMapped U own' k' p np c mid hi own'' k'') (hlo : lo ≤ mid) (hmid : mid ≤ hi)
    (hmod : (mid - lo) % 4096 = 0) :
    AreaMapped U own k p np c lo hi own'' k'' where
  child := h.child.comp h'.child
  pages := by
    intro hk va h1 h2
    by_cases hm : mid ≤ va.toNat
    · refine (h'.pages (hk.imp_right fun hr => ?_) va hm h2).before_child hp h.child
      rw [h.child.pgdir]
      exact h.room _ (hr.mono (by omega))
    · exact (h.pages (hk.imp h'.child.only.killed (Roomy.mono · (by omega))) va h1
        (by omega)).after h'.child
  new := by
    intro va pte hva
    rcases h'.new va pte hva with hold | ⟨h1, h2, hpage⟩
    · rcases h.new va pte hold with hold | ⟨h1, h2, hpage⟩
      · exact .inl hold
      · exact .inr ⟨h1, by omega, hpage.after h'.child⟩
    · exact .inr ⟨by omega, h2, hpage.before_child hp h.child⟩
  room := by grind [h'.room, h.child.pgdir, h.room]

end AreaMapped

/-- One page was added, and a frame granted for it. -/
theorem AreaMapped.page {g : Option Frame} {pte : Word} (hal : i.toNat % 4096 = 0)
    (hgrows : Grows own k.phys (.proc np) (k.proc np).pgdir own' s') (hnone : k.trans np i = none)
    (htr : ∀ va, translate s' (k.proc np).pgdir va = if frameOf va = frameOf i then some pte
      else k.trans np va)
    (harea : ∀ va, frameOf va = frameOf i → AreaPage U own k p np c va own'
      (({ k with phys := s' } : Kernel).grant np i g))
    (hroom : ∀ m, Roomy k.phys (k.proc np).pgdir (m + 1) → Roomy s' (k.proc np).pgdir m) :
    AreaMapped U own k p np c i.toNat (i.toNat + 4096) own'
      (({ k with phys := s' } : Kernel).grant np i g) where
  child := by
    refine ⟨hgrows, .refl _ _, fun q hq => grant_proc_ne _ _ _ hq, fun va hva => ?_⟩
    apply grant_page_ne
    intro heq
    apply hva
    rw [trans_congr_page k np heq, hnone]
  pages := fun _ va h1 h2 => harea va ((frameOf_eq_iff hal va).mpr ⟨h1, h2⟩)
  new := by
    intro va pte' hpte
    by_cases hva : frameOf va = frameOf i
    · obtain ⟨h1, h2⟩ := (frameOf_eq_iff hal va).mp hva
      exact .inr ⟨h1, h2, harea va hva⟩
    · rw [← hpte]
      exact .inl ((htr va).trans (if_neg hva)).symm
  room := fun m hm => hroom m (hm.mono (by omega))

/-- The child is killed for want of memory, and nothing else has happened to it. -/
theorem AreaMapped.nomem (hgrows : Grows own k.phys (.proc np) (k.proc np).pgdir own s')
    (htr : ∀ va, translate s' (k.proc np).pgdir va = k.trans np va)
    (hshort : ∀ m, ¬ Roomy k.phys (k.proc np).pgdir (m + 1)) :
    AreaMapped U own k p np c i.toNat (i.toNat + 4096) own
      (({ k with phys := s' } : Kernel).kill np) where
  child := ⟨hgrows, .killed_phys s', fun _ _ => rfl, fun _ _ => rfl⟩
  pages := by
    rintro (hk | hroom)
    · simp at hk
    · exact absurd (hroom.mono (by omega)) (hshort 0)
  new := by
    intro va pte hva
    rw [trans_kill] at hva
    exact .inl ((htr va).symm.trans hva)
  room := fun m hroom => absurd (hroom.mono (by omega)) (hshort m)

section

variable (hp : Parent U own k p np)
include hp

/-- One page of an area that is not shared. -/
theorem forkPage_ok (hs : c.flags &&& MAP_SHARED = 0#32) (hal : i.toNat % 4096 = 0)
    (h : k.forkPage L p np c.prot i = .ok k') :
    ∃ own', AreaMapped U own k p np c i.toNat (i.toNat + 4096) own' k' := by
  unfold forkPage at h
  cases hk : kalloc k.phys with
  | mk o s1 =>
  cases o with
  | none =>
    simp only [hk] at h
    cases h
  | some f =>
    obtain ⟨hl, hm⟩ := kalloc_some hk
    simp only [hk, walkpgdir_false] at h
    by_cases hpde : s1.mem (k.proc p).pgdir (PDX i) &&& PTE_P ≠ 0#32
    · simp only [if_pos hpde] at h
      -- the contents of the parent's page
      generalize hx : s1.mem (frameOf (s1.mem (frameOf (s1.mem (k.proc p).pgdir (PDX i))) (PTX i)))
        = x at h
      have hcopy : ∀ pte, k.trans p i = some pte → x = k.phys.mem (frameOf pte) := by
        intro pte hpte
        obtain ⟨-, rfl, -⟩ := translate_iff.mp hpte
        rw [← hx, hm]
      obtain ⟨⟨mapped, s2⟩, hmap, hrest⟩ := bind_eq_ok.mp h
      change mappages (s1.setFrame f x) (k.proc np).pgdir i PGSIZE (V2P (P2V (base f)))
        (c.prot ||| PTE_U) = .ok (mapped, s2) at hmap
      rw [V2P_P2V] at hmap
      cases mapped with
      | true =>
        cases hrest
        obtain ⟨own', w⟩ := newPage_true hp.free hp.tables hal hk hmap
        refine ⟨own', .page hal w.grows w.before w.after (fun va hva => ?_) w.room⟩
        unfold AreaPage
        rw [if_neg (not_not.mpr hs), hva]
        refine ⟨f, x, w.isFresh hp.free hva, fun _ pte hpte => hcopy pte ?_, grant_self ..⟩
        rw [← hpte]
        exact (trans_congr_page k p hva).symm
      | false =>
        obtain ⟨s3, hfree, hend⟩ := bind_eq_ok.mp hrest
        cases hend
        have w := newPage_false hp.free hp.tables hal hk hmap hfree
        refine ⟨own, .nomem w.grows (fun va => ?_) fun m hroom => ?_⟩
        · rw [trans, translate, translate, w.after]
        · -- the slot needs a table, and the page a frame; there was one frame
          have hlt := hroom.lt_length w.before
          rw [w.only, length_singleton] at hlt
          omega
    · simp only [if_neg hpde] at h
      cases h

/-- One page of an area.  If a page of a shared area cannot be mapped the child is killed, and a
    frame of the parent's is freed; so this is about the other case. -/
theorem forkRound_ok {m : Nat} (hal : i.toNat % 4096 = 0)
    (hsafe : c.flags &&& MAP_SHARED ≠ 0#32 →
      (k'.proc np).killed = false ∨ Roomy k.phys (k.proc np).pgdir m)
    (h : forkRound L p np c k i = .ok k') :
    ∃ own', AreaMapped U own k p np c i.toNat (i.toNat + 4096) own' k' := by
  unfold forkRound at h
  split at h
  · rename_i hs
    obtain ⟨⟨mapped, s⟩, hmap, hrest⟩ := bind_eq_ok.mp h
    cases mapped with
    | true =>
      cases hrest
      obtain ⟨own', w⟩ := mappages_page_true hp.free.list hp.tables hal hmap
      refine ⟨own', .page hal (w.grows hp.free) w.before w.after (fun va hva => ?_)
        fun m hm => w.room m (hm.mono (Nat.le_succ m))⟩
      unfold AreaPage
      rw [if_pos hs, hva]
      exact ⟨(w.after va).trans (if_pos hva), grant_self ..⟩
    | false =>
      exfalso
      rcases hsafe hs with hsafe | hsafe
      · obtain ⟨s1, -, hk1⟩ := bind_eq_ok.mp hrest
        cases hk1
        simp at hsafe
      · obtain ⟨-, hnil, hpte⟩ := mappages_page_false hal hmap
        have hlen := hsafe.lt_length hpte
        rw [hnil] at hlen
        cases hlen
  · rename_i hs
    exact forkPage_ok hp (not_not.mp hs) hal h

/-- The pages of an area. -/
theorem forkRounds_ok (hal : i.toNat % 4096 = 0) (hend : (c.end_.toNat + 1) % 4096 = 0)
    (hlt : c.end_.toNat < KERNBASE.toNat)
    (hsafe : c.flags &&& MAP_SHARED ≠ 0#32 → i < c.end_ → (k'.proc np).killed = false
      ∨ Roomy k.phys (k.proc np).pgdir ((c.end_.toNat + 1 - i.toNat) / 4096))
    (h : forkRounds L p np c n k i = .ok k') :
    ∃ own', AreaMapped U own k p np c i.toNat (c.end_.toNat + 1) own' k' := by
  induction n generalizing own k i with
  | zero => cases h
  | succ n ih =>
    unfold forkRounds at h
    by_cases hi : i < c.end_
    · have hi' : i.toNat < c.end_.toNat := hi
      rw [if_pos hi] at h
      obtain ⟨k1, hpage, hrest⟩ := bind_eq_ok.mp h
      have hnext := toNat_add_PGSIZE i (by omega)
      obtain ⟨own1, w⟩ := forkRound_ok hp hal
        (fun hs => (hsafe hs hi).imp_left (forkRounds_only hrest).killed) hpage
      have hsafe1 : c.flags &&& MAP_SHARED ≠ 0#32 → i + PGSIZE < c.end_ →
          (k'.proc np).killed = false ∨ Roomy k1.phys (k1.proc np).pgdir
            ((c.end_.toNat + 1 - (i + PGSIZE).toNat) / 4096) := by
        intro hs _
        rw [w.child.pgdir, hnext]
        exact (hsafe hs hi).imp_right fun hr => w.room _ (hr.mono (by omega))
      obtain ⟨own2, w2⟩ := ih (hp.child w.child).1 (by omega) hsafe1 hrest
      rw [hnext] at w2
      exact ⟨own2, w.comp hp w2 (by omega) (by omega) (by omega)⟩
    · rw [if_neg hi] at h
      cases h
      have hge : c.end_.toNat ≤ i.toNat := BitVec.not_lt.mp hi
      exact ⟨own, .refl hp (by omega)⟩

/-- The pages of an area.  One that is neither shared nor private is left out. -/
theorem forkArea_ok (hc : c.Ok)
    (hsafe : c.flags &&& MAP_SHARED ≠ 0#32 → c.start < c.end_ → (k'.proc np).killed = false
      ∨ Roomy k.phys (k.proc np).pgdir ((c.end_.toNat + 1 - c.start.toNat) / 4096))
    (h : forkArea L p np c k = .ok k') :
    ∃ own' hi, AreaMapped U own k p np c c.start.toNat hi own' k' ∧ hi ≤ c.end_.toNat + 1
      ∧ (c.flags &&& MAP_SHARED ≠ 0#32 ∨ c.flags &&& MAP_PRIVATE ≠ 0#32 →
        hi = c.end_.toNat + 1) := by
  unfold forkArea at h
  split at h
  · obtain ⟨own', w⟩ := forkRounds_ok hp hc.start_aligned hc.end_aligned hc.end_lt hsafe h
    exact ⟨own', _, w, le_rfl, fun _ => rfl⟩
  · rename_i hnot
    cases h
    exact ⟨own, 0, .refl hp (Nat.zero_le _), Nat.zero_le _, fun hor => absurd hor hnot⟩

end

/-! ### The loop over the areas -/

/-- The areas `fork` comes by from `x` on, up to the record that marks the end. -/
inductive Visits (k : Kernel) : VmaPtr → List (VmaPtr × VmArea) → Prop
  | stop {x : VmaPtr} {v : VmArea} : k.deref x = .ok v → v.start = MAX_ADDR → Visits k x []
  | step {x : VmaPtr} {c : VmArea} {l : List (VmaPtr × VmArea)} :
      k.deref x = .ok c → c.start ≠ MAX_ADDR → Visits k c.next l → Visits k x ((x, c) :: l)

/-- Only the areas matter. -/
theorem Visits.congr (h : Visits k x l) (hd : ∀ y, k'.deref y = k.deref y) : Visits k' x l := by
  induction h with
  | stop hx hv => exact .stop (by rw [hd, hx]) hv
  | step hx hc _ ih => exact .step (by rw [hd, hx]) hc ih

/-- There is one such list. -/
theorem Visits.unique {l' : List (VmaPtr × VmArea)} (h : Visits k x l) (h' : Visits k x l') :
    l = l' := by
  induction h generalizing l' with
  | stop hx hv =>
    cases h' with
    | stop => rfl
    | step hx' hc =>
      rw [hx] at hx'
      cases hx'
      exact absurd hv hc
  | step hx hc _ ih =>
    cases h' with
    | stop hx' hv =>
      rw [hx] at hx'
      cases hx'
      exact absurd hv hc
    | step hx' hc' hrest =>
      rw [hx] at hx'
      cases hx'
      rw [ih hrest]

theorem Visits.start_ne {y : VmaPtr} (h : Visits k x l) (hc : (y, c) ∈ l) : c.start ≠ MAX_ADDR := by
  induction h with
  | stop => cases hc
  | step _ hne _ ih => grind

/-- The number of pages of the areas. -/
def areaPages (l : List (VmaPtr × VmArea)) : Nat :=
  (l.map (fun x => (x.2.end_.toNat + 1 - x.2.start.toNat) / 4096)).sum

@[simp] theorem areaPages_nil : areaPages [] = 0 := rfl

@[simp] theorem areaPages_cons (x : VmaPtr × VmArea) (l : List (VmaPtr × VmArea)) :
    areaPages (x :: l) = (x.2.end_.toNat + 1 - x.2.start.toNat) / 4096 + areaPages l := rfl

/-- The child has pages for the areas of `l`, all of them if it is alive or there were frames
    enough, and no others. -/
structure AreasMapped (U : Word → Prop) (own : Frame → Owner) (k : Kernel) (p np : Slot)
    (l : List (VmaPtr × VmArea)) (own' : Frame → Owner) (k' : Kernel) : Prop where
  child : Child own k np own' k'
  pages : (k'.proc np).killed = false ∨ Roomy k.phys (k.proc np).pgdir (areaPages l) →
    ∀ x c, (x, c) ∈ l → (c.flags &&& MAP_SHARED ≠ 0#32 ∨ c.flags &&& MAP_PRIVATE ≠ 0#32) →
    ∀ va : Word, c.start ≤ va → va ≤ c.end_ → AreaPage U own k p np c va own' k'
  new : ∀ va pte, k'.trans np va = some pte → k.trans np va = some pte
    ∨ ∃ x c, (x, c) ∈ l ∧ c.start ≤ va ∧ va ≤ c.end_ ∧ AreaPage U own k p np c va own' k'
  room : ∀ m, Roomy k.phys (k.proc np).pgdir (areaPages l + m) →
    Roomy k'.phys (k.proc np).pgdir m

/-- The condition under which `fork` frees no frame of the parent's: there is nothing to
    share, or no page fails to be mapped. -/
def ShareSafe (k : Kernel) (np : Slot) (l : List (VmaPtr × VmArea)) (k' : Kernel) : Prop :=
  (∀ x c, (x, c) ∈ l → ¬ (c.flags &&& MAP_SHARED ≠ 0#32 ∧ c.start < c.end_))
    ∨ (k'.proc np).killed = false ∨ Roomy k.phys (k.proc np).pgdir (areaPages l)

/-- Every area of the list is mapped. -/
theorem forkAreas_ok (hp : Parent U own k p np) (hv : Visits k x l) (hok : ∀ x c, (x, c) ∈ l → c.Ok)
    (hsafe : ShareSafe k np l k') (h : forkAreas L p np n k x = .ok k') :
    ∃ own', AreasMapped U own k p np l own' k' := by
  induction l generalizing own k x n with
  | nil =>
    cases hv with
    | stop hx hstart =>
      cases n with
      | zero => cases h
      | succ n =>
        rw [forkAreas_succ, hx, ok_bind, if_pos hstart] at h
        cases h
        refine ⟨own, .refl hp.free hp.tables, fun _ x c hc => ?_,
          fun va pte hva => .inl hva, fun m => ?_⟩
        · cases hc
        · rw [areaPages_nil, Nat.zero_add]
          exact id
  | cons a l ih =>
    cases hv with
    | @step _ c _ hx hstart hrest =>
      cases n with
      | zero => cases h
      | succ n =>
        rw [forkAreas_succ, hx, ok_bind, if_neg hstart] at h
        obtain ⟨k1, harea, hloop⟩ := bind_eq_ok.mp h
        have hc : c.Ok := hok x c (mem_cons_self ..)
        -- what the area relies on
        have hsafe1 : c.flags &&& MAP_SHARED ≠ 0#32 → c.start < c.end_ →
          (k1.proc np).killed = false ∨
            Roomy k.phys (k.proc np).pgdir ((c.end_.toNat + 1 - c.start.toNat) / 4096) := by
          intro hshared hlt
          rcases hsafe with hs | hs | hs
          · exact absurd ⟨hshared, hlt⟩ (hs x c (mem_cons_self ..))
          · exact .inl ((forkAreas_only hloop).killed hs)
          · exact .inr (hs.mono (Nat.le_add_right _ _))
        obtain ⟨own1, hi, w, hle, hall⟩ := forkArea_ok hp hc hsafe1 harea
        have hroom : ∀ m, Roomy k.phys (k.proc np).pgdir (areaPages ((x, c) :: l) + m) →
            Roomy k1.phys (k1.proc np).pgdir (areaPages l + m) := by
          intro m hm
          rw [w.child.pgdir]
          refine w.room _ (hm.mono ?_)
          rw [areaPages_cons]
          show (hi - c.start.toNat) / 4096 + (areaPages l + m)
            ≤ (c.end_.toNat + 1 - c.start.toNat) / 4096 + areaPages l + m
          omega
        -- what the rest of the list relies on
        have hsafe2 : ShareSafe k1 np l k' := by
          rcases hsafe with hs | hs | hs
          · exact .inl (fun y c' hc' => hs y c' (mem_cons_of_mem _ hc'))
          · exact .inr (.inl hs)
          · exact .inr (.inr (hroom 0 hs))
        obtain ⟨own2, w2⟩ := ih (hp.child w.child).1 (hrest.congr w.child.only.deref)
          (fun y c' hc' => hok y c' (mem_cons_of_mem _ hc')) hsafe2 hloop
        refine ⟨own2, w.child.comp w2.child, ?_, ?_, ?_⟩
        · intro hk y c' hc' hf va h1 h2
          rcases mem_cons.mp hc' with heq | hc'
          · cases heq
            have h2' : va.toNat ≤ c.end_.toNat := h2
            refine (w.pages (hk.imp w2.child.only.killed (Roomy.mono · ?_)) va h1
              (by rw [hall hf]; omega)).after w2.child
            rw [areaPages_cons, hall hf]
            exact Nat.le_add_right _ _
          · exact (w2.pages (hk.imp_right (hroom 0)) y c' hc' hf va h1 h2).before_child hp w.child
        · intro va pte hva
          rcases w2.new va pte hva with hold | ⟨y, c', hc', h1, h2, hpage⟩
          · rcases w.new va pte hold with hold | ⟨h1, h2, hpage⟩
            · exact .inl hold
            · refine .inr ⟨x, c, mem_cons_self .., h1, ?_, hpage.after w2.child⟩
              show va.toNat ≤ c.end_.toNat
              omega
          · exact .inr ⟨y, c', mem_cons_of_mem _ hc', h1, h2, hpage.before_child hp w.child⟩
        · intro m hm
          have := w2.room m (hroom m hm)
          rwa [w.child.pgdir] at this

/-- If the loop returns, it has come to the end of the list. -/
theorem forkAreas_visits (h : forkAreas L p np n k x = .ok k') : ∃ l, Visits k x l := by
  induction n generalizing k x with
  | zero => cases h
  | succ n ih =>
    rw [forkAreas_succ] at h
    obtain ⟨c, hx, h⟩ := bind_eq_ok.mp h
    split at h
    · rename_i hstart
      exact ⟨[], .stop hx hstart⟩
    · rename_i hstart
      obtain ⟨k1, harea, hrest⟩ := bind_eq_ok.mp h
      obtain ⟨l, hl⟩ := ih hrest
      exact ⟨(x, c) :: l, .step hx hstart
        (hl.congr (fun y => ((forkArea_only harea).deref y).symm))⟩

end Xv6.Kernel
