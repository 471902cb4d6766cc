import Xv6.KvmSpec

namespace Xv6

open BitVec Kernel Outcome Owner Phys TwoLevel

/-!
# What `copyuvm` does

It reads one address space while it builds another; `Source` is what keeps the two apart.

* `Account F s d` — the frames in `F` are those that are free and those of the directory `d`:
  itself, its tables and its user pages; adding pages keeps it, and `freevm` then frees all of `F`;
* `copyuvm_ok` — the copy has the pages below a given size, in frames of its own, with the
  same contents and flags (`Copied`); if memory runs out nothing is lost;
* `copyuvm_returns`, `copyuvm_total` — if all pages are there it returns; with enough free frames
  the copy is made.
-/

variable {U : Word → Prop} {L : Link} {own own' own'' : Frame → Owner} {s s' s'' : Phys}
  {a : Space} {d : Frame}
  {va : Word}
variable {pd f g : Frame} {b : Space} {sz perm : Word} {x : Idx → Word} {F : Frame → Prop}

/-! ### The source -/

/-- The address space `b` with directory `pd` can be copied to `a`: its tables are not `a`'s,
    and no frame of the pages in `U` is one of `a`'s, or free. -/
structure Source (U : Word → Prop) (own : Frame → Owner) (s : Phys) (b : Space) (pd : Frame)
    (a : Space) : Prop where
  ne : b ≠ a
  tables : Tables own s.mem b pd
  pages : ∀ va pte, U va → translate s pd va = some pte → ¬ (own (frameOf pte)).within a

/-- What happens to the frames of `a` is nothing to `b`. -/
theorem Source.touch (h : Source U own s b pd a)
    (ht : Touch (Owner.within a) own s.mem own' s'.mem) :
    Source U own' s' b pd a
      ∧ (∀ va, translate s' pd va = translate s pd va)
      ∧ ∀ va pte, U va → translate s pd va = some pte →
          s'.mem (frameOf pte) = s.mem (frameOf pte) := by
  have hdir : ¬ (dir b).within a := h.ne
  have htab : ∀ i, ¬ (table b i).within a := fun _ => h.ne
  have htr := ht.translate hdir htab h.tables
  refine ⟨⟨h.ne, ht.tables hdir htab h.tables, fun va pte hva hpte => ?_⟩, htr,
    fun va pte hva hpte => (ht.keeps (h.pages va pte hva hpte)).2⟩
  rw [htr] at hpte
  have hout := h.pages va pte hva hpte
  rwa [(ht.keeps hout).1]

/-! ### The frames of the copy -/

/-- The frame of a new page is now that of a user page. -/
theorem NewPage.userFrame (w : NewPage own s a d va f x perm own' s') (hva : va < KERNBASE)
    (hperm : (perm ||| PTE_P).toNat < 4096) :
    UserFrame s' d g ↔ g = f ∨ UserFrame s d g := by
  have hword : frameOf (base f ||| perm ||| PTE_P) = f := by
    rw [BitVec.or_assoc, frameOf_base_or hperm]
  constructor
  · rintro ⟨va', pte, h1, h2, rfl⟩
    rw [w.after] at h2
    split at h2
    · cases h2
      exact .inl hword
    · exact .inr ⟨va', pte, h1, h2, rfl⟩
  · rintro (rfl | ⟨va', pte, h1, h2, h3⟩)
    · exact ⟨va, _, hva, by rw [w.after, if_pos rfl], hword⟩
    · refine ⟨va', pte, h1, ?_, h3⟩
      rw [w.after, if_neg, h2]
      intro heq
      rw [translate_congr_page s d heq, w.before] at h2
      cases h2

/-- A user page is given a new frame. -/
theorem Account.newPage (h : Account F s d) (w : NewPage own s a d va f x perm own' s')
    (hva : va < KERNBASE) (hperm : (perm ||| PTE_P).toNat < 4096) : Account F s' d := by
  intro g
  rw [h g, w.held, w.userFrame hva hperm]
  tauto

/-- A page could not be mapped, and its frame was given back. -/
theorem Account.noPage (h : Account F s d) (ht : Tables own s.mem a d)
    (w : NoPage own s a d va f s') : Account F s' d := by
  have htr : ∀ va, translate s' d va = translate s d va := by
    intro va
    rw [Kernel.translate, Kernel.translate, w.after]
  intro g
  rw [h g, w.freelist, w.only, pageTable_congr (w.data d (by simp [ht.dir]))]
  simp only [UserFrame, htr]

/-- `freevm` frees all of them. -/
theorem Account.freed (h : Account F s d) (ht : Tables own s.mem a d) (hp : Apart own s a d)
    (hr : freevm L s d = .ok s') (g : Frame) : g ∈ s'.freelist ↔ F g := by
  obtain ⟨fs, hret, hin, -⟩ := freevm_frees ht hp hr
  rw [hret.freelist, List.mem_append, hin, h g]
  tauto

/-- It does not panic. -/
theorem Account.returns (h : Account F s d) (ht : Tables own s.mem a d) (hp : Apart own s a d)
    (hF : ∀ g, F g → Usable L g) : ∃ s', freevm L s d = .ok s' := by
  refine freevm_returns ht hp fun g hg => hF g ((h g).mpr ?_)
  tauto

/-! ### The loop -/

theorem NoPage.grows {f : Frame} (h : NoPage own s a d va f s') : Grows own s a d own s' where
  free := h.free
  tables := h.tables
  touch := h.touch
  keep := fun _ _ => rfl
  data := fun g hg _ => h.data g hg
  mono := by
    intro va' pte hva
    unfold Kernel.translate at hva ⊢
    rwa [h.after]

theorem PTE_FLAGS_lt (pte : Word) : (PTE_FLAGS pte ||| PTE_P).toNat < 4096 := by
  have h1 : (PTE_FLAGS pte).toNat < 2 ^ 12 := by
    unfold PTE_FLAGS
    rw [toNat_and]
    exact Nat.and_lt_two_pow _ (by decide)
  rw [toNat_or]
  exact Nat.or_lt_two_pow h1 (by decide)

/-- The pages of `[lo, sz)` of `pd` were copied, all of them if `b` holds. -/
structure Copying (U : Word → Prop) (own : Frame → Owner) (s : Phys) (pd : Frame) (a : Space)
    (d : Frame) (lo sz : Nat)
    (b : Bool) (own' : Frame → Owner) (s' : Phys) : Prop where
  grows : Grows own s a d own' s'
  pages : Pages own' s' a d
  outside : ∀ va : Word, ¬ (lo ≤ va.toNat ∧ va.toNat / 4096 * 4096 < sz) →
    translate s' d va = translate s d va
  inside : b = true → ∀ va : Word, lo ≤ va.toNat → va.toNat / 4096 * 4096 < sz →
    ∃ pte f x, translate s pd va = some pte ∧ Fresh own a d va f x (PTE_FLAGS pte) own' s'
      ∧ (U va → x = s.mem (frameOf pte))
  room : ∀ n, Roomy s d ((sz + 4095) / 4096 - lo / 4096 + n) → b = true ∧ Roomy s' d n
  account : ∀ F, Account F s d → Account F s' d

/-- The loop, from any page. -/
theorem copyuvmLoop_ok {n : Nat} {copied : Bool} (hsrc : Source U own s b pd a) (hf : Free own s)
    (ht : Tables own s.mem a d) (hp : Pages own s a d) (hsz : sz.toNat ≤ KERNBASE.toNat)
    (hal : va.toNat % 4096 = 0) (h : copyuvmLoop L pd d sz n s va = .ok (copied, s')) :
    ∃ own', Copying U own s pd a d va.toNat sz.toNat copied own' s' := by
  have hkern := toNat_KERNBASE
  induction n generalizing own s va with
  | zero => cases h
  | succ n ih =>
    unfold copyuvmLoop at h
    by_cases hlt : va < sz
    · have hlt' : va.toNat < sz.toNat := hlt
      have hva : va < KERNBASE := lt_def.mpr (by omega)
      rw [if_pos hlt, walkpgdir_false] at h
      by_cases hpde : s.mem pd (PDX va) &&& PTE_P ≠ 0#32
      · simp only [if_pos hpde] at h
        generalize hpte : s.mem (frameOf (s.mem pd (PDX va))) (PTX va) = pte at h
        split at h
        · cases h
        have htr : translate s pd va = some pte := translate_iff.mpr ⟨hpde, hpte, by assumption⟩
        cases hk : kalloc s with
        | mk o s1 =>
        cases o with
        | none =>
          obtain ⟨hnil, rfl⟩ := kalloc_none hk
          simp only [hk] at h
          cases h
          refine ⟨own, .refl hf ht, hp, fun _ _ => rfl, nofun, fun n hroom => ?_, fun _ => id⟩
          unfold Roomy at hroom
          rw [hnil, List.length_nil] at hroom
          omega
        | some f =>
          obtain ⟨-, hm⟩ := kalloc_some hk
          simp only [hk] at h
          obtain ⟨⟨mapped, s2⟩, hmap, hrest⟩ := bind_eq_ok.mp h
          change mappages (s1.setFrame f (s1.mem (frameOf pte))) d va PGSIZE
            (base f) (PTE_FLAGS pte)
            = .ok (mapped, s2) at hmap
          rw [hm] at hmap
          cases mapped with
          | false =>
            obtain ⟨s3, hfree, hend⟩ := bind_eq_ok.mp hrest
            cases hend
            have w := newPage_false hf ht hal hk hmap hfree
            have htr' : ∀ va', translate s' d va' = translate s d va' := by
              intro va'
              rw [Kernel.translate, Kernel.translate, w.after]
            refine ⟨own, w.grows, fun va' pte' hva' hpte' => ?_, fun va' _ => htr' va', nofun,
              fun n hroom => ?_, fun F hF => hF.noPage ht w⟩
            · rw [htr'] at hpte'
              exact hp va' pte' hva' hpte'
            · have hlen := hroom.lt_length w.before
              rw [w.only, List.length_singleton] at hlen
              omega
          | true =>
            obtain ⟨own1, w⟩ := newPage_true hf ht hal hk hmap
            have wr := w.resized hp hva hal (PTE_FLAGS_lt pte)
            have hnext := toNat_add_PGSIZE va (by omega)
            obtain ⟨hsrc1, htr1, hmem1⟩ := hsrc.touch w.touch
            obtain ⟨own2, w2⟩ := ih hsrc1 wr.free wr.tables wr.pages (by omega) hrest
            rw [hnext] at w2
            have hpage := frameOf_eq_iff hal
            refine ⟨own2, w.grows.trans w2.grows, w2.pages, ?_, ?_, ?_, fun F hF =>
              w2.account F (hF.newPage w hva (PTE_FLAGS_lt pte))⟩
            · intro va' hva'
              rw [w2.outside va' (by omega), w.after, if_neg]
              intro heq
              have := (hpage va').mp heq
              omega
            · intro hc va' h1 h2
              by_cases hin : va'.toNat < va.toNat + 4096
              · have heq := (hpage va').mpr ⟨h1, hin⟩
                refine ⟨pte, f, _, ?_, (w.isFresh hf heq).grows w2.grows, fun _ => rfl⟩
                rw [translate_congr_page s pd heq, htr]
              · obtain ⟨pte', f', x', htr', hfresh, hx⟩ := w2.inside hc va' (by omega) h2
                rw [htr1] at htr'
                refine ⟨pte', f', x', htr', hfresh.before w.grows, fun hU => ?_⟩
                rw [hx hU, hmem1 va' pte' hU htr']
            · intro m hm
              refine w2.room m (w.room _ ?_)
              have hcount : (sz.toNat + 4095) / 4096 - (va.toNat + 4096) / 4096 + m + 1
                  = (sz.toNat + 4095) / 4096 - va.toNat / 4096 + m := by omega
              rw [hcount]
              exact hm
      · simp only [if_neg hpde] at h
        cases h
    · rw [if_neg hlt] at h
      cases h
      have hge : sz.toNat ≤ va.toNat := BitVec.not_lt.mp hlt
      refine ⟨own, .refl hf ht, hp, fun _ _ => rfl, fun _ va' h1 h2 => (by omega),
        fun m hm => ⟨rfl, ?_⟩, fun _ => id⟩
      have hcount : (sz.toNat + 4095) / 4096 - va.toNat / 4096 + m = m := by omega
      rwa [hcount] at hm

/-! ### The whole -/

/-- Directory `d` is new: the kernel's half, and copies of the pages of `pd` below `sz`. -/
structure Copied (L : Link) (U : Word → Prop) (own : Frame → Owner) (s : Phys)
    (pd : Frame) (sz : Nat)
    (a : Space) (d : Frame) (own' : Frame → Owner) (s' : Phys) : Prop where
  free : Free own' s'
  tables : Tables own' s'.mem a d
  pages : Pages own' s' a d
  touch : Touch (Owner.within a) own s.mem own' s'.mem
  keep : ∀ g, own g ≠ .free → own' g = own g
  data : ∀ g, own g ≠ .free → ¬ (own g).inTables a → s'.mem g = s.mem g
  kernel : ∀ va, KERNBASE ≤ va → translate s' d va = kernelPte L va
  image : ∀ va : Word, va.toNat / 4096 * 4096 < sz → ∃ pte f x, translate s pd va = some pte
    ∧ Fresh own a d va f x (PTE_FLAGS pte) own' s' ∧ (U va → x = s.mem (frameOf pte))
  above : ∀ va : Word, va < KERNBASE → sz ≤ va.toNat / 4096 * 4096 → translate s' d va = none
  room : ∀ n, 1025 + (sz + 4095) / 4096 + n ≤ s.freelist.length → Roomy s' d n

theorem Copied.kern {n : Nat} (h : Copied L U own s pd n a d own' s') :
    translate s' d KERNBASE ≠ none := by
  rw [h.kernel KERNBASE (BitVec.le_refl _)]
  exact kernelPte_KERNBASE L

/-- No copy was made: there was not enough memory, and all frames have been given back. -/
structure Given (own : Frame → Owner) (s : Phys) (sz : Nat) (a : Space) (own' : Frame → Owner)
    (s' : Phys) : Prop where
  free : Free own' s'
  touch : Touch (Owner.within a) own s.mem own' s'.mem
  frames : ∀ g, g ∈ s'.freelist ↔ g ∈ s.freelist
  few : s.freelist.length < 1025 + (sz + 4095) / 4096

section

variable (hsrc : Source U own s b pd a) (hf : Free own s)
include hsrc hf

/-- `copyuvm` returns a copy of the pages below `sz`, or null with nothing lost. -/
theorem copyuvm_ok {r : Option Frame} (hsz : sz.toNat ≤ KERNBASE.toNat)
    (h : copyuvm L s pd sz = .ok (r, s')) :
    match r with
    | some d => ∃ own', Copied L U own s pd sz.toNat a d own' s'
    | none => ∃ own', Given own s sz.toNat a own' s' := by
  have hkern := toNat_KERNBASE
  rcases setupkvm_cases hf L a with ⟨hset, hnil⟩ | ⟨d, own1, s1, hset, w, hpte⟩ |
    ⟨d, own1, s1, x, hset, w, hx⟩ <;> rw [copyuvm, hset] at h
  · cases h
    refine ⟨own, hf, .refl, fun _ => Iff.rfl, ?_⟩
    rw [hnil, List.length_nil]
    omega
  · change (copyuvmLoop L pd d sz loopBound s1 0 >>= _) = _ at h
    obtain ⟨⟨copied, s2⟩, hloop, hend⟩ := bind_eq_ok.mp h
    obtain ⟨hsrc1, htr1, hmem1⟩ := hsrc.touch w.touch
    obtain ⟨own2, w2⟩ := copyuvmLoop_ok hsrc1 w.free w.tables w.pages hsz rfl hloop
    cases copied with
    | false =>
      obtain ⟨s3, hfree, hend⟩ := bind_eq_ok.mp hend
      cases hend
      obtain ⟨own3, hf3, htouch3⟩ := freevm_ok w2.grows.free w2.grows.tables w2.pages hfree
      refine ⟨own3, hf3, (w.touch.trans w2.grows.touch).trans htouch3,
        Account.freed (w2.account _ w.account) w2.grows.tables w2.pages.apart hfree, ?_⟩
      by_contra hlen
      cases (w2.room 0 (w.room _ (by omega))).1
    | true =>
      cases hend
      refine ⟨own2, w2.grows.free, w2.grows.tables, w2.pages, w.touch.trans w2.grows.touch,
        ?_, ?_, ?_, ?_, ?_, ?_⟩
      · intro g hg
        rw [w2.grows.keep g (by rwa [w.keep g hg]), w.keep g hg]
      · simp_all [w2.grows.data, w.keep, w.data]
      · intro va hva
        have hge : KERNBASE.toNat ≤ va.toNat := hva
        rw [w2.outside va (by omega), hpte]
      · intro va hva
        obtain ⟨pte, f, x, htr, hfresh, hx⟩ := w2.inside rfl va (Nat.zero_le _) hva
        rw [htr1] at htr
        refine ⟨pte, f, x, htr, { hfresh with free := ?_ },
          fun hU => by rw [hx hU, hmem1 va pte hU htr]⟩
        by_contra hne
        exact hne (by rw [← w.keep f hne]; exact hfresh.free)
      · intro va hva hge
        rw [w2.outside va (by omega), w.user va hva]
      · exact fun n hn => (w2.room n (w.room _ (by omega))).2
  · rw [bind_assoc] at h
    obtain ⟨s2, hfree, h⟩ := bind_eq_ok.mp h
    cases h
    obtain ⟨own2, hf2, htouch⟩ := freevm_ok w.free w.tables w.pages hfree
    refine ⟨own2, hf2, w.touch.trans htouch,
      Account.freed w.account w.tables w.pages.apart hfree, ?_⟩
    by_contra hlen
    exact (w.room 0 (by omega)).not_stuck hx

/-- Pages that are all there are copied as far as there are frames, if `kfree` takes these or there
    are enough of them. -/
theorem copyuvmLoop_returns {n m : Nat} (ht : Tables own s.mem a d)
    (hsz : sz.toNat ≤ KERNBASE.toNat) (hal : va.toNat % 4096 = 0)
    (hn : sz.toNat - va.toNat + 4096 ≤ n * 4096)
    (hpresent : ∀ va' : Word, va.toNat ≤ va'.toNat → va'.toNat < sz.toNat →
      translate s pd va' ≠ none)
    (habsent : ∀ va' : Word, va.toNat ≤ va'.toNat → va'.toNat < sz.toNat → translate s d va' = none)
    (hu : (∀ f ∈ s.freelist, Usable L f)
      ∨ Roomy s d ((sz.toNat + 4095) / 4096 - va.toNat / 4096 + m)) :
    ∃ r, copyuvmLoop L pd d sz n s va = .ok r := by
  have hkern := toNat_KERNBASE
  induction n generalizing own s va with
  | zero => omega
  | succ n ih =>
    unfold copyuvmLoop
    by_cases hlt : va < sz
    swap
    · exact ⟨_, if_neg hlt⟩
    have hlt' : va.toNat < sz.toNat := hlt
    have hcount : (sz.toNat + 4095) / 4096 - va.toNat / 4096 + m
        = (sz.toNat + 4095) / 4096 - (va.toNat + 4096) / 4096 + m + 1 := by omega
    rw [hcount] at hu
    obtain ⟨pte, hpte⟩ := Option.ne_none_iff_exists'.mp (hpresent va le_rfl hlt')
    obtain ⟨hpde, hword, hp⟩ := translate_iff.mp hpte
    rw [if_pos hlt, walkpgdir_false]
    simp only [if_pos hpde, hword, if_neg hp]
    cases hl : s.freelist with
    | nil =>
      rw [kalloc_nil hl]
      exact ⟨_, rfl⟩
    | cons f rest =>
      have hk := kalloc_cons hl
      rw [hk]
      have hfd : f ≠ d := by
        rintro rfl
        have hfree := hf.free f (by simp [hl])
        rw [ht.dir] at hfree
        cases hfree
      obtain ⟨hf1, ht1, htr1⟩ := newPage_start hf ht hk
        (o := .page a (frameOf va)) (by simp [inTables]) (s.mem (frameOf pte))
      have htotal : (∃ r, mappages (setFrame { s with freelist := rest } f
            (s.mem (frameOf pte))) d va PGSIZE (base f) (PTE_FLAGS pte) = .ok r) ∨
          mappages (setFrame { s with freelist := rest } f (s.mem (frameOf pte))) d va
            PGSIZE (base f) (PTE_FLAGS pte) = .panic .remap := mappages_page_total hal
      change ∃ r, (mappages (setFrame { s with freelist := rest } f (s.mem (frameOf pte)))
        d va PGSIZE (base f) (PTE_FLAGS pte) >>= _) = .ok r
      rcases htotal with ⟨⟨mapped, s2⟩, hmap⟩ | hpanic
      · rw [hmap, ok_bind]
        cases mapped with
        | true =>
          obtain ⟨own1, w⟩ := newPage_true hf ht hal hk hmap
          obtain ⟨hsrc1, htrs, -⟩ := hsrc.touch w.touch
          have hnext := toNat_add_PGSIZE va (by omega)
          refine ih hsrc1 w.free w.tables (by omega) (by omega) (fun va' h1 h2 => ?_)
            (fun va' h1 h2 => ?_) (hu.imp (fun h f hf => h f (w.suffix.subset hf)) fun h => ?_)
          · rw [htrs]
            exact hpresent va' (by omega) h2
          · rw [w.after, if_neg]
            · exact habsent va' (by omega) h2
            · grind [frameOf_eq_iff]
          · rw [hnext]
            exact w.room _ h
        | false =>
          -- the frame goes back at once
          rcases hu with hu | hroom
          · obtain ⟨s3, hfree⟩ := (hu f (by simp [hl])).kfree s2
            exact ⟨(false, s3), by simp [hfree]⟩
          · exact absurd (mappages_page_false hal hmap).2
              ((hroom.kalloc hk).setFrame hfd _).not_stuck
      · have hnone := habsent va le_rfl hlt'
        rw [← htr1] at hnone
        exact absurd hnone ((mappages_page_panic hf1.list ht1 hal).mp hpanic).2

/-- `copyuvm` does not panic. -/
theorem copyuvm_returns (hsz : sz.toNat ≤ KERNBASE.toNat)
    (hpresent : ∀ va : Word, va.toNat < sz.toNat → translate s pd va ≠ none)
    (hu : (∀ f ∈ s.freelist, Usable L f) ∨ 1025 + (sz.toNat + 4095) / 4096 ≤ s.freelist.length) :
    ∃ r, copyuvm L s pd sz = .ok r := by
  have hb : loopBound = 2097152 := rfl
  rcases setupkvm_cases hf L a with ⟨hset, hnil⟩ | ⟨d, own1, s1, hset, w, hpte⟩ |
    ⟨d, own1, s1, x, hset, w, hx⟩ <;> rw [copyuvm, hset]
  · exact ⟨_, rfl⟩
  · obtain ⟨hsrc1, htr1, -⟩ := hsrc.touch w.touch
    obtain ⟨⟨copied, s2⟩, hloop⟩ : ∃ r, copyuvmLoop L pd d sz loopBound s1 0 = .ok r := by
      refine copyuvmLoop_returns (m := 0) hsrc1 w.free w.tables hsz rfl (by omega)
        (fun va _ hva => htr1 va ▸ hpresent va hva)
        (fun va _ hva => w.user va (lt_def.mpr (by omega)))
        (hu.imp (fun h f hf => h f ((w.account f).mpr (.inl (.inl hf))))
          fun h => w.room _ (by omega))
    obtain ⟨own2, w2⟩ := copyuvmLoop_ok hsrc1 w.free w.tables w.pages hsz rfl hloop
    simp only [ok_bind, hloop]
    cases copied with
    | true => exact ⟨_, rfl⟩
    | false =>
      rcases hu with hu | hlen
      · obtain ⟨s3, hfree⟩ :=
          Account.returns (w2.account _ w.account) w2.grows.tables w2.pages.apart hu
        exact ⟨(none, s3), by simp [hfree]⟩
      · cases (w2.room 0 (w.room _ (by omega))).1
  · rcases hu with hu | hlen
    · obtain ⟨s2, hfree⟩ := Account.returns w.account w.tables w.pages.apart hu
      exact ⟨(none, s2), by simp [hfree]⟩
    · exact absurd hx (w.room 0 (by omega)).not_stuck

/-- With enough frames the copy is made. -/
theorem copyuvm_total (hsz : sz.toNat ≤ KERNBASE.toNat)
    (hpresent : ∀ va : Word, va.toNat < sz.toNat → translate s pd va ≠ none)
    (hlen : 1025 + (sz.toNat + 4095) / 4096 ≤ s.freelist.length) :
    ∃ d s', copyuvm L s pd sz = .ok (some d, s') := by
  obtain ⟨⟨r, s'⟩, h⟩ := copyuvm_returns (L := L) hsrc hf hsz hpresent (.inr hlen)
  have hr := copyuvm_ok hsrc hf hsz h
  cases r with
  | some d => exact ⟨d, s', h⟩
  | none =>
    obtain ⟨own', w⟩ := hr
    exact absurd w.few (Nat.not_lt.mpr hlen)

end

end Xv6
