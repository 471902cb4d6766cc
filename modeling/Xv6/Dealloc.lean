import Xv6.Isolation

namespace Xv6

open BitVec Kernel List Outcome

/-!
# `deallocuvm` and its skip, `freevm` and what it frees

`deallocuvm` jumps over a slot of the directory that has no page table.

* `deallocuvmPlain` — the loop without the jump, one page after the other;
* `deallocuvmLoop_eq_plain` — the two are the same function, whatever is in memory;
* `deallocuvm_frees` — both functions for an address space whose pages are not its tables, and
  whose frames `kfree` takes; `deallocuvm_highFrame` is one with another frame.
-/

variable {L : Link} {own : Frame → Owner} {s s' s1 : Phys} {a : Space} {d f g : Frame}
  {va oldsz newsz : Word}
variable {n : Nat}

/-! ### The plain loop -/

/-- The loop of `deallocuvm` if a missing page table were no reason to skip. -/
def deallocuvmPlainLoop (L : Link) (pgdir : Frame) (oldsz : Word) : Nat → Phys → Word → Res Phys
  | 0, _, _ => .hang
  | n + 1, s, a =>
    if a < oldsz then
      match walkpgdir s pgdir a false with
      | (none, s) => deallocuvmPlainLoop L pgdir oldsz n s (a + PGSIZE)
      | (some (t, i), s) =>
        let pte := s.mem t i
        if pte &&& PTE_P ≠ 0#32 then
          if PTE_ADDR pte = 0#32 then .panic .kfree
          else do
            let s ← kfree L s (P2V (PTE_ADDR pte))
            deallocuvmPlainLoop L pgdir oldsz n (s.store t i 0) (a + PGSIZE)
        else deallocuvmPlainLoop L pgdir oldsz n s (a + PGSIZE)
    else .ok s

/-- `deallocuvm` with the plain loop. -/
def deallocuvmPlain (L : Link) (s : Phys) (pgdir : Frame) (oldsz newsz : Word) :
    Res (Word × Phys) :=
  if oldsz ≤ newsz then .ok (oldsz, s)
  else do
    let s ← deallocuvmPlainLoop L pgdir oldsz loopBound s (PGROUNDUP newsz)
    return (newsz, s)

/-- The plain loop runs over `k` pages that are not mapped, and changes nothing. -/
theorem deallocuvmPlainLoop_skip {m k : Nat}
    (hnone : ∀ va' : Word, va.toNat ≤ va'.toNat → va'.toNat < va.toNat + k * 4096 →
      translate s d va' = none) (hm : oldsz.toNat ≤ va.toNat + m * 4096)
    {nxt : Word} (hnxt : nxt.toNat = va.toNat + k * 4096) :
    deallocuvmPlainLoop L d oldsz (m + 1) s va
      = deallocuvmPlainLoop L d oldsz (m - k + 1) s nxt := by
  induction k generalizing va m with
  | zero =>
    obtain rfl : nxt = va := eq_of_toNat_eq (by omega)
    rfl
  | succ k ih =>
    by_cases hlt : va < oldsz
    · have hlt' : va.toNat < oldsz.toNat := hlt
      have hnext := toNat_add_PGSIZE va (by omega)
      have hpage := hnone va le_rfl (by omega)
      obtain ⟨m, rfl⟩ : ∃ m', m = m' + 1 := ⟨m - 1, by omega⟩
      have hstep : deallocuvmPlainLoop L d oldsz (m + 1 + 1) s va
          = deallocuvmPlainLoop L d oldsz (m + 1) s (va + PGSIZE) := by
        rw [deallocuvmPlainLoop, if_pos hlt, walkpgdir_false]
        by_cases hpde : s.mem d (PDX va) &&& PTE_P ≠ 0#32
        · simp only [if_pos hpde]
          rw [if_neg fun hpte => ?_]
          rw [translate_iff.mpr ⟨hpde, rfl, hpte⟩] at hpage
          cases hpage
        · simp only [if_neg hpde]
      rw [hstep, Nat.add_sub_add_right]
      exact ih (fun va' h1 h2 => hnone va' (by omega) (by omega)) (by omega) (by omega)
    · have hge : ¬ nxt < oldsz := by
        rw [lt_def] at hlt ⊢
        omega
      rw [deallocuvmPlainLoop, if_neg hlt, deallocuvmPlainLoop, if_neg hge]

section

variable (hsz : oldsz.toNat ≤ KERNBASE.toNat) (hal : va.toNat % 4096 = 0)
variable (hn : oldsz.toNat ≤ va.toNat + n * 4096)
include hsz hal hn

/-- The two loops do the same to any memory, with any fuel that suffices. -/
theorem deallocuvmLoop_eq_plain {m : Nat} (hm : oldsz.toNat ≤ va.toNat + m * 4096) :
    deallocuvmLoop L d oldsz (n + 1) s va = deallocuvmPlainLoop L d oldsz (m + 1) s va := by
  have hkern := toNat_KERNBASE
  refine deallocuvmLoop_rule (R := fun lo s o => lo % 4096 = 0 → ∀ (va : Word) m, va.toNat = lo →
    oldsz.toNat ≤ lo + m * 4096 → o = deallocuvmPlainLoop L d oldsz (m + 1) s va)
    hsz ?_ ?_ ?_ hal hn
    hal va m rfl hm
  · intro s lo _ hle _ va m hva _
    rw [deallocuvmPlainLoop, if_neg (BitVec.not_lt.mpr (le_def.mpr (by omega)))]
  · intro s o lo mid hle hmid hkb hnone hrest hlo va m hva hm
    obtain ⟨k, rfl⟩ : ∃ k, mid = lo + k * 4096 := ⟨(mid - lo) / 4096, by omega⟩
    have hnxt : (BitVec.ofNat 32 (lo + k * 4096)).toNat = lo + k * 4096 := by
      rw [toNat_ofNat]
      omega
    rw [hrest hmid _ (m - k) hnxt (by omega)]
    subst hva
    exact (deallocuvmPlainLoop_skip hnone hm hnxt).symm
  · intro s va pte o hlt hal htr hrest _ va' m hva' hm
    obtain rfl : va' = va := eq_of_toNat_eq hva'
    obtain ⟨m, rfl⟩ : ∃ m', m = m' + 1 := ⟨m - 1, by rw [lt_def] at hlt; omega⟩
    have hnext := toNat_add_PGSIZE va' (by rw [lt_def] at hlt; omega)
    obtain ⟨hpde, rfl, hpte⟩ := translate_iff.mp htr
    rw [deallocuvmPlainLoop, if_pos hlt, walkpgdir_false]
    simp only [if_pos hpde]
    rw [if_pos hpte]
    split
    · rfl
    rcases kfree_cases L s (P2V (PTE_ADDR (s.mem (frameOf (s.mem d (PDX va'))) (PTX va'))))
      with ⟨s1, hfree⟩ | hfail
    · rw [hfree]
      exact hrest s1 hfree (by omega) _ m hnext (by omega)
    · rw [hfail]
      rfl

/-- The loop ends, whatever is in memory. -/
theorem deallocuvmLoop_ends :
    (∃ s', deallocuvmLoop L d oldsz (n + 1) s va = .ok s') ∨
      deallocuvmLoop L d oldsz (n + 1) s va = .panic .kfree := by
  refine deallocuvmLoop_rule (R := fun _ _ o => (∃ s', o = .ok s') ∨ o = .panic .kfree) hsz
    (fun s _ _ _ => .inl ⟨s, rfl⟩) (fun _ _ _ _ _ _ _ _ h => h)
    (fun s va pte o _ _ _ hrest => ?_) hal hn
  split
  · exact .inr rfl
  · rcases kfree_cases L s (P2V (PTE_ADDR pte)) with ⟨s1, hfree⟩ | hfail
    · rw [hfree]
      exact hrest s1 hfree
    · rw [hfail]
      exact .inr rfl

end

/-! ### An address space that is given back -/

/-- The tables of the directory are different frames, none of them the frame of a user page or
    the directory itself, and all are frames that `kfree` takes. -/
structure Releasable (L : Link) (s : Phys) (d : Frame) : Prop where
  tables : ∀ i, s.mem d i &&& PTE_P ≠ 0#32 → frameOf (s.mem d i) ≠ d
  distinct : ∀ i j, s.mem d i &&& PTE_P ≠ 0#32 → s.mem d j &&& PTE_P ≠ 0#32 →
    frameOf (s.mem d i) = frameOf (s.mem d j) → i = j
  user : ∀ g, UserFrame s d g → g ≠ d ∧ ¬ PageTable s d g
  usable : ∀ g, g = d ∨ PageTable s d g ∨ UserFrame s d g → Usable L g

namespace Releasable

/-- Who has which frame, for the frames of this address space. -/
noncomputable def owner (s : Phys) (d : Frame) : Frame → Owner :=
  parentOwner { s with freelist := [] } d

theorem rooted (h : Releasable L s d) : Tables (owner s d) s.mem (.proc 0) d :=
  parentOwner_tables (s := { s with freelist := [] }) not_mem_nil
    (fun i hi => ⟨not_mem_nil, h.tables i hi⟩) h.distinct

theorem apart (h : Releasable L s d) : Apart (owner s d) s (.proc 0) d := by
  intro va pte hva hpte hown
  obtain ⟨hdir, htable⟩ := h.user _ ⟨va, pte, hva, hpte, rfl⟩
  have hnot : ¬ PageTable { s with freelist := [] } d (frameOf pte) := htable
  simp only [owner, parentOwner, freed, if_neg not_mem_nil, if_neg hdir, dif_neg hnot] at hown
  rcases hown with hown | ⟨i, hown⟩ <;> cases hown

/-- With some pages less it is still one. -/
theorem cleared {lo hi : Nat} {fs : List Frame} (h : Releasable L s d)
    (w : Cleared own s a d lo hi fs s') :
    Releasable L s' d := by
  have htable : ∀ g, PageTable s' d g → PageTable s d g := fun g => (pageTable_congr w.dir).mp
  have huser : ∀ g, UserFrame s' d g → UserFrame s d g := by
    rintro g ⟨va, pte, hva, hpte, rfl⟩
    refine ⟨va, pte, hva, ?_, rfl⟩
    by_cases hin : lo ≤ va.toNat ∧ va.toNat / 4096 * 4096 < hi
    · rw [w.gone va hin.1 hin.2] at hpte
      cases hpte
    · rw [← w.same va hin, hpte]
  refine ⟨?_, ?_, fun g hg => ?_, fun g hg => ?_⟩
  · rw [w.dir]
    exact h.tables
  · rw [w.dir]
    exact h.distinct
  · exact ⟨(h.user g (huser g hg)).1, fun ht => (h.user g (huser g hg)).2 (htable g ht)⟩
  · exact h.usable g (hg.imp_right (Or.imp (htable g) (huser g)))

end Releasable

/-- What `deallocuvm` leaves when it takes pages away. -/
structure Deallocated (L : Link) (s : Phys) (d : Frame) (lo hi : Nat) (s' : Phys) : Prop where
  dir : s'.mem d = s.mem d
  gone : ∀ va : Word, lo ≤ va.toNat → va.toNat / 4096 * 4096 < hi → translate s' d va = none
  same : ∀ va : Word, ¬ (lo ≤ va.toNat ∧ va.toNat / 4096 * 4096 < hi) →
    translate s' d va = translate s d va
  freed : ∃ fs, s'.freelist = fs ++ s.freelist ∧ FramesIn s d lo hi fs ∧
    (Unshared s d lo hi → fs.Nodup)
  rest : Releasable L s' d

/-- The run of `deallocuvm` on an address space of its own. -/
theorem Releasable.deallocuvm (h : Releasable L s d) (hsz : oldsz ≤ KERNBASE)
    (hlt : newsz < oldsz) :
    ∃ s', deallocuvm L s d oldsz newsz = .ok (newsz, s') ∧
      Deallocated L s d (PGROUNDUP newsz).toNat oldsz.toNat s' := by
  obtain ⟨s', hde⟩ := deallocuvm_returns h.rooted h.apart
    (fun g hg => h.usable g (.inr (.inr hg))) hsz hlt
  obtain ⟨-, fs, w⟩ := deallocuvm_cleared h.rooted h.apart hsz hlt hde
  exact ⟨s', hde, w.dir, w.gone, w.same, ⟨fs, w.returned.freelist, w.frames, w.nodup⟩, h.cleared w⟩

/-- `deallocuvm` is the loop over all pages without its skip and ends, whatever is in memory.
    On an address space that can be given back it takes away the pages between the sizes and no
    others, and frees their frames; `freevm` frees all frames that the address space has. -/
theorem deallocuvm_frees (L : Link) (s : Phys) (d : Frame) (oldsz newsz : Word)
    (hsz : oldsz ≤ KERNBASE) :
    deallocuvm L s d oldsz newsz = deallocuvmPlain L s d oldsz newsz ∧
    ((∃ r, deallocuvm L s d oldsz newsz = .ok r) ∨
      deallocuvm L s d oldsz newsz = .panic .kfree) ∧
    (Releasable L s d →
      (newsz < oldsz → ∃ s', deallocuvm L s d oldsz newsz = .ok (newsz, s') ∧
        Deallocated L s d (PGROUNDUP newsz).toNat oldsz.toNat s') ∧
      ∃ s' fs, freevm L s d = .ok s' ∧ s'.freelist = fs ++ s.freelist ∧
        (∀ g, g ∈ fs ↔ g = d ∨ PageTable s d g ∨ UserFrame s d g) ∧
        (Unshared s d 0 KERNBASE.toNat → fs.Nodup)) := by
  have hsz' : oldsz.toNat ≤ KERNBASE.toNat := hsz
  have hal := toNat_PGROUNDUP_mod newsz
  have hn : oldsz.toNat ≤ (PGROUNDUP newsz).toNat + 2097151 * 4096 := by omega
  refine ⟨?_, ?_, fun h => ⟨fun hlt => h.deallocuvm hsz hlt, ?_⟩⟩
  · unfold deallocuvm deallocuvmPlain
    rw [loopBound_eq, deallocuvmLoop_eq_plain hsz' hal hn hn]
  · unfold deallocuvm
    by_cases hle : oldsz ≤ newsz
    · exact .inl ⟨_, by rw [if_pos hle]⟩
    · rw [if_neg hle, loopBound_eq]
      rcases deallocuvmLoop_ends (L := L) (d := d) (s := s) hsz' hal hn with ⟨s', hok⟩ | hpanic
      · exact .inl ⟨_, by rw [hok, Outcome.ok_bind]; rfl⟩
      · exact .inr (by rw [hpanic]; rfl)
  · obtain ⟨s', hfree⟩ := freevm_returns h.rooted h.apart h.usable
    obtain ⟨fs, hret, hin, hnd, -⟩ := freevm_frees h.rooted h.apart hfree
    exact ⟨s', fs, hfree, hret.freelist, hin, hnd⟩

namespace Kernel

/-- The frames that are in use for the process lie behind the kernel. -/
theorem startOwn_usable (hfree : startOwn n g ≠ .free) (hres : startOwn n g ≠ .reserved) :
    Usable startLink g := by
  have hstop : PHYSTOP.toNat / 4096 = 0xE000 := rfl
  have hend : startLink.end_.toNat = 0x80115000 := rfl
  have hrange : 0x400 ≤ g.toNat ∧ g.toNat < 0x1C00 := by
    unfold startOwn at hfree hres
    split_ifs at hfree hres with h1 h2 h3 h4 h5 h6
    · subst h1; decide
    · subst h2; decide
    · subst h3; decide
    · omega
    · omega
    · exact absurd rfl hfree
    · exact absurd rfl hres
  have hbound : g.toNat < PHYSTOP.toNat / 4096 := by omega
  refine ⟨le_def.mpr ?_, hbound⟩
  rw [toNat_P2V_base hbound, hend]
  omega

theorem start_releasable (n : Nat) : Releasable startLink (start n).phys 0x400#20 := by
  have ht := start_tables (n := n)
  have htable : ∀ i, (start n).phys.mem 0x400#20 i &&& PTE_P ≠ 0#32 →
      startOwn n (frameOf ((start n).phys.mem 0x400#20 i)) = .table (.proc 0) i :=
    fun i hi => ht.table i ((pdeFormat_valid _).mpr hi)
  have hpage : ∀ g, UserFrame (start n).phys 0x400#20 g →
      ∃ p, startOwn n g = .page (.proc 0) p := by
    rintro g ⟨va, pte, hva, hpte, rfl⟩
    exact ⟨_, start_pages va pte hva hpte⟩
  refine ⟨fun i hi heq => ?_, fun i j hi hj heq => ?_, fun g hg => ⟨?_, ?_⟩, fun g hg => ?_⟩
  · have h1 := htable i hi
    rw [heq, ht.dir] at h1
    cases h1
  · have h1 := htable i hi
    rw [heq, htable j hj] at h1
    exact (Owner.table.inj h1).2.symm
  · rintro rfl
    obtain ⟨p, hp⟩ := hpage _ hg
    cases hp
  · rintro ⟨i, hi, rfl⟩
    obtain ⟨p, hp⟩ := hpage _ hg
    rw [htable i hi] at hp
    cases hp
  · have hown : startOwn n g ≠ .free ∧ startOwn n g ≠ .reserved := by
      rcases hg with rfl | ⟨i, hi, rfl⟩ | hg
      · rw [ht.dir]
        exact ⟨Owner.noConfusion, Owner.noConfusion⟩
      · rw [htable i hi]
        exact ⟨Owner.noConfusion, Owner.noConfusion⟩
      · obtain ⟨p, hp⟩ := hpage g hg
        rw [hp]
        exact ⟨Owner.noConfusion, Owner.noConfusion⟩
    exact startOwn_usable hown.1 hown.2

end Kernel

/-- The image of the process shrinks from three pages to a bit more than one. -/
theorem deallocuvm_frees_start :
    Releasable startLink (Kernel.start 100).phys 0x400#20 ∧
    ∃ s', deallocuvm startLink (Kernel.start 100).phys 0x400#20 0x3000#32 0x1001#32
        = .ok (0x1001#32, s') ∧
      Deallocated startLink (Kernel.start 100).phys 0x400#20 (PGROUNDUP 0x1001#32).toNat
        (0x3000#32).toNat s' :=
  have h := Kernel.start_releasable 100
  ⟨h, ((deallocuvm_frees startLink (Kernel.start 100).phys 0x400#20 0x3000#32 0x1001#32
    (by decide)).2.2 h).1 (by decide)⟩

/-- A page of the process named by an entry with a frame above `PHYSTOP`: what `mmap` leaves when
    `prot` is `0x10000003`. -/
def highFrame : Phys := (Kernel.start 0).phys.store 0x401#20 5#10 0x11001007#32

/-- No entry of a user page names frame 0, and yet `deallocuvm` and `freevm` panic: `kfree` does not
    take the frame. -/
theorem deallocuvm_highFrame :
    (∀ va pte, va < KERNBASE → translate highFrame 0x400#20 va = some pte → frameOf pte ≠ 0#20) ∧
    deallocuvm startLink highFrame 0x400#20 0x6000#32 0x5000#32 = .panic .kfree ∧
    freevm startLink highFrame 0x400#20 = .panic .kfree := by
  refine ⟨fun va pte hva hpte => ?_, isPanic_iff.mp (by decide +kernel),
    isPanic_iff.mp (by decide +kernel)⟩
  have hpde : (Kernel.start 0).phys.mem 0x400#20 (PDX 0x5000#32) &&& PTE_P ≠ 0#32 := by
    decide +kernel
  have htr : translate highFrame 0x400#20 va = if frameOf va = frameOf 0x5000#32 then
      some 0x11001007#32 else translate (Kernel.start 0).phys 0x400#20 va :=
    translate_store start_tables hpde (by decide) va
  rw [htr] at hpte
  split at hpte
  · cases hpte
    decide
  · intro h0
    have hown := start_pages va pte hva hpte
    rw [h0] at hown
    cases hown

end Xv6
