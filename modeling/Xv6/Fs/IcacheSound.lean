import Xv6.Fs.IcacheInv

namespace Xv6.Fs

open Dinode Function List Option Run State Outcome

/-!
# The inode cache keeps its promise

* `call_inv`, `run_inv`, `inv_of_reach` — the invariant holds in every state that is reached;
* `Keeps`, `step_keeps` — a slot gets another inode only when nobody refers to it, and only an
  `iput` frees an inode;
* `icache_sound` — what follows for every interleaving.
-/

section

variable {P : Type} [Fintype P] [DecidableEq P] {s s' : State P} {p q : P} {i j : SlotId} {r : Ref}
  {k : Key}
variable {c : Call} {a : Act P}

/-- A call keeps the invariant. -/
theorem call_inv (h : Inv s) (hpc : s.pc p = .user) (hrule : s.Rules (.call p c))
    (hcall : s.call p c = .ok s') : Inv s' := by
  cases c with
  | ialloc dev type =>
    cases hcall
    exact h.goto hpc rfl rfl rfl hrule
  | iget k =>
    obtain ⟨s1, hs1, h1⟩ := bind_eq_ok.mp hcall
    cases h1
    obtain ⟨i, ho⟩ := iget_opened hs1
    have hmark (q : P) (hq : s.pc q = .marked k) : False := by
      have hok := h.at hq
      rcases hrule with ⟨-, hn⟩ | ⟨j, ⟨r, hr, rfl⟩, rfl⟩
      · rw [hok.nlink] at hn
        exact absurd hn (lt_irrefl _)
      · exact h.not_marked (live_of_not_gone (s := s) (p := p) (by rw [hpc]; rfl) ▸ hr) q hq
    refine h.opened ho (.inl hpc) ?_ (fun q r hd hc => ?_) (fun q hq => (hmark q hq).elim)
    · rcases hrule with ⟨ht, -⟩ | ⟨j, ⟨r, hr, rfl⟩, rfl⟩
      · exact ht
      · exact (h.live_user hpc hr).2
    · rcases hrule with ⟨-, hn⟩ | ⟨j, hj, rfl⟩
      · rintro rfl
        rw [← (h.doomed_copy hd hc).1, hd.nlink] at hn
        exact absurd hn (lt_irrefl _)
      · exact h.not_doomed hpc hj hd hc
  | idup i =>
    rw [call] at hcall
    split at hcall
    · rename_i r hr
      cases hcall
      obtain ⟨hmem, rfl⟩ := findRef_some hr
      obtain ⟨hgen, htype⟩ := h.live_user hpc hmem
      have hpos := h.ref_pos ⟨r, hmem, rfl⟩
      have hreq : r = ⟨r.slot, s.gen (s.slot r.slot).key⟩ := by rw [← hgen]
      have hlive : r ∈ s.live p := by
        rw [live_of_not_gone (by rw [hpc]; rfl)]
        exact hmem
      have ho := opened_of (s := s) (p := p) (i := r.slot) (k := (s.slot r.slot).key)
        (x := { s.slot r.slot with ref := (s.slot r.slot).ref + 1 }) rfl rfl rfl rfl
        (fun _ => ⟨rfl, rfl⟩) (fun hz => by omega)
      rw [← hreq] at ho
      exact h.opened ho (.inl hpc) htype (fun q x hd hc => h.not_doomed hpc ⟨r, hmem, rfl⟩ hd hc)
        (fun q hq => absurd hq (h.not_marked hlive q))
    · cases hcall
  | ilock i =>
    rw [call] at hcall
    split at hcall
    · cases hcall
    · split at hcall
      · rename_i hl
        cases hcall
        refine h.setLock hpc (fun q hq => ?_) (fun _ => hrule) rfl rfl rfl
          ⟨hrule, congrArg Inode.lock setSlot_self⟩
        rw [hl]
        exact ⟨nofun, fun he => hq (some.inj he).symm⟩
      · cases hcall
  | iunlock i =>
    rw [call] at hcall
    split at hcall
    · cases hcall
    · rename_i hl
      cases hcall
      have hl' : (s.slot i).lock = some p := by
        by_contra hne
        exact hl (.inl hne)
      refine h.setLock hpc (fun q hq => ?_) nofun rfl rfl rfl trivial
      rw [hl']
      exact ⟨fun he => hq (some.inj he).symm, nofun⟩
  | iupdate i d =>
    cases hcall
    obtain ⟨hl, htype⟩ := hrule
    obtain ⟨r, hr, rfl⟩ := h.lock i p hl
    have hlive : r ∈ s.live p := by
      rw [live_of_not_gone (by rw [hpc]; rfl)]
      exact hr
    refine h.wrote (v := (s.slot r.slot).valid) (d := d) hpc ⟨r, hr, rfl⟩
      (fun k hk => update_of_ne hk ..) (fun _ => ?_)
      (fun q hq => absurd hq (h.not_marked hlive q)) (fun _ => ?_) rfl nofun rfl trivial
    · rw [update_self]
      exact htype
    · rw [update_self]
      exact ⟨rfl, htype⟩
  | iput i =>
    rw [call] at hcall
    split at hcall
    · rename_i r hr
      obtain ⟨hmem, rfl⟩ := findRef_some hr
      split at hcall
      · rename_i hl
        cases hcall
        refine h.setLock hpc (fun q hq => ?_) (fun _ => hrule) rfl rfl rfl
          ⟨hmem, congrArg Inode.lock setSlot_self⟩
        rw [hl]
        exact ⟨nofun, fun he => hq (some.inj he).symm⟩
      · cases hcall
    · cases hcall

/-- What a process does in a function keeps the invariant. -/
theorem run_inv (h : Inv s) (hrun : s.run p = .ok s') : Inv s' := by
  have hok := h.pc p
  unfold run at hrun
  cases hpc : s.pc p with
  | user =>
    rw [hpc] at hrun
    cases hrun
  | filling i =>
    rw [hpc] at hrun hok
    obtain ⟨⟨r, hr, rfl⟩, hl⟩ := hok
    simp only at hrun
    split at hrun
    · cases hrun
      exact h.goto hpc rfl rfl rfl trivial
    · split at hrun
      · cases hrun
      · rename_i htype
        cases hrun
        exact h.wrote hpc ⟨r, hr, rfl⟩ (fun k _ => rfl) id (fun q _ => rfl) (fun _ => ⟨rfl, htype⟩)
          rfl nofun rfl trivial
  | scanning dev inum type =>
    rw [hpc] at hrun hok
    simp only at hrun
    split at hrun
    · cases hrun
    · split at hrun
      · rename_i hfree
        cases hrun
        exact h.allocated (k := (dev, inum)) (d := { zero with type }) hpc hfree hok rfl rfl
          rfl (fun k hk => update_of_ne hk ..) rfl goto_self (fun q hq => goto_ne hq)
      · cases hrun
        exact h.goto hpc rfl rfl rfl hok
  | marked k =>
    rw [hpc] at hrun hok
    obtain ⟨s1, hs1, h1⟩ := bind_eq_ok.mp hrun
    cases h1
    obtain ⟨i, ho⟩ := iget_opened hs1
    refine h.opened ho (.inr hpc) hok.type (fun q r hd hc => ?_) hok.alone
    have hlive : r ∈ s.live q := by
      rw [live_of_not_gone (by rcases hc with hc | hc <;> rw [hc] <;> rfl)]
      exact hd.mem
    exact hok.unknown q r hlive
  | putting r =>
    rw [hpc] at hrun hok
    simp only at hrun
    split at hrun
    · rename_i hc
      cases hrun
      exact h.goto hpc rfl rfl rfl ⟨hok.1, hok.2, hc.1, hc.2.1, hc.2.2⟩
    · cases hrun
      exact h.goto hpc rfl rfl rfl hok
  | freeing r =>
    rw [hpc] at hrun hok
    cases hrun
    obtain ⟨hcopy, htype⟩ := h.doomed_copy hok (.inl hpc)
    have hlive : r ∈ s.live p := by
      rw [live_of_not_gone (by rw [hpc]; rfl)]
      exact hok.mem
    have hx : ∀ x, (s.setSlot r.slot x).slot r.slot = x := fun x => setSlot_self
    refine h.wrote (v := (s.slot r.slot).valid) hpc ⟨r, hok.mem, rfl⟩
      (fun k hk => update_of_ne hk ..) (fun _ => ?_)
      (fun q hq => absurd hq (h.not_marked hlive q)) (fun _ => ?_) rfl nofun rfl
      ⟨hok.mem, ?_, ?_, ?_, ?_⟩
    · rw [update_self]
      exact hcopy ▸ htype
    · rw [update_self]
      exact ⟨rfl, hcopy ▸ htype⟩
    · exact (congrArg Inode.lock (hx _)).trans hok.lock
    · exact (congrArg Inode.valid (hx _)).trans hok.valid
    · rw [← hok.nlink]
      exact congrArg (fun x => x.d.nlink) (hx _)
    · exact (congrArg Inode.ref (hx _)).trans hok.ref
  | truncated r =>
    rw [hpc] at hrun hok
    cases hrun
    have hgone : (s.pc p).gone = none := by rw [hpc]; rfl
    have hlive : r ∈ s.live p := by
      rw [live_of_not_gone hgone]
      exact hok.mem
    refine h.changed (p := p) (i := r.slot) (v := (s.slot r.slot).valid) ⟨r, hok.mem, rfl⟩
      setSlot_self (fun j hj => setSlot_ne hj) (fun k hk => update_of_ne hk ..) rfl rfl
      (fun q hq => goto_ne hq) (fun q x hx => ?_)
      (fun q _ hq => absurd hq (h.not_marked hlive q)) ?_ ?_ (fun _ hnf => ?_)
      (by rw [hpc]; exact nofun)
    · -- the reference that is about to be dropped is the only one
      by_cases hq : q = p
      · subst hq
        unfold live at hx
        rw [goto_self] at hx
        rw [live_of_not_gone hgone]
        exact ⟨mem_of_mem_erase hx, fun he => absurd he (h.sole_erase hok.ref hok.mem hx)⟩
      · rw [live_goto_ne hq] at hx
        exact ⟨hx, fun he =>
          absurd (h.sole hok.ref ⟨x, live_subset hx, he⟩ ⟨r, hok.mem, rfl⟩) hq⟩
    · rw [goto_self]
      exact fun k => nofun
    · rw [goto_self]
      exact ⟨hok.mem, (congrArg Inode.lock setSlot_self).trans hok.lock⟩
    · exact absurd rfl (hnf p r goto_self)
  | freed r =>
    rw [hpc] at hrun hok
    cases hrun
    refine h.wrote (d := (s.slot r.slot).d) hpc ⟨r, hok.1, rfl⟩ (fun k _ => rfl) id (fun q _ => rfl)
      nofun rfl (fun x hx => ?_) rfl ⟨hok.1, (congrArg Inode.lock setSlot_self).trans hok.2⟩
    cases hx
    rfl
  | leaving r gone =>
    rw [hpc] at hrun hok
    cases hrun
    refine h.setLock hpc (fun q hq => ?_) nofun (by cases gone <;> rfl) rfl rfl ⟨hok.1, ?_⟩
    · rw [hok.2]
      exact ⟨fun he => hq (some.inj he).symm, nofun⟩
    · show ((s.setSlot _ _).slot _).lock ≠ _
      rw [setSlot_self]
      exact nofun
  | dropping r gone =>
    rw [hpc] at hrun
    cases hrun
    exact h.dropped hpc setSlot_self (fun j hj => setSlot_ne hj) rfl rfl (update_self ..)
      (fun q hq => update_of_ne hq ..) goto_self (fun q hq => goto_ne hq)

/-- Every step keeps `Inv`. -/
theorem step_inv (h : Inv s) (hrule : s.Rules a) (hstep : s.step a = .ok s') : Inv s' := by
  cases a with
  | call p c => grind [step, call_inv]
  | run p => exact run_inv h hstep
  | hand p q i =>
    rw [step] at hstep
    split at hstep
    · rename_i r hr
      obtain ⟨hmem, rfl⟩ := findRef_some hr
      split at hstep
      · rename_i hpc
        cases hstep
        exact h.handed hpc hmem hrule
      · cases hstep
    · cases hstep

omit [DecidableEq P] in
/-- It holds at the start. -/
theorem init_inv (ninodes : Nat) (disk : Key → Dinode) :
    Inv (State.init (P := P) ninodes disk) where
  unique := fun _ _ h => absurd h (lt_irrefl 0)
  count := fun _ => (Count.total_eq_zero fun _ => rfl).symm
  live := fun _ _ h => absurd h not_mem_nil
  lock := fun _ _ h => nomatch h
  pc := fun _ => trivial
  copy := fun _ h => absurd h (lt_irrefl 0)

/-- So it holds in every run. -/
theorem inv_of_reach {ninodes : Nat} {disk : Key → Dinode}
    (h : Reach State.step State.Rules (State.init ninodes disk) s) : Inv s :=
  h.invariant (init_inv ninodes disk) fun _ _ _ hi hc hs => step_inv hi hc hs

/-! ### What a step does to slots and to the disk -/

omit [Fintype P] [DecidableEq P] in
/-- A slot keeps its inode. -/
theorem setSlot_key {x : Inode P} (hx : x.key = (s.slot i).key) (j : SlotId) :
    ((s.setSlot i x).slot j).key = (s.slot j).key := by
  by_cases hj : j = i
  · rw [hj, setSlot_self, hx]
  · rw [setSlot_ne hj]

/-- What no step does: give a slot that somebody refers to another inode, or free an inode, unless
    it is the step of `iput` that does so. -/
structure Keeps (s s' : State P) (a : Act P) : Prop where
  key : ∀ j, 0 < (s.slot j).ref → (s'.slot j).key = (s.slot j).key
  type : ∀ k, (s.disk k).type ≠ .free → (s'.disk k).type = .free →
    ∃ p r, a = .run p ∧ s.pc p = .truncated r ∧ (s.slot r.slot).key = k

omit [Fintype P] in
/-- `iget` gives a slot to another inode only if nobody refers to it. -/
theorem keeps_iget (h : s.iget p k = .ok s') : Keeps s (s'.goto p .user) a := by
  obtain ⟨i, ho⟩ := iget_opened h
  refine ⟨fun j hj => ?_, fun k' hk hk' => ?_⟩
  · by_cases hji : j = i
    · subst hji
      exact ho.key.trans (ho.hit hj).1.symm
    · exact congrArg Inode.key (ho.slot j hji)
  · rw [ho.disk] at hk'
    exact absurd hk' hk

omit [Fintype P] [DecidableEq P] in
/-- A step that leaves the disk alone. -/
theorem keeps_of_disk (hkey : ∀ j, (s'.slot j).key = (s.slot j).key) (hdisk : s'.disk = s.disk) :
    Keeps s s' a :=
  ⟨fun j _ => hkey j, fun _ hk hk' => absurd (hdisk ▸ hk') hk⟩

omit [Fintype P] [DecidableEq P] in
/-- A step that writes an inode which is not free. -/
theorem keeps_of_write {d : Dinode} (hkey : ∀ j, (s'.slot j).key = (s.slot j).key)
    (hdisk : s'.disk = update s.disk k d) (hd : d.type ≠ .free) : Keeps s s' a := by
  refine ⟨fun j _ => hkey j, fun k' hk hk' => ?_⟩
  rw [hdisk] at hk'
  by_cases hkk : k' = k
  · rw [hkk, update_self] at hk'
    exact absurd hk' hd
  · rw [update_of_ne hkk] at hk'
    exact absurd hk' hk

omit [Fintype P] in
/-- The first step of a call keeps them. -/
theorem call_keeps (hrule : s.Rules (.call p c)) (hcall : s.call p c = .ok s') :
    Keeps s s' (.call p c) := by
  cases c with
  | ialloc dev type =>
    cases hcall
    exact keeps_of_disk (fun _ => rfl) rfl
  | iget k =>
    obtain ⟨s1, hs1, h1⟩ := bind_eq_ok.mp hcall
    cases h1
    exact keeps_iget hs1
  | idup i =>
    rw [call] at hcall
    split at hcall <;> cases hcall
    exact keeps_of_disk (setSlot_key rfl) rfl
  | ilock i =>
    rw [call] at hcall
    split at hcall
    · cases hcall
    · split at hcall <;> cases hcall
      exact keeps_of_disk (setSlot_key rfl) rfl
  | iunlock i =>
    rw [call] at hcall
    split at hcall <;> cases hcall
    exact keeps_of_disk (setSlot_key rfl) rfl
  | iupdate i d =>
    cases hcall
    exact keeps_of_write (setSlot_key rfl) rfl hrule.2
  | iput i =>
    rw [call] at hcall
    split at hcall
    · split at hcall <;> cases hcall
      exact keeps_of_disk (setSlot_key rfl) rfl
    · cases hcall

/-- So do the later ones. -/
theorem run_keeps (h : Inv s) (hrun : s.run p = .ok s') : Keeps s s' (.run p) := by
  have hok := h.pc p
  unfold run at hrun
  cases hpc : s.pc p with
  | user =>
    rw [hpc] at hrun
    cases hrun
  | filling i =>
    rw [hpc] at hrun
    simp only at hrun
    split at hrun
    · cases hrun
      exact keeps_of_disk (fun _ => rfl) rfl
    · split at hrun <;> cases hrun
      exact keeps_of_disk (setSlot_key rfl) rfl
  | scanning dev inum type =>
    rw [hpc] at hrun hok
    simp only at hrun
    split at hrun
    · cases hrun
    · split at hrun <;> cases hrun
      · exact keeps_of_write (fun _ => rfl) rfl hok
      · exact keeps_of_disk (fun _ => rfl) rfl
  | marked k =>
    rw [hpc] at hrun
    obtain ⟨s1, hs1, h1⟩ := bind_eq_ok.mp hrun
    cases h1
    exact keeps_iget hs1
  | putting r =>
    rw [hpc] at hrun
    simp only at hrun
    split at hrun <;> cases hrun <;> exact keeps_of_disk (fun _ => rfl) rfl
  | freeing r =>
    rw [hpc] at hrun hok
    cases hrun
    obtain ⟨hcopy, htype⟩ := h.doomed_copy hok (.inl hpc)
    exact keeps_of_write (setSlot_key rfl) rfl (hcopy ▸ htype)
  | truncated r =>
    rw [hpc] at hrun
    cases hrun
    refine ⟨fun j _ => ?_, fun k hk hk' => ⟨p, r, rfl, hpc, ?_⟩⟩
    · exact setSlot_key
        (x := { s.slot r.slot with d := { (s.slot r.slot).d with type := .free } }) rfl j
    · by_contra hne
      exact hk ((congrArg type (update_of_ne (Ne.symm hne) ..)).symm.trans hk')
  | freed r | leaving r gone | dropping r gone =>
    rw [hpc] at hrun
    cases hrun
    exact keeps_of_disk (setSlot_key rfl) rfl

/-- So does every step. -/
theorem step_keeps (h : Inv s) (hrule : s.Rules a) (hstep : s.step a = .ok s') : Keeps s s' a := by
  cases a with
  | call p c =>
    rw [step] at hstep
    split at hstep
    · exact call_keeps hrule hstep
    · cases hstep
  | run p => exact run_keeps h hstep
  | hand p q i =>
    rw [step] at hstep
    split at hstep
    · split at hstep <;> cases hstep
      exact keeps_of_disk (fun _ => rfl) rfl
    · cases hstep

/-- **The inode cache.**  In every interleaving: an inode is in one slot; reference counts are
    exact; a slot that somebody refers to keeps its inode; an `iput` that truncates or frees an
    inode finds it without links on the disk and has the only reference, and nothing else frees an
    inode; and whoever has a reference, except the `iput` that has freed the inode, has it to the
    inode as it was allocated when the reference was made. -/
theorem icache_sound {ninodes : Nat} {disk : Key → Dinode}
    (h : Reach State.step State.Rules (State.init ninodes disk) s) :
    (∀ i j, 0 < (s.slot i).ref → 0 < (s.slot j).ref → (s.slot i).key = (s.slot j).key → i = j)
    ∧ (∀ i, (s.slot i).ref = Count.total (countRefs i) s.refs)
    ∧ (∀ a s', s.Rules a → s.step a = .ok s' →
        ∀ i, (s'.slot i).key ≠ (s.slot i).key → (s.slot i).ref = 0)
    ∧ (∀ p r, s.pc p = .freeing r ∨ s.pc p = .truncated r →
        (s.disk (s.slot r.slot).key).nlink = 0 ∧ r ∈ s.refs p ∧ (s.slot r.slot).ref = 1)
    ∧ (∀ a s', s.Rules a → s.step a = .ok s' →
        ∀ k, (s.disk k).type ≠ .free → (s'.disk k).type = .free →
          ∃ p r, a = .run p ∧ s.pc p = .truncated r ∧ (s.slot r.slot).key = k)
    ∧ ∀ p, ∀ r ∈ s.live p,
        r.gen = s.gen (s.slot r.slot).key ∧ (s.disk (s.slot r.slot).key).type ≠ .free := by
  have hinv := inv_of_reach h
  refine ⟨hinv.unique, hinv.count, fun a s' hrule hstep i hne => ?_, fun p r hpc => ?_,
    fun a s' hrule hstep => (step_keeps hinv hrule hstep).type, hinv.live⟩
  · by_contra hpos
    exact hne ((step_keeps hinv hrule hstep).key i (Nat.pos_of_ne_zero hpos))
  · have hd : Doomed s p r := by
      rcases hpc with hpc | hpc
      · exact hinv.at hpc
      · exact hinv.at hpc
    rw [← (hinv.doomed_copy hd hpc).1]
    exact ⟨hd.nlink, hd.mem, hd.ref⟩

end

/-! ### A file that is removed while another one takes its inode -/

instance {P : Type} (s : State P) (p : P) (i : SlotId) : Decidable (s.Has p i) :=
  inferInstanceAs (Decidable (∃ r ∈ s.refs p, r.slot = i))

instance {P : Type} [DecidableEq P] (s : State P) : (a : Act P) → Decidable (s.Rules a)
  | .call _ (.ialloc _ type) => inferInstanceAs (Decidable (type ≠ .free))
  | .call p (.iget k) => inferInstanceAs (Decidable ((s.disk k).type ≠ .free ∧ 0 < (s.disk k).nlink
      ∨ ∃ i, s.Has p i ∧ (s.slot i).key = k))
  | .call p (.idup i) | .call p (.ilock i) | .call p (.iput i) =>
    inferInstanceAs (Decidable (s.Has p i))
  | .call p (.iupdate i d) =>
    inferInstanceAs (Decidable ((s.slot i).lock = some p ∧ d.type ≠ .free))
  | .hand p _ i => inferInstanceAs (Decidable ((s.slot i).lock ≠ some p))
  | .call _ (.iunlock _) | .run _ => inferInstanceAs (Decidable True)

/-- Process 0 makes a file without links and drops it; process 1 gets the inode while process 0
    is still in `iput`, and hands a reference to it. -/
def reused : List (Act (Fin 2)) :=
  [.call 0 (.ialloc 1 .file), .run 0, .run 0, .call 0 (.ilock 0), .run 0, .call 0 (.iunlock 0),
    .call 0 (.iput 0), .run 0, .run 0, .run 0,
    .call 1 (.ialloc 1 .file), .run 1, .run 1, .call 1 (.iget (1, 1)), .hand 1 0 0]

/-- A slot is used again for another inode. -/
theorem icache_sound_reused :
    ∃ s, Reach State.step State.Rules (State.init (P := Fin 2) 3 fun _ => .zero) s
      ∧ s.refs 0 = [⟨0, 2⟩, ⟨0, 1⟩] ∧ s.refs 1 = [⟨0, 2⟩] ∧ s.gen (1, 1) = 2
      ∧ ∀ p, ∀ r ∈ s.live p, r.gen = s.gen (s.slot r.slot).key := by
  obtain ⟨s, hs, ht⟩ := Outcome.holds_iff.mp
    (show (reused.foldlM (fun (s : State (Fin 2)) a => if s.Rules a then s.step a else .hang)
      (State.init (P := Fin 2) 3 fun _ => .zero)).holds
      (fun s => s.refs 0 = [⟨0, 2⟩, ⟨0, 1⟩] ∧ s.refs 1 = [⟨0, 2⟩] ∧ s.gen (1, 1) = 2) = true by
        decide +kernel)
  obtain ⟨h0, h1, hg⟩ := of_decide_eq_true ht
  have hr : Reach State.step State.Rules _ s := Reach.of_checked hs
  exact ⟨s, hr, h0, h1, hg, fun p r hlive => ((icache_sound hr).2.2.2.2.2 p r hlive).1⟩

end Xv6.Fs
