import Xv6.Fs.Icache

namespace Xv6.Fs

open Xv6.Count Function List Run State

/-!
# References to inodes

What holds of the inode cache in every interleaving.

* `Pc.gone`, `State.live` — the reference that an `iput` which has freed the inode is about to drop,
  and all the others;
* `Inv` — one slot for an inode, exact reference counts, live references to inodes that are
  allocated and not allocated anew, copies equal to the disk;
* `Inv.relock`, `Inv.opened`, `Inv.dropped`, `Inv.changed`, `Inv.allocated`, `Inv.handed` — one
  lemma for each kind of step.
-/

variable {P : Type}

/-- The reference of an `iput` that has freed its inode. -/
def Pc.gone : Pc → Option Ref
  | .freed r | .leaving r true | .dropping r true => some r
  | _ => none

/-- The references that process `p` has, without the one it is dropping after it has freed the
    inode. -/
def State.live (s : State P) (p : P) : List Ref :=
  match (s.pc p).gone with
  | some r => (s.refs p).erase r
  | none => s.refs p

/-- Inode `k` is allocated, and nobody but process `p` knows of it. -/
structure Marked (s : State P) (p : P) (k : Key) : Prop where
  type : (s.disk k).type ≠ .free
  nlink : (s.disk k).nlink = 0
  unknown : ∀ q, ∀ r ∈ s.live q, (s.slot r.slot).key ≠ k
  alone : ∀ q, s.pc q = .marked k → q = p

/-- The inode in the slot has no links, and reference `r` of process `p` is the only one. -/
structure Doomed (s : State P) (p : P) (r : Ref) : Prop where
  mem : r ∈ s.refs p
  lock : (s.slot r.slot).lock = some p
  valid : (s.slot r.slot).valid = true
  nlink : (s.slot r.slot).d.nlink = 0
  ref : (s.slot r.slot).ref = 1

/-- What holds where a process stands. -/
def PcOk (s : State P) (p : P) : Pc → Prop
  | .user => True
  | .filling i => s.Has p i ∧ (s.slot i).lock = some p
  | .scanning _ _ type => type ≠ .free
  | .marked k => Marked s p k
  | .freeing r | .truncated r => Doomed s p r
  | .putting r | .freed r | .leaving r _ => r ∈ s.refs p ∧ (s.slot r.slot).lock = some p
  | .dropping r _ => r ∈ s.refs p ∧ (s.slot r.slot).lock ≠ some p

/-- The references to slot `i` in a list. -/
def countRefs (i : SlotId) (l : List Ref) : Nat := l.countP (·.slot = i)

/-- The invariant of the cache. -/
structure Inv [Fintype P] (s : State P) : Prop where
  unique : ∀ i j, 0 < (s.slot i).ref → 0 < (s.slot j).ref → (s.slot i).key = (s.slot j).key → i = j
  count : ∀ i, (s.slot i).ref = Count.total (countRefs i) s.refs
  live : ∀ p, ∀ r ∈ s.live p, r.gen = s.gen (s.slot r.slot).key
    ∧ (s.disk (s.slot r.slot).key).type ≠ .free
  lock : ∀ i p, (s.slot i).lock = some p → s.Has p i
  pc : ∀ p, PcOk s p (s.pc p)
  copy : ∀ i, 0 < (s.slot i).ref → (s.slot i).valid = true →
    (∀ p r, s.pc p = .freed r → r.slot ≠ i) →
    (s.slot i).d = s.disk (s.slot i).key ∧ (s.disk (s.slot i).key).type ≠ .free

section

variable {s s' : State P} {p q : P} {i j : SlotId} {r : Ref} {k : Key} {x : Inode P} {c : Pc}

@[simp] theorem setSlot_self : (s.setSlot i x).slot i = x := update_self ..

theorem setSlot_ne (h : j ≠ i) : (s.setSlot i x).slot j = s.slot j := update_of_ne h ..

theorem live_subset (h : r ∈ s.live p) : r ∈ s.refs p := by
  unfold live at h
  split at h
  · exact mem_of_mem_erase h
  · exact h

theorem live_of_not_gone (h : (s.pc p).gone = none) : s.live p = s.refs p := by
  unfold live
  rw [h]

theorem live_congr (hpc : (s'.pc q).gone = (s.pc q).gone) (hrefs : s'.refs q = s.refs q) :
    s'.live q = s.live q := by
  unfold live
  rw [hpc, hrefs]

/-- What holds where a process stands stays if what it is about does. -/
theorem PcOk.frame (h : PcOk s q c) (hrefs : s.refs q ⊆ s'.refs q)
    (hlock : ∀ i, (s'.slot i).lock = some q ↔ (s.slot i).lock = some q)
    (hdoomed : ∀ r, Doomed s q r → c = .freeing r ∨ c = .truncated r → Doomed s' q r)
    (hmarked : ∀ k, Marked s q k → c = .marked k → Marked s' q k) : PcOk s' q c := by
  cases c with
  | user => trivial
  | filling i =>
    obtain ⟨⟨r, hr, hri⟩, hl⟩ := h
    exact ⟨⟨r, hrefs hr, hri⟩, (hlock i).mpr hl⟩
  | scanning dev inum type => exact h
  | marked k => exact hmarked k h rfl
  | putting r | freed r | leaving r gone => exact ⟨hrefs h.1, (hlock _).mpr h.2⟩
  | freeing r => exact hdoomed r h (.inl rfl)
  | truncated r => exact hdoomed r h (.inr rfl)
  | dropping r gone => exact ⟨hrefs h.1, fun hl => h.2 ((hlock _).mp hl)⟩

/-- An inode that only one process knows of stays so if nobody gets to know of it. -/
theorem Marked.frame (h : Marked s q k) (hdisk : s'.disk k = s.disk k)
    (hlive : ∀ q' r, r ∈ s'.live q' → (s'.slot r.slot).key = k →
      ∃ q'', r ∈ s.live q'' ∧ (s.slot r.slot).key = k)
    (hpc : ∀ q', q' ≠ p → s'.pc q' = s.pc q') (hp : s'.pc p ≠ .marked k) : Marked s' q k where
  type := hdisk ▸ h.type
  nlink := hdisk ▸ h.nlink
  unknown q' r hr hkey := by
    obtain ⟨q'', hr, hkey⟩ := hlive q' r hr hkey
    exact h.unknown q'' r hr hkey
  alone q' hq' := by
    by_cases hqp : q' = p
    · exact absurd (hqp ▸ hq') hp
    · exact h.alone q' ((hpc q' hqp).symm.trans hq')

variable [DecidableEq P]

@[simp] theorem goto_self : (s.goto p c).pc p = c := update_self ..

theorem goto_ne (h : q ≠ p) : (s.goto p c).pc q = s.pc q := update_of_ne h ..

theorem live_goto_ne (h : q ≠ p) : (s.goto p c).live q = s.live q :=
  live_congr (by rw [goto_ne h]) rfl

end

section

variable [Fintype P] {s s' : State P} {p q : P} {i j : SlotId} {r : Ref} {k : Key}

omit [Fintype P] in
theorem countRefs_pos (h : s.Has p i) : 0 < countRefs i (s.refs p) := by
  obtain ⟨r, hr, rfl⟩ := h
  exact countP_pos_iff.mpr ⟨r, hr, by simp⟩

theorem Inv.at {c : Pc} (h : Inv s) (hpc : s.pc p = c) : PcOk s p c := hpc ▸ h.pc p

/-- A held slot is in use. -/
theorem Inv.ref_pos (h : Inv s) (hp : s.Has p i) : 0 < (s.slot i).ref := by
  have hle := weight_le (countRefs i) s.refs p
  have hpos := countRefs_pos hp
  rw [h.count]
  omega

/-- A slot that is referenced once is referenced by one process. -/
theorem Inv.sole (h : Inv s) (hone : (s.slot i).ref = 1) (hp : s.Has p i) (hq : s.Has q i) :
    p = q := by
  by_contra hne
  have hle := weight_add_le (countRefs i) s.refs hne
  have hpos := countRefs_pos hp
  have hpos' := countRefs_pos hq
  rw [h.count] at hone
  omega

/-- The only reference to a slot, when it is taken out of its list, leaves none. -/
theorem Inv.sole_erase (h : Inv s) (hone : (s.slot r.slot).ref = 1) (hr : r ∈ s.refs p) {x : Ref}
    (hx : x ∈ (s.refs p).erase r) : x.slot ≠ r.slot := by
  intro hslot
  have hle := weight_le (countRefs r.slot) s.refs p
  have htwo : 2 ≤ countRefs r.slot (s.refs p) := by
    have hpos : 0 < ((s.refs p).erase r).countP (·.slot = r.slot) :=
      countP_pos_iff.mpr ⟨x, hx, by simpa using hslot⟩
    have herase := countP_erase (fun x : Ref => decide (x.slot = r.slot)) (s.refs p) r
    simp only [hr, true_and, decide_true, if_true] at herase
    unfold countRefs
    omega
  rw [h.count] at hone
  omega

end

/-! ### Locks -/

section

variable [Fintype P] {s s' : State P} {p q : P} {i j : SlotId} {r : Ref} {k : Key}
variable {d : Dinode} {v : Bool} {c : Pc}

/-- Process `p` takes or releases locks, and goes on. -/
theorem Inv.relock (h : Inv s) (hslot : ∀ j, s'.slot j = { s.slot j with lock := (s'.slot j).lock })
    (hdisk : s'.disk = s.disk) (hgen : s'.gen = s.gen) (hrefs : s'.refs = s.refs)
    (hpc : ∀ q, q ≠ p → s'.pc q = s.pc q) (hgone : (s'.pc p).gone = (s.pc p).gone)
    (hfreed : ∀ r, s'.pc p ≠ .freed r ∧ s.pc p ≠ .freed r) (hmark : ∀ k, s'.pc p ≠ .marked k)
    (hlock : ∀ j q, (s'.slot j).lock = some q → s.Has q j)
    (hkeep : ∀ j q, q ≠ p → ((s'.slot j).lock = some q ↔ (s.slot j).lock = some q))
    (hp : PcOk s' p (s'.pc p)) : Inv s' := by
  have hkey (j : SlotId) : (s'.slot j).key = (s.slot j).key := by rw [hslot]
  have href (j : SlotId) : (s'.slot j).ref = (s.slot j).ref := by rw [hslot]
  have hvalid (j : SlotId) : (s'.slot j).valid = (s.slot j).valid := by rw [hslot]
  have hd (j : SlotId) : (s'.slot j).d = (s.slot j).d := by rw [hslot]
  have hlive (q : P) : s'.live q = s.live q := by
    refine live_congr ?_ (by rw [hrefs])
    by_cases hq : q = p
    · rw [hq, hgone]
    · rw [hpc q hq]
  refine ⟨?_, ?_, ?_, ?_, fun q => ?_, ?_⟩
  · intro i j
    rw [href, href, hkey, hkey]
    exact h.unique i j
  · intro i
    rw [href, hrefs]
    exact h.count i
  · intro q r
    rw [hlive, hkey, hgen, hdisk]
    exact h.live q r
  · intro i q hl
    unfold Has
    rw [hrefs]
    exact hlock i q hl
  · by_cases hq : q = p
    · exact hq ▸ hp
    · rw [hpc q hq]
      refine (h.pc q).frame (hrefs ▸ List.Subset.refl _) (fun i => hkeep i q hq) (fun r hdm _ => ?_)
        fun k hmk _ => hmk.frame (by rw [hdisk]) (fun q' r hr hr' => ?_) hpc (hmark k)
      · exact ⟨hrefs ▸ hdm.mem, (hkeep _ q hq).mpr hdm.lock, (hvalid _).trans hdm.valid,
          (congrArg Dinode.nlink (hd _)).trans hdm.nlink, (href _).trans hdm.ref⟩
      · exact ⟨q', hlive q' ▸ hr, hkey _ ▸ hr'⟩
  · intro i
    rw [href, hvalid, hd, hkey, hdisk]
    intro hpos hv hnf
    refine h.copy i hpos hv fun q r hq => ?_
    by_cases hqp : q = p
    · exact absurd (hqp ▸ hq) (hfreed r).2
    · exact hnf q r ((hpc q hqp).trans hq)

/-! ### References -/

/-- Process `p` gets a reference to inode `k` in slot `i`, which had the inode or was free. -/
structure Opened (s s' : State P) (p : P) (i : SlotId) (k : Key) : Prop where
  key : (s'.slot i).key = k
  ref : (s'.slot i).ref = (s.slot i).ref + 1
  lock : (s'.slot i).lock = (s.slot i).lock
  d : (s'.slot i).d = (s.slot i).d
  hit : 0 < (s.slot i).ref → (s.slot i).key = k ∧ (s'.slot i).valid = (s.slot i).valid
  miss : (s.slot i).ref = 0 →
    (s'.slot i).valid = false ∧ ∀ j, 0 < (s.slot j).ref → (s.slot j).key ≠ k
  slot : ∀ j, j ≠ i → s'.slot j = s.slot j
  disk : s'.disk = s.disk
  gen : s'.gen = s.gen
  refs : s'.refs p = ⟨i, s.gen k⟩ :: s.refs p
  others : ∀ q, q ≠ p → s'.refs q = s.refs q ∧ s'.pc q = s.pc q
  pc : s'.pc p = .user

theorem countRefs_cons (i : SlotId) (r : Ref) (l : List Ref) :
    countRefs i (r :: l) = countRefs i l + if r.slot = i then 1 else 0 := by
  unfold countRefs
  rw [countP_cons]
  simp

section

variable (h : Inv s)
include h

/-- Taking a reference. -/
theorem Inv.opened (ho : Opened s s' p i k) (hpc : s.pc p = .user ∨ s.pc p = .marked k)
    (htype : (s.disk k).type ≠ .free)
    (hdoomed : ∀ q r, Doomed s q r → s.pc q = .freeing r ∨ s.pc q = .truncated r →
      (s.slot r.slot).key ≠ k)
    (hmark : ∀ q, s.pc q = .marked k → q = p) : Inv s' := by
  -- slots in use keep their inodes
  have hkey (j : SlotId) (hj : 0 < (s.slot j).ref) : (s'.slot j).key = (s.slot j).key := by
    by_cases hji : j = i
    · subst hji
      rw [ho.key, (ho.hit hj).1]
    · rw [ho.slot j hji]
  have hlock (j : SlotId) : (s'.slot j).lock = (s.slot j).lock := by
    by_cases hji : j = i
    · rw [hji, ho.lock]
    · rw [ho.slot j hji]
  have hhas {q : P} {j : SlotId} (hq : s.Has q j) : s'.Has q j := by
    obtain ⟨r, hr, hrj⟩ := hq
    by_cases hqp : q = p
    · subst hqp
      exact ⟨r, by rw [ho.refs]; exact mem_cons_of_mem _ hr, hrj⟩
    · exact ⟨r, by rw [(ho.others q hqp).1]; exact hr, hrj⟩
  have hgone : (s.pc p).gone = none := by
    rcases hpc with hpc | hpc <;> rw [hpc] <;> rfl
  have hliveP : s'.live p = ⟨i, s.gen k⟩ :: s.live p := by
    rw [live_of_not_gone (by rw [ho.pc]; rfl), live_of_not_gone hgone, ho.refs]
  have hliveQ (q : P) (hq : q ≠ p) : s'.live q = s.live q :=
    live_congr (by rw [(ho.others q hq).2]) (ho.others q hq).1
  have hpos {q : P} {r : Ref} (hr : r ∈ s.live q) : 0 < (s.slot r.slot).ref :=
    h.ref_pos ⟨r, live_subset hr, rfl⟩
  refine ⟨?_, ?_, ?_, ?_, fun q => ?_, ?_⟩
  · -- if another slot had the inode, it was not recycled
    have hother (j : SlotId) (hji : j ≠ i) (hj : 0 < (s.slot j).ref) : (s.slot j).key ≠ k := by
      intro hjk
      rcases Nat.eq_zero_or_pos (s.slot i).ref with hz | hp
      · exact (ho.miss hz).2 j hj hjk
      · exact hji (h.unique j i hj hp (hjk.trans (ho.hit hp).1.symm))
    intro a b
    by_cases ha : a = i
    · by_cases hb : b = i
      · exact fun _ _ _ => ha.trans hb.symm
      · grind [ho.key, ho.slot]
    · by_cases hb : b = i
      · simp_all [ho.key, ho.slot]
      · rw [ho.slot a ha, ho.slot b hb]
        exact h.unique a b
  · intro j
    classical
    have hrefs : s'.refs = update s.refs p (⟨i, s.gen k⟩ :: s.refs p) := by
      ext1 q
      by_cases hq : q = p
      · rw [hq, ho.refs, update_self]
      · rw [(ho.others q hq).1, update_of_ne hq]
    have htotal := total_update (countRefs j) s.refs p (⟨i, s.gen k⟩ :: s.refs p)
    rw [countRefs_cons] at htotal
    have hcount := h.count j
    rw [hrefs]
    by_cases hji : j = i
    · subst hji
      rw [if_pos rfl] at htotal
      rw [ho.ref]
      omega
    · rw [if_neg (Ne.symm hji)] at htotal
      rw [ho.slot j hji]
      omega
  · intro q r hr
    rw [ho.gen, ho.disk]
    by_cases hq : q = p
    · grind [mem_cons.mp, ho.key, h.live]
    · rw [hliveQ q hq] at hr
      rw [hkey _ (hpos hr)]
      exact h.live q r hr
  · intro j q hl
    rw [hlock] at hl
    exact hhas (h.lock j q hl)
  · by_cases hq : q = p
    · rw [hq, ho.pc]
      trivial
    · obtain ⟨hrefs, hpcq⟩ := ho.others q hq
      rw [hpcq]
      refine (h.pc q).frame (hrefs ▸ List.Subset.refl _) (fun j => by rw [hlock])
        (fun r hdm hc => ?_) fun k' hmk hc => hmk.frame (by rw [ho.disk]) (fun q' r hr hr' => ?_)
          (fun q' hq' => (ho.others q' hq').2) (by rw [ho.pc]; nofun)
      · have hne : r.slot ≠ i := by
          rintro rfl
          exact hdoomed q r hdm hc (ho.hit (by rw [hdm.ref]; omega)).1
        have hs := ho.slot _ hne
        exact ⟨hrefs ▸ hdm.mem, hs ▸ hdm.lock, hs ▸ hdm.valid, hs ▸ hdm.nlink, hs ▸ hdm.ref⟩
      · by_cases hqp : q' = p
        · grind [mem_cons.mp, ho.key]
        · grind
  · intro j hpos' hv hnf
    have hnf' : ∀ q r, s.pc q = .freed r → r.slot ≠ j := by
      intro q r hq
      by_cases hqp : q = p
      · rw [hqp] at hq
        rcases hpc with hpc | hpc <;> rw [hpc] at hq <;> cases hq
      · exact hnf q r ((ho.others q hqp).2.trans hq)
    rw [ho.disk]
    by_cases hji : j = i
    · subst hji
      rcases Nat.eq_zero_or_pos (s.slot j).ref with hz | hp
      · rw [(ho.miss hz).1] at hv
        cases hv
      · rw [hkey j hp, ho.d]
        exact h.copy j hp ((ho.hit hp).2.symm.trans hv) hnf'
    · rw [ho.slot j hji] at hpos' hv ⊢
      exact h.copy j hpos' hv hnf'

/-- Process `p` drops reference `r`. -/
theorem Inv.dropped {gone : Bool} (hpc : s.pc p = .dropping r gone)
    (hslot : s'.slot r.slot = { s.slot r.slot with ref := (s.slot r.slot).ref - 1 })
    (hothers : ∀ j, j ≠ r.slot → s'.slot j = s.slot j) (hdisk : s'.disk = s.disk)
    (hgen : s'.gen = s.gen) (hrefs : s'.refs p = (s.refs p).erase r)
    (hrefsQ : ∀ q, q ≠ p → s'.refs q = s.refs q) (hpcP : s'.pc p = .user)
    (hpcQ : ∀ q, q ≠ p → s'.pc q = s.pc q) : Inv s' := by
  obtain ⟨hmem, hunlocked⟩ := h.at hpc
  have hfield (j : SlotId) : (s'.slot j).key = (s.slot j).key ∧ (s'.slot j).lock = (s.slot j).lock
      ∧ (s'.slot j).valid = (s.slot j).valid ∧ (s'.slot j).d = (s.slot j).d
      ∧ (s'.slot j).ref ≤ (s.slot j).ref := by grind
  have hlive (q : P) (x : Ref) (hx : x ∈ s'.live q) : x ∈ s.live q := by
    by_cases hq : q = p
    · subst hq
      rw [live_of_not_gone (by rw [hpcP]; rfl), hrefs] at hx
      unfold State.live
      rw [hpc]
      cases gone
      · exact mem_of_mem_erase hx
      · exact hx
    · rw [live_congr (by rw [hpcQ q hq]) (hrefsQ q hq)] at hx
      exact hx
  refine ⟨fun i j hi hj => ?_, ?_, ?_, ?_, fun q => ?_, ?_⟩
  · rw [(hfield i).1, (hfield j).1]
    exact h.unique i j (Nat.lt_of_lt_of_le hi (hfield i).2.2.2.2)
      (Nat.lt_of_lt_of_le hj (hfield j).2.2.2.2)
  · intro j
    classical
    have hall : s'.refs = update s.refs p ((s.refs p).erase r) := by grind
    have htotal := total_update (countRefs j) s.refs p ((s.refs p).erase r)
    have hcount := h.count j
    have herase : countRefs j (s.refs p)
        = countRefs j ((s.refs p).erase r) + if r.slot = j then 1 else 0 := by
      rw [← countRefs_cons]
      exact (perm_cons_erase hmem).countP_eq _
    rw [hall]
    by_cases hj : j = r.slot
    · grind
    · rw [if_neg (Ne.symm hj)] at herase
      rw [hothers j hj]
      omega
  · intro q x hx
    rw [(hfield _).1, hgen, hdisk]
    exact h.live q x (hlive q x hx)
  · intro j q hl
    rw [(hfield j).2.1] at hl
    obtain ⟨x, hx, rfl⟩ := h.lock j q hl
    by_cases hq : q = p
    · subst hq
      have hne : x ≠ r := fun he => hunlocked (he ▸ hl)
      exact ⟨x, by rw [hrefs]; exact (mem_erase_of_ne hne).mpr hx, rfl⟩
    · exact ⟨x, by rw [hrefsQ q hq]; exact hx, rfl⟩
  · by_cases hq : q = p
    · rw [hq, hpcP]
      trivial
    · rw [hpcQ q hq]
      refine (h.pc q).frame (hrefsQ q hq ▸ List.Subset.refl _) (fun j => by rw [(hfield j).2.1])
        (fun x hdm _ => ?_) fun k hmk _ => hmk.frame (by rw [hdisk]) (fun q' x hx hx' => ?_) hpcQ
          (by rw [hpcP]; nofun)
      · -- another process' only reference is to another slot
        have hne : x.slot ≠ r.slot := fun he =>
          hq (h.sole hdm.ref ⟨x, hdm.mem, rfl⟩ ⟨r, hmem, he.symm⟩)
        have hs := hothers _ hne
        exact ⟨hrefsQ q hq ▸ hdm.mem, hs ▸ hdm.lock, hs ▸ hdm.valid, hs ▸ hdm.nlink, hs ▸ hdm.ref⟩
      · exact ⟨q', hlive q' x hx, (hfield _).1 ▸ hx'⟩
  · intro j hpos hv hnf
    rw [(hfield j).2.2.2.1, (hfield j).1, hdisk]
    refine h.copy j (Nat.lt_of_lt_of_le hpos (hfield j).2.2.2.2) ((hfield j).2.2.1 ▸ hv) ?_
    intro q x hq
    by_cases hqp : q = p
    · rw [hqp, hpc] at hq
      cases hq
    · exact hnf q x ((hpcQ q hqp).trans hq)

/-! ### Contents -/

/-- Process `p`, which has a reference to slot `i`, changes the copy in the slot and the inode on
    the disk, and goes on. -/
theorem Inv.changed (hhas : s.Has p i) (hslot : s'.slot i = { s.slot i with valid := v, d })
    (hothers : ∀ j, j ≠ i → s'.slot j = s.slot j)
    (hdisk : ∀ k, k ≠ (s.slot i).key → s'.disk k = s.disk k) (hgen : s'.gen = s.gen)
    (hrefs : s'.refs = s.refs) (hpcQ : ∀ q, q ≠ p → s'.pc q = s.pc q)
    (hlive : ∀ q, ∀ x ∈ s'.live q, x ∈ s.live q
      ∧ (x.slot = i → (s'.disk (s.slot i).key).type ≠ .free))
    (hmarked : ∀ q, q ≠ p → s.pc q = .marked (s.slot i).key →
      s'.disk (s.slot i).key = s.disk (s.slot i).key)
    (hmarkP : ∀ k, s'.pc p ≠ .marked k) (hpcP : PcOk s' p (s'.pc p))
    (hcopy : v = true → (∀ q x, s'.pc q = .freed x → x.slot ≠ i) →
      d = s'.disk (s.slot i).key ∧ (s'.disk (s.slot i).key).type ≠ .free)
    (hfreed : ∀ x, s.pc p = .freed x → x.slot = i) : Inv s' := by
  have hpos := h.ref_pos hhas
  have hfield (j : SlotId) : (s'.slot j).key = (s.slot j).key ∧ (s'.slot j).lock = (s.slot j).lock
      ∧ (s'.slot j).ref = (s.slot j).ref := by grind
  -- slots in use have other inodes
  have hkey (j : SlotId) (hj : j ≠ i) (hp : 0 < (s.slot j).ref) : (s.slot j).key ≠ (s.slot i).key :=
    fun he => hj (h.unique j i hp hpos he)
  refine ⟨fun a b => ?_, fun j => ?_, fun q x hx => ?_, fun j q => ?_, fun q => ?_, fun j => ?_⟩
  · rw [(hfield a).1, (hfield b).1, (hfield a).2.2, (hfield b).2.2]
    exact h.unique a b
  · rw [(hfield j).2.2, hrefs]
    exact h.count j
  · rw [(hfield _).1, hgen]
    obtain ⟨hx, htype⟩ := hlive q x hx
    obtain ⟨hgenx, htypex⟩ := h.live q x hx
    refine ⟨hgenx, ?_⟩
    by_cases hxi : x.slot = i
    · rw [hxi]
      exact htype hxi
    · rw [hdisk _ (hkey _ hxi (h.ref_pos ⟨x, live_subset hx, rfl⟩))]
      exact htypex
  · rw [(hfield j).2.1]
    unfold Has
    rw [hrefs]
    exact h.lock j q
  · by_cases hq : q = p
    · exact hq ▸ hpcP
    · rw [hpcQ q hq]
      refine (h.pc q).frame (hrefs ▸ List.Subset.refl _) (fun j => by rw [(hfield j).2.1])
        (fun x hdm _ => ?_) (fun k hmk hc => ?_)
      · have hne : x.slot ≠ i := fun he => hq (h.sole hdm.ref ⟨x, hdm.mem, rfl⟩ (he ▸ hhas))
        have hs := hothers _ hne
        exact ⟨hrefs ▸ hdm.mem, hs ▸ hdm.lock, hs ▸ hdm.valid, hs ▸ hdm.nlink, hs ▸ hdm.ref⟩
      · have hk : s'.disk k = s.disk k := by
          by_cases hki : k = (s.slot i).key
          · rw [hki] at hc ⊢
            exact hmarked q hq hc
          · exact hdisk k hki
        exact hmk.frame hk (fun q' x hx hx' => ⟨q', (hlive q' x hx).1, (hfield _).1 ▸ hx'⟩) hpcQ
          (hmarkP k)
  · rw [(hfield j).1, (hfield j).2.2]
    intro hj hv hnf
    by_cases hji : j = i
    · subst hji
      rw [hslot] at hv ⊢
      exact hcopy hv hnf
    · rw [hothers j hji] at hv ⊢
      rw [hdisk _ (hkey j hji hj)]
      refine h.copy j hj hv fun q x hq => ?_
      by_cases hqp : q = p
      · subst hqp
        rw [hfreed x hq]
        exact Ne.symm hji
      · exact hnf q x ((hpcQ q hqp).trans hq)

/-- `ialloc` has found a free inode. -/
theorem Inv.allocated {dev inum : Nat} {type : FileType} (hpc : s.pc p = .scanning dev inum type)
    (hfree : (s.disk k).type = .free) (hd : d.type ≠ .free) (hn : d.nlink = 0)
    (hslot : s'.slot = s.slot) (hdisk : s'.disk = update s.disk k d)
    (hgen : ∀ k', k' ≠ k → s'.gen k' = s.gen k') (hrefs : s'.refs = s.refs)
    (hpcP : s'.pc p = .marked k) (hpcQ : ∀ q, q ≠ p → s'.pc q = s.pc q) : Inv s' := by
  have hlive (q : P) : s'.live q = s.live q := by
    refine live_congr ?_ (by rw [hrefs])
    by_cases hq : q = p
    · rw [hq, hpcP, hpc]
      rfl
    · rw [hpcQ q hq]
  -- nobody has a live reference to a free inode
  have hkey (q : P) (x : Ref) (hx : x ∈ s.live q) : (s.slot x.slot).key ≠ k :=
    fun he => (h.live q x hx).2 (he ▸ hfree)
  refine ⟨?_, ?_, fun q x hx => ?_, ?_, fun q => ?_, fun j => ?_⟩
  · rw [hslot]
    exact h.unique
  · rw [hslot, hrefs]
    exact h.count
  · rw [hlive] at hx
    rw [hslot, hdisk, hgen _ (hkey q x hx), update_of_ne (hkey q x hx)]
    exact h.live q x hx
  · unfold Has
    rw [hslot, hrefs]
    exact h.lock
  · by_cases hq : q = p
    · rw [hq, hpcP]
      refine ⟨?_, ?_, fun q' x hx => ?_, fun q' hq' => ?_⟩
      · rw [hdisk, update_self]
        exact hd
      · rw [hdisk, update_self]
        exact hn
      · rw [hlive] at hx
        rw [hslot]
        exact hkey q' x hx
      · by_contra hne
        exact (h.at ((hpcQ q' hne).symm.trans hq')).type hfree
    · rw [hpcQ q hq]
      refine (h.pc q).frame (hrefs ▸ List.Subset.refl _) (fun j => by rw [hslot])
        (fun x hdm _ => ?_) (fun k' hmk hc => ?_)
      · exact ⟨hrefs ▸ hdm.mem, hslot ▸ hdm.lock, hslot ▸ hdm.valid, hslot ▸ hdm.nlink,
          hslot ▸ hdm.ref⟩
      · have hne : k' ≠ k := fun he => hmk.type (he ▸ hfree)
        have hk : s'.disk k' = s.disk k' := by rw [hdisk, update_of_ne hne]
        refine hmk.frame hk (fun q' x hx hx' => ⟨q', hlive q' ▸ hx, hslot ▸ hx'⟩) hpcQ ?_
        rw [hpcP]
        exact fun e => hne (Pc.marked.inj e).symm
  · rw [hslot]
    intro hj hv hnf'
    obtain ⟨hcopy, htype⟩ := h.copy j hj hv fun q x hq => by grind
    have hne : (s.slot j).key ≠ k := fun he => htype (he ▸ hfree)
    rw [hdisk, update_of_ne hne]
    exact ⟨hcopy, htype⟩

/-! ### Every step -/

/-- The copy of an inode that is about to be freed is what the disk has. -/
theorem Inv.doomed_copy (hd : Doomed s q r) (hc : s.pc q = .freeing r ∨ s.pc q = .truncated r) :
    (s.slot r.slot).d = s.disk (s.slot r.slot).key ∧ (s.disk (s.slot r.slot).key).type ≠ .free := by
  refine h.copy r.slot (by rw [hd.ref]; exact Nat.one_pos) hd.valid fun q' r' hq' he => ?_
  -- whoever has freed the inode in the slot has a reference to it
  have hqq : q = q' := h.sole hd.ref ⟨r, hd.mem, rfl⟩ ⟨r', (h.at hq').1, he⟩
  rw [← hqq] at hq'
  rcases hc with hc | hc <;> rw [hc] at hq' <;> cases hq'

/-- A process outside of these functions has a reference to no inode that is about to be freed. -/
theorem Inv.not_doomed (hpc : s.pc p = .user) (hp : s.Has p i) {q : P} (hd : Doomed s q r)
    (hc : s.pc q = .freeing r ∨ s.pc q = .truncated r) : (s.slot r.slot).key ≠ (s.slot i).key := by
  intro hkey
  have hpos : 0 < (s.slot r.slot).ref := by rw [hd.ref]; exact Nat.one_pos
  have hslot := h.unique r.slot i hpos (h.ref_pos hp) hkey
  have hq : q = p := h.sole hd.ref ⟨r, hd.mem, rfl⟩ (hslot ▸ hp)
  rw [hq, hpc] at hc
  rcases hc with hc | hc <;> cases hc

/-- A user's references are live. -/
theorem Inv.live_user (hpc : s.pc p = .user) (hr : r ∈ s.refs p) :
    r.gen = s.gen (s.slot r.slot).key ∧ (s.disk (s.slot r.slot).key).type ≠ .free := by
  refine h.live p r ?_
  rw [live_of_not_gone (by rw [hpc]; rfl)]
  exact hr

/-- Nobody is about to ask for an inode that another process has a live reference to. -/
theorem Inv.not_marked (hr : r ∈ s.live p) (q : P) : s.pc q ≠ .marked (s.slot r.slot).key :=
  fun hq => (h.at hq).unknown p r hr rfl

end

variable [DecidableEq P]

omit [Fintype P] in
theorem hand_refs (p q q' : P) : (s.hand p q r).refs q'
    = if q' = q then r :: (if q = p then (s.refs p).erase r else s.refs q)
      else if q' = p then (s.refs p).erase r else s.refs q' := by
  unfold hand setRefs
  simp only [update_apply]

/-- A reference that is handed on is as good as it was. -/
theorem Inv.handed (h : Inv s) (hpc : s.pc p = .user) (hr : r ∈ s.refs p)
    (hlock : (s.slot r.slot).lock ≠ some p) : Inv (s.hand p q r) := by
  have hgone : (s.pc p).gone = none := by rw [hpc]; rfl
  -- live references were live, but for the one that was handed on
  have hlive (q' : P) (x : Ref) (hx : x ∈ (s.hand p q r).live q') : ∃ q'', x ∈ s.live q'' := by
    by_cases hxr : x = r
    · exact ⟨p, by rw [live_of_not_gone hgone, hxr]; exact hr⟩
    · refine ⟨q', ?_⟩
      unfold State.live at hx ⊢
      rw [hand_refs, show (s.hand p q r).pc = s.pc from rfl] at hx
      cases hg : (s.pc q').gone <;> grind [mem_of_mem_erase]
  have hkeep (q' : P) (hq' : q' ≠ p) : s.refs q' ⊆ (s.hand p q r).refs q' := by
    intro x hx
    rw [hand_refs]
    grind
  refine ⟨h.unique, fun j => ?_, fun q' x hx => ?_, fun j q' hl => ?_, fun q' => ?_, h.copy⟩
  · have herase : countRefs j (s.refs p)
        = countRefs j ((s.refs p).erase r) + if r.slot = j then 1 else 0 := by
      rw [← countRefs_cons]
      exact (perm_cons_erase hr).countP_eq _
    have htake := total_update (countRefs j) s.refs p ((s.refs p).erase r)
    have hgive := total_update (countRefs j) (s.setRefs p ((s.refs p).erase r)).refs q
      (r :: (s.setRefs p ((s.refs p).erase r)).refs q)
    rw [countRefs_cons] at hgive
    rw [show (s.hand p q r).slot = s.slot from rfl, h.count]
    show _ = Count.total (countRefs j) (update (s.setRefs p ((s.refs p).erase r)).refs q _)
    change _ = Count.total (countRefs j) (s.setRefs p ((s.refs p).erase r)).refs + _ at hgive
    change Count.total (countRefs j) (s.setRefs p ((s.refs p).erase r)).refs + _ = _ at htake
    omega
  · obtain ⟨q'', hx⟩ := hlive q' x hx
    exact h.live q'' x hx
  · obtain ⟨x, hx, rfl⟩ := h.lock j q' hl
    refine ⟨x, ?_, rfl⟩
    by_cases hq' : q' = p
    · subst hq'
      have hne : x ≠ r := fun he => hlock (he ▸ hl)
      rw [hand_refs]
      grind
    · exact hkeep q' hq' hx
  · by_cases hq' : q' = p
    · rw [show (s.hand p q r).pc = s.pc from rfl, hq', hpc]
      trivial
    · refine (h.pc q').frame (hkeep q' hq') (fun j => Iff.rfl)
        (fun x hdm _ => ⟨hkeep q' hq' hdm.mem, hdm.lock, hdm.valid, hdm.nlink, hdm.ref⟩)
        (fun k hmk _ => ⟨hmk.type, hmk.nlink, fun q'' x hx => ?_, hmk.alone⟩)
      obtain ⟨q₁, hx⟩ := hlive q'' x hx
      exact hmk.unknown q₁ x hx

omit [Fintype P] in
/-- A reference to slot `i`, which becomes `x`. -/
theorem opened_of {x : Inode P} (hkey : x.key = k) (href : x.ref = (s.slot i).ref + 1)
    (hlock : x.lock = (s.slot i).lock) (hd : x.d = (s.slot i).d)
    (hhit : 0 < (s.slot i).ref → (s.slot i).key = k ∧ x.valid = (s.slot i).valid)
    (hmiss : (s.slot i).ref = 0 → x.valid = false ∧ ∀ j, 0 < (s.slot j).ref → (s.slot j).key ≠ k) :
    Opened s (((s.setSlot i x).setRefs p (⟨i, s.gen k⟩ :: s.refs p)).goto p .user) p i k := by
  have hx : (((s.setSlot i x).setRefs p (⟨i, s.gen k⟩ :: s.refs p)).goto p .user).slot i = x :=
    setSlot_self
  refine ⟨?_, ?_, ?_, ?_, ?_, ?_, fun j hj => setSlot_ne hj, rfl, rfl, update_self ..,
    fun q hq => ⟨update_of_ne hq .., goto_ne hq⟩, goto_self⟩ <;> rw [hx] <;> assumption

omit [Fintype P] in
/-- `iget` gives a reference. -/
theorem iget_opened (h : s.iget p k = .ok s') : ∃ i, Opened s (s'.goto p .user) p i k := by
  unfold State.iget at h
  split at h
  · rename_i i hi
    cases h
    have hfound := find?_some hi
    simp only [decide_eq_true_eq] at hfound
    exact ⟨i, opened_of hfound.2 rfl rfl rfl (fun _ => ⟨hfound.2, rfl⟩) (fun hz => by omega)⟩
  · rename_i hnone
    split at h
    · rename_i i hi
      cases h
      have hzero := find?_some hi
      simp only [decide_eq_true_eq] at hzero
      refine ⟨i, opened_of rfl (by rw [hzero]) rfl rfl (fun hp => by omega)
        fun _ => ⟨rfl, fun j hj he => ?_⟩⟩
      -- no slot in use has the inode
      have hj' := find?_eq_none.mp hnone j (mem_finRange j)
      simp [hj, he] at hj'
    · cases h

omit [Fintype P] [DecidableEq P] in
theorem findRef_some (h : s.findRef p i = some r) : r ∈ s.refs p ∧ r.slot = i :=
  ⟨mem_of_find?_eq_some h, by simpa using find?_some h⟩

/-- A process that stands here has neither just freed an inode nor just marked one. -/
def Pc.settled : Pc → Bool
  | .freed _ | .marked _ => false
  | _ => true

theorem Pc.settled.ne (h : c.settled = true) : (∀ r, c ≠ .freed r) ∧ ∀ k, c ≠ .marked k := by
  constructor <;> rintro _ rfl <;> cases h

/-- Process `p` goes on, and nothing else changes. -/
theorem Inv.goto {c₀ : Pc} (h : Inv s) (hpc : s.pc p = c₀) (hgone : c.gone = c₀.gone)
    (h₀ : c₀.settled = true) (hc : c.settled = true) (hp : PcOk (s.goto p c) p c) :
    Inv (s.goto p c) := by
  refine h.relock (p := p) (fun _ => rfl) rfl rfl rfl (fun q hq => goto_ne hq) ?_ ?_ ?_ h.lock
    (fun _ _ _ => .rfl) ?_ <;> rw [goto_self]
  · rw [hgone, hpc]
  · exact fun r => ⟨(Pc.settled.ne hc).1 r, hpc ▸ (Pc.settled.ne h₀).1 r⟩
  · exact (Pc.settled.ne hc).2
  · exact hp

/-- Process `p` takes or releases the lock of slot `i`, and goes on. -/
theorem Inv.setLock {l : Option P} {c₀ : Pc} (h : Inv s) (hpc : s.pc p = c₀)
    (hl : ∀ q, q ≠ p → (s.slot i).lock ≠ some q ∧ l ≠ some q) (hhas : l = some p → s.Has p i)
    (hgone : c.gone = c₀.gone) (h₀ : c₀.settled = true) (hc : c.settled = true)
    (hp : PcOk ((s.setSlot i { s.slot i with lock := l }).goto p c) p c) :
    Inv ((s.setSlot i { s.slot i with lock := l }).goto p c) := by
  have hslot (j : SlotId) : ((s.setSlot i { s.slot i with lock := l }).goto p c).slot j
      = if j = i then { s.slot i with lock := l } else s.slot j := by
    show update s.slot i _ j = _
    rw [update_apply]
  refine h.relock (p := p) (fun j => ?_) rfl rfl rfl (fun q hq => goto_ne hq) ?_ ?_ ?_
    (fun j q => ?_) (fun j q hq => ?_) ?_
  · rw [hslot]
    split
    · rename_i hj
      rw [hj]
    · rfl
  · rw [goto_self, hgone, hpc]
  · rw [goto_self]
    exact fun r => ⟨(Pc.settled.ne hc).1 r, hpc ▸ (Pc.settled.ne h₀).1 r⟩
  · rw [goto_self]
    exact (Pc.settled.ne hc).2
  · rw [hslot]
    split
    · grind
    · exact h.lock j q
  · grind
  · rw [goto_self]
    exact hp

/-- Process `p` changes the copy in slot `i` and what the disk has of its inode, and goes on. -/
theorem Inv.wrote {disk : Key → Dinode} {c₀ : Pc} (h : Inv s) (hpc : s.pc p = c₀) (hhas : s.Has p i)
    (hdisk : ∀ k, k ≠ (s.slot i).key → disk k = s.disk k)
    (htype : (s.disk (s.slot i).key).type ≠ .free → (disk (s.slot i).key).type ≠ .free)
    (hmarked : ∀ q, s.pc q = .marked (s.slot i).key → disk (s.slot i).key = s.disk (s.slot i).key)
    (hcopy : v = true → d = disk (s.slot i).key ∧ (disk (s.slot i).key).type ≠ .free)
    (hgone : c.gone = c₀.gone) (hfreed : ∀ x, c₀ = .freed x → x.slot = i) (hc : c.settled = true)
    (hp : PcOk ({ s.setSlot i { s.slot i with valid := v, d } with disk }.goto p c) p c) :
    Inv ({ s.setSlot i { s.slot i with valid := v, d } with disk }.goto p c) := by
  subst hpc
  refine h.changed (p := p) (i := i) (v := v) (d := d) hhas setSlot_self (fun j hj => setSlot_ne hj)
    hdisk rfl rfl (fun q hq => goto_ne hq) (fun q x hx => ?_) (fun q _ => hmarked q) ?_ ?_
    (fun hv _ => hcopy hv) hfreed
  · have hlive : x ∈ s.live q := by
      by_cases hq : q = p
      · unfold State.live at hx ⊢
        rw [hq, goto_self, hgone] at hx
        rw [hq]
        exact hx
      · rw [live_goto_ne hq] at hx
        exact hx
    exact ⟨hlive, fun hxi => htype (hxi ▸ (h.live q x hlive).2)⟩
  · rw [goto_self]
    exact (Pc.settled.ne hc).2
  · rw [goto_self]
    exact hp

end

end Xv6.Fs
