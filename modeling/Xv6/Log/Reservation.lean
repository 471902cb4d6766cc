import Xv6.Log.Protocol
import Mathlib.Tactic.Linarith

namespace Xv6.Logging

open Xv6.Count Function List Pc Proc Run

/-!
# The log's reservation

`begin_op` reserves `MAXOPBLOCKS` entries for each operation, `log_write` takes at most
`log.size - 1`, and `mkfs` makes the log `LOGSIZE` blocks long, the header among them: one
entry short of what three operations may use.

* `Frugal m` — no operation logs more than `m` distinct blocks;
* `Reserved m` — the entries used and those the running operations may still use are at
  most `10 + 2 * m`;
* `not_too_big` — with `m = MAXOPBLOCKS - 1` no `log_write` finds the log full;
* `too_big` — with `m = MAXOPBLOCKS` one does.
-/

/-- `mkfs.c`: `nlog`, the blocks of the log. -/
def nlog : Nat := LOGSIZE

variable {P : Type} [DecidableEq P]

/-- An operation logs at most `m` distinct blocks. -/
def Frugal (m : Nat) (s : State P) : Act P → Prop
  | .check p b => (insert b (s.proc p).wrote).card ≤ m
  | _ => True

instance (m : Nat) (s : State P) : (a : Act P) → Decidable (Frugal m s a)
  | .check p b => inferInstanceAs (Decidable ((insert b (s.proc p).wrote).card ≤ m))
  | .begin _ | .append _ | .endOp _ | .clear _ | .finish _ => .isTrue trivial

/-- The entries that the operation of a process may still use. -/
def Proc.slack (m : Nat) (q : Proc) : Nat := q.pc.active * (m - q.wrote.card)

/-- The protocol's invariant and the use of entries: an operation has logged at most `m`
    blocks, which are in the header, and what is used and may be used is bounded. -/
structure Reserved [Fintype P] (m : Nat) (s : State P) : Prop where
  inv : Inv s
  logged : ∀ p, (s.proc p).pc.active = 1 → ∀ b ∈ (s.proc p).wrote, b ∈ s.log.block
  frugal : ∀ p, (s.proc p).pc.active = 1 → (s.proc p).wrote.card ≤ m
  frugal_next : ∀ p b, (s.proc p).pc = .logging b → (insert b (s.proc p).wrote).card ≤ m
  budget : s.log.n + Count.total (Proc.slack m) s.proc ≤ 10 + 2 * m

section

variable [Fintype P] {s s' : State P} {p : P} {l : Log} {m : Nat}

omit [DecidableEq P] in
theorem initlog_reserved (size : Nat) : Reserved m (initlog size : State P) := by
  refine ⟨initlog_inv size, nofun, nofun, nofun, ?_⟩
  have hzero : total (slack m) (initlog size : State P).proc = 0 :=
    total_eq_zero fun _ => Nat.zero_mul _
  rw [hzero]
  exact Nat.zero_le _

/-- Process `p` becomes `x` and the log `l`, and the sleepers may be woken up. -/
theorem Reserved.move (h : Reserved m s) {x : Proc} {f : P → Proc} (hinv : Inv ⟨l, f⟩)
    (hf : f = update s.proc p x ∨ f = wakeup (update s.proc p x))
    (hlogged : x.pc.active = 1 → ∀ b ∈ x.wrote, b ∈ l.block)
    (hfrugal : x.pc.active = 1 → x.wrote.card ≤ m)
    (hnext : ∀ b, x.pc = .logging b → (insert b x.wrote).card ≤ m)
    (hkeep : ∀ q, q ≠ p → (s.proc q).pc.active = 1 → ∀ b ∈ s.log.block, b ∈ l.block)
    (hbudget : l.n + Count.total (Proc.slack m) s.proc + x.slack m
      ≤ 10 + 2 * m + (s.proc p).slack m) : Reserved m ⟨l, f⟩ := by
  -- waking up neither starts an operation nor logs for one
  have hwake (g : P → Proc) (q : P) : (wakeup g q).pc.active = (g q).pc.active
      ∧ (wakeup g q).wrote = (g q).wrote
      ∧ ∀ b, (wakeup g q).pc = .logging b ↔ (g q).pc = .logging b := by
    unfold wakeup
    split
    · rename_i hq
      simp [hq, active]
    · simp
  have hpc (q : P) : (f q).pc.active = (update s.proc p x q).pc.active
      ∧ (f q).wrote = (update s.proc p x q).wrote
      ∧ ∀ b, (f q).pc = .logging b ↔ (update s.proc p x q).pc = .logging b := by
    rcases hf with rfl | rfl
    · simp
    · exact hwake _ q
  have hslack : total (slack m) f = total (slack m) (update s.proc p x) :=
    total_congr fun q => by rw [slack, slack, (hpc q).1, (hpc q).2.1]
  have hsum := total_update (slack m) s.proc p x
  refine ⟨hinv, ?_, ?_, ?_, ?_⟩
  · intro q hq b hb
    simp only [(hpc q).1, (hpc q).2.1] at hq hb
    rcases eq_or_ne q p with rfl | hne
    · rw [update_self] at hq hb
      exact hlogged hq b hb
    · rw [update_of_ne hne] at hq hb
      exact hkeep q hne hq b (h.logged q hq b hb)
  · intro q hq
    simp only [(hpc q).1, (hpc q).2.1] at hq ⊢
    rcases eq_or_ne q p with rfl | hne
    · rw [update_self] at hq ⊢
      exact hfrugal hq
    · rw [update_of_ne hne] at hq ⊢
      exact h.frugal q hq
  · intro q b hq
    simp only [(hpc q).2.2, (hpc q).2.1] at hq ⊢
    rcases eq_or_ne q p with rfl | hne
    · rw [update_self] at hq ⊢
      exact hnext b hq
    · rw [update_of_ne hne] at hq ⊢
      exact h.frugal_next q b hq
  · show l.n + total (slack m) f ≤ _
    omega

omit [DecidableEq P] in
/-- An operation may use as many entries as are reserved for it. -/
theorem slack_le_tally (s : State P) :
    Count.total (Proc.slack m) s.proc ≤ m * s.tally Pc.active := by
  refine total_le_mul fun q => ?_
  rw [slack, Nat.mul_comm]
  exact Nat.mul_le_mul_right _ (Nat.sub_le ..)

omit [DecidableEq P] in
/-- What `begin_op` admits fits: alone in an empty log, or with the reservation of at least
    one other operation, that leaves `10 - m` entries of each unused. -/
theorem Reserved.enter_fits (h : Reserved m s) (hm : m ≤ MAXOPBLOCKS)
    (hc : s.log.committing = false)
    (hroom : s.log.n + (s.log.outstanding + 1) * MAXOPBLOCKS ≤ LOGSIZE) :
    s.log.n + Count.total (Proc.slack m) s.proc + m ≤ 10 + 2 * m := by
  have hslack := slack_le_tally (m := m) s
  have hcount := h.inv.count
  rcases Nat.eq_zero_or_pos (s.tally active) with hzero | hpos
  · rw [hzero] at hcount hslack
    have hempty : s.log.n = 0 := by rw [Log.n, h.inv.empty hcount hc]; rfl
    omega
  · rw [hcount] at hroom
    unfold LOGSIZE MAXOPBLOCKS at *
    have hroom' : s.log.n + (s.tally active + 1) * 10 ≤ 30 := by exact_mod_cast hroom
    nlinarith

/-- One step keeps the reservation. -/
theorem step_reserved {a : Act P} (hm : m ≤ MAXOPBLOCKS) (h : Reserved m s)
    (hfrugal : Frugal m s a) (hstep : step s a = .ok s') : Reserved m s' := by
  have hinv := step_inv h.inv hstep
  have hbudget := h.budget
  cases step_cases hstep with
  | @sleep p hpc hb =>
    refine h.move hinv (.inl rfl) (by rintro ⟨⟩) (by rintro ⟨⟩) (by rintro _ ⟨⟩)
      (fun _ _ _ b hb => hb) ?_
    simp only [slack, active]
    omega
  | @enter p hpc hc hroom =>
    -- `begin_op` has checked that another reservation fits.
    have hfits := h.enter_fits hm hc hroom
    refine h.move hinv (.inl rfl) (by simp) (by simp) (by simp) (fun _ _ _ b hb => hb) ?_
    simp only [slack, active, Log.n, Finset.card_empty] at hfits ⊢
    omega
  | @check p b hpc hn hsize =>
    have hact : (s.proc p).pc.active = 1 := by rw [hpc]; rfl
    refine h.move hinv (.inl rfl) (fun _ => h.logged p hact) (fun _ => h.frugal p hact) ?_
      (fun _ _ _ b hb => hb) ?_
    · intro b' hb'
      cases hb'
      exact hfrugal
    · simp only [slack, hpc, active]
      omega
  | @absorb p b hpc hb =>
    have hact : (s.proc p).pc.active = 1 := by rw [hpc]; rfl
    have hcard := Finset.card_le_card (Finset.subset_insert b (s.proc p).wrote)
    refine h.move hinv (.inl rfl) ?_ (fun _ => h.frugal_next p b hpc) (by rintro _ ⟨⟩)
      (fun _ _ _ b hb => hb) ?_
    · grind [Finset.mem_insert.mp, h.logged]
    · simp only [slack, hpc, active]
      omega
  | @append p b hpc hb hn =>
    have hact : (s.proc p).pc.active = 1 := by rw [hpc]; rfl
    have hnext := h.frugal_next p b hpc
    have hnew : b ∉ (s.proc p).wrote := fun hmem => hb (h.logged p hact b hmem)
    -- A new entry of the header is a new block of the operation: the slack stays.
    have hcard := Finset.card_insert_of_notMem hnew
    refine h.move hinv (.inl rfl) ?_ (fun _ => hnext) (by rintro _ ⟨⟩) ?_ ?_
    · intro _ c hc
      rw [mem_append]
      rcases Finset.mem_insert.mp hc with rfl | hc
      · exact .inr (mem_singleton_self _)
      · exact .inl (h.logged p hact c hc)
    · intro _ _ _ c hc
      exact mem_append_left _ hc
    · simp only [slack, hpc, active, Log.n, length_append, length_cons, length_nil] at hbudget ⊢
      omega
  | @last p hpc hc hout =>
    refine h.move hinv (.inl rfl) (by rintro ⟨⟩) (by rintro ⟨⟩) (by rintro _ ⟨⟩)
      (fun _ _ _ b hb => hb) ?_
    simp only [slack, active, Log.n] at hbudget ⊢
    omega
  | @leave p hpc hc hout =>
    refine h.move hinv (.inr rfl) (by rintro ⟨⟩) (by rintro ⟨⟩) (by rintro _ ⟨⟩)
      (fun _ _ _ b hb => hb) ?_
    simp only [slack, active, Log.n] at hbudget ⊢
    omega
  | @clear p hpc =>
    have hc := h.inv.committing_of (p := p) (by rw [hpc]; rfl)
    refine h.move hinv (.inl rfl) (by rintro ⟨⟩) (by rintro ⟨⟩) (by rintro _ ⟨⟩) ?_ ?_
    -- The header is emptied when nobody is in an operation.
    · intro q _ hq
      rw [h.inv.not_committing hq] at hc
      cases hc
    · simp only [slack, active, Log.n, length_nil] at hbudget ⊢
      omega
  | @finish p hpc =>
    refine h.move hinv (.inr rfl) (by rintro ⟨⟩) (by rintro ⟨⟩) (by rintro _ ⟨⟩)
      (fun _ _ _ b hb => hb) ?_
    simp only [slack, active, Log.n] at hbudget ⊢
    omega

theorem reserved_of_reach {size : Nat} (hm : m ≤ MAXOPBLOCKS)
    (hr : Reach step (Frugal m) (initlog size) s) : Reserved m s :=
  hr.invariant (initlog_reserved size) fun _ _ _ h hf hstep => step_reserved hm h hf hstep

end

/-! ### When the log is found full -/

theorem logCheck_tooBig {l : Log} (h : logCheck l = .panic .tooBig) :
    l.n ≥ LOGSIZE ∨ l.n ≥ l.size - 1 := by
  unfold logCheck at h
  split at h
  · assumption
  · split at h <;> cases h

/-- Where every operation logs at most `MAXOPBLOCKS - 1` distinct blocks, no `log_write` finds
    the log that `mkfs` makes full. -/
theorem not_too_big [Fintype P] {s : State P} {a : Act P}
    (hr : Reach step (Frugal (MAXOPBLOCKS - 1)) (initlog nlog) s)
    (ha : Frugal (MAXOPBLOCKS - 1) s a) : step s a ≠ .panic .tooBig := by
  intro hpanic
  have h := reserved_of_reach (Nat.sub_le ..) hr
  have hsize : s.log.size = nlog := log_size_of_reach hr
  rcases step_panic hpanic with ⟨p, b, rfl, hpc, hcheck⟩ | ⟨p, rfl, hpc, hend⟩
  · -- what the operation may still use leaves the header at most 28 entries
    have hfull := logCheck_tooBig hcheck
    have hbudget := h.budget
    unfold nlog LOGSIZE MAXOPBLOCKS at *
    omega
  · exact absurd (endOp_panic hend).1 nofun

/-- The calls of three operations that run at the same time and log `m`, `m` and 9 blocks, all
    distinct. -/
def threeOps (m : Nat) : List (Act (Fin 3)) :=
  [.begin 0, .begin 1, .begin 2]
    ++ (List.range m).flatMap (fun i => [.check 0 (40 + i), .append 0])
    ++ (List.range m).flatMap (fun i => [.check 1 (50 + i), .append 1])
    ++ (List.range 9).flatMap (fun i => [.check 2 (60 + i), .append 2])

/-- Operations of nine blocks and fewer, three at a time, never find the log full. -/
theorem not_too_big_nine :
    ∃ s : State (Fin 3), Reach step (Frugal (MAXOPBLOCKS - 1)) (initlog nlog) s
      ∧ s.log.n = 27 ∧ step s (.check 2 60) ≠ .panic .tooBig := by
  obtain ⟨s, hs, ht⟩ := Outcome.holds_iff.mp (show ((threeOps 9).foldlM (fun s a =>
      if Frugal (MAXOPBLOCKS - 1) s a then step s a else .hang) (initlog nlog)).holds (fun s =>
        decide (s.log.n = 27 ∧ Frugal (MAXOPBLOCKS - 1) s (.check 2 60))) = true by decide +kernel)
  obtain ⟨hn, hf⟩ := of_decide_eq_true ht
  have hr := Reach.of_checked hs
  exact ⟨s, hr, hn, not_too_big hr hf⟩

/-- The third of three operations finds the log full at its tenth block. -/
theorem too_big :
    ∃ s : State (Fin 3), Reach step (Frugal MAXOPBLOCKS) (initlog nlog) s
      ∧ Frugal MAXOPBLOCKS s (.check 2 69) ∧ step s (.check 2 69) = .panic .tooBig := by
  obtain ⟨s, hs, ht⟩ := Outcome.holds_iff.mp (show ((threeOps 10).foldlM (fun s a =>
      if Frugal MAXOPBLOCKS s a then step s a else .hang) (initlog nlog)).holds (fun s =>
        decide (Frugal MAXOPBLOCKS s (.check 2 69)) && (step s (.check 2 69)).isPanic .tooBig)
      = true by decide +kernel)
  rw [Bool.and_eq_true] at ht
  exact ⟨s, .of_checked hs, of_decide_eq_true ht.1, Outcome.isPanic_iff.mp ht.2⟩

end Xv6.Logging
