import Xv6.Log.Coherence

namespace Xv6.Logging

open BlockData Run

/-!
# Crash atomicity

The machine may stop between any two instructions, in a commit as well as in a recovery, and
starts again with what is on the disk.

* `Sys.ThroughLog` — operations that change blocks through the log only, and crashes;
* `recorded_quiet` — a transaction is recorded between operations;
* `crash_atomic` — once `recover_from_log` has returned, the blocks on the disk are those of the
  first disk with the writes of the committed transactions, in their order.
-/

variable {P α : Type}

/-- Operations on blocks of the file system, outside the log: they change them between `begin_op`
    and `end_op`, and log what they changed.  The machine may crash at any time. -/
def Sys.ThroughLog [DecidableEq P] (G : Geo) (s : Sys P α) : Act P α → Prop
  | .call _ (.bread κ) => κ.1 = G.dev ∧ G.Home κ
  | .call p (.store ..) => (s.ctl.proc p).pc = .inOp
  | .call _ (.logWrite κ) => κ.1 = G.dev
  | .call _ (.bwrite _) => False
  | .call p (.brelse κ) => s.cache.Holds p κ .valid
  | .call p .endOp => ∀ i, (s.cache.buf i).lock = some p → (s.cache.buf i).unsaved = false
  | .call _ .beginOp | .run _ | .crash .. => True

section

variable [DecidableEq P] [Fintype P] [BlockData α] {G : Geo} {d : Key → α} {s : Sys P α}

omit [DecidableEq P] in
/-- While an operation is under way nobody commits. -/
theorem Phase.not_committing {K : Key → Prop} {live : Prop} (h : Phase G d K live s) {p : P}
    (hp : (s.ctl.proc p).pc = .inOp) : s.ctl.log.committing = false := by
  have hact : (s.ctl.proc p).pc.active = 1 := by rw [hp]; rfl
  cases h with
  | boot q _ _ _ hl =>
    obtain ⟨l, hl⟩ := hl
    rw [hl]
    rfl
  | idle hs => exact hs.committer
  | commit q hs => exact hs.inv.not_committing hact
  | full q x T hs => exact hs.inv.not_committing hact

theorem Sys.ThroughLog.rules {a : Sys.Act P α} (hrun : Running G d (fun _ => True) False s)
    (h : s.ThroughLog G a) : s.Rules G (fun _ => True) False a := by
  cases a with
  | run p => trivial
  | crash p junk => exact ⟨id, fun _ => trivial⟩
  | call p c =>
    cases c with
    | bread κ => exact ⟨h.1 ▸ G.dev_pos, h.2⟩
    | store κ v =>
      refine ⟨fun hcom => ?_, fun _ => h⟩
      rw [hrun.phase.not_committing h] at hcom
      cases hcom
    | logWrite κ => exact h
    | bwrite κ => exact h.elim
    | brelse κ => exact h
    | beginOp => trivial
    | endOp =>
      refine ⟨?_, fun _ _ _ hK => absurd trivial hK⟩
      rintro κ - ⟨i, -, hl, hu⟩
      rw [h i hl] at hu
      cases hu

/-- A transaction is recorded while no process is between `begin_op` and `end_op`. -/
theorem recorded_quiet {K : Key → Prop} {live : Prop} {s' : Sys P α} {a : Sys.Act P α}
    (h : Running G d K live s) (hrule : s.Rules G K live a) (hstep : s.step G a = .ok s')
    (htxs : s'.txs ≠ s.txs) (q : P) : (s.ctl.proc q).pc.active = 0 := by
  by_contra hact
  have hact : (s.ctl.proc q).pc.active = 1 := by
    generalize (s.ctl.proc q).pc = pc at hact
    cases pc <;> first | rfl | exact absurd rfl hact
  obtain ⟨hc, htr, hphase⟩ := h
  -- a process is in an operation, so nobody commits or recovers, and steps are those of operations
  cases hphase with
  | boot p _ _ _ hl =>
    obtain ⟨l, hl⟩ := hl
    rw [hl] at hact
    cases hact
  | commit p hs => cases hs.none_of_active hact
  | full p _ _ hs => cases hs.none_of_active hact
  | idle hs hb =>
    cases a with
    | crash p junk =>
      cases hstep
      exact htxs rfl
    | call p c =>
      rw [Sys.step] at hstep
      split at hstep
      · rename_i hready
        rcases hs.call hc htr (Option.some_ne_none p).symm hready.2 hrule hstep with hst | ⟨-, hcom⟩
        · exact htxs hst.does.txs
        · exact htxs (congrArg Abs.txs hcom.abs)
      · cases hstep
    | run p =>
      rw [Sys.step] at hstep
      split at hstep
      · cases hstep
      · rename_i x T htodo
        exact htxs (hs.run (K := K) hc htr (Option.some_ne_none p).symm htodo hstep).does.txs

theorem running_of_throughLog (junk : α) (p₀ : P) (hd : readHead (d G.head) = [])
    (hr : Reach (Sys.step G) (Sys.ThroughLog G) (Sys.boot G junk p₀ d d []) s) :
    Running G d (fun _ => True) False s :=
  hr.invariant (running_of_clean junk p₀ hd)
    fun _ _ _ h hrule hstep => step_running h (hrule.rules h) hstep

/-- When `recover_from_log` returns, the disk is the one the machine started with, with exactly
    the writes of the transactions whose header reached the disk; and a transaction is recorded only
    while no process is in an operation, so that it has all writes of an operation or none. -/
theorem crash_atomic (junk : α) (p₀ p : P) (hd : readHead (d G.head) = [])
    (hr : Reach (Sys.step G) (Sys.ThroughLog G) (Sys.boot G junk p₀ d d []) s)
    (hboot : s.booting = some p) (hready : s.todo p = [.ready]) (κ : Key) (hκ : G.Home κ) :
    s.cache.disk κ = applyTxs G d s.txs κ
    ∧ ∀ t a t', Reach (Sys.step G) (Sys.ThroughLog G) (Sys.boot G junk p₀ d d []) t →
      t.ThroughLog G a → t.step G a = .ok t' → t'.txs ≠ t.txs →
      ∀ q, (t.ctl.proc q).pc.active = 0 := by
  refine ⟨?_, fun t a t' ht hrule hstep htxs => ?_⟩
  · cases (running_of_throughLog junk p₀ hd hr).phase with
    | boot q hb _ _ _ hsafe =>
      obtain rfl : p = q := Option.some.inj (hboot.symm.trans hb)
      rw [hready] at hsafe
      cases hsafe with
      | cons _ hnext =>
        -- nothing is left to be done, so the log is empty again
        cases hnext _ rfl with
        | nil hQ =>
          have hfin : Finished G (fun _ => True) d s.abs := hQ _ rfl
          exact (hfin.rest κ hκ trivial).1.trans (hfin.replay κ hκ trivial).symm
    | idle hs =>
      rw [hs.booting] at hboot
      cases hboot
    | commit q hs =>
      rw [hs.booting] at hboot
      cases hboot
    | full q x T hs =>
      rw [hs.booting] at hboot
      cases hboot
  · have hrun := running_of_throughLog junk p₀ hd ht
    exact recorded_quiet hrun (hrule.rules hrun) hstep htxs

end

instance [DecidableEq P] (G : Geo) (s : Sys P α) (a : Sys.Act P α) :
    Decidable (s.ThroughLog G a) :=
  match a with
  | .call _ (.bread κ) => inferInstanceAs (Decidable (κ.1 = G.dev ∧ G.Home κ))
  | .call p (.store ..) => inferInstanceAs (Decidable ((s.ctl.proc p).pc = .inOp))
  | .call _ (.logWrite κ) => inferInstanceAs (Decidable (κ.1 = G.dev))
  | .call _ (.bwrite _) => .isFalse id
  | .call p (.brelse κ) => inferInstanceAs (Decidable (s.cache.Holds p κ .valid))
  | .call p .endOp => inferInstanceAs
      (Decidable (∀ i, (s.cache.buf i).lock = some p → (s.cache.buf i).unsaved = false))
  | .call _ .beginOp | .run _ | .crash .. => .isTrue trivial

/-- A crash after the header was written, and another one in the recovery from it. -/
theorem crash_atomic_twice : ∃ s, Reach (Sys.step rootLog) (Sys.ThroughLog rootLog) freshSys s
    ∧ s.booting = some 1 ∧ s.todo 1 = [.ready] ∧ s.txs.length = 1
    ∧ s.cache.disk (1, 40) = applyTxs rootLog (fun _ => filled 0) s.txs (1, 40) := by
  obtain ⟨s, hs, h⟩ := Outcome.holds_iff.mp (show
    (Script.play (Sys.ThroughLog rootLog) (operation [] ++ runs 24 0 ++ [.crash 0 (filled 3)]
      ++ runs 13 0 ++ [.crash 1 (filled 4)] ++ runs 28 1)).holds
      (fun s => s.booting = some 1 ∧ s.todo 1 = [.ready] ∧ s.txs.length = 1) = true
      by decide +kernel)
  obtain ⟨hboot, hready, htxs⟩ := of_decide_eq_true h
  have hr : Reach (Sys.step rootLog) (Sys.ThroughLog rootLog) freshSys s := Reach.of_checked hs
  exact ⟨s, hr, hboot, hready, htxs,
    (crash_atomic (filled 0) 0 1 (by decide +kernel) hr hboot hready (1, 40) (by decide)).1⟩

end Xv6.Logging
