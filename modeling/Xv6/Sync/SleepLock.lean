import Xv6.Lib.Monitor
import Xv6.Param

namespace Xv6.Sync

open Monitor Run

/-!
# Sleep-locks

`acquiresleep`, `releasesleep` and `holdingsleep` of `sleeplock.c`, with `sleep`, `wakeup` and
`kill` of `proc.c`.  The spin lock is `lk->lk`, the lock of the table is `ptable.lock`.

* `SleepLock`, `LockPoint`, `lockCode` — the functions;
* `Holds` — between the return of `acquiresleep` and `releasesleep`;
* `lockDiscipline` — `locked` and `pid` say who holds the lock, and who sleeps waits for `locked`;
* `sleeplock_sound` — mutual exclusion, and no lost wakeup.
-/

/-- `struct sleeplock`; `pid` is `none` where the source has 0. -/
structure SleepLock (P : Type) where
  locked : Bool
  pid : Option P

/-- Where a process is in the functions. -/
inductive LockPoint where
  /-- At the loop of `acquiresleep`; `held` if the caller has the lock already. -/
  | acquiresleep (held : Bool)
  /-- Before `release` in `acquiresleep`. -/
  | acquired
  /-- At the start of `releasesleep`. -/
  | releasesleep
  /-- Before `wakeup` in `releasesleep`. -/
  | unlocked
  /-- Before `release` in `releasesleep`. -/
  | released
  deriving DecidableEq

variable {P : Type}

/-- What process `p` does next with `lk->lk`.  A process that is outside has the sleep-lock if its
    last call was an `acquiresleep`. -/
def lockCode : Code P (SleepLock P) LockPoint Unit Bool
  | p, x, _, .acquiresleep held =>
    if x.locked then .sleep () (.acquiresleep held)
    else .store { locked := true, pid := some p } .acquired
  | _, _, _, .acquired => .leave true
  | _, _, _, .releasesleep => .store { locked := false, pid := none } .unlocked
  | _, _, _, .unlocked => .wakeup () .released
  | _, _, _, .released => .leave false

/-- `holdingsleep`, called by process `p`. -/
def holdingsleep [DecidableEq P] (x : SleepLock P) (p : P) : Bool := x.locked && x.pid = some p

/-- The processes and a sleep-lock. -/
abbrev LockState (P : Type) := State P (SleepLock P) LockPoint Unit Bool

/-- A process may call `acquiresleep` when it likes; it calls `releasesleep` if it has the lock. -/
def LockRules (s : LockState P) : Act P LockPoint → Prop
  | .enter p (.acquiresleep held) => s.stage p = .out held
  | .enter p .releasesleep => s.stage p = .out true
  | .enter _ _ => False
  | .run _ | .kill _ => True

/-- After `initsleeplock`. -/
def lockStart (killed : P → Bool) : LockState P :=
  ⟨none, none, { locked := false, pid := none }, fun _ => .out false, killed⟩

/-- After `acquiresleep` has got the lock and before `releasesleep` gives it up. -/
def Holds : Bool ⊕ LockPoint → Prop
  | .inl held | .inr (.acquiresleep held) => held = true
  | .inr .acquired | .inr .releasesleep => True
  | .inr .unlocked | .inr .released => False

/-- `locked` and `pid` say who has the lock; who sleeps waits while `locked` is set. -/
def lockDiscipline : Discipline (lockCode (P := P)) LockRules where
  free _ := True
  inside _ _ _ := True
  resume _ _ := True
  sleeps _ _ _ := True
  claim p g x := Holds g ↔ x.locked = true ∧ x.pid = some p
  waits _ x := x.locked = true
  owes _ l _ := l = .unlocked
  enter := by
    intro s p r l ha hp hcl
    refine ⟨trivial, ?_⟩
    cases l with
    | acquiresleep held =>
      cases hp.symm.trans ha
      exact hcl
    | releasesleep =>
      cases hp.symm.trans ha
      exact ⟨fun _ => hcl.mp rfl, fun _ => trivial⟩
    | _ => exact ha.elim
  awake _ := trivial
  acquire _ _ _ := trivial
  store := by
    intro s p l x l' _ hp _ hcl hm
    have hclp := hcl p
    rw [hp] at hclp
    cases l with
    | acquiresleep held =>
      by_cases hlocked : s.data.locked = true
      · simp [lockCode, hlocked] at hm
      · simp only [lockCode, hlocked, Bool.false_eq_true, if_false, Move.store.injEq] at hm
        obtain ⟨rfl, rfl⟩ := hm
        refine ⟨trivial, by simp [Holds], fun q hq => ?_, fun _ _ => .inl rfl⟩
        -- nobody held the lock
        rw [hcl q]
        simp [hlocked, Ne.symm hq]
    | releasesleep =>
      cases hm
      refine ⟨trivial, by simp [Holds], fun q hq => ?_, fun _ _ => .inr rfl⟩
      have hpid : s.data.pid = some p := (hclp.mp trivial).2
      rw [hcl q]
      simp [hpid, Ne.symm hq]
    | acquired => cases hm
    | unlocked => cases hm
    | released => cases hm
  wakeup := by
    intro s p l c l' _ _ _ hcl hm
    cases l with
    | acquiresleep held =>
      simp only [lockCode] at hm
      split at hm <;> cases hm
    | unlocked =>
      cases hm
      exact ⟨trivial, hcl, fun _ _ => .inl rfl⟩
    | _ => cases hm
  sleep := by
    intro s p l c l' _ _ _ hcl hm
    cases l with
    | acquiresleep held =>
      simp only [lockCode] at hm
      split at hm
      · cases hm
        exact ⟨trivial, trivial, hcl, ‹_›, nofun⟩
      · cases hm
    | _ => cases hm
  leave := by
    intro s p l r _ _ _ hcl hm
    cases l with
    | acquiresleep held =>
      simp only [lockCode] at hm
      split at hm <;> cases hm
    | acquired =>
      cases hm
      exact ⟨trivial, ⟨fun _ => hcl.mp trivial, fun _ => rfl⟩, nofun⟩
    | released =>
      cases hm
      exact ⟨trivial, ⟨nofun, fun h => (hcl.mpr h).elim⟩, nofun⟩
    | _ => cases hm

variable [DecidableEq P]

theorem lock_inv {killed : P → Bool} {s : LockState P}
    (hr : Reach (State.step lockCode) LockRules (lockStart killed) s) : lockDiscipline.Inv s := by
  have h0 : lockDiscipline.Inv (lockStart killed) :=
    Discipline.Inv.start trivial fun _ => ⟨nofun, fun h => by cases h.1⟩
  exact Discipline.inv_reach h0 hr

/-- At most one process has the sleep-lock, and while it is unlocked and `lk->lk` is free no process
    sleeps on it. -/
theorem sleeplock_sound {killed : P → Bool} {s : LockState P}
    (hr : Reach (State.step lockCode) LockRules (lockStart killed) s) :
    (∀ p q, Holds (s.stage p).place → Holds (s.stage q).place → p = q) ∧
      (s.data.locked = false → s.lk = none → ∀ p, ¬ (s.stage p).Asleep ()) := by
  have hi := lock_inv hr
  constructor
  · intro p q hp hq
    have h1 := ((hi.claim p).mp hp).2
    have h2 := ((hi.claim q).mp hq).2
    exact Option.some.inj (h1.symm.trans h2)
  · intro hl hlk p hp
    have hw : s.data.locked = true := hi.asleep_waits hlk hp
    rw [hl] at hw
    cases hw

instance (s : LockState P) (a : Act P LockPoint) : Decidable (LockRules s a) :=
  match a with
  | .enter p (.acquiresleep held) => inferInstanceAs (Decidable (s.stage p = .out held))
  | .enter p .releasesleep => inferInstanceAs (Decidable (s.stage p = .out true))
  | .enter _ .acquired | .enter _ .unlocked | .enter _ .released => .isFalse id
  | .run _ | .kill _ => .isTrue trivial

/-- Process 0 has the lock, process 1 goes to sleep for it, and process 0 gives the lock up. -/
def handOver : List (Act (Fin 2) LockPoint) :=
  [.enter 0 (.acquiresleep false), .run 0, .run 0, .run 0,
    .enter 1 (.acquiresleep false), .run 1, .run 1, .run 1, .run 1, .run 1,
    .enter 0 .releasesleep, .run 0, .run 0, .run 0, .run 0, .run 0]

theorem sleeplock_sound_handOver : ∃ s : LockState (Fin 2),
    Reach (State.step lockCode) LockRules (lockStart fun _ => false) s ∧
      s.data.locked = false ∧ s.lk = none ∧ s.stage 1 = .woken (.acquiresleep false) ∧
      (∀ p q, Holds (s.stage p).place → Holds (s.stage q).place → p = q) ∧
      ∀ p, ¬ (s.stage p).Asleep () := by
  obtain ⟨s, hs, ht⟩ := Outcome.holds_iff.mp
    (show (handOver.foldlM (fun (s : LockState (Fin 2)) a =>
        if LockRules s a then s.step lockCode a else .hang) (lockStart fun _ => false)).holds
      (fun s => s.data.locked = false ∧ s.lk = none ∧ s.stage 1 = .woken (.acquiresleep false))
      = true by decide +kernel)
  have hr := Reach.of_checked hs
  obtain ⟨h1, h2, h3⟩ := of_decide_eq_true ht
  have hsound := sleeplock_sound hr
  exact ⟨s, hr, h1, h2, h3, hsound.1, hsound.2 h1 h2⟩

end Xv6.Sync
