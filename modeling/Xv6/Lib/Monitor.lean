import Xv6.Lib.Run
import Mathlib.Logic.Function.Basic

namespace Xv6.Monitor

open Function Option Run

/-!
# Code under a lock that sleeps and wakes others up

Processes share data that a spin lock `lk` guards.  A process with the lock may go to sleep on a
channel, which gives the lock up, and may wake up all that sleep on a channel.  Both work on the
table of processes, which has a lock `pt` of its own.

* `Move`, `Code` — what the code does next where it stands inside the lock;
* `Stage`, `State`, `step` — the processes, cut where they take or give up one of the two locks;
* `Discipline` — assertions about the data: of the process inside, of every process where it
  stands, and for each channel what those that sleep on it wait for;
* `inv_reach` — along a run the assertions hold;
* `Inv.outside` — also if the data may change without the lock;
* `asleep_waits` — no wakeup is lost: while the lock is free, who sleeps on a channel still has
  what it waits for before it.
-/

/-- What the code does next: it changes the data, or goes to sleep on a channel, or wakes up who
    sleeps on a channel, or releases the lock and returns `r`.  `l` is where it goes on. -/
inductive Move (D L C R : Type) where
  | store (x : D) (l : L)
  | sleep (c : C) (l : L)
  | wakeup (c : C) (l : L)
  | leave (r : R)

/-- Where a process stands. -/
inductive Stage (L C R : Type) where
  /-- Outside, after a call that returned `r`. -/
  | out (r : R)
  /-- It acquires the lock. -/
  | want (l : L)
  /-- It has the lock. -/
  | inside (l : L)
  /-- In `wakeup`, with both locks. -/
  | waking (c : C) (l : L)
  /-- In `sleep`, with both locks. -/
  | dozing (c : C) (l : L)
  /-- In `sleep`, with the lock of the table only. -/
  | falling (c : C) (l : L)
  /-- Asleep. -/
  | asleep (c : C) (l : L)
  /-- In `sleep`: woken up, but not yet running. -/
  | woken (l : L)
  deriving DecidableEq

/-- The locks, the data, where the processes stand and whether they have been killed. -/
structure State (P D L C R : Type) where
  lk : Option P
  pt : Option P
  data : D
  stage : P → Stage L C R
  killed : P → Bool

/-- A process calls a function that starts at `l`, or goes on, or is killed. -/
inductive Act (P L : Type) where
  | enter (p : P) (l : L)
  | run (p : P)
  | kill (p : P)

/-- What process `p` does with the lock, if it stands at `l`: this depends on the data and on
    whether the process has been killed. -/
abbrev Code (P D L C R : Type) := P → D → Bool → L → Move D L C R

variable {P D L C R : Type}

namespace Stage

/-- Who sleeps on the channel is woken up. -/
def wake [DecidableEq C] (c : C) : Stage L C R → Stage L C R
  | .asleep c' l => if c' = c then .woken l else .asleep c' l
  | g => g

/-- Who sleeps, on whatever channel, is woken up. -/
def rouse : Stage L C R → Stage L C R
  | .asleep _ l => .woken l
  | g => g

/-- The process has the lock. -/
def HasLk : Stage L C R → Prop
  | .inside _ | .waking _ _ | .dozing _ _ => True
  | _ => False

/-- The process has the lock of the table. -/
def HasPt : Stage L C R → Prop
  | .waking _ _ | .dozing _ _ | .falling _ _ => True
  | _ => False

/-- The process sleeps on the channel, or will without another look at the data. -/
def Bound (c : C) : Stage L C R → Prop
  | .dozing c' _ | .falling c' _ | .asleep c' _ => c' = c
  | _ => False

/-- The process sleeps on the channel. -/
def Asleep (c : C) (g : Stage L C R) : Prop := ∃ l, g = .asleep c l

instance [DecidableEq C] (c : C) : (g : Stage L C R) → Decidable (g.Asleep c)
  | .asleep c' l => decidable_of_iff (c' = c) ⟨fun h => ⟨l, h ▸ rfl⟩, fun ⟨_, h⟩ => by cases h; rfl⟩
  | .out _ | .want _ | .inside _ | .waking _ _ | .dozing _ _ | .falling _ _ | .woken _ =>
    .isFalse nofun

/-- Outside, or where in the code. -/
def place : Stage L C R → R ⊕ L
  | .out r => .inl r
  | .want l | .inside l | .waking _ l | .dozing _ l | .falling _ l | .asleep _ l | .woken l =>
    .inr l

section

variable [DecidableEq C] {c c' : C} {g : Stage L C R}

theorem hasLk_wake : (g.wake c).HasLk ↔ g.HasLk := by
  unfold wake
  split
  · split <;> rfl
  · rfl

theorem hasPt_wake : (g.wake c).HasPt ↔ g.HasPt := by
  unfold wake
  split
  · split <;> rfl
  · rfl

/-- Waking moves nobody. -/
theorem place_wake : (g.wake c).place = g.place := by
  unfold wake
  split
  · split <;> rfl
  · rfl

theorem bound_of_wake (h : (g.wake c).Bound c') : g.Bound c' := by
  unfold wake at h
  split at h
  · split at h
    · exact h.elim
    · exact h
  · exact h

/-- Who is still bound to the channel did not sleep when it was woken up. -/
theorem hasPt_of_wake (h : (g.wake c).Bound c) : g.HasPt := by
  cases g with
  | asleep c' l =>
    by_cases hc : c' = c
    · rw [show (Stage.asleep c' l : Stage L C R).wake c = .woken l from if_pos hc] at h
      exact h.elim
    · exact absurd (bound_of_wake h) hc
  | dozing c' l => trivial
  | falling c' l => trivial
  | _ => exact h.elim

end

end Stage

namespace State

variable [DecidableEq P] [DecidableEq C]

/-- Process `p` goes on to `g`. -/
def goto (s : State P D L C R) (p : P) (g : Stage L C R) : State P D L C R :=
  { s with stage := update s.stage p g }

/-- What process `p`, which has the lock, does next. -/
def move (s : State P D L C R) (p : P) : Move D L C R → Outcome Empty (State P D L C R)
  | .store x l => .ok { s.goto p (.inside l) with data := x }
  | .sleep c l => if s.pt = none then .ok { s.goto p (.dozing c l) with pt := some p } else .hang
  | .wakeup c l => if s.pt = none then .ok { s.goto p (.waking c l) with pt := some p } else .hang
  | .leave r => .ok { s.goto p (.out r) with lk := none }

/-- What process `p` does next.  Who has to wait for a lock does not get on. -/
def run (code : Code P D L C R) (s : State P D L C R) (p : P) :
    Outcome Empty (State P D L C R) :=
  match s.stage p with
  | .out _ => .hang
  | .want l => if s.lk = none then .ok { s.goto p (.inside l) with lk := some p } else .hang
  | .inside l => s.move p (code p s.data (s.killed p) l)
  | .waking c l =>
    .ok { s with pt := none, stage := update (fun q => (s.stage q).wake c) p (.inside l) }
  | .dozing c l => .ok { s.goto p (.falling c l) with lk := none }
  | .falling c l => .ok (s.goto p (.asleep c l))
  -- `sched`: the scheduler gives the lock of the table up
  | .asleep _ _ => if s.pt = some p then .ok { s with pt := none } else .hang
  | .woken l => if s.pt = none then .ok (s.goto p (.want l)) else .hang

/-- One step. -/
def step (code : Code P D L C R) (s : State P D L C R) : Act P L → Outcome Empty (State P D L C R)
  | .enter p l =>
    match s.stage p with
    | .out _ => .ok (s.goto p (.want l))
    | _ => .hang
  | .run p => s.run code p
  | .kill p =>
    if s.pt = none then
      .ok { s.goto p (s.stage p).rouse with killed := update s.killed p true }
    else .hang

end State

/-! ### Assertions -/

/-- Assertions about the data, with what the steps that `allowed` admits have to keep. -/
structure Discipline (code : Code P D L C R) (allowed : State P D L C R → Act P L → Prop) where
  /-- Of the data while the lock is free. -/
  free : D → Prop
  /-- Of the data for the process inside, at `l`. -/
  inside : P → D → L → Prop
  /-- The process may acquire the lock and go on at `l`. -/
  resume : P → L → Prop
  /-- The process may sleep on the channel and go on at `l`. -/
  sleeps : P → C → L → Prop
  /-- Of the data for a process that is outside or in the code, with or without the lock. -/
  claim : P → R ⊕ L → D → Prop
  /-- What those that sleep on the channel wait for is not there. -/
  waits : C → D → Prop
  /-- The process inside has yet to wake up who sleeps on the channel. -/
  owes : D → L → C → Prop
  enter : ∀ {s p r l}, allowed s (.enter p l) → s.stage p = .out r → claim p (.inl r) s.data →
    resume p l ∧ claim p (.inr l) s.data
  awake : ∀ {p c l}, sleeps p c l → resume p l
  acquire : ∀ {p x l}, free x → resume p l → claim p (.inr l) x → inside p x l
  store : ∀ {s p l x l'}, allowed s (.run p) → s.stage p = .inside l → inside p s.data l →
    (∀ q, claim q (s.stage q).place s.data) → code p s.data (s.killed p) l = .store x l' →
    inside p x l' ∧ claim p (.inr l') x ∧ (∀ q, q ≠ p → claim q (s.stage q).place x) ∧
      ∀ c, waits c s.data ∨ owes s.data l c → waits c x ∨ owes x l' c
  wakeup : ∀ {s p l c l'}, allowed s (.run p) → s.stage p = .inside l → inside p s.data l →
    claim p (.inr l) s.data → code p s.data (s.killed p) l = .wakeup c l' →
    inside p s.data l' ∧ claim p (.inr l') s.data ∧
      ∀ c', waits c' s.data ∨ owes s.data l c' → c' = c ∨ waits c' s.data ∨ owes s.data l' c'
  sleep : ∀ {s p l c l'}, allowed s (.run p) → s.stage p = .inside l → inside p s.data l →
    claim p (.inr l) s.data → code p s.data (s.killed p) l = .sleep c l' →
    free s.data ∧ sleeps p c l' ∧ claim p (.inr l') s.data ∧ waits c s.data ∧
      ∀ c', owes s.data l c' → waits c' s.data
  leave : ∀ {s p l r}, allowed s (.run p) → s.stage p = .inside l → inside p s.data l →
    claim p (.inr l) s.data → code p s.data (s.killed p) l = .leave r →
    free s.data ∧ claim p (.inl r) s.data ∧ ∀ c, owes s.data l c → waits c s.data

namespace Discipline

variable {code : Code P D L C R} {allowed : State P D L C R → Act P L → Prop}
  (T : Discipline code allowed)
variable {g : Stage L C R} {x : D} {c : C} {killed : P → Bool} {l : L}

/-- What is known where a process stands. -/
def Ok (p : P) (x : D) : Stage L C R → Prop
  | .out _ => True
  | .want l | .woken l => T.resume p l
  | .inside l | .waking _ l => T.inside p x l
  | .dozing c l => T.free x ∧ T.sleeps p c l
  | .falling c l | .asleep c l => T.sleeps p c l

/-- Who stands there will wake up who sleeps on the channel before it gives up the lock. -/
def Debt (x : D) (c : C) : Stage L C R → Prop
  | .inside l => T.owes x l c
  | .waking c' l => c = c' ∨ T.owes x l c
  | _ => False

/-- The assertions in a state. -/
structure Inv (s : State P D L C R) : Prop where
  lk : ∀ p, s.lk = some p ↔ (s.stage p).HasLk
  pt : ∀ p, (s.stage p).HasPt → s.pt = some p
  free : s.lk = none → T.free s.data
  ok : ∀ p, T.Ok p s.data (s.stage p)
  claim : ∀ p, T.claim p (s.stage p).place s.data
  waits : ∀ q c, (s.stage q).Bound c → T.waits c s.data ∨ ∃ p, T.Debt s.data c (s.stage p)

variable {T} {s s' : State P D L C R} {p q : P} {a : Act P L}

/-- At most one process has the lock. -/
theorem Inv.eq_of_hasLk (h : T.Inv s) (hp : (s.stage p).HasLk) (hq : (s.stage q).HasLk) : p = q :=
  some.inj (((h.lk p).mpr hp).symm.trans ((h.lk q).mpr hq))

/-- What holds while the lock is free, and for whoever is inside, holds in every state. -/
theorem Inv.always {Q : D → Prop} (h : T.Inv s) (hfree : T.free s.data → Q s.data)
    (hin : ∀ p l, T.inside p s.data l → Q s.data) : Q s.data := by
  cases hl : s.lk with
  | none => exact hfree (h.free hl)
  | some p =>
    have hp := (h.lk p).mp hl
    have hok := h.ok p
    cases hg : s.stage p with
    | inside l => rw [hg] at hok; exact hin p l hok
    | waking c l => rw [hg] at hok; exact hin p l hok
    | dozing c l => rw [hg] at hok; exact hfree hok.1
    | _ => rw [hg] at hp; exact hp.elim

/-- What is known of a process without the lock does not depend on the data. -/
theorem Ok.of_not_hasLk {y : D} (h : T.Ok p x g) (hg : ¬ g.HasLk) : T.Ok p y g := by
  cases g with
  | inside l => exact absurd trivial hg
  | waking c l => exact absurd trivial hg
  | dozing c l => exact absurd trivial hg
  | _ => exact h

/-- A process without the lock does not owe a wakeup. -/
theorem Debt.hasLk (h : T.Debt x c g) : g.HasLk := by
  cases g with
  | inside l => trivial
  | waking c' l => trivial
  | _ => exact h.elim

/-- All processes are outside and both locks are free. -/
theorem Inv.start {r : P → R} (hfree : T.free x) (hclaim : ∀ p, T.claim p (.inl (r p)) x) :
    T.Inv ⟨none, none, x, fun p => .out (r p), killed⟩ :=
  ⟨fun _ => ⟨nofun, fun h => h.elim⟩, fun _ h => h.elim, fun _ => hfree,
    fun _ => trivial, hclaim, fun _ _ h => h.elim⟩

/-- **No lost wakeup.** While the lock is free, those that sleep on a channel still wait. -/
theorem Inv.asleep_waits (h : T.Inv s) (hl : s.lk = none) (hp : (s.stage p).Asleep c) :
    T.waits c s.data := by
  obtain ⟨l, hp⟩ := hp
  rcases h.waits p c (by rw [hp]; rfl) with hw | ⟨q, hq⟩
  · exact hw
  · have := (h.lk q).mpr hq.hasLk
    rw [hl] at this
    cases this

/-- The assertion does not depend on it. -/
theorem Ok.wake [DecidableEq C] (h : T.Ok p x g) : T.Ok p x (g.wake c) := by
  unfold Stage.wake
  split
  · split
    · exact T.awake h
    · exact h
  · exact h

/-- Nor does what is owed. -/
theorem Debt.wake [DecidableEq C] {c' : C} (h : T.Debt x c' g) : T.Debt x c' (g.wake c) := by
  unfold Stage.wake
  split
  · exact h.elim
  · exact h

/-- Who sleeps on the channel is woken up: afterwards nobody is about to sleep on it, as the lock
    of the table is `p`'s. -/
theorem Inv.woke [DecidableEq C] (h : T.Inv s) (hp : s.stage p = .waking c l) :
    T.Inv { s with stage := fun q => (s.stage q).wake c } ∧
      ∀ q, ¬ ((s.stage q).wake c).Bound c := by
  have hpt : s.pt = some p := h.pt p (by rw [hp]; trivial)
  refine ⟨⟨fun q => (h.lk q).trans Stage.hasLk_wake.symm,
    fun q hq => h.pt q (Stage.hasPt_wake.mp hq), h.free, fun q => (h.ok q).wake,
    fun q => (congrArg (T.claim q · s.data) Stage.place_wake).mpr (h.claim q), fun q c' hq => ?_⟩,
    fun q hq => ?_⟩
  · rcases h.waits q c' (Stage.bound_of_wake hq) with hw | ⟨r, hr⟩
    · exact .inl hw
    · exact .inr ⟨r, hr.wake⟩
  · have hqp : q = p := some.inj ((h.pt q (Stage.hasPt_of_wake hq)).symm.trans hpt)
    rw [hqp, hp] at hq
    exact hq

/-- The data changes without the lock, but not for the worse for any process where it stands. -/
theorem Inv.outside (h : T.Inv s) (hfree : T.free s.data → T.free x)
    (hok : ∀ p, T.Ok p s.data (s.stage p) → T.Ok p x (s.stage p))
    (hclaim : ∀ p, T.claim p (s.stage p).place x)
    (hwaits : ∀ p c, (s.stage p).Bound c → T.waits c s.data → T.waits c x)
    (howes : ∀ c l, T.owes s.data l c → T.owes x l c) : T.Inv { s with data := x } := by
  refine ⟨h.lk, h.pt, fun hl => hfree (h.free hl), fun p => hok p (h.ok p), hclaim, ?_⟩
  intro q c hq
  rcases h.waits q c hq with hw | ⟨p, hd⟩
  · exact .inl (hwaits q c hq hw)
  · refine .inr ⟨p, ?_⟩
    cases hg : s.stage p with
    | inside l =>
      rw [hg] at hd
      exact howes c l hd
    | waking c' l =>
      rw [hg] at hd
      exact hd.imp_right (howes c l)
    | _ =>
      rw [hg] at hd
      exact hd.elim

variable [DecidableEq P]

/-- Process `p` goes on to `g` and the locks change hands, but the data stays.  The wakeups that
    it owed to someone are still owed, unless there is nothing to wake up for. -/
theorem Inv.moved (h : T.Inv s) {lk pt : Option P} (hlk : lk = some p ↔ g.HasLk)
    (hlk' : ∀ q, q ≠ p → (lk = some q ↔ s.lk = some q)) (hpt : g.HasPt → pt = some p)
    (hpt' : ∀ q, q ≠ p → s.pt = some q → pt = some q) (hfree : lk = none → T.free s.data)
    (hok : T.Ok p s.data g) (hclaim : T.claim p g.place s.data)
    (hbound : ∀ c, g.Bound c → T.waits c s.data ∨ (s.stage p).Bound c)
    (hdebt : ∀ c q, (s.stage q).Bound c ∨ g.Bound c → T.Debt s.data c (s.stage p) →
      T.waits c s.data ∨ T.Debt s.data c g) :
    T.Inv ⟨lk, pt, s.data, update s.stage p g, killed⟩ := by
  have hstage : ∀ Q : P → Stage L C R → Prop, Q p g → (∀ q, q ≠ p → Q q (s.stage q)) →
      ∀ q, Q q (update s.stage p g q) := fun Q hp hq =>
    (forall_update_iff s.stage Q).mpr ⟨hp, hq⟩
  refine ⟨?_, ?_, hfree, ?_, ?_, fun q c hq => ?_⟩
  · exact hstage (fun q g => lk = some q ↔ g.HasLk) hlk fun q hq => (hlk' q hq).trans (h.lk q)
  · exact hstage (fun q g => g.HasPt → pt = some q) hpt fun q hq hq' => hpt' q hq (h.pt q hq')
  · exact hstage (fun q g => T.Ok q s.data g) hok fun q _ => h.ok q
  · exact hstage (fun q g => T.claim q g.place s.data) hclaim fun q _ => h.claim q
  · -- whom it was owed to was bound before, or is `p` itself
    have hold : (s.stage q).Bound c ∨ g.Bound c := by grind
    have hbefore : T.waits c s.data ∨ ∃ r, T.Debt s.data c (s.stage r) := by grind [h.waits]
    rcases hbefore with hw | ⟨r, hr⟩
    · exact .inl hw
    · by_cases hrp : r = p
      · subst hrp
        rcases hdebt c q hold hr with hw | hd
        · exact .inl hw
        · exact .inr ⟨r, (congrArg (T.Debt s.data c) (update_self r g s.stage)).mpr hd⟩
      · exact .inr ⟨r, (congrArg (T.Debt s.data c) (update_of_ne hrp g s.stage)).mpr hr⟩

/-- What process `p` does with the lock keeps the assertions. -/
theorem Inv.move (h : T.Inv s) (ha : allowed s (.run p)) (hp : s.stage p = .inside l)
    (hs : s.move p (code p s.data (s.killed p) l) = .ok s') : T.Inv s' := by
  have hin : T.inside p s.data l := by
    have := h.ok p
    rwa [hp] at this
  have hcl : T.claim p (.inr l) s.data := by
    have := h.claim p
    rwa [hp] at this
  have hlk : s.lk = some p := (h.lk p).mpr (by rw [hp]; trivial)
  have hnot : ∀ q, q ≠ p → ¬ (s.stage q).HasLk := fun q hq hg =>
    hq (h.eq_of_hasLk hg (by rw [hp]; trivial))
  have hlk' : ∀ q, q ≠ p → ((none : Option P) = some q ↔ s.lk = some q) := fun q hq =>
    ⟨nofun, fun hq' => absurd (some.inj (hq'.symm.trans hlk)) hq⟩
  cases hm : code p s.data (s.killed p) l with
  | store x l' =>
    obtain ⟨hin', hcl', hothers, hw⟩ := T.store ha hp hin h.claim hm
    rw [hm] at hs
    cases hs
    have hstage : ∀ Q : P → Stage L C R → Prop, Q p (.inside l') →
        (∀ q, q ≠ p → Q q (s.stage q)) → ∀ q, Q q (update s.stage p (.inside l') q) :=
      fun Q hp hq => (forall_update_iff s.stage Q).mpr ⟨hp, hq⟩
    refine ⟨?_, ?_, fun hl => ?_, ?_, ?_, fun q c hq => ?_⟩
    · exact hstage (fun q g => s.lk = some q ↔ g.HasLk) ⟨fun _ => trivial, fun _ => hlk⟩
        fun q _ => h.lk q
    · exact hstage (fun q g => g.HasPt → s.pt = some q) (fun h => h.elim) fun q _ => h.pt q
    · cases hlk.symm.trans hl
    · exact hstage (fun q g => T.Ok q x g) hin' fun q hq => (h.ok q).of_not_hasLk (hnot q hq)
    · exact hstage (fun q g => T.claim q g.place x) hcl' hothers
    -- Whoever waited on `c` still does, or `p` owes the wakeup.
    · have hq' : (s.stage q).Bound c := by
        revert hq
        exact hstage (fun q g => g.Bound c → (s.stage q).Bound c) (fun h => h.elim)
          (fun _ _ => id) q
      have hbefore : T.waits c s.data ∨ T.owes s.data l c := by
        rcases h.waits q c hq' with hw | ⟨r, hr⟩
        · exact .inl hw
        · obtain rfl := h.eq_of_hasLk hr.hasLk (show (s.stage p).HasLk by rw [hp]; trivial)
          rw [hp] at hr
          exact .inr hr
      rcases hw c hbefore with hw' | ho
      · exact .inl hw'
      · exact .inr ⟨p, (congrArg (T.Debt x c) (update_self p _ s.stage)).mpr ho⟩
  | sleep c l' =>
    obtain ⟨hf, hr, hcl', hw, hno⟩ := T.sleep ha hp hin hcl hm
    rw [hm] at hs
    simp only [State.move] at hs
    split at hs
    · cases hs
      rename_i hpt
      refine h.moved ⟨fun _ => trivial, fun _ => hlk⟩ (fun q _ => Iff.rfl) (fun _ => rfl)
        (fun q _ hq => by rw [hpt] at hq; cases hq) (fun _ => hf) ⟨hf, hr⟩ hcl' ?_ ?_
      -- With both locks: nobody can slip in a wakeup before it sleeps.
      · rintro c' rfl
        exact .inl hw
      · intro c' q _ hd
        rw [hp] at hd
        exact .inl (hno c' hd)
    · cases hs
  | wakeup c l' =>
    obtain ⟨hin', hcl', hd'⟩ := T.wakeup ha hp hin hcl hm
    rw [hm] at hs
    simp only [State.move] at hs
    split at hs
    · cases hs
      rename_i hpt
      refine h.moved ⟨fun _ => trivial, fun _ => hlk⟩ (fun q _ => Iff.rfl) (fun _ => rfl)
        (fun q _ hq => by rw [hpt] at hq; cases hq) (fun hl => by cases hlk.symm.trans hl) hin' hcl'
        (fun c' hc' => hc'.elim) ?_
      intro c' q _ hd
      rw [hp] at hd
      rcases hd' c' (.inr hd) with rfl | hw | ho
      · exact .inr (.inl rfl)
      · exact .inl hw
      · exact .inr (.inr ho)
    · cases hs
  | leave r =>
    obtain ⟨hf, hcl', hno⟩ := T.leave ha hp hin hcl hm
    rw [hm] at hs
    cases hs
    refine h.moved ⟨nofun, fun h => h.elim⟩ hlk' (fun h => h.elim) (fun q _ hq => hq)
      (fun _ => hf) trivial hcl' (fun c hc => hc.elim) ?_
    intro c q _ hd
    rw [hp] at hd
    exact .inl (hno c hd)

variable [DecidableEq C]

/-- A step that is allowed keeps the assertions. -/
theorem Inv.step (h : T.Inv s) (ha : allowed s a) (hs : s.step code a = .ok s') : T.Inv s' := by
  have hnot : ∀ p, ¬ (s.stage p).HasLk → s.lk ≠ some p := fun p hp hl => hp ((h.lk p).mp hl)
  cases a with
  | enter p l =>
    simp only [State.step] at hs
    split at hs
    · rename_i r hp
      cases hs
      have hcl := h.claim p
      rw [hp] at hcl
      obtain ⟨hr, hcl'⟩ := T.enter ha hp hcl
      refine h.moved ⟨fun hl => absurd hl (hnot p (by rw [hp]; exact id)), fun h => h.elim⟩
        (fun q _ => Iff.rfl) (fun h => h.elim) (fun q _ hq => hq) h.free hr hcl'
        (fun c hc => hc.elim) ?_
      intro c q _ hd
      rw [hp] at hd
      exact hd.elim
    · cases hs
  | kill p =>
    simp only [State.step] at hs
    split at hs
    · cases hs
      have hkeep : ∀ g : Stage L C R, (g.HasLk ↔ g.rouse.HasLk) ∧ (g.rouse.HasPt → g.HasPt) ∧
          g.rouse.place = g.place ∧ (∀ c, g.rouse.Bound c → g.Bound c) ∧
          (T.Ok p s.data g → T.Ok p s.data g.rouse) ∧
          ∀ c, T.Debt s.data c g → T.Debt s.data c g.rouse := by
        intro g
        cases g with
        | asleep c l =>
          exact ⟨Iff.rfl, fun h => h.elim, rfl, fun c h => h.elim, T.awake, fun c h => h.elim⟩
        | _ => exact ⟨Iff.rfl, id, rfl, fun _ => id, id, fun _ => id⟩
      obtain ⟨h1, h2, h3, h4, h5, h6⟩ := hkeep (s.stage p)
      refine h.moved ((h.lk p).trans h1) (fun q _ => Iff.rfl) (fun hq => h.pt p (h2 hq))
        (fun q _ hq => hq) h.free (h5 (h.ok p)) (h3 ▸ h.claim p) (fun c hc => .inr (h4 c hc))
        (fun c q _ hd => .inr (h6 c hd))
    · cases hs
  | run p =>
    simp only [State.step, State.run] at hs
    have hok := h.ok p
    have hcl := h.claim p
    cases hp : s.stage p with
    | out r =>
      rw [hp] at hs
      cases hs
    | want l =>
      rw [hp] at hs hok hcl
      simp only at hs
      split at hs
      · rename_i hl
        cases hs
        have hf := h.free hl
        refine h.moved ⟨fun _ => trivial, fun _ => rfl⟩ (fun q hq => ?_) (fun h => h.elim)
          (fun q _ hq => hq) nofun (T.acquire hf hok hcl) hcl
          (fun c hc => hc.elim) ?_
        · rw [hl]
          exact ⟨fun e => absurd (some.inj e).symm hq, nofun⟩
        · intro c q _ hd
          rw [hp] at hd
          exact hd.elim
      · cases hs
    | inside l =>
      rw [hp] at hs
      exact h.move ha hp hs
    | waking c l =>
      rw [hp] at hs hok hcl
      cases hs
      have hlk : s.lk = some p := (h.lk p).mpr (by rw [hp]; trivial)
      obtain ⟨h1, hnone⟩ := h.woke hp
      have hp1 : (s.stage p).wake c = .waking c l := by rw [hp]; rfl
      have hpt : s.pt = some p := h.pt p (by rw [hp]; trivial)
      refine h1.moved ⟨fun _ => trivial, fun _ => hlk⟩ (fun q _ => Iff.rfl) (fun h => h.elim)
        (fun q hq hq' => absurd (some.inj (hq'.symm.trans hpt)) hq) h.free hok hcl
        (fun c hc => hc.elim) ?_
      intro c' q hb hd
      simp only [hp1] at hd
      rcases hd with rfl | ho
      · rcases hb with hb | hb
        · exact absurd hb (hnone q)
        · exact hb.elim
      · exact .inr ho
    | dozing c l =>
      rw [hp] at hs hok hcl
      cases hs
      have hlk : s.lk = some p := (h.lk p).mpr (by rw [hp]; trivial)
      have hpt : s.pt = some p := h.pt p (by rw [hp]; trivial)
      refine h.moved ⟨nofun, fun h => h.elim⟩ (fun q hq => ?_) (fun _ => hpt)
        (fun q _ hq => hq) (fun _ => hok.1) hok.2 hcl ?_ ?_
      · exact ⟨nofun, fun hq' => absurd (some.inj (hq'.symm.trans hlk)) hq⟩
      · intro c' hc'
        rw [hp]
        exact .inr hc'
      · intro c' q _ hd
        rw [hp] at hd
        exact hd.elim
    | falling c l =>
      rw [hp] at hs hok hcl
      cases hs
      refine h.moved ⟨fun hl => absurd hl (hnot p (by rw [hp]; exact id)), fun h => h.elim⟩
        (fun q _ => Iff.rfl) (fun h => h.elim) (fun q _ hq => hq) h.free hok hcl ?_ ?_
      · intro c' hc'
        rw [hp]
        exact .inr hc'
      · intro c' q _ hd
        rw [hp] at hd
        exact hd.elim
    | asleep c l =>
      rw [hp] at hs
      simp only at hs
      split at hs
      · rename_i hpt
        cases hs
        refine ⟨h.lk, fun q hq => ?_, h.free, h.ok, h.claim, h.waits⟩
        have hqp : q = p := some.inj ((h.pt q hq).symm.trans hpt)
        subst hqp
        simp only [hp] at hq
        exact hq.elim
      · cases hs
    | woken l =>
      rw [hp] at hs hok hcl
      simp only at hs
      split at hs
      · cases hs
        refine h.moved ⟨fun hl => absurd hl (hnot p (by rw [hp]; exact id)), fun h => h.elim⟩
          (fun q _ => Iff.rfl) (fun h => h.elim) (fun q _ hq => hq) h.free hok hcl
          (fun c hc => hc.elim) ?_
        intro c q _ hd
        rw [hp] at hd
        exact hd.elim
      · cases hs

/-- Along a run of allowed steps the assertions hold. -/
theorem inv_reach (h : T.Inv s) (hr : Reach (State.step code) allowed s s') : T.Inv s' :=
  hr.invariant h fun _ _ _ hi ha hs => hi.step ha hs

end Discipline

end Xv6.Monitor
