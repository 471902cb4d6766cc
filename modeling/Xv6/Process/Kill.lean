import Xv6.Process.LifeCycle

namespace Xv6.Process

open Function List Run Table

/-!
# `kill`

`kill` looks for a pid in all entries, also in those that are not used, which have pid 0 or the pid
of a process that `fork` failed to make.  `allocproc` leaves `killed` as it is.

* `Precise` — `kill` finds the process with that pid, and nothing else;
* `kill_zero_kills_next` — `kill(0)`, and what comes of it;
* `kill_precise` — without such calls `kill` is precise, and processes are killed for a reason of
  their own.
-/

/-- `kill` returns 0 if and only if a process has that pid, and changes nothing but that process. -/
def Precise (s : Table) (pid : Word) : Prop :=
  ((s.kill pid).1 = 0 ↔ ∃ i, (s.proc i).state ≠ .unused ∧ (s.proc i).pid = pid) ∧
    ∀ i, (s.kill pid).2.proc i ≠ s.proc i → (s.proc i).state ≠ .unused ∧ (s.proc i).pid = pid

/-- The first entry with that pid, if there is one, is in use. -/
def KillOk (s : Table) (pid : Word) : Prop :=
  ∀ j, s.findPid pid = some j → (s.proc j).state ≠ .unused

instance (s : Table) (pid : Word) : Decidable (KillOk s pid) :=
  inferInstanceAs (Decidable (∀ _ : Slot, _ → _))

/-- `kill` is called with such a pid, `fork` does not fail to make a process that has been killed
    already, and it maps every page of the parent's mappings in the child. -/
def Killing (s : Table) : Act → Prop
  | .kill _ pid => KillOk s pid
  | .forkFail i => ∀ np, s.pc i = .allocated np → (s.proc np).killed = false
  | .forkKilled _ => False
  | _ => True

/-- What happened since entry `i` was last taken. -/
def since (i : Slot) (log : List Event) : List Event :=
  log.takeWhile fun e => match e with
    | .alloc j _ _ => j ≠ i
    | _ => true

/-- Process `pid` in entry `i` was killed, or did something it is killed for. -/
def Blamed (s : Table) (i : Slot) : Prop :=
  .kill (s.proc i).pid ∈ since i s.log ∨ .fault (s.proc i).pid ∈ since i s.log

variable {s s' : Table} {i j : Slot} {pid : Word}
variable {p : Proc}

theorem findPid_pid (h : s.findPid pid = some j) : (s.proc j).pid = pid := by
  simpa using find?_some h

theorem findPid_none (h : s.findPid pid = none) (i : Slot) : (s.proc i).pid ≠ pid := by
  have := find?_eq_none.mp h i (mem_finRange i)
  simpa using this

/-- `kill` is precise where the entry that it finds is in use. -/
theorem precise_of_killOk (h : KillOk s pid) : Precise s pid := by
  cases hf : s.findPid pid with
  | none =>
    have hk : s.kill pid = (-1, s) := by rw [kill, hf]
    refine ⟨⟨fun h0 => ?_, fun ⟨i, _, hi⟩ => absurd hi (findPid_none hf i)⟩, fun i hi => ?_⟩
    · rw [hk] at h0
      cases h0
    · rw [hk] at hi
      exact absurd rfl hi
  | some j =>
    have hk : s.kill pid = (0, s.set j (s.proc j).mark) := by rw [kill, hf]
    refine ⟨⟨fun _ => ⟨j, h j hf, findPid_pid hf⟩, fun _ => by rw [hk]⟩, fun i hi => ?_⟩
    have hij : i = j := by
      by_contra hij
      rw [hk] at hi
      exact hi (set_ne hij)
    rw [hij]
    exact ⟨h j hf, findPid_pid hf⟩

/-- An entry that is not used is changed if it was not marked before. -/
theorem killOk_of_precise (hu : ∀ i, (s.proc i).state = .unused → (s.proc i).killed = false)
    (h : Precise s pid) : KillOk s pid := by
  intro j hf hj
  have hk : s.kill pid = (0, s.set j (s.proc j).mark) := by rw [kill, hf]
  refine (h.2 j fun e => ?_).1 hj
  rw [hk] at e
  have hkilled : (s.proc j).killed = true := by
    rw [← e, set_self]
    rfl
  rw [hu j hj] at hkilled
  cases hkilled

/-! ### Runs -/

theorem embryo_used (h : p.kind = .new) : p.state ≠ .unused := fun e => by
  cases h.symm.trans (kind_free.mpr e)

/-- An unused entry is not marked, and who is marked was killed. -/
structure Fair (s : Table) (i : Slot) : Prop where
  unused : (s.proc i).state = .unused → (s.proc i).killed = false
  blamed : (s.proc i).state ≠ .unused → (s.proc i).killed = true → Blamed s i

theorem since_cons {e : Event} {log : List Event} (h : ∀ pid c, e ≠ .alloc i pid c) :
    since i (e :: log) = e :: since i log := by
  cases e with
  | alloc j pid c =>
    have hj : j ≠ i := fun hj => h pid c (by rw [hj])
    simp [since, hj]
  | _ => simp [since]

/-- Entry `i` and what happened to it stay, or something happened that is not a new process in it.
    -/
theorem Fair.keep (h : Fair s i) (hstate : (s'.proc i).state = .unused ↔ (s.proc i).state = .unused)
    (hpid : (s'.proc i).pid = (s.proc i).pid) (hkilled : (s'.proc i).killed = (s.proc i).killed)
    (hlog : s'.log = s.log ∨ ∃ e, s'.log = e :: s.log ∧ ∀ pid c, e ≠ .alloc i pid c) :
    Fair s' i := by
  have hsince : ∀ e, e ∈ since i s.log → e ∈ since i s'.log := by
    grind [since_cons, mem_cons_of_mem]
  refine ⟨fun hu => ?_, fun hu hk => ?_⟩
  · rw [hkilled]
    exact h.unused (hstate.mp hu)
  · rw [hkilled] at hk
    rw [Blamed, hpid]
    exact (h.blamed (mt hstate.mpr hu) hk).imp (hsince _) (hsince _)

/-- One entry is changed, and something may have happened. -/
theorem Fair.set (h : ∀ i, Fair s i) (j : Slot) (hproc : s'.proc = update s.proc j p)
    (hlog : s'.log = s.log ∨ ∃ e, s'.log = e :: s.log ∧ ∀ i, i ≠ j → ∀ pid c, e ≠ .alloc i pid c)
    (hj : s'.proc j = p → Fair s' j) (i : Slot) : Fair s' i := by
  by_cases hij : i = j
  · rw [hij]
    exact hj (by rw [hproc, update_self])
  · have hi : s'.proc i = s.proc i := by rw [hproc, update_of_ne hij]
    refine (h i).keep (by rw [hi]) (by rw [hi]) (by rw [hi]) ?_
    exact hlog.imp_right fun ⟨e, he, hne⟩ => ⟨e, he, hne i hij⟩

/-- The entry is in use before and after, and nothing else of interest changes. -/
theorem Fair.set_used (h : ∀ i, Fair s i) (hj : (s.proc j).state ≠ .unused) (hp : p.state ≠ .unused)
    (hpid : p.pid = (s.proc j).pid) (hkilled : p.killed = (s.proc j).killed) (i : Slot) :
    Fair (s.set j p) i := by
  have hself : (s.set j p).proc j = p := set_self
  have hstate : p.state = .unused ↔ (s.proc j).state = .unused :=
    ⟨fun h => absurd h hp, fun h => absurd h hj⟩
  apply Fair.set h j
  · rfl
  · exact .inl rfl
  · intro _
    apply (h j).keep
    · rw [hself, hstate]
    · rw [hself, hpid]
    · rw [hself, hkilled]
    · exact .inl rfl

theorem Fair.goto (h : Fair s i) (pc : Pc) : Fair (s.goto j pc) i :=
  h.keep Iff.rfl rfl rfl (.inl rfl)

theorem Fair.wait (h : ∀ i, Fair s i) (hi : (s.proc i).state = .running) (q : Slot) :
    Fair (s.wait i) q := by
  unfold Table.wait
  split
  · rename_i z hz
    refine Fair.set h z rfl (.inr ⟨_, rfl, fun _ _ _ _ => Event.noConfusion⟩) (fun e => ?_) q
    refine ⟨fun _ => by rw [e], fun hu => ?_⟩
    rw [e] at hu
    exact absurd rfl hu
  · split
    · exact (h q).keep Iff.rfl rfl rfl (.inl rfl)
    · apply Fair.goto
      apply Fair.set_used h
      · exact fun e => by cases hi.symm.trans e
      · exact nofun
      · rfl
      · rfl

theorem Fair.kill (h : ∀ i, Fair s i) (hok : KillOk s pid) (q : Slot) :
    Fair ((s.kill pid).2.note (.kill pid)) q := by
  unfold Table.kill
  split
  · rename_i j hj
    refine Fair.set h j rfl (.inr ⟨_, rfl, fun _ _ _ _ => Event.noConfusion⟩) (fun e => ?_) q
    refine ⟨fun hu => ?_, fun _ _ => .inl ?_⟩
    · -- the entry was in use
      have hused := hok j hj
      by_cases hs : (s.proc j).state = .sleeping <;> simp_all [Proc.mark]
    · have hpid : (s.proc j).mark.pid = pid := findPid_pid hj
      rw [e, hpid]
      exact mem_cons_self ..
  · exact (h q).keep Iff.rfl rfl rfl (.inr ⟨_, rfl, fun _ _ => Event.noConfusion⟩)

/-- Every step. -/
theorem acts_fair {a : Act} (hf : Forking s) (h : ∀ i, Fair s i) (hc : Killing s a)
    (hrun : (s.proc a.actor).state = .running) (hs : Acts s a s') (q : Slot) : Fair s' q := by
  have hused : (s.proc a.actor).state ≠ .unused := by rw [hrun]; decide
  cases hs with
  | @fork i np hnp =>
    have hu : (s.proc np).state = .unused := by simpa using find?_some hnp
    refine Fair.set h np rfl (.inr ⟨_, rfl, ?_⟩) (fun e => ⟨fun hu' => ?_, fun _ hk => ?_⟩) q
    · rintro k hk pid c ⟨⟩
      exact hk rfl
    · rw [e] at hu'
      cases hu'
    · rw [e] at hk
      cases ((h np).unused hu).symm.trans hk
  | full => exact h q
  | @forkFail i np hpc =>
    refine Fair.set h np rfl (.inr ⟨_, rfl, fun _ _ _ _ => Event.noConfusion⟩) (fun e => ?_) q
    refine ⟨fun _ => ?_, fun hu => ?_⟩
    · rw [e]
      exact hc np hpc
    · rw [e] at hu
      exact absurd rfl hu
  | @forkParent i np hpc =>
    have hnp := embryo_used (hf.filled (show (s.pc i).child = some np by rw [hpc]; rfl))
    apply Fair.goto
    apply Fair.set_used h
    · exact hnp
    · exact hnp
    · rfl
    · rfl
  | forkKilled => exact hc.elim
  | @forkDone i np hpc =>
    have hnp := embryo_used (hf.filled (show (s.pc i).child = some np by rw [hpc]; rfl))
    apply Fair.goto
    apply Fair.set_used h
    · exact hnp
    · exact nofun
    · rfl
    · rfl
  | exit hpc hne =>
    obtain ⟨hkind, hpid, hkilled, _⟩ := exit_proc (s := s) hne q
    refine (h q).keep ?_ hpid hkilled (.inr ⟨_, rfl, fun _ _ => Event.noConfusion⟩)
    rw [← kind_free, ← kind_free, hkind]
    split
    · rename_i hq
      rw [hq, kind_free]
      exact ⟨nofun, fun hu => absurd hu hused⟩
    · rfl
  | wait => exact Fair.wait h hrun q
  | kill => exact Fair.kill h hc q
  | @fault i =>
    refine Fair.set h i rfl (.inr ⟨_, rfl, fun _ _ _ _ => Event.noConfusion⟩) (fun e => ?_) q
    refine ⟨fun hu => ?_, fun _ _ => .inr ?_⟩
    · rw [e] at hu
      exact absurd hu hused
    · rw [e]
      exact mem_cons_self ..
  | yield | sleep =>
    apply Fair.set_used h
    · exact hused
    · exact nofun
    · rfl
    · rfl
  | wakeup =>
    refine (h q).keep ?_ pid_wake killed_wake (.inl rfl)
    rw [← kind_free, ← kind_free]
    exact Eq.congr_left kind_wake

/-- What follows for every run that keeps to `Killing`. -/
theorem fair_reach (hr : Reach Table.step Killing Table.start s) : Forking s ∧ ∀ i, Fair s i := by
  refine hr.invariant (I := fun s => Forking s ∧ ∀ i, Fair s i) ⟨.start, fun i => ?_⟩ ?_
  · have hk : (Table.start.proc i).killed = false := by
      by_cases hi : i = initproc <;> simp [start, hi]
    exact ⟨fun _ => hk, fun _ hk' => by cases hk.symm.trans hk'⟩
  · rintro s a s' ⟨hf, h⟩ hc hs
    refine ⟨step_forking hf hs, fun q => ?_⟩
    rcases step_cases hs with ⟨i, hi, rfl⟩ | ⟨hrun, hs⟩
    · apply Fair.set_used h
      · exact fun e => by cases hi.symm.trans e
      · rintro ⟨⟩
      · rfl
      · rfl
    · exact acts_fair hf h hc hrun hs q

/-- In every run that keeps to `Killing`: `kill` is precise exactly where the first entry with that
    pid, if there is one, is in use; every process starts with `killed` clear, as entries that are
    not used have it so; and where it is set the process was killed by its own pid or for a fault of
    its own, after it was created. -/
theorem kill_precise (hr : Reach Table.step Killing Table.start s) :
    (∀ pid, Precise s pid ↔ KillOk s pid) ∧
      (∀ i, (s.proc i).state = .unused → (s.proc i).killed = false) ∧
      ∀ i, (s.proc i).state ≠ .unused → (s.proc i).killed = true → Blamed s i := by
  have h := (fair_reach hr).2
  have hu := fun i => (h i).unused
  exact ⟨fun pid => ⟨killOk_of_precise hu, precise_of_killOk⟩, hu, fun i => (h i).blamed⟩

instance (s : Table) (a : Act) : Decidable (Killing s a) :=
  match a with
  | .kill _ pid => inferInstanceAs (Decidable (KillOk s pid))
  | .forkFail i =>
    inferInstanceAs (Decidable (∀ np, s.pc i = .allocated np → (s.proc np).killed = false))
  | .forkKilled _ => .isFalse id
  | .fork _ | .forkParent _ | .forkDone _ | .exit _ | .wait _ | .fault _ | .schedule _ | .yield _
  | .sleep _ _ | .wakeup _ _ => .isTrue trivial

/-- `init` forks a child and kills it. -/
def forkKill : List Act := [.schedule 0, .fork 0, .forkParent 0, .forkDone 0, .kill 0 2]

/-- Fork, then kill. -/
theorem kill_precise_forkKill : ∃ s, Reach Table.step Killing Table.start s ∧
    (s.proc 1).killed = true ∧ Blamed s 1 ∧ Precise s 2 := by
  obtain ⟨s, hs, ht⟩ := Outcome.holds_iff.mp
    (show (forkKill.foldlM (fun (s : Table) a => if Killing s a then s.step a else .hang)
        Table.start).holds
      (fun s => (s.proc 1).state ≠ .unused ∧ (s.proc 1).killed = true ∧ KillOk s 2) = true
      by decide +kernel)
  have hr : Reach Table.step Killing Table.start s := Reach.of_checked hs
  obtain ⟨h1, h2, h3⟩ := of_decide_eq_true ht
  have h := kill_precise hr
  exact ⟨s, hr, h2, h.2.2 1 h1 h2, (h.1 2).mpr h3⟩

/-- `init` calls `kill(0)` and then forks a child. -/
def killZeroFork : List Act := [.schedule 0, .kill 0 0, .fork 0, .forkParent 0, .forkDone 0]

/-- `kill(0)` returns 0 although no process has that pid, and the next process is born with `killed`
    set although no one has killed it. -/
theorem kill_zero_kills_next : (Table.start.kill 0).1 = 0 ∧
    (∀ i, (Table.start.proc i).state ≠ .unused → (Table.start.proc i).pid ≠ 0) ∧
    ∃ s, Reach Table.step (fun _ _ => True) Table.start s ∧ (s.proc 1).state = .runnable ∧
      (s.proc 1).killed = true ∧ ¬ Blamed s 1 := by
  refine ⟨by decide +kernel, by decide +kernel, ?_⟩
  obtain ⟨s, hs, ht⟩ := Outcome.holds_iff.mp
    (show (killZeroFork.foldlM Table.step Table.start).holds
      (fun s => (s.proc 1).state = .runnable ∧ (s.proc 1).killed = true ∧
        .kill (s.proc 1).pid ∉ s.log ∧ .fault (s.proc 1).pid ∉ s.log) = true by decide +kernel)
  obtain ⟨h1, h2, h3, h4⟩ := of_decide_eq_true ht
  have hsub : ∀ e ∈ since 1 s.log, e ∈ s.log := (List.takeWhile_sublist _).subset
  refine ⟨s, Reach.of_foldlM (fun _ _ _ => trivial) hs, h1, h2, ?_⟩
  rintro (hk | hf)
  · exact h3 (hsub _ hk)
  · exact h4 (hsub _ hf)

end Xv6.Process
