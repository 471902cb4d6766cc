import Xv6.Log.Commit

namespace Xv6.Logging

open BlockData Function List Sys

/-!
# Operations

What operations do to the machine, between commits and while another process commits.

* `Sys.Rules` — how operations are to use blocks and log; `K` are the blocks that are changed
  through the log only;
* `Between` — what holds between commits;
* `Does` — what a step of an operation does to the contents of the blocks, and what follows for
  `Between` (`Does.between`) and for a commit that is going on (`Does.others`);
* `Serving` — the machine serves operations, and at most one process commits;
* `Stepped`, `Serving.run`, `Serving.call` — the instructions and the calls of operations.
-/

variable {P α : Type} {G : Geo} {d : Key → α} {K : Key → Prop} {live : Prop}

/-! ### The rules -/

/-- How operations are to use blocks and log: they keep off the log's own blocks, log blocks of
    the log's device, and while the log is written do not write or change those in its header;
    if the header has no entry left, its blocks were not written since they were logged.  Blocks
    in `K` are changed in operations only, and logged before the operation ends.  The machine
    may crash if it need not be `live` and all blocks are in `K`. -/
def Sys.Rules (G : Geo) (K : Key → Prop) (live : Prop) (s : Sys P α) : Sys.Act P α → Prop
  | .call _ (.bread κ) => 1 ≤ κ.1 ∧ G.Home κ
  | .call p (.store κ _) => (s.ctl.log.committing = true → ¬ G.InHeader s.ctl.log.block κ)
      ∧ (K κ → (s.ctl.proc p).pc = .inOp)
  | .call _ (.logWrite κ) => κ.1 = G.dev
  | .call _ (.bwrite κ) => (s.ctl.log.committing = true → ¬ G.InHeader s.ctl.log.block κ) ∧ ¬ K κ
  | .call p (.brelse κ) => s.cache.Holds p κ .valid
  | .call p .endOp => (∀ κ, K κ → ¬ s.cache.Unsaved p κ) ∧ (s.ctl.log.n = LOGSIZE →
      ∀ b ∈ s.ctl.log.block, ¬ K (G.home b) → s.cache.Pinned (G.home b))
  | .call _ .beginOp | .run _ => True
  | .crash _ _ => ¬ live ∧ ∀ κ, K κ

/-! ### Between commits -/

section

variable [BlockData α]

/-- What holds between commits.  `pin` are the blocks with a dirty buffer, and `un` those that an
    operation under way has changed and not yet logged. -/
structure Between (G : Geo) (d : Key → α) (K : Key → Prop) (m : Abs α) (pin un : Key → Prop) :
    Prop where
  home : ∀ b ∈ m.block, G.Home (G.home b)
  bound : ∀ b ∈ m.block, b < FSSIZE
  nodup : m.block.Nodup
  length : m.block.length ≤ LOGSIZE
  pinned : ∀ b ∈ m.block, K (G.home b) → pin (G.home b)
  replay : Replays G d K m
  coherent : Coherent G m
  head : readHead (m.disk G.head) = []
  disk : ∀ κ, G.Home κ → K κ → m.disk κ = m.snap κ
  rest : ∀ κ, G.Home κ → K κ → ¬ G.InHeader m.block κ → m.last κ = m.snap κ ∨ un κ

/-- A step of an operation, which the process `o`, if any, does not stop with its commit. -/
inductive Does (G : Geo) (K : Key → Prop) (o : Option P) (pin un : Key → Prop) (m : Abs α) :
    Abs α → Prop
  | same : Does G K o pin un m m
  | store (κ : Key) (v : α) : G.Home κ → (o ≠ none → ¬ G.InHeader m.block κ ∧ ¬ K κ) →
      (K κ → un κ) → Does G K o pin un m (m.call G (.store κ v))
  | bwrite (κ : Key) : G.Home κ → (o ≠ none → ¬ G.InHeader m.block κ) → ¬ K κ →
      Does G K o pin un m (m.call G (.bwrite κ))
  | append (b : Nat) : o = none → G.Home (G.home b) → b < FSSIZE → pin (G.home b) →
      (b ∈ m.block ∨ m.block.length < LOGSIZE) →
      Does G K o pin un m { m with block := absorb m.block b }

variable {m m' : Abs α} {pin un pin' un' : Key → Prop} {o : Option P} {κ : Key} {b c : Nat}
variable {l : List Nat}

theorem mem_absorb : c ∈ absorb l b ↔ c ∈ l ∨ c = b := by
  unfold absorb
  split
  · exact ⟨.inl, fun h => h.elim id (fun he => he ▸ ‹_›)⟩
  · rw [mem_append, mem_singleton]

/-- No block twice. -/
theorem nodup_absorb (h : l.Nodup) : (absorb l b).Nodup := by
  unfold absorb
  split
  · exact h
  · grind

/-- The log stays within `n`. -/
theorem length_absorb {n : Nat} (h : l.length ≤ n) (hb : b ∈ l ∨ l.length < n) :
    (absorb l b).length ≤ n := by
  unfold absorb
  split
  · exact h
  · rw [length_append]
    exact hb.resolve_left ‹_›

theorem Between.steady (h : Between G d K m pin un) : Steady G d K live m :=
  steady_of_empty h.coherent h.replay h.head h.disk

/-- After a commit. -/
theorem Finished.between (h : Finished G K d m) : Between G d K m pin un := by
  have hb := h.block
  refine ⟨?_, ?_, ?_, ?_, ?_, h.replay, h.coherent, h.head, fun κ hκ hK => (h.rest κ hκ hK).1,
    fun κ hκ hK _ => .inl (h.rest κ hκ hK).2⟩
  all_goals rw [hb]
  · exact nofun
  · exact nofun
  · exact nodup_nil
  · exact Nat.zero_le _
  · exact nofun

/-- Before a commit. -/
theorem Between.logged (h : Between G d K m pin un) (hun : ∀ κ, ¬ un κ) :
    Logged G m.block (fun b => m.last (G.home b)) K d 0 m :=
  ⟨rfl, h.replay, h.coherent, fun _ _ => rfl, nofun, h.head, h.disk, fun κ hκ hK hin =>
    (h.rest κ hκ hK hin).resolve_right (hun κ)⟩

theorem record_home (hκ : G.Home κ) (m : Abs α) : m.record G κ = m :=
  record_ne (Header.ne_of_home hκ head_not_home) m

/-- Between commits, a step of an operation. -/
theorem Does.between (hd : Does G K o pin' un' m m') (h : Between G d K m pin un)
    (hpin : ∀ κ, K κ → pin κ → pin' κ)
    (hun : ∀ κ, K κ → ¬ G.InHeader m'.block κ → un κ → un' κ) : Between G d K m' pin' un' := by
  have hpinned (b : Nat) (hb : b ∈ m.block) (hK : K (G.home b)) : pin' (G.home b) :=
    hpin _ hK (h.pinned b hb hK)
  cases hd with
  | same =>
    exact { h with pinned := hpinned,
                   rest := fun κ hκ hK hin => (h.rest κ hκ hK hin).imp_right (hun κ hK hin) }
  | store κ v hhome _ hK' =>
    refine { h with pinned := hpinned, coherent := fun κ' hκ' => ?_,
                    rest := fun κ' hκ' hK hin => ?_ }
    · show update m.view κ v κ' = update m.last κ v κ'
      by_cases he : κ' = κ
      · rw [he, update_self, update_self]
      · rw [update_of_ne he, update_of_ne he]
        exact h.coherent κ' hκ'
    · show update m.last κ v κ' = m.snap κ' ∨ un' κ'
      by_cases he : κ' = κ
      · exact .inr (he ▸ hK' (he ▸ hK))
      · rw [update_of_ne he]
        exact (h.rest κ' hκ' hK hin).imp_right (hun κ' hK hin)
  | bwrite κ hhome hin hK' =>
    rw [Abs.call, record_home hhome] at hun ⊢
    refine { h with pinned := hpinned, head := ?_, disk := fun κ' hκ' hK => ?_,
                    rest := fun κ' hκ' hK hin => (h.rest κ' hκ' hK hin).imp_right (hun κ' hK hin) }
    · show readHead (update m.disk κ _ G.head) = []
      rw [update_of_ne (Header.ne_of_home hhome head_not_home).symm]
      exact h.head
    · show update m.disk κ _ κ' = m.snap κ'
      rw [update_of_ne (show κ' ≠ κ from fun he => hK' (he ▸ hK))]
      exact h.disk κ' hκ' hK
  | append b _ hhome hbound hpb hlen =>
    refine { h with home := fun c hc => ?_, bound := fun c hc => ?_, nodup := nodup_absorb h.nodup,
                    length := length_absorb h.length hlen, pinned := fun c hc hK => ?_,
                    rest := fun κ hκ hK hin => ?_ }
    · rcases mem_absorb.mp hc with hc | rfl
      · exact h.home c hc
      · exact hhome
    · rcases mem_absorb.mp hc with hc | rfl
      · exact h.bound c hc
      · exact hbound
    · rcases mem_absorb.mp hc with hc | rfl
      · exact hpinned c hc hK
      · exact hpb
    · have hin' : ¬ G.InHeader m.block κ := fun hi => hin ⟨hi.1, mem_absorb.mpr (.inl hi.2)⟩
      exact (h.rest κ hκ hK hin').imp_right (hun κ hK hin)

/-- Operations record no transaction. -/
theorem Does.txs (hd : Does G K o pin un m m') : m'.txs = m.txs := by
  cases hd with
  | bwrite κ hhome => rw [Abs.call, record_home hhome]
  | _ => rfl

/-- During a commit, a step of another process. -/
theorem Does.others (hd : Does G K o pin un m m') (ho : o ≠ none) : Others G K m m' := by
  cases hd with
  | same => exact .refl m
  | store κ v hhome hout _ =>
    obtain ⟨hin, hK⟩ := hout ho
    have hne (κ' : Key) (hκ' : G.Own m.block κ' ∨ K κ') : κ' ≠ κ := by
      rintro rfl
      rcases hκ' with (hnot | hh) | hk
      · exact hnot hhome
      · exact hin hh
      · exact hK hk
    refine ⟨rfl, rfl, rfl, fun κ' hκ' => update_of_ne (hne κ' (.inl hκ')) ..,
      fun κ' hκ' => update_of_ne (hne κ' hκ') .., fun _ _ => rfl, fun κ' _ he => ?_⟩
    show update m.view κ v κ' = update m.last κ v κ'
    by_cases hκ : κ' = κ
    · rw [hκ, update_self, update_self]
    · rw [update_of_ne hκ, update_of_ne hκ]
      exact he
  | bwrite κ hhome hout hK =>
    have hin := hout ho
    rw [Abs.call, record_home hhome]
    have hne (κ' : Key) (hκ' : G.Own m.block κ' ∨ K κ') : κ' ≠ κ := by
      rintro rfl
      rcases hκ' with (hnot | hh) | hk
      · exact hnot hhome
      · exact hin hh
      · exact hK hk
    exact ⟨rfl, rfl, rfl, fun _ _ => rfl, fun _ _ => rfl,
      fun κ' hκ' => update_of_ne (hne κ' hκ') .., fun _ _ he => he⟩
  | append b hnone => exact absurd hnone ho

end

/-! ### Who does what -/

/-- An operation under way has changed block `κ` and not yet logged it. -/
def Sys.Changing (s : Sys P α) (κ : Key) : Prop :=
  ∃ p, (s.ctl.proc p).pc.active = 1 ∧ s.cache.Unsaved p κ

/-- Instructions of `bread` and `brelse`. -/
def Instr.Plain : Instr → Prop
  | .get _ | .lock _ | .fill _ | .unlock _ | .put _ => True
  | _ => False

/-- What a process that neither commits nor recovers may have to do. -/
def Sys.Minds (G : Geo) (s : Sys P α) (p : P) : Prop :=
  (∀ x ∈ s.todo p, x.Plain) ∨ ∃ κ, s.todo p = [.append κ] ∧ κ.1 = G.dev ∧ G.Home κ ∧ κ.2 < FSSIZE
    ∧ (s.ctl.proc p).pc = .logging κ.2

/-- Process `o` commits, or nobody does. -/
def Committer (c : State P) : Option P → Prop
  | none => c.log.committing = false
  | some p => (c.proc p).pc.commits = 1

/-- The machine serves operations, and process `o` commits. -/
structure Serving [Fintype P] (G : Geo) (s : Sys P α) (o : Option P) : Prop where
  booting : s.booting = none
  inv : Inv s.ctl
  minds : ∀ q, o ≠ some q → s.Minds G q
  committer : Committer s.ctl o

/-! ### Steps of operations -/

/-- Process `p` has made a step of the log's protocol, or none. -/
def CtlMove [DecidableEq P] (c c' : State P) (p : P) : Prop :=
  c' = c ∨ ∃ a : Act P, a.actor = p ∧ step c a = .ok c'

section

variable [DecidableEq P] {c c' : State P} {p q : P}
variable {b : Nat}

section

variable (h : CtlMove c c' p)
include h

/-- A move keeps the invariant. -/
theorem CtlMove.inv [Fintype P] (hi : Inv c) : Inv c' := by
  rcases h with rfl | ⟨a, -, ha⟩
  · exact hi
  · exact step_inv hi ha

theorem CtlMove.pc_ne (hq : q ≠ p) :
    (c'.proc q).pc = (c.proc q).pc ∨ (c.proc q).pc = .asleep ∧ (c'.proc q).pc = .woken := by
  rcases h with rfl | ⟨a, rfl, ha⟩
  · exact .inl rfl
  · exact step_pc_ne ha hq

theorem CtlMove.active_ne (hq : q ≠ p) : (c'.proc q).pc.active = (c.proc q).pc.active := by
  rcases h.pc_ne hq with he | ⟨h1, h2⟩
  · rw [he]
  · rw [h1, h2]
    rfl

theorem CtlMove.commits_ne (hq : q ≠ p) : (c'.proc q).pc.commits = (c.proc q).pc.commits := by
  rcases h.pc_ne hq with he | ⟨h1, h2⟩
  · rw [he]
  · rw [h1, h2]
    rfl

theorem CtlMove.logging_ne (hq : q ≠ p) (hb : (c.proc q).pc = .logging b) :
    (c'.proc q).pc = .logging b := by
  rcases h.pc_ne hq with he | ⟨h1, -⟩
  · rw [he, hb]
  · rw [hb] at h1
    cases h1

end

/-- There is room for what is appended, and the operation goes on. -/
theorem append_room (hpc : (c.proc p).pc = .logging b) (h : step c (.append p) = .ok c') :
    (b ∈ c.log.block ∨ c.log.block.length < LOGSIZE)
      ∧ (c'.proc p).pc = .inOp ∧ c'.log.committing = c.log.committing := by
  cases step_cases h with
  | absorb hpc' hb =>
    cases hpc.symm.trans hpc'
    exact ⟨.inl hb, by rw [update_pc, if_pos rfl], rfl⟩
  | append hpc' hb hn => exact ⟨.inr hn, by rw [update_pc, if_pos rfl], rfl⟩

theorem begin_inactive (h : step c (.begin p) = .ok c') :
    (c.proc p).pc.active = 0 ∧ c'.log.committing = c.log.committing := by
  have hpc (hpc : (c.proc p).pc = .idle ∨ (c.proc p).pc = .woken) : (c.proc p).pc.active = 0 := by
    rcases hpc with hpc | hpc <;> rw [hpc] <;> rfl
  cases step_cases h with
  | sleep hp => exact ⟨hpc hp, rfl⟩
  | enter hp => exact ⟨hpc hp, rfl⟩

theorem check_logging (h : step c (.check p b) = .ok c') :
    (c'.proc p).pc = .logging b ∧ c'.log.committing = c.log.committing := by
  cases step_cases h
  exact ⟨by rw [goto_pc, if_pos rfl], rfl⟩

/-- An operation that ends starts a commit, or leaves the log as it was. -/
theorem endOp_pc (h : step c (.endOp p) = .ok c') : (c.proc p).pc.active = 1
    ∧ ((c'.proc p).pc = .committing ∨ (c'.proc p).pc ≠ .committing
      ∧ c'.log.committing = c.log.committing) := by
  cases step_cases h with
  | last hpc => exact ⟨by rw [hpc]; rfl, .inl (by rw [goto_pc, if_pos rfl])⟩
  | leave hpc =>
    refine ⟨by rw [hpc]; rfl, .inr ⟨?_, rfl⟩⟩
    rw [wakeup_pc, goto_pc, if_pos rfl]
    decide

theorem clear_committed (h : step c (.clear p) = .ok c') : (c'.proc p).pc = .committed := by
  cases step_cases h
  rw [goto_pc, if_pos rfl]

theorem finish_committing (h : step c (.finish p) = .ok c') : c'.log.committing = false := by
  cases step_cases h
  rfl

end

section

variable {s s' : Sys P α} {p : P} {o o' : Option P} {x : Instr} {T : List Instr} {k : Option Key}
variable {κ : Key} {c : Sys.Call α}

/-- Who is at `bread` or `brelse` of a block has not changed it. -/
theorem not_unsaved {h : Hold} (hh : s.cache.Holds p κ h) (hne : h ≠ .modified) :
    ¬ s.cache.Unsaved p κ := by
  rintro ⟨j, hj, hl, hu⟩
  cases h with
  | none =>
    rw [show s.cache.ptr p κ = none from hh] at hj
    cases hj
  | ref =>
    obtain ⟨i, hi, hl'⟩ := hh
    cases hi.symm.trans hj
    exact hl' hl
  | locked =>
    obtain ⟨i, hi, -, hu'⟩ := hh
    cases hi.symm.trans hj
    rw [hu'] at hu
    cases hu
  | valid =>
    obtain ⟨i, hi, -, -, hu'⟩ := hh
    cases hi.symm.trans hj
    rw [hu'] at hu
    cases hu
  | modified => exact hne rfl

section

variable [DecidableEq P]

/-- What the others mind stays. -/
theorem minds_ne {q : P} (hc : CtlMove s.ctl s'.ctl p) (hq : q ≠ p) (htodo : s'.todo q = s.todo q)
    (h : s.Minds G q) : s'.Minds G q := by simp_all [Minds, h.imp_right, hc.logging_ne]

/-- Changes stay if those of the process that has done something do. -/
theorem changing_move (hc : CtlMove s.ctl s'.ctl p) (hk : ∀ q, q ≠ p → Kept s.cache s'.cache q κ)
    (hp : (s.ctl.proc p).pc.active = 1 → s.cache.Unsaved p κ → s'.Changing κ) (h : s.Changing κ) :
    s'.Changing κ := by
  obtain ⟨q, hact, hu⟩ := h
  by_cases hq : q = p
  · subst hq
    exact hp hact hu
  · exact ⟨q, (hc.active_ne hq).trans hact, (hk q hq).unsaved hu⟩

/-- A call is a move. -/
theorem Sys.CtlCall.move (h : s.CtlCall s' p c) : CtlMove s.ctl s'.ctl p := by
  cases c with
  | logWrite κ => exact .inr ⟨.check p κ.2, rfl, h⟩
  | beginOp => exact .inr ⟨.begin p, rfl, h⟩
  | endOp => exact .inr ⟨.endOp p, rfl, h⟩
  | bread | store | bwrite | brelse => exact .inl h

end

variable [Fintype P]

/-- The log is committing then. -/
theorem Serving.committing (h : Serving G s o) (ho : o ≠ none) : s.ctl.log.committing = true := by
  obtain ⟨c, rfl⟩ := Option.ne_none_iff_exists'.mp ho
  exact h.inv.committing_of h.committer

/-- While a process commits no operation is under way. -/
theorem Serving.none_of_active (h : Serving G s o) (hp : (s.ctl.proc p).pc.active = 1) :
    o = none := by grind [h.committing, h.inv.not_committing]

/-- What a process was at stays so for the others. -/
theorem Progress.tracks_all (hp : Progress G s s' p k) (h : ∀ q, s.Tracks G q) (q : P) :
    s'.Tracks G q := by
  by_cases hq : q = p
  · exact hq ▸ hp.tracks
  · obtain ⟨σ, hσ, hF⟩ := h q
    refine ⟨σ, fun κ => (hp.kept q κ (.inl hq)).holds (hσ κ), ?_⟩
    rw [hp.others q hq]
    exact hF

theorem Progress.todo_committer (hp : Progress G s s' p k) (hop : o ≠ some p) (c : P)
    (hc : o = some c) : s'.todo c = s.todo c :=
  hp.others c fun he => hop (by rw [hc, he])

/-- A commit excludes changes. -/
theorem Serving.not_changing (h : Serving G s (some p)) (κ : Key) : ¬ s.Changing κ := by
  rintro ⟨q, hact, -⟩
  cases h.none_of_active hact

/-- A block in a buffer that was read is on the disk. -/
theorem bound_of_holding (hc : Cached s.cache) (hh : s.Holding p κ) : κ.2 < FSSIZE := by
  obtain ⟨i, hi, -, hv⟩ := hh
  have hb := ((hc.ok i).bound hv).2
  rw [(hc.ptr p κ i hi).1] at hb
  exact hb

variable [DecidableEq P]

/-- Process `p` has done something, and now `o'` commits. -/
theorem Serving.move (h : Serving G s o) (hc : CtlMove s.ctl s'.ctl p) (hb : s'.booting = none)
    (htodo : ∀ q, q ≠ p → s'.todo q = s.todo q) (ho : ∀ q, q ≠ p → o = some q → o' = some q)
    (hp : o' ≠ some p → s'.Minds G p) (hcom : Committer s'.ctl o') :
    Serving G s' o' where
  booting := hb
  inv := hc.inv h.inv
  minds := fun q hq => by
    by_cases hqp : q = p
    · subst hqp
      exact hp hq
    · exact minds_ne hc hqp (htodo q hqp) (h.minds q (fun he => hq (ho q hqp he)))
  committer := hcom

/-- A process that does not commit has done something. -/
theorem Serving.keep (h : Serving G s o) (hop : o ≠ some p) (hc : CtlMove s.ctl s'.ctl p)
    (hb : s'.booting = none) (htodo : ∀ q, q ≠ p → s'.todo q = s.todo q)
    (hp : s'.Minds G p)
    (hcom : s.ctl.log.committing = false → s'.ctl.log.committing = false) : Serving G s' o := by
  refine h.move hc hb htodo (fun _ _ he => he) (fun _ => hp) ?_
  cases o with
  | none => exact hcom h.committer
  | some c =>
    have hcp : c ≠ p := fun he => hop (by rw [he])
    exact (hc.commits_ne hcp).trans h.committer

variable [BlockData α]

/-- What a step of an operation does to the machine. -/
structure Stepped (G : Geo) (K : Key → Prop) (o : Option P) (s s' : Sys P α) : Prop where
  cached : Cached s'.cache
  tracks : ∀ p, s'.Tracks G p
  serving : Serving G s' o
  todo : ∀ c, o = some c → s'.todo c = s.todo c
  does : Does G K o s'.cache.Pinned s'.Changing s.abs s'.abs
  pinned : ∀ κ, K κ ∨ o ≠ none ∧ G.InHeader s.abs.block κ → s.cache.Pinned κ → s'.cache.Pinned κ
  changing : ∀ κ, K κ → ¬ G.InHeader s'.abs.block κ → s.Changing κ → s'.Changing κ

/-- An instruction of `bread` or `brelse`. -/
theorem stepped_plain (h : Serving G s o) (htr : ∀ q, s.Tracks G q) (hop : o ≠ some p)
    (hT : ∀ y ∈ T, y.Plain) (hx : x.Plain) (he : Executed G s s' p x T) (hctl : CtlExec s s' p x)
    (hun : ∀ κ, x.key G = some κ → ¬ s.cache.Unsaved p κ) : Stepped G K o s s' := by
  have habs : (s'.abs, s'.todo p) = (s.abs, T) := by
    rw [he.abs]
    cases x <;> first | rfl | exact hx.elim
  have hsame : s'.ctl = s.ctl ∧ s'.booting = s.booting := by
    cases x <;> first | exact hctl | exact hx.elim
  obtain ⟨habs, htodo⟩ := Prod.mk.inj habs
  have hmove : CtlMove s.ctl s'.ctl p := .inl hsame.1
  have hserving : Serving G s' o := by
    refine h.keep hop hmove (hsame.2.trans h.booting) he.others (.inl ?_) ?_
    · rw [htodo]
      exact hT
    · rw [hsame.1]
      exact id
  refine ⟨he.cached, he.tracks_all htr, hserving, he.todo_committer hop, ?_, ?_, ?_⟩
  · rw [habs]
    exact .same
  · intro κ _ hp
    refine he.pinned κ ?_ hp
    rintro rfl
    exact hx
  · intro κ _ _ hch
    refine changing_move hmove (fun q hq => he.kept q κ (.inl hq)) (fun hact hu => ?_) hch
    refine ⟨p, ?_, (he.kept p κ (.inr fun hk => hun κ hk hu)).unsaved hu⟩
    rw [hsame.1]
    exact hact

/-- The next instruction of a process that does not commit. -/
theorem Serving.run (h : Serving G s o) (hc : Cached s.cache) (htr : ∀ q, s.Tracks G q)
    (hop : o ≠ some p) (htodo : s.todo p = x :: T) (hexec : s.exec G p T x = .ok s') :
    Stepped G K o s s' := by
  obtain ⟨σ, hσ, hF⟩ := htr p
  rw [htodo] at hF
  have hctl := exec_ctl hexec
  rcases h.minds p hop with hplain | ⟨κ, hκ, hdev, hhome, hbound, hpc⟩
  · rw [htodo] at hplain
    have hx : x.Plain := hplain x (mem_cons_self ..)
    have hT : ∀ y ∈ T, y.Plain := fun y hy => hplain y (mem_cons_of_mem _ hy)
    have hlog (κ : Key) (hxκ : x = .append κ) : (s.ctl.proc p).pc = .logging κ.2 := by
      subst hxκ
      exact hx.elim
    have he := exec_ok hc hσ hF hlog hexec
    refine stepped_plain h htr hop hT hx he hctl fun κ hk => ?_
    cases x with
    | get κ' =>
      cases hk
      rw [exec] at hexec
      split at hexec
      · cases hexec
      · refine not_unsaved (h := .none) ?_ (by rintro ⟨⟩)
        show s.cache.ptr p κ = none
        simpa using ‹¬ s.cache.ptr p κ ≠ none›
    | lock κ' | fill κ' | unlock κ' | put κ' =>
      cases hk
      exact not_unsaved (hσ κ) (by rw [hF.1]; exact (by rintro ⟨⟩))
    | copy | write | append | getHead | setHead | commit | writeLog | install | clear | finish
    | ready => exact hx.elim
  · rw [htodo] at hκ
    obtain ⟨rfl, rfl⟩ := List.cons.inj hκ
    have he := exec_ok hc hσ hF (fun κ' hx => by cases hx; exact hpc) hexec
    have hnone : o = none := h.none_of_active (p := p) (by rw [hpc]; rfl)
    obtain ⟨habs, htodo'⟩ := Prod.mk.inj he.abs
    have hmove : CtlMove s.ctl s'.ctl p := .inr ⟨.append p, rfl, hctl.1⟩
    have hhk : G.home κ.2 = κ := Prod.ext hdev.symm rfl
    obtain ⟨hroom, hpc', hcom⟩ := append_room hpc hctl.1
    have hserving : Serving G s' o := by
      refine h.keep hop hmove (hctl.2.trans h.booting) he.others (.inl ?_) ?_
      · rw [htodo']
        rintro _ ⟨⟩
      · rw [hcom]
        exact id
    refine ⟨he.cached, he.tracks_all htr, hserving, he.todo_committer hop, ?_,
      fun κ' _ => he.pinned κ' (by rintro ⟨⟩), ?_⟩
    · rw [habs]
      exact .append κ.2 hnone (hhk ▸ hhome) hbound (hhk ▸ he.logged κ rfl) hroom
    · intro κ' _ hin hch
      refine changing_move hmove (fun q hq => he.kept q κ' (.inl hq)) (fun _ hu => ?_) hch
      have hne : κ ≠ κ' := by
        rintro rfl
        refine hin ⟨hdev, ?_⟩
        rw [habs]
        exact mem_absorb.mpr (.inr rfl)
      refine ⟨p, by rw [hpc']; rfl, (he.kept p κ' (.inr fun hk => hne ?_)).unsaved hu⟩
      exact Option.some.inj hk

/-- The last operation ends, and process `p` is to commit. -/
structure Committing (G : Geo) (K : Key → Prop) (s s' : Sys P α) (p : P) : Prop where
  cached : Cached s'.cache
  tracks : ∀ q, s'.Tracks G q
  serving : Serving G s' (some p)
  abs : s'.abs = s.abs
  todo : s'.todo p = [.commit, .finish]
  pinned : ∀ κ, s.cache.Pinned κ → s'.cache.Pinned κ
  full : s.abs.block.length = LOGSIZE →
    ∀ b ∈ s.abs.block, ¬ K (G.home b) → s.cache.Pinned (G.home b)
  saved : ∀ κ, K κ → ¬ s.Changing κ

/-- A call that leaves the blocks as they are. -/
theorem Called.stepped_same (hcd : Called G s s' p c) (h : Serving G s o) (htr : ∀ q, s.Tracks G q)
    (hop : o ≠ some p) (hkey : c.key = none) (habs : s.abs.call G c = s.abs) (hminds : s'.Minds G p)
    (hcom : s'.ctl.log.committing = s.ctl.log.committing)
    (hch : ∀ κ, K κ → (s.ctl.proc p).pc.active = 1 → s.cache.Unsaved p κ →
      (s'.ctl.proc p).pc.active = 1) : Stepped G K o s s' := by
  have hmove := hcd.ctl.move
  have hserving : Serving G s' o := by
    refine h.keep hop hmove (hcd.booting.trans h.booting) hcd.others hminds ?_
    rw [hcom]
    exact id
  refine ⟨hcd.cached, hcd.tracks_all htr, hserving, hcd.todo_committer hop, ?_,
    fun κ _ => hcd.pinned κ ?_, ?_⟩
  · rw [hcd.abs, habs]
    exact .same
  · rintro rfl
    cases hkey
  · intro κ hK _ hcg
    refine changing_move hmove (fun q hq => hcd.kept q κ (.inl hq)) (fun hact hu => ?_) hcg
    refine ⟨p, hch κ hK hact hu, (hcd.kept p κ (.inr ?_)).unsaved hu⟩
    rw [hkey]
    exact nofun

/-- A block that was read is changed. -/
theorem Called.stepped_store {v : α} (hcd : Called G s s' p (.store κ v)) (h : Serving G s o)
    (htr : ∀ q, s.Tracks G q) (hop : o ≠ some p) (hhome : G.Home κ)
    (hrule : s.Rules G K live (.call p (.store κ v))) : Stepped G K o s s' := by
  have hsame : s'.ctl = s.ctl := hcd.ctl
  have hmove := hcd.ctl.move
  have hserving : Serving G s' o := by
    refine h.keep hop hmove (hcd.booting.trans h.booting) hcd.others (.inl ?_) ?_
    · rw [hcd.todo]
      exact nofun
    · rw [hsame]
      exact id
  have hunsaved := hcd.stored κ v rfl
  refine ⟨hcd.cached, hcd.tracks_all htr, hserving, hcd.todo_committer hop, ?_,
    fun κ' _ => hcd.pinned κ' nofun, ?_⟩
  · rw [hcd.abs]
    refine .store κ v hhome (fun ho => ?_) (fun hK => ?_)
    · -- while a process commits, no operation is under way
      refine ⟨hrule.1 (h.committing ho), fun hK => ho (h.none_of_active (p := p) ?_)⟩
      rw [hrule.2 hK]
      rfl
    · refine ⟨p, ?_, hunsaved⟩
      rw [hsame, hrule.2 hK]
      rfl
  · intro κ' _ _ hcg
    refine changing_move hmove (fun q hq => hcd.kept q κ' (.inl hq)) (fun hact hu => ?_) hcg
    refine ⟨p, by rw [hsame]; exact hact, ?_⟩
    by_cases he : κ = κ'
    · exact he ▸ hunsaved
    · exact (hcd.kept p κ' (.inr fun hk => he (Option.some.inj hk))).unsaved hu

/-- A block is written without the log. -/
theorem Called.stepped_bwrite (hcd : Called G s s' p (.bwrite κ)) (h : Serving G s o)
    (htr : ∀ q, s.Tracks G q) (hop : o ≠ some p) (hhome : G.Home κ)
    (hrule : s.Rules G K live (.call p (.bwrite κ))) : Stepped G K o s s' := by
  have hsame : s'.ctl = s.ctl := hcd.ctl
  have hmove := hcd.ctl.move
  have hserving : Serving G s' o := by
    refine h.keep hop hmove (hcd.booting.trans h.booting) hcd.others (.inl ?_) ?_
    · rw [hcd.todo]
      exact nofun
    · rw [hsame]
      exact id
  have hout (ho : o ≠ none) : ¬ G.InHeader s.abs.block κ := hrule.1 (h.committing ho)
  refine ⟨hcd.cached, hcd.tracks_all htr, hserving, hcd.todo_committer hop, ?_,
    fun κ' hin => hcd.pinned κ' ?_, ?_⟩
  · rw [hcd.abs]
    exact .bwrite κ hhome hout hrule.2
  · rintro ⟨⟩
    rcases hin with hK | ⟨ho, hin⟩
    · exact hrule.2 hK
    · exact hout ho hin
  · intro κ' hK _ hcg
    refine changing_move hmove (fun q hq => hcd.kept q κ' (.inl hq)) (fun hact hu => ?_) hcg
    refine ⟨p, by rw [hsame]; exact hact, (hcd.kept p κ' (.inr ?_)).unsaved hu⟩
    rintro ⟨⟩
    exact hrule.2 hK

/-- A call of a process that does not commit. -/
theorem Serving.call (h : Serving G s o) (hc : Cached s.cache) (htr : ∀ q, s.Tracks G q)
    (hop : o ≠ some p) (htodo : s.todo p = []) (hrule : s.Rules G K live (.call p c))
    (hcall : s.call G p c = .ok s') :
    Stepped G K o s s' ∨ o = none ∧ Committing G K s s' p := by
  obtain ⟨σ, hσ, hF⟩ := htr p
  rw [htodo] at hF
  have hlaw : s.Lawful G p c := by
    cases c with
    | bread κ => exact hrule
    | brelse κ => exact hrule
    | store | logWrite | bwrite | beginOp | endOp => exact trivial
  have hcd := call_ok hc hσ hF htodo hlaw hcall
  have hplain {T : List Instr} (hT : s'.todo p = T) (hall : ∀ x ∈ T, x.Plain) : s'.Minds G p :=
    .inl (by rw [hT]; exact hall)
  cases c with
  | bread κ =>
    have hsame : s'.ctl = s.ctl := hcd.ctl
    refine .inl (hcd.stepped_same h htr hop rfl rfl (hplain hcd.todo ?_) (by rw [hsame]) ?_)
    · simp [callCode, bread, Instr.Plain]
    · rw [hsame]
      exact fun _ _ hact _ => hact
  | brelse κ =>
    have hsame : s'.ctl = s.ctl := hcd.ctl
    refine .inl (hcd.stepped_same h htr hop rfl rfl (hplain hcd.todo ?_) (by rw [hsame]) ?_)
    · simp [callCode, brelse, Instr.Plain]
    · rw [hsame]
      exact fun _ _ hact _ => hact
  | store κ v =>
    have hhold : s.Holding p κ := by
      rw [call] at hcall
      split at hcall
      · assumption
      · cases hcall
    obtain ⟨i, hi, -⟩ := hhold
    exact .inl (hcd.stepped_store h htr hop (settled hσ hF hi).1 hrule)
  | bwrite κ =>
    obtain ⟨c', hc', -⟩ := Outcome.bind_eq_ok.mp hcall
    exact .inl (hcd.stepped_bwrite h htr hop (bwrite_holds hσ hF hc').1 hrule)
  | logWrite κ =>
    have hhold : s.Holding p κ := by
      rw [call] at hcall
      split at hcall
      · assumption
      · cases hcall
    obtain ⟨hpc, hcom⟩ := check_logging hcd.ctl
    have hbound := bound_of_holding hc hhold
    obtain ⟨i, hi, -⟩ := hhold
    refine .inl (hcd.stepped_same h htr hop rfl rfl ?_ hcom (fun _ _ _ _ => by rw [hpc]; rfl))
    exact .inr ⟨κ, hcd.todo, hrule, (settled hσ hF hi).1, hbound, hpc⟩
  | beginOp =>
    obtain ⟨hpc, hcom⟩ := begin_inactive hcd.ctl
    refine .inl (hcd.stepped_same h htr hop rfl rfl (hplain hcd.todo (by rintro _ ⟨⟩)) hcom ?_)
    intro _ _ hact
    rw [hpc] at hact
    cases hact
  | endOp =>
    obtain ⟨hact, hpc | ⟨hpc, hcom⟩⟩ := endOp_pc hcd.ctl
    · have hnone := h.none_of_active hact
      subst hnone
      have htodo' : s'.todo p = [.commit, .finish] := hcd.todo.trans (if_pos hpc)
      have hserving : Serving G s' (some p) := by
        refine h.move hcd.ctl.move (hcd.booting.trans h.booting) hcd.others (by rintro _ _ ⟨⟩)
          (fun hne => absurd rfl hne) ?_
        show (s'.ctl.proc p).pc.commits = 1
        rw [hpc]
        rfl
      refine .inr ⟨rfl, hcd.cached, hcd.tracks_all htr, hserving, hcd.abs, htodo',
        fun κ => hcd.pinned κ (by rintro ⟨⟩), hrule.2, ?_⟩
      -- Nobody else is in an operation, and `p` has logged all it changed.
      rintro κ hK ⟨q, hactq, hu⟩
      by_cases hq : q = p
      · exact hrule.1 κ hK (hq ▸ hu)
      · cases hserving.none_of_active ((hcd.ctl.move.active_ne hq).trans hactq)
    · refine .inl (hcd.stepped_same h htr hop rfl rfl
        (hplain (hcd.todo.trans (if_neg hpc)) (by rintro _ ⟨⟩))
        hcom ?_)
      exact fun κ hK _ hu => absurd hu (hrule.1 κ hK)

end

end Xv6.Logging
