import Xv6.Log.Running

namespace Xv6.Logging

open BlockData Function Run

/-!
# Cache coherence

Cache, log and disk together are one map from blocks to contents, `Sys.last`.

* `Sys.Bare` — operations that read, change, log or write, and release blocks;
* `Sys.Coherently` — those that keep off the log's blocks, log blocks of its device only, and
  leave alone what it is about to write;
* `cache_coherent` — with these, who reads a block finds what was stored last;
* `buffers_counted` — and each block has one buffer, with as many references as it should;
* `stale_read` — with the others, the log may get in the way.
-/

variable {P α : Type}

namespace Sys

/-- Operations that read blocks, change them, log or write them, and release them. -/
def Bare (s : Sys P α) : Act P α → Prop
  | .call _ (.bread κ) => 1 ≤ κ.1
  | .call p (.brelse κ) => s.cache.Holds p κ .valid
  | .call .. | .run _ => True
  | .crash .. => False

/-- Besides, they keep off the log's own blocks, log blocks of the log's device, and while a
    transaction is committed neither change nor write its blocks.  The blocks of a transaction
    that leaves no entry of the header were not written since they were logged. -/
def Coherently (G : Geo) (s : Sys P α) (a : Act P α) : Prop :=
  s.Bare a ∧ match a with
    | .call _ (.bread κ) => G.Home κ
    | .call _ (.logWrite κ) => κ.1 = G.dev
    | .call _ (.store κ _) | .call _ (.bwrite κ) =>
      s.ctl.log.committing = true → ¬ G.InHeader s.ctl.log.block κ
    | .call _ .endOp => s.ctl.log.n = LOGSIZE → ∀ b ∈ s.ctl.log.block, s.cache.Pinned (G.home b)
    | _ => True

theorem Coherently.rules {G : Geo} {s : Sys P α} {a : Act P α} (h : s.Coherently G a) :
    s.Rules G (fun _ => False) True a := by
  obtain ⟨hb, hc⟩ := h
  cases a with
  | run p => trivial
  | crash p junk => exact hb.elim
  | call p c =>
    cases c with
    | bread κ => exact ⟨hb, hc⟩
    | store κ v => exact ⟨hc, False.elim⟩
    | logWrite κ => exact hc
    | bwrite κ => exact ⟨hc, id⟩
    | brelse κ => exact hb
    | beginOp => trivial
    | endOp => exact ⟨fun _ hK => hK.elim, fun hn b hbl _ => hc hn b hbl⟩

end Sys

section

variable [DecidableEq P] [Fintype P] [BlockData α] {G : Geo} {d : Key → α} {s : Sys P α}

/-- The machine starts with an empty log. -/
theorem running_of_clean {K : Key → Prop} {live : Prop} (junk : α) (p : P)
    (hd : readHead (d G.head) = []) : Running G d K live (Sys.boot G junk p d d []) := by
  refine boot_running junk (fun _ _ _ => rfl) ?_ ?_ (fun _ _ _ => rfl) (fun _ => hd) <;> rw [hd]
  · exact header_nil
  · exact nofun

/-- The contents of the blocks, in the cache or on the disk, are those stored last, and who reads
    a block finds these. -/
theorem cache_coherent (junk : α) (p₀ : P) (hd : readHead (d G.head) = [])
    (hr : Reach (Sys.step G) (Sys.Coherently G) (Sys.boot G junk p₀ d d []) s) (κ : Key)
    (hκ : G.Home κ) :
    s.cache.view κ = s.last κ ∧ ∀ p, s.Holding p κ → s.cache.read p κ = .ok (s.last κ) := by
  have hrun : Running G d (fun _ => False) True s :=
    running_of_reach (running_of_clean junk p₀ hd) (hr.mono fun _ _ h => h.rules)
  have hcoh : s.cache.view κ = s.last κ := hrun.phase.steady.1 trivial κ hκ
  refine ⟨hcoh, fun p hh => ?_⟩
  obtain ⟨i, hi, hl, hv⟩ := hh
  have hview := hrun.cached.view_valid (hrun.cached.ptr p κ i hi).1 hv
  rw [Cache.read, withBuf_some hi, ← hview, hcoh]

/-- **Buffers are counted.**  In every state that such a run reaches: a block of a device has at
    most one buffer; the buffer that a process got for a block, which it has locked or waits for, is
    still that block's; `refcnt` is the number of these processes, and who holds the lock is one of
    them. -/
theorem buffers_counted (junk : α) (p₀ : P) (hd : readHead (d G.head) = [])
    (hr : Reach (Sys.step G) (Sys.Coherently G) (Sys.boot G junk p₀ d d []) s) :
    (∀ i j, (s.cache.buf i).key = (s.cache.buf j).key → 1 ≤ (s.cache.buf i).key.1 → i = j)
    ∧ (∀ p κ i, s.cache.ptr p κ = some i → (s.cache.buf i).key = κ)
    ∧ ∀ i, (s.cache.buf i).refcnt
        = (Finset.univ.filter fun p => s.cache.ptr p (s.cache.buf i).key = some i).card
      ∧ ∀ p, (s.cache.buf i).lock = some p → s.cache.ptr p (s.cache.buf i).key = some i := by
  have hrun : Running G d (fun _ => False) True s :=
    running_of_reach (running_of_clean junk p₀ hd) (hr.mono fun _ _ h => h.rules)
  have hc := hrun.cached
  refine ⟨hc.unique, fun p κ i hi => (hc.ptr p κ i hi).1, fun i => ⟨?_, hc.lock i⟩⟩
  rw [hc.count i, Finset.card_filter]
  rfl

end

/-! ### Two processes on the root device -/

instance (G : Geo) (l : List Nat) (κ : Key) : Decidable (G.InHeader l κ) :=
  inferInstanceAs (Decidable (_ ∧ _))

section

variable [DecidableEq P]

instance (c : Cache P α) (p : P) (κ : Key) : Decidable (c.Holds p κ .valid) :=
  match h : c.ptr p κ with
  | some i =>
    decidable_of_iff ((c.buf i).lock = some p ∧ (c.buf i).valid = true ∧ (c.buf i).unsaved = false)
      (by simp [Cache.Holds, h])
  | none => .isFalse (by simp [Cache.Holds, h])

instance (c : Cache P α) (κ : Key) : Decidable (c.Pinned κ) :=
  inferInstanceAs (Decidable (∃ i, (c.buf i).key = κ ∧ (c.buf i).dirty = true))

instance (s : Sys P α) (a : Sys.Act P α) : Decidable (s.Bare a) :=
  match a with
  | .call _ (.bread κ) => inferInstanceAs (Decidable (1 ≤ κ.1))
  | .call p (.brelse κ) => inferInstanceAs (Decidable (s.cache.Holds p κ .valid))
  | .call _ (.store ..) | .call _ (.logWrite _) | .call _ (.bwrite _) | .call _ .beginOp
  | .call _ .endOp | .run _ => .isTrue trivial
  | .crash .. => .isFalse id

instance (G : Geo) (s : Sys P α) (a : Sys.Act P α) : Decidable (s.Coherently G a) :=
  match a with
  | .call p (.bread κ) => inferInstanceAs (Decidable (s.Bare (.call p (.bread κ)) ∧ G.Home κ))
  | .call p (.store κ v) =>
    inferInstanceAs (Decidable (s.Bare (.call p (.store κ v)) ∧
      (s.ctl.log.committing = true → ¬ G.InHeader s.ctl.log.block κ)))
  | .call p (.logWrite κ) =>
    inferInstanceAs (Decidable (s.Bare (.call p (.logWrite κ)) ∧ κ.1 = G.dev))
  | .call p (.bwrite κ) =>
    inferInstanceAs (Decidable (s.Bare (.call p (.bwrite κ)) ∧
      (s.ctl.log.committing = true → ¬ G.InHeader s.ctl.log.block κ)))
  | .call p .endOp =>
    inferInstanceAs (Decidable (s.Bare (.call p .endOp) ∧
      (s.ctl.log.n = LOGSIZE → ∀ b ∈ s.ctl.log.block, s.cache.Pinned (G.home b))))
  | .call p (.brelse κ) => inferInstanceAs (Decidable (s.Bare (.call p (.brelse κ)) ∧ True))
  | .call p .beginOp => inferInstanceAs (Decidable (s.Bare (.call p .beginOp) ∧ True))
  | .run p => inferInstanceAs (Decidable (s.Bare (.run p) ∧ True))
  | .crash p junk => inferInstanceAs (Decidable (s.Bare (.crash p junk) ∧ True))

end

/-- The log as `mkfs` lays it out. -/
def rootLog : Geo := ⟨1, 2, by decide⟩

/-- A block filled with one word. -/
def filled (n : Nat) : Words := fun _ => BitVec.ofNat 32 n

/-- The machine with an empty disk, where process 0 starts. -/
def freshSys : Sys (Fin 2) Words :=
  Sys.boot rootLog (filled 0) 0 (fun _ => filled 0) (fun _ => filled 0) []

/-- What two processes do, one step after another. -/
abbrev Script := List (Sys.Act (Fin 2) Words)

/-- Process `p` does `n` instructions. -/
def runs (n : Nat) (p : Fin 2) : Script := List.replicate n (.run p)

/-- Process `p` reads block `κ`. -/
def reads (p : Fin 2) (κ : Key) : Script := .call p (.bread κ) :: runs 3 p

/-- Process `p` releases block `κ`. -/
def releases (p : Fin 2) (κ : Key) : Script := .call p (.brelse κ) :: runs 2 p

/-- Process `p` stores `v` in block `κ`, through the log. -/
def logs (p : Fin 2) (κ : Key) (v : Words) : Script :=
  reads p κ ++ [.call p (.store κ v), .call p (.logWrite κ)] ++ runs 1 p ++ releases p κ

/-- Process `p` stores `v` in block `κ`, without the log. -/
def writes (p : Fin 2) (κ : Key) (v : Words) : Script :=
  reads p κ ++ [.call p (.store κ v), .call p (.bwrite κ)] ++ releases p κ

/-- The script, as far as it keeps to `cond`, after process 0 has started the machine. -/
def Script.play (cond : Sys (Fin 2) Words → Sys.Act (Fin 2) Words → Prop)
    [∀ s a, Decidable (cond s a)] (as : Script) : Outcome BioPanic (Sys (Fin 2) Words) :=
  (runs 16 0 ++ as).foldlM (fun s a => if cond s a then s.step rootLog a else .hang) freshSys

/-- An operation of process 0 that does `as` and stores 7 in block 40. -/
def operation (as : Script) : Script :=
  [.call 0 .beginOp] ++ as ++ logs 0 (1, 40) (filled 7) ++ [.call 0 .endOp]

/-- What process 0 stores in an operation is what process 1 reads after the commit. -/
theorem cache_coherent_commit : ∃ s, Reach (Sys.step rootLog) (Sys.Coherently rootLog) freshSys s
    ∧ s.Holding 1 (1, 40) ∧ s.last (1, 40) 0 = 7
    ∧ s.cache.read 1 (1, 40) = .ok (s.last (1, 40)) := by
  obtain ⟨s, hs, h⟩ := Outcome.holds_iff.mp (show
    (Script.play (Sys.Coherently rootLog) (operation [] ++ runs 45 0 ++ reads 1 (1, 40))).holds
      (fun s => s.Holding 1 (1, 40) ∧ s.last (1, 40) 0 = 7) = true by decide +kernel)
  obtain ⟨hh, hlast⟩ := of_decide_eq_true h
  have hr : Reach (Sys.step rootLog) (Sys.Coherently rootLog) freshSys s := Reach.of_checked hs
  exact ⟨s, hr, hh, hlast,
    (cache_coherent (filled 0) 0 (by decide +kernel) hr (1, 40) (by decide)).2 1 hh⟩

/-- Process 0 has block 40, and process 1 waits for it. -/
theorem buffers_counted_waiting : ∃ s i,
    Reach (Sys.step rootLog) (Sys.Coherently rootLog) freshSys s ∧ (s.cache.buf i).refcnt = 2
    ∧ (Finset.univ.filter fun p => s.cache.ptr p (s.cache.buf i).key = some i).card = 2 := by
  obtain ⟨s, hs, h⟩ := Outcome.holds_iff.mp (show
    (Script.play (Sys.Coherently rootLog)
      (reads 0 (1, 40) ++ [.call 1 (.bread (1, 40)), .run 1])).holds
      (fun s => ∃ i, (s.cache.buf i).refcnt = 2) = true by decide +kernel)
  obtain ⟨i, hi⟩ := of_decide_eq_true h
  have hr : Reach (Sys.step rootLog) (Sys.Coherently rootLog) freshSys s := Reach.of_checked hs
  have hcount := ((buffers_counted (filled 0) 0 (by decide +kernel) hr).2.2 i).1
  exact ⟨s, i, hr, hi, hcount.symm.trans hi⟩

/-- Process `p` has read block `κ`, and it is not what was stored last. -/
def Sys.Stale (s : Sys P α) (p : P) (κ : Key) : Prop :=
  s.Holding p κ ∧ s.cache.read p κ ≠ .ok (s.last κ)

/-- A script whose last read finds another first word than was stored last. -/
theorem stale_of_play (as : Script) {κ : Key}
    (h : (Script.play Sys.Bare as).holds (fun s => s.Holding 1 κ
      ∧ (s.cache.read 1 κ).holds (fun v => v 0 ≠ s.last κ 0)) = true) :
    ∃ s, Reach (Sys.step rootLog) Sys.Bare freshSys s ∧ s.Stale 1 κ := by
  obtain ⟨s, hs, h⟩ := Outcome.holds_iff.mp h
  obtain ⟨hh, hread⟩ := of_decide_eq_true h
  obtain ⟨v, hv, hne⟩ := Outcome.holds_iff.mp hread
  refine ⟨s, Reach.of_checked hs, hh, fun he => of_decide_eq_true hne ?_⟩
  rw [hv] at he
  cases he
  rfl

/-- What process 1 reads is not what was stored last: block 40, which it wrote while process 0
    committed an older version of it; block 3, which belongs to the log; and block 40 again, after
    process 0 logged block 4 of another device together with it, for block 4 of this device
    belongs to the log. -/
theorem stale_read :
    (∃ s, Reach (Sys.step rootLog) Sys.Bare freshSys s ∧ s.Stale 1 (1, 40))
      ∧ (∃ s, Reach (Sys.step rootLog) Sys.Bare freshSys s ∧ s.Stale 1 (1, 3))
      ∧ ∃ s, Reach (Sys.step rootLog) Sys.Bare freshSys s ∧ s.Stale 1 (1, 40) := by
  refine ⟨?_, ?_, ?_⟩
  · exact stale_of_play (operation [] ++ runs 14 0 ++ writes 1 (1, 40) (filled 8) ++ runs 31 0
      ++ reads 1 (1, 40)) (by decide +kernel)
  · exact stale_of_play (writes 1 (1, 3) (filled 5) ++ operation [] ++ runs 45 0 ++ reads 1 (1, 3))
      (by decide +kernel)
  · exact stale_of_play (operation (logs 0 (2, 4) (filled 9)) ++ runs 71 0 ++ reads 1 (1, 40))
      (by decide +kernel)

end Xv6.Logging
