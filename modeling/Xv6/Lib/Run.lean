import Xv6.Lib.Outcome
import Mathlib.Logic.Relation

namespace Xv6.Run

open List Relation

/-!
# Runs of a machine whose steps may fail

`step s a` is what action `a` does in state `s`.  `Reach step cond s s'` says that `s'` is
reached from `s` by steps that return, each taken in a state where `cond` allows its
action; `Reach.invariant` is the induction over such a run, and `Reach.of_foldlM` gives the
runs that take the actions of a list.
-/

variable {σ ι ε : Type}
variable {as : List ι}

/-- Reached by steps that return, each allowed by `cond` in the state it is taken in. -/
def Reach (step : σ → ι → Outcome ε σ) (cond : σ → ι → Prop) : σ → σ → Prop :=
  Relation.ReflTransGen (fun s s' => ∃ a, cond s a ∧ step s a = .ok s')

variable {step : σ → ι → Outcome ε σ} {cond : σ → ι → Prop} {s s' s'' : σ}

theorem Reach.refl : Reach step cond s s := ReflTransGen.refl

theorem Reach.tail {a : ι} (h : Reach step cond s s') (hc : cond s' a) (hs : step s' a = .ok s'') :
    Reach step cond s s'' :=
  ReflTransGen.tail h ⟨a, hc, hs⟩

/-- A run that keeps to `cond` keeps to what follows from it. -/
theorem Reach.mono {cond' : σ → ι → Prop} (h : Reach step cond s s')
    (hc : ∀ s a, cond s a → cond' s a) : Reach step cond' s s' := by
  refine ReflTransGen.mono ?_ s s' h
  rintro s s' ⟨a, ha, hs⟩
  exact ⟨a, hc s a ha, hs⟩

/-- The actions of a list, taken one after another from `s`. -/
theorem Reach.of_foldlM (hc : ∀ s, ∀ a ∈ as, cond s a) (h : as.foldlM step s = .ok s') :
    Reach step cond s s' := by
  induction as generalizing s with
  | nil =>
    cases h
    exact .refl
  | cons a as ih =>
    obtain ⟨s1, hs1, h⟩ := Outcome.bind_eq_ok.mp h
    have htail := ih (fun s b hb => hc s b (mem_cons_of_mem _ hb)) h
    exact ReflTransGen.head ⟨a, hc s a (mem_cons_self ..), hs1⟩ htail

/-- The same for conditions that can be tested on the way. -/
theorem Reach.of_checked [∀ s a, Decidable (cond s a)]
    (h : as.foldlM (fun s a => if cond s a then step s a else .hang) s = .ok s') :
    Reach step cond s s' := by
  induction as generalizing s with
  | nil =>
    cases h
    exact .refl
  | cons a as ih =>
    rw [foldlM_cons] at h
    obtain ⟨s1, hs1, h⟩ := Outcome.bind_eq_ok.mp h
    split at hs1
    · exact ReflTransGen.head ⟨a, ‹_›, hs1⟩ (ih h)
    · cases hs1

/-- What holds at the start and is kept by every allowed step holds along the run. -/
theorem Reach.invariant {I : σ → Prop} (h : Reach step cond s s') (h0 : I s)
    (hstep : ∀ s a s', I s → cond s a → step s a = .ok s' → I s') : I s' := by
  induction h with
  | refl => exact h0
  | tail _ hlast ih =>
    obtain ⟨a, hc, hs⟩ := hlast
    exact hstep _ a _ ih hc hs

end Xv6.Run
