import Mathlib.Order.Defs.Unbundled

namespace Xv6.Rely

/-!
# A program among others

A process has a list of instructions to do; `exec m T x` is what `x` makes of the state `m` and
of the rest `T`.  Between two instructions the other processes may change the state as the
relation `R` allows.

* `Stays` — a precondition that the others keep;
* `Safe` — with all these changes the program keeps `I` to its end, where `Q` holds;
* `Safe.rely` — a change by the others keeps it so;
* `Safe.done`, `Safe.next`, `Safe.skip` — rules with preconditions that the others keep.
-/

variable {σ ι : Type} {exec : σ → List ι → ι → σ × List ι} {R : σ → σ → Prop} {I Q : σ → Prop}

/-- Whatever the others do, `I` holds before every instruction and `Q` at the end. -/
inductive Safe (exec : σ → List ι → ι → σ × List ι) (R : σ → σ → Prop) (I Q : σ → Prop) :
    σ → List ι → Prop
  | nil {m : σ} : (∀ m', R m m' → Q m') → Safe exec R I Q m []
  | cons {m : σ} {x : ι} {T : List ι} : (∀ m', R m m' → I m') →
      (∀ m', R m m' → Safe exec R I Q (exec m' T x).1 (exec m' T x).2) → Safe exec R I Q m (x :: T)

/-- The others keep `A`. -/
def Stable (R : σ → σ → Prop) (A : σ → Prop) : Prop := ∀ m m', A m → R m m' → A m'

/-- The others keep `A`, and what is to hold all the time follows from it. -/
structure Stays (R : σ → σ → Prop) (I A : σ → Prop) : Prop where
  stable : Stable R A
  inv : ∀ m, A m → I m

namespace Safe

variable {m m' : σ} {x : ι} {T : List ι} {A B : σ → Prop}

theorem rely [IsTrans σ R] (h : Safe exec R I Q m T) (hR : R m m') : Safe exec R I Q m' T := by
  cases h with
  | nil hQ => exact .nil fun m'' h' => hQ m'' (IsTrans.trans _ _ _ hR h')
  | cons hI hs =>
    exact .cons (fun m'' h' => hI m'' (IsTrans.trans _ _ _ hR h'))
      (fun m'' h' => hs m'' (IsTrans.trans _ _ _ hR h'))

/-- The program is at its end. -/
theorem done (hA : Stays R I A) (hQ : ∀ m, A m → Q m) (hm : A m) : Safe exec R I Q m [] :=
  .nil fun m' hR => hQ m' (hA.stable m m' hm hR)

/-- An instruction that the others do not disturb. -/
theorem next (hA : Stays R I A) (hs : ∀ m, A m → Safe exec R I Q (exec m T x).1 (exec m T x).2)
    (hm : A m) : Safe exec R I Q m (x :: T) :=
  .cons (fun m' hR => hA.inv m' (hA.stable m m' hm hR)) fun m' hR => hs m' (hA.stable m m' hm hR)

/-- Instructions that change nothing. -/
theorem skip {xs : List ι} (hxs : ∀ x ∈ xs, ∀ m T, exec m T x = (m, T)) (hA : Stays R I A)
    (hs : ∀ m, A m → Safe exec R I Q m T) (hm : A m) : Safe exec R I Q m (xs ++ T) := by
  induction xs generalizing m with
  | nil => exact hs m hm
  | cons x xs ih =>
    refine next hA (fun m' hm' => ?_) hm
    rw [hxs x (List.mem_cons_self ..)]
    exact ih (fun y hy => hxs y (List.mem_cons_of_mem _ hy)) hm'

end Safe

end Xv6.Rely
