import Mathlib.Tactic.Basic

namespace Xv6

/-!
# Outcomes of kernel code

A call into C code either returns, stops the machine with a panic, follows a pointer
the model gives no meaning to, or never returns.  `Outcome ε` is that result type as a
monad, with the inversion lemmas that take a sequence of calls apart:

* `Outcome.bind_eq_ok` — a sequence returns iff every call in it does;
* `Outcome.bind_eq_panic` — a sequence panics iff its first call does, or the first
  returns and the rest panics.
-/

/-- What a call of type `α` can do; `ε` names the panics. -/
inductive Outcome (ε α : Type) where
  /-- The call returns. -/
  | ok (a : α)
  /-- The call stops the machine. -/
  | panic (e : ε)
  /-- The call dereferences a null or stray pointer; nothing is known from here on. -/
  | wild
  /-- The call never returns. -/
  | hang

namespace Outcome

variable {ε α β : Type}
variable {x : Outcome ε α} {f : α → Outcome ε β} {e : ε} {a : α}

/-- Sequencing: only a call that returns has a continuation. -/
protected def bind : Outcome ε α → (α → Outcome ε β) → Outcome ε β
  | .ok a, f => f a
  | .panic e, _ => .panic e
  | .wild, _ => .wild
  | .hang, _ => .hang

instance : Monad (Outcome ε) where
  pure := .ok
  bind := Outcome.bind

@[simp] theorem pure_def (a : α) : (pure a : Outcome ε α) = .ok a := rfl

@[simp] theorem ok_bind (a : α) (f : α → Outcome ε β) : (Outcome.ok a >>= f) = f a := rfl

/-- A panic ends the computation. -/
@[simp] theorem panic_bind (e : ε) (f : α → Outcome ε β) : (Outcome.panic e >>= f) = .panic e := rfl

/-- So does a wild access. -/
@[simp] theorem wild_bind (f : α → Outcome ε β) : ((Outcome.wild : Outcome ε α) >>= f) = .wild :=
  rfl

/-- And a hang. -/
@[simp] theorem hang_bind (f : α → Outcome ε β) : ((Outcome.hang : Outcome ε α) >>= f) = .hang :=
  rfl

instance : LawfulMonad (Outcome ε) :=
  LawfulMonad.mk' (Outcome ε) (fun x => by cases x <;> rfl) (fun _ _ => rfl)
    fun x _ _ => by cases x <;> rfl

/-- A sequence returns iff its first call returns and the rest returns from there. -/
theorem bind_eq_ok {b : β} : (x >>= f) = .ok b ↔ ∃ a, x = .ok a ∧ f a = .ok b := by
  cases x <;> simp

/-- A sequence panics iff its first call does, or the rest does after the first returned. -/
theorem bind_eq_panic : (x >>= f) = .panic e ↔ x = .panic e ∨ ∃ a, x = .ok a ∧ f a = .panic e := by
  cases x <;> simp

/-- Whether the outcome is the given panic (a test that evaluates). -/
def isPanic [DecidableEq ε] (e : ε) : Outcome ε α → Bool
  | .panic e' => decide (e' = e)
  | _ => false

/-- The test is exact. -/
theorem isPanic_iff [DecidableEq ε] : x.isPanic e = true ↔ x = .panic e := by
  cases x <;> simp [isPanic]

/-- Whether the call returned with a value that passes the test `t`. -/
def holds (t : α → Bool) : Outcome ε α → Bool
  | .ok a => t a
  | _ => false

/-- The test is exact. -/
theorem holds_iff {t : α → Bool} : x.holds t = true ↔ ∃ a, x = .ok a ∧ t a = true := by
  cases x <;> simp [holds]

/-- The same call, its panics under other names. -/
def mapPanic {ε' : Type} (f : ε → ε') : Outcome ε α → Outcome ε' α
  | .ok a => .ok a
  | .panic e => .panic (f e)
  | .wild => .wild
  | .hang => .hang

theorem mapPanic_eq_ok {ε' : Type} {f : ε → ε'} : x.mapPanic f = .ok a ↔ x = .ok a := by
  cases x <;> simp [mapPanic]

/-- The value of a call that returned. -/
def get? : Outcome ε α → Option α
  | .ok a => some a
  | _ => none

@[simp] theorem get?_ok (a : α) : (Outcome.ok a : Outcome ε α).get? = some a := rfl

/-- A result and nothing else. -/
theorem get?_eq_some : x.get? = some a ↔ x = .ok a := by
  cases x <;> simp [get?]

end Outcome

end Xv6
