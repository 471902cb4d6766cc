import Xv6.Lib.Outcome

namespace Xv6

/-!
# Calls that leave a record

`Traced ω ε α` is an `Outcome ε α` with the list of what the call put on record until it ended, also
if it did not return.

* `Traced.record`, `Traced.lift` — something is recorded; a call that records nothing;
* `Traced.bind_out`, `Traced.bind_log`, `Traced.mem_bind_log` — the outcome and the record of a
  sequence.
-/

/-- What a call does, and what it has recorded. -/
structure Traced (ω ε α : Type) where
  out : Outcome ε α
  log : List ω

namespace Traced

variable {ω ε α β : Type}

/-- What is recorded by the rest of a sequence, if there is a rest. -/
def after (x : Outcome ε α) (f : α → Traced ω ε β) : List ω :=
  match x with
  | .ok a => (f a).log
  | _ => []

instance : Monad (Traced ω ε) where
  pure a := ⟨.ok a, []⟩
  bind x f := ⟨x.out >>= fun a => (f a).out, x.log ++ after x.out f⟩

/-- `w` is recorded. -/
def record (w : ω) : Traced ω ε Unit := ⟨.ok (), [w]⟩

/-- `w` is recorded if `c` holds. -/
def recordIf (c : Prop) [Decidable c] (w : ω) : Traced ω ε Unit := ⟨.ok (), if c then [w] else []⟩

/-- Nothing is recorded. -/
def lift (x : Outcome ε α) : Traced ω ε α := ⟨x, []⟩

@[simp] theorem pure_out (a : α) : (pure a : Traced ω ε α).out = .ok a := rfl

@[simp] theorem pure_log (a : α) : (pure a : Traced ω ε α).log = [] := rfl

@[simp] theorem record_out (w : ω) : (record w : Traced ω ε Unit).out = .ok () := rfl

@[simp] theorem record_log (w : ω) : (record w : Traced ω ε Unit).log = [w] := rfl

@[simp] theorem recordIf_out (c : Prop) [Decidable c] (w : ω) :
    (recordIf c w : Traced ω ε Unit).out = .ok () := rfl

/-- On record under `c` only. -/
@[simp] theorem recordIf_log (c : Prop) [Decidable c] (w : ω) :
    (recordIf c w : Traced ω ε Unit).log = if c then [w] else [] := rfl

/-- A step without a record. -/
@[simp] theorem lift_out (x : Outcome ε α) : (lift x : Traced ω ε α).out = x := rfl

@[simp] theorem lift_log (x : Outcome ε α) : (lift x : Traced ω ε α).log = [] := rfl

/-- The log does not matter. -/
@[simp] theorem bind_out (x : Traced ω ε α) (f : α → Traced ω ε β) :
    (x >>= f).out = x.out >>= fun a => (f a).out := rfl

/-- The log of the second comes after. -/
@[simp] theorem bind_log (x : Traced ω ε α) (f : α → Traced ω ε β) :
    (x >>= f).log = x.log ++ after x.out f := rfl

/-- What a sequence has recorded: what its first call has, and, if that returns, what the rest has
    from there. -/
theorem mem_bind_log {w : ω} {x : Traced ω ε α} {f : α → Traced ω ε β} :
    w ∈ (x >>= f).log ↔ w ∈ x.log ∨ ∃ a, x.out = .ok a ∧ w ∈ (f a).log := by
  rw [bind_log, List.mem_append]
  cases h : x.out <;> simp [after]

/-- After a result. -/
@[simp] theorem after_ok (a : α) (f : α → Traced ω ε β) : after (.ok a) f = (f a).log := rfl

/-- After a panic nothing. -/
@[simp] theorem after_panic (e : ε) (f : α → Traced ω ε β) : after (.panic e) f = [] := rfl

end Traced

end Xv6
