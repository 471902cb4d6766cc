import Xv6.Lib.Outcome

namespace Xv6

/-!
# Programs on a state

A program reads and changes a state, and ends as an `Outcome` says.

* `Prog.bind_of_ok` — a sequence whose first program is known to return;
* `Ends m s Q H` — from `s`, program `m` returns so that `Q` holds, or panics; it runs for ever only
  if `H`;
* `Ends.seq`, `Ends.mono` — the rules by which programs are taken apart.
-/

/-- A program with state `σ`, panics `ε` and result `α`. -/
abbrev Prog (σ ε α : Type) := StateT σ (Outcome ε) α

variable {σ ε α β : Type} {s s' : σ} {Q R : α → σ → Prop} {H : Prop}
variable {m : Prog σ ε α} {f : α → Prog σ ε β} {a : α}

/-- The machine stops. -/
def Prog.fail (e : ε) : Prog σ ε α := fun _ => .panic e

/-- The program waits for ever. -/
def Prog.stuck : Prog σ ε α := fun _ => .hang

/-- The program has lost track of what it holds. -/
def Prog.lost : Prog σ ε α := fun _ => .wild

/-- From where the first program returns, the rest runs. -/
theorem Prog.bind_of_ok (h : m s = .ok (a, s')) : (m >>= f) s = f a s' := by
  show (m s >>= fun x => f x.1 x.2) = _
  rw [h]
  rfl

/-- The program returns with `Q`, or panics; it runs for ever only if `H`. -/
def Ends (m : Prog σ ε α) (s : σ) (Q : α → σ → Prop) (H : Prop) : Prop :=
  match m s with
  | .ok (a, s') => Q a s'
  | .panic _ => True
  | .wild => False
  | .hang => H

namespace Ends

theorem fail {e : ε} : Ends (Prog.fail e) s Q H := trivial

theorem stuck (h : H) : Ends (Prog.stuck : Prog σ ε α) s Q H := h

theorem mono {H' : Prop} (h : Ends m s R H') (hQ : ∀ a s', R a s' → Q a s') (hH : H' → H) :
    Ends m s Q H := by grind [Ends]

/-- First `m`, and from where it returns the rest. -/
theorem seq {Q : β → σ → Prop} (h : Ends m s R H) (hf : ∀ a s', R a s' → Ends (f a) s' Q H) :
    Ends (m >>= f) s Q H := by
  unfold Ends at h
  show Ends (StateT.bind m f) s Q H
  unfold Ends StateT.bind
  cases hm : m s with
  | ok x =>
    rw [hm] at h
    exact hf x.1 x.2 h
  | panic e => trivial
  | wild =>
    rw [hm] at h
    exact h
  | hang =>
    rw [hm] at h
    exact h

/-- A program that always ends is followed by the rest. -/
theorem next {Q : β → σ → Prop} (h : Ends m s R False) (hf : ∀ a s', R a s' → Ends (f a) s' Q H) :
    Ends (m >>= f) s Q H :=
  (h.mono (fun _ _ hr => hr) False.elim).seq hf

/-- A program that has no reason to run for ever. -/
theorem sure (h : Ends m s Q H) (hH : ¬H) : Ends m s Q False :=
  h.mono (fun _ _ hq => hq) hH

theorem get {f : σ → Prog σ ε α} (h : Ends (f s) s Q H) : Ends (MonadState.get >>= f) s Q H := h

/-- What is known of a program that has returned. -/
theorem of_ok (h : Ends m s Q H) (hm : m s = .ok (a, s')) : Q a s' := by
  unfold Ends at h
  rw [hm] at h
  exact h

end Ends

end Xv6
