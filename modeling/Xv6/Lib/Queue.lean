import Mathlib.Data.List.Nodup
import Mathlib.Logic.Function.Basic

namespace Xv6.Queue

open Function List

/-!
# Queues linked through their elements

`next b` is the element after `b`, and `h` points to the first.  A place to store a pointer is
`none` for the head, or `some c` for the pointer in element `c`.

* `Linked next h q` — the queue holds the elements `q`;
* `Linked.load` — what one finds at the place after some of them;
* `Linked.concat` — a new element is linked in at the end.
-/

variable {B : Type}

/-- From `h`, following `next`, one passes the elements of the list and comes to the end. -/
def Linked (next : B → Option B) : Option B → List B → Prop
  | h, [] => h = none
  | h, b :: q => h = some b ∧ Linked next (next b) q

/-- The pointer at a place. -/
def load (next : B → Option B) (h : Option B) : Option B → Option B
  | none => h
  | some c => next c

variable {next next' : B → Option B} {h : Option B} {q l r : List B} {b : B}

theorem Linked.head (hq : Linked next h q) : h = q.head? := by
  cases q with
  | nil => exact hq
  | cons b q => exact hq.1

/-- Only the elements of the queue matter. -/
theorem Linked.congr (hq : Linked next h q) (hn : ∀ b ∈ q, next' b = next b) :
    Linked next' h q := by
  induction q generalizing h with
  | nil => exact hq
  | cons b q ih =>
    refine ⟨hq.1, ?_⟩
    rw [hn b (mem_cons_self ..)]
    exact ih hq.2 fun c hc => hn c (mem_cons_of_mem _ hc)

/-- After the elements `l` one finds the first of the others. -/
theorem Linked.load (hq : Linked next h (l ++ r)) : load next h l.getLast? = r.head? := by
  induction l generalizing h with
  | nil => exact hq.head
  | cons b l ih =>
    have hl := ih hq.2
    cases l with
    | nil => exact hl
    | cons c l => rwa [getLast?_cons_cons]

/-- A new element is stored at the end of a queue that is not empty. -/
theorem Linked.concat [DecidableEq B] {c : B} (hq : Linked next h l) (hl : l.Nodup)
    (hc : l.getLast? = some c) (hb : b ∉ l) (hnext : next b = none) :
    Linked (update next c (some b)) h (l ++ [b]) := by
  induction l generalizing h with
  | nil => cases hc
  | cons a l ih =>
    refine ⟨hq.1, ?_⟩
    rw [nodup_cons] at hl
    cases l with
    | nil =>
      -- the only element is the last one
      obtain rfl : a = c := Option.some.inj hc
      have hba : b ≠ a := fun e => hb (e ▸ mem_cons_self ..)
      refine ⟨update_self .., ?_⟩
      rw [update_of_ne hba, hnext]
      rfl
    | cons d l =>
      have hac : a ≠ c := fun e => hl.1 (e ▸ mem_of_getLast? hc)
      rw [update_of_ne hac]
      exact ih hq.2 hl.2 hc fun hmem => hb (mem_cons_of_mem _ hmem)

end Xv6.Queue
