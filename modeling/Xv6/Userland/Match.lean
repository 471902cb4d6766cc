import Xv6.Userland.Str
import Mathlib.Computability.Language

namespace Xv6.Userland

open List

/-!
# The matcher of `grep`

* `matchhere`, `matchstar`, `match_` — the code, in mutual recursion over the pattern and the text;
* `Pattern` — what a pattern says: its elements, and whether it is bound to the start or the end;
* `match_iff` — `match` finds a pattern exactly in the texts that have a part in its language.
-/

variable {re text : List Byte} {b c : Byte}

/-! ### The code -/

mutual

/-- `matchhere(re, text)` -/
def matchhere (re text : List Byte) : Bool :=
  if deref re = 0#8 then true
  else if deref re.tail = ch '*' then matchstar (deref re) re.tail.tail text
  else if deref re = ch '$' ∧ deref re.tail = 0#8 then deref text = 0#8
  else if deref text ≠ 0#8 ∧ (deref re = ch '.' ∨ deref re = deref text) then
    matchhere re.tail text.tail
  else false
termination_by (re.length, text.length, 0)
decreasing_by
  all_goals
    have := length_pos_of_deref ‹¬ deref re = 0#8›
    apply Prod.Lex.left
    simp only [List.length_tail]
    omega

/-- `matchstar(c, re, text)` -/
def matchstar (c : Byte) (re text : List Byte) : Bool :=
  if matchhere re text then true
  else if deref text ≠ 0#8 ∧ (deref text = c ∨ c = ch '.') then matchstar c re text.tail
  else false
termination_by (re.length, text.length, 1)
decreasing_by
  · exact Prod.Lex.right _ (Prod.Lex.right _ Nat.zero_lt_one)
  · have := length_pos_of_deref (And.left ‹_›)
    apply Prod.Lex.right
    apply Prod.Lex.left
    simp only [List.length_tail]
    omega

end

/-- The loop of `match(re, text)`. -/
def matchLoop (re : List Byte) : List Byte → Bool
  | [] => matchhere re []
  | b :: text =>
    if matchhere re (b :: text) then true
    else if b ≠ 0#8 then matchLoop re text
    else false

/-- `match(re, text)` -/
def match_ (re text : List Byte) : Bool :=
  if deref re = ch '^' then matchhere re.tail text
  else matchLoop re text

/-! ### What a pattern says -/

/-- `c` in a pattern stands for the letter `b`. -/
def StandsFor (c b : Byte) : Prop := c = ch '.' ∨ c = b

/-- An element of a pattern. -/
inductive Element where
  | one (c : Byte)
  | star (c : Byte)

/-- The texts of one letter that `c` stands for. -/
def letter (c : Byte) : Language Byte := { w | ∃ b, w = [b] ∧ StandsFor c b }

/-- The texts that an element stands for. -/
def Element.language : Element → Language Byte
  | .one c => letter c
  | .star c => KStar.kstar (letter c)

/-- A pattern: its elements, whether it starts with `^` and whether it ends with `$`. -/
structure Pattern where
  fromStart : Bool
  elements : List Element
  toEnd : Bool

namespace Pattern

/-- The texts that the elements stand for. -/
def language (p : Pattern) : Language Byte := (p.elements.map Element.language).prod

/-- A part of the text is in the language. -/
def Matches (p : Pattern) (text : List Byte) : Prop :=
  ∃ before part after, text = before ++ part ++ after ∧ part ∈ p.language ∧
    (p.fromStart → before = []) ∧ (p.toEnd → after = [])

end Pattern

/-- The elements of a pattern, read from the left, and whether it ends with `$`. -/
def elements : List Byte → List Element × Bool
  | [] => ([], false)
  | [c] => if c = ch '$' then ([], true) else ([.one c], false)
  | c :: c' :: re =>
    if c' = ch '*' then (.star c :: (elements re).1, (elements re).2)
    else (.one c :: (elements (c' :: re)).1, (elements (c' :: re)).2)

/-- A pattern that is not bound to the start. -/
def unanchored (re : List Byte) : Pattern := ⟨false, (elements re).1, (elements re).2⟩

/-- A pattern as `grep` reads it. -/
def pattern (re : List Byte) : Pattern :=
  if re.head? = some (ch '^') then { unanchored re.tail with fromStart := true }
  else unanchored re

/-! ### Matching at the start of a text -/

/-- The text starts with a part in the language. -/
def Here (re text : List Byte) : Prop :=
  ∃ part after, text = part ++ after ∧ part ∈ (unanchored re).language ∧
    ((unanchored re).toEnd → after = [])

theorem here_nil : Here [] text := by
  refine ⟨[], text, rfl, ?_, fun h => Bool.noConfusion h⟩
  rw [show (unanchored []).language = 1 from rfl]
  exact Language.nil_mem_one

/-- A `$` at the end of the pattern. -/
theorem here_dollar : Here [ch '$'] text ↔ text = [] := by
  have hlang : (unanchored [ch '$']).language = 1 := rfl
  constructor
  · rintro ⟨part, after, rfl, hpart, hend⟩
    rw [hpart, hend rfl]
    rfl
  · rintro rfl
    exact ⟨[], [], rfl, hlang ▸ Language.nil_mem_one, fun _ => rfl⟩

theorem mem_letter {w : List Byte} : w ∈ letter c ↔ ∃ b, w = [b] ∧ StandsFor c b := Iff.rfl

/-- Repetitions of letters that `c` stands for. -/
theorem mem_kstar_letter {w : List Byte} : w ∈ KStar.kstar (letter c) ↔ ∀ b ∈ w, StandsFor c b := by
  rw [Language.mem_kstar]
  constructor
  · rintro ⟨ws, rfl, hws⟩ b hb
    obtain ⟨w, hw, hbw⟩ := mem_flatten.mp hb
    obtain ⟨b', rfl, hstands⟩ := hws w hw
    rw [mem_singleton] at hbw
    rw [hbw]
    exact hstands
  · intro h
    refine ⟨w.map ([·]), by rw [← flatMap_def, flatMap_singleton'], fun v hv => ?_⟩
    obtain ⟨b, hb, rfl⟩ := mem_map.mp hv
    exact ⟨b, rfl, h b hb⟩

/-- An element without `*` in front of the others. -/
theorem elements_one (hstar : re.head? ≠ some (ch '*')) (hdollar : ¬ (c = ch '$' ∧ re = [])) :
    elements (c :: re) = (.one c :: (elements re).1, (elements re).2) := by
  cases re with
  | nil =>
    have hc : c ≠ ch '$' := fun h => hdollar ⟨h, rfl⟩
    simp [elements, hc]
  | cons c' re =>
    have hc' : c' ≠ ch '*' := fun h => hstar (by rw [h]; rfl)
    simp [elements, hc']

/-- A letter and then the rest of the pattern. -/
theorem here_one (hstar : re.head? ≠ some (ch '*')) (hdollar : ¬ (c = ch '$' ∧ re = [])) :
    Here (c :: re) text ↔ ∃ b rest, text = b :: rest ∧ StandsFor c b ∧ Here re rest := by
  have hel := elements_one hstar hdollar
  have hlang : (unanchored (c :: re)).language = letter c * (unanchored re).language := by
    simp only [Pattern.language, unanchored, hel, map_cons, prod_cons]
    rfl
  have hend : (unanchored (c :: re)).toEnd = (unanchored re).toEnd := by
    simp only [unanchored, hel]
  unfold Here
  rw [hlang, hend]
  constructor
  · rintro ⟨part, after, rfl, hpart, hafter⟩
    obtain ⟨w, hw, part', hpart', rfl⟩ := Language.mem_mul.mp hpart
    obtain ⟨b, rfl, hb⟩ := mem_letter.mp hw
    exact ⟨b, part' ++ after, rfl, hb, part', after, rfl, hpart', hafter⟩
  · rintro ⟨b, _, rfl, hb, part, after, rfl, hpart, hafter⟩
    have hone : [b] ∈ letter c := mem_letter.mpr ⟨b, rfl, hb⟩
    exact ⟨b :: part, after, rfl, Language.append_mem_mul hone hpart, hafter⟩

/-- Letters that `c` stands for, as many as there may be, and then the rest of the pattern. -/
theorem here_star : Here (c :: ch '*' :: re) text ↔
      ∃ run rest, text = run ++ rest ∧ (∀ b ∈ run, StandsFor c b) ∧ Here re rest := by
  have hlang : (unanchored (c :: ch '*' :: re)).language
      = KStar.kstar (letter c) * (unanchored re).language := by
    simp only [Pattern.language, unanchored, elements, if_true, map_cons, prod_cons]
    rfl
  have hend : (unanchored (c :: ch '*' :: re)).toEnd = (unanchored re).toEnd := by
    simp only [unanchored, elements, if_true]
  unfold Here
  rw [hlang, hend]
  constructor
  · rintro ⟨part, after, rfl, hpart, hafter⟩
    obtain ⟨run, hrun, part', hpart', rfl⟩ := Language.mem_mul.mp hpart
    exact ⟨run, part' ++ after, append_assoc .., mem_kstar_letter.mp hrun, part', after, rfl,
      hpart', hafter⟩
  · grind [append_assoc, Language.append_mem_mul, mem_kstar_letter.mpr]

/-! ### The functions -/

/-- `matchstar` tries every run of letters, the shortest first. -/
theorem run_cons {P : List Byte → Prop} :
    (∃ run rest, b :: text = run ++ rest ∧ (∀ x ∈ run, StandsFor c x) ∧ P rest) ↔
      P (b :: text) ∨ StandsFor c b ∧
        ∃ run rest, text = run ++ rest ∧ (∀ x ∈ run, StandsFor c x) ∧ P rest := by
  constructor
  · rintro ⟨run, rest, heq, hrun, hP⟩
    cases run with
    | nil => exact .inl (heq ▸ hP)
    | cons x run => grind
  · rintro (hP | ⟨hb, run, rest, rfl, hrun, hP⟩)
    · exact ⟨[], b :: text, rfl, fun x hx => absurd hx not_mem_nil, hP⟩
    · refine ⟨b :: run, rest, rfl, fun x hx => ?_, hP⟩
      rcases mem_cons.mp hx with rfl | hx
      · exact hb
      · exact hrun x hx

/-- The run of no letters, at the end of a text. -/
theorem run_nil {P : List Byte → Prop} :
    (∃ run rest, [] = run ++ rest ∧ (∀ x ∈ run, StandsFor c x) ∧ P rest) ↔ P [] := by simp

/-- `matchstar` is right if `matchhere` is right for the rest of the pattern. -/
theorem matchstar_iff (hhere : ∀ text, matchhere re text = true ↔ Here (cstr re) (cstr text)) :
    matchstar c re text = true ↔
      ∃ run rest, cstr text = run ++ rest ∧ (∀ b ∈ run, StandsFor c b) ∧ Here (cstr re) rest := by
  induction text with
  | nil =>
    rw [matchstar, cstr_nil, run_nil, ← cstr_nil, ← hhere]
    simp [deref]
  | cons b text ih =>
    rw [matchstar]
    by_cases hb : b = 0#8
    · subst hb
      rw [cstr_zero, run_nil, ← cstr_zero (p := text), ← hhere]
      simp
    · rw [cstr_cons hb, run_cons, ← cstr_cons hb, ← hhere, ← ih]
      have hstands : (b ≠ 0#8 ∧ (b = c ∨ c = ch '.')) ↔ StandsFor c b := by
        unfold StandsFor
        rw [or_comm, eq_comm (a := b)]
        exact and_iff_right hb
      rw [deref_cons, tail_cons]
      by_cases hm : matchhere re (b :: text) = true
      · simp [hm]
      · simp_all

/-- The last case of `matchhere`: one letter, then the rest of the pattern. -/
theorem matchhere_letter (hhere : ∀ text, matchhere re text = true ↔ Here (cstr re) (cstr text))
    (hstar : (cstr re).head? ≠ some (ch '*')) (hdollar : ¬ (c = ch '$' ∧ cstr re = [])) :
    (if deref text ≠ 0#8 ∧ (c = ch '.' ∨ c = deref text) then matchhere re text.tail
      else false) = true ↔ Here (c :: cstr re) (cstr text) := by
  rw [here_one hstar hdollar]
  rcases cstr_cases text with ⟨h0, htext⟩ | ⟨b, text, hb, rfl, hd, htext⟩
  · rw [if_neg (fun h => h.1 h0), htext]
    simp
  · rw [hd, htext, tail_cons]
    by_cases hs : StandsFor c b
    · rw [if_pos ⟨hb, hs⟩, hhere]
      constructor
      · exact fun h => ⟨b, _, rfl, hs, h⟩
      · rintro ⟨b', rest, heq, -, h⟩
        rw [(cons.inj heq).2]
        exact h
    · rw [if_neg (fun h => hs h.2)]
      refine iff_of_false Bool.false_ne_true ?_
      rintro ⟨b', rest, heq, hs', -⟩
      rw [← (cons.inj heq).1] at hs'
      exact hs hs'

/-- `matchhere` looks for the pattern at the start of the text. -/
theorem matchhere_iff (re text : List Byte) :
    matchhere re text = true ↔ Here (cstr re) (cstr text) := by
  -- by the length of the pattern, which every call makes shorter
  induction hn : re.length using Nat.strong_induction_on generalizing re text with
  | _ n ih =>
    subst hn
    rw [matchhere]
    rcases cstr_cases re with ⟨h0, hre⟩ | ⟨c, re, hc, rfl, hd, hre⟩
    · rw [if_pos h0, hre]
      exact iff_of_true rfl here_nil
    rw [hd, if_neg hc, hre, tail_cons]
    have hrest : ∀ text, matchhere re text = true ↔ Here (cstr re) (cstr text) :=
      fun text => ih re.length (by simp) re text rfl
    rcases cstr_cases re with ⟨h0', hre'⟩ | ⟨c', re, hc', rfl, hd', hre'⟩
    · -- the last letter of the pattern
      have hnostar : ¬ deref re = ch '*' := by
        rw [h0']
        decide
      rw [if_neg hnostar]
      by_cases hdollar : c = ch '$'
      · rw [if_pos ⟨hdollar, h0'⟩, hdollar, hre', here_dollar, decide_eq_true_iff]
        rcases cstr_cases text with ⟨h1, htext⟩ | ⟨b, text, hb, rfl, hd1, htext⟩
        · exact iff_of_true h1 htext
        · rw [hd1, htext]
          exact iff_of_false hb (cons_ne_nil _ _)
      · rw [if_neg (fun h => hdollar h.1)]
        apply matchhere_letter hrest
        · simp [hre']
        · exact fun h => hdollar h.1
    · -- a letter with another one behind it, which may be a `*`
      have hnodollar : ¬ (c = ch '$' ∧ c' = 0#8) := fun h => hc' h.2
      rw [hd', tail_cons]
      by_cases hstar : c' = ch '*'
      · rw [if_pos hstar, hre', hstar, here_star, matchstar_iff]
        exact fun text => ih re.length (by simp only [length_cons]; omega) re text rfl
      · rw [if_neg hstar, if_neg hnodollar]
        apply matchhere_letter hrest
        · rw [hre']
          exact fun h => hstar (Option.some.inj h)
        · rw [hre']
          exact fun h => cons_ne_nil _ _ h.2

/-! ### The search -/

/-- `match` looks at every end of the text. -/
theorem matchLoop_iff :
    matchLoop re text = true ↔ ∃ rest, rest <:+ cstr text ∧ Here (cstr re) rest := by
  have hnil : (∃ rest, rest <:+ [] ∧ Here (cstr re) rest) ↔ Here (cstr re) [] := by
    simp only [suffix_nil, exists_eq_left]
  induction text with
  | nil => rw [matchLoop, matchhere_iff, cstr_nil, hnil]
  | cons b text ih =>
    rw [matchLoop]
    by_cases hb : b = 0#8
    · subst hb
      rw [cstr_zero, hnil, ← cstr_zero (p := text), ← matchhere_iff]
      simp
    · have hmore : (∃ rest, rest <:+ b :: cstr text ∧ Here (cstr re) rest) ↔
          Here (cstr re) (b :: cstr text) ∨ ∃ rest, rest <:+ cstr text ∧ Here (cstr re) rest := by
        simp only [suffix_cons_iff, or_and_right, exists_or, exists_eq_left]
      rw [if_pos hb, cstr_cons hb, hmore, ← cstr_cons hb, ← matchhere_iff]
      by_cases hm : matchhere re (b :: text) = true
      · simp [hm]
      · simp [hm, ih]

/-- A part somewhere in the text starts some end of it. -/
theorem unanchored_matches :
    (unanchored re).Matches text ↔ ∃ rest, rest <:+ text ∧ Here re rest := by
  constructor
  · rintro ⟨before, part, after, rfl, hpart, -, hend⟩
    exact ⟨part ++ after, ⟨before, (append_assoc ..).symm⟩, part, after, rfl, hpart, hend⟩
  · rintro ⟨_, ⟨before, rfl⟩, part, after, rfl, hpart, hend⟩
    exact ⟨before, part, after, (append_assoc ..).symm, hpart, fun h => Bool.noConfusion h, hend⟩

theorem anchored_matches :
    Pattern.Matches { unanchored re with fromStart := true } text ↔ Here re text := by
  constructor
  · rintro ⟨before, part, after, rfl, hpart, hstart, hend⟩
    rw [hstart rfl]
    exact ⟨part, after, rfl, hpart, hend⟩
  · rintro ⟨part, after, rfl, hpart, hend⟩
    exact ⟨[], part, after, rfl, hpart, fun _ => rfl, hend⟩

/-- `match` returns 1 exactly if a part of the text, a first part for a pattern that starts with
    `^`, is in the language of the pattern. -/
theorem match_iff (re text : List Byte) :
    match_ re text = true ↔ (pattern (cstr re)).Matches (cstr text) := by
  unfold match_ pattern
  rcases cstr_cases re with ⟨h0, hre⟩ | ⟨c, re, hc, rfl, hd, hre⟩
  · have hfirst : ¬ deref re = ch '^' := by
      rw [h0]
      decide
    have hhead : ¬ (cstr re).head? = some (ch '^') := by simp [hre]
    rw [if_neg hfirst, if_neg hhead, matchLoop_iff, unanchored_matches]
  · rw [hd, hre, List.head?_cons]
    by_cases hcaret : c = ch '^'
    · rw [if_pos hcaret, if_pos (congrArg some hcaret), List.tail_cons,
        List.tail_cons, matchhere_iff,
        anchored_matches]
    · have hne : ¬ some c = some (ch '^') := fun h => hcaret (Option.some.inj h)
      rw [if_neg hcaret, if_neg hne, matchLoop_iff, unanchored_matches, hre]

end Xv6.Userland
