import Xv6.Userland.Match

namespace Xv6.Userland

open List

/-!
# `grep` and how its input arrives

`grep` keeps the unfinished line at the end of its buffer for the next read, unless that line starts
at the start of the buffer: then it is thrown away.

* `scan`, `grep` — the code, over the bytes that the calls of `read` return;
* `scan_lines` — the inner loop takes the lines out of the buffer;
* `grep_all_iff` — the output is right for every pattern exactly if each read returns a newline
  (and no line has a zero in it).
-/

variable {pattern buf p : List Byte} {reads ls : List (List Byte)}
variable {rest : List Byte} {as : List (List Byte)}

/-! ### The code -/

/-- The newline character. -/
def nl : Byte := 0x0A#8

/-- `sizeof(buf)` -/
def bufSize : Nat := 1024

/-- The inner loop of `grep`: what is written, and the pointer `p` at the end. -/
def scan (pattern p : List Byte) : List Byte × List Byte :=
  match _hq : strchr p nl with
  | none => ([], p)
  | some q =>
    let r := scan pattern (p.drop (q + 1))
    -- the newline is a zero while `match` looks at the line
    if match_ pattern (p.take q ++ 0#8 :: p.drop (q + 1)) then (p.take (q + 1) ++ r.1, r.2) else r
termination_by p.length
decreasing_by
  obtain ⟨before, rest, rfl, rfl, -, -⟩ := strchr_some ‹_›
  simp only [List.length_drop, List.length_append, List.length_cons]
  omega

/-- What stays in the buffer, where `p` points to after the inner loop: `m = 0` if that is still
    the start. -/
def kept (buf p : List Byte) : List Byte := if p.length = buf.length then [] else p

/-- `grep(pattern, fd)` with `buf` at the start of the buffer, for what the calls of `read`
    return: the bytes it writes. -/
def grep (pattern : List Byte) : (buf : List Byte) → (reads : List (List Byte)) → List Byte
  | _, [] => []
  | buf, r :: reads =>
    let q := scan pattern (buf ++ r)
    q.1 ++ grep pattern (kept (buf ++ r) q.2) reads

/-- What the calls of `read` return fits into what is left of the buffer. -/
def Reads (pattern : List Byte) : (buf : List Byte) → (reads : List (List Byte)) → Prop
  | _, [] => True
  | buf, r :: reads => r ≠ [] ∧ r.length ≤ bufSize - buf.length - 1 ∧
    Reads pattern (kept (buf ++ r) (scan pattern (buf ++ r)).2) reads

/-! ### Lines -/

/-- The lines, with their newlines. -/
def unlines (ls : List (List Byte)) : List Byte := ls.flatMap (· ++ [nl])

/-- The lines that `grep` is to write. -/
def matching (pattern : List Byte) (ls : List (List Byte)) : List Byte :=
  unlines (ls.filter (match_ pattern ·))

@[simp] theorem unlines_nil : unlines [] = [] := rfl

@[simp] theorem unlines_cons (l : List Byte) : unlines (l :: ls) = l ++ nl :: unlines ls := by
  simp [unlines]

theorem matching_cons (l : List Byte) : matching pattern (l :: ls)
      = if match_ pattern l then l ++ nl :: matching pattern ls else matching pattern ls := by
  unfold matching
  by_cases h : match_ pattern l = true
  · rw [filter_cons_of_pos h, if_pos h, unlines_cons]
  · rw [filter_cons_of_neg h, if_neg h]

theorem matching_append (ls ls' : List (List Byte)) :
    matching pattern (ls ++ ls') = matching pattern ls ++ matching pattern ls' := by
  simp [matching, unlines]

/-- The bytes up to the first newline are the same. -/
theorem line_inj {l l' t t' : List Byte} (hl : nl ∉ l) (hl' : nl ∉ l')
    (h : l ++ nl :: t = l' ++ nl :: t') : l = l' ∧ t = t' := by
  induction l generalizing l' with
  | nil =>
    cases l' with
    | nil => exact ⟨rfl, (cons.inj h).2⟩
    | cons b l' => simp_all
  | cons b l ih =>
    cases l' with
    | nil => grind
    | cons b' l' => grind

/-- The lines that a part of the stream starts with are its first lines. -/
theorem unlines_start (has : ∀ l ∈ as, nl ∉ l) (hls : ∀ l ∈ ls, nl ∉ l)
    (h : unlines as ++ rest = unlines ls) :
    ∃ ls', ls = as ++ ls' ∧ rest = unlines ls' := by
  induction as generalizing ls with
  | nil => exact ⟨ls, rfl, h⟩
  | cons a as ih =>
    cases ls with
    | nil => simp at h
    | cons l ls =>
      rw [unlines_cons, unlines_cons, append_assoc, cons_append] at h
      obtain ⟨rfl, htail⟩ :=
        line_inj (has a (mem_cons_self ..)) (hls l (mem_cons_self ..)) h
      obtain ⟨ls', rfl, rfl⟩ := ih (fun l hl => has l (mem_cons_of_mem _ hl))
        (fun l hl => hls l (mem_cons_of_mem _ hl)) htail
      exact ⟨ls', rfl, rfl⟩

/-! ### The inner loop -/

/-- Without a newline before the end of the string there is nothing to do. -/
theorem scan_none (h : nl ∉ cstr p) : scan pattern p = ([], p) := by
  have hnone := strchr_none.mpr h
  rw [scan]
  split
  · rfl
  · rename_i q hq
    rw [hnone] at hq
    cases hq

/-- One line is taken. -/
theorem scan_line {l : List Byte} (hl : nl ∉ l) (h0 : 0#8 ∉ l) : scan pattern (l ++ nl :: rest)
      = if match_ pattern l then (l ++ nl :: (scan pattern rest).1, (scan pattern rest).2)
        else scan pattern rest := by
  have hmatch : match_ pattern (l ++ 0#8 :: rest) = match_ pattern l := by
    rw [Bool.eq_iff_iff, match_iff, match_iff, cstr_append_zero h0, cstr_of_notMem h0]
  rw [scan]
  split
  · rename_i hnone
    refine absurd (strchr_none.mp hnone) (not_not.mpr ?_)
    rw [cstr_append h0, cstr_cons (by decide)]
    exact mem_append_right _ (mem_cons_self ..)
  · rename_i q hq
    obtain ⟨before, rest', heq, rfl, hbefore, -⟩ := strchr_some hq
    obtain ⟨rfl, rfl⟩ := line_inj hl hbefore heq
    have htake : (l ++ nl :: rest).take l.length = l := take_left
    have hdrop : (l ++ nl :: rest).drop (l.length + 1) = rest := by
      rw [← drop_drop, drop_left]
      rfl
    have htake' : (l ++ nl :: rest).take (l.length + 1) = l ++ [nl] := by
      rw [take_length_add_append]
      rfl
    simp only [htake, hdrop, htake', hmatch]
    simp

/-- The inner loop takes the lines out of the buffer, up to its end or a zero. -/
theorem scan_lines (p : List Byte) : ∃ as rest, p = unlines as ++ rest ∧
    (∀ l ∈ as, nl ∉ l ∧ 0#8 ∉ l) ∧ nl ∉ cstr rest ∧
    ∀ pattern, scan pattern p = (matching pattern as, rest) := by
  induction hn : p.length using Nat.strong_induction_on generalizing p with
  | _ n ih =>
    by_cases hnone : nl ∉ cstr p
    · exact ⟨[], p, rfl, fun l hl => absurd hl not_mem_nil, hnone, fun _ => scan_none hnone⟩
    obtain ⟨q, hq⟩ := Option.ne_none_iff_exists'.mp (fun h => hnone (strchr_none.mp h))
    obtain ⟨l, rest, rfl, -, hl, h0⟩ := strchr_some hq
    obtain ⟨as, rest', rfl, has, hrest', hscan⟩ := ih rest.length (by simp [← hn]; omega) rest rfl
    refine ⟨l :: as, rest', by simp, ?_, hrest', fun pattern => ?_⟩
    · simp_all
    · rw [scan_line hl h0, hscan, matching_cons]
      split <;> rfl

/-! ### The reads -/

/-- Where lines were found, what is behind them is kept. -/
theorem kept_rest (has : as ≠ []) (h : buf = unlines as ++ rest) : kept buf rest = rest := by
  have hne : ¬ rest.length = buf.length := by
    obtain ⟨a, as', rfl⟩ := exists_cons_of_ne_nil has
    rw [h, unlines_cons]
    simp only [length_append, length_cons]
    omega
  rw [kept, if_neg hne]

/-- If each read returns a newline, and there are no zeros, nothing is lost. -/
theorem grep_whole (hls : ∀ l ∈ ls, nl ∉ l) (hbuf : nl ∉ buf) (h0 : 0#8 ∉ buf ++ reads.flatten)
    (hreads : ∀ r ∈ reads, nl ∈ r) (h : buf ++ reads.flatten = unlines ls) :
    grep pattern buf reads = matching pattern ls := by
  induction reads generalizing buf ls with
  | nil =>
    -- a last line would have its newline in the buffer
    cases ls with
    | nil => rfl
    | cons l ls => simp_all
  | cons r reads ih =>
    obtain ⟨as, rest, heq, has, hrest, hscan⟩ := scan_lines (buf ++ r)
    rw [flatten_cons, ← append_assoc, heq, append_assoc] at h h0
    have h0' : 0#8 ∉ rest ++ reads.flatten := fun hm => h0 (mem_append_right _ hm)
    have hrest' : nl ∉ rest := by
      rw [cstr_of_notMem (fun hm => h0' (mem_append_left _ hm))] at hrest
      exact hrest
    have hne : as ≠ [] := by
      rintro rfl
      apply hrest'
      rw [show rest = buf ++ r from heq.symm]
      exact mem_append_right _ (hreads r (mem_cons_self ..))
    obtain ⟨ls', rfl, h'⟩ := unlines_start (fun l hl => (has l hl).1) hls h
    rw [grep, hscan, matching_append]
    rw [kept_rest hne heq, ih (fun l hl => hls l (mem_append_right _ hl)) hrest' h0'
      (fun r hr => hreads r (mem_cons_of_mem _ hr)) h']

/-- The empty pattern matches every line. -/
theorem matching_empty (ls : List (List Byte)) : matching [] ls = unlines ls := by
  have hall : ∀ l : List Byte, match_ [] l = true := by
    intro l
    have hhere : matchhere [] l = true := by
      rw [matchhere]
      rfl
    have hloop : matchLoop [] l = true := by
      cases l with
      | nil => exact hhere
      | cons b l => rw [matchLoop, if_pos hhere]
    exact hloop
  unfold matching
  rw [filter_eq_self.mpr fun l _ => hall l]

/-- `grep` writes no more than it reads. -/
theorem grep_length_le (buf : List Byte) (reads : List (List Byte)) :
    (grep [] buf reads).length ≤ (buf ++ reads.flatten).length := by
  induction reads generalizing buf with
  | nil => exact Nat.zero_le _
  | cons r reads ih =>
    obtain ⟨as, rest, heq, -, -, hscan⟩ := scan_lines (buf ++ r)
    have hle := ih (kept (buf ++ r) rest)
    have hkept : (kept (buf ++ r) rest).length ≤ rest.length := by
      unfold kept
      split
      · exact Nat.zero_le _
      · exact Nat.le_refl _
    have hlen := congrArg length heq
    rw [grep, hscan, matching_empty]
    simp only [length_append, flatten_cons] at hle hlen ⊢
    omega

/-- If `grep` writes all that it reads then each read has returned a newline, and there was no
    zero. -/
theorem newline_of_length (hbuf : nl ∉ cstr buf) (hreads : ∀ r ∈ reads, r ≠ [])
    (h : (buf ++ reads.flatten).length ≤ (grep [] buf reads).length) :
    0#8 ∉ buf ++ reads.flatten ∧ ∀ r ∈ reads, nl ∈ r := by
  induction reads generalizing buf with
  | nil =>
    have hnil : buf = [] := by
      rw [flatten_nil, append_nil] at h
      exact length_eq_zero_iff.mp (Nat.le_zero.mp h)
    rw [hnil]
    exact ⟨not_mem_nil, fun r hr => absurd hr not_mem_nil⟩
  | cons r reads ih =>
    obtain ⟨as, rest, heq, has, hrest, hscan⟩ := scan_lines (buf ++ r)
    have hlen := congrArg length heq
    rw [grep, hscan, matching_empty] at h
    by_cases hne : as = []
    · -- the buffer is thrown away, with what this read has returned
      subst hne
      have hkept : kept (buf ++ r) rest = [] := by
        rw [kept, if_pos]
        rw [show rest = buf ++ r from heq.symm]
      have hle := grep_length_le [] reads
      have hpos := length_pos_of_ne_nil (hreads r (mem_cons_self ..))
      simp only [hkept, unlines_nil, length_append, flatten_cons, length_nil] at h hle
      omega
    · simp only [kept_rest hne heq] at h
      obtain ⟨h0, hnl⟩ := ih hrest (fun r hr => hreads r (mem_cons_of_mem _ hr)) (by
        simp only [length_append, flatten_cons] at h hlen ⊢
        omega)
      -- the lines that were found have no zeros either, so the buffer had none
      have h0lines : 0#8 ∉ unlines as := by
        intro hm
        obtain ⟨l, hl, hm⟩ := mem_flatMap.mp hm
        rcases mem_append.mp hm with hm | hm
        · exact (has l hl).2 hm
        · exact absurd (mem_singleton.mp hm) (by decide)
      have h0all : 0#8 ∉ buf ++ r := by simp_all
      have hnlbuf : nl ∉ buf := by
        rw [cstr_of_notMem (fun hm => h0all (mem_append_left _ hm))] at hbuf
        exact hbuf
      have hin : nl ∈ buf ++ r := by
        obtain ⟨a, as', rfl⟩ := exists_cons_of_ne_nil hne
        rw [heq, unlines_cons]
        simp
      refine ⟨?_, fun r' hr' => ?_⟩
      · grind
      · grind

theorem Reads.ne_nil (h : Reads pattern buf reads) : ∀ r ∈ reads, r ≠ [] := by
  induction reads generalizing buf with
  | nil => exact fun r hr => absurd hr not_mem_nil
  | cons r reads ih =>
    obtain ⟨hr, -, hrest⟩ := h
    intro r' hr'
    rcases mem_cons.mp hr' with rfl | hr'
    · exact hr
    · exact ih hrest r' hr'

/-- `grep` writes the lines that match, whatever the pattern, exactly if each call of `read` has
    returned a newline and no line has a zero in it. -/
theorem grep_all_iff (reads ls : List (List Byte)) (hls : ∀ l ∈ ls, nl ∉ l)
    (hstream : reads.flatten = unlines ls) (hreads : ∀ pattern, Reads pattern [] reads) :
    (∀ pattern, grep pattern [] reads = matching pattern ls) ↔
      (∀ r ∈ reads, nl ∈ r) ∧ ∀ l ∈ ls, 0#8 ∉ l := by
  have hzero : 0#8 ∉ unlines ls ↔ ∀ l ∈ ls, 0#8 ∉ l := by
    have hnl : (0#8 : Byte) ≠ nl := by decide
    simp [unlines, hnl]
  rw [← hzero, ← hstream]
  constructor
  · intro h
    have hlen := congrArg List.length (h [])
    rw [matching_empty, ← hstream] at hlen
    have hle : ([] ++ reads.flatten).length ≤ (grep [] [] reads).length := hlen.ge
    exact (newline_of_length List.not_mem_nil (hreads []).ne_nil hle).symm
  · rintro ⟨hnl, h0⟩ pattern
    exact grep_whole hls List.not_mem_nil h0 hnl hstream

/-- Two lines that arrive in two reads, the second one in parts. -/
theorem grep_all_two_reads :
    [[0x61#8, nl, 0x62#8], [0x63#8, nl]].flatten = unlines [[0x61#8], [0x62#8, 0x63#8]] ∧
    ∀ pattern, grep pattern [] [[0x61#8, nl, 0x62#8], [0x63#8, nl]]
      = matching pattern [[0x61#8], [0x62#8, 0x63#8]] := by
  refine ⟨rfl, (grep_all_iff _ _ (by decide) (by decide) fun pattern => ?_).mpr (by decide)⟩
  refine ⟨by decide, by decide, by decide, ?_, trivial⟩
  -- what the first read leaves in the buffer is short
  obtain ⟨as, rest, heq, -, -, hscan⟩ := scan_lines ([] ++ [0x61#8, nl, 0x62#8])
  have hlen := congrArg List.length heq
  have hkept : (kept ([] ++ [0x61#8, nl, 0x62#8]) rest).length ≤ 3 := by
    unfold kept
    simp only [List.nil_append, List.length_append, List.length_cons, List.length_nil] at hlen
    split
    · decide
    · omega
  rw [hscan, show bufSize = 1024 from rfl, show [0x63#8, nl].length = 2 from rfl]
  simp only
  omega

/-- The start of a line that arrives in two reads is thrown away, and with it what the pattern
    would match. -/
theorem grep_loses_start :
    (∀ pattern, Reads pattern [] [[0x61#8], [0x62#8, nl]]) ∧
    [[0x61#8], [0x62#8, nl]].flatten = unlines [[0x61#8, 0x62#8]] ∧
    grep [0x61#8] [] [[0x61#8], [0x62#8, nl]] = [] ∧
    matching [0x61#8] [[0x61#8, 0x62#8]] = [0x61#8, 0x62#8, nl] := by
  have hfirst : ∀ pattern, scan pattern ([] ++ [0x61#8]) = ([], [0x61#8]) :=
    fun pattern => scan_none (by decide)
  have hnone : match_ [0x61#8] [0x62#8] = false := by
    simp [match_, matchLoop, matchhere, deref, ch]
  have hsecond : scan [0x61#8] ([] ++ [0x62#8, nl]) = ([], []) := by
    have hline : scan [0x61#8] ([0x62#8] ++ nl :: []) = _ := scan_line (by decide) (by decide)
    have hend : scan [0x61#8] [] = ([], []) := scan_none (by decide)
    rw [hnone, hend] at hline
    exact hline
  have hmatch : match_ [0x61#8] [0x61#8, 0x62#8] = true := by
    simp [match_, matchLoop, matchhere, deref, ch]
  refine ⟨fun pattern => ⟨by decide, by decide, ?_⟩, by decide, ?_, ?_⟩
  · rw [hfirst]
    exact ⟨by decide, by decide, trivial⟩
  · rw [grep, hfirst, grep, show kept ([] ++ [0x61#8]) [0x61#8] = [] from rfl, hsecond]
    rfl
  · rw [matching_cons, if_pos hmatch]
    rfl

end Xv6.Userland
