import Xv6.Layout
import Xv6.Lib.Outcome

namespace Xv6.Boot

open BitVec List

/-!
# The MP configuration table (`mp.c`)

At boot the kernel looks for the table the BIOS has left and walks its entries to count the
processors.  Memory is a function from addresses to bytes and is not changed while it is
read; pointers are 32-bit words, so a table next to the end of the address space wraps.
The walk is a loop that nothing bounds, so it is run for a number of rounds and hangs when
they are used up.

* `mpinitLoop_unknown` — an entry of unknown type is read again and again;
* `Reached.mem_starts` — a walk that ends has read every entry it reaches;
* `Walked.ends` — a walk that stays in the table over entries of known type ends;
* `mpinit_parses_iff` — the tables the walk handles as it should.
-/

/-- The processors `cpus` has room for. -/
def NCPU : Nat := 8

/-! ### Table entry types of `mp.h` -/

/-- One per processor. -/
def MPPROC : Byte := 0x00

/-- One per bus. -/
def MPBUS : Byte := 0x01

/-- One per I/O APIC. -/
def MPIOAPIC : Byte := 0x02

/-- One per bus interrupt source. -/
def MPIOINTR : Byte := 0x03

/-- One per system interrupt source. -/
def MPLINTR : Byte := 0x04

/-- The panics of `mpinit`. -/
inductive Panic where
  /-- `panic("Expect to run on an SMP")` -/
  | expectSmp
  /-- `panic("Didn't find a suitable machine")` -/
  | unsuitable
  deriving DecidableEq, Repr

/-! ### Finding the table -/

section

variable (m : Word → Byte)

/-- The `n` bytes at `p`. -/
def bytesAt (p : Word) (n : Nat) : List Byte :=
  (List.range n).map fun i => m (p + BitVec.ofNat 32 i)

/-- The `ushort` at `p`. -/
def ushortAt (p : Word) : BitVec 16 := m (p + 1) ++ m p

/-- The `uint` at `p`. -/
def uintAt (p : Word) : Word := ushortAt m (p + 2) ++ ushortAt m p

/-- `sum(addr, len)`, cut to a `uchar`. -/
def sum (addr : Word) (len : Nat) : Byte :=
  BitVec.ofNat 8 ((bytesAt m addr len).map BitVec.toNat).sum

/-- The loop of `mpsearch1`; a `struct mp` takes 16 bytes. -/
def mpsearch1Loop (e : Word) : Nat → Word → Option Word
  | 0, _ => none
  | n + 1, p =>
    if p < e then
      if bytesAt m p 4 = [0x5F, 0x4D, 0x50, 0x5F] ∧ sum m p 16 = 0 then some p
      else mpsearch1Loop e n (p + 16)
    else none

/-- `mpsearch1(a, len)`: an MP structure, signed `_MP_`, in the `len` bytes at `a`. -/
def mpsearch1 (a : Word) (len : Nat) : Option Word :=
  mpsearch1Loop m (P2V a + BitVec.ofNat 32 len) len (P2V a)

/-- `mpsearch()`: in the EBDA or at the end of base memory, then in the BIOS ROM. -/
def mpsearch : Option Word :=
  let bda := P2V 0x400
  let p := (ushortAt m (bda + 0x0E)).setWidth 32 <<< 4
  let mp :=
    if p ≠ 0 then mpsearch1 m p 1024
    else mpsearch1 m ((ushortAt m (bda + 0x13)).setWidth 32 * 1024 - 1024) 1024
  mp <|> mpsearch1 m 0xF0000 0x10000

/-- `conf->length`. -/
def confLength (conf : Word) : Nat := (ushortAt m (conf + 4)).toNat

/-- `mpconfig(&mp)`: the MP structure and the configuration table, signed `PCMP`. -/
def mpconfig : Option (Word × Word) := do
  let mp ← mpsearch m
  if uintAt m (mp + 4) = 0 then none
  else
    let conf := P2V (uintAt m (mp + 4))
    if bytesAt m conf 4 ≠ [0x50, 0x43, 0x4D, 0x50] then none
    else if m (conf + 6) ≠ 1 ∧ m (conf + 6) ≠ 4 then none
    else if sum m conf (confLength m conf) ≠ 0 then none
    else some (mp, conf)

end

/-! ### Walking the table -/

/-- What the walk has found. -/
structure Found where
  /-- The `apicid`s of the first `ncpu` elements of `cpus`. -/
  cpus : List Byte := []
  ioapicid : Byte := 0
  ismp : Bool := true
  /-- Where an entry's type was read, in the order of the reads; no variable of the code. -/
  starts : List Word := []
  deriving DecidableEq, Repr

section

variable (m : Word → Byte)

/-- One round of the loop of `mpinit`, the pointer it goes on with first.  The `break` of
the default case leaves the `switch` only, with `p` as it was. -/
def entry (p : Word) (s : Found) : Word × Found :=
  let s := { s with starts := s.starts ++ [p] }
  if m p = MPPROC then
    (p + 20, if s.cpus.length < NCPU then { s with cpus := s.cpus ++ [m (p + 1)] } else s)
  else if m p = MPIOAPIC then (p + 8, { s with ioapicid := m (p + 1) })
  else if m p = MPBUS ∨ m p = MPIOINTR ∨ m p = MPLINTR then (p + 8, s)
  else (p, { s with ismp := false })

/-- The loop of `mpinit`, for at most `n` rounds. -/
def mpinitLoop (e : Word) : Nat → Word → Found → Outcome Panic Found
  | 0, _, _ => .hang
  | n + 1, p, s =>
    if p < e then mpinitLoop e n (entry m p s).1 (entry m p s).2 else .ok s

/-- `(uchar*)(conf+1)`: the header takes 44 bytes. -/
def confStart (conf : Word) : Word := conf + 44#32

/-- `(uchar*)conf+conf->length`. -/
def confEnd (conf : Word) : Word := conf + BitVec.ofNat 32 (confLength m conf)

/-- What `mpinit` leaves: `lapic`, what the walk found, and the bytes written to ports. -/
structure Booted where
  lapic : Word
  found : Found
  outb : List (Nat × Byte)

/-- `mpinit()`, with at most `n` rounds of its loop; `inb` is what port `0x23` reads. -/
def mpinit (inb : Byte) (n : Nat) : Outcome Panic Booted :=
  match mpconfig m with
  | none => .panic .expectSmp
  | some (mp, conf) => do
    let s ← mpinitLoop m (confEnd m conf) n (confStart conf) {}
    if s.ismp then
      return {
        lapic := uintAt m (conf + 36)
        found := s
        outb := if m (mp + 12) ≠ 0 then [(0x22, 0x70), (0x23, inb ||| 1)] else [] }
    else .panic .unsuitable

/-! ### What the walk is for -/

/-- The bytes an entry takes; nothing is known of other types. -/
def entrySize (t : Byte) : Option Nat :=
  if t = MPPROC then some 20 else if t ≤ MPLINTR then some 8 else none

/-- The walk that is at `p` reads an entry at `q`. -/
inductive Reached (e : Word) : Word → Word → Prop
  | here {p : Word} : p < e → Reached e p p
  | next {p q : Word} {k : Nat} : p < e → entrySize (m p) = some k →
      Reached e (p + BitVec.ofNat 32 k) q → Reached e p q

/-- How far `q` is into the table. -/
def offset (conf q : Word) : Nat := (q - conf).toNat

/-- `q` points behind the header and before the end of the table. -/
def InTable (conf q : Word) : Prop := 44 ≤ offset conf q ∧ offset conf q < confLength m conf

/-- The processors among the entries at `qs`. -/
def processors (qs : List Word) : List Byte :=
  (qs.filter fun q => m q = MPPROC).map fun q => m (q + 1)

/-- What a walk that has come to `p` owes: it has read entries in the order of the table and
recorded the first processors among them. -/
structure Walked (conf p : Word) (s : Found) : Prop where
  inTable : ∀ q ∈ s.starts, InTable m conf q
  order : s.starts.Pairwise fun q q' => offset conf q < offset conf q'
  behind : ∀ q ∈ s.starts, offset conf q < offset conf p
  cpus : s.cpus = (processors m s.starts).take NCPU

/-- The loop ends having walked the table, and `mpinit` panics if it reaches an entry of
unknown type. -/
def Parses (inb : Byte) (conf : Word) : Prop :=
  (∃ n s, mpinitLoop m (confEnd m conf) n (confStart conf) {} = .ok s ∧
    (∀ q ∈ s.starts, InTable m conf q) ∧
    (s.starts.Pairwise fun q q' => offset conf q < offset conf q') ∧
    s.cpus = (processors m s.starts).take NCPU ∧ s.cpus.length ≤ NCPU) ∧
  ((∃ q, Reached m (confEnd m conf) (confStart conf) q ∧ entrySize (m q) = none) →
    ∃ n, mpinit m inb n = .panic .unsuitable)

end

variable {m : Word → Byte} {conf e p q : Word} {s s' : Found} {k n : Nat}

/-! ### One round -/

/-- The types the `switch` has a case for. -/
theorem known_iff : ∀ t : Byte, t ≤ MPLINTR ↔
    t = MPPROC ∨ t = MPIOAPIC ∨ t = MPBUS ∨ t = MPIOINTR ∨ t = MPLINTR := by
  decide

/-- An entry is never empty. -/
theorem entrySize_bounds {t : Byte} (h : entrySize t = some k) : 8 ≤ k ∧ k ≤ 20 := by
  unfold entrySize at h
  grind

/-- Every round reads the type of one entry. -/
theorem entry_starts (p : Word) (s : Found) : (entry m p s).2.starts = s.starts ++ [p] := by
  unfold entry
  grind

/-- An entry of known type is left behind. -/
theorem entry_known (h : entrySize (m p) = some k) : (entry m p s).1 = p + BitVec.ofNat 32 k := by
  unfold entrySize at h
  by_cases hproc : m p = MPPROC
  · rw [if_pos hproc] at h
    cases h
    simp [entry, hproc]
  · rw [if_neg hproc] at h
    split at h
    case isTrue hle =>
      cases h
      have hcases := ((known_iff _).mp hle).resolve_left hproc
      unfold entry
      rw [if_neg hproc]
      split
      · rfl
      · rw [if_pos (hcases.resolve_left ‹_›)]
        rfl
    case isFalse => cases h

/-- An entry of unknown type is not. -/
theorem entry_unknown (h : entrySize (m p) = none) : (entry m p s).1 = p := by
  unfold entrySize at h
  have hcases := known_iff (m p)
  unfold entry
  grind

/-- A processor is recorded while there is room. -/
theorem entry_cpus (hs : s.cpus.length ≤ NCPU) :
    (entry m p s).2.cpus = (s.cpus ++ processors m [p]).take NCPU := by
  by_cases hproc : m p = MPPROC
  · have hp : processors m [p] = [m (p + 1)] := by simp [processors, hproc]
    rw [hp]
    by_cases hroom : s.cpus.length < NCPU
    · rw [take_of_length_le (by simp; omega)]
      simp [entry, hproc, hroom]
    · rw [take_append_of_le_length (by omega), take_of_length_le hs]
      simp [entry, hproc, hroom]
  · have hp : processors m [p] = [] := by simp [processors, hproc]
    rw [hp, append_nil, take_of_length_le hs]
    unfold entry
    grind

/-! ### The walk -/

/-- An entry of unknown type is read again and again. -/
theorem mpinitLoop_unknown (hp : p < e) (h : entrySize (m p) = none) (n : Nat) (s : Found) :
    mpinitLoop m e n p s = .hang := by
  induction n generalizing s with
  | zero => rfl
  | succ n ih =>
    rw [mpinitLoop, if_pos hp, entry_unknown h]
    exact ih _

theorem mpinitLoop_starts (h : mpinitLoop m e n p s = .ok s') (hq : q ∈ s.starts) :
    q ∈ s'.starts := by
  induction n generalizing p s with
  | zero => cases h
  | succ n ih =>
    rw [mpinitLoop] at h
    split at h
    · apply ih h
      rw [entry_starts]
      exact mem_append_left _ hq
    · cases h
      exact hq

/-- Inside the table. -/
theorem Reached.lt (h : Reached m e p q) : q < e := by
  induction h with
  | here hp => exact hp
  | next _ _ _ ih => exact ih

/-- The entry behind one that is reached. -/
theorem Reached.snoc (h : Reached m e p q) (hk : entrySize (m q) = some k)
    (hlt : q + BitVec.ofNat 32 k < e) : Reached m e p (q + BitVec.ofNat 32 k) := by
  induction h with
  | here hp => exact .next hp hk (.here hlt)
  | next hp hk' _ ih => exact .next hp hk' (ih hk hlt)

/-- A walk that ends has read every entry it reaches, and knew its type. -/
theorem Reached.mem_starts (hq : Reached m e p q) (h : mpinitLoop m e n p s = .ok s') :
    q ∈ s'.starts ∧ ∃ k, entrySize (m q) = some k := by
  induction hq generalizing n s with
  | @here p hp =>
    cases hk : entrySize (m p) with
    | none =>
      rw [mpinitLoop_unknown hp hk] at h
      cases h
    | some k =>
      cases n with
      | zero => cases h
      | succ n =>
        rw [mpinitLoop, if_pos hp] at h
        refine ⟨mpinitLoop_starts h ?_, k, rfl⟩
        rw [entry_starts]
        exact mem_append_right _ (mem_singleton_self p)
  | @next p q k hp hk _ ih =>
    cases n with
    | zero => cases h
    | succ n =>
      rw [mpinitLoop, if_pos hp, entry_known hk] at h
      exact ih h

/-! ### Offsets -/

theorem confLength_lt (m : Word → Byte) (conf : Word) : confLength m conf < 65536 :=
  (ushortAt m (conf + 4)).isLt

/-- Within a table no offset wraps. -/
theorem offset_add (hp : InTable m conf p) (hk : k ≤ 20) :
    offset conf (p + BitVec.ofNat 32 k) = offset conf p + k := by
  have hlen := confLength_lt m conf
  have hlt := hp.2
  unfold offset at hlt ⊢
  rw [show p + BitVec.ofNat 32 k - conf = p - conf + BitVec.ofNat 32 k by grind,
    toNat_add, toNat_ofNat]
  omega

/-- As many bytes are left before the end of the table as the pointers say. -/
theorem distance (hp : InTable m conf p) (hlt : p < confEnd m conf) :
    (confEnd m conf).toNat + offset conf p = p.toNat + confLength m conf := by
  have hlen := confLength_lt m conf
  have hin := hp.2
  rw [lt_def] at hlt
  simp only [confEnd, offset, toNat_add, toNat_sub, toNat_ofNat] at *
  omega

/-- One round keeps what the walk owes. -/
theorem Walked.entry (h : Walked m conf p s) (hp : InTable m conf p)
    (hk : entrySize (m p) = some k) :
    Walked m conf (p + BitVec.ofNat 32 k) (entry m p s).2 := by
  have hsize := entrySize_bounds hk
  have hnext := offset_add hp hsize.2
  constructor
  case inTable =>
    intro q hq
    rw [entry_starts, mem_append, mem_singleton] at hq
    rcases hq with hq | rfl
    · exact h.inTable q hq
    · exact hp
  case order =>
    rw [entry_starts, pairwise_append]
    refine ⟨h.order, pairwise_singleton _ _, ?_⟩
    intro q hq q' hq'
    rw [mem_singleton.mp hq']
    exact h.behind q hq
  case behind =>
    intro q hq
    rw [entry_starts, mem_append, mem_singleton] at hq
    rw [hnext]
    rcases hq with hq | rfl
    · have := h.behind q hq
      omega
    · omega
  case cpus =>
    have hroom : s.cpus.length ≤ NCPU := by
      rw [h.cpus]
      exact length_take_le _ _
    rw [entry_cpus hroom, entry_starts, h.cpus]
    simp only [processors, filter_append, map_append, take_append, take_take, length_take]
    congr 2
    omega

/-- A walk that stays in the table over entries of known type ends. -/
theorem Walked.ends (h : Walked m conf p s)
    (hall : ∀ q, Reached m e p q → InTable m conf q ∧ ∃ k, entrySize (m q) = some k) :
    ∃ n p' s', mpinitLoop m e n p s = .ok s' ∧ Walked m conf p' s' := by
  -- the bytes of the table still to be walked
  induction hd : confLength m conf - offset conf p using Nat.strong_induction_on
    generalizing p s with
  | _ d ih =>
    by_cases hp : p < e
    · obtain ⟨hin, k, hk⟩ := hall p (.here hp)
      have hsize := entrySize_bounds hk
      have hnext := offset_add hin hsize.2
      have hlt := hin.2
      obtain ⟨n, p', s', hloop, hw⟩ := ih _ (by omega) (h.entry hin hk)
        (fun q hq => hall q (.next hp hk hq)) rfl
      refine ⟨n + 1, p', s', ?_, hw⟩
      rw [mpinitLoop, if_pos hp, entry_known hk]
      exact hloop
    · exact ⟨1, p, s, by rw [mpinitLoop, if_neg hp], h⟩

/-- Where no entry runs over the end of the address space, the walk stays in the table. -/
theorem Reached.inTable (hq : Reached m (confEnd m conf) p q)
    (hp : p < confEnd m conf → InTable m conf p)
    (hall : ∀ q, Reached m (confEnd m conf) p q →
      ∃ k, entrySize (m q) = some k ∧ q.toNat + k < 2 ^ 32) : InTable m conf q := by
  induction hq with
  | here hlt => exact hp hlt
  | @next p q k hlt hk _ ih =>
    apply ih
    case hall => exact fun q hq => hall q (.next hlt hk hq)
    intro hlt'
    have hin := hp hlt
    obtain ⟨k', hk', hfits⟩ := hall p (.here hlt)
    obtain rfl : k = k' := Option.some.inj (hk.symm.trans hk')
    have hnext := offset_add hin (entrySize_bounds hk).2
    have hdist := distance hin hlt
    have hstart := hin.1
    rw [lt_def, toNat_add, toNat_ofNat] at hlt'
    refine ⟨by omega, ?_⟩
    rw [hnext]
    omega

/-- The loop of `mpinit` handles a table as it should exactly if no entry it reaches is of
unknown type, and neither the header of a short table nor an entry runs over the end of the
address space. -/
theorem mpinit_parses_iff (m : Word → Byte) (inb : Byte) (mp conf : Word)
    (_hconf : mpconfig m = some (mp, conf)) :
    Parses m inb conf ↔
      (conf.toNat + 44 < 2 ^ 32 ∨ 2 ^ 32 ≤ conf.toNat + confLength m conf) ∧
      ∀ q, Reached m (confEnd m conf) (confStart conf) q →
        ∃ k, entrySize (m q) = some k ∧ q.toNat + k < 2 ^ 32 := by
  constructor
  · rintro ⟨⟨n, s, hloop, hin, -⟩, -⟩
    refine ⟨?_, ?_⟩
    · by_contra hover
      have hlt : confStart conf < confEnd m conf := by
        rw [BitVec.lt_def]
        simp only [confStart, confEnd, BitVec.toNat_add, BitVec.toNat_ofNat]
        omega
      have hstart := hin _ (Reached.mem_starts (.here hlt) hloop).1
      have := hstart.1
      have := hstart.2
      omega
    · intro q hq
      obtain ⟨hmem, k, hk⟩ := hq.mem_starts hloop
      have hsize := entrySize_bounds hk
      refine ⟨k, hk, ?_⟩
      -- an entry over the end of the address space is followed by one outside the table
      by_contra hover
      have hdist := distance (hin q hmem) hq.lt
      have hnext := offset_add (hin q hmem) hsize.2
      have hlt : q + BitVec.ofNat 32 k < confEnd m conf := by
        have := hq.lt
        rw [BitVec.lt_def] at this ⊢
        rw [BitVec.toNat_add, BitVec.toNat_ofNat]
        omega
      have hout := (hin _ ((hq.snoc hk hlt).mem_starts hloop).1).2
      omega
  · rintro ⟨hhead, hall⟩
    have hstart : confStart conf < confEnd m conf → InTable m conf (confStart conf) := by
      intro hlt
      rw [BitVec.lt_def] at hlt
      simp only [InTable, offset, confStart, confEnd, BitVec.toNat_add, BitVec.toNat_sub,
        BitVec.toNat_ofNat] at hlt ⊢
      omega
    have hin : ∀ q, Reached m (confEnd m conf) (confStart conf) q →
        InTable m conf q ∧ ∃ k, entrySize (m q) = some k := by
      intro q hq
      obtain ⟨k, hk, -⟩ := hall q hq
      exact ⟨hq.inTable hstart hall, k, hk⟩
    have hnone : Walked m conf (confStart conf) {} := by
      constructor <;> simp [processors]
    obtain ⟨n, p', s, hloop, hw⟩ := hnone.ends hin
    refine ⟨⟨n, s, hloop, hw.inTable, hw.order, hw.cpus, ?_⟩, ?_⟩
    · rw [hw.cpus]
      exact List.length_take_le _ _
    · rintro ⟨q, hq, hunknown⟩
      obtain ⟨-, k, hk⟩ := hin q hq
      rw [hunknown] at hk
      cases hk

/-- Memory with an MP structure in the EBDA at `0x80000`, followed by a table of `len` bytes
with the checksum `c` and one entry of type `t`. -/
def bios (len c t : Byte) (a : Word) : Byte :=
  if a = P2V 0x40F then 0x80
  else ([0x5F, 0x4D, 0x50, 0x5F, 0x10, 0x00, 0x08, 0x00, 1, 4, 0x88, 0, 0, 0, 0, 0,
    0x50, 0x43, 0x4D, 0x50, len, 0, 4, c] ++ List.replicate 36 0 ++ [t]).getD
      (a - P2V 0x80000).toNat 0

/-- A table with one processor is walked as it should. -/
theorem mpinit_one_processor :
    mpconfig (bios 64 0x8C MPPROC) = some (P2V 0x80000, P2V 0x80010) ∧
    Parses (bios 64 0x8C MPPROC) 0 (P2V 0x80010) := by
  have hconf : mpconfig (bios 64 0x8C MPPROC) = some (P2V 0x80000, P2V 0x80010) := by
    decide +kernel
  refine ⟨hconf, (mpinit_parses_iff _ 0 _ _ hconf).mpr ⟨by decide, ?_⟩⟩
  intro q hq
  cases hq with
  | here => exact ⟨20, by decide +kernel, by decide⟩
  | next _ hk hnext =>
    obtain rfl := Option.some.inj (hk.symm.trans (show _ = some 20 by decide +kernel))
    cases hnext with
    | here hlt => exact absurd hlt (by decide +kernel)
    | next hlt => exact absurd hlt (by decide +kernel)

/-- A table whose only entry is of type 5 is accepted, and `mpinit` never comes to the
panic meant for it. -/
theorem mpinit_unknown_entry :
    mpconfig (bios 52 0x93 5) = some (P2V 0x80000, P2V 0x80010) ∧
    Reached (bios 52 0x93 5) (confEnd (bios 52 0x93 5) (P2V 0x80010))
      (confStart (P2V 0x80010)) (confStart (P2V 0x80010)) ∧
    entrySize (bios 52 0x93 5 (confStart (P2V 0x80010))) = none ∧
    (∀ inb n, mpinit (bios 52 0x93 5) inb n = .hang) ∧
    ¬ Parses (bios 52 0x93 5) 0 (P2V 0x80010) := by
  have hconf : mpconfig (bios 52 0x93 5) = some (P2V 0x80000, P2V 0x80010) := by
    decide +kernel
  have hlt : confStart (P2V 0x80010) < confEnd (bios 52 0x93 5) (P2V 0x80010) := by
    decide +kernel
  have hunknown : entrySize (bios 52 0x93 5 (confStart (P2V 0x80010))) = none := by
    decide +kernel
  have hhang : ∀ inb n, mpinit (bios 52 0x93 5) inb n = .hang := by
    intro inb n
    simp only [mpinit, hconf, mpinitLoop_unknown hlt hunknown, Outcome.hang_bind]
  refine ⟨hconf, .here hlt, hunknown, hhang, ?_⟩
  rintro ⟨⟨n, s, hloop, -⟩, -⟩
  rw [mpinitLoop_unknown hlt hunknown] at hloop
  cases hloop

end Xv6.Boot
