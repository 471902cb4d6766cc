import Xv6.Isolation

namespace Xv6

open BitVec Kernel List Option Outcome Phys

/-!
# `copyout`

`copyout` copies from the kernel to an address space that need not be the current one, page by page
through `uva2ka`.

* `memmove`, `uva2ka`, `copyout` — the code;
* `Wrote` — the first bytes were copied and nothing else changed;
* `copyoutLoop_spec` — the loop copies up to the first page that is not the user's, and there it
  looks at the page's entry even if there is no page table;
* `copyout_safe_iff` — so it is safe just if there is one.
-/

variable {s s' s1 : Phys} {pd g : Frame} {va va1 pte len : Word} {p : Nat → Byte} {k n : Nat}
variable {v x : Word} {j m : Nat}

/-! ### The code -/

/-- `memmove` to the kernel's address `dst`.  Memory ends at `PHYSTOP`. -/
def memmove : Phys → Word → List Byte → Res Phys
  | s, _, [] => .ok s
  | s, dst, b :: bs =>
    if PHYSTOP ≤ V2P dst then .wild else memmove (putByte s (V2P dst) dst b) (dst + 1) bs

/-- `uva2ka(pgdir, uva)`.  The result of `walkpgdir` is not compared with null. -/
def uva2ka (s : Phys) (pgdir : Frame) (uva : Word) : Res Word :=
  match (walkpgdir s pgdir uva false).1 with
  | none => .wild
  | some (t, i) =>
    let pte := s.mem t i
    if pte &&& PTE_P = 0#32 then .ok 0
    else if pte &&& PTE_U = 0#32 then .ok 0
    else .ok (P2V (PTE_ADDR pte))

/-- The loop of `copyout`; `buf` has the bytes that follow.  The result tells a return of 0 from
    a return of -1. -/
def copyoutLoop (pgdir : Frame) : Nat → Phys → Word → (Nat → Byte) → Word → Res (Bool × Phys)
  | 0, _, _, _, _ => .hang
  | fuel + 1, s, va, buf, len =>
    if 0 < len then do
      let va0 := PGROUNDDOWN va
      let pa0 ← uva2ka s pgdir va0
      if pa0 = 0 then return (false, s)
      else
        let n := PGSIZE - (va - va0)
        let n := if n > len then len else n
        let s ← memmove s (pa0 + (va - va0)) ((List.range n.toNat).map buf)
        copyoutLoop pgdir fuel s (va0 + PGSIZE) (fun j => buf (n.toNat + j)) (len - n)
    else .ok (true, s)

/-- `copyout(pgdir, va, p, len)`. -/
def copyout (s : Phys) (pgdir : Frame) (va : Word) (p : Nat → Byte) (len : Word) :
    Res (Bool × Phys) :=
  copyoutLoop pgdir loopBound s va p len

/-! ### One page -/

/-- Two words with the same bytes. -/
theorem word_ext {w : Word} (h : ∀ o, getByte w o = getByte v o) : w = v := by
  apply eq_of_getLsbD_eq
  intro j hj
  have hbyte := congrArg (fun b : Byte => b.getLsbD (j % 8)) (h (BitVec.ofNat 2 (j / 8)))
  have hmod : j % 8 < 8 := Nat.mod_lt _ (by decide)
  have hdiv : j / 8 % 2 ^ 2 = j / 8 := Nat.mod_eq_of_lt (by omega)
  simp only [getByte, getLsbD_setWidth, getLsbD_ushiftRight, toNat_ofNat,
    hmod, hdiv, decide_true, Bool.true_and, Nat.div_add_mod] at hbyte
  exact hbyte

/-- Two frames with the same bytes. -/
theorem frame_ext {x y : Idx → Word} (h : ∀ v, frameByte x v = frameByte y v) : x = y := by
  funext i
  apply word_ext
  intro o
  have hidx : byteIdx (BitVec.ofNat 32 (i.toNat * 4 + o.toNat)) = (i, o) := by
    unfold byteIdx
    refine Prod.ext (eq_of_toNat_eq ?_) (eq_of_toNat_eq ?_)
    · simp only [toNat_setWidth, toNat_ushiftRight, toNat_ofNat, Nat.shiftRight_eq_div_pow]
      omega
    · simp only [toNat_setWidth, toNat_ofNat]
      omega
  have := h (BitVec.ofNat 32 (i.toNat * 4 + o.toNat))
  unfold frameByte at this
  rwa [hidx] at this

/-- A copy within one page of memory. -/
theorem memmove_page {dst : Word} {bytes : List Byte} (hg : g.toNat < PHYSTOP.toNat / 4096)
    (hdst : frameOf (V2P dst) = g) (hlen : dst.toNat % 4096 + bytes.length ≤ 4096) :
    ∃ x, memmove s dst bytes = .ok (s.setFrame g x)
      ∧ Kernel.Copied (s.mem g) dst bytes x := by
  have hstop : PHYSTOP.toNat = 0xE000000 := rfl
  have hk := toNat_KERNBASE
  induction bytes generalizing s dst with
  | nil =>
    refine ⟨s.mem g, ?_, .nil _ dst⟩
    simp [memmove, setFrame]
  | cons b bs ih =>
    have hpa := toNat_frameOf (V2P dst)
    rw [hdst] at hpa
    have hin : ¬ PHYSTOP ≤ V2P dst := by
      rw [le_def]
      omega
    rw [memmove, if_neg hin, putByte_eq_setFrame, hdst]
    obtain ⟨x, hx⟩ : ∃ x, x = putFrame (s.mem g) dst b := ⟨_, rfl⟩
    rw [← hx]
    cases bs with
    | nil => exact ⟨x, rfl, hx ▸ Copied.cons dst (fun h => absurd rfl h) (.nil _ dst)⟩
    | cons b' bs =>
      rw [length_cons, length_cons] at hlen
      -- the next address is in the same page
      have hv2p : (V2P dst).toNat + 0x80000000 = dst.toNat := by
        unfold V2P at hpa hin ⊢
        rw [toNat_sub, hk] at *
        omega
      have hone : (dst + 1).toNat = dst.toNat + 1 := by grind
      have hnext : frameOf (V2P (dst + 1)) = g := by
        rw [← hdst]
        apply eq_of_toNat_eq
        have hv2p1 : (V2P (dst + 1)).toNat = (V2P dst).toNat + 1 := by
          unfold V2P
          rw [toNat_sub_of_le (le_def.mpr (by omega)),
            toNat_sub_of_le (le_def.mpr (by omega)), hone]
          omega
        rw [toNat_frameOf, toNat_frameOf, hv2p1]
        omega
      obtain ⟨y, hy, hcopy⟩ := ih (s := s.setFrame g x) hnext (by rw [hone, length_cons]; omega)
      refine ⟨y, ?_, ?_⟩
      · rw [hy]
        simp [setFrame]
      · grind [Copied.cons, setFrame_mem_self]

/-! ### The bytes copied so far -/

/-- There is an address with a given offset in a given page. -/
theorem exists_in_page (f : Frame) {o : Nat} (ho : o < 4096) :
    ∃ z : Word, frameOf z = f ∧ z.toNat % 4096 = o := by
  have hz : (BitVec.ofNat 32 (f.toNat * 4096 + o)).toNat = f.toNat * 4096 + o := by
    rw [toNat_ofNat]
    omega
  refine ⟨BitVec.ofNat 32 (f.toNat * 4096 + o), eq_of_toNat_eq ?_, by omega⟩
  rw [toNat_frameOf, hz]
  omega

/-- Address number `k + j` from `va` on, if the `j` addresses from number `k` on are of one page. -/
theorem dist_of_page (hv : v = va + BitVec.ofNat 32 k) (hk : k + j < 2 ^ 32)
    (hpage : frameOf x = frameOf v) (hx : x.toNat % 4096 = v.toNat % 4096 + j) :
    (x - va).toNat = k + j := by
  have h1 := toNat_frameOf x
  have h2 := toNat_frameOf v
  rw [hpage, h2] at h1
  have h3 : v.toNat = (va.toNat + k) % 2 ^ 32 := by
    rw [hv, toNat_add, toNat_ofNat]
    omega
  rw [toNat_sub]
  omega

/-- The converse. -/
theorem page_of_dist (hv : v = va + BitVec.ofNat 32 k) (hj : v.toNat % 4096 + j < 4096)
    (hx : (x - va).toNat = k + j) :
    frameOf x = frameOf v ∧ x.toNat % 4096 = v.toNat % 4096 + j := by
  have h3 : v.toNat = (va.toNat + k) % 2 ^ 32 := by
    rw [hv, toNat_add, toNat_ofNat]
    omega
  rw [toNat_sub] at hx
  refine ⟨eq_of_toNat_eq ?_, by omega⟩
  rw [toNat_frameOf, toNat_frameOf]
  omega

/-- The page of `va` is present and the user's. -/
def UserPage (s : Phys) (pd : Frame) (va : Word) : Prop :=
  ∃ pte, translate s pd va = some pte ∧ pte &&& PTE_U ≠ 0#32

/-- The user's pages are frames of memory, one each, and none of them is the directory or one of
    its tables. -/
structure UserApart (s : Phys) (pd : Frame) : Prop where
  bound : ∀ va pte, translate s pd va = some pte → pte &&& PTE_U ≠ 0#32 →
    (frameOf pte).toNat < PHYSTOP.toNat / 4096
  dir : ∀ va pte, translate s pd va = some pte → pte &&& PTE_U ≠ 0#32 → frameOf pte ≠ pd
  table : ∀ va pte, translate s pd va = some pte → pte &&& PTE_U ≠ 0#32 →
    ¬ PageTable s pd (frameOf pte)
  distinct : ∀ va va' pte pte', translate s pd va = some pte → pte &&& PTE_U ≠ 0#32 →
    translate s pd va' = some pte' → pte' &&& PTE_U ≠ 0#32 → frameOf pte = frameOf pte' →
    frameOf va = frameOf va'

/-- The `n` bytes from `va` on were copied, and nothing else changed.  Addresses are counted from
    `va` on, round the end of the address space. -/
structure Wrote (s : Phys) (pd : Frame) (va : Word) (p : Nat → Byte) (n : Nat) (s' : Phys) :
    Prop where
  user : ∀ x, (x - va).toNat < n → UserPage s pd x
  bytes : ∀ x pte, (x - va).toNat < n → translate s pd x = some pte →
    frameByte (s'.mem (frameOf pte)) x = p (x - va).toNat
  rest : ∀ g y, (∀ x pte, (x - va).toNat < n → translate s pd x = some pte → frameOf pte = g →
    x.toNat % 4096 ≠ y.toNat % 4096) → frameByte (s'.mem g) y = frameByte (s.mem g) y
  freelist : s'.freelist = s.freelist

namespace Wrote

theorem zero (s : Phys) (pd : Frame) (va : Word) (p : Nat → Byte) : Wrote s pd va p 0 s where
  user := fun _ hx => absurd hx (Nat.not_lt_zero _)
  bytes := fun _ _ hx => absurd hx (Nat.not_lt_zero _)
  rest := fun _ _ _ => rfl
  freelist := rfl

/-- Only user pages were written to. -/
theorem mem_eq (w : Wrote s pd va p n s')
    (hg : ∀ x pte, translate s pd x = some pte → pte &&& PTE_U ≠ 0#32 → frameOf pte ≠ g) :
    s'.mem g = s.mem g := by
  apply frame_ext
  intro y
  apply w.rest
  intro x pte hx hpte heq
  obtain ⟨pte', hpte', hU⟩ := w.user x hx
  cases hpte.symm.trans hpte'
  exact absurd heq (hg x pte hpte hU)

/-- The directory and its tables are as before. -/
theorem mem_dir (w : Wrote s pd va p n s') (hu : UserApart s pd) : s'.mem pd = s.mem pd :=
  w.mem_eq hu.dir

/-- Page tables are not written. -/
theorem mem_table (w : Wrote s pd va p n s') (hu : UserApart s pd) (hg : PageTable s pd g) :
    s'.mem g = s.mem g := by
  apply w.mem_eq
  rintro x pte hpte hU rfl
  exact hu.table x pte hpte hU hg

/-- The page of address number `k` is written to next. -/
theorem page {x : Idx → Word} (w : Wrote s pd va p k s1) (hu : UserApart s pd)
    (hv : v = va + BitVec.ofNat 32 k) (hpte : translate s pd v = some pte)
    (hU : pte &&& PTE_U ≠ 0#32) (hn : v.toNat % 4096 + n ≤ 4096) (hkn : k + n ≤ 2 ^ 32)
    (hcopy : Kernel.Copied (s1.mem (frameOf pte)) v ((List.range n).map fun j => p (k + j)) x) :
    Wrote s pd va p (k + n) (s1.setFrame (frameOf pte) x) := by
  have hlen : ((range n).map fun j => p (k + j)).length = n := by simp
  -- a byte of the range is a byte of the page
  have hnew : ∀ y, k ≤ (y - va).toNat → (y - va).toNat < k + n →
      frameOf y = frameOf v ∧ y.toNat % 4096 = v.toNat % 4096 + ((y - va).toNat - k) :=
    fun y h1 h2 => page_of_dist hv (by omega) (by omega)
  constructor
  · intro y hy
    by_cases hk : (y - va).toNat < k
    · exact w.user y hk
    · exact ⟨pte, by rw [translate_congr_page s pd (hnew y (by omega) hy).1, hpte], hU⟩
  · intro y pte' hy hpte'
    by_cases hk : (y - va).toNat < k
    · obtain ⟨pte1, hpte1, hU'⟩ := w.user y hk
      cases hpte'.symm.trans hpte1
      by_cases hframe : frameOf pte' = frameOf pte
      · -- the same page, where another part of it is written
        have hpage := hu.distinct y v pte' pte hpte' hU' hpte hU hframe
        rw [hframe, setFrame_mem_self, hcopy y, hlen, if_neg, ← hframe, w.bytes y pte' hk hpte']
        rintro ⟨h1, h2⟩
        have := dist_of_page hv (by omega) hpage (by omega :
          y.toNat % 4096 = v.toNat % 4096 + (y.toNat % 4096 - v.toNat % 4096))
        omega
      · rw [setFrame_mem_ne _ _ hframe, w.bytes y pte' hk hpte']
    · obtain ⟨hpage, hoff⟩ := hnew y (by omega) hy
      rw [translate_congr_page s pd hpage, hpte] at hpte'
      cases hpte'
      rw [setFrame_mem_self, hcopy y, hlen, if_pos (by omega), getD_eq_getElem?_getD,
        getElem?_map, getElem?_range (by omega), map_some, getD_some]
      congr 1
      omega
  · intro g y hout
    by_cases hg : g = frameOf pte
    · subst hg
      rw [setFrame_mem_self, hcopy y, hlen, if_neg]
      · apply w.rest
        exact fun x' pte' hx' => hout x' pte' (by omega)
      · rintro ⟨h1, h2⟩
        -- the address with this offset in the page of `v`
        obtain ⟨z, hz1, hz2⟩ := exists_in_page (frameOf v) (Nat.mod_lt y.toNat (by decide))
        have hdist := dist_of_page hv (by omega) hz1 (by omega :
          z.toNat % 4096 = v.toNat % 4096 + (y.toNat % 4096 - v.toNat % 4096))
        exact hout z pte (by omega) (by rw [translate_congr_page s pd hz1, hpte]) rfl hz2
    · rw [setFrame_mem_ne _ _ hg]
      exact w.rest g y fun x' pte' hx' => hout x' pte' (by omega)
  · exact w.freelist

end Wrote

/-! ### The loop -/

theorem PDX_PGROUNDDOWN (v : Word) : PDX (PGROUNDDOWN v) = PDX v := by
  apply eq_of_toNat_eq
  rw [toNat_PDX, toNat_PDX, toNat_PGROUNDDOWN]
  omega

theorem PTX_PGROUNDDOWN (v : Word) : PTX (PGROUNDDOWN v) = PTX v := by
  apply eq_of_toNat_eq
  rw [toNat_PTX, toNat_PTX, toNat_PGROUNDDOWN]
  omega

/-- `uva2ka` for the page of `v`, in terms of the memory before anything was copied. -/
theorem uva2ka_page (w : Wrote s pd va p k s1) (hu : UserApart s pd) :
    (s.mem pd (PDX v) &&& PTE_P = 0#32 ∧ uva2ka s1 pd (PGROUNDDOWN v) = .wild) ∨
    (s.mem pd (PDX v) &&& PTE_P ≠ 0#32 ∧ ¬ UserPage s pd v ∧ uva2ka s1 pd (PGROUNDDOWN v) = .ok 0) ∨
    ∃ pte, translate s pd v = some pte ∧ pte &&& PTE_U ≠ 0#32 ∧
      uva2ka s1 pd (PGROUNDDOWN v) = .ok (P2V (PTE_ADDR pte)) := by
  have hdir := w.mem_dir hu
  unfold uva2ka walkpgdir
  rw [PDX_PGROUNDDOWN, PTX_PGROUNDDOWN, hdir]
  by_cases hslot : s.mem pd (PDX v) &&& PTE_P = 0#32
  · exact .inl ⟨hslot, by simp [hslot]⟩
  · right
    have htable := w.mem_table hu ⟨PDX v, hslot, rfl⟩
    simp only [ne_eq, hslot, not_false_eq_true, if_true, htable]
    obtain ⟨pte, hpte⟩ : ∃ pte, pte = s.mem (frameOf (s.mem pd (PDX v))) (PTX v) := ⟨_, rfl⟩
    rw [← hpte]
    by_cases hP : pte &&& PTE_P = 0#32
    · refine .inl ⟨trivial, ?_, by rw [if_pos hP]⟩
      rintro ⟨pte', hpte', -⟩
      obtain ⟨-, h1, h2⟩ := translate_iff.mp hpte'
      exact h2 (by rw [← h1, ← hpte, hP])
    · have htr : translate s pd v = some pte := translate_iff.mpr ⟨hslot, hpte.symm, hP⟩
      rw [if_neg hP]
      by_cases hU : pte &&& PTE_U = 0#32
      · refine .inl ⟨trivial, ?_, by rw [if_pos hU]⟩
        rintro ⟨pte', hpte', hU'⟩
        cases htr.symm.trans hpte'
        exact hU' hU
      · exact .inr ⟨pte, htr, hU, by rw [if_neg hU]⟩

/-- How `copyout` ends: with everything copied, at a page that is not the user's, or at one for
    which there is no page table. -/
inductive CopyoutEnds (s : Phys) (pd : Frame) (va : Word) (p : Nat → Byte) (len : Nat) :
    Res (Bool × Phys) → Prop
  | done {s' : Phys} : Wrote s pd va p len s' → CopyoutEnds s pd va p len (.ok (true, s'))
  | refused {m : Nat} {s' : Phys} : m < len → Wrote s pd va p m s' →
      ¬ UserPage s pd (va + BitVec.ofNat 32 m) →
      s.mem pd (PDX (va + BitVec.ofNat 32 m)) &&& PTE_P ≠ 0#32 →
      CopyoutEnds s pd va p len (.ok (false, s'))
  | wild {m : Nat} {s' : Phys} : m < len → Wrote s pd va p m s' →
      s.mem pd (PDX (va + BitVec.ofNat 32 m)) &&& PTE_P = 0#32 → CopyoutEnds s pd va p len .wild

/-- One page is copied to. -/
theorem memmove_wrote (hu : UserApart s pd) (w : Wrote s pd va p k s1)
    (hv : v = va + BitVec.ofNat 32 k) (hpte : translate s pd v = some pte)
    (hU : pte &&& PTE_U ≠ 0#32) (hn : v.toNat % 4096 + n ≤ 4096) (hkn : k + n ≤ 2 ^ 32) :
    ∃ s2, memmove s1 (P2V (PTE_ADDR pte) + (v - PGROUNDDOWN v))
        ((List.range n).map fun j => p (k + j)) = .ok s2 ∧ Wrote s pd va p (k + n) s2 := by
  have hbound := hu.bound v pte hpte hU
  have hstop : PHYSTOP.toNat = 0xE000000 := rfl
  have hk := toNat_KERNBASE
  have hframe := toNat_frameOf pte
  have haddr := toNat_PTE_ADDR pte
  have hdown := toNat_PGROUNDDOWN v
  have hoff : (v - PGROUNDDOWN v).toNat = v.toNat % 4096 := by
    rw [toNat_sub_of_le (le_def.mpr (by omega))]
    omega
  obtain ⟨dst, hdst⟩ : ∃ dst, dst = P2V (PTE_ADDR pte) + (v - PGROUNDDOWN v) := ⟨_, rfl⟩
  have hval : dst.toNat = (frameOf pte).toNat * 4096 + 0x80000000 + v.toNat % 4096 := by
    rw [hdst, P2V, toNat_add, toNat_add, hoff, hk]
    omega
  have hmod : dst.toNat % 4096 = v.toNat % 4096 := by omega
  have hpage : frameOf (V2P dst) = frameOf pte := by
    apply eq_of_toNat_eq
    rw [toNat_frameOf, V2P, toNat_sub_of_le (le_def.mpr (by omega)), hval, hk]
    omega
  have hlen : dst.toNat % 4096 + ((List.range n).map fun j => p (k + j)).length ≤ 4096 := by
    simpa [hmod] using hn
  obtain ⟨x, hmove, hcopy⟩ := memmove_page (s := s1) hbound hpage hlen
  refine ⟨_, hdst ▸ hmove, w.page hu hv hpte hU hn hkn ?_⟩
  unfold Kernel.Copied at hcopy ⊢
  rwa [hmod] at hcopy

/-- How many bytes one round copies. -/
theorem toNat_chunk (v left : Word) :
    (if PGSIZE - (v - PGROUNDDOWN v) > left then left else PGSIZE - (v - PGROUNDDOWN v)).toNat
      = min (4096 - v.toNat % 4096) left.toNat := by
  have hsize := toNat_PGSIZE
  have hdown := toNat_PGROUNDDOWN v
  have hoff : (v - PGROUNDDOWN v).toNat = v.toNat % 4096 := by
    rw [toNat_sub_of_le (le_def.mpr (by omega))]
    omega
  have hrest : (PGSIZE - (v - PGROUNDDOWN v)).toNat = 4096 - v.toNat % 4096 := by
    rw [toNat_sub_of_le (le_def.mpr (by omega)), hoff, hsize]
  split
  · rename_i h
    have := lt_def.mp h
    omega
  · rename_i h
    have := BitVec.not_lt.mp h
    rw [le_def] at this
    omega

/-- The loop, from any round. -/
theorem copyoutLoop_spec {fuel : Nat} (hu : UserApart s pd) (w : Wrote s pd va p k s1)
    (hk : k ≤ len.toNat) (hva : k < len.toNat → va1 = va + BitVec.ofNat 32 k)
    (hfuel : k < len.toNat → va1.toNat % 4096 + (len.toNat - k) ≤ fuel * 4096) :
    CopyoutEnds s pd va p len.toNat
      (copyoutLoop pd (fuel + 1) s1 va1 (fun j => p (k + j)) (len - BitVec.ofNat 32 k)) := by
  have hlen := len.isLt
  induction fuel generalizing k s1 va1 with
  | zero =>
    have hend : k = len.toNat := by
      by_contra hne
      have := hfuel (by omega)
      omega
    have hzero : len - BitVec.ofNat 32 k = 0#32 := by
      rw [hend, ofNat_toNat, setWidth_eq, BitVec.sub_self]
    rw [copyoutLoop, hzero, if_neg (by decide)]
    exact .done (hend ▸ w)
  | succ fuel ih =>
    have hleft : (len - BitVec.ofNat 32 k).toNat = len.toNat - k := by grind
    rw [copyoutLoop]
    by_cases hpos : 0 < len - BitVec.ofNat 32 k
    · have hpos' : (0 : Word).toNat < _ := lt_def.mp hpos
      have hlt : k < len.toNat := by
        omega
      have hv := hva hlt
      rw [if_pos hpos]
      simp only
      rcases uva2ka_page (v := va1) w hu with
        ⟨hslot, huva⟩ | ⟨hslot, hno, huva⟩ | ⟨pte, hpte, hU, huva⟩
      · rw [huva]
        exact .wild hlt w (hv ▸ hslot)
      · rw [huva, ok_bind, if_pos rfl]
        exact .refused hlt w (hv ▸ hno) (hv ▸ hslot)
      · have hchunk := toNat_chunk va1 (len - BitVec.ofNat 32 k)
        generalize hm : (if PGSIZE - (va1 - PGROUNDDOWN va1) > len - BitVec.ofNat 32 k then
          len - BitVec.ofNat 32 k else PGSIZE - (va1 - PGROUNDDOWN va1)) = m at hchunk ⊢
        obtain ⟨s2, hmove, w2⟩ := memmove_wrote (n := m.toNat) hu w hv hpte hU (by omega) (by omega)
        have hne : P2V (PTE_ADDR pte) ≠ 0 := by
          intro h0
          have hval := toNat_P2V_base (hu.bound va1 pte hpte hU)
          rw [base_frameOf, h0] at hval
          have : (0 : Word).toNat = 0 := rfl
          omega
        rw [huva, ok_bind, if_neg hne, hmove, ok_bind]
        have hbuf : (fun j => p (k + (m.toNat + j))) = fun j => p (k + m.toNat + j) := by
          funext j
          rw [Nat.add_assoc]
        have hrest : len - BitVec.ofNat 32 k - m = len - BitVec.ofNat 32 (k + m.toNat) := by
          rw [ofNat_add, ofNat_toNat, setWidth_eq]
          bv_omega
        rw [hbuf, hrest]
        -- if there is more to copy, this round went to the end of the page
        have hdown := toNat_PGROUNDDOWN va1
        have hsize := toNat_PGSIZE
        have hnext : (PGROUNDDOWN va1 + PGSIZE).toNat
          = (va1.toNat / 4096 * 4096 + 4096) % 2 ^ 32 := by
          rw [toNat_add, hdown, hsize]
        refine ih w2 (by omega) ?_ ?_
        · grind
        · intro hmore
          have := hfuel hlt
          rw [hnext]
          omega
    · have hend : k = len.toNat := by
        rw [lt_def, hleft] at hpos
        have h0 : (0 : Word).toNat = 0 := rfl
        omega
      rw [if_neg hpos]
      exact .done (hend ▸ w)

/-- The whole call. -/
theorem copyout_ends (hu : UserApart s pd) (va : Word) (p : Nat → Byte) (len : Word) :
    CopyoutEnds s pd va p len.toNat (copyout s pd va p len) := by
  have hfuel : 0 < len.toNat → va.toNat % 4096 + (len.toNat - 0) ≤ 2097151 * 4096 := by
    omega
  have h := copyoutLoop_spec hu (Wrote.zero s pd va p) (Nat.zero_le len.toNat)
    (fun _ => (BitVec.add_zero va).symm) hfuel
  rw [← loopBound_eq] at h
  unfold copyout
  simpa only [Nat.zero_add, ofNat_eq_ofNat, BitVec.sub_zero] using h

/-! ### Safety -/

/-- `copyout` returns.  It returns 0 if just all pages of the range are present and the user's, and
    then the bytes of the range are those of the buffer and no others have changed; otherwise it has
    written to user pages only. -/
def CopyoutSafe (s : Phys) (pd : Frame) (va : Word) (p : Nat → Byte) (len : Word) : Prop :=
  ∃ ok s', copyout s pd va p len = .ok (ok, s') ∧
    (ok = true ↔ ∀ x, x - va < len → UserPage s pd x) ∧
    (ok = true → Wrote s pd va p len.toNat s') ∧
    (ok = false → s'.freelist = s.freelist ∧ ∀ g, s'.mem g ≠ s.mem g →
      ∃ x pte, translate s pd x = some pte ∧ pte &&& PTE_U ≠ 0#32 ∧ frameOf pte = g)

/-- The first page of the range that is not the user's has a page table, if there is such a page. -/
def TableAtFirst (s : Phys) (pd : Frame) (va len : Word) : Prop :=
  ∀ x, x - va < len → (∀ y, y - va < x - va → UserPage s pd y) → s.mem pd (PDX x) &&& PTE_P ≠ 0#32

theorem UserPage.slot (h : UserPage s pd va) : s.mem pd (PDX va) &&& PTE_P ≠ 0#32 := by
  obtain ⟨pte, hpte, -⟩ := h
  exact (translate_iff.mp hpte).1

/-- Address number `m` has number `m`. -/
theorem dist_self (hm : m < 2 ^ 32) : (va + BitVec.ofNat 32 m - va).toNat = m := by
  rw [BitVec.add_comm, BitVec.add_sub_cancel, toNat_ofNat]
  omega

/-- The last address before the one where `copyout` stops. -/
theorem not_user_dist (hm : m < 2 ^ 32) (hno : ¬ UserPage s pd (va + BitVec.ofNat 32 m))
    (hx : ∀ y, y - va < x - va → UserPage s pd y) : (x - va).toNat ≤ m := by
  by_contra hlt
  exact hno (hx _ (lt_def.mpr (by rw [dist_self hm]; omega)))

/-- Only user pages change. -/
theorem Wrote.only_user (w : Wrote s pd va p n s') (hg : s'.mem g ≠ s.mem g) :
    ∃ x pte, translate s pd x = some pte ∧ pte &&& PTE_U ≠ 0#32 ∧ frameOf pte = g := by
  by_contra hnone
  refine hg (w.mem_eq fun x pte hpte hU heq => hnone ⟨x, pte, hpte, hU, heq⟩)

/-- `copyout` is safe just if it does not come to a page for which there is no page table. -/
theorem copyout_safe_iff (s : Phys) (pd : Frame) (hu : UserApart s pd) (va : Word) (p : Nat → Byte)
    (len : Word) : CopyoutSafe s pd va p len ↔ TableAtFirst s pd va len := by
  have hends := copyout_ends hu va p len
  unfold CopyoutSafe
  generalize copyout s pd va p len = r at hends
  cases hends with
  | done w =>
    have huser : ∀ x, x - va < len → UserPage s pd x := w.user
    refine iff_of_true ⟨true, _, rfl, iff_of_true rfl huser, fun _ => w, nofun⟩ ?_
    exact fun x hx _ => (huser x hx).slot
  | @refused m s' hm w hno hslot =>
    refine iff_of_true ⟨false, s', rfl, iff_of_false nofun fun h => hno (h _ ?_), nofun, fun _ =>
      ⟨w.freelist, fun g hg => w.only_user hg⟩⟩ ?_
    · exact BitVec.lt_def.mpr (by rw [dist_self (by omega)]; exact hm)
    · intro x hx hbefore
      have hle := not_user_dist (by omega) hno hbefore
      by_cases heq : (x - va).toNat = m
      · grind
      · exact (w.user x (by omega)).slot
  | @wild m s' hm w hslot =>
    refine iff_of_false ?_ ?_
    · rintro ⟨ok, s', heq, -⟩
      cases heq
    · intro h
      refine h (va + BitVec.ofNat 32 m) (BitVec.lt_def.mpr (by rw [dist_self (by omega)]; exact hm))
        (fun y hy => w.user y ?_) hslot
      have := BitVec.lt_def.mp hy
      rwa [dist_self (by omega)] at this

/-! ### The machine with one process -/

namespace Kernel

/-- The user's pages are the three of the image. -/
theorem start_userPage {n : Nat} (hpte : translate (start n).phys 0x400#20 va = some pte)
    (hU : pte &&& PTE_U ≠ 0#32) :
    va.toNat < 0x3000 ∧ pte = base (0x410#20 + frameOf va) ||| 7#32 := by
  by_cases hva : va.toNat < KERNBASE.toNat
  · exact start_user hva hpte
  · -- the kernel's pages are not the user's
    rw [start_kernel_slot (le_def.mpr (by omega))] at hpte
    split at hpte
    · cases hpte
      refine absurd ?_ hU
      have hbase : ∀ f, base f &&& PTE_U = 0#32 := by
        intro f
        apply eq_of_getLsbD_eq
        intro i hi
        by_cases h12 : i < 12
        · simp [base_getLsbD h12]
        · have : PTE_U.getLsbD i = false := by
            revert h12
            revert i
            decide
          simp [this]
      rw [and_or_distrib_right, hbase, kernelPerm]
      split <;> decide
    · cases hpte

theorem start_userApart (n : Nat) : UserApart (start n).phys 0x400#20 := by
  have hframe : ∀ va pte, translate (start n).phys 0x400#20 va = some pte → pte &&& PTE_U ≠ 0#32 →
      va.toNat < 0x3000 ∧ frameOf pte = 0x410#20 + frameOf va ∧
        (frameOf pte).toNat = 0x410 + va.toNat / 4096 := by
    intro va pte hpte hU
    obtain ⟨hlt, rfl⟩ := start_userPage hpte hU
    have hfr := toNat_frameOf va
    rw [frameOf_base_or (by decide), toNat_add, toNat_ofNat]
    exact ⟨hlt, rfl, by omega⟩
  constructor
  · intro va pte hpte hU
    have := hframe va pte hpte hU
    have hstop : PHYSTOP.toNat = 0xE000000 := rfl
    omega
  · grind
  · rintro va pte hpte hU ⟨i, hi, htable⟩
    have h1 := (start_tables (n := n)).table i ((pdeFormat_valid _).mpr hi)
    have hlt := (hframe va pte hpte hU).1
    rw [pdeFormat_target, htable, start_pages va pte (lt_def.mpr (by
      have hk := toNat_KERNBASE
      omega)) hpte] at h1
    cases h1
  · grind

end Kernel

/-- Two pages of the image are written to. -/
theorem copyout_safe_start :
    CopyoutSafe (Kernel.start 0).phys 0x400#20 0x1FFC#32 (fun j => BitVec.ofNat 8 j) 8#32 := by
  refine (copyout_safe_iff _ _ (Kernel.start_userApart 0) _ _ _).mpr fun x hx _ => ?_
  have hx' : (x - 0x1FFC#32).toNat < 8 := hx
  have h0 : PDX x = 0#10 := by
    apply BitVec.eq_of_toNat_eq
    rw [BitVec.toNat_sub, BitVec.toNat_ofNat] at hx'
    rw [toNat_PDX, BitVec.toNat_ofNat]
    omega
  rw [h0]
  decide

/-- An address for which there is no page table: behind the memory that the kernel maps. -/
theorem copyout_not_safe_start : UserApart (Kernel.start 0).phys 0x400#20 ∧
    ¬ CopyoutSafe (Kernel.start 0).phys 0x400#20 0x90000000#32 (fun _ => 0) 1#32 := by
  have hu : UserApart (Kernel.start 0).phys 0x400#20 := Kernel.start_userApart 0
  refine ⟨hu, ?_⟩
  rintro ⟨ok, s', heq, -⟩
  cases heq

end Xv6
