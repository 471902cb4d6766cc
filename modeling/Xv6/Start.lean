import Xv6.User

namespace Xv6

/-!
# A machine with one process

`Kernel.start n` is a kernel whose only process, in slot 0, has just returned from `exec`:
an image of three pages, the kernel's half of the address space as `setupkvm` maps it, one
open file, and `n` free frames.  `start_execed` says that `Execed` holds of it, so what is
proved of every run from `Execed` states is about runs that exist.
-/

/-- Where a small kernel ends up when it is linked. -/
def startLink : Link where
  data := 0x80108000
  end_ := 0x80115000
  data_aligned := by decide
  data_gt := by decide
  data_le := by decide
  end_lt := by decide

namespace Kernel

/-- The slots of the directory that hold the kernel's half. -/
def kernelSlot (i : Idx) : Prop := 512#10 ≤ i ∧ i < 568#10 ∨ 1016#10 ≤ i

instance (i : Idx) : Decidable (kernelSlot i) :=
  inferInstanceAs (Decidable (_ ∧ _ ∨ _))

/-- The frame of the page table in slot `i`. -/
def startTable (i : Idx) : Frame := 0x1800#20 + i.setWidth 20

/-- The physical page the kernel sees at entry `j` of the table in slot `i`: memory from
    `KERNBASE` on, devices where they are. -/
def kernelPage (i j : Idx) : Frame :=
  if i < 568#10 then (i - 512#10) ++ j else i ++ j

/-- The permissions of the kernel's mapping of a page: its text is not writable. -/
def kernelPerm (f : Frame) : Word :=
  if 0x100#20 ≤ f ∧ f < 0x108#20 then PTE_P else PTE_P ||| PTE_W

/-- Memory: the directory in frame 0x400, the image's page table in 0x401 and its pages from
    0x410 on, the kernel's page tables from 0x1A00 on. -/
def startMem (f : Frame) (i : Idx) : Word :=
  if f = 0x400#20 then
    if i = 0#10 then base 0x401#20 ||| 7#32
    else if kernelSlot i then base (startTable i) ||| 7#32
    else 0
  else if f = 0x401#20 then
    if i < 3#10 then base (0x410#20 + i.setWidth 20) ||| 7#32 else 0
  else if f.toNat / 1024 = 6 ∧ kernelSlot (f.setWidth 10) then
    let page := kernelPage (f.setWidth 10) i
    base page ||| kernelPerm page
  else junk

/-- The free frames, from 0x1000 on. -/
def startFree (n : Nat) : List Frame := (List.range n).map (fun j => BitVec.ofNat 20 (0x1000 + j))

/-- A `struct vm_area` in memory nothing has written to. -/
def zeroArea : VmArea :=
  { valid := 0, start := 0, end_ := 0, pa := 0, guardstart := 0, len := 0, prot := 0, flags := 0,
    fd := 0, space_after := 0, f := .null, next := .null }

/-- A slot of the process table that was never used. -/
def zeroProc : Proc :=
  { sz := 0, pgdir := 0, kstack := none, state := .UNUSED, pid := 0, parent := none,
    killed := false, ofile := fun _ => none, head := zeroArea, tail := zeroArea }

/-- The process: what `exec` sets, an image of three pages, descriptor 0 open. -/
def startProc : Proc :=
  { sz := 0x3000, pgdir := 0x400, kstack := some 0x402, state := .RUNNING, pid := 1,
    parent := none, killed := false, ofile := fun d => if d = 0 then some 0 else none,
    head := { zeroArea with
      start := 0x60000000, end_ := 0x5FFFFFFF, space_after := 0x20000000, next := .tail 0 },
    tail := { zeroArea with start := 0x80000000, end_ := 0x80000000 } }

/-- A kernel with one process that has just returned from `exec`, and `n` free frames. -/
def start (n : Nat) : Kernel :=
  { phys := { mem := startMem, freelist := startFree n },
    vma := fun _ => zeroArea,
    proc := fun q => if q = 0 then startProc else zeroProc,
    nextpid := 2,
    initproc := 0,
    file := fun i =>
      if i = 0 then
        { type := .FD_INODE, ref := 1, readable := true, writable := true, pipe := 0, ip := 0,
          off := 0 }
      else
        { type := .FD_NONE, ref := 0, readable := false, writable := false, pipe := 0, ip := 0,
          off := 0 },
    pipe := fun _ => { page := 0, data := [], readopen := false, writeopen := false },
    inode := fun _ => [0, 0, 0, 0],
    granted := fun _ _ => none }

/-- Who owns the frames of `start n`. -/
def startOwn (n : Nat) (f : Frame) : Owner :=
  if f = 0x400#20 then .dir (.proc 0)
  else if f = 0x401#20 then .table (.proc 0) 0
  else if f = 0x402#20 then .kstack 0
  else if 0x410 ≤ f.toNat ∧ f.toNat < 0x413 then .page (.proc 0) (f - 0x410#20)
  else if f.toNat / 1024 = 6 ∧ kernelSlot (f.setWidth 10) then .table (.proc 0) (f.setWidth 10)
  else if 0x1000 ≤ f.toNat ∧ f.toNat < 0x1000 + n then .free
  else .reserved

/-! ### The state is as `exec` leaves it -/

variable {n : Nat}

/-- The page table of a slot of the kernel's half is found at its place. -/
theorem startTable_slot (i : Idx) :
    (startTable i).toNat = 0x1800 + i.toNat ∧ (startTable i).setWidth 10 = i := by
  have h1 : (startTable i).toNat = 0x1800 + i.toNat := by
    unfold startTable
    simp only [BitVec.toNat_add, BitVec.toNat_ofNat, BitVec.toNat_setWidth]
    omega
  refine ⟨h1, BitVec.eq_of_toNat_eq ?_⟩
  rw [BitVec.toNat_setWidth, h1]
  omega

/-- The frames on the free list. -/
theorem start_freelist {f : Frame} (hn : n ≤ 0x800) (hf : f ∈ startFree n) :
    0x1000 ≤ f.toNat ∧ f.toNat < 0x1000 + n ∧ ∀ c : Frame, c.toNat < 0x1000 → f ≠ c := by
  obtain ⟨j, hj, rfl⟩ := List.mem_map.mp hf
  rw [List.mem_range] at hj
  have hval : (BitVec.ofNat 20 (0x1000 + j)).toNat = 0x1000 + j := by
    rw [BitVec.toNat_ofNat]
    omega
  refine ⟨by omega, by omega, ?_⟩
  rintro c hc rfl
  omega

theorem start_free (hn : n ≤ 0x800) : Free (startOwn n) (start n).phys where
  nodup := by
    refine List.Nodup.map_on (fun a ha b hb hab => ?_) List.nodup_range
    rw [List.mem_range] at ha hb
    have := congrArg BitVec.toNat hab
    simp only [BitVec.toNat_ofNat] at this
    omega
  free := by
    intro f hf
    obtain ⟨hlo, hhi, hne⟩ := start_freelist hn hf
    unfold startOwn
    rw [if_neg (hne _ (by decide)), if_neg (hne _ (by decide)), if_neg (hne _ (by decide)),
      if_neg (by omega), if_neg (by omega), if_pos (by omega)]
  filled := by
    intro f hf i _
    obtain ⟨hlo, hhi, hne⟩ := start_freelist hn hf
    show startMem _ i = junk
    unfold startMem
    rw [if_neg (hne _ (by decide)), if_neg (hne _ (by decide)), if_neg (by omega)]
  bound := by
    intro f hf
    have hhi := (start_freelist hn hf).2.1
    have hstop : PHYSTOP.toNat = 0xE000000 := rfl
    omega

/-- What slot `i` of the directory holds. -/
theorem start_slot (i : Idx) (h : startMem 0x400#20 i &&& PTE_P ≠ 0#32) :
    i = 0#10 ∧ startMem 0x400#20 i = base 0x401#20 ||| 7#32
      ∨ kernelSlot i ∧ startMem 0x400#20 i = base (startTable i) ||| 7#32 := by
  unfold startMem at h ⊢
  rw [if_pos rfl] at h ⊢
  by_cases h0 : i = 0#10
  · exact .inl ⟨h0, by rw [if_pos h0]⟩
  · grind

theorem start_tables : Tables (startOwn n) (start n).phys.mem (.proc 0) 0x400#20 where
  dir := rfl
  table := by
    intro i hi
    rw [pdeFormat_valid] at hi
    rw [pdeFormat_target]
    show startOwn n (frameOf (startMem 0x400#20 i)) = .table (.proc 0) i
    rcases start_slot i hi with ⟨rfl, he⟩ | ⟨hk, he⟩
    · rfl
    · obtain ⟨hval, hslot⟩ := startTable_slot i
      rw [he, frameOf_base_or (by decide)]
      have hne : ∀ c : Frame, c.toNat < 0x1800 → startTable i ≠ c := by
        rintro c hc rfl
        omega
      unfold startOwn
      rw [if_neg (hne _ (by decide)), if_neg (hne _ (by decide)), if_neg (hne _ (by decide)),
        if_neg (by omega), hslot, if_pos ⟨by omega, hk⟩]

/-- The user half of the address space: the three pages of the image. -/
theorem start_user {va pte : Word} (hva : va.toNat < KERNBASE.toNat)
    (h : (start n).trans 0 va = some pte) :
    va.toNat < 0x3000 ∧ pte = base (0x410#20 + frameOf va) ||| 7#32 := by
  have hkern := toNat_KERNBASE
  have hpdx := toNat_PDX va
  have hptx := toNat_PTX va
  obtain ⟨hpte, hp⟩ := translate_eq_some.mp h
  rw [pte?_eq_leaf, TwoLevel.leaf] at hpte
  split at hpte
  · rename_i hvalid
    rw [pdeFormat_valid] at hvalid
    have hvalid' : startMem 0x400#20 (PDX va) &&& PTE_P ≠ 0#32 := hvalid
    rcases start_slot (PDX va) hvalid' with ⟨h0, he⟩ | ⟨hk, -⟩
    · have hpte' : startMem (frameOf (startMem 0x400#20 (PDX va))) (PTX va) = pte :=
        Option.some.inj hpte
      rw [he, frameOf_base_or (by decide)] at hpte'
      have h0' : (PDX va).toNat = 0 := by rw [h0]; rfl
      have hfr := toNat_frameOf va
      have h3 : PTX va < 3#10 := by
        by_contra h3
        have : startMem 0x401#20 (PTX va) = 0 := by
          unfold startMem
          rw [if_neg (by decide), if_pos rfl, if_neg h3]
        rw [this] at hpte'
        subst hpte'
        exact hp (by decide)
      have h3' : (PTX va).toNat < 3 := h3
      have hsame : (PTX va).setWidth 20 = frameOf va := by
        apply BitVec.eq_of_toNat_eq
        rw [BitVec.toNat_setWidth]
        omega
      refine ⟨by omega, ?_⟩
      rw [← hpte', ← hsame]
      unfold startMem
      rw [if_neg (by decide), if_pos rfl, if_pos h3]
    · -- the kernel's slots are those of the upper half
      exfalso
      rcases hk with ⟨hk, -⟩ | hk
      · have hk' : 512 ≤ (PDX va).toNat := hk
        omega
      · have hk' : 1016 ≤ (PDX va).toNat := hk
        omega
  · cases hpte

theorem start_pages : Pages (startOwn n) (start n).phys (.proc 0) 0x400#20 := by
  intro va pte hva htr
  obtain ⟨hlt, rfl⟩ := start_user (n := n) hva htr
  have hfr := toNat_frameOf va
  have hval : (0x410#20 + frameOf va).toNat = 0x410 + va.toNat / 4096 := by
    rw [BitVec.toNat_add, BitVec.toNat_ofNat]
    omega
  have hne : ∀ c : Frame, c.toNat < 0x410 → 0x410#20 + frameOf va ≠ c := by
    intro c hc heq
    rw [← heq] at hc
    omega
  rw [frameOf_base_or (by decide)]
  unfold startOwn
  rw [if_neg (hne _ (by decide)), if_neg (hne _ (by decide)), if_neg (hne _ (by decide)),
    if_pos (by omega), BitVec.add_comm, BitVec.add_sub_cancel]

/-- `Execed` holds of the machine with one process. -/
theorem start_execed (hn : n ≤ 0x800) : Execed (startOwn n) (start n) 0 where
  alive := rfl
  head_valid := rfl
  head_start := rfl
  head_end := rfl
  head_len := rfl
  head_space := rfl
  head_next := rfl
  head_guard := .inl rfl
  tail_valid := rfl
  tail_start := rfl
  tail_end := rfl
  tail_len := rfl
  tail_next := rfl
  tail_guard := rfl
  free := start_free hn
  tables := start_tables
  pages := start_pages
  records := by
    intro f
    unfold startOwn
    split_ifs <;> simp
  kern := by
    -- the number of free frames does not matter
    have hmem : (start n).phys.mem = (start 0).phys.mem := rfl
    have h0 : (start n).trans 0 KERNBASE = (start 0).trans 0 KERNBASE := translate_mem hmem _ _
    rw [h0]
    decide +kernel
  size := by
    show (0x3000#32 : Word) ≤ MIN_ADDR
    decide
  empty := by
    intro va h1 h2
    rw [← Option.not_isSome_iff_eq_none, Option.isSome_iff_exists]
    rintro ⟨pte, htr⟩
    have hsz : (PGROUNDUP ((start n).proc 0).sz).toNat = 0x3000 := by
      show (PGROUNDUP 0x3000#32).toNat = 0x3000
      decide
    have := (start_user h2 htr).1
    omega

/-- The image is mapped. -/
theorem start_image {va : Word} (hva : va.toNat < 0x3000) : (start n).trans 0 va ≠ none := by
  have hpdx : PDX va = 0#10 := BitVec.eq_of_toNat_eq (by
    rw [toNat_PDX]
    show va.toNat / 4194304 = 0
    omega)
  have hptx : PTX va = 0#10 ∨ PTX va = 1#10 ∨ PTX va = 2#10 := by
    have h := toNat_PTX va
    have h3 : (PTX va).toNat = 0 ∨ (PTX va).toNat = 1 ∨ (PTX va).toNat = 2 := by omega
    exact h3.imp (BitVec.eq_of_toNat_eq ·)
      (Or.imp (BitVec.eq_of_toNat_eq ·) (BitVec.eq_of_toNat_eq ·))
  rw [Kernel.trans, translate, pte?_eq_leaf, hpdx]
  change ((TwoLevel.leaf pdeFormat startMem 0x400#20 0#10 (PTX va)).filter _) ≠ none
  rcases hptx with h | h | h <;> rw [h] <;> decide +kernel

/-- The other processes do not matter. -/
theorem Execed.setProc {own : Frame → Owner} {k : Kernel} {p q : Slot} (h : Execed own k p)
    (hne : p ≠ q) (pr : Proc) : Execed own (k.setProc q pr) p := by
  have hp : (k.setProc q pr).proc p = k.proc p := setProc_ne _ _ hne
  have htr : ∀ va, (k.setProc q pr).trans p va = k.trans p va := fun va => by
    rw [Kernel.trans, hp]
    rfl
  have hphys : (k.setProc q pr).phys = k.phys := rfl
  cases h
  constructor
  case records => assumption
  all_goals
    simp only [hp, htr, hphys]
    assumption

end Kernel

end Xv6
