import Xv6.Search
import Xv6.Lib.Traced

namespace Xv6.Kernel

open Outcome Traced

/-!
# The descriptor of `mmap`

`sys_mmap` does not look at `fd` before it uses it as an index: `create_vma` reads `ofile[fd]` for
every new record, and the loop over the pages of a file mapping reads it for every page.

* `sysMmapTraced` — `sys_mmap` with every read of `ofile` on record; `sysMmapTraced_out`: without
  the record it is `sysMmap`;
* `Creates`, `sysMmapTraced_log` — where it reads `ofile`, and when it does at all;
* `mmap_fd_iff` — when it reads `ofile` in bounds only and refuses a descriptor of no use.
-/

variable {L : Link} {k k' : Kernel} {p : Slot} {addr length prot flags fd i : Word}

/-! ### The calls with their record -/

/-- `create_vma`, the index at which it reads `ofile` on record.  Neither the record nor `next` is
    compared with null: the source writes or reads at address 0 then and goes on, if page 0 of the
    process lets it; the outcome is that of `createVma`, which gives up there. -/
def createVmaTraced (k : Kernel) (p : Slot) (prev next : VmaPtr)
    (start len prot flags fd : Word) : Traced Word Panic (Frame × Kernel) :=
  match kalloc k.phys with
  | (none, _) => do
    recordIf (k.writable p 0) fd
    lift .wild
  | (some vma, s) => do
    let k := { k with phys := s }
    recordIf (next ≠ .null ∨ k.readable p 0) fd
    let n ← lift (k.deref next)
    let k := k.setVma (.node vma) (k.newVma p vma next n.start start len prot flags fd)
    let pr ← lift (k.deref prev)
    return (vma, k.setVma prev { pr with next := .node vma })

/-- One page of the mapping loop; `struct file *f = p->ofile[fd]` is on record. -/
def mmapPageTraced (L : Link) (k : Kernel) (p : Slot) (vma : Frame)
    (start prot flags fd i : Word) : Traced Word Panic Kernel :=
  match kalloc k.phys with
  | (none, _) => lift (.panic .kalloc)
  | (some pa, s) => do
    let s := s.memset pa 0
    let k := { k with phys := s }
    let k := if i = start then k.setVma (.node vma) { k.vma vma with pa := P2V (base pa) } else k
    let (mapped, s) ←
      lift (mappagesV2P s (k.proc p).pgdir i PGSIZE (P2V (base pa)) (prot ||| PTE_U))
    let k ← lift (({ k with phys := s } : Kernel).mmapMapped L p i pa mapped)
    if flags &&& MAP_ANON = 0#32 then
      record fd
      lift (k.mmapLoad L p fd i)
    else return k

/-- The mapping loop. -/
def mmapPagesTraced (L : Link) (p : Slot) (vma : Frame) (start end_ prot flags fd : Word) :
    Nat → Kernel → Word → Traced Word Panic Kernel
  | 0, _, _ => lift .hang
  | n + 1, k, i =>
    if i < end_ then do
      let k ← k.mmapPageTraced L p vma start prot flags fd i
      mmapPagesTraced L p vma start end_ prot flags fd n k (i + PGSIZE)
    else return k

/-- The body of the two search loops once a place is found. -/
def mmapPlaceTraced (L : Link) (k : Kernel) (p : Slot) (prev curr : VmaPtr)
    (start length prot flags fd : Word) (fixed : Bool) : Traced Word Panic (Word × Kernel) := do
  let c ← lift (k.deref curr)
  let k := k.setVma curr { c with space_after := c.space_after - length }
  let (vma, k) ← k.createVmaTraced p curr c.next start length prot flags fd
  let v := k.vma vma
  let k := if fixed ∧ v.start = MIN_ADDR then k.setVma (.head p) v else k
  let k ← mmapPagesTraced L p vma start v.end_ prot flags fd loopBound k start
  let k ← lift (k.mmapUnguard prev curr)
  lift (k.mmapGuard vma start flags)

/-- `sys_mmap`: its search, which does not look at `ofile`, and the work at the place it found. -/
def sysMmapTraced (L : Link) (k : Kernel) (p : Slot) (addr length prot flags fd : Word) :
    Traced Word Panic (Word × Kernel) := do
  match ← lift (k.mmapFind p addr length flags) with
  | none => return (-1, k)
  | some pl => k.mmapPlaceTraced L p pl.prev pl.curr pl.start length prot flags fd pl.fixed

/-! ### Without the record -/

theorem createVmaTraced_out {prev next : VmaPtr} {start len : Word} :
    (k.createVmaTraced p prev next start len prot flags fd).out
      = k.createVma p prev next start len prot flags fd := by
  unfold createVmaTraced createVma
  cases kalloc k.phys with
  | mk vma s => cases vma <;> rfl

theorem mmapPageTraced_out {vma : Frame} {start : Word} :
    (k.mmapPageTraced L p vma start prot flags fd i).out
      = k.mmapPage L p vma start prot flags fd i := by
  unfold mmapPageTraced mmapPage
  cases kalloc k.phys with
  | mk pa s =>
  cases pa with
  | none => rfl
  | some pa =>
    simp only [bind_out, lift_out]
    congr 1
    funext x
    congr 1
    funext k1
    split <;> rfl

theorem mmapPagesTraced_out {vma : Frame} {start end_ : Word} (n : Nat) :
    (mmapPagesTraced L p vma start end_ prot flags fd n k i).out
      = mmapPages L p vma start end_ prot flags fd n k i := by
  induction n generalizing k i with
  | zero => rfl
  | succ n ih =>
    rw [mmapPagesTraced, mmapPages]
    split
    · simp only [bind_out, mmapPageTraced_out, ih]
    · rfl

/-- Without the record it is `sys_mmap`. -/
theorem sysMmapTraced_out : (sysMmapTraced L k p addr length prot flags fd).out
    = sysMmap L k p addr length prot flags fd := by
  rw [sysMmap_eq, sysMmapTraced, bind_out, lift_out]
  congr 1
  funext pl
  cases pl with
  | none => rfl
  | some pl => simp only [mmapPlaceTraced, mmapAt, mmapPlace, bind_out, lift_out,
      createVmaTraced_out, mmapPagesTraced_out]

/-! ### What is on record -/

/-- `create_vma` comes to read `ofile`: not if it faults at address 0 before, where it writes the
    record if there is no page for it, and reads the start of the next area if that is null. -/
def Creates (k : Kernel) (p : Slot) (next : VmaPtr) : Prop :=
  if k.phys.freelist = [] then k.writable p 0 = true else next ≠ .null ∨ k.readable p 0 = true

/-- `create_vma` reads `ofile` at `fd` only, and always if it returns. -/
theorem createVmaTraced_log {prev next : VmaPtr} {start len : Word} :
    (∀ j ∈ (k.createVmaTraced p prev next start len prot flags fd).log, j = fd ∧ Creates k p next)
      ∧ (Creates k p next → fd ∈ (k.createVmaTraced p prev next start len prot flags fd).log)
      ∧ ∀ r, k.createVma p prev next start len prot flags fd = .ok r → Creates k p next := by
  unfold createVmaTraced createVma Creates
  cases hl : k.phys.freelist with
  | nil =>
    rw [kalloc_nil hl]
    by_cases hw : k.writable p 0 = true <;> simp
  | cons f rest =>
    rw [kalloc_cons hl]
    have hr : ({ k with phys := { k.phys with freelist := rest } } : Kernel).readable p 0
        = k.readable p 0 := by
      have htr : ∀ s : Phys, s.mem = k.phys.mem →
          ({ k with phys := s } : Kernel).trans p 0 = k.trans p 0 :=
        fun s hs => translate_mem hs _ _
      exact congrArg Option.isSome (htr { k.phys with freelist := rest } rfl)
    rw [if_neg (List.cons_ne_nil f rest)]
    refine ⟨fun j hj => ?_, fun hc => ?_, fun r h => ?_⟩
    · simp only [mem_bind_log, lift_log, pure_log, List.not_mem_nil, and_false,
        exists_false, or_false, recordIf_log, hr] at hj
      split at hj
      · exact ⟨List.mem_singleton.mp hj, ‹_›⟩
      · cases hj
    · refine mem_bind_log.mpr (.inl ?_)
      rw [recordIf_log, hr, if_pos hc]
      exact List.mem_singleton_self fd
    · -- a null pointer is not read through
      obtain ⟨n, hn, -⟩ := bind_eq_ok.mp h
      left
      rintro rfl
      cases hn

/-- The mapping loop reads `ofile` at `fd` only. -/
theorem mmapPagesTraced_log {vma : Frame} {start end_ : Word} (n : Nat) :
    ∀ j ∈ (mmapPagesTraced L p vma start end_ prot flags fd n k i).log, j = fd := by
  induction n generalizing k i with
  | zero => simp [mmapPagesTraced]
  | succ n ih =>
    intro j hj
    rw [mmapPagesTraced] at hj
    split at hj
    · rcases mem_bind_log.mp hj with hj | ⟨k1, -, hj⟩
      · unfold mmapPageTraced at hj
        split at hj
        · simp at hj
        · simp only [mem_bind_log, lift_log, List.not_mem_nil, false_or] at hj
          obtain ⟨x, -, k1, -, hj⟩ := hj
          split at hj
          · simpa [mem_bind_log] using hj
          · simp at hj
      · exact ih j hj
    · simp at hj

/-- `sys_mmap` reads `ofile` at `fd` only, and just if it finds a place and `create_vma` comes to
    it. -/
theorem sysMmapTraced_log (j : Word) : j ∈ (sysMmapTraced L k p addr length prot flags fd).log ↔
    j = fd ∧ ∃ pl c, k.mmapFind p addr length flags = .ok (some pl) ∧ k.deref pl.curr = .ok c
      ∧ Creates k p c.next := by
  have hcreates : ∀ {curr next : VmaPtr} {v : VmArea},
      Creates (k.setVma curr v) p next ↔ Creates k p next := by
    intro curr next v
    simp [Creates, writable, readable]
  constructor
  · intro hj
    unfold sysMmapTraced at hj
    simp only [mem_bind_log, lift_log, List.not_mem_nil, false_or, lift_out] at hj
    obtain ⟨pl, hfind, hj⟩ := hj
    cases pl with
    | none => simp at hj
    | some pl =>
      unfold mmapPlaceTraced at hj
      simp only [mem_bind_log, lift_log, List.not_mem_nil, false_or, lift_out] at hj
      obtain ⟨c, hc, hj⟩ := hj
      rcases hj with hj | ⟨⟨vma, k1⟩, hk1, hj⟩
      · obtain ⟨hfd, hcr⟩ := createVmaTraced_log.1 j hj
        exact ⟨hfd, pl, c, hfind, hc, hcreates.mp hcr⟩
      · rw [createVmaTraced_out] at hk1
        refine ⟨?_, pl, c, hfind, hc, hcreates.mp (createVmaTraced_log.2.2 _ hk1)⟩
        rcases hj with hj | ⟨k2, -, hj⟩
        · exact mmapPagesTraced_log _ j hj
        · simp at hj
  · rintro ⟨rfl, pl, c, hfind, hc, hcr⟩
    unfold sysMmapTraced mmapPlaceTraced
    refine mem_bind_log.mpr (.inr ⟨some pl, hfind, ?_⟩)
    refine mem_bind_log.mpr (.inr ⟨c, hc, ?_⟩)
    exact mem_bind_log.mpr (.inl (createVmaTraced_log.2.1 (hcreates.mpr hcr)))

/-! ### How a search can end -/

/-- The search follows a null pointer, goes round for ever, finds nothing, or finds a place after an
    area. -/
inductive Found (k : Kernel) : Res (Option Place) → Prop
  | wild : Found k .wild
  | hang : Found k .hang
  | none : Found k (.ok .none)
  | some {pl : Place} {c : VmArea} : k.deref pl.curr = .ok c → Found k (.ok (.some pl))

/-- The search of the `MAP_FIXED` branch ends so. -/
theorem fixedFind_found (n : Nat) (prev curr : VmaPtr) :
    Found k (k.fixedFind addr length n prev curr) := by
  induction n generalizing prev curr with
  | zero => exact .hang
  | succ n ih =>
    rw [fixedFind]
    cases hc : k.deref curr with
    | ok c =>
      rw [ok_bind]
      split
      · exact .none
      split
      · exact .none
      cases hn : k.deref c.next with
      | ok next =>
        rw [ok_bind]
        split
        · exact .some hc
        · exact ih curr c.next
      | wild => exact .wild
      | panic e => cases hx : c.next <;> rw [hx] at hn <;> cases hn
      | hang => exact .hang
    | wild => exact .wild
    | panic e => cases curr <;> cases hc
    | hang => exact .hang

/-- The search of the other branch ends so. -/
theorem anyFind_found (n : Nat) (prev curr : VmaPtr) :
    Found k (k.anyFind length n prev curr) := by
  induction n generalizing prev curr with
  | zero => exact .hang
  | succ n ih =>
    rw [anyFind]
    cases hc : k.deref curr with
    | ok c =>
      rw [ok_bind]
      split
      · exact .none
      split
      · exact .some hc
      · exact ih curr c.next
    | wild => exact .wild
    | panic e => cases curr <;> cases hc
    | hang => exact .hang

/-- So does that of `sys_mmap`. -/
theorem mmapFind_found (k : Kernel) (p : Slot) (addr length flags : Word) :
    Found k (k.mmapFind p addr length flags) := by
  unfold mmapFind
  split
  · split
    · exact .none
    · exact fixedFind_found ..
  · exact anyFind_found ..

/-! ### Which descriptors are refused -/

/-- Descriptor `fd` is open for reading on an inode. -/
def ReadableFd (k : Kernel) (p : Slot) (fd : Word) : Prop :=
  ∃ i, k.ofileAt p fd = .file i ∧ (k.file i).type = .FD_INODE ∧ (k.file i).readable = true

theorem ReadableFd.lt (h : ReadableFd k p fd) : fd.toNat < NOFILE := by
  obtain ⟨i, hi, -⟩ := h
  unfold ofileAt at hi
  split at hi
  · assumption
  · cases hi

/-- In every state in which the search follows no null pointer: `mmap` reads the descriptor table
    inside its bounds only, and refuses a file mapping of a descriptor not open for reading on an
    inode, iff it finds no place, or the descriptor is fine, or there is no file to map and: the
    descriptor is in bounds, or the search goes round for ever, or `create_vma` does not come to
    read the table. -/
theorem mmap_fd_iff (L : Link) (k : Kernel) (p : Slot) (addr length prot flags fd : Word)
    (hsearch : k.mmapFind p addr length flags ≠ .wild) :
    ((∀ j ∈ (sysMmapTraced L k p addr length prot flags fd).log, j.toNat < NOFILE)
        ∧ (flags &&& MAP_ANON = 0#32 → ¬ ReadableFd k p fd →
          ∃ k', sysMmap L k p addr length prot flags fd = .ok (-1, k') ∧ Untouched k p k'))
      ↔ k.mmapFind p addr length flags = .ok none ∨ ReadableFd k p fd
        ∨ flags &&& MAP_ANON ≠ 0#32
          ∧ (fd.toNat < NOFILE ∨ k.mmapFind p addr length flags = .hang
            ∨ ∃ pl c, k.mmapFind p addr length flags = .ok (some pl) ∧ k.deref pl.curr = .ok c
              ∧ ¬ Creates k p c.next) := by
  constructor
  · rintro ⟨hbound, hrefuse⟩
    by_cases hfd : ReadableFd k p fd
    · exact .inr (.inl hfd)
    by_cases hanon : flags &&& MAP_ANON = 0#32
    · obtain ⟨k', hr, hsame⟩ := hrefuse hanon hfd
      exact .inl (hsame.not_placed hr)
    -- a mapping without a file: how did the search end?
    have hfound := mmapFind_found k p addr length flags
    generalize hfind : k.mmapFind p addr length flags = o at hfound hsearch ⊢
    cases hfound with
    | wild => exact absurd rfl hsearch
    | hang => exact .inr (.inr ⟨hanon, .inr (.inl rfl)⟩)
    | none => exact .inl rfl
    | @some pl c hc =>
      refine .inr (.inr ⟨hanon, ?_⟩)
      by_cases hcr : Creates k p c.next
      · exact .inl (hbound fd ((sysMmapTraced_log fd).mpr ⟨rfl, pl, c, hfind, hc, hcr⟩))
      · exact .inr (.inr ⟨pl, c, rfl, hc, hcr⟩)
  · rintro (hnone | hfd | ⟨hanon, hfd⟩)
    · refine ⟨fun j hj => ?_, fun _ _ => ⟨k, sysMmap_of_none hnone, .refl k p⟩⟩
      obtain ⟨-, pl, c, hfind, -⟩ := (sysMmapTraced_log j).mp hj
      cases hnone.symm.trans hfind
    · refine ⟨fun j hj => ?_, fun _ h => absurd hfd h⟩
      rw [((sysMmapTraced_log j).mp hj).1]
      exact hfd.lt
    · refine ⟨fun j hj => ?_, fun h => absurd h hanon⟩
      obtain ⟨rfl, pl, c, hfind, hc, hcr⟩ := (sysMmapTraced_log j).mp hj
      rcases hfd with hlt | hhang | ⟨pl', c', hfind', hc', hcr'⟩
      · exact hlt
      · cases hhang.symm.trans hfind
      · cases hfind.symm.trans hfind'
        cases hc.symm.trans hc'
        exact absurd hcr hcr'

/-- A file mapping of an open file: `ofile` is read at 0 only. -/
theorem mmap_fd_iff_open :
    (sysMmapTraced startLink (start 16) 0 0 0x1000 3 0x1 0).log ≠ []
      ∧ ∀ j ∈ (sysMmapTraced startLink (start 16) 0 0 0x1000 3 0x1 0).log, j.toNat < NOFILE := by
  have hfind : (start 16).mmapFind 0 0 0x1000 0x1 = .ok
    (some ⟨.head 0, .head 0, 0x60000000, false⟩) :=
    rfl
  have hfd : ReadableFd (start 16) 0 0 := ⟨0, rfl, rfl, rfl⟩
  refine ⟨by decide +kernel, ?_⟩
  exact ((mmap_fd_iff startLink (start 16) 0 0 0x1000 3 0x1 0 (by rw [hfind]; nofun)).mpr
    (.inr (.inl hfd))).1

/-- A closed descriptor is not refused: the null file pointer is followed.  And an anonymous
    mapping with descriptor -1 reads the table at that index, also if there is no page for the
    record. -/
theorem mmap_fd_unchecked : ¬ ReadableFd (start 16) 0 1
    ∧ (∀ r, sysMmap startLink (start 16) 0 0 0x1000 3 0x1 1 ≠ .ok r)
    ∧ -1 ∈ (sysMmapTraced startLink (start 16) 0 0 0x1000 3 0x5 (-1)).log
    ∧ -1 ∈ (sysMmapTraced startLink (start 0) 0 0 0x1000 3 0x5 (-1)).log
    ∧ ¬ (-1 : Word).toNat < NOFILE := by
  refine ⟨?_, ?_, by decide +kernel, by decide +kernel, by decide⟩
  · rintro ⟨i, hi, -⟩
    cases hi
  · intro r hr
    have hno : (sysMmap startLink (start 16) 0 0 0x1000 3 0x1 1).holds (fun _ => true) = false := by
      decide +kernel
    rw [hr] at hno
    cases hno

end Xv6.Kernel
