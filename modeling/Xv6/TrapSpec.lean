import Xv6.VmSpec
import Xv6.Trap

namespace Xv6

open Outcome Function

/-!
# What a page fault does

* `pgfltLoop_cases` — the handler leaves the state alone, kills the process, or grows one
  of the areas its walk meets;
* `grow_ok` — growing either maps the guard page and moves the area's end over it, or
  finds no memory for a page table and kills the process;
* `kernelFault_not_ok` — a fault of the kernel on a page it may not write is never resolved;
* `storeBytes_writable` — a copy to a writable page changes its frame only.
-/

/-- Where the guard page of an area can be hit, it is a page. -/
def VmArea.guardOk (v : VmArea) : Prop :=
  v.guardstart.toNat % 4096 = 0 ∨ v.guardstart.toNat + 4095 < MIN_ADDR.toNat
    ∨ MAX_ADDR.toNat ≤ v.guardstart.toNat

namespace Kernel

variable {L : Link} {own : Frame → Owner} {k k' : Kernel} {p : Slot} {va : Word}
variable {x : VmaPtr} {N : VmaPtr → Prop} {r : Res Kernel} {pte : Word} {bytes : List Byte}

/-! ### State updates -/

section

variable (k : Kernel)

@[simp] theorem setProc_phys (p : Slot) (pr : Proc) : (k.setProc p pr).phys = k.phys := rfl

@[simp] theorem setProc_self (p : Slot) (pr : Proc) : (k.setProc p pr).proc p = pr :=
  update_self _ _ _

theorem setProc_ne {p q : Slot} (pr : Proc) (h : q ≠ p) : (k.setProc p pr).proc q = k.proc q :=
  update_of_ne h _ _

@[simp] theorem kill_phys (p : Slot) : (k.kill p).phys = k.phys := rfl
@[simp] theorem kill_vma (p : Slot) : (k.kill p).vma = k.vma := rfl
@[simp] theorem kill_self (p : Slot) :
    (k.kill p).proc p = { k.proc p with killed := true } := setProc_self _ _ _

theorem kill_ne {p q : Slot} (h : q ≠ p) : (k.kill p).proc q = k.proc q :=
  setProc_ne k _ h

@[simp] theorem setVma_phys (x : VmaPtr) (v : VmArea) : (k.setVma x v).phys = k.phys := by
  cases x <;> rfl

@[simp] theorem setVma_granted (x : VmaPtr) (v : VmArea) : (k.setVma x v).granted = k.granted := by
  cases x <;> rfl

/-- Writing an area changes no field of a process but `head` and `tail`. -/
theorem setVma_proc (x : VmaPtr) (v : VmArea) (q : Slot) :
    ((k.setVma x v).proc q) = { k.proc q with
      head := ((k.setVma x v).proc q).head, tail := ((k.setVma x v).proc q).tail } := by
  cases x with
  | null => rfl
  | node f => rfl
  | head p =>
    by_cases h : q = p
    · subst h; simp [setVma]
    · simp [setVma, setProc_ne k _ h]
  | tail p =>
    by_cases h : q = p
    · subst h; simp [setVma]
    · simp [setVma, setProc_ne k _ h]

@[simp] theorem setVma_pgdir (x : VmaPtr) (v : VmArea) (q : Slot) :
    ((k.setVma x v).proc q).pgdir = (k.proc q).pgdir := by
  rw [setVma_proc]

@[simp] theorem setVma_ofile (x : VmaPtr) (v : VmArea) (q : Slot) :
    ((k.setVma x v).proc q).ofile = (k.proc q).ofile := by
  rw [setVma_proc]

theorem setVma_setPhys (x : VmaPtr) (v : VmArea) (s : Phys) :
    { k.setVma x v with phys := s } = ({ k with phys := s } : Kernel).setVma x v := by
  cases x <;> rfl

/-- The last of two writes through a pointer counts. -/
theorem setVma_setVma_self (x : VmaPtr) (v w : VmArea) :
    (k.setVma x v).setVma x w = k.setVma x w := by
  cases x <;> simp [setVma, setProc]

/-- Writes to a record and through another pointer commute. -/
theorem setVma_node_comm {f : Frame} (v w : VmArea) (h : x ≠ .node f) :
    (k.setVma x v).setVma (.node f) w = (k.setVma (.node f) w).setVma x v := by
  cases x with
  | node g =>
    have hne : f ≠ g := fun hg => h (by rw [hg])
    simp only [setVma]
    rw [update_comm hne]
  | _ => rfl

@[simp] theorem trans_setVma (x : VmaPtr) (v : VmArea) (q : Slot) (va : Word) :
    (k.setVma x v).trans q va = k.trans q va := by
  unfold trans
  rw [setVma_phys, setVma_pgdir]

@[simp] theorem trans_kill (p q : Slot) (va : Word) : (k.kill p).trans q va = k.trans q va := by
  unfold trans
  by_cases h : q = p
  · subst h; simp
  · rw [kill_phys, kill_ne k h]

/-- One translation a page. -/
theorem trans_congr_page (p : Slot) {va va' : Word} (h : frameOf va = frameOf va') :
    k.trans p va = k.trans p va' :=
  translate_congr_page _ _ h

/-- Reading back what was written through a pointer. -/
theorem deref_setVma_self (v : VmArea) (hx : x ≠ .null) : (k.setVma x v).deref x = .ok v := by
  cases x <;> simp_all [setVma, deref]

/-- A write through one pointer is not seen through another. -/
theorem deref_setVma_ne {y : VmaPtr} (v : VmArea) (h : y ≠ x) :
    (k.setVma x v).deref y = k.deref y := by
  cases x with
  | null => rfl
  | node f =>
    cases y with
    | node g =>
      have hne : g ≠ f := fun hg => h (by rw [hg])
      simp [setVma, deref, hne]
    | _ => rfl
  | head p =>
    cases y with
    | head q =>
      have hne : q ≠ p := fun hg => h (by rw [hg])
      simp [setVma, deref, setProc_ne k _ hne]
    | tail q =>
      by_cases hq : q = p
      · subst hq; simp [setVma, deref]
      · simp [setVma, deref, setProc_ne k _ hq]
    | _ => rfl
  | tail p =>
    cases y with
    | tail q =>
      have hne : q ≠ p := fun hg => h (by rw [hg])
      simp [setVma, deref, setProc_ne k _ hne]
    | head q =>
      by_cases hq : q = p
      · subst hq; simp [setVma, deref]
      · simp [setVma, deref, setProc_ne k _ hq]
    | _ => rfl

@[simp] theorem deref_kill (p : Slot) (x : VmaPtr) : (k.kill p).deref x = k.deref x := by
  cases x with
  | head q =>
    by_cases hq : q = p
    · subst hq; simp [deref]
    · simp [deref, kill_ne k hq]
  | tail q =>
    by_cases hq : q = p
    · subst hq; simp [deref]
    · simp [deref, kill_ne k hq]
  | _ => rfl

/-- A pointer is wild or good. -/
theorem deref_cases (x : VmaPtr) : k.deref x = .wild ∨ ∃ v, k.deref x = .ok v := by
  cases x with
  | null => exact .inl rfl
  | head q => exact .inr ⟨_, rfl⟩
  | tail q => exact .inr ⟨_, rfl⟩
  | node f => exact .inr ⟨_, rfl⟩

end

/-! ### The handler's walk -/

/-- A set of pointers that a walk along `next` cannot leave before it stops. -/
def Closed (k : Kernel) (N : VmaPtr → Prop) : Prop :=
  ∀ x v, N x → k.deref x = .ok v → v.start ≠ MAX_ADDR → v.next = .null ∨ N v.next

/-- What the handler relies on when it walks the list of `p`: the pointers it meets are in
    `N`, and the guard pages there are pages. -/
structure Walk (k : Kernel) (p : Slot) (N : VmaPtr → Prop) : Prop where
  closed : Closed k N
  head : N (.head p)
  guard : ∀ x v, N x → k.deref x = .ok v → v.guardOk

/-- The handler can walk the list of `p`, and the page tables of `p` are in order. -/
structure Ready (own : Frame → Owner) (k : Kernel) (p : Slot) (N : VmaPtr → Prop) : Prop
    extends Walk k p N where
  free : Free own k.phys
  tables : Tables own k.phys.mem (.proc p) (k.proc p).pgdir

/-- Neither depends on the files. -/
theorem Ready.withFile (r : Ready own k p N) (file : Fin NFILE → File) :
    Ready own { k with file := file } p N :=
  ⟨⟨r.closed, r.head, r.guard⟩, r.free, r.tables⟩

/-- The handler meets the guard page of area `v` at the address `va`. -/
structure Hits (v : VmArea) (va : Word) : Prop where
  start : v.start ≠ MAX_ADDR
  flags : v.flags &&& MAP_GROWSUP ≠ 0#32
  le : v.guardstart ≤ va
  ge : va ≤ v.guardstart + PGSIZE - 1

/-- The walk ends with the state as it was, with the process killed, or by growing an area
    it met (and then with whatever that does). -/
theorem pgfltLoop_cases (hN : Closed k N) {n : Nat} {curr : VmaPtr} (hc : N curr)
    (h : pgfltLoop L k p va n curr = r) :
    r = .ok k ∨ r = .ok (k.kill p) ∨ r = .wild ∨ r = .hang
      ∨ ∃ x v, N x ∧ k.deref x = .ok v ∧ Hits v va ∧ r = pgfltGrow L k p x := by
  induction n generalizing curr r with
  | zero => exact .inr (.inr (.inr (.inl h.symm)))
  | succ n ih =>
    unfold pgfltLoop at h
    rcases deref_cases k curr with hd | ⟨c, hd⟩
    · rw [hd] at h
      exact .inr (.inr (.inl h.symm))
    · rw [hd, ok_bind] at h
      by_cases hs : c.start = MAX_ADDR
      · rw [if_pos hs] at h
        exact .inl h.symm
      rw [if_neg hs] at h
      -- the two places where the walk goes on look at the next area first
      have hnext : ∀ r, pgfltLoop L k p va n c.next = r →
          r = .ok k ∨ r = .ok (k.kill p) ∨ r = .wild ∨ r = .hang
            ∨ ∃ x v, N x ∧ k.deref x = .ok v ∧ Hits v va ∧ r = pgfltGrow L k p x := by
        intro r hr
        rcases hN curr c hc hd hs with hnull | hin
        · cases n with
          | zero => exact .inr (.inr (.inr (.inl hr.symm)))
          | succ n =>
            rw [hnull] at hr
            exact .inr (.inr (.inl (by simpa [pgfltLoop, deref] using hr.symm)))
        · subst hr
          exact ih hin rfl
      have hpeek : ∀ r, (k.deref c.next >>= fun next =>
            if va < next.start then pure (k.kill p) else pgfltLoop L k p va n c.next) = r →
          r = .ok k ∨ r = .ok (k.kill p) ∨ r = .wild ∨ r = .hang
            ∨ ∃ x v, N x ∧ k.deref x = .ok v ∧ Hits v va ∧ r = pgfltGrow L k p x := by
        intro r hr
        rcases deref_cases k c.next with hd' | ⟨next, hd'⟩
        · rw [hd'] at hr
          exact .inr (.inr (.inl hr.symm))
        · rw [hd', ok_bind] at hr
          by_cases hlt : va < next.start
          · rw [if_pos hlt] at hr
            exact .inr (.inl hr.symm)
          · rw [if_neg hlt] at hr
            exact hnext r hr
      by_cases hg : c.flags &&& MAP_GROWSUP = 0#32
      · grind
      · rw [if_neg hg] at h
        by_cases hpos : 0#32 < c.guardstart
        · rw [if_pos hpos] at h
          by_cases hin : c.guardstart ≤ va ∧ va ≤ c.guardstart + PGSIZE - 1
          · rw [if_pos hin] at h
            exact .inr (.inr (.inr (.inr ⟨curr, c, hc, hd, ⟨hs, hg, hin.1, hin.2⟩, h.symm⟩)))
          · rw [if_neg hin] at h
            exact hpeek r h
        · rw [if_neg hpos] at h
          exact .inr (.inl h.symm)

/-- The same for the handler as a whole. -/
theorem trapPgflt_cases (hN : Closed k N) (hh : N (.head p)) (h : trapPgflt L k p va = r) :
    r = .ok k ∨ r = .ok (k.kill p) ∨ r = .wild ∨ r = .hang
      ∨ ∃ x v, N x ∧ k.deref x = .ok v ∧ Hits v va ∧ MIN_ADDR ≤ va ∧ va < MAX_ADDR
          ∧ r = pgfltGrow L k p x := by
  unfold trapPgflt at h
  by_cases hr : va < MIN_ADDR ∨ MAX_ADDR ≤ va
  · rw [if_pos hr] at h
    exact .inr (.inl h.symm)
  · rw [if_neg hr] at h
    rw [not_or, BitVec.not_lt, BitVec.not_le] at hr
    rcases pgfltLoop_cases hN hh h with h | h | h | h | ⟨x, v, hx, hd, hh, h⟩
    · exact .inl h
    · exact .inr (.inl h)
    · exact .inr (.inr (.inl h))
    · exact .inr (.inr (.inr (.inl h)))
    · exact .inr (.inr (.inr (.inr ⟨x, v, hx, hd, hh, hr.1, hr.2, h⟩)))

/-! ### Growing -/

/-- A guard page that is hit is the page of the fault address. -/
theorem Hits.page {v : VmArea} (h : Hits v va) (hg : v.guardOk) (hlo : MIN_ADDR ≤ va)
    (hhi : va < MAX_ADDR) :
    v.guardstart.toNat % 4096 = 0 ∧ frameOf v.guardstart = frameOf va
      ∧ MIN_ADDR.toNat ≤ v.guardstart.toNat ∧ v.guardstart.toNat < MAX_ADDR.toNat := by
  have h1 : v.guardstart.toNat ≤ va.toNat := h.le
  have h2 : va.toNat ≤ (v.guardstart + PGSIZE - 1).toNat := h.ge
  have h3 : MIN_ADDR.toNat ≤ va.toNat := hlo
  have h4 : va.toNat < MAX_ADDR.toNat := hhi
  have hmin : MIN_ADDR.toNat = 0x60000000 := rfl
  have hsize := toNat_PGSIZE
  have hone : (1 : Word).toNat = 1 := rfl
  rw [BitVec.toNat_sub, BitVec.toNat_add, hsize, hone] at h2
  have hal : v.guardstart.toNat % 4096 = 0 := by
    rcases hg with hg | hg | hg
    · exact hg
    · omega
    · omega
  refine ⟨hal, ?_, by omega, by omega⟩
  apply BitVec.eq_of_toNat_eq
  rw [toNat_frameOf, toNat_frameOf]
  omega

variable {x : VmaPtr} {c : VmArea}

section

variable (hf : Free own k.phys) (ht : Tables own k.phys.mem (.proc p) (k.proc p).pgdir)
variable (hx : k.deref x = .ok c) (hg : c.guardstart.toNat % 4096 = 0)
include hf ht hx hg

/-- What growing an area does: it panics for want of a frame, or because the guard page is
    there; it maps the guard page and looks at the next area; or there is no memory for the page
    table. -/
theorem grow_cases :
    k.phys.freelist = [] ∧ pgfltGrow L k p x = .panic .kalloc
      ∨ k.trans p c.guardstart ≠ none ∧ pgfltGrow L k p x = .panic .remap
      ∨ (∃ f own' s', NewPage own k.phys (.proc p) (k.proc p).pgdir c.guardstart f (fun _ => 0)
            (c.prot ||| PTE_U) own' s'
          ∧ pgfltGrow L k p x = k.deref c.next >>= fun next => pure
              ((({ k with phys := s' } : Kernel).grant p c.guardstart (some f)).setVma x
                (c.growsUp next)))
      ∨ ∃ f s, k.phys.freelist = [f] ∧ pte? k.phys (k.proc p).pgdir c.guardstart = none
          ∧ (∀ s', kfree L s (P2V (base f)) = .ok s' →
            NoPage own k.phys (.proc p) (k.proc p).pgdir c.guardstart f s')
          ∧ pgfltGrow L k p x = kfree L s (P2V (base f)) >>= fun s' => pure
              (({ k with phys := s' } : Kernel).kill p) := by
  unfold pgfltGrow
  rw [hx, ok_bind]
  cases hk : kalloc k.phys with
  | mk r s1 =>
  cases r with
  | none => exact .inl ⟨(kalloc_none hk).1, rfl⟩
  | some f =>
    simp only [mappagesV2P, V2P_P2V, memset_eq_setFrame]
    rcases newPage_cases (fun _ => 0) (c.prot ||| PTE_U) hf ht hg hk with
      ⟨hpres, hm⟩ | ⟨own', s', w, hm⟩ | ⟨honly, hpte, hno, hm⟩
    · exact .inr (.inl ⟨hpres, by rw [hm]; rfl⟩)
    · refine .inr (.inr (.inl ⟨f, own', s', w, ?_⟩))
      rw [hm, ok_bind, if_pos rfl]
      refine congrArg (· >>= _) ?_
      cases c.next <;> rfl
    · refine .inr (.inr (.inr ⟨f, s1.setFrame f fun _ => 0, honly, hpte, fun s' => hno L s', ?_⟩))
      rw [hm, ok_bind]
      simp only [Bool.false_eq_true, if_false]

/-- Growing that returns. -/
theorem grow_ok (h : pgfltGrow L k p x = .ok k') :
    (∃ f own' s' next, NewPage own k.phys (.proc p) (k.proc p).pgdir c.guardstart f (fun _ => 0)
          (c.prot ||| PTE_U) own' s'
          ∧ k.deref c.next = .ok next
          ∧ k' = (({ k with phys := s' } : Kernel).grant p c.guardstart (some f)).setVma x
              (c.growsUp next))
      ∨ ∃ f s', NoPage own k.phys (.proc p) (k.proc p).pgdir c.guardstart f s'
          ∧ k' = ({ k with phys := s' } : Kernel).kill p := by
  rcases grow_cases (L := L) hf ht hx hg with
    ⟨-, he⟩ | ⟨-, he⟩ | ⟨f, own', s', w, he⟩ | ⟨f, s, -, -, hno, he⟩
  · cases he.symm.trans h
  · cases he.symm.trans h
  · obtain ⟨next, hn, heq⟩ := bind_eq_ok.mp (he.symm.trans h)
    cases heq
    exact .inl ⟨f, own', s', next, w, hn, rfl⟩
  · obtain ⟨s', hs', heq⟩ := bind_eq_ok.mp (he.symm.trans h)
    cases heq
    exact .inr ⟨f, s', hno s' hs', rfl⟩

/-- Growing panics with "remap" only if the guard page is already mapped. -/
theorem grow_remap (h : pgfltGrow L k p x = .panic .remap) : k.trans p c.guardstart ≠ none := by
  rcases grow_cases (L := L) hf ht hx hg with
    ⟨-, he⟩ | ⟨hpres, -⟩ | ⟨f, own', s', w, he⟩ | ⟨f, s, -, -, -, he⟩
  · cases he.symm.trans h
  · exact hpres
  · rcases deref_cases k c.next with hn | ⟨next, hn⟩ <;> rw [hn] at he <;> cases he.symm.trans h
  · rcases kfree_cases L s (P2V (base f)) with ⟨s', hs⟩ | hs <;> rw [hs] at he <;>
      cases he.symm.trans h

end

/-! ### Faults of the kernel itself -/

/-- Only the entries matter. -/
theorem trans_phys_eq {s' : Phys}
    (h : ∀ va', pte? s' (k.proc p).pgdir va' = pte? k.phys (k.proc p).pgdir va') (va : Word) :
    ({ k with phys := s' } : Kernel).trans p va = k.trans p va := by
  simp only [trans, translate, h]

/-- The handler changes nothing at `va` if the page is present, or if there is neither a
    page table for it nor memory for one. -/
theorem trapPgflt_trans (r : Ready own k p N) (hva : k.trans p va ≠ none
      ∨ (pte? k.phys (k.proc p).pgdir va = none ∧ k.phys.freelist.length ≤ 1))
    (h : trapPgflt L k p va = .ok k') : k'.trans p va = k.trans p va := by
  rcases trapPgflt_cases r.closed r.head h
    with hr | hr | hr | hr | ⟨x, v, hx, hd, hhit, hlo, hhi, hr⟩
  · cases hr; rfl
  · cases hr; exact trans_kill _ _ _ _
  · cases hr
  · cases hr
  · obtain ⟨hal, hpage, -⟩ := hhit.page (r.guard x v hx hd) hlo hhi
    rcases grow_ok r.free r.tables hd hal hr.symm with ⟨f, own', s', next, w, -⟩ | ⟨f, s', w, rfl⟩
    · exfalso
      rcases hva with hva | ⟨hpte, hlen⟩
      · -- the guard page is present, so it cannot have been mapped
        rw [← trans_congr_page k p hpage] at hva
        exact hva w.before
      · obtain ⟨h1, h2⟩ := (PDX_PTX_eq_iff _ _).mpr hpage
        have htable := w.table
        rw [pte?_eq_leaf, h1, h2, ← pte?_eq_leaf] at htable
        exact htable.elim (absurd hpte) (by omega)
    · rw [trans_kill]
      exact trans_phys_eq w.after va

/-- If the kernel cannot write to `va`, either because the page is read-only or because
    there is neither a page table for it nor memory for one, the handler does not change
    that. -/
theorem kernelFault_not_ok (r : Ready own k p N) (hw : k.writable p va = false)
    (hva : k.trans p va ≠ none
      ∨ (pte? k.phys (k.proc p).pgdir va = none ∧ k.phys.freelist.length ≤ 1)) :
    kernelFault L k p va (·.writable p va) ≠ .ok k' := by
  intro h
  obtain ⟨k1, hk1, h⟩ := bind_eq_ok.mp h
  have htr := trapPgflt_trans r hva hk1
  have hw1 : k1.writable p va = false := by
    rw [← hw]
    unfold writable
    rw [htr]
  rw [if_neg (by simp [hw1])] at h
  cases h

/-! ### Copying to user memory -/

/-- Byte of a frame at the address `va` of its page. -/
def frameByte (x : Idx → Word) (va : Word) : Byte := getByte (x (byteIdx va).1) (byteIdx va).2

/-- A frame with that byte replaced. -/
def putFrame (x : Idx → Word) (va : Word) (b : Byte) : Idx → Word :=
  Function.update x (byteIdx va).1 (setByte (x (byteIdx va).1) (byteIdx va).2 b)

theorem putByte_eq_setFrame (s : Phys) (pte va : Word) (b : Byte) :
    putByte s pte va b = s.setFrame (frameOf pte) (putFrame (s.mem (frameOf pte)) va b) := rfl

/-- The index is the offset in the page. -/
theorem byteIdx_eq_iff (va va' : Word) :
    (byteIdx va').1 = (byteIdx va).1 ∧ (byteIdx va').2 = (byteIdx va).2
      ↔ va'.toNat % 4096 = va.toNat % 4096 := by
  unfold byteIdx
  rw [← BitVec.toNat_inj, ← BitVec.toNat_inj]
  simp only [BitVec.toNat_setWidth, BitVec.toNat_ushiftRight, Nat.shiftRight_eq_div_pow]
  omega

/-- One byte changes. -/
theorem frameByte_putFrame (x : Idx → Word) (va va' : Word) (b : Byte) :
    frameByte (putFrame x va b) va'
      = if va'.toNat % 4096 = va.toNat % 4096 then b else frameByte x va' := by
  unfold frameByte putFrame
  by_cases hword : (byteIdx va').1 = (byteIdx va).1
  · -- the same word
    rw [hword, update_self, getByte_setByte]
    by_cases hbyte : (byteIdx va').2 = (byteIdx va).2
    · rw [if_pos hbyte, if_pos ((byteIdx_eq_iff va va').mp ⟨hword, hbyte⟩)]
    · rw [if_neg hbyte, if_neg fun h => hbyte ((byteIdx_eq_iff va va').mpr h).2]
  · rw [update_of_ne hword, if_neg fun h => hword ((byteIdx_eq_iff va va').mpr h).1]

/-- The bit `PTE_W` of the entry. -/
theorem writable_of_trans (h : k.trans p va = some pte) :
    k.writable p va = true ↔ pte &&& PTE_W ≠ 0#32 := by
  unfold writable
  rw [h]
  simp

/-- Frame `y` is frame `x` after `bytes` were copied there, from `va` on. -/
def Copied (x : Idx → Word) (va : Word) (bytes : List Byte) (y : Idx → Word) : Prop :=
  ∀ va' : Word, frameByte y va'
    = if va.toNat % 4096 ≤ va'.toNat % 4096 ∧ va'.toNat % 4096 < va.toNat % 4096 + bytes.length
      then bytes.getD (va'.toNat % 4096 - va.toNat % 4096) 0 else frameByte x va'

theorem Copied.nil (x : Idx → Word) (va : Word) : Copied x va [] x := by
  intro va'
  rw [if_neg (by simp only [List.length_nil]; omega)]

/-- One byte is stored, and then those after it. -/
theorem Copied.cons {x y : Idx → Word} (va1 : Word) {b : Byte} {bs : List Byte}
    (h1 : bs ≠ [] → va1.toNat % 4096 = va.toNat % 4096 + 1)
    (h : Copied (putFrame x va b) va1 bs y) : Copied x va (b :: bs) y := by
  intro va'
  rw [h va', frameByte_putFrame, List.length_cons]
  by_cases hnil : bs = []
  · grind
  · rw [h1 hnil]
    by_cases hva : va'.toNat % 4096 = va.toNat % 4096
    · rw [if_neg (by omega), if_pos hva, if_pos (by omega), hva, Nat.sub_self]
      rfl
    · by_cases hin : va.toNat % 4096 + 1 ≤ va'.toNat % 4096
          ∧ va'.toNat % 4096 < va.toNat % 4096 + 1 + bs.length
      · rw [if_pos hin, if_pos (by omega),
          show va'.toNat % 4096 - va.toNat % 4096 = va'.toNat % 4096 - (va.toNat % 4096 + 1) + 1 by
            omega]
        rfl
      · rw [if_neg hin, if_neg hva, if_neg (by omega)]

/-- A copy that stays within one writable page of the process changes that page's frame
    only. -/
theorem storeBytes_writable (ht : Tables own k.phys.mem (.proc p) (k.proc p).pgdir)
    (hw : pte &&& PTE_W ≠ 0#32) (hd : own (frameOf pte) ≠ .dir (.proc p))
    (htab : ∀ i, own (frameOf pte) ≠ .table (.proc p) i) (hva : k.trans p va = some pte)
    (hlen : va.toNat % 4096 + bytes.length ≤ 4096) :
    ∃ x, storeBytes L p k va bytes = .ok { k with phys := k.phys.setFrame (frameOf pte) x }
      ∧ Copied (k.phys.mem (frameOf pte)) va bytes x := by
  induction bytes generalizing k va with
  | nil =>
    refine ⟨k.phys.mem (frameOf pte), ?_, .nil _ va⟩
    simp [storeBytes, Phys.setFrame]
  | cons b bs ih =>
    have hstep : k.storeByte L p va b = .ok { k with
        phys := k.phys.setFrame (frameOf pte) (putFrame (k.phys.mem (frameOf pte)) va b) } := by
      unfold storeByte
      rw [if_pos ((writable_of_trans hva).mpr hw)]
      simp only [ok_bind, hva, putByte_eq_setFrame]
      rfl
    rw [storeBytes, hstep, ok_bind]
    cases bs with
    | nil => exact ⟨_, rfl, Copied.cons va (fun h => absurd rfl h) (.nil _ va)⟩
    | cons b' bs =>
      -- the next byte is still in the page, which is still mapped
      rw [List.length_cons, List.length_cons] at hlen
      have hone : (va + 1).toNat = va.toNat + 1 := by grind [va.isLt]
      have hpage : frameOf (va + 1) = frameOf va := by
        apply BitVec.eq_of_toNat_eq
        rw [toNat_frameOf, toNat_frameOf, hone]
        omega
      obtain ⟨x, hx⟩ : ∃ x, x = putFrame (k.phys.mem (frameOf pte)) va b := ⟨_, rfl⟩
      rw [← hx]
      have ht' := Rooted.setFrame ht hd htab x
      have hva' : trans { k with phys := k.phys.setFrame (frameOf pte) x } p (va + 1)
          = some pte := by
        rw [← hva]
        calc translate (k.phys.setFrame (frameOf pte) x) (k.proc p).pgdir (va + 1)
            = translate k.phys (k.proc p).pgdir (va + 1) := translate_setFrame ht hd htab x _
          _ = translate k.phys (k.proc p).pgdir va := translate_congr_page _ _ hpage
      obtain ⟨y, hy, hcopy⟩ := ih ht' hva' (by rw [hone, List.length_cons]; omega)
      refine ⟨y, ?_, ?_⟩
      · rw [hy]
        simp [Phys.setFrame]
      · apply Copied.cons (va + 1) (fun _ => by omega)
        rw [← hx, ← setFrame_mem_self k.phys (frameOf pte) x]
        exact hcopy

/-- A copy to a page the kernel cannot write to starts with a fault. -/
theorem storeBytes_fault (hne : bytes ≠ []) (hw : k.writable p va = false) :
    ∃ g : Kernel → Res Kernel,
      storeBytes L p k va bytes = kernelFault L k p va (·.writable p va) >>= g := by
  cases bytes with
  | nil => exact absurd rfl hne
  | cons b bs =>
    have hif : ¬ k.writable p va = true := by simp [hw]
    rw [storeBytes, storeByte, if_neg hif, bind_assoc]
    exact ⟨_, rfl⟩

/-- A store by the kernel, after the page fault it may take. -/
theorem storeByte_cases {b : Byte} (h : k.storeByte L p va b = .ok k') :
    ∃ k1 pte, (k1 = k ∨ trapPgflt L k p va = .ok k1) ∧
      k' = { k1 with phys := putByte k1.phys pte va b } := by
  unfold storeByte at h
  split at h
  · simp only [ok_bind] at h
    split at h
    · cases h
    · cases h
      exact ⟨k, _, .inl rfl, rfl⟩
  · obtain ⟨k1, hfault, h⟩ := bind_eq_ok.mp h
    obtain ⟨k2, htrap, hallowed⟩ := bind_eq_ok.mp hfault
    simp only at h
    split at h
    · cases h
    · cases h
      split at hallowed
      · cases hallowed
        exact ⟨k1, _, .inr htrap, rfl⟩
      · cases hallowed

end Kernel

end Xv6
