import Xv6.Translation

namespace Xv6.Kernel

open List Outcome

/-!
# What a process finds in a mapped file

The loop of `sys_mmap` sets the offset of the file to 0 for every page and reads a page from there.

* `userByte` — what a process finds at an address;
* `mmapLoad_loaded`, `mmapPage_loaded`, `mmapPages_loaded` — one load, one round, the whole loop:
  every page has the first bytes of the file, and zeros after them;
* `sysMmap_loaded` — the same for a call that returns an address;
* `mapped_file_iff` — when this is what the file has from the offset on.
-/

variable {L : Link} {own own' : Frame → Owner} {k k' k1 : Kernel} {p : Slot} {N : VmaPtr → Prop}
  {fd prot flags start i : Word} {fi : Fin NFILE} {c : List Byte} {vma : Frame}
variable {va pte perm length : Word} {n : Frame}

/-- What process `p` finds at address `va`. -/
def userByte (k : Kernel) (p : Slot) (va : Word) : Option Byte :=
  (k.trans p va).map fun pte => frameByte (k.phys.mem (frameOf pte)) va

/-- Descriptor `fd` of `p` is for a file with contents `c` and was opened for reading. -/
structure Opened (k : Kernel) (p : Slot) (fd : Word) (fi : Fin NFILE) (c : List Byte) : Prop where
  ofile : k.ofileAt p fd = .file fi
  type : (k.file fi).type = .FD_INODE
  readable : (k.file fi).readable = true
  contents : k.inode (k.file fi).ip = c

/-- Byte `n` of a file, 0 beyond its end. -/
def fileOr0 (c : List Byte) (n : Nat) : Byte := c.getD n 0

/-! ### One page -/

/-- The load of a page reads from the start of the file. -/
theorem mmapLoad_inode (ho : Opened k p fd fi c) (i : Word) :
    ∃ g : Kernel → Kernel, (∀ k1, g k1 = { k1 with file := (g k1).file }) ∧ mmapLoad L k p fd i
      = storeBytes L p (k.setFile fi { k.file fi with off := 0 }) i (c.take 4096)
        >>= fun k1 => pure (g k1) := by
  have hread : readi c 0 PGSIZE = some (c.take 4096) := by
    unfold readi
    rw [if_neg (by simp [PGSIZE])]
    rfl
  refine ⟨fun k1 => k1.setFile fi { k1.file fi with
    off := 0 + BitVec.ofNat 32 (c.take 4096).length }, fun _ => rfl, ?_⟩
  unfold mmapLoad fileread
  simp only [ho.ofile, setFile, Function.update_self, ho.readable, ho.type, ho.contents, hread,
    Bool.not_true, Bool.false_eq_true, if_false, bind_assoc, pure_bind]

theorem frameByte_zero (va : Word) : frameByte (fun _ => 0) va = 0 := by
  unfold frameByte getByte
  simp

/-- A blank page after the load. -/
theorem mmapLoad_loaded (ho : Opened k p fd fi c) (r : Ready own k p N) (hi : i.toNat % 4096 = 0)
    (hload : Loadable own k p i) (halive : (k.proc p).killed = false)
    (h : mmapLoad L k p fd i = .ok k') (hva : frameOf va = frameOf i) :
    userByte k' p va = some (fileOr0 c (va.toNat % 4096)) := by
  obtain ⟨pte, hpte, ⟨n, hown⟩, hblank⟩ := hload.resolve_right fun hk => by simp [halive] at hk
  obtain ⟨g, hg, heq⟩ := mmapLoad_inode (L := L) ho i
  rw [heq] at h
  obtain ⟨k2, hstore, h⟩ := bind_eq_ok.mp h
  cases h
  have htr (va : Word) (hva : frameOf va = frameOf i) : k.trans p va = some pte := by
    rw [trans_congr_page k p hva, hpte]
  have hmod : va.toNat % 4096 < 4096 := Nat.mod_lt _ (by decide)
  have hlen : (c.take 4096).length ≤ 4096 := length_take_le ..
  rcases storeBytes_loadable (L := L) (k := k.setFile fi { k.file fi with off := 0 })
    (r.withFile _) hi
    hload hlen with
    ⟨hnil, he⟩ | ⟨pte', x, hpte', hcopy, he⟩ | ⟨hw, g', he⟩
  · -- an empty file leaves the page as it was
    have hc : c = [] := by
      rcases take_eq_nil_iff.mp hnil with h0 | h0
      · cases h0
      · exact h0
    cases he.symm.trans hstore
    rw [hg, hc]
    show (k.trans p va).map _ = _
    rw [htr va hva, Option.map_some]
    show some (frameByte (k.phys.mem (frameOf pte)) va) = _
    rw [hblank, frameByte_zero]
    rfl
  · cases hpte.symm.trans hpte'
    cases he.symm.trans hstore
    rw [hg]
    show (translate (k.phys.setFrame (frameOf pte) x) (k.proc p).pgdir va).map _ = _
    rw [translate_setFrame r.tables (by simp [hown]) (by simp [hown]) x va,
      show translate k.phys (k.proc p).pgdir va = some pte from htr va hva, Option.map_some]
    show some (frameByte ((k.phys.setFrame (frameOf pte) x).mem (frameOf pte)) va) = _
    rw [setFrame_mem_self, hcopy va, hi, Nat.sub_zero]
    congr 1
    unfold fileOr0
    split
    · rw [getD_eq_getElem?_getD, getD_eq_getElem?_getD, getElem?_take, if_pos hmod]
    · rename_i hout
      rw [length_take] at hout
      show frameByte (k.phys.mem (frameOf pte)) va = _
      rw [hblank, frameByte_zero, getD_eq_default _ _ (by omega)]
  · obtain ⟨k3, hk3, -⟩ := bind_eq_ok.mp (he.symm.trans hstore)
    exact absurd hk3 (kernelFault_not_ok (r.withFile _) hw hload.unresolved)

/-! ### The loop -/

/-- The file stays open while pages are mapped. -/
theorem Opened.paged {lo hi : Nat} (ho : Opened k p fd fi c)
    (w : Paged own k p vma start lo hi perm own' k') : Opened k' p fd fi c := by
  obtain ⟨b, hproc⟩ := w.proc
  have hfile := w.files fi
  have hofile : k'.ofileAt p fd = k.ofileAt p fd := by
    unfold ofileAt
    rw [hproc, Function.update_self]
  have hinode : k'.inode = k.inode := by rw [w.rest]
  refine ⟨hofile.trans ho.ofile, ?_, ?_, ?_⟩
  · rw [hfile]
    exact ho.type
  · rw [hfile]
    exact ho.readable
  · rw [hinode, hfile]
    exact ho.contents

/-- What is in a page of the process does not change while others are mapped. -/
theorem Paged.userByte_eq {lo hi : Nat} (w : Paged own k p vma start lo hi perm own' k')
    (hout : ¬(lo ≤ va.toNat ∧ va.toNat < hi)) (hpte : k.trans p va = some pte)
    (hown : own (frameOf pte) = .page (.proc p) n) :
    userByte k' p va = userByte k p va := by
  unfold userByte
  rw [(w.outside va hout).1, hpte, Option.map_some, Option.map_some,
    w.data (frameOf pte) (by rw [hown]; simp [Owner.inTables])]

/-- One round of the loop, if there is memory for the page table. -/
theorem mmapPage_loaded (ho : Opened k p fd fi c) (r : Ready own k p N) (hi : i.toNat % 4096 = 0)
    (hs : start.toNat % 4096 = 0) (hprot : prot.toNat < 4096) (hfile : flags &&& MAP_ANON = 0#32)
    (h : mmapPage L k p vma start prot flags fd i = .ok k') (halive : (k'.proc p).killed = false)
    (hva : frameOf va = frameOf i) :
    userByte k' p va = some (fileOr0 c (va.toNat % 4096)) := by
  rcases mmapPage_cases L vma prot flags fd r.free r.tables hi hs with
    he | he | ⟨-, he⟩ | ⟨own', k3, w, hload, he⟩
  · cases he.symm.trans h
  · cases he.symm.trans h
  · cases he.symm.trans h
  rw [he, if_pos hfile] at h
  have halive3 : (k3.proc p).killed = false := by
    obtain ⟨s4, hk', -⟩ := mmapLoad_ok (w.ready r) hi (hload hprot) h
    rwa [hk'] at halive
  exact mmapLoad_loaded (ho.paged w) (w.ready r) hi (hload hprot) halive3 h hva

/-- The whole loop: every page has the start of the file. -/
theorem mmapPages_loaded {end_ : Word} {n : Nat} (ho : Opened k p fd fi c)
    (r : Ready own k p N) (hkern : k.trans p KERNBASE ≠ none) (hi : i.toNat % 4096 = 0)
    (hle : i.toNat ≤ KERNBASE.toNat)
    (hs : start.toNat % 4096 = 0) (hend : (end_.toNat + 1) % 4096 = 0) (hprot : prot.toNat < 4096)
    (hfile : flags &&& MAP_ANON = 0#32)
    (h : mmapPages L p vma start end_ prot flags fd n k i = .ok k')
    (halive : (k'.proc p).killed = false) (hlo : i.toNat ≤ va.toNat) (hhi : va.toNat ≤ end_.toNat)
    (hlt : i < end_) :
    userByte k' p va = some (fileOr0 c (va.toNat % 4096)) := by
  -- by induction on the rounds left: what this round has loaded stays in the later ones
  induction n generalizing own k i with
  | zero => cases h
  | succ n ih =>
    unfold mmapPages at h
    rw [if_pos hlt] at h
    obtain ⟨k1, hpage, h⟩ := bind_eq_ok.mp h
    obtain ⟨own1, w⟩ := mmapPage_ok r hi hs (.inr hprot) hpage
    obtain ⟨hnext, hle', hkern'⟩ := w.next hkern hi hle
    obtain ⟨⟨own2, w'⟩, -⟩ :=
      mmapPages_ok (w.ready r) hkern' (by omega) (by omega) hs hend (.inr hprot) h
    have halive1 : (k1.proc p).killed = false := by
      by_contra hk
      rw [w'.killed (by simpa using hk)] at halive
      cases halive
    by_cases hin : va.toNat < i.toNat + 4096
    · rcases (w.inside va hlo hin).2 with ⟨hk, -⟩ | ⟨f, -, hown, htr, -⟩
      · rw [halive1] at hk
        cases hk
      · rw [w'.userByte_eq (by rw [hnext]; omega) htr (by rw [frameOf_pte hprot]; exact hown)]
        exact mmapPage_loaded ho r hi hs hprot hfile hpage halive1
          ((frameOf_eq_iff hi va).mpr ⟨hlo, hin⟩)
    · have hlt' : i + PGSIZE < end_ := by
        show (i + PGSIZE).toNat < end_.toNat
        omega
      exact ih (ho.paged w) (w.ready r) hkern' (by omega) (by omega) h (by omega) hlt'

/-! ### The call -/

/-- The file is open in the state in which its pages are mapped. -/
theorem Opened.placed {s : Phys} {curr : VmaPtr} {v0 v : VmArea} {fixed : Bool}
    (ho : Opened k p fd fi c) : Opened (k.placed p s curr v0 vma v length fixed) p fd fi c := by
  have hofile : (k.placed p s curr v0 vma v length fixed).ofileAt p fd = k.ofileAt p fd := by
    unfold ofileAt
    rw [placed_proc]
  have hfile : (k.placed p s curr v0 vma v length fixed).file = k.file := by rw [placed_rest]
  have hinode : (k.placed p s curr v0 vma v length fixed).inode = k.inode := by rw [placed_rest]
  refine ⟨hofile.trans ho.ofile, ?_, ?_, ?_⟩
  · rw [hfile]
    exact ho.type
  · rw [hfile]
    exact ho.readable
  · rw [hinode, hfile]
    exact ho.contents

/-- What follows the loop changes records of areas only. -/
theorem mmapGuard_rest {r : Word} (h : k.mmapGuard vma start flags = .ok (r, k')) :
    k'.phys = k.phys ∧ k'.proc = k.proc := by
  unfold mmapGuard at h
  split at h
  · obtain ⟨n, -, h⟩ := bind_eq_ok.mp h
    split at h <;> cases h <;> exact ⟨rfl, rfl⟩
  · cases h
    exact ⟨rfl, rfl⟩

/-- After a call that returns an address, every page there has the start of the file. -/
theorem sysMmap_loaded {addr a : Word} (hI : Intact own k p) (ho : Opened k p fd fi c)
    (hprot : prot.toNat < 4096) (hfile : flags &&& MAP_ANON = 0#32) (hlen : 0 < length.toInt)
    (h : sysMmap L k p addr length prot flags fd = .ok (a, k')) (ha : a ≠ -1)
    (halive : (k'.proc p).killed = false) :
    a.toNat % 4096 = 0 ∧ a.toNat + length.toNat ≤ KERNBASE.toNat
      ∧ ∀ va : Word, a.toNat ≤ va.toNat → va.toNat < a.toNat + length.toNat →
        userByte k' p va = some (fileOr0 c (va.toNat % 4096)) := by
  rcases sysMmap_cases hI.lists h with
    ⟨hr, -⟩ | ⟨prev, x, v0, start, fixed, hx, hprev, hd, hs, hal, hle, h⟩
  · exact absurd hr ha
  obtain ⟨hr, -⟩ := mmapPlace_ok hI.free hI.tables hI.kern hI.lists hx hprev hd hs hal hle
    (.inr hprot) h
  obtain rfl : a = start := by
    rcases hr with hr | hr
    · exact hr
    · exact absurd hr.1 ha
  obtain ⟨vma, s, nx, v, e⟩ :=
    mmapPlace_entry hI.free hI.tables hI.kern hI.lists.walk hx hx hd hs (.inl h)
  have hend : v.end_ = PGROUNDUP (a + length) - 1 := by
    rw [e.new]
    rfl
  rw [mmapPlace_eq e.taken (hx.ne_node e.fresh) hd e.next, ← e.new] at h
  obtain ⟨k5, hpages, h⟩ := bind_eq_ok.mp h
  obtain ⟨k6, hun, hguard⟩ := bind_eq_ok.mp h
  obtain ⟨-, hbelow⟩ := mmapPages_ok e.ready e.kern hal hle hal e.end_aligned (.inr hprot) hpages
  rw [hend] at hbelow
  obtain ⟨hlt, hkern, hlong⟩ := newEnd hal hle hlen hbelow
  have hu := mmapUnguard_ok hun
  obtain ⟨hphys, hproc⟩ := mmapGuard_rest hguard
  have halive5 : (k5.proc p).killed = false := by
    rw [← hu.killed p, ← hproc]
    exact halive
  refine ⟨hal, by omega, fun va hlo hhi => ?_⟩
  have hbyte : userByte k' p va = userByte k5 p va := by
    unfold userByte Kernel.trans
    rw [hphys, hproc, hu.phys, hu.pgdir]
  rw [hbyte]
  rw [← hend] at hlt hlong
  exact mmapPages_loaded ho.placed e.ready e.kern hal hle hal e.end_aligned hprot hfile hpages
    halive5 hlo (by omega) hlt

/-- **What a process finds in a mapped file.**  After a call of `mmap` for a file that returns an
    address, what is there is what the file has from `offset` on exactly if this is what the file
    has at its start, again and again for every page.  (The offset is not used.) -/
theorem mapped_file_iff {addr length a : Word} (hI : Intact own k p) (ho : Opened k p fd fi c)
    (hprot : prot.toNat < 4096) (hfile : flags &&& MAP_ANON = 0#32) (hlen : 0 < length.toInt)
    (h : sysMmap L k p addr length prot flags fd = .ok (a, k')) (ha : a ≠ -1)
    (halive : (k'.proc p).killed = false) (offset : Word) :
    (∀ j, j < length.toNat →
        userByte k' p (a + BitVec.ofNat 32 j) = some (fileOr0 c (offset.toNat + j)))
      ↔ ∀ j, j < length.toNat → fileOr0 c (j % 4096) = fileOr0 c (offset.toNat + j) := by
  obtain ⟨hal, hend, hloaded⟩ := sysMmap_loaded hI ho hprot hfile hlen h ha halive
  refine forall_congr' fun j => imp_congr_right fun hj => ?_
  have hva : (a + BitVec.ofNat 32 j).toNat = a.toNat + j := by
    rw [BitVec.toNat_add, BitVec.toNat_ofNat]
    omega
  rw [hloaded _ (by omega) (by omega), hva, show (a.toNat + j) % 4096 = j % 4096 by omega,
    Option.some.injEq]

/-- A process that has opened a file of two bytes. -/
def twoBytes : Kernel := { Kernel.start 16 with inode := fun _ => [1, 2] }

theorem twoBytes_intact : Intact (startOwn 16) twoBytes 0 := by
  have h := (start_execed (by decide) : Execed (startOwn 16) (Kernel.start 16) 0).intact
  have hd : ∀ x, twoBytes.deref x = (Kernel.start 16).deref x := by
    intro x
    cases x <;> rfl
  refine ⟨h.free, h.tables, h.pages, h.kern, ⟨fun x v hx hv => ?_, fun x v hx hv => ?_⟩,
    fun x v hx hv => ?_, h.size⟩
  · exact h.lists.guard x v hx (by rw [← hd, hv])
  · exact h.lists.area x v hx (by rw [← hd, hv])
  · exact h.low x v hx (by rw [← hd, hv])

theorem twoBytes_opened : Opened twoBytes 0 0 0 [1, 2] := ⟨rfl, rfl, rfl, rfl⟩

/-- The file is mapped from its start. -/
theorem mapped_file_start : ∃ a k', sysMmap startLink twoBytes 0 0 2 3 0x1 0 = .ok (a, k')
    ∧ ∀ j, j < 2 → userByte k' 0 (a + BitVec.ofNat 32 j) = some (fileOr0 [1, 2] (0 + j)) := by
  have hrun : (sysMmap startLink twoBytes 0 0 2 3 0x1 0).holds (fun r =>
      decide (r.1 ≠ -1 ∧ (r.2.proc 0).killed = false)) = true := by decide +kernel
  obtain ⟨⟨a, k'⟩, hok, htest⟩ := Outcome.holds_iff.mp hrun
  obtain ⟨ha, halive⟩ := of_decide_eq_true htest
  have hiff := mapped_file_iff twoBytes_intact twoBytes_opened (by decide) (by decide)
    (by decide) hok ha halive 0
  have htwo : (2 : Word).toNat = 2 := rfl
  refine ⟨a, k', hok, hiff.mpr fun j hj => ?_⟩
  rw [Nat.mod_eq_of_lt (by omega)]
  exact congrArg _ (Nat.zero_add j).symm

/-- With offset 1, the process finds the first byte of the file and not the second. -/
theorem mapped_file_offset : Intact (startOwn 16) twoBytes 0 ∧ Opened twoBytes 0 0 0 [1, 2]
    ∧ ∃ a k', sysMmap startLink twoBytes 0 0 1 3 0x1 0 = .ok (a, k') ∧ a ≠ -1
      ∧ (k'.proc 0).killed = false ∧ userByte k' 0 a = some 1 ∧ fileOr0 [1, 2] (1 + 0) = 2 := by
  have hrun : (sysMmap startLink twoBytes 0 0 1 3 0x1 0).holds (fun r =>
      decide (r.1 ≠ -1 ∧ (r.2.proc 0).killed = false)) = true := by decide +kernel
  obtain ⟨⟨a, k'⟩, hok, htest⟩ := Outcome.holds_iff.mp hrun
  obtain ⟨ha, halive⟩ := of_decide_eq_true htest
  obtain ⟨hal, -, hloaded⟩ := sysMmap_loaded twoBytes_intact twoBytes_opened (by decide) (by decide)
    (by decide) hok ha halive
  have hone : (1 : Word).toNat = 1 := rfl
  have hbyte := hloaded a le_rfl (by omega)
  rw [hal] at hbyte
  exact ⟨twoBytes_intact, twoBytes_opened, a, k', hok, ha, halive, hbyte, rfl⟩

end Xv6.Kernel
