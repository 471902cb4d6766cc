import Xv6.WriteBack
import Xv6.Search
import Xv6.Lib.Traced

namespace Xv6.Kernel

open BitVec Function List Outcome

/-!
# Mappings and sequential I/O

`mmap` loads a file and `munmap` writes it back with `fileread` and `filewrite`, which move
the offset that all descriptors of the file share.

* `mmapLoad_file` — after a page is loaded the offset is that of one page read from the start;
* `sysReadTraced` — `sys_read` with the bytes it stores in the buffer on record;
* `Io.run` — what reads and writes return, and what reads store, from the files alone;
* `io_unaffected` — two runs with the same reads and writes have the same results, whatever
  such calls of `mmap` and `munmap` they have in between.
-/

variable {L : Link} {k k' k1 : Kernel} {p : Slot} {va : Word} {fi : Fin NFILE}
variable {bytes : List Byte} {fd i flags prot length addr : Word} {vma : Frame} {r : Int}

/-! ### Files are not touched by faults -/

/-- The file table, the files and the descriptors are the same. -/
structure SameIo (k k' : Kernel) : Prop where
  file : k'.file = k.file
  inode : k'.inode = k.inode
  ofile : ∀ q, (k'.proc q).ofile = (k.proc q).ofile

namespace SameIo

theorem refl (k : Kernel) : SameIo k k := ⟨rfl, rfl, fun _ => rfl⟩

theorem trans (h : SameIo k k1) (h' : SameIo k1 k') : SameIo k k' :=
  ⟨h'.file.trans h.file, h'.inode.trans h.inode, fun q => (h'.ofile q).trans (h.ofile q)⟩

theorem ofileAt (h : SameIo k k') (p : Slot) (fd : Word) : k'.ofileAt p fd = k.ofileAt p fd := by
  unfold Kernel.ofileAt
  rw [h.ofile p]

theorem setVma (k : Kernel) (x : VmaPtr) (v : VmArea) : SameIo k (k.setVma x v) := by
  refine ⟨?_, ?_, fun q => setVma_ofile k x v q⟩
  · cases x <;> rfl
  · cases x <;> rfl

theorem phys (k : Kernel) (s : Phys) : SameIo k { k with phys := s } := ⟨rfl, rfl, fun _ => rfl⟩

theorem kill (k : Kernel) (p : Slot) : SameIo k (k.kill p) := by
  refine ⟨rfl, rfl, fun q => ?_⟩
  by_cases hq : q = p
  · subst hq
    simp [Kernel.kill, setProc]
  · simp [Kernel.kill, setProc, hq]

theorem grant (k : Kernel) (p : Slot) (va : Word) (f : Option Frame) : SameIo k (k.grant p va f) :=
  ⟨rfl, rfl, fun _ => rfl⟩

end SameIo

/-- A guard page maps memory only. -/
theorem pgfltGrow_sameIo {x : VmaPtr} (h : pgfltGrow L k p x = .ok k') : SameIo k k' := by
  obtain ⟨c, -, h⟩ := bind_eq_ok.mp h
  split at h
  · cases h
  obtain ⟨⟨mapped, s1⟩, -, h⟩ := bind_eq_ok.mp h
  cases mapped with
  | true =>
    obtain ⟨next, -, h⟩ := bind_eq_ok.mp h
    cases h
    exact ((SameIo.phys k s1).trans (.grant ..)).trans (.setVma ..)
  | false =>
    obtain ⟨s2, -, h⟩ := bind_eq_ok.mp h
    cases h
    exact (SameIo.phys k s2).trans (.kill ..)

/-- A page fault too. -/
theorem trapPgflt_sameIo (h : trapPgflt L k p va = .ok k') : SameIo k k' := by
  -- every pointer may be followed here: nothing is known about the list
  rcases trapPgflt_cases (N := fun _ => True) (fun _ _ _ _ _ => .inr trivial) trivial h with
    h | h | h | h | ⟨x, v, -, -, -, -, -, h⟩
  · cases h
    exact .refl _
  · cases h
    exact .kill k p
  · cases h
  · cases h
  · exact pgfltGrow_sameIo h.symm

/-- One store. -/
theorem storeByte_sameIo {b : Byte} (h : k.storeByte L p va b = .ok k') : SameIo k k' := by
  obtain ⟨k1, pte, hk1, rfl⟩ := storeByte_cases h
  rcases hk1 with rfl | htrap
  · exact .phys ..
  · exact (trapPgflt_sameIo htrap).trans (.phys ..)

/-- Many. -/
theorem storeBytes_sameIo (h : storeBytes L p k va bytes = .ok k') : SameIo k k' := by
  induction bytes generalizing k va with
  | nil =>
    cases h
    exact .refl _
  | cons b bs ih =>
    obtain ⟨k1, hone, h⟩ := bind_eq_ok.mp h
    exact (storeByte_sameIo hone).trans (ih h)

/-! ### Loading pages -/

/-- The offset after a page has been read from the start of the file. -/
def loadedOff (k : Kernel) (fi : Fin NFILE) : Word :=
  if (k.file fi).readable then BitVec.ofNat 32 ((k.inode (k.file fi).ip).take 4096).length else 0

/-- Loading a page of a regular file moves its offset and nothing else. -/
theorem mmapLoad_file (hfd : k.ofileAt p fd = .file fi) (htype : (k.file fi).type = .FD_INODE)
    (h : k.mmapLoad L p fd i = .ok k') :
    SameIo (k.setFile fi { k.file fi with off := loadedOff k fi }) k' := by
  have hread : ∀ c, readi c 0 PGSIZE = some (c.take 4096) := by
    intro c
    unfold readi
    rw [if_neg (by simp [PGSIZE])]
    rfl
  unfold mmapLoad at h
  simp only [hfd] at h
  obtain ⟨⟨r, k1⟩, hfile, h⟩ := bind_eq_ok.mp h
  cases h
  unfold fileread at hfile
  simp only [setFile, update_self, htype, hread] at hfile
  by_cases hr : (k.file fi).readable = true
  · simp only [hr, Bool.not_true, Bool.false_eq_true, if_false] at hfile
    obtain ⟨k2, hstore, hfile⟩ := bind_eq_ok.mp hfile
    have hs := storeBytes_sameIo hstore
    cases hfile
    refine ⟨?_, hs.inode, hs.ofile⟩
    show update k2.file fi _ = _
    rw [hs.file]
    simp [setFile, loadedOff, hr, htype]
  · simp only [hr, Bool.not_false, if_true] at hfile
    cases hfile
    refine ⟨?_, rfl, fun _ => rfl⟩
    simp [setFile, loadedOff, hr, htype]

/-- A call of `mmap` that will find the offset of the file where it leaves it. -/
def QuietMmap (k : Kernel) (p : Slot) (flags fd : Word) : Prop :=
  flags &&& MAP_ANON ≠ 0#32
    ∨ ∃ fi, k.ofileAt p fd = .file fi ∧ (k.file fi).type = .FD_INODE
      ∧ (k.file fi).off = loadedOff k fi

theorem QuietMmap.sameIo (h : QuietMmap k p flags fd) (hs : SameIo k k') :
    QuietMmap k' p flags fd := by
  refine h.imp id (fun ⟨fi, hfd, htype, hoff⟩ => ⟨fi, ?_, ?_, ?_⟩)
  · rw [hs.ofileAt, hfd]
  · rw [hs.file, htype]
  · unfold loadedOff
    rw [hs.file, hs.inode]
    exact hoff

/-- Without a file no I/O. -/
theorem mmapPage_sameIo {start : Word} (hq : QuietMmap k p flags fd)
    (h : k.mmapPage L p vma start prot flags fd i = .ok k') :
    SameIo k k' := by
  unfold mmapPage at h
  split at h
  · cases h
  rename_i pa s hk
  obtain ⟨⟨mapped, s1⟩, -, h⟩ := bind_eq_ok.mp h
  obtain ⟨k1, hmapped, h⟩ := bind_eq_ok.mp h
  have hpa : ∀ k0 : Kernel, SameIo k0
      (if i = start then k0.setVma (.node vma) { k0.vma vma with pa := P2V (base pa) }
        else k0) := by
    intro k0
    split
    · exact .setVma ..
    · exact .refl k0
  have hfirst : SameIo k k1 := by
    unfold mmapMapped at hmapped
    split at hmapped
    · cases hmapped
      exact (((SameIo.phys k _).trans (hpa _)).trans (.phys ..)).trans (.grant ..)
    · obtain ⟨s2, -, hmapped⟩ := bind_eq_ok.mp hmapped
      cases hmapped
      exact ((((SameIo.phys k _).trans (hpa _)).trans (.phys ..)).trans (.phys ..)).trans (.kill ..)
  split at h
  · rename_i hanon
    rcases hq.sameIo hfirst with hq | ⟨fi, hfd, htype, hoff⟩
    · exact absurd hanon hq
    · refine hfirst.trans ?_
      have hload := mmapLoad_file hfd htype h
      rw [← hoff] at hload
      simpa [setFile] using hload
  · cases h
    exact hfirst

/-- Over all pages. -/
theorem mmapPages_sameIo {start end_ : Word} {n : Nat} (hq : QuietMmap k p flags fd)
    (h : mmapPages L p vma start end_ prot flags fd n k i = .ok k') : SameIo k k' := by
  induction n generalizing k i with
  | zero => cases h
  | succ n ih =>
    unfold mmapPages at h
    split at h
    · obtain ⟨k1, hpage, h⟩ := bind_eq_ok.mp h
      have hone := mmapPage_sameIo hq hpage
      exact hone.trans (ih (hq.sameIo hone) h)
    · cases h
      exact .refl _

theorem createVma_sameIo {prev next : VmaPtr} {start len : Word}
    (h : k.createVma p prev next start len prot flags fd = .ok (vma, k')) : SameIo k k' := by
  unfold createVma at h
  split at h
  · cases h
  obtain ⟨n, -, h⟩ := bind_eq_ok.mp h
  obtain ⟨pr, -, h⟩ := bind_eq_ok.mp h
  cases h
  exact ((SameIo.phys k _).trans (.setVma ..)).trans (.setVma ..)

theorem mmapUnguard_sameIo {prev curr : VmaPtr} (h : k.mmapUnguard prev curr = .ok k') :
    SameIo k k' := by
  obtain ⟨pr, -, h⟩ := bind_eq_ok.mp h
  obtain ⟨c, -, h⟩ := bind_eq_ok.mp h
  split at h
  · cases h
    exact .setVma ..
  · cases h
    exact .refl _

theorem mmapGuard_sameIo {start r : Word} (h : k.mmapGuard vma start flags = .ok (r, k')) :
    SameIo k k' := by
  unfold mmapGuard at h
  split at h
  · obtain ⟨n, -, h⟩ := bind_eq_ok.mp h
    split at h
    · cases h
      exact .setVma ..
    · cases h
      exact .refl _
  · cases h
    exact .refl _

/-- The whole placement. -/
theorem mmapPlace_sameIo {prev curr : VmaPtr} {start r : Word} {fixed : Bool}
    (hq : QuietMmap k p flags fd)
    (h : k.mmapPlace L p prev curr start length prot flags fd fixed = .ok (r, k')) :
    SameIo k k' := by
  obtain ⟨c, -, h⟩ := bind_eq_ok.mp h
  obtain ⟨⟨vma, k1⟩, hcreate, h⟩ := bind_eq_ok.mp h
  obtain ⟨k2, hpages, h⟩ := bind_eq_ok.mp h
  obtain ⟨k3, hunguard, hguard⟩ := bind_eq_ok.mp h
  have h1 : SameIo k k1 := (SameIo.setVma ..).trans (createVma_sameIo hcreate)
  have hhead : SameIo k (if fixed = true ∧ (k1.vma vma).start = MIN_ADDR then
      k1.setVma (.head p) (k1.vma vma) else k1) := by
    split
    · exact h1.trans (.setVma ..)
    · exact h1
  have h2 := hhead.trans (mmapPages_sameIo (hq.sameIo hhead) hpages)
  exact (h2.trans (mmapUnguard_sameIo hunguard)).trans (mmapGuard_sameIo hguard)

/-- Such a call does not change files. -/
theorem sysMmap_sameIo {r : Word} (hq : QuietMmap k p flags fd)
    (h : sysMmap L k p addr length prot flags fd = .ok (r, k')) : SameIo k k' := by
  rw [sysMmap_eq] at h
  obtain ⟨pl, -, h⟩ := bind_eq_ok.mp h
  cases pl with
  | none =>
    cases h
    exact .refl _
  | some pl => exact mmapPlace_sameIo hq h

/-! ### Writing back -/

/-- A call of `munmap` that writes nothing back, or that will find the file's offset where it
    leaves it and writes what is in the file already. -/
def QuietMunmap (k : Kernel) (p : Slot) (addr : Word) : Prop :=
  ∀ vm, k.munmapFind addr loopBound (k.proc p).head = .ok (some vm) →
    ¬ (vm.flags &&& MAP_ANON = 0#32 ∧ vm.flags &&& MAP_PRIVATE = 0#32)
      ∨ ∃ fi, vm.f = .file fi ∧ (k.file fi).type = .FD_INODE
        ∧ ((k.file fi).writable = false ∧ (k.file fi).off = 0#32
          ∨ (k.file fi).writable = true
            ∧ (k.file fi).off = BitVec.ofNat 32 (written vm.len.toInt.toNat)
            ∧ ∃ m, Holds k p addr m ∧ vm.len.toInt.toNat ≤ m.length
              ∧ m.take (written vm.len.toInt.toNat)
                = (k.inode (k.file fi).ip).take (written vm.len.toInt.toNat))

/-- Nothing is written back. -/
theorem sysMunmap_sameIo {r : Word} (hq : QuietMunmap k p addr)
    (h : sysMunmap L k p addr length = .ok (r, k')) : SameIo k k' := by
  unfold sysMunmap at h
  split at h
  · cases h
    exact .refl _
  obtain ⟨o, hfind, h⟩ := bind_eq_ok.mp h
  cases o with
  | none =>
    cases h
    exact .refl _
  | some vm =>
    obtain ⟨k1, hback, h⟩ := bind_eq_ok.mp h
    obtain ⟨-, -, h⟩ := bind_eq_ok.mp h
    cases h
    rcases hq vm hfind with hno | ⟨fi, hfile, htype, hcase⟩
    · -- an area that is not written back
      unfold munmapWriteBack at hback
      rw [if_neg hno] at hback
      cases hback
      exact .refl _
    by_cases hshared : vm.flags &&& MAP_ANON = 0#32 ∧ vm.flags &&& MAP_PRIVATE = 0#32
    swap
    · unfold munmapWriteBack at hback
      rw [if_neg hshared] at hback
      cases hback
      exact .refl _
    rcases hcase with ⟨hw, hoff⟩ | ⟨hw, hoff, m, hm, hlen, hsame⟩
    · -- a file that cannot be written
      unfold munmapWriteBack at hback
      rw [if_pos hshared] at hback
      simp only [hfile] at hback
      obtain ⟨⟨r1, k2⟩, hwrite, hback⟩ := bind_eq_ok.mp hback
      cases hback
      have hk0 : k.setFile fi { k.file fi with off := 0 } = k := by
        have hoff' : (0 : Word) = (k.file fi).off := hoff.symm
        rw [hoff']
        simp [setFile]
      rw [hk0] at hwrite
      unfold filewrite at hwrite
      simp only [hw, Bool.not_false, if_true] at hwrite
      cases hwrite
      exact .refl _
    · have hs : SharedFile k vm fi := ⟨hshared.1, hshared.2, hfile, htype, hw⟩
      rw [← munmapFind_start hfind] at hm
      rw [munmapWriteBack_holds hs hm hlen, hsame, take_append_drop, ← hoff,
        setContents_self] at hback
      cases hback
      exact .refl _

/-! ### Reads and writes -/

/-- `argptr`: `size` bytes at `addr` lie below the size of the process. -/
def argptr (k : Kernel) (p : Slot) (addr size : Word) : Bool :=
  !(size.toInt < 0 || (k.proc p).sz ≤ addr || (k.proc p).sz < addr + size)

/-- `sys_read`. -/
def sysRead (L : Link) (k : Kernel) (p : Slot) (fd addr n : Word) : Res (Int × Kernel) :=
  match k.ofileAt p fd with
  | .file fi => if k.argptr p addr n then k.fileread L p fi addr n else .ok (-1, k)
  | _ => .ok (-1, k)

/-- `storeBytes`, with every byte that was stored on record. -/
def storeBytesTraced (L : Link) (p : Slot) : Kernel → Word → List Byte → Traced Byte Panic Kernel
  | k, _, [] => pure k
  | k, va, b :: bs => do
    let k ← .lift (k.storeByte L p va b)
    .record b
    storeBytesTraced L p k (va + 1) bs

/-- `fileread`, with the bytes that it stores for a regular file on record. -/
def filereadTraced (L : Link) (k : Kernel) (p : Slot) (i : Fin NFILE) (addr n : Word) :
    Traced Byte Panic (Int × Kernel) :=
  let f := k.file i
  if !f.readable then pure (-1, k)
  else
    match f.type with
    | .FD_PIPE => .lift (k.piperead L p f.pipe addr n.toNat)
    | .FD_INODE =>
      match readi (k.inode f.ip) f.off n with
      | none => pure (-1, k)
      | some bytes => do
        let k ← storeBytesTraced L p k addr bytes
        pure (bytes.length,
          k.setFile i { k.file i with off := f.off + BitVec.ofNat 32 bytes.length })
    | .FD_NONE => .lift (.panic .fileread)

/-- `sys_read`, with these bytes on record. -/
def sysReadTraced (L : Link) (k : Kernel) (p : Slot) (fd addr n : Word) :
    Traced Byte Panic (Int × Kernel) :=
  match k.ofileAt p fd with
  | .file fi => if k.argptr p addr n then k.filereadTraced L p fi addr n else pure (-1, k)
  | _ => pure (-1, k)

/-- The record changes nothing. -/
theorem storeBytesTraced_out : (storeBytesTraced L p k va bytes).out
    = storeBytes L p k va bytes := by
  induction bytes generalizing k va with
  | nil => rfl
  | cons b bs ih =>
    rw [storeBytesTraced, storeBytes]
    simp only [Traced.bind_out, Traced.lift_out, Traced.record_out, ok_bind, ih]

/-- When all is stored, all is on record. -/
theorem storeBytesTraced_log (h : storeBytes L p k va bytes = .ok k') :
    (storeBytesTraced L p k va bytes).log = bytes := by
  induction bytes generalizing k va with
  | nil => rfl
  | cons b bs ih =>
    obtain ⟨k1, hone, h⟩ := bind_eq_ok.mp h
    have hrest := ih h
    rw [storeBytesTraced]
    simp only [Traced.bind_log, Traced.lift_log, Traced.lift_out, hone, Traced.after_ok,
      Traced.record_log, Traced.record_out, hrest, nil_append, singleton_append]

/-- Without the record it is `fileread`. -/
theorem filereadTraced_out {n : Word} :
    (k.filereadTraced L p fi addr n).out = k.fileread L p fi addr n := by
  unfold filereadTraced fileread
  simp only
  split
  · rfl
  · cases (k.file fi).type with
    | FD_INODE =>
      cases readi (k.inode (k.file fi).ip) (k.file fi).off n with
      | none => rfl
      | some bytes =>
        simp only [Traced.bind_out, storeBytesTraced_out]
        rfl
    | FD_PIPE | FD_NONE => rfl

/-- Without the record it is `sys_read`. -/
theorem sysReadTraced_out {n : Word} :
    (k.sysReadTraced L p fd addr n).out = k.sysRead L p fd addr n := by
  unfold sysReadTraced sysRead
  split
  · split
    · exact filereadTraced_out
    · rfl
  · rfl

/-- `sys_write`. -/
def sysWrite (L : Link) (k : Kernel) (p : Slot) (fd addr n : Word) : Res (Int × Kernel) :=
  match k.ofileAt p fd with
  | .file fi => if k.argptr p addr n then k.filewrite L p fi addr n.toInt else .ok (-1, k)
  | _ => .ok (-1, k)

/-- The files of the kernel. -/
structure Io where
  file : Fin NFILE → File
  inode : Nat → List Byte

/-- The files of a state. -/
def io (k : Kernel) : Io := ⟨k.file, k.inode⟩

theorem SameIo.io (h : SameIo k k') : k'.io = k.io := by
  rw [Kernel.io, Kernel.io, h.file, h.inode]

/-- A `read` of `n` bytes, or a `write`, on an entry of the file table. -/
inductive IoOp where
  | read (fi : Fin NFILE) (n : Word)
  | write (fi : Fin NFILE) (bytes : List Byte)

/-- What such a call gives: the number it returns and, for a `read`, the bytes that it stores in the
    buffer. -/
inductive IoRes where
  | read (r : Int) (bytes : List Byte)
  | write (r : Int)

namespace Io

/-- The bytes `fileread` copies to the buffer, none if it returns -1. -/
def readBytes (s : Io) (fi : Fin NFILE) (n : Word) : Option (List Byte) :=
  if (s.file fi).readable then readi (s.inode (s.file fi).ip) (s.file fi).off n else none

/-- Entry `fi` has a new offset, and its file new contents. -/
def set (s : Io) (fi : Fin NFILE) (c : List Byte) (off : Word) : Io :=
  { inode := Function.update s.inode (s.file fi).ip c
    file := Function.update s.file fi { s.file fi with off := off } }

/-- One call on a regular file. -/
def step (s : Io) : IoOp → IoRes × Io
  | .read fi n =>
    match s.readBytes fi n with
    | none => (.read (-1) [], s)
    | some bytes => (.read bytes.length bytes, { s with
        file := Function.update s.file fi
          { s.file fi with off := (s.file fi).off + BitVec.ofNat 32 bytes.length } })
  | .write fi bytes =>
    if (s.file fi).writable then
      let w := writeAll (s.inode (s.file fi).ip) (s.file fi).off bytes
      (.write (if w.1 then bytes.length else -1), s.set fi w.2.1 w.2.2)
    else (.write (-1), s)

/-- Calls one after another. -/
def run (s : Io) : List IoOp → List IoRes × Io
  | [] => ([], s)
  | op :: ops => ((s.step op).1 :: ((s.step op).2.run ops).1, ((s.step op).2.run ops).2)

end Io

/-- A `read`: what it returns and stores. -/
theorem fileread_io {n : Word} (htype : (k.file fi).type = .FD_INODE)
    (h : k.fileread L p fi addr n = .ok (r, k')) :
    k.io.step (.read fi n) = (.read r (k.filereadTraced L p fi addr n).log, k'.io) := by
  unfold fileread at h
  unfold filereadTraced Io.step Io.readBytes
  simp only [htype, io] at h ⊢
  by_cases hr : (k.file fi).readable = true
  · simp only [hr, Bool.not_true, Bool.false_eq_true, if_false, if_true] at h ⊢
    cases hread : readi (k.inode (k.file fi).ip) (k.file fi).off n with
    | none =>
      simp only [hread] at h
      cases h
      rfl
    | some bytes =>
      simp only [hread] at h
      obtain ⟨k1, hstore, h⟩ := bind_eq_ok.mp h
      have hs := storeBytes_sameIo hstore
      cases h
      have hlog := storeBytesTraced_log hstore
      have hfile : k1.file = k.file := hs.file
      simp [storeBytesTraced_out, hstore, hlog, setFile, hfile, hs.inode, htype, hr]
  · simp only [hr, Bool.not_false, if_true] at h ⊢
    cases h
    rfl

/-- A `write` of the bytes in the buffer. -/
theorem filewrite_io {n : Int} (htype : (k.file fi).type = .FD_INODE) (hm : Holds k p addr bytes)
    (hn : (bytes.length : Int) = n) (hlt : n < 2147483648)
    (h : k.filewrite L p fi addr n = .ok (r, k')) :
    k.io.step (.write fi bytes) = (.write r, k'.io) := by
  by_cases hw : (k.file fi).writable = true
  · rw [filewrite_holds htype hw hm (by omega) hlt] at h
    cases h
    have hpos : 0 ≤ n := by omega
    refine (if_pos hw).trans ?_
    simp only [hn, hpos, and_true]
    rfl
  · have hw' := hw
    unfold filewrite at h
    simp only [hw', Bool.not_false, if_true] at h
    cases h
    exact if_neg hw

/-! ### Runs -/

/-- A run of calls on regular files, with what its reads and writes are and give.  The calls of
    `mmap` and `munmap` are quiet; besides, anything may happen that does not change files. -/
inductive IoRun (L : Link) : Kernel → List (IoOp × IoRes) → Kernel → Prop
  | done (k : Kernel) : IoRun L k [] k
  | other {k k1 k' : Kernel} {t : List (IoOp × IoRes)} :
    SameIo k k1 → IoRun L k1 t k' → IoRun L k t k'
  | read {k k1 k' : Kernel} {t : List (IoOp × IoRes)} {p : Slot} {fd addr n : Word} {fi : Fin NFILE}
      {r : Int} :
    k.ofileAt p fd = .file fi → (k.file fi).type = .FD_INODE → k.argptr p addr n = true →
    k.sysRead L p fd addr n = .ok (r, k1) → IoRun L k1 t k' →
    IoRun L k ((.read fi n, .read r (k.sysReadTraced L p fd addr n).log) :: t) k'
  | write {k k1 k' : Kernel} {t : List (IoOp × IoRes)} {p : Slot} {fd addr n : Word}
      {fi : Fin NFILE}
      {r : Int} {bytes : List Byte} :
    k.ofileAt p fd = .file fi → (k.file fi).type = .FD_INODE → k.argptr p addr n = true →
    Holds k p addr bytes → bytes.length = n.toNat →
    k.sysWrite L p fd addr n = .ok (r, k1) → IoRun L k1 t k' →
    IoRun L k ((.write fi bytes, .write r) :: t) k'
  | mmap {k k1 k' : Kernel} {t : List (IoOp × IoRes)} {p : Slot}
      {addr length prot flags fd r : Word} :
    QuietMmap k p flags fd → k.sysMmap L p addr length prot flags fd = .ok (r, k1) →
    IoRun L k1 t k' → IoRun L k t k'
  | munmap {k k1 k' : Kernel} {t : List (IoOp × IoRes)} {p : Slot} {addr length r : Word} :
    QuietMunmap k p addr → k.sysMunmap L p addr length = .ok (r, k1) →
    IoRun L k1 t k' → IoRun L k t k'

/-- Reads and writes give what they give on the files alone. -/
theorem IoRun.eq_run {t : List (IoOp × IoRes)} (h : IoRun L k t k') :
    k.io.run (t.map Prod.fst) = (t.map Prod.snd, k'.io) := by
  induction h with
  | done k => rfl
  | other hs _ ih => rw [← hs.io, ih]
  | mmap hq hcall _ ih => rw [← (sysMmap_sameIo hq hcall).io, ih]
  | munmap hq hcall _ ih => rw [← (sysMunmap_sameIo hq hcall).io, ih]
  | @read k k1 k' t p fd addr n fi r hfd htype hptr hcall _ ih =>
    unfold sysRead at hcall
    simp only [hfd, hptr, if_true] at hcall
    have hlog : k.sysReadTraced L p fd addr n = k.filereadTraced L p fi addr n := by
      simp only [sysReadTraced, hfd, hptr, if_true]
    rw [map_cons, map_cons, Io.run, fileread_io htype hcall, ih, hlog]
  | @write k k1 k' t p fd addr n fi r bytes hfd htype hptr hm hlen hcall _ ih =>
    unfold sysWrite at hcall
    simp only [hfd, hptr, if_true] at hcall
    have hpos : 0 ≤ n.toInt := by
      simp only [argptr, Bool.not_eq_true', Bool.or_eq_false_iff, decide_eq_false_iff_not] at hptr
      omega
    have hn : (bytes.length : Int) = n.toInt := by
      rw [hlen]
      rw [toInt_eq_toNat_cond] at hpos ⊢
      split at hpos
      · rw [if_pos ‹_›]
      · omega
    have hlt : n.toInt < 2147483648 := by
      rw [toInt_eq_toNat_cond]
      split <;> omega
    have hio := filewrite_io htype hm hn hlt hcall
    rw [map_cons, map_cons, Io.run, hio, ih]

/-- Two runs with the same reads and writes on the same files: all of them give the same, and
    the files are the same afterwards, offsets included. -/
theorem io_unaffected {k0 k0' kA kB : Kernel} {A B : List (IoOp × IoRes)}
    (hA : IoRun L k0 A kA) (hB : IoRun L k0' B kB) (hio : k0'.io = k0.io)
    (hops : A.map Prod.fst = B.map Prod.fst) :
    A.map Prod.snd = B.map Prod.snd ∧ kA.io = kB.io := by
  have h := hB.eq_run
  rw [hio, ← hops, hA.eq_run] at h
  exact ⟨congrArg Prod.fst h, congrArg Prod.snd h⟩

/-- The process writes the first of the four bytes of its file, and reads the others.  If it maps
    the file then, where the offset is the size, the next `read` gives the same, and the files are
    the same. -/
theorem io_unaffected_readWrite : ∃ k1 k2 a k3 r kA r' kB,
    (start 16).sysWrite startLink 0 0 0x1000 1 = .ok (1, k1)
      ∧ k1.sysRead startLink 0 0 0x1000 4 = .ok (3, k2)
      ∧ k2.sysMmap startLink 0 0 4096 3 1 0 = .ok (a, k3)
      ∧ k3.sysRead startLink 0 0 0x1000 4 = .ok (r, kA)
      ∧ k2.sysRead startLink 0 0 0x1000 4 = .ok (r', kB)
      ∧ r = r' ∧ kA.io = kB.io := by
  obtain ⟨⟨w, k1⟩, hwrite, h⟩ := Outcome.holds_iff.mp (show
    ((start 16).sysWrite startLink 0 0 0x1000 1).holds (fun w => w.1 = 1
      ∧ w.2.ofileAt 0 0 = .file 0 ∧ (w.2.file 0).type = .FD_INODE ∧ w.2.argptr 0 0x1000 4
      ∧ (w.2.sysRead startLink 0 0 0x1000 4).holds fun x => x.1 = 3
        ∧ x.2.ofileAt 0 0 = .file 0 ∧ (x.2.file 0).type = .FD_INODE ∧ x.2.argptr 0 0x1000 4
        ∧ (x.2.file 0).off = loadedOff x.2 0
        ∧ (x.2.sysRead startLink 0 0 0x1000 4).holds (fun _ => true)
        ∧ (x.2.sysMmap startLink 0 0 4096 3 1 0).holds fun y => y.2.ofileAt 0 0 = .file 0
          ∧ (y.2.file 0).type = .FD_INODE ∧ y.2.argptr 0 0x1000 4
          ∧ (y.2.sysRead startLink 0 0 0x1000 4).holds (fun _ => true)) = true by decide +kernel)
  obtain ⟨rfl, hfd1, htype1, hptr1, h⟩ := of_decide_eq_true h
  obtain ⟨⟨x, k2⟩, hread, h⟩ := Outcome.holds_iff.mp h
  obtain ⟨rfl, hfd2, htype2, hptr2, hoff, hB, h⟩ := of_decide_eq_true h
  obtain ⟨⟨r', kB⟩, hB, -⟩ := Outcome.holds_iff.mp hB
  obtain ⟨⟨a, k3⟩, hmmap, h⟩ := Outcome.holds_iff.mp h
  obtain ⟨hfd3, htype3, hptr3, hA⟩ := of_decide_eq_true h
  obtain ⟨⟨r, kA⟩, hA, -⟩ := Outcome.holds_iff.mp hA
  -- the byte that is written
  have hbyte : userByte (start 16) 0 0x1000 = some 1 := by decide +kernel
  have hholds : Holds (start 16) 0 0x1000 [1] := by
    intro j hj
    obtain rfl : j = 0 := by simpa using hj
    exact hbyte
  have hfd0 : (start 16).ofileAt 0 0 = .file 0 := by decide +kernel
  have hptr0 : (start 16).argptr 0 0x1000 1 = true := by decide +kernel
  have hq : QuietMmap k2 0 1 0 := .inr ⟨0, hfd2, htype2, hoff⟩
  have hrunA := IoRun.write hfd0 rfl hptr0 hholds rfl hwrite (.read hfd1 htype1 hptr1 hread
    (.mmap hq hmmap (.read hfd3 htype3 hptr3 hA (.done kA))))
  have hrunB := IoRun.write hfd0 rfl hptr0 hholds rfl hwrite (.read hfd1 htype1 hptr1 hread
    (.read hfd2 htype2 hptr2 hB (.done kB)))
  obtain ⟨hres, hio⟩ := io_unaffected hrunA hrunB rfl rfl
  simp only [map_cons, cons.injEq, IoRes.read.injEq] at hres
  exact ⟨k1, k2, a, k3, r, kA, r', kB, hwrite, hread, hmmap, hA, hB, hres.2.2.1.1, hio⟩

/-- At the start of the file: after `mmap` the next `read` of four bytes returns 0, and without it
    4. -/
theorem io_affected : ∃ a k k1 k2,
    (start 16).sysMmap startLink 0 0 4096 3 1 0 = .ok (a, k)
      ∧ ((start 16).file 0).off = 0 ∧ (k.file 0).off = 4
      ∧ k.sysRead startLink 0 0 0x1000 4 = .ok (0, k1)
      ∧ (start 16).sysRead startLink 0 0 0x1000 4 = .ok (4, k2) := by
  obtain ⟨⟨a, k⟩, hk, htest⟩ := Outcome.holds_iff.mp (show
    ((start 16).sysMmap startLink 0 0 4096 3 1 0).holds (fun x => (x.2.file 0).off = 4 ∧
      (x.2.sysRead startLink 0 0 0x1000 4).holds fun y => y.1 = 0) = true by decide +kernel)
  obtain ⟨hoff, hread⟩ := of_decide_eq_true htest
  obtain ⟨⟨r1, k1⟩, h1, hr1⟩ := Outcome.holds_iff.mp hread
  obtain ⟨⟨r2, k2⟩, h2, hr2⟩ := Outcome.holds_iff.mp (show
    ((start 16).sysRead startLink 0 0 0x1000 4).holds (fun y => y.1 = 4) = true by decide +kernel)
  obtain rfl : r1 = 0 := of_decide_eq_true hr1
  obtain rfl : r2 = 4 := of_decide_eq_true hr2
  exact ⟨a, k, k1, k2, hk, rfl, hoff, h1, h2⟩

end Xv6.Kernel
