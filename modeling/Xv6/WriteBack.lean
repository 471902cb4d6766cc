import Xv6.FileMap
import Xv6.Unmap

namespace Xv6

open List Outcome

/-!
# Writing a mapped file back

`munmap` of a shared area sets the offset of the file to 0 and calls `filewrite` with the
area's `len`, which `create_vma` computes as `end - start`: the area without its last byte.

* `writeAll` — what `filewrite` does to the contents and the offset of a file;
* `writeAll_start` — from offset 0 on: the bytes replace the first ones of the file, as many
  as fit in the largest file a chunk at a time;
* `filewrite_holds` — that is what `filewrite` does, for bytes in present pages;
* `writeBack_iff` — when the file has the bytes of the area and the right size afterwards.
-/

/-! ### The file -/

/-- `filewrite` of `bytes` on contents `c` from offset `off` on, 1536 bytes a time: whether all
    is written, the contents and the offset. -/
def writeAll (c : List Byte) (off : Word) (bytes : List Byte) : Bool × List Byte × Word :=
  if bytes = [] then (true, c, off)
  else
    match writei c off (bytes.take 1536) with
    | none => (false, c, off)
    | some c' =>
      writeAll c' (off + BitVec.ofNat 32 (bytes.take 1536).length) (bytes.drop 1536)
termination_by bytes.length
decreasing_by
  rename_i h
  have := List.length_pos_iff.mpr h
  simp only [List.length_drop]
  omega

/-- How many of `n` bytes are written from the start of a file on. -/
def written (n : Nat) : Nat := if n ≤ MAXFILESIZE then n else MAXFILESIZE / 1536 * 1536

theorem written_le (n : Nat) : written n ≤ n := by
  unfold written
  split <;> omega

/-- A chunk right after the bytes `pre` already written. -/
theorem writei_after (pre c b : List Byte) (hb : b.length ≤ 1536)
    (hpre : pre.length ≤ MAXFILESIZE) :
    writei (pre ++ c.drop pre.length) (BitVec.ofNat 32 pre.length) b
      = if pre.length + b.length ≤ MAXFILESIZE
        then some (pre ++ b ++ c.drop (pre.length + b.length)) else none := by
  have hmax : MAXFILESIZE = 71680 := rfl
  have hoff : (BitVec.ofNat 32 pre.length).toNat = pre.length := by
    rw [BitVec.toNat_ofNat]
    omega
  have hwrap : ¬ BitVec.ofNat 32 pre.length + BitVec.ofNat 32 b.length
      < BitVec.ofNat 32 pre.length := by
    rw [BitVec.lt_def, BitVec.toNat_add, hoff, BitVec.toNat_ofNat]
    omega
  unfold writei
  rw [hoff, length_append]
  by_cases hfit : pre.length + b.length ≤ MAXFILESIZE
  · simp_all
  · rw [if_neg hfit, if_pos]
    exact .inr (.inr (by omega))

/-- With the bytes `pre` written, a number of whole chunks, the others follow. -/
theorem writeAll_after (bytes pre c : List Byte) (hpre : pre.length % 1536 = 0)
    (hmax : pre.length ≤ MAXFILESIZE) :
    writeAll (pre ++ c.drop pre.length) (BitVec.ofNat 32 pre.length) bytes
      = (decide (pre.length + bytes.length ≤ MAXFILESIZE),
        (pre ++ bytes).take (written (pre.length + bytes.length))
          ++ c.drop (written (pre.length + bytes.length)),
        BitVec.ofNat 32 (written (pre.length + bytes.length))) := by
  -- by induction on the bytes left, a chunk at a time
  induction hn : bytes.length using Nat.strong_induction_on generalizing bytes pre with
  | _ n ih =>
    subst hn
    unfold writeAll
    by_cases hnil : bytes = []
    · subst hnil
      rw [if_pos rfl]
      simp [written, hmax]
    · rw [if_neg hnil, writei_after pre c _ (length_take_le ..) hmax]
      have hlen : (bytes.take 1536).length = min 1536 bytes.length := length_take
      by_cases hfit : pre.length + (bytes.take 1536).length ≤ MAXFILESIZE
      · simp only [if_pos hfit, ← BitVec.ofNat_add]
        by_cases hlast : bytes.length ≤ 1536
        · -- the last chunk
          rw [take_of_length_le hlast, drop_eq_nil_of_le hlast] at *
          have hw : written (pre.length + bytes.length) = pre.length + bytes.length := if_pos hfit
          rw [writeAll, if_pos rfl, hw, decide_eq_true hfit, take_of_length_le (by simp)]
        · have hchunk : (bytes.take 1536).length = 1536 := by omega
          have hrest := ih (bytes.drop 1536).length (by rw [length_drop]; omega)
            (bytes.drop 1536) (pre ++ bytes.take 1536) (by rw [length_append]; omega)
            (by rw [length_append]; omega) rfl
          have hall : pre ++ bytes.take 1536 ++ bytes.drop 1536 = pre ++ bytes := by
            rw [append_assoc, take_append_drop]
          rw [length_append, hall, length_drop, hchunk,
            show pre.length + 1536 + (bytes.length - 1536) = pre.length + bytes.length by
              omega] at hrest
          rw [hchunk]
          exact hrest
      · -- the file is full: what is written are the chunks so far
        simp only [if_neg hfit]
        have hw : written (pre.length + bytes.length) = pre.length := by
          have hdiv : MAXFILESIZE / 1536 * 1536 = 70656 := rfl
          have hcut : written (pre.length + bytes.length) = 70656 :=
            (if_neg (by omega)).trans hdiv
          omega
        rw [hw, decide_eq_false (by omega), take_left]

theorem writeAll_start (c bytes : List Byte) :
    writeAll c 0 bytes = (decide (bytes.length ≤ MAXFILESIZE),
      bytes.take (written bytes.length) ++ c.drop (written bytes.length),
      BitVec.ofNat 32 (written bytes.length)) := by
  have h := writeAll_after bytes [] c rfl (Nat.zero_le _)
  simpa using h

/-- The first `w` bytes of a file replaced by those of `m`: the file has the first `n` bytes of
    `m` and is no longer than them, or than before, iff it is so beyond `w` already. -/
theorem replaced_iff {m old : List Byte} {w n : Nat} (hw : w ≤ m.length) :
    ((∀ j, j < n → (m.take w ++ old.drop w)[j]? = m[j]?)
        ∧ (m.take w ++ old.drop w).length = max old.length n)
      ↔ max old.length w = max old.length n ∧ ∀ j, w ≤ j → j < n → old[j]? = m[j]? := by
  have htake : (m.take w).length = w := by
    rw [length_take]
    omega
  have hlength : (m.take w ++ old.drop w).length = max old.length w := by
    rw [length_append, htake, length_drop]
    omega
  have hbyte : ∀ j, (m.take w ++ old.drop w)[j]? = if j < w then m[j]? else old[j]? := by grind
  rw [hlength, and_comm]
  refine and_congr_right fun _ => ⟨fun h j hwj hj => ?_, fun h j hj => ?_⟩
  · rw [← h j hj, hbyte, if_neg (by omega)]
  · rw [hbyte]
    split
    · rfl
    · exact h j (by omega) hj

namespace Kernel

variable {L : Link} {k k' : Kernel} {p : Slot} {va addr length : Word} {fi : Fin NFILE}
  {bytes m c old : List Byte} {vm : VmArea}

/-! ### Bytes in memory -/

/-- Process `p` finds `bytes` from address `va` on. -/
def Holds (k : Kernel) (p : Slot) (va : Word) (bytes : List Byte) : Prop :=
  ∀ j, j < bytes.length → userByte k p (va + BitVec.ofNat 32 j) = bytes[j]?

theorem add_ofNat_add (va : Word) (i j : Nat) :
    va + BitVec.ofNat 32 i + BitVec.ofNat 32 j = va + BitVec.ofNat 32 (i + j) := by
  rw [BitVec.add_assoc, BitVec.ofNat_add]

theorem Holds.take (h : Holds k p va bytes) (n : Nat) : Holds k p va (bytes.take n) := by
  intro j hj
  rw [length_take] at hj
  rw [h j (by omega), getElem?_take, if_pos (by omega)]

theorem Holds.drop (h : Holds k p va bytes) (n : Nat) :
    Holds k p (va + BitVec.ofNat 32 n) (bytes.drop n) := by
  intro j hj
  rw [length_drop] at hj
  rw [add_ofNat_add, h (n + j) (by omega), getElem?_drop]

/-- Bytes that are there are loaded, without a fault. -/
theorem loadBytes_holds (h : Holds k p va bytes) :
    loadBytes L p k va bytes.length = .ok (bytes, k) := by
  induction bytes generalizing va with
  | nil => rfl
  | cons b bytes ih =>
    have hrest : Holds k p (va + 1) bytes := h.drop 1
    have hbyte : userByte k p va = some b := by
      simpa using h 0 (by simp)
    unfold userByte at hbyte
    cases htr : k.trans p va with
    | none =>
      rw [htr] at hbyte
      cases hbyte
    | some pte =>
      rw [htr, Option.map_some, Option.some.injEq] at hbyte
      have hload : loadByte L k p va = .ok (b, k) := by
        unfold loadByte
        rw [if_pos (by simp [readable, htr]), ok_bind]
        simp only [htr]
        rw [← hbyte]
        rfl
      rw [length_cons, loadBytes, hload, ok_bind]
      simp only [ih hrest, ok_bind]
      rfl

/-- A page that is there holds some bytes. -/
theorem holds_page {pte : Word} (hal : va.toNat % 4096 = 0) (hpte : k.trans p va = some pte) :
    ∃ m : List Byte, m.length = 4096 ∧ Holds k p va m := by
  refine ⟨ofFn fun j : Fin 4096 =>
    frameByte (k.phys.mem (frameOf pte)) (va + BitVec.ofNat 32 j), length_ofFn, fun j hj => ?_⟩
  rw [length_ofFn] at hj
  have hpage : frameOf (va + BitVec.ofNat 32 j) = frameOf va := by
    rw [frameOf_eq_iff hal, BitVec.toNat_add, BitVec.toNat_ofNat]
    omega
  unfold userByte
  rw [trans_congr_page k p hpage, hpte, List.getElem?_ofFn, dif_pos hj]
  rfl

/-! ### `filewrite` -/

/-- The file of entry `fi` has contents `c` and offset `off`. -/
def setContents (k : Kernel) (fi : Fin NFILE) (c : List Byte) (off : Word) : Kernel :=
  { k with inode := Function.update k.inode (k.file fi).ip c
           file := Function.update k.file fi { k.file fi with off := off } }

section

variable (k : Kernel) (fi : Fin NFILE)

theorem setContents_self : k.setContents fi (k.inode (k.file fi).ip) (k.file fi).off = k := by
  simp [setContents]

theorem setContents_setContents (c c' : List Byte) (off off' : Word) :
    (k.setContents fi c off).setContents fi c' off' = k.setContents fi c' off' := by
  simp [setContents]

@[simp] theorem setContents_file (c : List Byte) (off : Word) :
    (k.setContents fi c off).file fi = { k.file fi with off := off } := by
  simp [setContents]

@[simp] theorem setContents_inode (c : List Byte) (off : Word) :
    (k.setContents fi c off).inode (k.file fi).ip = c := by
  simp [setContents]

end

theorem Holds.setContents (h : Holds k p va bytes) (fi : Fin NFILE) (c : List Byte) (off : Word) :
    Holds (k.setContents fi c off) p va bytes := h

/-- The chunk loop writes what is in memory. -/
theorem filewriteLoop_holds {n fuel i : Nat} (h : Holds k p (addr + BitVec.ofNat 32 i) bytes)
    (hn : bytes.length = n - i) (hfuel : n - i + 1536 ≤ fuel * 1536) :
    filewriteLoop L p fi addr n fuel k i
      = .ok ((writeAll (k.inode (k.file fi).ip) (k.file fi).off bytes).1,
        k.setContents fi (writeAll (k.inode (k.file fi).ip) (k.file fi).off bytes).2.1
          (writeAll (k.inode (k.file fi).ip) (k.file fi).off bytes).2.2) := by
  induction fuel generalizing k i bytes with
  | zero => omega
  | succ fuel ih =>
    unfold filewriteLoop
    by_cases hi : i < n
    · have hne : bytes ≠ [] := by
        rintro rfl
        rw [length_nil] at hn
        omega
      have hlen : (bytes.take 1536).length = min (n - i) 1536 := by
        rw [length_take, hn, Nat.min_comm]
      have hload := loadBytes_holds (L := L) (h.take 1536)
      rw [hlen] at hload
      rw [if_pos hi, writeAll, if_neg hne]
      simp only [hload, ok_bind]
      cases hwrite : writei (k.inode (k.file fi).ip) (k.file fi).off (bytes.take 1536) with
      | none =>
        rw [setContents_self]
        rfl
      | some c =>
        have hk :
          (({ k with inode := Function.update k.inode (k.file fi).ip c } : Kernel).setFile fi
            { k.file fi with off := (k.file fi).off + BitVec.ofNat 32 (min (n - i) 1536) })
            = k.setContents fi c ((k.file fi).off + BitVec.ofNat 32 (bytes.take 1536).length) := by
          rw [hlen]
          rfl
        -- the rest, which is empty after a short chunk
        have hdrop : Holds (k.setContents fi c
            ((k.file fi).off + BitVec.ofNat 32 (bytes.take 1536).length)) p
            (addr + BitVec.ofNat 32 (i + min (n - i) 1536)) (bytes.drop 1536) := by
          by_cases hshort : n - i < 1536
          · rw [drop_eq_nil_of_le (by omega)]
            exact fun j hj => absurd hj (Nat.not_lt_zero j)
          · rw [Nat.min_eq_right (by omega), ← add_ofNat_add]
            exact (h.drop 1536).setContents fi c _
        simp only
        rw [hk, ih hdrop (by rw [length_drop]; omega) (by omega)]
        simp only [setContents_file, setContents_inode, setContents_setContents]
    · obtain rfl : bytes = [] := length_eq_zero_iff.mp (by omega)
      rw [if_neg hi, writeAll, if_pos rfl]
      rw [setContents_self]

/-- `filewrite` to a regular file, of bytes that are in memory. -/
theorem filewrite_holds {n : Int} (htype : (k.file fi).type = .FD_INODE)
    (hw : (k.file fi).writable = true) (h : Holds k p addr bytes) (hn : bytes.length = n.toNat)
    (hlt : n < 2147483648) :
    filewrite L k p fi addr n
      = .ok (if (writeAll (k.inode (k.file fi).ip) (k.file fi).off bytes).1 ∧ 0 ≤ n then n else -1,
        k.setContents fi (writeAll (k.inode (k.file fi).ip) (k.file fi).off bytes).2.1
          (writeAll (k.inode (k.file fi).ip) (k.file fi).off bytes).2.2) := by
  have hfuel : n.toNat - 0 + 1536 ≤ loopBound * 1536 := by
    have hb : loopBound * 1536 = 3221225472 := rfl
    omega
  have hloop : filewriteLoop L p fi addr n.toNat loopBound k 0 = _ :=
    filewriteLoop_holds (by simpa using h) (by omega) hfuel
  unfold filewrite
  simp only [hw, htype, Bool.not_true, Bool.false_eq_true, if_false, hloop, ok_bind]
  rfl

/-! ### `munmap` -/

/-- The record `munmap` finds starts at the address. -/
theorem munmapFind_start {n : Nat} {curr : VmArea} (h : k.munmapFind addr n curr = .ok (some vm)) :
    vm.start = addr := by
  induction n generalizing curr with
  | zero => cases h
  | succ n ih =>
    unfold munmapFind at h
    split at h
    · cases h
    split at h
    · rename_i hfound
      cases h
      exact hfound.1.symm
    · obtain ⟨next, -, h⟩ := bind_eq_ok.mp h
      exact ih h

/-- An area of a regular file that is shared and file-backed, with a file that can be written. -/
structure SharedFile (k : Kernel) (vm : VmArea) (fi : Fin NFILE) : Prop where
  file : vm.flags &&& MAP_ANON = 0#32
  shared : vm.flags &&& MAP_PRIVATE = 0#32
  entry : vm.f = .file fi
  type : (k.file fi).type = .FD_INODE
  writable : (k.file fi).writable = true

/-- The write-back puts the first `len` bytes of the area at the start of the file. -/
theorem munmapWriteBack_holds (hs : SharedFile k vm fi) (h : Holds k p vm.start m)
    (hlen : vm.len.toInt.toNat ≤ m.length) :
    munmapWriteBack L k p vm = .ok (k.setContents fi (m.take (written vm.len.toInt.toNat)
            ++ (k.inode (k.file fi).ip).drop (written vm.len.toInt.toNat))
          (BitVec.ofNat 32 (written vm.len.toInt.toNat))) := by
  have hm : (m.take vm.len.toInt.toNat).length = vm.len.toInt.toNat := by
    rw [length_take]
    omega
  have hlt : vm.len.toInt < 2147483648 := by
    rw [BitVec.toInt_eq_toNat_cond]
    split <;> omega
  unfold munmapWriteBack
  rw [if_pos ⟨hs.file, hs.shared⟩]
  simp only [hs.entry]
  generalize hk0 : k.setFile fi { k.file fi with off := 0 } = k0
  have hfile : k0.file fi = { k.file fi with off := 0 } := by
    rw [← hk0]
    simp [setFile]
  have hinode : k0.inode = k.inode := by
    rw [← hk0]
    rfl
  have hwrite : filewrite L k0 p fi vm.start vm.len.toInt = _ := filewrite_holds
    (by rw [hfile]; exact hs.type) (by rw [hfile]; exact hs.writable)
    (by rw [← hk0]; exact h.take vm.len.toInt.toNat) hm hlt
  rw [hwrite, ok_bind]
  simp only [hfile, hinode]
  rw [writeAll_start, hm, take_take, Nat.min_eq_left (written_le _), ← hk0]
  simp [setContents, setFile]

/-- The file after a `munmap` of a shared area that returns 0. -/
theorem sysMunmap_contents (hfind : k.munmapFind addr loopBound (k.proc p).head = .ok (some vm))
    (hs : SharedFile k vm fi) (hc : k.inode (k.file fi).ip = c) (hm : Holds k p addr m)
    (hlen : vm.len.toInt.toNat ≤ m.length) (h : sysMunmap L k p addr length = .ok (0, k')) :
    k'.inode (k.file fi).ip
      = m.take (written vm.len.toInt.toNat) ++ c.drop (written vm.len.toInt.toNat) := by
  obtain ⟨-, vm', hfind', hback⟩ := sysMunmap_zero h
  cases hfind.symm.trans hfind'
  rw [← munmapFind_start hfind] at hm
  rw [munmapWriteBack_holds hs hm hlen, hc] at hback
  cases hback
  rw [setContents_inode]

/-- After a `munmap` of a shared area that returns 0, the file has the first `length` bytes of
    the memory and is as long as it was or as `length`, whichever is more, iff this follows
    from the area's `len` bytes alone. -/
theorem writeBack_iff (hfind : k.munmapFind addr loopBound (k.proc p).head = .ok (some vm))
    (hs : SharedFile k vm fi) (hc : k.inode (k.file fi).ip = old) (hm : Holds k p addr m)
    (hlen : vm.len.toInt.toNat ≤ m.length)
    (h : sysMunmap L k p addr length = .ok (0, k')) :
    ((∀ j, j < length.toNat → (k'.inode (k.file fi).ip)[j]? = m[j]?)
        ∧ (k'.inode (k.file fi).ip).length = max old.length length.toNat)
      ↔ max old.length (written vm.len.toInt.toNat) = max old.length length.toNat
        ∧ ∀ j, written vm.len.toInt.toNat ≤ j → j < length.toNat → old[j]? = m[j]? := by
  rw [sysMunmap_contents hfind hs hc hm hlen h]
  exact replaced_iff ((written_le _).trans hlen)

/-- The page loop does not look at files. -/
theorem munmapPages_setContents (end_ : Word) (n : Nat) (i : Word) (off : Word) :
    munmapPages (k.setContents fi c off) p end_ n i = munmapPages k p end_ n i := by
  induction n generalizing i with
  | zero => rfl
  | succ n ih =>
    unfold munmapPages
    simp only [ih]
    rfl

/-- The call returns 0 if the pages have page tables. -/
theorem sysMunmap_holds (hok : ¬ (addr % PGSIZE ≠ 0#32 ∨ addr < MIN_ADDR ∨ MAX_ADDR ≤ addr))
    (hfind : k.munmapFind addr loopBound (k.proc p).head = .ok (some vm))
    (hs : SharedFile k vm fi) (hm : Holds k p addr m) (hlen : vm.len.toInt.toNat ≤ m.length)
    (hpages : munmapPages k p (addr + length) loopBound addr = .ok ()) :
    ∃ k', sysMunmap L k p addr length = .ok (0, k') := by
  rw [← munmapFind_start hfind] at hm
  unfold sysMunmap
  rw [if_neg hok, hfind, ok_bind]
  simp only [munmapWriteBack_holds hs hm hlen, ok_bind, munmapPages_setContents, hpages]
  exact ⟨_, rfl⟩

/-- What is known of the state after `mmap(0, length, PROT_READ|PROT_WRITE, MAP_SHARED, 0, 0)`
    in a process that has a file of four bytes open: one page is mapped. -/
structure OneShared (k : Kernel) (length : Word) (vm : VmArea) (m : List Byte) : Prop where
  mapped : user startLink 0 (start 16) (.mmap 0 length 3 2 0) = .ok k
  found : k.munmapFind 0x60000000 loopBound (k.proc 0).head = .ok (some vm)
  file : SharedFile k vm 0
  ip : (k.file 0).ip = 0
  inode : k.inode 0 = [0, 0, 0, 0]
  len : vm.len = 4095
  size : m.length = 4096
  memory : Holds k 0 0x60000000 m
  unmapped : ∃ k', sysMunmap startLink k 0 0x60000000 length = .ok (0, k')

theorem oneShared (length : Word)
    (hrun : (user startLink 0 (start 16) (.mmap 0 length 3 2 0)).holds (fun k =>
      ((k.munmapFind 0x60000000 loopBound (k.proc 0).head).holds (fun vm =>
        vm.any (fun vm => vm.flags &&& MAP_ANON = 0#32 ∧ vm.flags &&& MAP_PRIVATE = 0#32
          ∧ vm.f = .file 0 ∧ vm.len = 4095))
        && (munmapPages k 0 (0x60000000 + length) loopBound 0x60000000).holds (fun _ => true))
      && decide ((k.file 0).type = .FD_INODE ∧ (k.file 0).writable = true ∧ (k.file 0).ip = 0
        ∧ k.inode 0 = [0, 0, 0, 0] ∧ (k.trans 0 0x60000000).isSome = true)) = true) :
    ∃ k vm m, OneShared k length vm m := by
  obtain ⟨k, hk, htest⟩ := holds_iff.mp hrun
  rw [Bool.and_eq_true, Bool.and_eq_true] at htest
  obtain ⟨vm, hfind, hvm⟩ := holds_iff.mp htest.1.1
  obtain ⟨⟨⟩, hpages, -⟩ := holds_iff.mp htest.1.2
  obtain ⟨htype, hw, hip, hinode, hpte⟩ := of_decide_eq_true htest.2
  cases vm with
  | none => cases hvm
  | some vm =>
    obtain ⟨hfile, hshared, hf, hlen⟩ := of_decide_eq_true hvm
    obtain ⟨pte, hpte⟩ := Option.isSome_iff_exists.mp hpte
    obtain ⟨m, hm, hmem⟩ := holds_page (by decide) hpte
    have hs : SharedFile k vm 0 := ⟨hfile, hshared, hf, htype, hw⟩
    have hle : vm.len.toInt.toNat ≤ m.length := by
      rw [hlen, hm]
      decide
    exact ⟨k, vm, m, hk, hfind, hs, hip, hinode, hlen, hm, hmem,
      sysMunmap_holds (by decide) hfind hs hmem hle hpages⟩

/-- All bytes but the last of a page. -/
theorem writeBack_full :
    ∃ k k' m, user startLink 0 (start 16) (.mmap 0 4095 3 2 0) = .ok k ∧ Holds k 0 0x60000000 m
      ∧ sysMunmap startLink k 0 0x60000000 4095 = .ok (0, k')
      ∧ (∀ j, j < (4095 : Word).toNat → (k'.inode 0)[j]? = m[j]?)
      ∧ (k'.inode 0).length = max 4 (4095 : Word).toNat := by
  obtain ⟨k, vm, m, h⟩ := oneShared 4095 (by decide +kernel)
  obtain ⟨k', hk'⟩ := h.unmapped
  have hiff := writeBack_iff h.found h.file (by rw [h.ip, h.inode]) h.memory
    (by rw [h.len, h.size]; decide) hk'
  rw [h.len, h.ip] at hiff
  exact ⟨k, k', m, h.mapped, h.memory, hk',
    hiff.mpr ⟨rfl, fun j h1 h2 => absurd h2 (Nat.not_lt.mpr h1)⟩⟩

/-- A mapping of 100 bytes of a file of four: afterwards the file has 4095. -/
theorem writeBack_too_long :
    ∃ k k' m, user startLink 0 (start 16) (.mmap 0 100 3 2 0) = .ok k ∧ k.inode 0 = [0, 0, 0, 0]
      ∧ Holds k 0 0x60000000 m ∧ sysMunmap startLink k 0 0x60000000 100 = .ok (0, k')
      ∧ (k'.inode 0).length ≠ max 4 100 := by
  obtain ⟨k, vm, m, h⟩ := oneShared 100 (by decide +kernel)
  obtain ⟨k', hk'⟩ := h.unmapped
  have hc := sysMunmap_contents h.found h.file rfl h.memory (by rw [h.len, h.size]; decide) hk'
  have hw : written (4095 : Word).toInt.toNat = 4095 := by decide
  rw [h.ip, h.inode, h.len, hw] at hc
  refine ⟨k, k', m, h.mapped, h.inode, h.memory, hk', ?_⟩
  have hsize := h.size
  rw [hc, List.length_append, List.length_take, List.length_drop]
  show min 4095 m.length + (4 - 4095) ≠ 100
  omega

end Kernel

end Xv6
