import Xv6.TrapSpec
import Xv6.Mmap

namespace Xv6.Kernel

open BitVec List Owner Outcome

/-!
# What `mmap` does

* `mmapLoad_ok`, `mmapLoad_remap` — loading a file page writes to the frame of that page
  only, or faults;
* `Paged own k p vma start lo hi perm own' k'` — from `k` to `k'` the pages of `[lo, hi)`
  have been mapped, each to a frame that was free;
* `mmapPage_ok`, `mmapPages_ok` — one round of the mapping loop, and the whole loop.
-/

variable {L : Link} {own own' own'' : Frame → Owner} {k k' k'' : Kernel} {p : Slot}
variable {i prot : Word} {N : VmaPtr → Prop} {f : Frame}

/-! ### Loading a file page -/

/-- The same files, but for their offsets. -/
def SameFiles (file file' : Fin NFILE → File) : Prop :=
  ∀ i, file' i = { file i with off := (file' i).off }

theorem SameFiles.refl (file : Fin NFILE → File) : SameFiles file file := fun _ => rfl

theorem SameFiles.trans {f g h : Fin NFILE → File} (hfg : SameFiles f g) (hgh : SameFiles g h) :
    SameFiles f h := by
  intro i
  rw [hgh i, hfg i]

/-- Moving the offset of a file. -/
theorem SameFiles.setOff (file : Fin NFILE → File) (i : Fin NFILE) (w : Word) :
    SameFiles file (Function.update file i { file i with off := w }) := by
  intro j
  by_cases hj : j = i
  · subst hj
    simp
  · simp [hj]

/-- A read either copies nothing, and then changes nothing or does not return, or copies
    bytes to user memory and then updates the file table and the pipes. -/
theorem fileread_cases {i : Fin NFILE} {addr n : Word} :
    (∃ v, fileread L k p i addr n = .ok (v, k)) ∨ fileread L k p i addr n = .hang
      ∨ fileread L k p i addr n = .panic .fileread
      ∨ ∃ bytes, ∃ g : Kernel → Int × Kernel, bytes.length ≤ n.toNat
          ∧ (∀ k1, (g k1).2 = { k1 with file := (g k1).2.file, pipe := (g k1).2.pipe }
            ∧ SameFiles k1.file (g k1).2.file)
          ∧ fileread L k p i addr n = storeBytes L p k addr bytes >>= fun k1 => pure (g k1) := by
  unfold fileread
  by_cases hr : (!(k.file i).readable) = true
  · exact .inl ⟨-1, if_pos hr⟩
  simp only [if_neg hr]
  cases (k.file i).type with
  | FD_NONE => exact .inr (.inr (.inl rfl))
  | FD_PIPE =>
    unfold piperead
    by_cases he : (k.pipe (k.file i).pipe).data = [] ∧ (k.pipe (k.file i).pipe).writeopen = true
    · grind
    · simp only [if_neg he]
      let drain : Kernel → Pipe := fun k1 =>
        { k1.pipe (k.file i).pipe with data := (k1.pipe (k.file i).pipe).data.drop n.toNat }
      exact .inr (.inr (.inr ⟨(k.pipe (k.file i).pipe).data.take n.toNat, fun k1 =>
        (_, { k1 with pipe := Function.update k1.pipe (k.file i).pipe (drain k1) }),
        length_take_le _ _, fun _ => ⟨rfl, .refl _⟩, rfl⟩))
  | FD_INODE =>
    cases hread : readi (k.inode (k.file i).ip) (k.file i).off n with
    | none => exact .inl ⟨-1, rfl⟩
    | some bytes =>
      refine .inr (.inr (.inr ⟨bytes, fun k1 => (_, k1.setFile i _), ?_,
        fun k1 => ⟨rfl, .setOff k1.file i _⟩, rfl⟩))
      unfold readi at hread
      split at hread
      · cases hread
      · grind

/-- The same for the load of one page. -/
theorem mmapLoad_cases {fd : Word} :
    (∃ file, SameFiles k.file file ∧ mmapLoad L k p fd i = .ok { k with file := file })
      ∨ mmapLoad L k p fd i = .hang ∨ mmapLoad L k p fd i = .wild
      ∨ mmapLoad L k p fd i = .panic .fileread
      ∨ ∃ bytes file, ∃ g : Kernel → Kernel, bytes.length ≤ 4096 ∧ SameFiles k.file file
          ∧ (∀ k1, g k1 = { k1 with file := (g k1).file, pipe := (g k1).pipe }
            ∧ SameFiles k1.file (g k1).file)
          ∧ mmapLoad L k p fd i
              = storeBytes L p { k with file := file } i bytes >>= fun k1 => pure (g k1) := by
  unfold mmapLoad
  cases k.ofileAt p fd with
  | null => exact .inr (.inr (.inl rfl))
  | other => exact .inr (.inr (.inl rfl))
  | file fi =>
    simp only
    rcases fileread_cases (L := L) (p := p) (k := k.setFile fi { k.file fi with off := 0 })
      (i := fi)
      (n := PGSIZE) with
      ⟨v, hr⟩ | hr | hr | ⟨bytes, g, hlen, hg, hr⟩
    · rw [hr]
      exact .inl ⟨_, .setOff k.file fi 0, rfl⟩
    · rw [hr]
      exact .inr (.inl rfl)
    · rw [hr]
      exact .inr (.inr (.inr (.inl rfl)))
    · rw [hr]
      refine .inr (.inr (.inr (.inr ⟨bytes, (k.setFile fi { k.file fi with off := 0 }).file,
        fun k1 => (g k1).2, hlen, .setOff k.file fi 0, fun k1 => hg k1, ?_⟩)))
      show _ = storeBytes L p (k.setFile fi { k.file fi with off := 0 }) i bytes >>= _
      cases storeBytes L p (k.setFile fi { k.file fi with off := 0 }) i bytes <;> rfl

/-- What the load of the page at `i` relies on: the page is mapped to a blank frame of its own,
    or there is neither a page table for it nor memory for one, and the process is killed. -/
def Loadable (own : Frame → Owner) (k : Kernel) (p : Slot) (i : Word) : Prop :=
  (∃ pte, k.trans p i = some pte ∧ (∃ n, own (frameOf pte) = .page (.proc p) n)
      ∧ k.phys.mem (frameOf pte) = fun _ => 0)
    ∨ (pte? k.phys (k.proc p).pgdir i = none ∧ k.phys.freelist.length ≤ 1)
      ∧ (k.proc p).killed = true

/-- Mapped, or no frame is left for a table. -/
theorem Loadable.unresolved (h : Loadable own k p i) : k.trans p i ≠ none
      ∨ (pte? k.phys (k.proc p).pgdir i = none ∧ k.phys.freelist.length ≤ 1) := by
  rcases h with ⟨pte, hpte, -⟩ | h
  · exact .inl (by simp [hpte])
  · exact .inr h.1

section

variable (r : Ready own k p N) (hi : i.toNat % 4096 = 0) (hp : Loadable own k p i)
include r hi hp

/-- A copy to such a page writes to the frame of that page only, or faults. -/
theorem storeBytes_loadable {bytes : List Byte} (hlen : bytes.length ≤ 4096) :
    bytes = [] ∧ storeBytes L p k i bytes = .ok k
      ∨ (∃ pte x, k.trans p i = some pte ∧ Copied (k.phys.mem (frameOf pte)) i bytes x
          ∧ storeBytes L p k i bytes = .ok { k with phys := k.phys.setFrame (frameOf pte) x })
      ∨ k.writable p i = false ∧ ∃ g : Kernel → Res Kernel,
          storeBytes L p k i bytes = kernelFault L k p i (·.writable p i) >>= g := by
  by_cases hnil : bytes = []
  · subst hnil
    exact .inl ⟨rfl, rfl⟩
  right
  cases hw : k.writable p i with
  | true =>
    -- a writable page is present, so it has a frame of its own
    rcases hp with ⟨pte, hpte, ⟨n, hown⟩, -⟩ | ⟨⟨hpte, -⟩, -⟩
    · obtain ⟨x, hx, hcopy⟩ := storeBytes_writable (L := L)
        r.tables ((writable_of_trans hpte).mp hw) (by simp [hown]) (by simp [hown]) hpte
        (by rw [hi, Nat.zero_add]; exact hlen)
      exact .inl ⟨pte, x, hpte, hcopy, hx⟩
    · simp [writable, trans, translate, hpte] at hw
  | false => exact .inr ⟨rfl, storeBytes_fault hnil hw⟩

/-- Loading a page writes to the frame of that page only. -/
theorem mmapLoad_ok {fd : Word} (h : mmapLoad L k p fd i = .ok k') :
    ∃ s, k' = { k with phys := s, file := k'.file, pipe := k'.pipe } ∧ SameFiles k.file k'.file
      ∧ (s = k.phys ∨ ∃ pte x, k.trans p i = some pte ∧ s = k.phys.setFrame (frameOf pte) x) := by
  rcases mmapLoad_cases (L := L) (k := k) (p := p) (i := i) with
    ⟨file, hsame, hr⟩ | hr | hr | hr | ⟨bytes, file, g, hlen, hsame, hg, hr⟩
  · cases hr.symm.trans h
    exact ⟨k.phys, rfl, hsame, .inl rfl⟩
  · cases hr.symm.trans h
  · cases hr.symm.trans h
  · cases hr.symm.trans h
  · obtain ⟨k1, hs, hk⟩ := Outcome.bind_eq_ok.mp (hr.symm.trans h)
    simp only [Outcome.pure_def, Outcome.ok.injEq] at hk
    have hk' : k' = { k1 with file := k'.file, pipe := k'.pipe } := by
      rw [← hk]
      exact (hg k1).1
    have hfiles : SameFiles k1.file k'.file := by
      rw [← hk]
      exact (hg k1).2
    rcases storeBytes_loadable (L := L) (r.withFile file) hi hp hlen with
      ⟨-, he⟩ | ⟨pte, x, hpte, -, he⟩ | ⟨hw, g', he⟩
    · cases he.symm.trans hs
      exact ⟨k.phys, hk', hsame.trans hfiles, .inl rfl⟩
    · cases he.symm.trans hs
      exact ⟨_, hk', hsame.trans hfiles, .inr ⟨pte, x, hpte, rfl⟩⟩
    · obtain ⟨k2, hk2, -⟩ := bind_eq_ok.mp (he.symm.trans hs)
      exact absurd hk2 (kernelFault_not_ok (r.withFile file) hw hp.unresolved)

/-- A load that panics with "remap" has hit the guard page of an area, on a page that is
    mapped read-only. -/
theorem mmapLoad_remap {fd : Word} (h : mmapLoad L k p fd i = .panic .remap) :
    k.trans p i ≠ none ∧ k.writable p i = false ∧ ∃ x v, N x ∧ k.deref x = .ok v ∧ Hits v i := by
  rcases mmapLoad_cases (L := L) (k := k) (p := p) (i := i) with
    ⟨file, -, hr⟩ | hr | hr | hr | ⟨bytes, file, g, hlen, -, hg, hr⟩
  · cases hr.symm.trans h
  · cases hr.symm.trans h
  · cases hr.symm.trans h
  · cases hr.symm.trans h
  · have hs : storeBytes L p { k with file := file } i bytes = .panic .remap := by
      rcases bind_eq_panic.mp (hr.symm.trans h) with hs | ⟨_, _, hs⟩
      · exact hs
      · cases hs
    rcases storeBytes_loadable (L := L) (r.withFile file) hi hp hlen with
      ⟨-, he⟩ | ⟨pte, x, hpte, -, he⟩ | ⟨hw, g', he⟩
    · cases he.symm.trans hs
    · cases he.symm.trans hs
    rcases bind_eq_panic.mp (he.symm.trans hs) with hfault | ⟨k2, hk2, -⟩
    · rcases bind_eq_panic.mp hfault with htrap | ⟨k2, _, hif⟩
      · rcases trapPgflt_cases (k := { k with file := file }) r.closed r.head htrap with
          hc | hc | hc | hc | ⟨x, v, hx, hd, hhit, hlo, hhi, hgrow⟩
        · cases hc
        · cases hc
        · cases hc
        · cases hc
        · obtain ⟨hal, hpage, -⟩ := hhit.page (r.guard x v hx hd) hlo hhi
          have hne :=
            grow_remap (k := { k with file := file }) (x := x) r.free r.tables hd hal hgrow.symm
          refine ⟨?_, hw, x, v, hx, hd, hhit⟩
          rwa [← trans_congr_page k p hpage]
      · split at hif <;> cases hif
    · exact absurd hk2 (kernelFault_not_ok (r.withFile file) hw hp.unresolved)

end

/-! ### Mapping a range of pages -/

/-- The pages of `[lo, hi)` have been mapped for the area recorded in frame `vma`, whose
    first page is `start`: they were not there before, and now each is mapped to a frame
    that was free, unless there was no memory for its page table and the process is
    killed. -/
structure Paged (own : Frame → Owner) (k : Kernel) (p : Slot) (vma : Frame) (start : Word)
    (lo hi : Nat) (perm : Word) (own' : Frame → Owner) (k' : Kernel) : Prop where
  free : Free own' k'.phys
  tables : Tables own' k'.phys.mem (.proc p) (k.proc p).pgdir
  touch : Touch (Owner.within (.proc p)) own k.phys.mem own' k'.phys.mem
  keep : ∀ g, own g ≠ .free → own' g = own g
  data : ∀ g, ¬ (own g).inTables (.proc p) → k'.phys.mem g = k.phys.mem g
  suffix : k'.phys.freelist <:+ k.phys.freelist
  record : ∃ w, k'.vma = Function.update k.vma vma { k.vma vma with pa := w }
  proc : ∃ b, k'.proc
    = Function.update k.proc p { k.proc p with killed := (k.proc p).killed || b }
  rest : k' = { k with phys := k'.phys, vma := k'.vma, proc := k'.proc, file := k'.file,
                       pipe := k'.pipe, granted := k'.granted }
  files : SameFiles k.file k'.file
  others : ∀ q, q ≠ p → k'.granted q = k.granted q
  inside : ∀ va : Word, lo ≤ va.toNat → va.toNat < hi → k.trans p va = none
    ∧ ((k'.proc p).killed = true ∧ k'.trans p va = none
        ∧ k'.granted p (frameOf va) = k.granted p (frameOf va)
      ∨ ∃ f, own f = .free ∧ own' f = .page (.proc p) (frameOf va)
          ∧ k'.trans p va = some (base f ||| perm ||| PTE_P)
          ∧ k'.granted p (frameOf va) = some f)
  outside : ∀ va : Word, ¬ (lo ≤ va.toNat ∧ va.toNat < hi) →
    k'.trans p va = k.trans p va ∧ k'.granted p (frameOf va) = k.granted p (frameOf va)
  first : lo ≤ start.toNat → start.toNat < hi → (k'.proc p).killed = true
    ∨ ∃ f, k'.granted p (frameOf start) = some f ∧ (k'.vma vma).pa = P2V (base f)
  later : ¬ (lo ≤ start.toNat ∧ start.toNat < hi) → (k'.vma vma).pa = (k.vma vma).pa

namespace Paged

variable {vma : Frame} {start perm : Word} {lo mid hi : Nat}
variable {s' : Phys}

/-- Nothing to map. -/
theorem refl (hf : Free own k.phys) (ht : Tables own k.phys.mem (.proc p) (k.proc p).pgdir) :
    Paged own k p vma start lo lo perm own k where
  free := hf
  tables := ht
  touch := Touch.refl
  keep := fun _ _ => rfl
  data := fun _ _ => rfl
  suffix := suffix_refl _
  record := ⟨(k.vma vma).pa, by simp⟩
  proc := ⟨false, by simp⟩
  rest := rfl
  files := .refl _
  others := fun _ _ => rfl
  inside := fun va h1 h2 => absurd h2 (by omega)
  outside := fun _ _ => ⟨rfl, rfl⟩
  first := fun h1 h2 => absurd h2 (by omega)
  later := fun _ => rfl

section

variable (h : Paged own k p vma start lo hi perm own' k')
include h

/-- A killed process stays killed. -/
theorem killed (hk : (k.proc p).killed = true) : (k'.proc p).killed = true := by
  obtain ⟨b, hb⟩ := h.proc
  simp [hb, hk]

theorem pgdir (q : Slot) : (k'.proc q).pgdir = (k.proc q).pgdir := by
  obtain ⟨b, hb⟩ := h.proc
  rw [hb]
  by_cases hq : q = p
  · subst hq; simp
  · simp [hq]

/-- The areas are the same but for the field `pa` of the record. -/
theorem deref {x : VmaPtr} {v' : VmArea} (hx : k'.deref x = .ok v') :
    ∃ v, k.deref x = .ok v ∧ v' = { v with pa := v'.pa } := by
  obtain ⟨w, hw⟩ := h.record
  obtain ⟨b, hb⟩ := h.proc
  cases x with
  | null => cases hx
  | head q =>
    simp only [Kernel.deref, ok.injEq, hb] at hx ⊢
    refine ⟨_, rfl, ?_⟩
    rw [← hx]
    by_cases hq : q = p
    · subst hq; simp
    · simp [hq]
  | tail q =>
    simp only [Kernel.deref, ok.injEq, hb] at hx ⊢
    refine ⟨_, rfl, ?_⟩
    rw [← hx]
    by_cases hq : q = p
    · subst hq; simp
    · simp [hq]
  | node f =>
    simp only [Kernel.deref, ok.injEq, hw] at hx ⊢
    refine ⟨_, rfl, ?_⟩
    rw [← hx]
    by_cases hf : f = vma
    · subst hf; simp
    · simp [hf]

/-- The walk stays. -/
theorem walk (hN : Walk k p N) : Walk k' p N where
  closed := by
    intro x v' hx hd hs
    obtain ⟨v, hv, heq⟩ := h.deref hd
    have hstart : v.start ≠ MAX_ADDR := by
      rw [heq] at hs
      exact hs
    have hnext : v'.next = v.next := by rw [heq]
    rw [hnext]
    exact hN.closed x v hx hv hstart
  head := hN.head
  guard := by
    intro x v' hx hd
    obtain ⟨v, hv, heq⟩ := h.deref hd
    rw [heq]
    exact hN.guard x v hx hv

/-- So does the rest. -/
theorem ready (r : Ready own k p N) : Ready own' k' p N :=
  ⟨h.walk r.toWalk, h.free, by rw [h.pgdir]; exact h.tables⟩

end

/-- Two adjacent ranges are one range. -/
theorem trans (h : Paged own k p vma start lo mid perm own' k')
    (h' : Paged own' k' p vma start mid hi perm own'' k'') (hlo : lo ≤ mid) (hhi : mid ≤ hi) :
    Paged own k p vma start lo hi perm own'' k'' where
  free := h'.free
  tables := by
    rw [← h.pgdir p]
    exact h'.tables
  touch := h.touch.trans h'.touch
  keep := by
    intro g hg
    have h1 := h.keep g hg
    rw [h'.keep g (by rwa [h1]), h1]
  data := by
    intro g hg
    have hfree : own g ≠ .free := by
      intro hfree
      exact hg (by simp [hfree, inTables])
    rw [h'.data g (by rwa [h.keep g hfree]), h.data g hg]
  suffix := h'.suffix.trans h.suffix
  record := by
    obtain ⟨w, hw⟩ := h.record
    obtain ⟨w', hw'⟩ := h'.record
    exact ⟨w', by rw [hw', hw]; simp⟩
  proc := by
    obtain ⟨b, hb⟩ := h.proc
    obtain ⟨b', hb'⟩ := h'.proc
    exact ⟨b || b', by rw [hb', hb]; simp [Bool.or_assoc]⟩
  rest := by
    rw [h'.rest, h.rest]
  files := h.files.trans h'.files
  others := fun q hq => (h'.others q hq).trans (h.others q hq)
  inside := by
    intro va h1 h2
    by_cases hmid : va.toNat < mid
    · obtain ⟨hnone, hcase⟩ := h.inside va h1 hmid
      obtain ⟨htr, hgr⟩ := h'.outside va (by omega)
      refine ⟨hnone, ?_⟩
      rcases hcase with ⟨hk, hn, hg⟩ | ⟨f, hf, hf', ht, hg⟩
      · exact .inl ⟨h'.killed hk, htr.trans hn, hgr.trans hg⟩
      · exact .inr ⟨f, hf, by rw [h'.keep f (by simp [hf']), hf'], htr.trans ht, hgr.trans hg⟩
    · obtain ⟨hnone, hcase⟩ := h'.inside va (by omega) h2
      obtain ⟨htr, hgr⟩ := h.outside va (by omega)
      refine ⟨by rw [← htr, hnone], ?_⟩
      rcases hcase with ⟨hk, hn, hg⟩ | ⟨f, hf, hf', ht, hg⟩
      · exact .inl ⟨hk, hn, hg.trans hgr⟩
      · have hfree : own f = .free := by
          by_contra hne
          exact hne (by rw [← h.keep f hne, hf])
        exact .inr ⟨f, hfree, hf', ht, hg⟩
  outside := by grind [h.outside, h'.outside]
  first := by
    intro h1 h2
    by_cases hmid : start.toNat < mid
    · rcases h.first h1 hmid with hk | ⟨f, hg, hpa⟩
      · exact .inl (h'.killed hk)
      · exact .inr ⟨f, (h'.outside start (by omega)).2.trans hg, (h'.later (by omega)).trans hpa⟩
    · exact h'.first (by omega) h2
  later := fun hs => (h'.later (by omega)).trans (h.later (by omega))

/-- Mapping one new page. -/
theorem newPage (hi : i.toNat % 4096 = 0) (hs : start.toNat % 4096 = 0)
    (w : NewPage own k.phys (.proc p) (k.proc p).pgdir i f (fun _ => 0) perm own' s') :
    Paged own k p vma start i.toNat (i.toNat + 4096) perm own' (({ k with
          phys := s'
          vma := Function.update k.vma vma { k.vma vma with
            pa := if i = start then P2V (base f) else (k.vma vma).pa } } : Kernel).grant
              p i (some f)) where
  free := w.free
  tables := w.tables
  touch := w.touch
  keep := w.keep
  data := w.data
  suffix := w.suffix
  record := ⟨_, rfl⟩
  proc := ⟨false, by simp [grant]⟩
  rest := rfl
  files := .refl _
  others := by
    intro q hq
    simp [grant, hq]
  inside := by
    intro va h1 h2
    have hpage : frameOf va = frameOf i := (frameOf_eq_iff hi va).mpr ⟨h1, h2⟩
    refine ⟨by rw [trans_congr_page k p hpage]; exact w.before, .inr ⟨f, w.fresh, ?_, ?_, ?_⟩⟩
    · rw [hpage]
      exact w.frame
    · exact (w.after va).trans (if_pos hpage)
    · simp [grant, hpage]
  outside := by
    intro va hva
    have hpage : frameOf va ≠ frameOf i := fun h => hva ((frameOf_eq_iff hi va).mp h)
    exact ⟨(w.after va).trans (if_neg hpage), by simp [grant, hpage]⟩
  first := by
    intro h1 h2
    have hstart : i = start := by
      apply eq_of_toNat_eq
      omega
    exact .inr ⟨f, by simp [grant, hstart], by simp [grant, hstart]⟩
  later := by
    intro hs'
    have hstart : i ≠ start := by
      rintro rfl
      omega
    simp [grant, hstart]

/-- No memory for the page table of a page. -/
theorem noPage {w0 : Word} (hi : i.toNat % 4096 = 0) (hs : start.toNat % 4096 = 0)
    (hw : i ≠ start → w0 = (k.vma vma).pa)
    (w : NoPage own k.phys (.proc p) (k.proc p).pgdir i f s') :
    Paged own k p vma start i.toNat (i.toNat + 4096) perm own (({ k with
          phys := s'
          vma := Function.update k.vma vma { k.vma vma with pa := w0 } } : Kernel).kill p) where
  free := w.free
  tables := w.tables
  touch := w.touch
  keep := fun _ _ => rfl
  data := by
    intro g hg
    refine w.data g (fun hfree => hg ?_)
    simp [hfree, inTables]
  suffix := by
    rw [kill_phys, w.freelist, w.only]
  record := ⟨_, rfl⟩
  proc := ⟨true, by simp [kill, setProc]⟩
  rest := rfl
  files := .refl _
  others := fun _ _ => rfl
  inside := by
    intro va h1 h2
    have hpage : frameOf va = frameOf i := (frameOf_eq_iff hi va).mpr ⟨h1, h2⟩
    have hnone : k.trans p va = none := by
      rw [trans_congr_page k p hpage]
      simp [Kernel.trans, translate, w.before]
    refine ⟨hnone, .inl ⟨by simp, ?_, rfl⟩⟩
    rw [trans_kill, ← hnone]
    simp [Kernel.trans, translate, w.after]
  outside := by
    intro va hva
    refine ⟨?_, rfl⟩
    rw [trans_kill]
    simp [Kernel.trans, translate, w.after]
  first := fun _ _ => .inl (by simp)
  later := by
    intro hs'
    have hstart : i ≠ start := by
      rintro rfl
      omega
    simp [hw hstart]

/-- Writing to the frame of a page just mapped. -/
theorem load (h : Paged own k p vma start lo hi perm own' k') {n : Frame} (hf : own f = .free)
    (hf' : own' f = .page (.proc p) n) (x : Idx → Word) {file : Fin NFILE → File}
    (hfiles : SameFiles k'.file file) (pipe : Nat → Pipe) :
    Paged own k p vma start lo hi perm own'
      { k' with phys := k'.phys.setFrame f x, file := file, pipe := pipe } := by
  have htr : ∀ va, Kernel.trans
      { k' with phys := k'.phys.setFrame f x, file := file, pipe := pipe } p va
        = k'.trans p va := by
    intro va
    have ht := h.tables
    rw [← h.pgdir p] at ht
    exact translate_setFrame ht (by simp [hf']) (by simp [hf']) x va
  refine ⟨h.free.setFrame (by simp [hf']) x, Rooted.setFrame h.tables (by simp [hf'])
    (by simp [hf']) x, h.touch.trans (Touch.update (by simp [hf', within]) x), h.keep, ?_,
    h.suffix, h.record, h.proc, ?_, h.files.trans hfiles, h.others, ?_, ?_, h.first, h.later⟩
  · grind [inTables, h.data, setFrame_mem_ne]
  · rw [h.rest]
  · intro va h1 h2
    rw [htr]
    exact h.inside va h1 h2
  · intro va hva
    rw [htr]
    exact h.outside va hva

end Paged

/-! ### The mapping loop -/

/-- What `mmap` relies on about its arguments, to load a file: the protection bits are
    within the flags of an entry. -/
def LoadArgs (prot flags : Word) : Prop :=
  flags &&& MAP_ANON ≠ 0#32 ∨ prot.toNat < 4096

theorem perm_lt (h : prot.toNat < 4096) : (prot ||| PTE_U ||| PTE_P).toNat < 4096 := by
  have h1 : (PTE_U).toNat = 4 := rfl
  have h2 : (PTE_P).toNat = 1 := rfl
  rw [toNat_or, toNat_or, h1, h2]
  exact Nat.or_lt_two_pow (n := 12) (Nat.or_lt_two_pow (n := 12) h (by omega)) (by omega)

/-- The entry of a new page names its frame. -/
theorem frameOf_pte (h : prot.toNat < 4096) :
    frameOf (base f ||| (prot ||| PTE_U) ||| PTE_P) = f := by
  rw [BitVec.or_assoc]
  exact frameOf_base_or (perm_lt h)

section

variable {N : VmaPtr → Prop} {vma : Frame} {start prot flags fd i : Word}
variable {end_ : Word} {n : Nat}

/-- The record's field `pa` is set in the first round. -/
theorem mmapPage_record (s : Phys) (w : Word) :
    (if i = start then ({ k with phys := s } : Kernel).setVma (.node vma) { k.vma vma with pa := w }
      else { k with phys := s })
      = { k with
          phys := s
          vma := Function.update k.vma vma { k.vma vma with
            pa := if i = start then w else (k.vma vma).pa } } := by
  by_cases h : i = start
  · rw [if_pos h, if_pos h]
    rfl
  · rw [if_neg h, if_neg h]
    simp

variable (L vma prot flags fd) in
/-- One round up to the load: the page is mapped and can be loaded. -/
theorem mmapPage_cases (hf : Free own k.phys)
    (ht : Tables own k.phys.mem (.proc p) (k.proc p).pgdir) (hi : i.toNat % 4096 = 0)
    (hs : start.toNat % 4096 = 0) :
    mmapPage L k p vma start prot flags fd i = .panic .kalloc
      ∨ mmapPage L k p vma start prot flags fd i = .panic .kfree
      ∨ k.trans p i ≠ none ∧ mmapPage L k p vma start prot flags fd i = .panic .remap
      ∨ ∃ own' k3, Paged own k p vma start i.toNat (i.toNat + 4096) (prot ||| PTE_U) own' k3
          ∧ (prot.toNat < 4096 → Loadable own' k3 p i)
          ∧ mmapPage L k p vma start prot flags fd i
            = if flags &&& MAP_ANON = 0#32 then mmapLoad L k3 p fd i else .ok k3 := by
  unfold mmapPage
  cases hk : kalloc k.phys with
  | mk r s =>
  cases r with
  | none => exact .inl rfl
  | some pa =>
    simp only [mmapPage_record, mappagesV2P, V2P_P2V, memset_eq_setFrame]
    rcases newPage_cases (fun _ => 0) (prot ||| PTE_U) hf ht hi hk with
      ⟨hpres, hm⟩ | ⟨own', s', w, hm⟩ | ⟨-, -, hno, hm⟩
    · exact .inr (.inr (.inl ⟨hpres, by rw [hm]; rfl⟩))
    · refine .inr (.inr (.inr ⟨own', _, Paged.newPage hi hs w, fun hprot => .inl ⟨_,
        (w.after i).trans (if_pos rfl), ?_⟩, ?_⟩))
      · rw [frameOf_pte hprot]
        exact ⟨⟨_, w.frame⟩, w.content⟩
      · rw [hm, ok_bind]
        rfl
    · rw [hm, ok_bind]
      unfold mmapMapped
      rw [if_neg Bool.false_ne_true]
      dsimp only
      rcases kfree_cases L (s.setFrame pa fun _ => 0) (P2V (base pa)) with ⟨s', hfree⟩ | hfree
      · have w := hno L s' hfree
        have hpa : i ≠ start → (if i = start then P2V (base pa) else (k.vma vma).pa)
          = (k.vma vma).pa :=
          fun hne => if_neg hne
        refine .inr (.inr (.inr
          ⟨own, _, Paged.noPage hi hs hpa w, fun _ => .inr ⟨⟨?_, ?_⟩, ?_⟩, ?_⟩))
        · rw [kill_phys, kill_self, w.after]
          exact w.before
        · rw [kill_phys, w.freelist]
          rfl
        · simp
        · rw [hfree]
          rfl
      · exact .inr (.inl (by rw [hfree]; rfl))

/-- A file is loaded only with protection bits within the flags of an entry. -/
theorem LoadArgs.lt (ha : LoadArgs prot flags) (hanon : flags &&& MAP_ANON = 0#32) :
    prot.toNat < 4096 :=
  ha.resolve_left fun hne => hne hanon

section

variable (r : Ready own k p N) (hi : i.toNat % 4096 = 0) (hs : start.toNat % 4096 = 0)
variable (ha : LoadArgs prot flags)
include r hi hs ha

/-- One round of the mapping loop. -/
theorem mmapPage_ok (h : mmapPage L k p vma start prot flags fd i = .ok k') :
    ∃ own', Paged own k p vma start i.toNat (i.toNat + 4096) (prot ||| PTE_U) own' k' := by
  rcases mmapPage_cases L vma prot flags fd r.free r.tables hi hs with
    he | he | ⟨-, he⟩ | ⟨own', k3, w, hload, he⟩
  · cases he.symm.trans h
  · cases he.symm.trans h
  · cases he.symm.trans h
  refine ⟨own', ?_⟩
  rw [he] at h
  by_cases hanon : flags &&& MAP_ANON = 0#32
  · rw [if_pos hanon] at h
    have hprot := ha.lt hanon
    obtain ⟨s4, hk', hfiles, hcase⟩ := mmapLoad_ok (w.ready r) hi (hload hprot) h
    rcases hcase with rfl | ⟨pte, x, hpte, rfl⟩
    · rw [hk']
      exact ⟨w.free, w.tables, w.touch, w.keep, w.data, w.suffix, w.record, w.proc,
        by rw [w.rest], w.files.trans hfiles, w.others, w.inside, w.outside, w.first, w.later⟩
    · -- the load wrote to the frame the page was given in this round
      rcases (w.inside i le_rfl (by omega)).2 with ⟨_, hnone, _⟩ | ⟨f, hfree, hown, htr, -⟩
      · rw [hnone] at hpte
        cases hpte
      · grind [frameOf_pte, w.load]
  · rw [if_neg hanon] at h
    cases h
    exact w

/-- A round that panics with "remap" found the page already mapped, or loaded it, read-only,
    over the guard page of an area. -/
theorem mmapPage_remap (h : mmapPage L k p vma start prot flags fd i = .panic .remap) :
    k.trans p i ≠ none
      ∨ flags &&& MAP_ANON = 0#32 ∧ prot &&& PROT_WRITE = 0#32
        ∧ ∃ x v, N x ∧ k.deref x = .ok v ∧ Hits v i := by
  rcases mmapPage_cases L vma prot flags fd r.free r.tables hi hs with
    he | he | ⟨hpres, -⟩ | ⟨own', k3, w, hload, he⟩
  · cases he.symm.trans h
  · cases he.symm.trans h
  · exact .inl hpres
  rw [he] at h
  by_cases hanon : flags &&& MAP_ANON = 0#32
  · rw [if_pos hanon] at h
    obtain ⟨hpres, hro, x, v', hx, hd, hhit⟩ :=
      mmapLoad_remap (w.ready r) hi (hload (ha.lt hanon)) h
    refine .inr ⟨hanon, ?_, ?_⟩
    · rcases (w.inside i le_rfl (by omega)).2 with ⟨_, hnone, _⟩ | ⟨f, -, -, htr, -⟩
      · exact absurd hnone hpres
      · by_contra hw
        have hwr : k3.writable p i = true := by
          refine (writable_of_trans htr).mpr (fun h0 => hw ?_)
          rw [and_or_distrib_right, and_or_distrib_right,
            and_or_distrib_right, or_eq_zero_iff, or_eq_zero_iff,
            or_eq_zero_iff] at h0
          exact h0.1.2.1
        rw [hro] at hwr
        cases hwr
    · obtain ⟨v, hv, heq⟩ := w.deref hd
      refine ⟨x, v, hx, hv, ?_⟩
      rw [heq] at hhit
      exact ⟨hhit.start, hhit.flags, hhit.le, hhit.ge⟩
  · rw [if_neg hanon] at h
    cases h

end

/-- The next round of the loop: the page just mapped was below the kernel's, so the next
    one does not wrap around. -/
theorem Paged.next {perm : Word} (w : Paged own k p vma start i.toNat (i.toNat + 4096) perm own' k')
    (hkern : k.trans p KERNBASE ≠ none) (hi : i.toNat % 4096 = 0) (hle : i.toNat ≤ KERNBASE.toNat) :
    (i + PGSIZE).toNat = i.toNat + 4096 ∧ i.toNat + 4096 ≤ KERNBASE.toNat
      ∧ k'.trans p KERNBASE ≠ none := by
  have hk := toNat_KERNBASE
  have hsize := toNat_PGSIZE
  have hne : i.toNat ≠ KERNBASE.toNat := by
    intro heq
    have hi' : i = KERNBASE := eq_of_toNat_eq heq
    refine hkern ?_
    rw [← hi']
    exact (w.inside i le_rfl (by omega)).1
  refine ⟨?_, by omega, ?_⟩
  · rw [toNat_add, hsize]
    omega
  · rw [(w.outside KERNBASE (by omega)).1]
    exact hkern

section

variable (r : Ready own k p N) (hkern : k.trans p KERNBASE ≠ none) (hi : i.toNat % 4096 = 0)
variable (hle : i.toNat ≤ KERNBASE.toNat) (hs : start.toNat % 4096 = 0)
include r hkern hi hle hs

/-- The mapping loop, from a page not above the kernel's first: it maps every page up to
    `end_`, and `end_` is below the kernel. -/
theorem mmapPages_ok (hend : (end_.toNat + 1) % 4096 = 0) (ha : LoadArgs prot flags)
    (h : mmapPages L p vma start end_ prot flags fd n k i = .ok k') :
    (∃ own', Paged own k p vma start i.toNat
      (max i.toNat (end_.toNat + 1)) (prot ||| PTE_U) own' k')
      ∧ (i < end_ → end_.toNat + 1 ≤ KERNBASE.toNat) := by
  -- by induction on the rounds left; the kernel's first page, which is present, is never passed
  induction n generalizing own k i with
  | zero => cases h
  | succ n ih =>
    unfold mmapPages at h
    by_cases hlt : i < end_
    · rw [if_pos hlt] at h
      have hlt' : i.toNat < end_.toNat := hlt
      obtain ⟨k1, hpage, h⟩ := bind_eq_ok.mp h
      obtain ⟨own1, w⟩ := mmapPage_ok r hi hs ha hpage
      obtain ⟨hnext, hle', hkern'⟩ := w.next hkern hi hle
      obtain ⟨⟨own2, w'⟩, hbound⟩ := ih (w.ready r) hkern' (by omega) (by omega) h
      rw [hnext] at w'
      have hmax : max (i.toNat + 4096) (end_.toNat + 1) = max i.toNat (end_.toNat + 1) := by omega
      refine ⟨⟨own2, ?_⟩, fun _ => ?_⟩
      · rw [← hmax]
        exact w.trans w' (by omega) (by omega)
      · by_cases hlast : i + PGSIZE < end_
        · exact hbound hlast
        · have hge : end_.toNat ≤ (i + PGSIZE).toNat := BitVec.not_lt.mp hlast
          omega
    · rw [if_neg hlt] at h
      cases h
      have hge : end_.toNat ≤ i.toNat := BitVec.not_lt.mp hlt
      have hmax : max i.toNat (end_.toNat + 1) = i.toNat := by omega
      rw [hmax]
      exact ⟨⟨own, Paged.refl r.free r.tables⟩, fun h => absurd h hlt⟩

/-- Where the mapping loop can panic with "remap". -/
theorem mmapPages_remap (ha : LoadArgs prot flags)
    (h : mmapPages L p vma start end_ prot flags fd n k i = .panic .remap) :
    ∃ j : Word, i.toNat ≤ j.toNat ∧ j.toNat < end_.toNat ∧ j.toNat % 4096 = 0
      ∧ (k.trans p j ≠ none
        ∨ flags &&& MAP_ANON = 0#32 ∧ prot &&& PROT_WRITE = 0#32
          ∧ ∃ x v, N x ∧ k.deref x = .ok v ∧ Hits v j) := by
  induction n generalizing own k i with
  | zero => cases h
  | succ n ih =>
    unfold mmapPages at h
    by_cases hlt : i < end_
    · rw [if_pos hlt] at h
      rcases bind_eq_panic.mp h with hpage | ⟨k1, hpage, h⟩
      · exact ⟨i, le_rfl, hlt, hi, mmapPage_remap r hi hs ha hpage⟩
      · obtain ⟨own1, w⟩ := mmapPage_ok r hi hs ha hpage
        obtain ⟨hnext, hle', hkern'⟩ := w.next hkern hi hle
        obtain ⟨j, hj1, hj2, hj3, hcase⟩ := ih (w.ready r) hkern' (by omega) (by omega) h
        refine ⟨j, by omega, hj2, hj3, ?_⟩
        -- what held of `j` after this round held before it
        rcases hcase with htr | ⟨hanon, hw, x, v', hx, hd, hhit⟩
        · rw [(w.outside j (by omega)).1] at htr
          exact .inl htr
        · obtain ⟨v, hv, heq⟩ := w.deref hd
          rw [heq] at hhit
          exact .inr ⟨hanon, hw, x, v, hx, hv, hhit.start, hhit.flags, hhit.le, hhit.ge⟩
    · rw [if_neg hlt] at h
      cases h

end

end

end Xv6.Kernel
