import Xv6.ForkAreas

namespace Xv6.Kernel

open Function List Outcome Owner

/-!
# What `fork` does

* `fork_some` — the steps of a `fork` that returns a child;
* `Forked U own k p np l own' k'` — `np` is a child of `p`: a copy of the image, and pages for
  the areas of `l`; nothing else has changed;
* `fork_ok` — a `fork` that returns a child has done this, unless it freed a frame of the
  parent's because memory ran out while it was sharing.
-/

variable {U : Word → Prop} {L : Link} {own own' own'' : Frame → Owner}
  {k k' k'' : Kernel} {p np : Slot}
variable {fds : List (Fin NOFILE)} {fd : Fin NOFILE} {i : Fin NFILE} {k1 : Kernel}
   {l : List (VmaPtr × VmArea)} {f : Frame} {s : Phys} {q : Slot}

/-! ### The steps -/

/-- The child after `allocproc`, with kernel stack `f`. -/
def embryo (k : Kernel) (np : Slot) (f : Frame) (s : Phys) : Kernel :=
  { k with
    phys := s
    nextpid := k.nextpid + 1
    proc := Function.update k.proc np
      { k.proc np with state := .EMBRYO, pid := k.nextpid, kstack := some f } }

section

variable (k : Kernel) (np : Slot) (f : Frame) (s : Phys)

theorem embryo_pgdir (q : Slot) : ((k.embryo np f s).proc q).pgdir = (k.proc q).pgdir := by
  by_cases hq : q = np
  · subst hq
    simp [embryo]
  · simp [embryo, hq]

theorem embryo_sz (q : Slot) : ((k.embryo np f s).proc q).sz = (k.proc q).sz := by
  by_cases hq : q = np
  · subst hq
    simp [embryo]
  · simp [embryo, hq]

theorem embryo_kstack : ((k.embryo np f s).proc np).kstack = some f := by
  simp [embryo]

end

/-- A free slot and a kernel stack. -/
theorem allocproc_some (h : k.allocproc = (some np, k')) :
    k.unused = some np ∧ ∃ f s, kalloc k.phys = (some f, s) ∧ k' = k.embryo np f s := by
  unfold allocproc at h
  cases hu : k.unused with
  | none => simp [hu] at h
  | some q =>
    simp only [hu] at h
    split at h
    · cases h
    · rename_i f s hk
      obtain ⟨rfl, rfl⟩ := h
      refine ⟨rfl, f, s, hk, ?_⟩
      simp [embryo, setProc]

theorem unused_state (h : k.unused = some np) : (k.proc np).state = .UNUSED := by
  have := find?_some h
  simpa using this

/-- The child with the directory `copyuvm` returned. -/
def adopted (k : Kernel) (p np : Slot) (d : Frame) (s : Phys) : Kernel :=
  ({ k with phys := s } : Kernel).setProc np
    { k.proc np with pgdir := d, sz := (k.proc p).sz, parent := some p }

/-- The steps of a `fork` that returns a child. -/
theorem fork_some (h : fork L k p = .ok (some np, k')) :
    ∃ f s1 d s2 k3 k4, k.unused = some np ∧ kalloc k.phys = (some f, s1)
      ∧ copyuvm L s1 (k.proc p).pgdir (k.proc p).sz = .ok (some d, s2)
      ∧ forkFiles p np (List.finRange NOFILE) ((k.embryo np f s1).adopted p np d s2) = .ok k3
      ∧ forkAreas L p np loopBound k3 (.head p) = .ok k4
      ∧ k' = k4.setProc np { k4.proc np with state := .RUNNABLE } := by
  unfold fork at h
  cases hal : k.allocproc with
  | mk o k1 =>
  cases o with
  | none =>
    simp only [hal] at h
    cases h
  | some q =>
    simp only [hal] at h
    obtain ⟨hu, f, s1, hk, rfl⟩ := allocproc_some hal
    obtain ⟨⟨o, s2⟩, hcopy, h⟩ := bind_eq_ok.mp h
    rw [embryo_pgdir, embryo_sz] at hcopy
    cases o with
    | none =>
      simp only [embryo_kstack] at h
      obtain ⟨s3, -, h⟩ := bind_eq_ok.mp h
      cases h
    | some d =>
      obtain ⟨k3, hfiles, h⟩ := bind_eq_ok.mp h
      obtain ⟨k4, hareas, h⟩ := bind_eq_ok.mp h
      cases h
      exact ⟨f, s1, d, s2, k3, k4, hu, hk, hcopy, hfiles, hareas, rfl⟩

/-! ### Files -/

/-- Descriptors of a child: those of `fds` as in the parent `o`, if open there; the others as
    in `o'`. -/
def inherited (o o' : Fin NOFILE → Option (Fin NFILE)) (fds : List (Fin NOFILE)) :
    Fin NOFILE → Option (Fin NFILE) :=
  fun fd => if fd ∈ fds ∧ o fd ≠ none then o fd else o' fd

theorem inherited_nil (o o' : Fin NOFILE → Option (Fin NFILE)) : inherited o o' [] = o' := by
  ext fd
  simp [inherited]

theorem inherited_none {o o' : Fin NOFILE → Option (Fin NFILE)} (h : o fd = none) :
    inherited o o' (fd :: fds) = inherited o o' fds := by
  funext fd'
  by_cases hfd : fd' = fd
  · subst hfd
    simp [inherited, h]
  · simp [inherited, hfd]

theorem inherited_some {o o' : Fin NOFILE → Option (Fin NFILE)} (h : o fd = some i) :
    inherited o (Function.update o' fd (some i)) fds = inherited o o' (fd :: fds) := by
  funext fd'
  by_cases hfd : fd' = fd
  · subst hfd
    simp [inherited, h]
  · simp [inherited, hfd]

/-- The descriptors `fds` of `p` were duplicated for `np`. -/
structure Duped (k : Kernel) (p np : Slot) (fds : List (Fin NOFILE)) (k' : Kernel) : Prop where
  proc : k'.proc = Function.update k.proc np
    { k.proc np with ofile := inherited (k.proc p).ofile (k.proc np).ofile fds }
  file : ∀ i, k'.file i = { k.file i with
    ref := (k.file i).ref + fds.countP (fun fd => (k.proc p).ofile fd = some i) }
  rest : k' = { k with file := k'.file, proc := k'.proc }

/-- One more reference. -/
theorem filedup_ok (h : k.filedup i = .ok k') :
    1 ≤ (k.file i).ref ∧ k' = k.setFile i { k.file i with ref := (k.file i).ref + 1 } := by
  unfold filedup at h
  split at h
  · cases h
  · rename_i href
    exact ⟨not_lt.mp href, (ok.inj h).symm⟩

/-- One more descriptor was duplicated before. -/
theorem Duped.cons (hne : p ≠ np) (hsome : (k.proc p).ofile fd = some i)
    (hproc : k1.proc = Function.update k.proc np
      { k.proc np with ofile := Function.update (k.proc np).ofile fd (some i) })
    (hfile : k1.file = Function.update k.file i { k.file i with ref := (k.file i).ref + 1 })
    (hrest : k1 = { k with file := k1.file, proc := k1.proc }) (h : Duped k1 p np fds k') :
    Duped k p np (fd :: fds) k' := by
  have hp : k1.proc p = k.proc p := by rw [hproc, update_of_ne hne]
  refine ⟨?_, fun j => ?_, by rw [h.rest, hrest]⟩
  · rw [h.proc, hp, hproc, update_idem, update_self, ← inherited_some hsome]
  · rw [h.file, hp, hfile]
    by_cases hj : j = i
    · grind
    · rw [countP_cons_of_neg (by simp [hsome, Ne.symm hj]), update_of_ne hj]

/-- Over all descriptors. -/
theorem forkFiles_ok (hne : p ≠ np) (h : forkFiles p np fds k = .ok k') : Duped k p np fds k' := by
  induction fds generalizing k with
  | nil =>
    cases h
    exact ⟨by simp [inherited_nil], fun i => by simp, rfl⟩
  | cons fd fds ih =>
    unfold forkFiles at h
    split at h
    · rename_i hnone
      have w := ih h
      refine ⟨?_, fun i => ?_, w.rest⟩
      · rw [w.proc, inherited_none hnone]
      · rw [w.file, countP_cons_of_neg (by simp [hnone])]
    · rename_i i hsome
      obtain ⟨k1, hdup, h⟩ := bind_eq_ok.mp h
      obtain ⟨-, rfl⟩ := filedup_ok hdup
      exact (ih h).cons hne hsome rfl rfl rfl

/-- No panic on open files. -/
theorem forkFiles_total (hne : p ≠ np)
    (hopen : ∀ fd i, (k.proc p).ofile fd = some i → 1 ≤ (k.file i).ref) :
    ∃ k', forkFiles p np fds k = .ok k' := by
  induction fds generalizing k with
  | nil => exact ⟨k, rfl⟩
  | cons fd fds ih =>
    unfold forkFiles
    split
    · exact ih hopen
    · rename_i i hsome
      rw [filedup, if_neg (not_lt.mpr (hopen fd i hsome)), ok_bind]
      apply ih
      rw [setProc_ne _ _ hne]
      intro fd' j hj
      have hold := hopen fd' j hj
      show 1 ≤ (update k.file i { k.file i with ref := (k.file i).ref + 1 } j).ref
      by_cases hji : j = i
      · grind
      · rwa [update_of_ne hji]

/-! ### A child -/

/-- The frames `fork` may take or write to. -/
def forkedOwner (np : Slot) (o : Owner) : Prop := o.within (.proc np) ∨ o = .kstack np

/-- Enough free frames for a child with the areas `l`: its kernel stack, directory and page
    tables, a copy of the image, and one frame for each page of the areas. -/
def EnoughFrames (k : Kernel) (p : Slot) (l : List (VmaPtr × VmArea)) : Prop :=
  1026 + ((k.proc p).sz.toNat + 4095) / 4096 + areaPages l ≤ k.phys.freelist.length

/-- `np` is a new child of `p`, which has the areas `l`. -/
structure Forked (U : Word → Prop) (own : Frame → Owner) (k : Kernel) (p np : Slot)
    (l : List (VmaPtr × VmArea)) (own' : Frame → Owner) (k' : Kernel) : Prop where
  unused : k.unused = some np
  visits : Visits k (.head p) l
  free : Free own' k'.phys
  tables : Tables own' k'.phys.mem (.proc np) (k'.proc np).pgdir
  touch : Touch (forkedOwner np) own k.phys.mem own' k'.phys.mem
  keep : ∀ g, own g ≠ .free → own' g = own g
  data : ∀ g, own g ≠ .free → ¬ (own g).inTables (.proc np) → k'.phys.mem g = k.phys.mem g
  kern : k'.trans np KERNBASE ≠ none
  image : ∀ va : Word, va.toNat / 4096 * 4096 < (k.proc p).sz.toNat →
    ∃ pte f x, k.trans p va = some pte
      ∧ Fresh own (.proc np) (k'.proc np).pgdir va f x (PTE_FLAGS pte) own' k'.phys
      ∧ (U va → x = k.phys.mem (frameOf pte))
  pages : (k'.proc np).killed = false ∨ EnoughFrames k p l → ∀ x c, (x, c) ∈ l →
    (c.flags &&& MAP_SHARED ≠ 0#32 ∨ c.flags &&& MAP_PRIVATE ≠ 0#32) →
    ∀ va : Word, c.start ≤ va → va ≤ c.end_ → AreaPage U own k p np c va own' k'
  new : ∀ va pte, va < KERNBASE → k'.trans np va = some pte →
    va.toNat / 4096 * 4096 < (k.proc p).sz.toNat
      ∨ ∃ x c, (x, c) ∈ l ∧ c.start ≤ va ∧ va ≤ c.end_ ∧ AreaPage U own k p np c va own' k'
  others : ∀ q, q ≠ np → k'.proc q = k.proc q
  child : ∃ f, own' f = .kstack np ∧ (∃ b, k'.proc np = { k.proc np with
    state := .RUNNABLE, pid := k.nextpid, kstack := some f, pgdir := (k'.proc np).pgdir,
    sz := (k.proc p).sz, parent := some p,
    ofile := inherited (k.proc p).ofile (k.proc np).ofile (List.finRange NOFILE),
    killed := (k.proc np).killed || b })
  granted : ∀ q, q ≠ np → k'.granted q = k.granted q
  file : ∀ i, k'.file i = { k.file i with
    ref := (k.file i).ref + (List.finRange NOFILE).countP (fun fd => (k.proc p).ofile fd = some i) }
  rest : k' = { k with phys := k'.phys, proc := k'.proc, nextpid := k.nextpid + 1,
                       file := k'.file, granted := k'.granted }

/-- The areas of the list of `p` are as they should be. -/
theorem Visits.ok {x : VmaPtr} (h : Visits k x l) (hl : Lists own k p) (hx : Mine own p x) :
    ∀ y c, (y, c) ∈ l → Mine own p y ∧ k.deref y = .ok c ∧ c.Ok := by
  induction h with
  | stop => simp
  | @step x c l hd hs hrest ih =>
    have hnull : c.next ≠ .null := by
      intro hnull
      rw [hnull] at hrest
      cases hrest with
      | stop hd => cases hd
      | step hd => cases hd
    obtain ⟨hok, hnext⟩ := hl.area x c hx hd hs hnull
    intro y c' hc'
    rcases mem_cons.mp hc' with heq | hc'
    · cases heq
      exact ⟨hx, hd, hok⟩
    · exact ih hnext y c' hc'

/-- What `fork` relies on; `U` are the addresses whose pages are none of the child's frames,
    and no free ones. -/
structure Forkable (U : Word → Prop) (own : Frame → Owner) (k : Kernel) (p np : Slot) : Prop where
  used : p ≠ np
  free : Free own k.phys
  tables : Tables own k.phys.mem (.proc p) (k.proc p).pgdir
  pages : ∀ va pte, U va → k.trans p va = some pte → ¬ (own (frameOf pte)).within (.proc np)
  lists : Lists own k p
  size : (k.proc p).sz < KERNBASE

/-- After the kernel stack was taken. -/
theorem Forkable.start {s1 : Phys} (h : Forkable U own k p np) (hk : kalloc k.phys = (some f, s1)) :
    Free (Function.update own f (.kstack np)) s1
      ∧ Source U (Function.update own f (.kstack np)) s1 (.proc p) (k.proc p).pgdir (.proc np)
      ∧ Touch (forkedOwner np) own k.phys.mem (Function.update own f (.kstack np)) s1.mem
      ∧ (∀ g, own g ≠ .free → Function.update own f (.kstack np) g = own g)
      ∧ ∀ va, translate s1 (k.proc p).pgdir va = k.trans p va := by
  obtain ⟨-, hm⟩ := kalloc_some hk
  obtain ⟨hof, hf1⟩ := h.free.kalloc hk (.kstack np)
  have hkeep : ∀ g, own g ≠ .free → update own f (.kstack np) g = own g := by
    intro g hg
    refine update_of_ne ?_ _ _
    rintro rfl
    exact hg hof
  have htouch : Touch (forkedOwner np) own k.phys.mem (update own f (.kstack np)) s1.mem := by
    rw [hm]
    exact Touch.hand (.inl (by rw [hof]; trivial)) (.inr rfl)
  have hdir : ¬ forkedOwner np (.dir (.proc p)) := by
    rintro (h' | h')
    · exact h.used (by simpa [within] using h')
    · cases h'
  have htab : ∀ i, ¬ forkedOwner np (.table (.proc p) i) := by
    rintro i (h' | h')
    · exact h.used (by simpa [within] using h')
    · cases h'
  have htr : ∀ va, translate s1 (k.proc p).pgdir va = k.trans p va :=
    fun va => translate_mem hm _ va
  refine ⟨hf1, ⟨by simpa using h.used, htouch.tables hdir htab h.tables, fun va pte hva hpte => ?_⟩,
    htouch, hkeep, htr⟩
  rw [htr] at hpte
  have hout := h.pages va pte hva hpte
  rw [hkeep _ (fun hfree => hout (by rw [hfree]; trivial))]
  exact hout

/-- The state in which the areas of the child are mapped. -/
theorem Duped.parent {k2 k3 : Kernel} {own2 : Frame → Owner} (h : Duped k2 p np fds k3)
    (hp : Parent U own2 k2 p np) : Parent U own2 k3 p np := by
  have hphys : k3.phys = k2.phys := by rw [h.rest]
  have hdir : ∀ q, (k3.proc q).pgdir = (k2.proc q).pgdir := by
    intro q
    rw [h.proc]
    by_cases hq : q = np
    · subst hq
      rw [update_self]
    · rw [update_of_ne hq]
  refine ⟨hp.ne, ?_, by rw [hphys]; exact hp.free, ?_⟩
  · rw [hphys, hdir]
    exact hp.source
  · rw [hphys, hdir]
    exact hp.tables

theorem adopted_ne {d : Frame} (hq : q ≠ np) :
    (k.adopted p np d s).proc q = k.proc q := setProc_ne _ _ hq

theorem embryo_ne (hq : q ≠ np) : (k.embryo np f s).proc q = k.proc q := update_of_ne hq _ _

/-- The child before its areas are mapped: a copy of the image of `p`. -/
structure Nascent (U : Word → Prop) (own : Frame → Owner) (k : Kernel) (p np : Slot)
    (own' : Frame → Owner)
    (k' : Kernel) : Prop where
  parent : Parent U own' k' p np
  touch : Touch (forkedOwner np) own k.phys.mem own' k'.phys.mem
  keep : ∀ g, own g ≠ .free → own' g = own g
  data : ∀ g, own g ≠ .free → ¬ (own g).inTables (.proc np) → k'.phys.mem g = k.phys.mem g
  kern : k'.trans np KERNBASE ≠ none
  trans : ∀ va, k'.trans p va = k.trans p va
  same : ∀ va pte, U va → k.trans p va = some pte →
    k'.phys.mem (frameOf pte) = k.phys.mem (frameOf pte)
  image : ∀ va : Word, va.toNat / 4096 * 4096 < (k.proc p).sz.toNat →
    ∃ pte f x, k.trans p va = some pte
      ∧ Fresh own (.proc np) (k'.proc np).pgdir va f x (PTE_FLAGS pte) own' k'.phys
      ∧ (U va → x = k.phys.mem (frameOf pte))
  above : ∀ va : Word, va < KERNBASE → (k.proc p).sz.toNat ≤ va.toNat / 4096 * 4096 →
    k'.trans np va = none
  room : ∀ n, 1026 + ((k.proc p).sz.toNat + 4095) / 4096 + n ≤ k.phys.freelist.length →
    Roomy k'.phys (k'.proc np).pgdir n
  others : ∀ q, q ≠ np → k'.proc q = k.proc q
  child : ∃ f, own' f = .kstack np ∧ k'.proc np = { k.proc np with
    state := .EMBRYO, pid := k.nextpid, kstack := some f, pgdir := (k'.proc np).pgdir,
    sz := (k.proc p).sz, parent := some p,
    ofile := inherited (k.proc p).ofile (k.proc np).ofile (List.finRange NOFILE) }
  file : ∀ i, k'.file i = { k.file i with
    ref := (k.file i).ref + (List.finRange NOFILE).countP (fun fd => (k.proc p).ofile fd = some i) }
  rest : k' = { k with phys := k'.phys, proc := k'.proc, nextpid := k.nextpid + 1,
                       file := k'.file }

/-- `fork` up to the loop over the areas. -/
theorem Forkable.nascent {d : Frame} {s1 s2 : Phys} (hp : Forkable U own k p np)
    (hk : kalloc k.phys = (some f, s1))
    (hcopy : copyuvm L s1 (k.proc p).pgdir (k.proc p).sz = .ok (some d, s2))
    (hfiles : forkFiles p np (finRange NOFILE) ((k.embryo np f s1).adopted p np d s2) = .ok k') :
    ∃ own', Nascent U own k p np own' k' := by
  obtain ⟨hf1, hsrc1, htouch1, hkeep1, htr1⟩ := hp.start hk
  obtain ⟨hl, hm1⟩ := kalloc_some hk
  have hne := hp.used
  obtain ⟨own2, w2⟩ := copyuvm_ok hsrc1 hf1 (Nat.le_of_lt hp.size) hcopy
  obtain ⟨hsrc2, htr2, hmem2⟩ := hsrc1.touch w2.touch
  -- The three parts: kernel stack, image, descriptors.
  have wf := forkFiles_ok hne hfiles
  have hp2 : Parent U own2 ((k.embryo np f s1).adopted p np d s2) p np := by
    refine ⟨hne, ?_, w2.free, ?_⟩
    · rw [adopted_ne hne, embryo_ne hne]
      exact hsrc2
    · simpa [adopted] using w2.tables
  have hphys : k'.phys = s2 := by rw [wf.rest]; rfl
  have hnp : k'.proc np = { k.proc np with
      state := .EMBRYO, pid := k.nextpid, kstack := some f, pgdir := d, sz := (k.proc p).sz,
      parent := some p,
      ofile := inherited (k.proc p).ofile (k.proc np).ofile (finRange NOFILE) } := by
    rw [wf.proc, update_self, adopted_ne hne, embryo_ne hne]
    simp [adopted, embryo, hne]
  have hother : ∀ q, q ≠ np → k'.proc q = k.proc q := by
    intro q hq
    rw [wf.proc, update_of_ne hq, adopted_ne hq, embryo_ne hq]
  have hd : (k'.proc np).pgdir = d := by rw [hnp]
  have hown2 : ∀ g, own g ≠ .free → own2 g = own g := by
    intro g hg
    rw [w2.keep g (by rwa [hkeep1 g hg]), hkeep1 g hg]
  refine ⟨own2, wf.parent hp2, ?_, hown2, ?_, ?_, ?_, ?_, ?_, ?_, ?_, hother, ⟨f, ?_, ?_⟩, ?_, ?_⟩
  · rw [hphys]
    exact htouch1.trans (w2.touch.mono fun o => .inl)
  · simp_all [w2.data]
  · rw [Kernel.trans, hphys, hd]
    exact w2.kern
  · intro va
    rw [Kernel.trans, hphys, hother p hne, htr2, htr1]
  · intro va pte hva hpte
    rw [hphys, hmem2 va pte hva (by rw [htr1, hpte]), hm1]
  · intro va hva
    obtain ⟨pte, g, x, hpte, hfresh, hx⟩ := w2.image va hva
    rw [htr1] at hpte
    rw [hm1] at hx
    refine ⟨pte, g, x, hpte, ?_, hx⟩
    rw [hphys, hd]
    refine { hfresh with free := ?_ }
    by_contra hg
    have := hfresh.free
    rw [hkeep1 g hg] at this
    exact hg this
  · intro va hva hsz
    rw [Kernel.trans, hphys, hd]
    exact w2.above va hva hsz
  · grind [w2.room, length_cons]
  · rw [w2.keep f (by simp), update_self]
  · rw [hd]
    exact hnp
  · intro i
    rw [wf.file, adopted_ne hne, embryo_ne hne]
    rfl
  · rw [wf.rest]
    rfl

theorem Nascent.deref (h : Nascent U own k p np own' k') (x : VmaPtr) : k'.deref x = k.deref x := by
  obtain ⟨f, -, hb⟩ := h.child
  refine deref_congr (by rw [h.rest]) (fun q => ?_) x
  by_cases hq : q = np
  · subst hq
    rw [hb]
    exact ⟨rfl, rfl⟩
  · rw [h.others q hq]
    exact ⟨rfl, rfl⟩

/-- What is said of a page holds in every state with the same memory. -/
theorem AreaPage.same_phys {c : VmArea} {va : Word} (h : AreaPage U own k p np c va own' k1)
    (hphys : k'.phys = k1.phys) (hdir : (k'.proc np).pgdir = (k1.proc np).pgdir)
    (hgr : k'.granted = k1.granted) :
    AreaPage U own k p np c va own' k' := by
  unfold AreaPage at h ⊢
  rw [Kernel.trans, hphys, hdir, hgr]
  exact h

/-- The areas are mapped, and the child can run. -/
theorem Nascent.forked {k3 k4 : Kernel} {own3 own4 : Frame → Owner}
    (hn : Nascent U own k p np own3 k3) (w : AreasMapped U own3 k3 p np l own4 k4)
    (hunused : k.unused = some np) (hv : Visits k (.head p) l) :
    Forked U own k p np l own4 (k4.setProc np { k4.proc np with state := .RUNNABLE }) := by
  have hdir : ((k4.setProc np { k4.proc np with state := .RUNNABLE }).proc np).pgdir
      = (k3.proc np).pgdir := by
    rw [setProc_self, ← w.child.pgdir np]
  have hgrows := w.child.grows
  have hkeep : ∀ g, own g ≠ .free → own4 g = own g := by
    intro g hg
    rw [hgrows.keep g (by rwa [hn.keep g hg]), hn.keep g hg]
  have hgr3 : k3.granted = k.granted := by rw [hn.rest]
  -- a page of an area, seen from the first and in the last state
  have hpage : ∀ {c : VmArea} {va : Word}, AreaPage U own3 k3 p np c va own4 k4 →
      AreaPage U own k p np c va own4 (k4.setProc np { k4.proc np with state := .RUNNABLE }) := by
    intro c va h
    refine AreaPage.same_phys (h.before (fun g hg => ?_) hn.trans hn.same (by rw [hgr3])) rfl
      (by rw [setProc_self]) rfl
    by_contra hfree
    rw [hn.keep g hfree] at hg
    exact hfree hg
  obtain ⟨f, hf, hchild⟩ := hn.child
  obtain ⟨b, hb⟩ := w.child.only.proc
  exact {
    unused := hunused
    visits := hv
    free := hgrows.free
    tables := by
      rw [hdir]
      exact hgrows.tables
    touch := hn.touch.trans (hgrows.touch.mono fun o => .inl)
    keep := hkeep
    data := by
      intro g hg hin
      have hg3 := hn.keep g hg
      exact (hgrows.data g (by rwa [hg3]) (by rwa [hg3])).trans (hn.data g hg hin)
    kern := by
      obtain ⟨pte, hpte⟩ := Option.ne_none_iff_exists'.mp hn.kern
      rw [Kernel.trans, hdir]
      have := hgrows.mono KERNBASE pte hpte
      simp only [setProc]
      rw [this]
      simp
    image := by
      intro va hva
      obtain ⟨pte, g, x, hpte, hfresh, hx⟩ := hn.image va hva
      rw [hdir]
      exact ⟨pte, g, x, hpte, hfresh.grows hgrows, hx⟩
    pages := by
      intro hk x c hc hf va h1 h2
      refine hpage (w.pages (hk.imp (fun h => ?_) (hn.room _)) x c hc hf va h1 h2)
      rwa [setProc_self] at h
    new := by
      intro va pte hva hpte
      have hpte4 : k4.trans np va = some pte := by
        rw [Kernel.trans, hdir, ← w.child.pgdir np] at hpte
        exact hpte
      rcases w.new va pte hpte4 with h3 | ⟨x, c, hc, h1, h2, h⟩
      · left
        by_contra hge
        rw [hn.above va hva (by omega)] at h3
        cases h3
      · exact .inr ⟨x, c, hc, h1, h2, hpage h⟩
    others := by
      intro q hq
      rw [setProc_ne _ _ hq, hb, update_of_ne hq, hn.others q hq]
    child := by
      refine ⟨f, by rw [hgrows.keep f (by rw [hf]; simp), hf], b, ?_⟩
      rw [hdir, setProc_self, hb, update_self, hchild]
    granted := fun q hq => (w.child.others q hq).trans (by rw [hgr3])
    file := by
      intro i
      rw [← hn.file i]
      show k4.file i = k3.file i
      rw [w.child.only.rest]
    rest := by
      rw [w.child.only.rest, hn.rest]
      rfl }

/-- What a `fork` that returns a child has done. -/
theorem fork_ok (hp : Forkable U own k p np) (h : fork L k p = .ok (some np, k'))
    (hsafe : ∀ l, Visits k (.head p) l →
      (∀ x c, (x, c) ∈ l → ¬ (c.flags &&& MAP_SHARED ≠ 0#32 ∧ c.start < c.end_))
        ∨ (k'.proc np).killed = false ∨ EnoughFrames k p l) :
    ∃ l own', Forked U own k p np l own' k' := by
  obtain ⟨f, s1, d, s2, k3, k4, hunused, hk, hcopy, hfiles, hareas, rfl⟩ := fork_some h
  obtain ⟨own3, hn⟩ := hp.nascent hk hcopy hfiles
  obtain ⟨l, hv3⟩ := forkAreas_visits hareas
  have hv : Visits k (.head p) l := hv3.congr fun x => (hn.deref x).symm
  have hok := hv.ok hp.lists (show Mine own p (.head p) from rfl)
  have hshare : ShareSafe k3 np l k4 := by
    rcases hsafe l hv with hs | hs | hs
    · exact .inl hs
    · rw [setProc_self] at hs
      exact .inr (.inl hs)
    · exact .inr (.inr (hn.room _ hs))
  obtain ⟨own4, w⟩ := forkAreas_ok hn.parent hv3 (fun x c hc => (hok x c hc).2.2) hshare hareas
  exact ⟨l, own4, hn.forked w hunused hv⟩

/-- The parent sees nothing of what happens. -/
theorem Forked.parent (h : Forked U own k p np l own' k') (hp : Forkable U own k p np) :
    (∀ va, k'.trans p va = k.trans p va)
      ∧ ∀ va pte, U va → k.trans p va = some pte →
          k'.phys.mem (frameOf pte) = k.phys.mem (frameOf pte) := by
  have hne : (Space.proc p) ≠ .proc np := by simpa using hp.used
  refine ⟨fun va => ?_, fun va pte hva hpte => ?_⟩
  · rw [Kernel.trans, h.others p hp.used]
    refine translate_congr hp.tables (fun f hf => ?_) va
    rcases hf with hf | ⟨i, hf⟩ <;> exact h.data f (by rw [hf]; simp) (by rw [hf]; exact hne)
  · have hout := hp.pages va pte hva hpte
    refine h.data _ (fun hfree => hout (by rw [hfree]; trivial)) fun hin => ?_
    exact hout (within_of_inTables hin)

/-! ### No child -/

end Xv6.Kernel
