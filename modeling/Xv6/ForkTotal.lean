import Xv6.ForkSpec
import Xv6.Ordered

namespace Xv6.Kernel

open BitVec List Outcome Phys

/-!
# When `fork` succeeds

The partial results about `fork` say what it has done if it returns.  Here it is shown to
return:

* `forkAreas_total` — with enough free frames, and no two areas meeting, the child is given
  all pages of all areas;
* `fork_total` — with a free slot and enough free frames, `fork` of a process whose pages
  are all there returns a child that is not killed.
-/

variable {U : Word → Prop} {L : Link} {own own' own'' : Frame → Owner}
  {k k' k'' : Kernel} {p np : Slot}
variable {m : Nat} {i : Word} {c : VmArea} {l : List (VmaPtr × VmArea)}

/-! ### The loop returns -/

section

variable (hp : Parent U own k p np)
include hp

/-- A page that the parent has and the child has not is copied, if there is memory. -/
theorem forkPage_total {prot : Word} (hal : i.toNat % 4096 = 0) (hpresent : k.trans p i ≠ none)
    (habsent : k.trans np i = none) (hroom : Roomy k.phys (k.proc np).pgdir (m + 1)) :
    ∃ k', k.forkPage L p np prot i = .ok k' ∧ (k'.proc np).killed = (k.proc np).killed := by
  cases hl : k.phys.freelist with
  | nil =>
    unfold Roomy at hroom
    rw [hl, length_nil] at hroom
    omega
  | cons f rest =>
    have hk := kalloc_cons hl
    have hof : own f = .free := hp.free.free f (by simp [hl])
    have hfd : f ≠ (k.proc np).pgdir := by
      rintro rfl
      rw [hp.tables.dir] at hof
      cases hof
    have hpde : k.phys.mem (k.proc p).pgdir (PDX i) &&& PTE_P ≠ 0#32 := by
      by_contra hv
      apply hpresent
      rw [trans, translate, pte?_eq_leaf, TwoLevel.leaf_of_not_valid
        (by simpa [pdeFormat] using hv)]
      rfl
    generalize hx : k.phys.mem (frameOf (k.phys.mem (frameOf (k.phys.mem (k.proc p).pgdir (PDX i)))
      (PTX i))) = x
    obtain ⟨hf1, ht1, htr1⟩ := newPage_start hp.free hp.tables hk
      (o := .page (.proc np) (frameOf i)) (by simp [Owner.inTables]) x
    obtain ⟨s2, hmap⟩ : ∃ s2, mappages (setFrame { k.phys with freelist := rest } f x)
        (k.proc np).pgdir i PGSIZE (base f) (prot ||| PTE_U) = .ok (true, s2) :=
      mappages_page_roomy hf1.list ht1 hal ((hroom.kalloc hk).setFrame hfd _)
        (by rw [htr1]; exact habsent)
    refine ⟨({ k with phys := s2 } : Kernel).grant np i (some f), ?_, rfl⟩
    unfold forkPage
    simp only [hk, walkpgdir_false, if_pos hpde, hx, mappagesV2P, V2P_P2V]
    change (mappages (setFrame { k.phys with freelist := rest } f x) (k.proc np).pgdir i PGSIZE
      (base f) (prot ||| PTE_U) >>= _) = _
    rw [hmap, ok_bind]
    rfl

/-- So is a page of any area, unless it is shared: then it is mapped. -/
theorem forkRound_total (hal : i.toNat % 4096 = 0) (hpresent : k.trans p i ≠ none)
    (habsent : k.trans np i = none) (hroom : Roomy k.phys (k.proc np).pgdir (m + 1)) :
    ∃ k', forkRound L p np c k i = .ok k' ∧ (k'.proc np).killed = (k.proc np).killed := by
  unfold forkRound
  split
  · obtain ⟨s, hmap⟩ : ∃ s, mappages k.phys (k.proc np).pgdir i PGSIZE (V2P c.pa) (c.prot ||| PTE_U)
        = .ok (true, s) := mappages_page_roomy hp.free.list hp.tables hal hroom habsent
    rw [mappagesV2P, hmap]
    exact ⟨_, rfl, rfl⟩
  · exact forkPage_total hp hal hpresent habsent hroom

theorem forkRounds_total {n : Nat} (hal : i.toNat % 4096 = 0) (hend : (c.end_.toNat + 1) % 4096 = 0)
    (hlt : c.end_.toNat < KERNBASE.toNat) (hn : c.end_.toNat - i.toNat + 4096 ≤ n * 4096)
    (hpresent : ∀ va : Word, i ≤ va → va ≤ c.end_ → k.trans p va ≠ none)
    (habsent : ∀ va : Word, i ≤ va → va ≤ c.end_ → k.trans np va = none)
    (hroom : Roomy k.phys (k.proc np).pgdir ((c.end_.toNat + 1 - i.toNat) / 4096 + m)) :
    ∃ k', forkRounds L p np c n k i = .ok k' ∧ (k'.proc np).killed = (k.proc np).killed := by
  induction n generalizing own k i with
  | zero => omega
  | succ n ih =>
    unfold forkRounds
    by_cases hi : i < c.end_
    · have hi' : i.toNat < c.end_.toNat := hi
      have hle : i ≤ c.end_ := Nat.le_of_lt hi
      have hnext := toNat_add_PGSIZE i (by omega)
      have hafter : ∀ {va : Word}, i + PGSIZE ≤ va → i.toNat + 4096 ≤ va.toNat := by
        intro va hva
        rw [← hnext]
        exact hva
      have hroom' : Roomy k.phys (k.proc np).pgdir
          ((c.end_.toNat + 1 - (i.toNat + 4096)) / 4096 + m + 1) := hroom.mono (by omega)
      obtain ⟨k1, hpage, hk1⟩ := forkRound_total (L := L) hp hal (hpresent i (BitVec.le_refl i) hle)
        (habsent i (BitVec.le_refl i) hle) hroom'
      obtain ⟨own1, w⟩ := forkRound_ok hp hal (fun _ => .inr hroom) hpage
      obtain ⟨hp1, htr1, -, -⟩ := hp.child w.child
      rw [if_pos hi, hpage, ok_bind, ← hk1]
      refine ih hp1 (by omega) (by omega) ?_ ?_ ?_
      · grind
      · intro va h1 h2
        have h1' := hafter h1
        by_contra hne
        obtain ⟨pte, hpte⟩ := Option.ne_none_iff_exists'.mp hne
        rcases w.new va pte hpte with hold | ⟨-, h3, -⟩
        · grind
        · omega
      · rw [w.child.pgdir, hnext]
        exact w.room _ (hroom'.mono (by omega))
    · exact ⟨k, by rw [if_neg hi], rfl⟩

theorem forkArea_total (hc : c.Ok)
    (hpresent : ∀ va : Word, c.start ≤ va → va ≤ c.end_ → k.trans p va ≠ none)
    (habsent : ∀ va : Word, c.start ≤ va → va ≤ c.end_ → k.trans np va = none)
    (hroom : Roomy k.phys (k.proc np).pgdir ((c.end_.toNat + 1 - c.start.toNat) / 4096 + m)) :
    ∃ k', forkArea L p np c k = .ok k' ∧ (k'.proc np).killed = (k.proc np).killed := by
  have hb : loopBound = 2097152 := rfl
  have hend := hc.end_lt
  unfold forkArea
  split
  · exact forkRounds_total hp hc.start_aligned hc.end_aligned hend (by omega) hpresent habsent hroom
  · exact ⟨k, rfl, rfl⟩

/-- With enough free frames, areas that are mapped in the parent, and that lie one above the
    other where the child has nothing yet, are all given to the child. -/
theorem forkAreas_total {x : VmaPtr} {n : Nat} {lo : Nat} (hv : Visits k x l)
    (hok : ∀ x c, (x, c) ∈ l → c.Ok) (hn : l.length < n)
    (hsorted : l.Pairwise (fun a b => a.2.end_.toNat < b.2.start.toNat))
    (hlo : ∀ x c, (x, c) ∈ l → lo ≤ c.start.toNat)
    (hpresent : ∀ x c, (x, c) ∈ l → ∀ va : Word, c.start ≤ va → va ≤ c.end_ → k.trans p va ≠ none)
    (habsent : ∀ va : Word, lo ≤ va.toNat → va < KERNBASE → k.trans np va = none)
    (hroom : Roomy k.phys (k.proc np).pgdir (areaPages l + m)) :
    ∃ k', forkAreas L p np n k x = .ok k' ∧ (k'.proc np).killed = (k.proc np).killed := by
  induction l generalizing own k x n lo with
  | nil =>
    cases hv with
    | stop hx hstart =>
      cases n with
      | zero => omega
      | succ n => exact ⟨k, by rw [forkAreas_succ, hx, ok_bind, if_pos hstart], rfl⟩
  | cons a l ih =>
    cases hv with
    | @step _ c _ hx hstart hrest =>
      cases n with
      | zero => omega
      | succ n =>
        have hmem : (x, c) ∈ (x, c) :: l := mem_cons_self ..
        have hc : c.Ok := hok x c hmem
        have hstartlo := hlo x c hmem
        rw [pairwise_cons] at hsorted
        have hroom' := hroom
        rw [areaPages_cons, Nat.add_assoc] at hroom'
        have hbelow : ∀ {va : Word}, va ≤ c.end_ → va < KERNBASE :=
          fun hva => Nat.lt_of_le_of_lt hva hc.end_lt
        obtain ⟨k1, harea, hk1⟩ := forkArea_total (L := L) hp hc (hpresent x c hmem)
          (fun va h1 h2 => habsent va (Nat.le_trans hstartlo h1) (hbelow h2)) hroom'
        obtain ⟨own1, hi, w, hle, -⟩ := forkArea_ok hp hc
          (fun _ _ => .inr (hroom'.mono (Nat.le_add_right _ _))) harea
        obtain ⟨hp1, htr1, -, -⟩ := hp.child w.child
        rw [forkAreas_succ, hx, ok_bind, if_neg hstart, harea, ok_bind, ← hk1]
        have hlo' : ∀ y c', (y, c') ∈ l → max lo (c.end_.toNat + 1) ≤ c'.start.toNat := by grind
        refine ih hp1 (hrest.congr w.child.only.deref)
          (fun y c' hc' => hok y c' (mem_cons_of_mem _ hc')) ?_ hsorted.2 hlo' ?_ ?_ ?_
        · rw [length_cons] at hn
          omega
        · grind
        -- Areas are in order: what this one mapped lies below the rest.
        · intro va h1 h2
          by_contra hne
          obtain ⟨pte, hpte⟩ := Option.ne_none_iff_exists'.mp hne
          rcases w.new va pte hpte with hold | ⟨-, h3, -⟩
          · rw [habsent va (by omega) h2] at hold
            cases hold
          · omega
        · rw [w.child.pgdir]
          refine w.room _ (hroom'.mono ?_)
          show (hi - c.start.toNat) / 4096 + (areaPages l + m)
            ≤ (c.end_.toNat + 1 - c.start.toNat) / 4096 + (areaPages l + m)
          omega

end

theorem allocproc_total {f : Frame} {s : Phys} (hu : k.unused = some np)
    (hk : kalloc k.phys = (some f, s)) : k.allocproc = (some np, k.embryo np f s) := by
  have hk' : kalloc (({ k.setProc np { k.proc np with state := .EMBRYO, pid := k.nextpid } with
      nextpid := k.nextpid + 1 } : Kernel).phys) = (some f, s) := hk
  unfold allocproc
  simp only [hu, hk']
  simp [embryo, setProc]

/-- `fork` returns a child if there is a slot for it and memory enough, if the pages of the
    image and of the areas are all there, and if the areas lie one above the other, above the
    image. -/
theorem fork_total (hp : Forkable U own k p np) (hunused : k.unused = some np)
    (hv : Visits k (.head p) l) (hn : l.length < loopBound)
    (hsorted : l.Pairwise (fun a b => a.2.end_.toNat < b.2.start.toNat))
    (habove : ∀ x c, (x, c) ∈ l → (k.proc p).sz ≤ c.start)
    (hpresent : ∀ x c, (x, c) ∈ l → ∀ va : Word, c.start ≤ va → va ≤ c.end_ → k.trans p va ≠ none)
    (himage : ∀ va : Word, va < (k.proc p).sz → k.trans p va ≠ none)
    (hopen : ∀ fd i, (k.proc p).ofile fd = some i → 1 ≤ (k.file i).ref)
    (henough : EnoughFrames k p l) :
    ∃ k', fork L k p = .ok (some np, k') ∧ (k'.proc np).killed = (k.proc np).killed := by
  have hne := hp.used
  unfold EnoughFrames at henough
  cases hl : k.phys.freelist with
  | nil =>
    rw [hl, length_nil] at henough
    omega
  | cons f rest =>
    have hk := kalloc_cons hl
    obtain ⟨hf1, hsrc1, -, -, htr1⟩ := hp.start hk
    have hlen : 1025 + ((k.proc p).sz.toNat + 4095) / 4096 ≤ rest.length := by
      rw [hl, length_cons] at henough
      omega
    -- the image
    obtain ⟨d, s2, hcopy⟩ := copyuvm_total (L := L) hsrc1 hf1 (Nat.le_of_lt hp.size)
      (fun va hva => by rw [htr1]; exact himage va hva) hlen
    -- the files
    obtain ⟨k3, hfiles⟩ : ∃ k3, forkFiles p np (finRange NOFILE)
        ((k.embryo np f { k.phys with freelist := rest }).adopted p np d s2) = .ok k3 := by
      refine forkFiles_total hne ?_
      rw [adopted_ne hne, embryo_ne hne]
      exact hopen
    obtain ⟨own3, hn3⟩ := hp.nascent hk hcopy hfiles
    -- the areas
    have hok := hv.ok hp.lists (show Mine own p (.head p) from rfl)
    have hlo : ∀ x c, (x, c) ∈ l → ((k.proc p).sz.toNat + 4095) / 4096 * 4096 ≤ c.start.toNat := by
      intro x c hc
      have hle : (k.proc p).sz.toNat ≤ c.start.toNat := habove x c hc
      have hal := (hok x c hc).2.2.start_aligned
      omega
    have habsent : ∀ va : Word, ((k.proc p).sz.toNat + 4095) / 4096 * 4096 ≤ va.toNat →
        va < KERNBASE → k3.trans np va = none :=
      fun va hva hlt => hn3.above va hlt (by omega)
    obtain ⟨k4, hareas, hk4⟩ := forkAreas_total (L := L) (m := 0) hn3.parent (hv.congr hn3.deref)
      (fun x c hc => (hok x c hc).2.2) hn hsorted hlo
      (fun x c hc va h1 h2 => by rw [hn3.trans]; exact hpresent x c hc va h1 h2) habsent
      (hn3.room _ henough)
    obtain ⟨g, -, hchild⟩ := hn3.child
    refine ⟨k4.setProc np { k4.proc np with state := .RUNNABLE }, ?_, ?_⟩
    · have hcopy' : copyuvm L (k.embryo np f { k.phys with freelist := rest }).phys
          ((k.embryo np f { k.phys with freelist := rest }).proc p).pgdir
          ((k.embryo np f { k.phys with freelist := rest }).proc p).sz = .ok (some d, s2) := by
        rw [embryo_pgdir, embryo_sz]
        exact hcopy
      unfold fork
      rw [allocproc_total hunused hk]
      simp only
      rw [hcopy', ok_bind]
      show (forkFiles p np (finRange NOFILE)
        ((k.embryo np f { k.phys with freelist := rest }).adopted p np d s2) >>= _) = _
      rw [hfiles, ok_bind, hareas, ok_bind]
      rfl
    · rw [setProc_self, hk4, hchild]

/-- The list of a process is what `fork` walks. -/
theorem Ordered.visits (h : Ordered k p l) : Visits k (.head p) l := by
  have hstart : ∀ c v, (c, v) ∈ l → v.start ≠ MAX_ADDR := fun c v hv => h.start_ne hv
  have hpath := h.path
  have hlast : ∃ v, k.deref (.tail p) = .ok v ∧ v.start = MAX_ADDR := ⟨_, rfl, h.tail⟩
  clear h
  generalize VmaPtr.head p = x, VmaPtr.tail p = y at hpath hlast
  induction hpath with
  | nil =>
    obtain ⟨v, hd, hv⟩ := hlast
    exact .stop hd hv
  | @cons x y v l hx _ ih =>
    exact .step (read_eq_some.mp hx) (hstart x v (mem_cons_self ..))
      (ih (fun c u hu => hstart c u (mem_cons_of_mem _ hu)) hlast)

/-- `fork` returns a child for a process with a list in order. -/
theorem Ordered.fork_total (h : Ordered k p l) (hpresent : Present k p l)
    (hp : Forkable U own k p np) (hunused : k.unused = some np) (hn : l.length < loopBound)
    (hsz : (k.proc p).sz ≤ MIN_ADDR)
    (himage : ∀ va : Word, va < (k.proc p).sz → k.trans p va ≠ none)
    (hopen : ∀ fd i, (k.proc p).ofile fd = some i → 1 ≤ (k.file i).ref)
    (henough : EnoughFrames k p l) :
    ∃ k', fork L k p = .ok (some np, k') ∧ (k'.proc np).killed = (k.proc np).killed := by
  have hsorted : l.Pairwise (fun a b => a.2.end_.toNat < b.2.start.toNat) := by
    have hlaid := h.laid.pairwise
    unfold segs at hlaid
    rw [pairwise_map] at hlaid
    exact hlaid.imp fun hab => hab.2
  refine Kernel.fork_total hp hunused h.visits hn hsorted (fun x c hc => ?_)
    hpresent himage hopen henough
  have := (h.start_lt hc).1
  exact Nat.le_trans hsz this

end Xv6.Kernel
