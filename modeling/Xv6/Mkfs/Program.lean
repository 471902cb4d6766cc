import Xv6.Mkfs.Appends

namespace Xv6.Mkfs

open Fs Function List State Outcome

/-!
# The program

* `mkfsOps` — what mkfs adds and appends, as steps;
* `mkfs_eq` — mkfs takes these steps and then finishes the image;
* `run_filesOps` — the files that there are after them;
* `appends_read` — `readi` of the kernel returns what was appended.
-/

/-- The bytes of a file that mkfs is called with. -/
def Arg.contents (a : Arg) : List Byte := (a.reads.getD []).flatMap (·.1)

/-- Its name in the root directory. -/
def Arg.entry (a : Arg) : List Byte := if a.name.head? = some 95 then a.name.tail else a.name

/-- The file is in the current directory of the host, and can be opened. -/
structure Arg.Good (a : Arg) : Prop where
  name : 47 ∉ a.name
  opens : a.reads.isSome

/-- What is done for a file that gets inode `i`. -/
def Arg.ops (i : Nat) (a : Arg) : List Op :=
  .ialloc T_FILE :: .iappend ROOTINO (dirent (BitVec.ofNat 32 i) a.entry) ::
    (a.reads.getD []).map (fun c => .iappend i c.1)

/-- What is done for the files, the first of which gets inode `i`. -/
def filesOps : (i : Nat) → List Arg → List Op
  | _, [] => []
  | i, a :: argv => a.ops i ++ filesOps (i + 1) argv

/-- What is done for the root directory. -/
def rootOps : List Op :=
  [.ialloc T_DIR, .iappend ROOTINO (dirent (BitVec.ofNat 32 ROOTINO) dot.1),
    .iappend ROOTINO (dirent (BitVec.ofNat 32 ROOTINO) dotdot.1)]

/-- All that mkfs does before it finishes the image. -/
def mkfsOps (argv : List Arg) : List Op := rootOps ++ filesOps (ROOTINO + 1) argv

variable {s s' : State} {f : Made} {i : Nat} {a : Arg} {argv : List Arg}
variable {inum rootino : Word} {ops : List Op}

/-! ### Inode numbers are given one after another -/

theorem winode_freeinode {ip : Din} (h : s.winode inum ip = .ok s') :
    s'.freeinode = s.freeinode := by
  obtain ⟨buf, -, h⟩ := bind_eq_ok.mp h
  cases h
  rfl

theorem ialloc_freeinode {t : BitVec 16} (h : s.ialloc t = .ok (inum, s')) :
    inum = s.freeinode ∧ s'.freeinode = s.freeinode + 1 := by
  obtain ⟨s1, hw, h⟩ := bind_eq_ok.mp h
  cases h
  exact ⟨rfl, winode_freeinode hw⟩

theorem iappend_freeinode {p : List Byte} (h : s.iappend inum p = .ok s') :
    s'.freeinode = s.freeinode := by
  obtain ⟨din, -, h⟩ := bind_eq_ok.mp h
  obtain ⟨⟨off, din1, s1⟩, hloop, h⟩ := bind_eq_ok.mp h
  exact (winode_freeinode h).trans (iappendLoop_freeinode hloop)

theorem finish_freeinode (h : s.finish rootino = .ok s') : s'.freeinode = s.freeinode := by
  obtain ⟨s1, hfix, h⟩ := bind_eq_ok.mp h
  obtain ⟨din, -, hfix⟩ := bind_eq_ok.mp hfix
  have h1 := winode_freeinode hfix
  unfold balloc at h
  split at h
  · cases h
    exact h1
  · cases h

/-- The next inode number is that of the next file. -/
theorem step_freeinode {op : Op} (hs : s.freeinode = BitVec.ofNat 32 (f.n + 1))
    (h : s.step op = .ok s') : s'.freeinode = BitVec.ofNat 32 ((f.step op).n + 1) := by
  cases op with
  | ialloc t =>
    obtain ⟨⟨inum, s1⟩, hi, h⟩ := bind_eq_ok.mp h
    cases h
    rw [(ialloc_freeinode hi).2, hs]
    exact (BitVec.ofNat_add ..).symm
  | iappend i p => exact (iappend_freeinode h).trans hs

/-- Over the run. -/
theorem run_freeinode (hs : s.freeinode = BitVec.ofNat 32 (f.n + 1))
    (h : ops.foldlM State.step s = .ok s') :
    s'.freeinode = BitVec.ofNat 32 ((f.run ops).n + 1) := by
  induction ops generalizing s f with
  | nil =>
    cases h
    exact hs
  | cons op ops ih =>
    obtain ⟨s1, hstep, h⟩ := bind_eq_ok.mp h
    exact ih (step_freeinode hs hstep) h

/-! ### mkfs as steps -/

/-- What is done for a file. -/
theorem addFile_eq (ha : a.Good) (hs : s.freeinode = BitVec.ofNat 32 i) :
    s.addFile (BitVec.ofNat 32 ROOTINO) a = (a.ops i).foldlM State.step s := by
  obtain ⟨reads, hreads⟩ := Option.isSome_iff_exists.mp ha.opens
  unfold State.addFile Arg.ops
  rw [if_neg ha.name, hreads, foldlM_cons, Option.getD_some]
  simp only [State.step]
  cases hi : s.ialloc T_FILE with
  | ok r =>
    obtain ⟨inum, s1⟩ := r
    rw [(ialloc_freeinode hi).1, hs]
    simp only [Outcome.ok_bind, Outcome.pure_def, foldlM_cons, foldlM_map, State.step]
    rfl
  | panic e => rfl
  | wild => rfl
  | hang => rfl

/-- Files that mkfs cannot open stop it. -/
theorem addFile_good (h : s.addFile rootino a = .ok s') : a.Good := by
  unfold addFile at h
  split at h
  · cases h
  · rename_i hname
    split at h
    · cases h
    · rename_i reads hreads
      exact ⟨hname, by rw [hreads]; rfl⟩

namespace Made

theorem run_append (f : Made) (ops ops' : List Op) : f.run (ops ++ ops') = (f.run ops).run ops' :=
  foldl_append ..

theorem valid_append {ops' : List Op} (h : f.Valid ops) (h' : (f.run ops).Valid ops') :
    f.Valid (ops ++ ops') := by
  induction ops generalizing f with
  | nil => exact h'
  | cons op ops ih => exact ⟨h.1, ih h.2 h'⟩

theorem iappend_nil (f : Made) (i : Nat) : f.iappend i [] = f := by
  unfold iappend
  rw [append_nil, update_eq_self]

/-- Appends add up. -/
theorem iappend_iappend (f : Made) (i : Nat) (p q : List Byte) :
    (f.iappend i p).iappend i q = f.iappend i (p ++ q) := by
  unfold iappend
  simp only
  rw [update_self, update_idem, append_assoc]

/-- The pieces of a file are appended one after another. -/
theorem run_pieces (f : Made) (i : Nat)
    (l : List {c : List Byte // 0 < c.length ∧ c.length ≤ BSIZE}) :
    f.run (l.map fun c => .iappend i c.1) = f.iappend i (l.flatMap (·.1)) := by
  induction l generalizing f with
  | nil => exact (f.iappend_nil i).symm
  | cons c l ih => exact (ih (f.iappend i c.1)).trans (f.iappend_iappend i ..)

/-- A file and its name are added. -/
theorem run_ops (f : Made) (i : Nat) (a : Arg) : f.run (a.ops i)
    = ((f.ialloc T_FILE).iappend ROOTINO (dirent (BitVec.ofNat 32 i) a.entry)).iappend
      i a.contents :=
  run_pieces ..

theorem valid_pieces (h1 : 1 ≤ i) (hi : i ≤ f.n)
    (l : List {c : List Byte // 0 < c.length ∧ c.length ≤ BSIZE}) :
    f.Valid (l.map fun c => .iappend i c.1) := by
  induction l generalizing f with
  | nil => trivial
  | cons c l ih => exact ⟨⟨h1, hi⟩, ih hi⟩

/-- One argument's appends. -/
theorem valid_ops (f : Made) (a : Arg) : f.Valid (a.ops (f.n + 1)) := by
  refine ⟨.inr rfl, ⟨Nat.le_refl _, Nat.le_add_left ..⟩, valid_pieces (Nat.le_add_left ..) ?_ _⟩
  exact Nat.le_refl _

end Made

/-- The loop over the files. -/
theorem addFiles_eq (hgood : ∀ a ∈ argv, a.Good) (hs : s.freeinode = BitVec.ofNat 32 (f.n + 1)) :
    argv.foldlM (State.addFile (BitVec.ofNat 32 ROOTINO)) s
      = (filesOps (f.n + 1) argv).foldlM State.step s := by
  induction argv generalizing s f with
  | nil => rfl
  | cons a argv ih =>
    unfold filesOps
    rw [foldlM_cons, foldlM_append, addFile_eq (hgood a (mem_cons_self ..)) hs]
    cases h : (a.ops (f.n + 1)).foldlM step s with
    | ok s1 =>
      have h1 := run_freeinode hs h
      have hn : (f.run (a.ops (f.n + 1))).n = f.n + 1 := by
        rw [Made.run_ops]
        rfl
      rw [← hn]
      exact ih (fun x hx => hgood x (mem_cons_of_mem _ hx)) h1
    | panic e => rfl
    | wild => rfl
    | hang => rfl

theorem blank_freeinode : State.blank.freeinode = BitVec.ofNat 32 (Made.none.n + 1) := by
  rw [blank_eq]
  rfl

/-- The root directory is three steps. -/
theorem makeRoot_eq (hs : s.freeinode = BitVec.ofNat 32 ROOTINO) :
    s.makeRoot = rootOps.foldlM State.step s >>= fun s => .ok (BitVec.ofNat 32 ROOTINO, s) := by
  unfold makeRoot rootOps
  simp only [foldlM_cons, foldlM_nil, State.step]
  cases h : s.ialloc T_DIR with
  | ok r =>
    obtain ⟨inum, s1⟩ := r
    rw [(ialloc_freeinode h).1, hs]
    simp
  | panic e => rfl
  | wild => rfl
  | hang => rfl

/-- mkfs takes these steps and finishes the image. -/
theorem mkfs_eq (hgood : ∀ a ∈ argv, a.Good) :
    mkfs argv = (mkfsOps argv).foldlM State.step State.blank >>=
      fun s => s.finish (BitVec.ofNat 32 ROOTINO) := by
  unfold mkfs mkfsOps
  rw [makeRoot_eq blank_freeinode, foldlM_append]
  cases h : rootOps.foldlM step blank with
  | ok s =>
    have hs := run_freeinode blank_freeinode h
    simp only [ok_bind]
    rw [addFiles_eq hgood hs]
    rfl
  | panic e => rfl
  | wild => rfl
  | hang => rfl

/-! ### The files after these steps -/

/-- The files `argv` were added to `f`, and their names to the root directory. -/
structure Added (f f' : Made) (argv : List Arg) : Prop where
  n : f'.n = f.n + argv.length
  root : (f'.data ROOTINO).length = (f.data ROOTINO).length + DIRENT * argv.length
  old : ∀ j, j ≠ ROOTINO → j ≤ f.n → f'.data j = f.data j
  new : ∀ k a, argv[k]? = some a → f'.data (f.n + 1 + k) = a.contents
  blocks : f'.blocks + blocksOf (f.data ROOTINO).length = f.blocks
    + blocksOf (f'.data ROOTINO).length + (argv.map fun a => blocksOf a.contents.length).sum

theorem length_dirent (inum : Word) (name : List Byte) : (dirent inum name).length = DIRENT := by
  unfold dirent
  rw [length_map, length_range]

/-- One file. -/
theorem added_one (hn : 1 ≤ f.n) (a : Arg) : Added f (f.run (a.ops (f.n + 1))) [a] := by
  have hroot : ROOTINO < f.n + 1 := Nat.lt_succ_of_le hn
  have hdata (j : Nat) : (f.run (a.ops (f.n + 1))).data j
      = update (update (update f.data (f.n + 1) []) ROOTINO (f.data ROOTINO
        ++ dirent (BitVec.ofNat 32 (f.n + 1)) a.entry)) (f.n + 1) a.contents j := by
    rw [Made.run_ops]
    unfold Made.iappend Made.ialloc
    simp only
    rw [update_of_ne hroot.ne' _ (update _ _ _), update_self, nil_append,
      update_of_ne hroot.ne _ f.data]
  have hdir : (f.run (a.ops (f.n + 1))).data ROOTINO
      = f.data ROOTINO ++ dirent (BitVec.ofNat 32 (f.n + 1)) a.entry := by
    rw [hdata, update_of_ne hroot.ne, update_self]
  refine ⟨by rw [Made.run_ops]; rfl, ?_, fun j h1 hj => ?_, fun k x hk => ?_, ?_⟩
  · rw [hdir, length_append, length_dirent]
    rfl
  · grind
  · grind
  · rw [hdir, Made.run_ops]
    have hle : ROOTINO ≤ (f.ialloc T_FILE).n := Nat.le_add_left 1 f.n
    have hdent := (f.ialloc T_FILE).blocks_iappend hle (dirent (BitVec.ofNat 32 (f.n + 1)) a.entry)
    have hfile := ((f.ialloc T_FILE).iappend ROOTINO
      (dirent (BitVec.ofNat 32 (f.n + 1)) a.entry)).blocks_iappend
        (Nat.le_refl (f.n + 1)) a.contents
    have hold : (f.ialloc T_FILE).data ROOTINO = f.data ROOTINO := update_of_ne hroot.ne ..
    have hnew : ((f.ialloc T_FILE).iappend ROOTINO
        (dirent (BitVec.ofNat 32 (f.n + 1)) a.entry)).data (f.n + 1) = [] :=
      (update_of_ne hroot.ne' ..).trans (update_self ..)
    rw [hnew, nil_append, show blocksOf ([] : List Byte).length = 0 from rfl] at hfile
    rw [hold, Made.blocks_ialloc] at hdent
    simp only [map_cons, map_nil, sum_cons, sum_nil]
    omega

/-- All the arguments. -/
theorem run_filesOps (hn : 1 ≤ f.n) (argv : List Arg) :
    Added f (f.run (filesOps (f.n + 1) argv)) argv ∧ f.Valid (filesOps (f.n + 1) argv) := by
  induction argv generalizing f with
  | nil => exact ⟨⟨rfl, rfl, fun _ _ _ => rfl, fun k a hk => (by cases hk), rfl⟩, trivial⟩
  | cons a argv ih =>
    have h1 := added_one hn a
    have hn1 : (f.run (a.ops (f.n + 1))).n = f.n + 1 := h1.n
    obtain ⟨h2, hv⟩ := ih (by omega : 1 ≤ (f.run (a.ops (f.n + 1))).n)
    rw [hn1] at h2 hv
    have hrun : f.run (filesOps (f.n + 1) (a :: argv))
        = (f.run (a.ops (f.n + 1))).run (filesOps (f.n + 1 + 1) argv) := Made.run_append ..
    rw [hrun]
    refine ⟨⟨?_, ?_, fun j hj1 hj => ?_, fun k x hk => ?_, ?_⟩,
      Made.valid_append (f.valid_ops a) hv⟩
    · rw [h2.n, hn1, length_cons]
      omega
    · rw [h2.root, h1.root, length_singleton, length_cons]
      unfold DIRENT
      omega
    · rw [h2.old j hj1 (by omega), h1.old j hj1 hj]
    · cases k with
      | zero =>
        rw [h2.old _ (by unfold ROOTINO; omega) (by omega)]
        cases hk
        exact h1.new 0 a rfl
      | succ k =>
        have := h2.new k x hk
        rw [← this]
        congr 1
        omega
    · have hb1 := h1.blocks
      have hb2 := h2.blocks
      simp only [map_cons, map_nil, sum_cons, sum_nil] at hb1 ⊢
      omega

/-- All that mkfs adds. -/
theorem run_mkfsOps (argv : List Arg) :
    Added (Made.none.run rootOps) (Made.none.run (mkfsOps argv)) argv
      ∧ Made.none.Valid (mkfsOps argv) := by
  obtain ⟨hadded, hv⟩ := run_filesOps (f := Made.none.run rootOps) (Nat.le_refl _) argv
  refine ⟨?_, Made.valid_append ?_ hv⟩
  · unfold mkfsOps
    rw [Made.run_append]
    exact hadded
  · exact ⟨.inl rfl, ⟨Nat.le_refl _, Nat.le_refl _⟩, ⟨Nat.le_refl _, Nat.le_refl _⟩, trivial⟩

theorem n_mkfsOps (argv : List Arg) : (Made.none.run (mkfsOps argv)).n = 1 + argv.length :=
  (run_mkfsOps argv).1.n

/-- The root directory has an entry for each file, and its own two. -/
theorem root_mkfsOps (argv : List Arg) :
    ((Made.none.run (mkfsOps argv)).data ROOTINO).length = DIRENT * (argv.length + 2) := by
  rw [(run_mkfsOps argv).1.root, show ((Made.none.run rootOps).data ROOTINO).length = 32 by decide]
  unfold DIRENT
  omega

/-- The blocks that the image needs: those of the root directory and of the files. -/
theorem blocks_mkfsOps (argv : List Arg) : (Made.none.run (mkfsOps argv)).blocks
    = blocksOf (DIRENT * (argv.length + 2))
      + (argv.map fun a => blocksOf a.contents.length).sum := by
  have hfirst : (Made.none.run rootOps).blocks
    = blocksOf ((Made.none.run rootOps).data ROOTINO).length := by decide
  have hb := (run_mkfsOps argv).1.blocks
  rw [root_mkfsOps, hfirst] at hb
  omega

/-- How large the files are. -/
theorem sizes_mkfsOps {m : Nat} (hdir : DIRENT * (argv.length + 2) ≤ m)
    (hfiles : ∀ a ∈ argv, a.contents.length ≤ m) :
    ∀ i, i ≤ (Made.none.run (mkfsOps argv)).n →
      ((Made.none.run (mkfsOps argv)).data i).length ≤ m := by
  intro i hi
  have h := (run_mkfsOps argv).1
  have hn : (Made.none.run rootOps).n = 1 := by decide
  by_cases h1 : i = ROOTINO
  · rw [h1, root_mkfsOps]
    exact hdir
  by_cases h0 : i ≤ 1
  · have : i = 0 := by
      unfold ROOTINO at h1
      omega
    rw [h.old i h1 (by omega), this]
    exact Nat.zero_le _
  · have hlt : i - 2 < argv.length := by
      rw [h.n, hn] at hi
      omega
    have hnew := h.new (i - 2) _ (getElem?_eq_getElem hlt)
    rw [hn, show 1 + 1 + (i - 2) = i by omega] at hnew
    rw [hnew]
    exact hfiles _ (getElem_mem hlt)

/-- **What was appended is read.**  However files are added to the image and bytes appended to
    them, if there is room for them then mkfs gets through, and `readi` of the kernel returns for
    every file, at every offset and for every count, the bytes that were appended to it; at the end
    this holds for all but the root directory, whose size is rounded up. -/
theorem appends_read (ops : List Op) (hv : Made.none.Valid ops) (hf : (Made.none.run ops).Fits) :
    ∃ s, ops.foldlM State.step State.blank = .ok s
      ∧ (∀ i, 1 ≤ i → i ≤ (Made.none.run ops).n → Reads s.volume i ((Made.none.run ops).data i))
      ∧ (1 ≤ (Made.none.run ops).n → ∃ s', s.finish (BitVec.ofNat 32 ROOTINO) = .ok s'
        ∧ ∀ i, ROOTINO < i → i ≤ (Made.none.run ops).n →
          Reads s'.volume i ((Made.none.run ops).data i)) := by
  obtain ⟨s, hrun, hs⟩ := run_ok Inv.blank hv hf
  refine ⟨s, hrun, fun i h1 hn => hs.reads h1 hn, fun hn => ?_⟩
  obtain ⟨s', hfin, hs'⟩ := finish_ok hs hn
  exact ⟨s', hfin, fun i h1 hn => hs'.reads hs h1 hn⟩

/-- A file of one byte is added. -/
def oneFile : List Arg := [⟨[97], some [⟨[120], by decide⟩]⟩]

/-- One file of one byte. -/
theorem appends_read_oneFile : ∃ s, (mkfsOps oneFile).foldlM State.step State.blank = .ok s
    ∧ Reads s.volume 2 [120] ∧ ∃ s', s.finish (BitVec.ofNat 32 ROOTINO) = .ok s'
      ∧ Reads s'.volume 2 [120] := by
  have hf : (Made.none.run (mkfsOps oneFile)).Fits := ⟨by decide, by decide, by decide⟩
  obtain ⟨s, hrun, hs, hfin⟩ := appends_read (mkfsOps oneFile) (run_mkfsOps oneFile).2 hf
  obtain ⟨s', hok, hs'⟩ := hfin (by decide)
  exact ⟨s, hrun, hs 2 (by decide) (by decide), s', hok, hs' 2 (by decide) (by decide)⟩

/-- A file of one byte and 222 empty ones: the last gets inode 224, in the block of the first one's
    data. -/
def manyFiles : List Arg :=
  ⟨[97], some [⟨[120], by decide⟩]⟩ :: List.replicate 222 ⟨[98], some []⟩

theorem appends_overwritten :
    ∃ s s', (mkfsOps manyFiles).foldlM State.step State.blank = .ok s
      ∧ s.finish (BitVec.ofNat 32 ROOTINO) = .ok s' ∧ mkfs manyFiles = .ok s'
      ∧ Made.none.Valid (mkfsOps manyFiles)
      ∧ (∀ i, i ≤ (Made.none.run (mkfsOps manyFiles)).n →
        ((Made.none.run (mkfsOps manyFiles)).data i).length ≤ MAXFILE * BSIZE)
      ∧ nmeta + (Made.none.run (mkfsOps manyFiles)).blocks ≤ FSSIZE
      ∧ ¬ Reads s'.volume 2 ((Made.none.run (mkfsOps manyFiles)).data 2) := by
  have hgood : ∀ a ∈ manyFiles, a.Good := by
    intro a ha
    rcases List.mem_cons.mp ha with rfl | ha
    · exact ⟨by decide, rfl⟩
    · rw [List.eq_of_mem_replicate ha]
      exact ⟨by decide, rfl⟩
  obtain ⟨s', hok, htest⟩ := Outcome.holds_iff.mp (show (mkfs manyFiles).holds (fun s' =>
      (s'.volume.readi imageSb noDevices (s'.volume.dinode 2) 0 1).holds
        fun r => decide (r.1.2 ≠ [120])) = true by
    unfold mkfs
    rw [blank_eq]
    decide +kernel)
  obtain ⟨s, hrun, hfin⟩ := Outcome.bind_eq_ok.mp ((mkfs_eq hgood).symm.trans hok)
  have hdata : (Made.none.run (mkfsOps manyFiles)).data 2 = [120] :=
    (run_mkfsOps manyFiles).1.new 0 _ rfl
  refine ⟨s, s', hrun, hfin, hok, (run_mkfsOps manyFiles).2, ?_, ?_, ?_⟩
  · apply sizes_mkfsOps
    · decide +kernel
    · decide +kernel
  · rw [blocks_mkfsOps]
    decide +kernel
  · rw [hdata]
    intro hreads
    rw [hreads, if_neg (by decide)] at htest
    have hne : ([120] : List Byte) ≠ [120] := of_decide_eq_true htest
    exact hne rfl

/-- The same for mkfs: the files that it is called with are read. -/
theorem mkfs_reads (hgood : ∀ a ∈ argv, a.Good) (hf : (Made.none.run (mkfsOps argv)).Fits) :
    ∃ s, mkfs argv = .ok s
      ∧ ∀ k a, argv[k]? = some a → Reads s.volume (ROOTINO + 1 + k) a.contents := by
  obtain ⟨hadded, hv⟩ := run_mkfsOps argv
  obtain ⟨s, hrun, hs⟩ := run_ok Inv.blank hv hf
  have hn := n_mkfsOps argv
  obtain ⟨s', hfin, hs'⟩ := finish_ok hs (by omega)
  refine ⟨s', ?_, fun k a hk => ?_⟩
  · rw [mkfs_eq hgood, hrun]
    exact hfin
  · obtain ⟨hlt, -⟩ := List.getElem?_eq_some_iff.mp hk
    rw [← hadded.new k a hk]
    exact hs'.reads hs (by omega) (by unfold ROOTINO; omega)

end Xv6.Mkfs
