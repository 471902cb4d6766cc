import Xv6.Fs.CallSpec

namespace Xv6.Fs

open Function List Prog World

/-!
# Path resolution

`namei` and `nameiparent` fold `dirlookup` over the components of a path, and keep one reference.

* `components` — the components of a path; `elems_eq_components` — `skipelem` gives them;
* `resolve` — `dirlookup`, folded over components; `walk_resolve` — the loop of `namex` does this;
* `Quiescent` — a file system at rest;
* `namexLoop_ok`, `namex_ok` — `namex` returns, and changes nothing but the references;
* `path_resolution` — `namei` and `nameiparent`;
* `namei_no_slot` — all slots of the inode cache are in use.
-/

/-! ### Components -/

/-- The components of a path: what is between slashes, without empty ones, cut to `DIRSIZ` bytes. -/
def components (path : List Byte) : List Name :=
  ((path.splitOn slash).filter (· ≠ [])).map Name.ofList

theorem components_slash (path : List Byte) : components (slash :: path) = components path := by
  unfold components splitOn
  rw [splitOnP_cons_eq_if_modifyHead, if_pos (beq_self_eq_true slash)]
  rfl

theorem components_dropWhile (path : List Byte) :
    components (path.dropWhile (· = slash)) = components path := by
  induction path with
  | nil => rfl
  | cons b path ih =>
    by_cases hb : b = slash
    · rw [dropWhile_cons_of_pos (by simpa using hb), ih, hb, components_slash]
    · rw [dropWhile_cons_of_neg (by simpa using hb)]

/-- The first component ends at a slash. -/
theorem components_append {w rest : List Byte} (hne : w ≠ []) (hw : ∀ b ∈ w, b ≠ slash)
    (hrest : ∀ b ∈ rest.head?, b = slash) :
    components (w ++ rest) = Name.ofList w :: components rest := by
  have hno : ∀ b ∈ w, (b == slash) = false := fun b hb => beq_eq_false_iff_ne.mpr (hw b hb)
  match rest, hrest with
  | [], _ =>
    unfold components splitOn
    rw [append_nil, splitOnP_eq_singleton hno, filter_cons_of_pos (by simpa using hne)]
    rfl
  | b :: rest, hrest =>
    obtain rfl : b = slash := hrest b rfl
    rw [components_slash]
    unfold components splitOn
    rw [splitOnP_append_cons_of_forall_mem hno slash (beq_self_eq_true slash),
      filter_cons_of_pos (by simpa using hne)]
    rfl

variable {path : List Byte} {refs : List Nat}

/-- `skipelem` takes the first component off. -/
theorem components_skipelem (h0 : 0 ∉ path) : components path = match skipelem path with
      | none => []
      | some (name, rest) => name :: components rest := by
  rw [← components_dropWhile]
  have hmem : ∀ b ∈ path.dropWhile (· = slash), b ≠ 0 := by
    rintro b hb rfl
    exact h0 ((dropWhile_suffix _).mem hb)
  unfold skipelem
  cases hpath : path.dropWhile (· = slash) with
  | nil => rfl
  | cons b rest =>
    have hb := ne_slash_of_dropWhile hpath
    rw [hpath] at hmem
    have hb0 : b ≠ 0 := hmem b (mem_cons_self ..)
    simp only
    rw [if_neg hb0]
    simp only
    rw [components_dropWhile]
    -- without NULs, an element ends at a slash
    have hin : decide (b ≠ slash ∧ b ≠ 0) = true := decide_eq_true ⟨hb, hb0⟩
    rw [← components_append]
    · rw [takeWhile_append_dropWhile]
    · rw [takeWhile_cons_of_pos (by exact hin)]
      exact cons_ne_nil _ _
    · intro x hx
      have := mem_takeWhile_imp hx
      simp only [decide_eq_true_eq] at this
      exact this.1
    · intro x hx
      have hnot := head?_dropWhile_not (fun b => decide (b ≠ slash ∧ b ≠ 0)) (b :: rest)
      rw [hx] at hnot
      simp only [decide_eq_false_iff_not, not_and_or, not_not] at hnot
      refine hnot.resolve_right (hmem x ?_)
      exact (dropWhile_suffix _).mem (mem_of_mem_head? hx)

theorem skipelem_suffix {rest : List Byte} {name : Name} (h : skipelem path = some (name, rest)) :
    rest <:+ path := by
  unfold skipelem at h
  simp only at h
  split at h
  · cases h
  · grind [dropWhile_suffix]

/-- The elements that `skipelem` gives one after another are the components. -/
theorem elems_eq_components (h0 : 0 ∉ path) : elems path = components path := by
  induction hn : path.length using Nat.strong_induction_on generalizing path with
  | _ n ih =>
    rw [elems_eq, components_skipelem h0]
    cases hs : skipelem path with
    | none => rfl
    | some x =>
      obtain ⟨name, rest⟩ := x
      have hlt := skipelem_length hs
      have hrest : 0 ∉ rest := fun hmem => h0 ((skipelem_suffix hs).mem hmem)
      simp only
      rw [ih rest.length (by omega) hrest rfl]

/-! ### Lookups one after another -/

variable {P : Type} {node : Nat → Node} {ip : Nat} {name : Name} {es : List Name}

/-- A component is looked up in inode `ip`: nothing if it is not a directory, or does not have the
    name. -/
def lookupIn (node : Nat → Node) (ip : Nat) (name : Name) : Option Nat :=
  if (node ip).type = .dir then
    match (node ip).lookup name with
    | .found k => some ((node ip).dirent k).inum.toNat
    | _ => none
  else none

/-- The inode reached from `ip` by looking up components one after another. -/
def resolve (node : Nat → Node) (ip : Nat) (es : List Name) : Option Nat :=
  es.foldlM (lookupIn node) ip

theorem resolve_cons (next : Name) : resolve node ip (next :: es)
    = (lookupIn node ip next).bind fun i => resolve node i es := by
  unfold resolve
  rw [foldlM_cons]
  rfl

/-- Nothing is reached exactly if some component is not found where it is looked up. -/
theorem resolve_eq_none : resolve node ip es = none ↔ ∃ pre name post i, es = pre ++ name :: post
    ∧ resolve node ip pre = some i ∧ lookupIn node i name = none := by
  induction es generalizing ip with
  | nil =>
    refine iff_of_false nofun ?_
    rintro ⟨pre, name, post, i, he, -⟩
    exact absurd he.symm (append_ne_nil_of_right_ne_nil _ (cons_ne_nil _ _))
  | cons next es ih =>
    rw [resolve_cons]
    cases hl : lookupIn node ip next with
    | none => exact iff_of_true rfl ⟨[], next, es, ip, rfl, rfl, hl⟩
    | some j =>
      rw [Option.bind_some, ih]
      constructor
      · grind [resolve_cons]
      · rintro ⟨pre, name, post, i, he, hpre, hnone⟩
        cases pre with
        | nil =>
          cases he
          cases hpre
          rw [hl] at hnone
          cases hnone
        | cons a pre => grind [resolve_cons]

/-- The loop of `namex` looks up the components. -/
theorem walk_resolve (name : Name) :
    (walk node false ip name es).map Prod.fst = resolve node ip es := by
  induction es generalizing ip name with
  | nil => rfl
  | cons next es ih =>
    rw [resolve_cons]
    unfold walk lookupIn
    by_cases hdir : (node ip).type = .dir
    · grind
    · rw [if_pos hdir, if_neg hdir]
      rfl

/-- For the parent, all but the last, which has to be a name in a directory. -/
theorem walk_parent : walk node true ip name es = es.getLast?.bind fun last =>
    (resolve node ip es.dropLast).bind fun i =>
      if (node i).type = .dir then some (i, last) else none := by
  induction es generalizing ip name with
  | nil => rfl
  | cons next es ih =>
    unfold walk
    by_cases hdir : (node ip).type = .dir
    · rw [if_neg (not_not_intro hdir)]
      cases es with
      | nil =>
        show _ = if (node ip).type = .dir then some (ip, next) else none
        rw [if_pos ⟨rfl, rfl⟩, if_pos hdir]
      | cons e es =>
        rw [if_neg fun h => cons_ne_nil _ _ h.2, getLast?_cons_cons, dropLast_cons_cons,
          resolve_cons]
        unfold lookupIn
        rw [if_pos hdir]
        cases hlast : (e :: es).getLast? with
        | none => exact absurd (getLast?_eq_none_iff.mp hlast) (cons_ne_nil _ _)
        | some last => grind
    · rw [if_pos hdir]
      cases es with
      | nil =>
        show none = if (node ip).type = .dir then some (ip, next) else none
        rw [if_neg hdir]
      | cons e es =>
        rw [dropLast_cons_cons, resolve_cons]
        unfold lookupIn
        rw [if_neg hdir]
        cases (next :: e :: es).getLast? <;> rfl

/-! ### A file system at rest -/

/-- Nothing is locked, and process `p` is in a directory; entries are of inodes in use, and inodes
    without links are those that somebody refers to. -/
structure Quiescent (s : World P) (p : P) : Prop where
  locks : s.locks = []
  cwd : ∃ i, s.cwd p = some i ∧ i ∈ s.refs
  root : (s.node ROOTINO).type ≠ .free
  held : ∀ i ∈ s.refs, (s.node i).type ≠ .free
  linked : ∀ i, (s.node i).type ≠ .free → i ∉ s.refs → (s.node i).nlink ≠ 0
  whole : ∀ i, (s.node i).type = .dir → (s.node i).size % DIRENT = 0
  entries : ∀ i k, (s.node i).type = .dir → k < (s.node i).size / DIRENT →
    ((s.node i).dirent k).inum ≠ 0 → (s.node ((s.node i).dirent k).inum.toNat).type ≠ .free

/-- Two slots of the inode cache are free. -/
def World.Roomy (s : World P) : Prop := s.refs.dedup.length + 2 ≤ NINODE

/-- The process holds inode `ip` besides what was held in `s`. -/
structure At (s t : World P) (ip : Nat) : Prop where
  node : t.node = s.node
  locks : t.locks = []
  refs : t.refs.Perm (ip :: s.refs)
  used : (s.node ip).type ≠ .free

variable {s t : World P} {p : P} {i : Nat}

theorem iget_ok (h : i ∈ t.refs ∨ t.refs.dedup.length < NINODE) :
    iget i t = .ok ((), t.held i) := by
  unfold held
  by_cases hi : i ∈ t.refs
  · show (if i ∈ t.refs then _ else _ : Kern P Unit) t = _
    rw [if_pos hi, if_pos hi]
    rfl
  · show (if i ∈ t.refs then _ else _ : Kern P Unit) t = _
    rw [if_neg hi, if_pos (h.resolve_left hi), if_neg hi]
    rfl

theorem ilock_ok' (hi : i ∈ t.refs) (hl : i ∉ t.locks) (hf : (t.node i).type ≠ .free) :
    ilock i t = .ok ((), { t with locks := i :: t.locks, valid := update t.valid i true }) := by
  show (if i ∉ t.refs then _ else _ : Kern P Unit) t = _
  rw [if_neg (not_not_intro hi), if_neg hl]
  by_cases hv : t.valid i = true
  · rw [if_pos hv, ← hv, update_eq_self]
    rfl
  · rw [if_neg hv, if_neg hf]
    rfl

theorem iunlock_ok (hl : i ∈ t.locks) (hi : i ∈ t.refs) :
    iunlock i t = .ok ((), { t with locks := t.locks.erase i }) := by
  show (if i ∈ t.locks ∧ i ∈ t.refs then _ else _ : Kern P Unit) t = _
  rw [if_pos ⟨hl, hi⟩]
  rfl

/-- `iput` of a reference that does not free the inode. -/
theorem iput_keeps (hi : i ∈ t.refs) (hl : i ∉ t.locks)
    (hf : t.refs.count i = 1 → (t.node i).nlink ≠ 0) :
    iput i t = .ok ((), { t with refs := t.refs.erase i }) := by
  show (if i ∈ t.locks then _ else _ : Kern P Unit) t = _
  rw [if_neg hl, if_neg (not_not_intro hi), if_neg fun h => hf h.2.2 h.2.1]
  rfl

namespace At

theorem mem (h : At s t ip) : ip ∈ t.refs := h.refs.mem_iff.mpr (mem_cons_self ..)

/-- One more inode finds a slot. -/
theorem room (h : At s t ip) (hroom : s.Roomy) : t.refs.dedup.length < NINODE := by
  have hlen : t.refs.dedup.length ≤ s.refs.dedup.length + 1 := by
    rw [h.refs.dedup.length_eq]
    by_cases hip : ip ∈ s.refs
    · rw [dedup_cons_of_mem hip]
      omega
    · rw [dedup_cons_of_notMem hip, length_cons]
  unfold Roomy at hroom
  omega

/-- Putting the reference does not free the inode. -/
theorem linked (h : At s t ip) (hq : Quiescent s p) (hone : t.refs.count ip = 1) :
    (t.node ip).nlink ≠ 0 := by
  rw [h.node]
  refine hq.linked ip h.used fun hmem => ?_
  rw [h.refs.count_eq, count_cons_self] at hone
  have := count_pos_iff.mpr hmem
  omega

end At

/-- `iunlockput`, from the lock on. -/
theorem At.iunlockput_ok (h : At s t ip) (hq : Quiescent s p) (valid : Nat → Bool)
    (hmem : ip ∈ refs) (hone : refs.count ip = 1 → t.refs.count ip = 1) :
    iunlockput ip { t with locks := [ip], valid, refs }
      = .ok ((), { t with valid, refs := refs.erase ip }) := by
  have hlocks : t.locks = [] := h.locks
  rw [iunlockput, bind_of_ok (iunlock_ok (mem_singleton_self ip) hmem)]
  simp only [erase_cons_head]
  rw [iput_keeps (t := { t with locks := [], valid, refs }) hmem not_mem_nil
    fun hcount => h.linked hq (hone hcount), hlocks]

/-- `dirlookup` in a directory at rest. -/
theorem dirlookup_run {u : World P} (hq : Quiescent s p) (hnode : u.node = s.node)
    (hroom : u.refs.dedup.length < NINODE) (hdir : (s.node ip).type = .dir) (next : Name) :
    (s.node ip).lookup next = .none ∧ dirlookup ip next u = .ok (none, u)
    ∨ ∃ k, (s.node ip).lookup next = .found k ∧ k < (s.node ip).size / DIRENT
      ∧ ((s.node ip).dirent k).inum ≠ 0
      ∧ dirlookup ip next u = .ok (some (((s.node ip).dirent k).inum.toNat, k),
        u.held ((s.node ip).dirent k).inum.toNat) := by
  have hdir' : (u.node ip).type = .dir := by rw [hnode, hdir]
  have hstart : dirlookup ip next u = _ := congrFun (if_neg (not_not_intro hdir')) u
  simp only [hnode] at hstart
  cases hl : (s.node ip).lookup next with
  | none =>
    rw [hstart, hl]
    exact .inl ⟨rfl, rfl⟩
  | found k =>
    obtain ⟨-, hk, ht⟩ := search_found hl
    refine .inr ⟨k, rfl, hk, (of_decide_eq_true ht).1, ?_⟩
    rw [hstart, hl]
    exact bind_of_ok (iget_ok (.inr hroom))
  | short =>
    -- the size is a multiple of the entries'
    exfalso
    have hwhole := hq.whole ip hdir
    unfold Node.lookup Node.search at hl
    split at hl
    · cases hl
    · rw [if_neg fun hs => hs.2 hwhole] at hl
      cases hl

/-- The loop of `namex` returns. -/
theorem namexLoop_ok (hq : Quiescent s p) (hroom : s.Roomy) (parent : Bool) (name : Name)
    (es : List Name) (h : At s t ip) :
    ∃ r u, namexLoop parent ip name es t = .ok (r, u) ∧ u.node = s.node := by
  have hnot : ip ∉ t.locks := by
    rw [h.locks]
    exact not_mem_nil
  induction es generalizing t ip name with
  | nil =>
    unfold namexLoop
    cases parent with
    | true =>
      refine ⟨none, { t with refs := t.refs.erase ip }, ?_, h.node⟩
      exact bind_of_ok (iput_keeps h.mem hnot (h.linked hq))
    | false => exact ⟨_, t, rfl, h.node⟩
  | cons next rest ih =>
    have hused : (t.node ip).type ≠ .free := by
      rw [h.node]
      exact h.used
    have hlocked := ilock_ok' h.mem hnot hused
    rw [h.locks] at hlocked
    have hput := h.iunlockput_ok hq (update t.valid ip true) h.mem id
    unfold namexLoop
    rw [bind_of_ok hlocked]
    show ∃ r u, (if (t.node ip).type ≠ .dir then _ else _ : Kern P _) _ = .ok (r, u) ∧ _
    rw [show (t.node ip).type = (s.node ip).type by rw [h.node]]
    split
    · exact ⟨none, _, bind_of_ok hput, h.node⟩
    · rename_i hdir
      split
      · exact ⟨_, _, bind_of_ok (iunlock_ok (mem_singleton_self ip) h.mem), h.node⟩
      · rcases dirlookup_run (u := { t with locks := [ip], valid := update t.valid ip true })
          hq h.node
          (h.room hroom) (not_not.mp hdir) next with ⟨-, hrun⟩ | ⟨k, -, hk, hne, hrun⟩
        · rw [bind_of_ok hrun]
          exact ⟨none, _, bind_of_ok hput, h.node⟩
        · rw [bind_of_ok hrun]
          generalize hj : ((s.node ip).dirent k).inum.toNat = j
          have hcount : (j :: t.refs).count ip = 1 → t.refs.count ip = 1 := by
            have hpos := count_pos_iff.mpr h.mem
            rw [count_cons]
            split <;> omega
          have hnext : ∃ valid, iunlockput ip
              (held { t with locks := [ip], valid := update t.valid ip true } j)
              = .ok ((), { t with valid, refs := (j :: t.refs).erase ip }) :=
            ⟨_, h.iunlockput_ok hq _ (mem_cons_of_mem j h.mem) hcount⟩
          obtain ⟨valid, hnext⟩ := hnext
          simp only
          rw [bind_of_ok hnext]
          refine ih next ⟨h.node, h.locks, ?_, ?_⟩ ?_
          · -- the new reference instead of the old one
            have hperm := ((h.refs.cons j).trans (.swap ip j s.refs)).erase ip
            rwa [erase_cons_head] at hperm
          · rw [← hj]
            exact hq.entries ip k (not_not.mp hdir) hk hne
          · show j ∉ t.locks
            rw [h.locks]
            exact not_mem_nil

/-- `namex` returns where the path leads, with one more reference to it, and nothing else has
    changed. -/
theorem namex_ok (hq : Quiescent s p) (hroom : s.Roomy) (path : List Byte) (parent : Bool) :
    ∃ u, namex p path parent s = .ok (s.walk p path parent, u)
      ∧ u.refs.Perm (found (s.walk p path parent) ++ s.refs)
      ∧ u = { s with refs := u.refs, valid := u.valid } := by
  obtain ⟨i, hcwd, hi⟩ := hq.cwd
  have hbound : s.refs.dedup.length < NINODE := by
    unfold Roomy at hroom
    omega
  have hstart : ∃ ip t, namexStart p path s = .ok (ip, t) ∧ At s t ip := by
    unfold namexStart
    split
    · exact ⟨ROOTINO, _, bind_of_ok (iget_ok (.inr hbound)), ⟨rfl, hq.locks, .refl _, hq.root⟩⟩
    · refine ⟨i, { s with refs := i :: s.refs }, ?_, ⟨rfl, hq.locks, .refl _, hq.held i hi⟩⟩
      apply (bind_of_ok rfl).trans
      rw [hcwd]
      rfl
  obtain ⟨ip, t, hrun, hat⟩ := hstart
  obtain ⟨r, u, hloop, hnode⟩ := namexLoop_ok hq hroom parent Dirent.zero.name (elems path) hat
  have hall : namex p path parent s = .ok (r, u) := (bind_of_ok hrun).trans hloop
  obtain ⟨rfl, hlook⟩ := (namex_ends hq.locks (Looking.refl s) hcwd hi).of_ok hall
  have hlocks : u.locks = s.locks := by
    rw [hq.locks]
    apply Perm.eq_nil
    rw [← hq.locks]
    exact hlook.locks
  have hrefs := hlook.refs
  rw [append_nil] at hrefs
  refine ⟨u, hall, hrefs, ?_⟩
  rw [hlook.rest, hnode, hlocks]

theorem Quiescent.lookupIn_eq_none (hq : Quiescent s p) (i : Nat) (name : Name) :
    lookupIn s.node i name = none ↔ (s.node i).type ≠ .dir ∨ (s.node i).lookup name = .none := by
  unfold lookupIn
  by_cases hdir : (s.node i).type = .dir
  · rw [if_pos hdir]
    cases hl : (s.node i).lookup name with
    | found k => exact iff_of_false nofun fun h => h.elim (absurd hdir) nofun
    | none => exact iff_of_true rfl (.inr rfl)
    | short =>
      exfalso
      unfold Node.lookup Node.search at hl
      split at hl
      · cases hl
      · rw [if_neg fun hs => hs.2 (hq.whole i hdir)] at hl
        cases hl
  · rw [if_neg hdir]
    exact iff_of_true rfl (.inl hdir)

/-- With two slots free, `namei` gives the inode that the components of the path lead to, and
    nothing exactly if one of them is looked up in what is no directory or is not there;
    `nameiparent` gives where all but the last lead, if it is a directory, with the last; the only
    change is one new reference to what is returned. -/
theorem path_resolution (hq : Quiescent s p) (hroom : s.Roomy) {path : List Byte} (h0 : 0 ∉ path) :
    ∃ ip, s.start p path = some ip
    ∧ (∃ t, namei p path s = .ok (resolve s.node ip (components path), t)
      ∧ t.refs.Perm ((resolve s.node ip (components path)).toList ++ s.refs)
      ∧ t = { s with refs := t.refs, valid := t.valid })
    ∧ (resolve s.node ip (components path) = none ↔ ∃ pre name post i,
        components path = pre ++ name :: post ∧ resolve s.node ip pre = some i
        ∧ ((s.node i).type ≠ .dir ∨ (s.node i).lookup name = .none))
    ∧ ∃ r t, nameiparent p path s = .ok (r, t)
      ∧ r = ((components path).getLast?.bind fun last =>
        (resolve s.node ip (components path).dropLast).bind fun i =>
          if (s.node i).type = .dir then some (i, last) else none)
      ∧ t.refs.Perm ((r.map Prod.fst).toList ++ s.refs)
      ∧ t = { s with refs := t.refs, valid := t.valid } := by
  have hstart : ∃ ip, s.start p path = some ip := by grind [hq.cwd, World.start]
  obtain ⟨ip, hip⟩ := hstart
  have hwalk (parent : Bool) : s.walk p path parent
      = walk s.node parent ip Dirent.zero.name (components path) := by
    unfold World.walk
    rw [hip, elems_eq_components h0]
    rfl
  refine ⟨ip, hip, ?_, ?_, ?_⟩
  · obtain ⟨t, hrun, hrefs, ht⟩ := namex_ok hq hroom path false
    rw [hwalk] at hrun hrefs
    unfold found at hrefs
    rw [walk_resolve] at hrefs
    refine ⟨t, ?_, hrefs, ht⟩
    rw [← walk_resolve Dirent.zero.name]
    exact Prog.bind_of_ok hrun
  · rw [resolve_eq_none]
    simp only [hq.lookupIn_eq_none]
  · obtain ⟨t, hrun, hrefs, ht⟩ := namex_ok hq hroom path true
    rw [hwalk, walk_parent] at hrun hrefs
    exact ⟨_, t, hrun, rfl, hrefs, ht⟩

/-- `"a"` -/
def nameA : Name := ⟨[97], by decide⟩

/-- A root directory with a file `a`, inode `i`; inodes below 100 are in use. -/
def oneFile (i : Nat) (j : Nat) : Node :=
  if j = 1 then
    ((({ Node.zero with type := .dir, nlink := 1 }.put 0 ⟨1, dot⟩).put 1 ⟨1, dotdot⟩).put 2
      ⟨BitVec.ofNat 16 i, nameA⟩)
  else if j < 100 then { Node.zero with type := .file, nlink := 1 } else Node.zero

/-- A process in the root directory, when the inodes of `refs` are referred to. -/
def atRoot (i : Nat) (refs : List Nat) : World Unit where
  node := oneFile i
  refs := refs
  valid := fun _ => true
  locks := []
  cwd := fun _ => some ROOTINO

theorem atRoot_quiescent {i : Nat} (hi : i < 100) (h1 : 1 ∈ refs) (hrefs : ∀ j ∈ refs, j < 100) :
    Quiescent (atRoot i refs) () := by
  have hused (j : Nat) (hj : j < 100) : (oneFile i j).type ≠ .free := by
    unfold oneFile
    split
    · exact nofun
    · exact nofun
  have hsize : (oneFile i 1).size = 48 := by simp [oneFile, Node.put, Node.zero, DIRENT]
  have hdir (j : Nat) (hj : (oneFile i j).type = .dir) : j = 1 := by
    unfold oneFile at hj
    split at hj
    · assumption
    · split at hj <;> cases hj
  refine ⟨rfl, ⟨1, rfl, h1⟩, hused 1 (by decide), fun j hj => hused j (hrefs j hj),
    fun j hj _ => ?_,
    fun j hj => ?_, fun j k hj hk _ => hused _ ?_⟩
  · show (oneFile i j).nlink ≠ 0
    have hj : (oneFile i j).type ≠ .free := hj
    unfold oneFile at hj ⊢
    split
    · exact Int.one_ne_zero
    · rename_i hne
      rw [if_neg hne] at hj
      split at hj
      · rename_i hlt
        rw [if_pos hlt]
        exact Int.one_ne_zero
      · exact absurd rfl hj
  · rw [hdir j hj]
    show (oneFile i 1).size % DIRENT = 0
    rw [hsize]
    rfl
  · obtain rfl := hdir j hj
    have hk : k < (oneFile i 1).size / DIRENT := hk
    rw [hsize] at hk
    have hk : k < 3 := hk
    have hself : ((oneFile i 1).dirent 2).inum = BitVec.ofNat 16 i := by
      show ((Node.put _ 2 _).dirent 2).inum = _
      rw [Node.dirent_put_self]
    show ((oneFile i 1).dirent k).inum.toNat < 100
    interval_cases k
    · show ((Node.put (Node.put _ 1 _) 2 _).dirent 0).inum.toNat < 100
      rw [Node.dirent_put_ne (by decide), Node.dirent_put_ne (by decide), Node.dirent_put_self]
      decide
    · show ((Node.put _ 2 _).dirent 1).inum.toNat < 100
      rw [Node.dirent_put_ne (by decide), Node.dirent_put_self]
      decide
    · rw [hself, BitVec.toNat_ofNat]
      omega

/-- The file is found, also with slashes around its name. -/
theorem path_resolution_file : ∃ t, namei () [47, 97, 47, 47] (atRoot 2 [1]) = .ok (some 2, t) := by
  have hq : Quiescent (atRoot 2 [1]) () := atRoot_quiescent (by decide) (by decide) (by decide)
  obtain ⟨ip, hip, ⟨t, hrun, -⟩, -⟩ := path_resolution hq
    (show _ ≤ _ by decide) (show (0 : Byte) ∉ [47, 97, 47, 47] by decide)
  cases hip
  exact ⟨t, hrun⟩

/-- Fifty inodes are in use, and the file is not one of them: there is no slot for it. -/
theorem namei_no_slot : Quiescent (atRoot 60 (List.range' 1 50)) ()
    ∧ resolve (atRoot 60 (List.range' 1 50)).node ROOTINO (components [97]) = some 60
    ∧ namei () [97] (atRoot 60 (List.range' 1 50)) = .panic .igetNoInodes := by
  refine ⟨atRoot_quiescent (by decide) (by decide) (by decide), by decide +kernel, ?_⟩
  rfl

end Xv6.Fs
