import Xv6.Fs.Calls

namespace Xv6.Fs

open Function List Node World

/-!
# What the functions on names do

* `World.held`, `World.put` — the state after `iget` and `iput`;
* `iget_ends`, `ilock_ends`, `iput_ends`, `dirlookup_ends`, … — one lemma for each function;
* `Owes` — a process in a system call, with the references and locks it has taken;
* `Looking` — a process that has only looked names up;
* `walk`, `namex_ends` — a path leads where its elements lead one after another.
-/

variable {P : Type}
variable {name : Name}

/-- The state after `iget`. -/
def World.held (s : World P) (i : Nat) : World P :=
  { s with
    refs := i :: s.refs
    valid := if i ∈ s.refs then s.valid else update s.valid i false }

/-- `iput` frees the inode. -/
def World.Frees (s : World P) (i : Nat) : Prop :=
  s.valid i = true ∧ (s.node i).nlink = 0 ∧ s.refs.count i = 1

instance (s : World P) (i : Nat) : Decidable (s.Frees i) := instDecidableAnd

/-- The state after `iput`. -/
def World.put (s : World P) (i : Nat) : World P :=
  { s with
    node := if s.Frees i then update s.node i (s.node i).freed else s.node
    valid := if s.Frees i then update s.valid i false else s.valid
    refs := s.refs.erase i }

section

variable {s : World P} {i : Nat}

/-- `iget` takes a reference. -/
theorem iget_ends : Ends (iget i) s (fun _ t => t = s.held i) False := by
  refine .get ?_
  split
  · rename_i hi
    show _ = s.held i
    unfold held
    rw [if_pos hi]
  · rename_i hi
    split
    · show _ = s.held i
      unfold held
      rw [if_neg hi]
    · exact .fail

/-- `idup` takes another one. -/
theorem idup_ends : Ends (idup i) s (fun _ t => t = { s with refs := i :: s.refs }) False := rfl

/-- `ilock` waits for ever for a lock that the process has. -/
theorem ilock_ends : Ends (ilock i) s (fun _ t => i ∈ s.refs
    ∧ (s.valid i = false → (s.node i).type ≠ .free)
    ∧ t = { s with locks := i :: s.locks, valid := update s.valid i true }) (i ∈ s.locks) := by
  refine .get ?_
  split
  · exact .fail
  · rename_i hi
    split
    · rename_i hl
      exact .stuck hl
    · split
      · rename_i hv
        refine ⟨not_not.mp hi, fun hf => ?_, ?_⟩
        · rw [hv] at hf
          cases hf
        · rw [← hv, update_eq_self]
      · split
        · exact .fail
        · rename_i ht
          exact ⟨not_not.mp hi, fun _ => ht, rfl⟩

/-- `iunlock` gives back the lock. -/
theorem iunlock_ends : Ends (iunlock i) s (fun _ t => i ∈ s.locks ∧ i ∈ s.refs
    ∧ t = { s with locks := s.locks.erase i }) False := by
  refine .get ?_
  split
  · rename_i hi
    exact ⟨hi.1, hi.2, rfl⟩
  · exact .fail

/-- `iput` gives back a reference, unless the inode is locked. -/
theorem iput_ends (hi : i ∈ s.refs) :
    Ends (iput i) s (fun _ t => i ∉ s.locks ∧ t = s.put i) (i ∈ s.locks) := by
  refine .get ?_
  split
  · rename_i hl
    exact .stuck hl
  · rename_i hl
    split
    · rename_i hf
      refine ⟨hl, ?_⟩
      have hf' : s.Frees i := hf
      unfold World.put
      rw [if_pos hf', if_pos hf']
    · rename_i hf
      refine ⟨hl, ?_⟩
      have hf' : ¬s.Frees i := hf
      unfold World.put
      rw [if_neg hf', if_neg hf']

/-- `iunlockput` gives back both. -/
theorem iunlockput_ends (hi : i ∈ s.refs) : Ends (iunlockput i) s
    (fun _ t => t = World.put { s with locks := s.locks.erase i } i) (i ∈ s.locks.erase i) := by
  refine iunlock_ends.next ?_
  rintro _ t ⟨-, -, rfl⟩
  refine (iput_ends (s := { s with locks := s.locks.erase i }) hi).mono ?_ id
  rintro _ u ⟨-, rfl⟩
  rfl

/-- `dirlookup` is the search for the name, with a reference to what it finds. -/
theorem dirlookup_ends : Ends (dirlookup i name) s (fun r t => (s.node i).type = .dir
    ∧ ((s.node i).lookup name = .none ∧ r = none ∧ t = s
      ∨ ∃ k, (s.node i).lookup name = .found k ∧ r = some (((s.node i).dirent k).inum.toNat, k)
        ∧ t = s.held ((s.node i).dirent k).inum.toNat)) False := by
  refine .get ?_
  simp only
  split
  · exact .fail
  · rename_i hdir
    split
    · rename_i k hk
      refine iget_ends.next fun _ t ht => ?_
      exact ⟨not_not.mp hdir, .inr ⟨k, hk, rfl, ht⟩⟩
    · rename_i hk
      exact ⟨not_not.mp hdir, .inl ⟨hk, rfl, rfl⟩⟩
    · exact .fail

end

/-! ### Searching a directory -/

section

variable {d : Node} {start k : Nat} {test : Dirent → Bool}

/-- An entry that is found is in the directory, and meets the test. -/
theorem search_found (h : d.search start test = .found k) :
    start ≤ k ∧ k < d.size / DIRENT ∧ test (d.dirent k) = true := by
  unfold search at h
  split at h
  · rename_i k' hk
    cases h
    have hmem := mem_of_find?_eq_some hk
    rw [mem_range'_1] at hmem
    exact ⟨hmem.1, by omega, by simpa using find?_some hk⟩
  · split at h <;> cases h

/-- If none is found, no entry meets the test, and none is cut short. -/
theorem search_none (h : d.search start test = .none) :
    (∀ k, start ≤ k → k < d.size / DIRENT → test (d.dirent k) = false)
      ∧ (DIRENT * start < d.size → d.size % DIRENT = 0) := by
  unfold search at h
  split at h
  · cases h
  · grind

/-- If no entry meets the test and none is cut short, none is found. -/
theorem search_eq_none (h : ∀ k, start ≤ k → k < d.size / DIRENT → test (d.dirent k) = false)
    (hsize : d.size % DIRENT = 0) : d.search start test = .none := by
  unfold search
  split
  · grind
  · rw [if_neg fun hs => hs.2 hsize]

/-- `dirlink` finds a free entry, or the end of the directory. -/
theorem freeEntry_some (h : d.freeEntry = some k) : k < d.size / DIRENT ∧ (d.dirent k).inum = 0
    ∨ d.size = DIRENT * k ∧ ∀ j, j < k → (d.dirent j).inum ≠ 0 := by
  unfold freeEntry at h
  split at h
  · rename_i k' hs
    cases h
    obtain ⟨-, hlt, ht⟩ := search_found hs
    exact .inl ⟨hlt, by simpa using ht⟩
  · rename_i hs
    cases h
    obtain ⟨hall, hsize⟩ := search_none hs
    refine .inr ⟨?_, fun j hj => by simpa using hall j (Nat.zero_le _) hj⟩
    unfold DIRENT at *
    omega
  · cases h

end

/-! ### References and locks -/

/-- From `s` on, the process has taken the references `own` and the locks `held`, and has not
    touched processes and open files. -/
structure Owes (s t : World P) (own held : List Nat) : Prop where
  rest : t = { s with node := t.node, refs := t.refs, valid := t.valid, locks := t.locks }
  refs : t.refs.Perm (own ++ s.refs)
  locks : t.locks.Perm (held ++ s.locks)

namespace Owes

variable {s t : World P} {own held : List Nat} {i : Nat}

/-- At the start nothing is owed. -/
theorem refl (s : World P) : Owes s s [] [] := ⟨rfl, .refl _, .refl _⟩

/-- Who owes a reference has it. -/
theorem mem_refs (h : Owes s t own held) (hi : i ∈ own) : i ∈ t.refs :=
  h.refs.mem_iff.mpr (mem_append_left _ hi)

/-- A reference is taken. -/
theorem held' (h : Owes s t own held) (i : Nat) : Owes s (t.held i) (i :: own) held := by
  refine ⟨?_, h.refs.cons i, h.locks⟩
  rw [h.rest]
  rfl

/-- An inode is locked. -/
theorem lock (h : Owes s t own held) (i : Nat) (valid : Nat → Bool) :
    Owes s { t with locks := i :: t.locks, valid } own (i :: held) := by
  refine ⟨?_, h.refs, h.locks.cons i⟩
  rw [h.rest]

/-- An inode is unlocked. -/
theorem unlock (h : Owes s t own (i :: held)) :
    Owes s { t with locks := t.locks.erase i } own held := by
  refine ⟨?_, h.refs, ?_⟩
  · rw [h.rest]
  · have := h.locks.erase i
    rwa [cons_append, erase_cons_head] at this

/-- A reference is given back. -/
theorem put (h : Owes s t (i :: own) held) : Owes s (t.put i) own held := by
  refine ⟨?_, ?_, h.locks⟩
  · rw [h.rest]
    rfl
  · have := h.refs.erase i
    rwa [cons_append, erase_cons_head] at this

/-- What was not locked before, nor since, is not locked. -/
theorem not_mem_locks (h : Owes s t own held) (hi : i ∉ held ++ s.locks) : i ∉ t.locks :=
  fun hm => hi (h.locks.mem_iff.mp hm)

/-- An inode is unlocked and given back. -/
theorem iunlockput_ends (h : Owes s t (i :: own) (i :: held)) (hi : i ∉ held ++ s.locks) :
    Ends (iunlockput i) t
      (fun _ u => u = World.put { t with locks := t.locks.erase i } i
        ∧ Owes s u own held) False := by
  have hu := h.unlock
  refine ((Fs.iunlockput_ends (h.mem_refs (mem_cons_self ..))).sure
    (hu.not_mem_locks hi)).mono ?_ id
  rintro _ u rfl
  exact ⟨rfl, hu.put⟩

/-- What is owed has no order. -/
theorem perm {own' held' : List Nat} (h : Owes s t own held) (ho : own.Perm own')
    (hh : held.Perm held') : Owes s t own' held' :=
  ⟨h.rest, h.refs.trans (ho.append_right _), h.locks.trans (hh.append_right _)⟩

end Owes

/-! ### Looking names up -/

/-- The process has changed nothing but what `iput` does: it frees an inode that has no links, if
    nobody had a reference to it. -/
structure Looking (s t : World P) (own held : List Nat) : Prop extends Owes s t own held where
  node : ∀ i, t.node i = s.node i ∨ i ∉ s.refs ∧ (s.node i).nlink = 0 ∧ (s.node i).type ≠ .free
    ∧ (t.node i).type = .free ∧ t.valid i = false
  valid : ∀ i ∈ s.refs, s.valid i = true → t.valid i = true
  known : ∀ i, i ∉ s.refs → i ∈ t.refs → t.valid i = true → (s.node i).type ≠ .free

namespace Looking

variable {s t : World P} {own held : List Nat} {i : Nat}

/-- At the start nothing is owed. -/
theorem refl (s : World P) : Looking s s [] [] :=
  ⟨.refl s, fun _ => .inl rfl, fun _ _ hv => hv, fun _ hn hi => absurd hi hn⟩

/-- The caller's references stay. -/
theorem mem_of_base (h : Looking s t own held) (hi : i ∈ s.refs) : i ∈ t.refs :=
  h.refs.mem_iff.mpr (mem_append_right _ hi)

/-- A reference is taken. -/
theorem held' (h : Looking s t own held) (i : Nat) : Looking s (t.held i) (i :: own) held := by
  have hvalid (j : Nat) (hj : j ≠ i) : (t.held i).valid j = t.valid j := by
    show (if i ∈ t.refs then t.valid else update t.valid i false) j = t.valid j
    split
    · rfl
    · exact update_of_ne hj ..
  have hvalid_mem (hi : i ∈ t.refs) : (t.held i).valid = t.valid := if_pos hi
  have hvalid_new (hi : i ∉ t.refs) : (t.held i).valid i = false := by
    show (if i ∈ t.refs then t.valid else update t.valid i false) i = false
    rw [if_neg hi, update_self]
  refine ⟨h.toOwes.held' i, fun j => ?_, fun j hj hv => ?_, fun j hn hj hv => ?_⟩
  · rcases h.node j with hn | ⟨hr, hl, ht, hf, hv⟩
    · exact .inl hn
    · refine .inr ⟨hr, hl, ht, hf, ?_⟩
      by_cases hji : j = i
      · grind
      · rw [hvalid j hji]
        exact hv
  · by_cases hji : j = i
    · subst hji
      rw [hvalid_mem (h.mem_of_base hj)]
      exact h.valid j hj hv
    · rw [hvalid j hji]
      exact h.valid j hj hv
  · by_cases hji : j = i
    · subst hji
      by_cases hm : j ∈ t.refs
      · rw [hvalid_mem hm] at hv
        exact h.known j hn hm hv
      · rw [hvalid_new hm] at hv
        cases hv
    · rw [hvalid j hji] at hv
      refine h.known j hn ?_ hv
      rcases mem_cons.mp hj with he | hj
      · exact absurd he hji
      · exact hj

/-- A locked inode is as it was. -/
theorem lock (h : Looking s t own held) (hi : i ∈ t.refs)
    (hfree : t.valid i = false → (t.node i).type ≠ .free) :
    Looking s { t with locks := i :: t.locks, valid := update t.valid i true } own (i :: held)
      ∧ t.node i = s.node i := by
  have hnode : t.node i = s.node i := by grind [h.node]
  refine ⟨⟨h.toOwes.lock i _, fun j => ?_, fun j hj hv => ?_, fun j hn hj hv => ?_⟩, hnode⟩
  · by_cases hji : j = i
    · exact .inl (hji ▸ hnode)
    · simp_all [h.node, update_of_ne]
  · show update t.valid i true j = true
    rw [update_apply]
    split
    · rfl
    · exact h.valid j hj hv
  · by_cases hji : j = i
    · subst hji
      by_cases hvj : t.valid j = true
      · exact h.known j hn hi hvj
      · rw [← hnode]
        exact hfree (by simpa using hvj)
    · exact h.known j hn hj ((update_of_ne hji ..).symm.trans hv)

/-- An inode is unlocked. -/
theorem unlock (h : Looking s t own (i :: held)) :
    Looking s { t with locks := t.locks.erase i } own held :=
  ⟨h.toOwes.unlock, h.node, h.valid, h.known⟩

/-- A reference is given back. -/
theorem put (h : Looking s t (i :: own) held) : Looking s (t.put i) own held := by
  have hvalid (j : Nat) (hv : (t.put i).valid j = true) : t.valid j = true := by
    have hv' : (if t.Frees i then update t.valid i false else t.valid) j = true := hv
    split at hv'
    · grind
    · exact hv'
  -- an inode that is freed was referenced by this process only
  have hnew (hf : t.Frees i) : i ∉ s.refs := by
    intro hi
    have hcount := h.refs.count_eq i
    have hpos := count_pos_iff.mpr hi
    rw [hf.2.2, count_append, count_cons_self] at hcount
    omega
  refine ⟨h.toOwes.put, fun j => ?_, fun j hj hv => ?_, fun j hn hj hv => ?_⟩
  · by_cases hf : t.Frees i
    · have hnode : (t.put i).node = update t.node i (t.node i).freed := if_pos hf
      have hval : (t.put i).valid = update t.valid i false := if_pos hf
      rw [hnode, hval]
      by_cases hji : j = i
      · subst hji
        rw [update_self, update_self]
        rcases h.node j with hn | ⟨-, -, -, -, hv⟩
        · refine .inr ⟨hnew hf, hn ▸ hf.2.1, ?_, rfl, rfl⟩
          exact h.known j (hnew hf) (h.toOwes.mem_refs (mem_cons_self ..)) hf.1
        · rw [hf.1] at hv
          cases hv
      · rw [update_of_ne hji, update_of_ne hji]
        exact h.node j
    · have hnode : (t.put i).node = t.node := if_neg hf
      have hval : (t.put i).valid = t.valid := if_neg hf
      rw [hnode, hval]
      exact h.node j
  · by_cases hf : t.Frees i
    · have hval : (t.put i).valid = update t.valid i false := if_pos hf
      have hji : j ≠ i := fun he => hnew hf (he ▸ hj)
      rw [hval, update_of_ne hji]
      exact h.valid j hj hv
    · have hval : (t.put i).valid = t.valid := if_neg hf
      rw [hval]
      exact h.valid j hj hv
  · exact h.known j hn (mem_of_mem_erase hj) (hvalid j hv)

/-- What is owed has no order. -/
theorem perm {own' held' : List Nat} (h : Looking s t own held) (ho : own.Perm own')
    (hh : held.Perm held') : Looking s t own' held' :=
  ⟨h.toOwes.perm ho hh, h.node, h.valid, h.known⟩

/-- An inode is unlocked and given back. -/
theorem iunlockput_ends (h : Looking s t (i :: own) (i :: held)) (hi : i ∉ held ++ s.locks) :
    Ends (iunlockput i) t (fun _ u => Looking s u own held) False := by
  refine (h.toOwes.iunlockput_ends hi).mono ?_ id
  rintro _ u ⟨rfl, -⟩
  exact h.unlock.put

end Looking

/-- Where the elements of a path lead from inode `ip`, when the kernel does not panic. -/
def walk (node : Nat → Node) (parent : Bool) (ip : Nat) (name : Name) :
    List Name → Option (Nat × Name)
  | [] => if parent then none else some (ip, name)
  | next :: rest =>
    if (node ip).type ≠ .dir then none
    else if parent ∧ rest = [] then some (ip, next)
    else
      match (node ip).lookup next with
      | .found k => walk node parent ((node ip).dirent k).inum.toNat next rest
      | _ => none

/-- Where a path starts. -/
def World.start (s : World P) (p : P) (path : List Byte) : Option Nat :=
  if path.head? = some slash then some ROOTINO else s.cwd p

/-- Where a path leads. -/
def World.walk (s : World P) (p : P) (path : List Byte) (parent : Bool) : Option (Nat × Name) :=
  (s.start p path).bind fun ip => Fs.walk s.node parent ip Dirent.zero.name (elems path)

section

variable {s t : World P} {own : List Nat}

/-- The references in a result of `namex`. -/
def found (r : Option (Nat × Name)) : List Nat := (r.map Prod.fst).toList

/-- The loop of `namex` walks along the components. -/
theorem namexLoop_ends (hl : s.locks = []) (parent : Bool) (es : List Name) {ip : Nat}
    (h : Looking s t (ip :: own) []) : Ends (namexLoop parent ip name es) t (fun r u =>
      r = walk s.node parent ip name es ∧ Looking s u (found r ++ own) []) False := by
  have hip : ip ∉ [] ++ s.locks := by
    rw [hl]
    exact not_mem_nil
  induction es generalizing ip name t with
  | nil =>
    unfold namexLoop walk
    cases parent with
    | true =>
      refine ((iput_ends (h.mem_refs (mem_cons_self ..))).sure (h.not_mem_locks hip)).next ?_
      rintro _ u ⟨-, rfl⟩
      exact ⟨rfl, h.put⟩
    | false => exact ⟨rfl, h⟩
  | cons next rest ih =>
    unfold namexLoop walk
    refine (ilock_ends.sure (h.not_mem_locks hip)).next ?_
    rintro _ u ⟨hmem, hfree, rfl⟩
    obtain ⟨hlook, hnode⟩ := h.lock hmem hfree
    refine .get ?_
    show Ends (if (t.node ip).type ≠ .dir then _ else _) _ _ _
    rw [← hnode]
    split
    · refine (hlook.iunlockput_ends hip).next fun _ u hu => ?_
      exact ⟨rfl, hu⟩
    · split
      · refine iunlock_ends.next ?_
        rintro _ u ⟨-, -, rfl⟩
        exact ⟨rfl, hlook.unlock⟩
      · refine dirlookup_ends.next ?_
        rintro r u ⟨-, ⟨hnone, rfl, rfl⟩ | ⟨k, hk, rfl, rfl⟩⟩
        · have hnone' : (t.node ip).lookup next = .none := hnone
          rw [hnone']
          refine (hlook.iunlockput_ends hip).next fun _ u hu => ?_
          exact ⟨rfl, hu⟩
        · have hk' : (t.node ip).lookup next = .found k := hk
          rw [hk']
          have hget := (hlook.held' ((t.node ip).dirent k).inum.toNat).perm (.swap ..) (.refl _)
          refine (hget.iunlockput_ends hip).next fun _ u hu => ?_
          refine ih hu ?_
          rw [hl]
          exact not_mem_nil

/-- `namex` leads where the path leads, and gives a reference. -/
theorem namex_ends {p : P} {path : List Byte} {parent : Bool} (hl : s.locks = [])
    (h : Looking s t own []) {i : Nat} (hi : s.cwd p = some i) (hmem : i ∈ s.refs) :
    Ends (namex p path parent) t (fun r u =>
      r = s.walk p path parent ∧ Looking s u (found r ++ own) []) False := by
  have hcwd : t.cwd p = some i := by
    rw [h.rest]
    exact hi
  have hstart : Ends (namexStart p path) t (fun ip u =>
      s.start p path = some ip ∧ Looking s u (ip :: own) []) False := by
    unfold namexStart World.start
    split
    · refine iget_ends.next ?_
      rintro _ u rfl
      exact ⟨rfl, h.held' ROOTINO⟩
    · refine .get ?_
      rw [hcwd]
      refine idup_ends.next ?_
      rintro _ u rfl
      have hdup : ({ t with refs := i :: t.refs } : World P) = t.held i := by
        unfold World.held
        rw [if_pos (h.mem_of_base hmem)]
      rw [hdup]
      exact ⟨hi, h.held' i⟩
  refine hstart.next fun ip u hu => ?_
  refine (namexLoop_ends hl parent (elems path) hu.2).mono ?_ id
  rintro r w ⟨hr, hw⟩
  refine ⟨?_, hw⟩
  unfold World.walk
  rw [hu.1]
  exact hr

end

end Xv6.Fs
