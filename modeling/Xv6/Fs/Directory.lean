import Xv6.Fs.Dinode
import Xv6.Lib.Words
import Mathlib.Data.List.TakeWhile
import Mathlib.Logic.Function.Basic

namespace Xv6.Fs

open List

/-!
# Directories and paths

Files as bytes, directories as files of `struct dirent`, and `skipelem` of `fs.c`.

* `Name`, `Dirent` — names and directory entries, with `Node.dirent_of_bytes` for reading back what
  was written;
* `Node` — an inode with its contents; `Node.put` — an entry is written;
* `skipelem`, `elems` — the elements of a path.
-/

/-- A name in a directory: the bytes before the terminating 0. -/
def Name := { l : List Byte // l.length ≤ DIRSIZ ∧ 0 ∉ l }

instance : DecidableEq Name :=
  inferInstanceAs (DecidableEq { l : List Byte // l.length ≤ DIRSIZ ∧ 0 ∉ l })

/-- A string of at most `DIRSIZ` bytes. -/
def Name.ofList (l : List Byte) : Name :=
  ⟨(l.take DIRSIZ).takeWhile (· ≠ 0),
    (List.takeWhile_prefix _).length_le.trans (List.length_take_le ..), fun h => by
      simpa using List.mem_takeWhile_imp h⟩

/-- `"."` -/
def dot : Name := ⟨[46], by decide⟩

/-- `".."` -/
def dotdot : Name := ⟨[46, 46], by decide⟩

/-- `struct dirent` -/
structure Dirent where
  inum : BitVec 16
  name : Name
  deriving DecidableEq

/-- `sizeof(struct dirent)` -/
def DIRENT : Nat := 16

/-- The bytes of an entry, the name filled up by `strncpy`. -/
def Dirent.byte (e : Dirent) : Nat → Byte
  | 0 => e.inum.setWidth 8
  | 1 => (e.inum >>> 8).setWidth 8
  | t + 2 => e.name.1.getD t 0

/-- An entry of zeros. -/
def Dirent.zero : Dirent := ⟨0, ⟨[], by decide⟩⟩

/-- An inode with its contents. -/
structure Node where
  type : FileType
  nlink : Int
  size : Nat
  data : Nat → Byte

/-- An inode after `memset(dip, 0, sizeof(*dip))`. -/
def Node.zero : Node where
  type := .free
  nlink := 0
  size := 0
  data := fun _ => 0

namespace Node

/-- Entry `k` of a directory. -/
def dirent (d : Node) (k : Nat) : Dirent where
  inum := (d.data (DIRENT * k + 1)).setWidth 16 <<< 8 ||| (d.data (DIRENT * k)).setWidth 16
  name := .ofList ((List.range DIRSIZ).map fun t => d.data (DIRENT * k + 2 + t))

end Node

/-! ### Entries read back -/

theorem Name.ofList_pad (n : Name) :
    Name.ofList ((List.range DIRSIZ).map fun t => n.1.getD t 0) = n := by
  obtain ⟨l, hlen, hmem⟩ := n
  refine Subtype.ext ?_
  have hsplit : (range DIRSIZ).map (fun t => l.getD t 0)
      = l ++ replicate (DIRSIZ - l.length) 0 := by
    refine ext_getElem (by simp; omega) fun t h1 h2 => ?_
    simp only [getElem_map, getElem_range]
    by_cases ht : t < l.length
    · rw [getElem_append_left ht, getD_eq_getElem _ _ ht]
    · simp_all
  show takeWhile _ (take DIRSIZ _) = l
  rw [take_of_length_le (by simp), hsplit, takeWhile_append_of_pos]
  · rw [takeWhile_replicate]
    simp
  · grind

variable {d : Node} {path : List Byte}

/-- An entry is what its bytes say. -/
theorem Node.dirent_of_bytes {k : Nat} {e : Dirent}
    (h : ∀ t, t < DIRENT → d.data (DIRENT * k + t) = e.byte t) : d.dirent k = e := by
  have h0 := h 0 (by decide)
  have h1 := h 1 (by decide)
  have hname : (range DIRSIZ).map (fun t => d.data (DIRENT * k + 2 + t))
      = (range DIRSIZ).map fun t => e.name.1.getD t 0 := by
    refine map_congr_left fun t ht => ?_
    have hlt := mem_range.mp ht
    have := h (t + 2) (by unfold DIRSIZ at hlt; unfold DIRENT; omega)
    rw [show DIRENT * k + 2 + t = DIRENT * k + (t + 2) by omega, this]
    rfl
  unfold Node.dirent
  rw [hname, Name.ofList_pad, h1]
  rw [Nat.add_zero] at h0
  rw [h0]
  simp only [Dirent.byte]
  congr 1
  ext i hi
  by_cases hi8 : i < 8
  · simp [hi8, BitVec.getLsbD_eq_getElem hi]
  · grind

/-- Entry `k` is written. -/
def Node.put (d : Node) (k : Nat) (e : Dirent) : Node :=
  { d with
    data := fun x => if DIRENT * k ≤ x ∧ x < DIRENT * k + DIRENT then e.byte (x - DIRENT * k)
      else d.data x
    size := max d.size (DIRENT * k + DIRENT) }

section

variable {d : Node} {k j : Nat} {e : Dirent}

theorem Node.dirent_put_self : (d.put k e).dirent k = e := by
  refine dirent_of_bytes fun t ht => ?_
  show (if _ then _ else _) = _
  rw [if_pos (by omega)]
  congr 1
  omega

theorem Node.dirent_put_ne (h : j ≠ k) : (d.put k e).dirent j = d.dirent j := by
  have hdata (t : Nat) (ht : t < DIRENT) :
      (d.put k e).data (DIRENT * j + t) = d.data (DIRENT * j + t) := by
    show (if _ then _ else _) = _
    rw [if_neg]
    unfold DIRENT at *
    omega
  have h0 := hdata 0 (by decide)
  have h1 := hdata 1 (by decide)
  have hname : (range DIRSIZ).map (fun t => (d.put k e).data (DIRENT * j + 2 + t))
      = (range DIRSIZ).map fun t => d.data (DIRENT * j + 2 + t) := by
    refine map_congr_left fun t ht => ?_
    have hlt := mem_range.mp ht
    have h2 := hdata (2 + t) (by unfold DIRSIZ at hlt; unfold DIRENT; omega)
    rw [← Nat.add_assoc] at h2
    exact h2
  unfold Node.dirent
  rw [hname, h1]
  rw [Nat.add_zero] at h0
  rw [h0]

end

/-! ### Paths -/

/-- `'/'` -/
def slash : Byte := 47

/-- `skipelem(path, name)`: the first element and the rest, which does not begin with a slash. -/
def skipelem (path : List Byte) : Option (Name × List Byte) :=
  let path := path.dropWhile (· = slash)
  match path with
  | [] => none
  | c :: _ =>
    if c = 0 then none
    else
      let inside : Byte → Bool := fun c => c ≠ slash ∧ c ≠ 0
      some (.ofList (path.takeWhile inside), (path.dropWhile inside).dropWhile (· = slash))

/-- What is left after the slashes does not start with one. -/
theorem ne_slash_of_dropWhile {c : Byte} {cs : List Byte}
    (h : path.dropWhile (· = slash) = c :: cs) : c ≠ slash := by
  have hhead := head_dropWhile_not (fun x : Byte => decide (x = slash)) (l := path)
    (by rw [h]; exact nofun)
  simpa only [h, head_cons, decide_eq_false_iff_not] using hhead

theorem skipelem_length {rest : List Byte} {name : Name} (h : skipelem path = some (name, rest)) :
    rest.length < path.length := by
  unfold skipelem at h
  have hle := (dropWhile_suffix (· = slash) (l := path)).length_le
  simp only at h
  split at h
  · cases h
  · rename_i c cs hpath
    split at h
    · cases h
    · rename_i hc
      have hrest := (Prod.mk.inj (Option.some.inj h)).2
      -- the first byte belongs to the element
      have hin : decide (c ≠ slash ∧ c ≠ 0) = true :=
        decide_eq_true ⟨ne_slash_of_dropWhile hpath, hc⟩
      rw [hpath, dropWhile_cons_of_pos (by exact hin)] at hrest
      have h1 := (dropWhile_suffix (fun c => decide (c ≠ slash ∧ c ≠ 0)) (l := cs)).length_le
      have h2 := (dropWhile_suffix (· = slash)
        (l := cs.dropWhile fun c => decide (c ≠ slash ∧ c ≠ 0))).length_le
      rw [hpath, length_cons] at hle
      rw [← hrest]
      omega

/-- What `skipelem` gives, one after another. -/
def elemsWithin : Nat → List Byte → List Name
  | 0, _ => []
  | fuel + 1, path =>
    match skipelem path with
    | none => []
    | some (name, rest) => name :: elemsWithin fuel rest

/-- The elements of a path. -/
def elems (path : List Byte) : List Name := elemsWithin path.length path

theorem elemsWithin_eq {m n : Nat} (hm : path.length ≤ m) (hn : path.length ≤ n) :
    elemsWithin m path = elemsWithin n path := by
  induction m generalizing n path with
  | zero =>
    have hnil : path = [] := eq_nil_of_length_eq_zero (by omega)
    subst hnil
    cases n <;> rfl
  | succ m ih =>
    cases hs : skipelem path with
    | none => cases n <;> simp [elemsWithin, hs]
    | some x =>
      have hlt := skipelem_length (show skipelem path = some (x.1, x.2) from hs)
      cases n with
      | zero => omega
      | succ n =>
        simp only [elemsWithin, hs]
        rw [ih (n := n) (by omega) (by omega)]

/-- No element is missed. -/
theorem elems_eq (path : List Byte) : elems path = match skipelem path with
    | none => []
    | some (name, rest) => name :: elems rest := by
  have hmore : elems path = elemsWithin (path.length + 1) path :=
    elemsWithin_eq (Nat.le_refl _) (Nat.le_succ _)
  rw [hmore, elemsWithin]
  split
  · rfl
  · rename_i name rest hs
    have hlt := skipelem_length hs
    rw [elemsWithin_eq (n := rest.length) (by omega) (Nat.le_refl _)]
    rfl

end Xv6.Fs
