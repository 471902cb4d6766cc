import Xv6.Lib.Outcome
import Xv6.Lib.TwoLevel
import Xv6.Layout

namespace Xv6

open TwoLevel

/-!
# Physical memory and its allocator (`kalloc.c`)

Physical memory is one array of frames, each of 1024 words; page directories, page tables
and user pages all live in it.  The free list is `kmem.freelist` read as a list of frames
(the `next` pointers it is threaded with sit in the first word of each free page).
-/

/-- The panics of the modelled kernel code, named by their messages. -/
inductive Panic where
  | remap
  | kalloc
  | kfree
  | loaduvmAligned
  | loaduvmExist
  | clearpteu
  | copyuvmExist
  | copyuvmPresent
  | initExiting
  | filedup
  | fileclose
  | fileread
  | filewrite
  deriving DecidableEq, Repr

/-- Outcome of kernel code. -/
abbrev Res := Outcome Panic

/-- Physical memory with the allocator's free list. -/
structure Phys where
  mem : Frame → Idx → Word
  freelist : List Frame

/-- `memset(v, c, PGSIZE)` for a page, `w` being the byte `c` four times. -/
def Phys.memset (s : Phys) (f : Frame) (w : Word) : Phys :=
  { s with mem := Function.update s.mem f (fun _ => w) }

/-- `*p = w` for the `i`-th word of a page. -/
def Phys.store (s : Phys) (f : Frame) (i : Idx) (w : Word) : Phys :=
  { s with mem := write s.mem f i w }

/-- What `kfree` fills a page with "to catch dangling refs". -/
def junk : Word := 0x01010101

/-- The word `r->next` holds: the kernel address of the next free page, or 0. -/
def nextRun : List Frame → Word
  | [] => 0
  | f :: _ => P2V (base f)

/-- `kalloc`: take the first free page; its contents are left as they are. -/
def kalloc (s : Phys) : Option Frame × Phys :=
  match s.freelist with
  | [] => (none, s)
  | f :: rest => (some f, { s with freelist := rest })

/-- `kfree(v)` for a kernel address `v`. -/
def kfree (L : Link) (s : Phys) (v : Word) : Res Phys :=
  if v % PGSIZE ≠ 0#32 ∨ v < L.end_ ∨ PHYSTOP ≤ V2P v then .panic .kfree
  else
    let f := frameOf (V2P v)
    let s := s.memset f junk
    let s := s.store f 0 (nextRun s.freelist)
    .ok { s with freelist := f :: s.freelist }

end Xv6
