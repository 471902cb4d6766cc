import Xv6.Fs.Directory
import Xv6.Fs.Block

namespace Xv6.Mkfs

open Fs Function

/-!
# mkfs

`mkfs.c`: the image of a file system is made from files of the host, whose words have their low
bytes first, as those of the machine that will use the image.

* `State` — the image and the counters;
* `State.rsect`, `State.wsect`, `State.rinode`, `State.winode` — sectors and inodes;
* `State.ialloc`, `State.iappend`, `State.balloc` — what the image is made with;
* `mkfs` — the whole program;
* `State.volume` — what the kernel finds in the image.
-/

def NINODES : Nat := 200

def nbitmap : Nat := FSSIZE / (BSIZE * 8) + 1

def ninodeblocks : Nat := NINODES / IPB + 1

def nlog : Nat := LOGSIZE

/-- Blocks before the data: boot block, super block, log, inodes, free map. -/
def nmeta : Nat := 2 + nlog + ninodeblocks + nbitmap

def nblocks : Nat := FSSIZE - nmeta

/-- `xshort`: the bytes of the result are those of `x`, low byte first. -/
def xshort (x : BitVec 16) : BitVec 16 := (x >>> 8).setWidth 8 ++ x.setWidth 8

/-- `xint` -/
def xint (x : Word) : Word :=
  ((x >>> 24).setWidth 8 ++ (x >>> 16).setWidth 8) ++ ((x >>> 8).setWidth 8 ++ x.setWidth 8)

/-- How mkfs ends other than with `exit(0)`. -/
inductive Stop where
  /-- `exit(1)` -/
  | exit
  /-- A failed `assert`. -/
  | assert
  deriving DecidableEq, Repr

/-- `struct superblock` -/
structure Sb where
  size : Word
  nblocks : Word
  ninodes : Word
  nlog : Word
  logstart : Word
  inodestart : Word
  bmapstart : Word

/-- What `main` puts into `sb`. -/
def sb : Sb where
  size := xint (.ofNat 32 FSSIZE)
  nblocks := xint (.ofNat 32 Mkfs.nblocks)
  ninodes := xint (.ofNat 32 NINODES)
  nlog := xint (.ofNat 32 Mkfs.nlog)
  logstart := xint 2
  inodestart := xint (.ofNat 32 (2 + Mkfs.nlog))
  bmapstart := xint (.ofNat 32 (2 + Mkfs.nlog + ninodeblocks))

/-- A block of zeros with `sb` at its start. -/
def Sb.block (x : Sb) : Block := fun k =>
  match k.val with
  | 0 => x.size
  | 1 => x.nblocks
  | 2 => x.ninodes
  | 3 => x.nlog
  | 4 => x.logstart
  | 5 => x.inodestart
  | 6 => x.bmapstart
  | _ => 0

/-- `struct dinode` -/
structure Din where
  type : BitVec 16
  major : BitVec 16
  minor : BitVec 16
  nlink : BitVec 16
  size : Word
  addrs : Fin (NDIRECT + 1) → Word

/-- `bzero(&din, sizeof(din))` -/
def Din.zero : Din := ⟨0, 0, 0, 0, 0, fun _ => 0⟩

/-- `((struct dinode*)buf)[k]` -/
def getDin (b : Block) (k : Nat) : Din :=
  let w (o : Nat) := b (Fin.ofNat NINDIRECT (16 * k + o))
  { type := (w 0).setWidth 16
    major := (w 0 >>> 16).setWidth 16
    minor := (w 1).setWidth 16
    nlink := (w 1 >>> 16).setWidth 16
    size := w 2
    addrs := fun a => w (3 + a.val) }

/-- The words of an inode. -/
def Din.word (d : Din) : Nat → Word
  | 0 => d.major ++ d.type
  | 1 => d.nlink ++ d.minor
  | 2 => d.size
  | o + 3 => d.addrs (Fin.ofNat (NDIRECT + 1) o)

/-- `((struct dinode*)buf)[k] = d` -/
def putDin (b : Block) (k : Nat) (d : Din) : Block := fun j =>
  if j.val / 16 = k then d.word (j.val % 16) else b j

/-- The image, which is `nsect` sectors long, and the counters. -/
structure State where
  nsect : Nat
  sector : Nat → Block
  freeinode : Word
  freeblock : Word

/-- What mkfs is called with: the name of a file and what the calls of `read` return, each some of
    its bytes; `none` if it cannot be opened. -/
structure Arg where
  name : List Byte
  reads : Option (List {c : List Byte // 0 < c.length ∧ c.length ≤ BSIZE})

namespace State

/-- The sector that `lseek` goes to. -/
def seek (sec : Word) : Nat := (sec * BitVec.ofNat 32 BSIZE).toNat / BSIZE

/-- `wsect` -/
def wsect (s : State) (sec : Word) (b : Block) : State :=
  { s with nsect := max s.nsect (seek sec + 1), sector := update s.sector (seek sec) b }

/-- `rsect`; there is nothing to read beyond the end. -/
def rsect (s : State) (sec : Word) : Outcome Stop Block :=
  if seek sec < s.nsect then .ok (s.sector (seek sec)) else .panic .exit

/-- `IBLOCK(inum, sb)` -/
def iblock (inum : Word) : Word := inum / BitVec.ofNat 32 IPB + sb.inodestart

/-- `winode` -/
def winode (s : State) (inum : Word) (ip : Din) : Outcome Stop State := do
  let buf ← s.rsect (iblock inum)
  return s.wsect (iblock inum) (putDin buf (inum.toNat % IPB) ip)

/-- `rinode` -/
def rinode (s : State) (inum : Word) : Outcome Stop Din := do
  let buf ← s.rsect (iblock inum)
  return getDin buf (inum.toNat % IPB)

/-- `ialloc` -/
def ialloc (s : State) (type : BitVec 16) : Outcome Stop (Word × State) := do
  let inum := s.freeinode
  let s := { s with freeinode := s.freeinode + 1 }
  let s ← s.winode inum { Din.zero with type := xshort type, nlink := xshort 1, size := xint 0 }
  return (inum, s)

/-- The free map with the first `used` bits set. -/
def usedBits (used : Nat) : Block :=
  (List.range used).foldl
    (fun b i => b.setByte (i / 8) (b.byte (i / 8) ||| BitVec.ofNat 8 (1 <<< (i % 8)))) fun _ => 0

/-- `balloc` -/
def balloc (s : State) (used : Word) : Outcome Stop State :=
  if used.toInt < BSIZE * 8 then .ok (s.wsect sb.bmapstart (usedBits used.toInt.toNat))
  else .panic .assert

/-- `if(xint(din.addrs[k]) == 0) din.addrs[k] = xint(freeblock++);` -/
def getAddr (s : State) (din : Din) (k : Fin (NDIRECT + 1)) : Din × State :=
  if xint (din.addrs k) = 0 then
    ({ din with addrs := update din.addrs k (xint s.freeblock) },
      { s with freeblock := s.freeblock + 1 })
  else (din, s)

/-- The entry of the indirect block for block `fbn` of a file. -/
def getEntry (s : State) (din : Din) (fbn : Nat) : Outcome Stop (Word × Din × State) := do
  let indirect ← s.rsect (xint (din.addrs (Fin.last NDIRECT)))
  let e := Fin.ofNat NINDIRECT (fbn - NDIRECT)
  if indirect e = 0 then
    let indirect := update indirect e (xint s.freeblock)
    let s := { s with freeblock := s.freeblock + 1 }
    .ok (xint (indirect e), din, s.wsect (xint (din.addrs (Fin.last NDIRECT))) indirect)
  else .ok (xint (indirect e), din, s)

/-- The block for block `fbn` of a file: the address, and `din` after it. -/
def blockFor (s : State) (din : Din) (fbn : Nat) : Outcome Stop (Word × Din × State) :=
  if h : fbn < NDIRECT then
    let k : Fin (NDIRECT + 1) := ⟨fbn, Nat.lt_succ_of_lt h⟩
    let (din, s) := s.getAddr din k
    .ok (xint (din.addrs k), din, s)
  else
    let (din, s) := s.getAddr din (Fin.last NDIRECT)
    s.getEntry din fbn

/-- The loop of `iappend`, with the bytes that are left. -/
def iappendLoop : (fuel : Nat) → State → (din : Din) → (off : Nat) → (p : List Byte) →
    Outcome Stop (Nat × Din × State)
  | 0, s, din, off, p => if 0 < p.length then .hang else .ok (off, din, s)
  | fuel + 1, s, din, off, p =>
    if 0 < p.length then
      let fbn := off / BSIZE
      if fbn < MAXFILE then do
        let (x, din, s) ← s.blockFor din fbn
        let n1 := min p.length ((fbn + 1) * BSIZE - off)
        let buf ← s.rsect x
        let s := s.wsect x (buf.move (off - fbn * BSIZE) (fun t => p.getD t 0) n1)
        iappendLoop fuel s din (off + n1) (p.drop n1)
      else .panic .assert
    else .ok (off, din, s)

/-- `iappend` -/
def iappend (s : State) (inum : Word) (p : List Byte) : Outcome Stop State := do
  let din ← s.rinode inum
  let (off, din, s) ← s.iappendLoop p.length din (xint din.size).toNat p
  s.winode inum { din with size := xint (BitVec.ofNat 32 off) }

end State

/-- The bytes of a `struct dirent`. -/
def dirent (inum : Word) (name : List Byte) : List Byte :=
  (List.range DIRENT).map (Dirent.byte ⟨xshort (inum.setWidth 16), Name.ofList name⟩)

/-- `T_DIR` -/
def T_DIR : BitVec 16 := 1

/-- `T_FILE` -/
def T_FILE : BitVec 16 := 2

namespace State

/-- The image after `open` with `O_TRUNC`. -/
def empty : State where
  nsect := 0
  sector := fun _ _ => 0
  freeinode := 1
  freeblock := BitVec.ofNat 32 nmeta

/-- The image of zeros, with the super block. -/
def blank : State :=
  ((List.range FSSIZE).foldl (fun s i => s.wsect (BitVec.ofNat 32 i) fun _ => 0) empty).wsect 1
    sb.block

/-- What `main` does for a file. -/
def addFile (rootino : Word) (s : State) (a : Arg) : Outcome Stop State :=
  if 47 ∈ a.name then .panic .assert
  else
    match a.reads with
    | none => .panic .exit
    | some reads => do
      let name := if a.name.head? = some 95 then a.name.tail else a.name
      let (inum, s) ← s.ialloc T_FILE
      let s ← s.iappend rootino (dirent inum name)
      reads.foldlM (fun s c => s.iappend inum c.1) s

/-- The size of the root directory is rounded up. -/
def fixRoot (s : State) (rootino : Word) : Outcome Stop State := do
  let din ← s.rinode rootino
  let off := xint din.size
  let off := (off / BitVec.ofNat 32 BSIZE + 1) * BitVec.ofNat 32 BSIZE
  s.winode rootino { din with size := xint off }

/-- The root directory with `.` and `..`. -/
def makeRoot (s : State) : Outcome Stop (Word × State) := do
  let (rootino, s) ← s.ialloc T_DIR
  if rootino = BitVec.ofNat 32 ROOTINO then do
    let s ← s.iappend rootino (dirent rootino dot.1)
    let s ← s.iappend rootino (dirent rootino dotdot.1)
    return (rootino, s)
  else .panic .assert

end State

/-- `main`, for the files that it is called with; the image when it exits with 0. -/
def mkfs (argv : List Arg) : Outcome Stop State := do
  let (rootino, s) ← State.blank.makeRoot
  let s ← argv.foldlM (State.addFile rootino) s
  let s ← s.fixRoot rootino
  s.balloc s.freeblock

/-! ### What the kernel reads -/

/-- The type of an inode. -/
def typeOf (t : BitVec 16) : FileType :=
  if t = 0 then .free else if t = 1 then .dir else if t = 3 then .dev else .file

/-- The fields of an inode. -/
def Din.dinode (d : Din) : Dinode where
  type := typeOf d.type
  major := d.major
  minor := d.minor
  nlink := d.nlink.toInt
  size := d.size.toNat
  addrs := fun k => (d.addrs k).toNat

namespace State

/-- A field of the super block, as `readsb` reads it. -/
def sbWord (s : State) (k : Fin NINDIRECT) : Nat := (s.sector 1 k).toNat

/-- The inodes, in the blocks up to the free map. -/
def dinode (s : State) (i : Nat) : Dinode :=
  if i < (s.sbWord 6 - s.sbWord 5) * IPB then
    (getDin (s.sector (i / IPB + s.sbWord 5)) (i % IPB)).dinode
  else .zero

/-- The free map, the inodes and the blocks of the image. -/
def volume (s : State) : Volume where
  bit := fun b => ((s.sector (b / BPB + s.sbWord 6)).byte (b % BPB / 8)).getLsbD (b % 8)
  dinode := s.dinode
  block := s.sector
  mem := fun _ => none

end State

end Xv6.Mkfs
