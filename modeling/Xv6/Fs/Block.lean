import Xv6.Fs.Dinode
import Xv6.Lib.Outcome
import Xv6.Lib.Words

namespace Xv6.Fs

open Function

/-!
# Blocks of files

`balloc`, `bfree`, `bmap`, `itrunc`, `readi`, `writei` and, as far as the disk is concerned,
`ialloc`, `ilock`, `iupdate` and `iput` of `fs.c`.

* `Superblock`, `Block`, `Volume` — the disk, its free map and inodes taken apart from the other
  blocks, and the copies of inodes in memory;
* `Volume.bmap`, `Volume.itrunc`, `Volume.readi`, `Volume.writei` — the functions;
* `Op`, `Volume.step` — the operations that system calls are made of.
-/

/-- `struct superblock`, as far as it is read here; `int`s count up to `size`. -/
structure Superblock where
  size : Nat
  ninodes : Nat
  bmapstart : Nat
  size_lt : size < 2 ^ 31

/-- The first block after the free map. -/
def Superblock.dataStart (sb : Superblock) : Nat := sb.bmapstart + sb.size / BPB + 1

instance : NeZero NINDIRECT := ⟨by decide⟩

/-- A block, as the `uint`s of an indirect block. -/
abbrev Block := Fin NINDIRECT → Word

/-- `bp->data[k]` -/
def Block.byte (b : Block) (k : Nat) : Byte :=
  (b (Fin.ofNat NINDIRECT (k / 4)) >>> (8 * (k % 4))).setWidth 8

/-- `bp->data[k] = x` -/
def Block.setByte (b : Block) (k : Nat) (x : Byte) : Block :=
  let w := b (Fin.ofNat NINDIRECT (k / 4))
  let shift := 8 * (k % 4)
  update b (Fin.ofNat NINDIRECT (k / 4))
    ((w &&& ~~~(0xff#32 <<< shift)) ||| (x.setWidth 32 <<< shift))

/-- `memmove(bp->data + k, src, m)` -/
def Block.move (b : Block) (k : Nat) (src : Nat → Byte) (m : Nat) : Block :=
  (List.range m).foldl (fun b t => b.setByte (k + t) (src t)) b

/-- The panics of these functions. -/
inductive BPanic where
  /-- `panic("balloc: out of blocks")` -/
  | outOfBlocks
  /-- `panic("freeing free block")` -/
  | freeingFree
  /-- `panic("bmap: out of range")` -/
  | outOfRange
  /-- `panic("ialloc: no inodes")` -/
  | noInodes
  /-- `panic("ilock: no type")` -/
  | noType
  deriving DecidableEq, Repr

/-- `struct devsw`; what is read or written is in the device's hands. -/
structure Device where
  read : Option (Word → Int × List Byte)
  write : Option ((Nat → Byte) → Word → Int)

/-- The free map (set bits are blocks in use), the inodes and the other blocks of a disk, and the
    valid copies of inodes in memory. -/
structure Volume where
  bit : Nat → Bool
  dinode : Nat → Dinode
  block : Nat → Block
  mem : Nat → Option Dinode

namespace Volume

/-- `bzero` -/
def bzero (v : Volume) (b : Nat) : Volume := { v with block := update v.block b fun _ => 0 }

/-- `balloc` -/
def balloc (sb : Superblock) (v : Volume) : Outcome BPanic (Nat × Volume) :=
  match (List.range sb.size).find? (fun b => !v.bit b) with
  | some b => .ok (b, { v with bit := update v.bit b true }.bzero b)
  | none => .panic .outOfBlocks

/-- `bfree` -/
def bfree (v : Volume) (b : Nat) : Outcome BPanic Volume :=
  if v.bit b then .ok { v with bit := update v.bit b false } else .panic .freeingFree

/-- `iupdate` of inode `i`, whose copy in memory is `ip`. -/
def iupdate (v : Volume) (i : Nat) (ip : Dinode) : Volume :=
  { v with dinode := update v.dinode i ip }

/-- `if((addr = ip->addrs[k]) == 0) ip->addrs[k] = addr = balloc(ip->dev);` -/
def getAddr (sb : Superblock) (v : Volume) (ip : Dinode) (k : Fin (NDIRECT + 1)) :
    Outcome BPanic (Nat × Dinode × Volume) :=
  if ip.addrs k = 0 then do
    let (addr, v) ← v.balloc sb
    return (addr, { ip with addrs := update ip.addrs k addr }, v)
  else .ok (ip.addrs k, ip, v)

/-- `bmap(ip, bn)`: the address, and `ip` after it. -/
def bmap (sb : Superblock) (v : Volume) (ip : Dinode) (bn : Nat) :
    Outcome BPanic (Nat × Dinode × Volume) :=
  if h : bn < NDIRECT then v.getAddr sb ip ⟨bn, Nat.lt_succ_of_lt h⟩
  else if h : bn - NDIRECT < NINDIRECT then do
    let (addr, ip, v) ← v.getAddr sb ip (Fin.last NDIRECT)
    let a := v.block addr
    let e : Fin NINDIRECT := ⟨bn - NDIRECT, h⟩
    if a e = 0 then do
      let (b, v) ← v.balloc sb
      return (b, ip, { v with block := update v.block addr (update a e (BitVec.ofNat 32 b)) })
    else .ok ((a e).toNat, ip, v)
  else .panic .outOfRange

/-- `if(ip->addrs[k]){ bfree(ip->dev, ip->addrs[k]); ip->addrs[k] = 0; }` -/
def freeDirect (v : Volume) (ip : Dinode) (k : Fin (NDIRECT + 1)) :
    Outcome BPanic (Dinode × Volume) :=
  if ip.addrs k = 0 then .ok (ip, v)
  else do
    let v ← v.bfree (ip.addrs k)
    return ({ ip with addrs := update ip.addrs k 0 }, v)

/-- The blocks that the indirect block, if there is one, names are freed. -/
def freeEntries (v : Volume) (addr : Nat) : Outcome BPanic Volume :=
  if addr = 0 then .ok v
  else
    let a := v.block addr
    (List.finRange NINDIRECT).foldlM (fun v j => if a j = 0 then .ok v else v.bfree (a j).toNat) v

/-- `itrunc(ip)` of inode `i` -/
def itrunc (v : Volume) (i : Nat) (ip : Dinode) : Outcome BPanic (Dinode × Volume) := do
  let (ip, v) ← (List.finRange NDIRECT).foldlM
    (fun (x : Dinode × Volume) k => x.2.freeDirect x.1 k.castSucc) (ip, v)
  let v ← v.freeEntries (ip.addrs (Fin.last NDIRECT))
  let (ip, v) ← v.freeDirect ip (Fin.last NDIRECT)
  let ip := { ip with size := 0 }
  return (ip, v.iupdate i ip)

/-- The loop of `readi`, with the bytes read so far. -/
def readLoop (sb : Superblock) : (fuel : Nat) → Volume → (ip : Dinode) → (tot off n : Nat) →
    List Byte → Outcome BPanic (List Byte × Dinode × Volume)
  | 0, v, ip, tot, _, n, dst => if tot < n then .hang else .ok (dst, ip, v)
  | fuel + 1, v, ip, tot, off, n, dst =>
    if tot < n then do
      let (addr, ip, v) ← v.bmap sb ip (off / BSIZE)
      let m := min (n - tot) (BSIZE - off % BSIZE)
      let data := (List.range m).map fun t => (v.block addr).byte (off % BSIZE + t)
      readLoop sb fuel v ip (tot + m) (off + m) n (dst ++ data)
    else .ok (dst, ip, v)

/-- `readi(ip, dst, off, n)`: the result, what was read, and `ip` after it. -/
def readi (sb : Superblock) (devsw : BitVec 16 → Device) (v : Volume) (ip : Dinode) (off n : Word) :
    Outcome BPanic ((Int × List Byte) × Dinode × Volume) :=
  if ip.type = .dev then
    if ip.major.toInt < 0 ∨ ip.major.toInt ≥ NDEV then return ((-1, []), ip, v)
    else
      match (devsw ip.major).read with
      | none => return ((-1, []), ip, v)
      | some read => return (read n, ip, v)
  else if off.toNat > ip.size ∨ (off + n).toNat < off.toNat then return ((-1, []), ip, v)
  else do
    let n := if (off + n).toNat > ip.size then ip.size - off.toNat else n.toNat
    let (dst, ip, v) ← readLoop sb n v ip 0 off.toNat n []
    return (((n : Int), dst), ip, v)

/-- The loop of `writei`. -/
def writeLoop (sb : Superblock) (src : Nat → Byte) : (fuel : Nat) → Volume → (ip : Dinode) →
    (tot off n : Nat) → Outcome BPanic (Nat × Dinode × Volume)
  | 0, v, ip, tot, off, n => if tot < n then .hang else .ok (off, ip, v)
  | fuel + 1, v, ip, tot, off, n =>
    if tot < n then do
      let (addr, ip, v) ← v.bmap sb ip (off / BSIZE)
      let m := min (n - tot) (BSIZE - off % BSIZE)
      let data := (v.block addr).move (off % BSIZE) (fun t => src (tot + t)) m
      writeLoop sb src fuel { v with block := update v.block addr data } ip (tot + m) (off + m) n
    else .ok (off, ip, v)

/-- `writei(ip, src, off, n)` of inode `i`: the result, and `ip` after it. -/
def writei (sb : Superblock) (devsw : BitVec 16 → Device) (v : Volume) (i : Nat) (ip : Dinode)
    (src : Nat → Byte) (off n : Word) : Outcome BPanic (Int × Dinode × Volume) :=
  if ip.type = .dev then
    if ip.major.toInt < 0 ∨ ip.major.toInt ≥ NDEV then return (-1, ip, v)
    else
      match (devsw ip.major).write with
      | none => return (-1, ip, v)
      | some write => return (write src n, ip, v)
  else if off.toNat > ip.size ∨ (off + n).toNat < off.toNat then return (-1, ip, v)
  else if (off + n).toNat > MAXFILE * BSIZE then return (-1, ip, v)
  else do
    let (off, ip, v) ← writeLoop sb src n.toNat v ip 0 off.toNat n.toNat
    if n.toNat > 0 ∧ off > ip.size then
      let ip := { ip with size := off }
      return ((n.toNat : Int), ip, v.iupdate i ip)
    else return ((n.toNat : Int), ip, v)

/-- `ilock`, as far as the copy in memory is concerned. -/
def ilock (v : Volume) (i : Nat) : Outcome BPanic (Dinode × Volume) :=
  match v.mem i with
  | some ip => .ok (ip, v)
  | none =>
    if (v.dinode i).type = .free then .panic .noType
    else .ok (v.dinode i, { v with mem := update v.mem i (some (v.dinode i)) })

/-- `ialloc`, without the reference. -/
def ialloc (sb : Superblock) (v : Volume) (type : FileType) : Outcome BPanic (Nat × Volume) :=
  match (List.range' 1 (sb.ninodes - 1)).find? (fun inum => (v.dinode inum).type = .free) with
  | some inum => .ok (inum, { v with dinode := update v.dinode inum { Dinode.zero with type } })
  | none => .panic .noInodes

/-- `iput`; `last` if there is one reference. -/
def iput (v : Volume) (i : Nat) (last : Bool) : Outcome BPanic Volume :=
  match v.mem i with
  | none => .ok v
  | some ip =>
    if ip.nlink = 0 ∧ last then do
      let (ip, v) ← v.itrunc i ip
      let v := v.iupdate i { ip with type := .free }
      return { v with mem := update v.mem i none }
    else .ok v

end Volume

/-- What system calls do to inodes and their blocks. -/
inductive Op where
  | ialloc (type : FileType)
  | readi (i : Nat) (off n : Word)
  | writei (i : Nat) (src : Nat → Byte) (off n : Word)
  /-- Fields of a locked inode are changed, and `iupdate` is called. -/
  | update (i : Nat) (major minor : BitVec 16) (nlink : Int)
  | iput (i : Nat) (last : Bool)
  /-- The slot of the inode is used for another one. -/
  | recycle (i : Nat)

/-- One operation, from `ilock` to `iunlock`. -/
def Volume.step (sb : Superblock) (devsw : BitVec 16 → Device) (v : Volume) :
    Op → Outcome BPanic Volume
  | .ialloc type => do
    let (_, v) ← v.ialloc sb type
    return v
  | .readi i off n => do
    let (ip, v) ← v.ilock i
    let (_, ip, v) ← v.readi sb devsw ip off n
    return { v with mem := update v.mem i (some ip) }
  | .writei i src off n => do
    let (ip, v) ← v.ilock i
    let (_, ip, v) ← v.writei sb devsw i ip src off n
    return { v with mem := update v.mem i (some ip) }
  | .update i major minor nlink => do
    let (ip, v) ← v.ilock i
    let ip := { ip with major, minor, nlink }
    let v := v.iupdate i ip
    return { v with mem := update v.mem i (some ip) }
  | .iput i last => v.iput i last
  | .recycle i => .ok { v with mem := update v.mem i none }

end Xv6.Fs
