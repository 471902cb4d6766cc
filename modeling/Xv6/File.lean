import Xv6.Trap

namespace Xv6

/-!
# Open files (`file.c`)

`fileread` and `filewrite` move bytes between a file and the memory of the running
process.  An inode is the byte array `readi` and `writei` present it as; the disk is taken
to have room.  A call that has to wait for another process does not return here.
-/

/-- Largest file, `MAXFILE*BSIZE`. -/
def MAXFILESIZE : Nat := (12 + 128) * 512

/-- `readi(ip, dst, off, n)` on contents `c`: the bytes delivered, none for -1. -/
def readi (c : List Byte) (off : Word) (n : Word) : Option (List Byte) :=
  if c.length < off.toNat ∨ off + n < off then none
  else some ((c.drop off.toNat).take n.toNat)

/-- `writei(ip, src, off, n)` on contents `c`, the source bytes given; none for -1. -/
def writei (c : List Byte) (off : Word) (src : List Byte) : Option (List Byte) :=
  if c.length < off.toNat ∨ off + BitVec.ofNat 32 src.length < off
      ∨ MAXFILESIZE < off.toNat + src.length then none
  else some (c.take off.toNat ++ src ++ c.drop (off.toNat + src.length))

namespace Kernel

/-- Replace entry `i` of the file table. -/
def setFile (k : Kernel) (i : Fin NFILE) (f : File) : Kernel :=
  { k with file := Function.update k.file i f }

/-- `piperead(p, addr, n)`. -/
def piperead (L : Link) (k : Kernel) (p : Slot) (pi : Nat) (addr : Word) (n : Nat) :
    Res (Int × Kernel) :=
  if (k.pipe pi).data = [] ∧ (k.pipe pi).writeopen then
    if (k.proc p).killed then .ok (-1, k) else .hang
  else do
    let bytes := (k.pipe pi).data.take n
    let k ← storeBytes L p k addr bytes
    let q := k.pipe pi
    return (bytes.length,
      { k with pipe := Function.update k.pipe pi { q with data := q.data.drop n } })

/-- `fileread(f, addr, n)`. -/
def fileread (L : Link) (k : Kernel) (p : Slot) (i : Fin NFILE) (addr n : Word) :
    Res (Int × Kernel) :=
  let f := k.file i
  if !f.readable then .ok (-1, k)
  else
    match f.type with
    | .FD_PIPE => k.piperead L p f.pipe addr n.toNat
    | .FD_INODE =>
      match readi (k.inode f.ip) f.off n with
      | none => .ok (-1, k)
      | some bytes => do
        let k ← storeBytes L p k addr bytes
        return (bytes.length,
          k.setFile i { k.file i with off := f.off + BitVec.ofNat 32 bytes.length })
    | .FD_NONE => .panic .fileread

/-- `pipewrite(p, addr, n)`: the byte at `addr`, with `n` left. -/
def pipewrite (L : Link) (p : Slot) (pi : Nat) : Kernel → Word → Nat → Res (Bool × Kernel)
  | k, _, 0 => .ok (true, k)
  | k, addr, n + 1 =>
    if (k.pipe pi).data.length = 512 then
      if (k.pipe pi).readopen = false ∨ (k.proc p).killed then .ok (false, k) else .hang
    else do
      let (b, k) ← k.loadByte L p addr
      let q := k.pipe pi
      pipewrite L p pi { k with pipe := Function.update k.pipe pi { q with data := q.data ++ [b] } }
        (addr + 1) n

/-- The chunk loop of `filewrite` at position `i` of `n`, 1536 bytes a time. -/
def filewriteLoop (L : Link) (p : Slot) (fi : Fin NFILE) (addr : Word) (n : Nat) :
    Nat → Kernel → Nat → Res (Bool × Kernel)
  | 0, _, _ => .hang
  | fuel + 1, k, i =>
    if i < n then do
      let n1 := min (n - i) 1536
      let (bytes, k) ← loadBytes L p k (addr + BitVec.ofNat 32 i) n1
      let f := k.file fi
      match writei (k.inode f.ip) f.off bytes with
      | none => return (false, k)
      | some c =>
        let k := { k with inode := Function.update k.inode f.ip c }
        let k := k.setFile fi { f with off := f.off + BitVec.ofNat 32 n1 }
        filewriteLoop L p fi addr n fuel k (i + n1)
    else .ok (true, k)

/-- `filewrite(f, addr, n)`. -/
def filewrite (L : Link) (k : Kernel) (p : Slot) (i : Fin NFILE) (addr : Word) (n : Int) :
    Res (Int × Kernel) :=
  let f := k.file i
  if !f.writable then .ok (-1, k)
  else
    match f.type with
    | .FD_PIPE => do
      let (all, k) ← pipewrite L p f.pipe k addr n.toNat
      return (if all then n else -1, k)
    | .FD_INODE => do
      let (all, k) ← filewriteLoop L p i addr n.toNat loopBound k 0
      return (if all ∧ 0 ≤ n then n else -1, k)
    | .FD_NONE => .panic .filewrite

/-- `filedup(f)`. -/
def filedup (k : Kernel) (i : Fin NFILE) : Res Kernel :=
  if (k.file i).ref < 1 then .panic .filedup
  else .ok (k.setFile i { k.file i with ref := (k.file i).ref + 1 })

end Kernel

end Xv6
