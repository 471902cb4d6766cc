import Xv6.Param
import Mathlib.Data.BitVec
import Mathlib.Data.Fintype.Pi

namespace Xv6.Fs

/-!
# On-disk format (`fs.h`)

The constants of the format, and inodes as they are on the disk.
-/

/-- Blocks that an inode names itself. -/
def NDIRECT : Nat := 12

/-- Entries of an indirect block. -/
def NINDIRECT : Nat := BSIZE / 4

/-- Largest file, in blocks. -/
def MAXFILE : Nat := NDIRECT + NINDIRECT

/-- Bits of a block of the free map. -/
def BPB : Nat := BSIZE * 8

/-- Length of a name in a directory. -/
def DIRSIZ : Nat := 14

/-- The inode of the root directory. -/
def ROOTINO : Nat := 1

/-- `stat.h`: what an inode is; `free` is 0. -/
inductive FileType where
  | free
  | dir
  | file
  | dev
  deriving DecidableEq, Repr

/-- `struct dinode` -/
structure Dinode where
  type : FileType
  major : BitVec 16
  minor : BitVec 16
  nlink : Int
  size : Nat
  addrs : Fin (NDIRECT + 1) → Nat

/-- An inode after `memset(dip, 0, sizeof(*dip))`. -/
def Dinode.zero : Dinode where
  type := .free
  major := 0
  minor := 0
  nlink := 0
  size := 0
  addrs := fun _ => 0

end Xv6.Fs
