import Mathlib.Tactic.Basic

namespace Xv6

/-!
# Parameters

Constants of `param.h`, and those of `fs.h` that more than one part of the kernel reads.
-/

/-- Maximum number of processes. -/
abbrev NPROC : Nat := 64

/-- Open files per process. -/
abbrev NOFILE : Nat := 16

/-- Open files per system. -/
abbrev NFILE : Nat := 100

/-- Active inodes. -/
def NINODE : Nat := 50

/-- Devices. -/
def NDEV : Nat := 10

/-- The most blocks an operation is to write. -/
def MAXOPBLOCKS : Nat := 10

/-- Entries of the header of the log. -/
def LOGSIZE : Nat := MAXOPBLOCKS * 3

/-- Size of the disk block cache. -/
def NBUF : Nat := MAXOPBLOCKS * 3

/-- Size of the file system in blocks. -/
def FSSIZE : Nat := 1000

/-- `fs.h`: block size. -/
def BSIZE : Nat := 512

/-- `fs.h`: inodes per block, `BSIZE / sizeof(struct dinode)`. -/
def IPB : Nat := BSIZE / 64

/-! ### Numerals as indices

A numeral of type `Fin n` needs `NeZero n`: one instance for each size of a table that one is
written for, the same wherever it is looked for. -/

instance neZero_two : @NeZero Nat Zero.ofOfNat0 2 := ⟨by decide⟩
instance neZero_three : @NeZero Nat Zero.ofOfNat0 3 := ⟨by decide⟩
instance neZero_16 : @NeZero Nat Zero.ofOfNat0 16 := ⟨by decide⟩
instance neZero_64 : @NeZero Nat Zero.ofOfNat0 64 := ⟨by decide⟩
instance neZero_100 : @NeZero Nat Zero.ofOfNat0 100 := ⟨by decide⟩
instance neZero_128 : @NeZero Nat Zero.ofOfNat0 128 := ⟨by decide⟩

end Xv6
