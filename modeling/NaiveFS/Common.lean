import Mathlib.Algebra.Ring.Int.Defs
import Mathlib.Algebra.Ring.Nat
import NaiveFS.Lib.Bytes
import Mathlib.Logic.Function.Basic

/-!
# Constants and basic types

The configuration of `include/common.h`, the `ext2_inode` record and the
machine integers the code computes with.
-/

namespace NaiveFS

/-! ## Configuration -/

def blockSize : Nat := 4096

/-- `LOG_BLOCK_SIZE`: a block is `2 << logBlockSize` sectors of 512 bytes. -/
def logBlockSize : Nat := 2

def ndirBlocks : Nat := 12
def indBlock : Nat := ndirBlocks
def dindBlock : Nat := indBlock + 1
def tindBlock : Nat := dindBlock + 1

/-- Pointers in an indirect block, `BLOCK_SIZE / sizeof(uint32_t)`. -/
def numIndirectBlocks : Nat := blockSize / 4

def maxDirBlocks : Nat := ndirBlocks
def maxIndBlocks : Nat := numIndirectBlocks
def maxDindBlocks : Nat := maxIndBlocks * numIndirectBlocks

/-- `sizeof(ext2_dir_entry_2)`. -/
def dentrySize : Nat := 8

theorem blockSize_eq : blockSize = 4096 := rfl
@[simp] theorem logBlockSize_eq : logBlockSize = 2 := rfl
@[simp] theorem ndirBlocks_eq : ndirBlocks = 12 := rfl
@[simp] theorem indBlock_eq : indBlock = 12 := rfl
@[simp] theorem dindBlock_eq : dindBlock = 13 := rfl
@[simp] theorem tindBlock_eq : tindBlock = 14 := rfl
@[simp] theorem numIndirectBlocks_eq : numIndirectBlocks = 1024 := rfl
@[simp] theorem maxDirBlocks_eq : maxDirBlocks = 12 := rfl
@[simp] theorem maxIndBlocks_eq : maxIndBlocks = 1024 := rfl
@[simp] theorem maxDindBlocks_eq : maxDindBlocks = 1048576 := rfl

/-! ## Machine integers -/

def u16 (n : Nat) : Nat := n % 2 ^ 16
def u32 (n : Nat) : Nat := n % 2 ^ 32
def u64 (n : Nat) : Nat := n % 2 ^ 64

/-- Subtraction of `uint32_t` values. -/
def sub32 (a b : Nat) : Nat := (a + (2 ^ 32 - b % 2 ^ 32)) % 2 ^ 32

/-- The value a `size_t` has after conversion to `int`. -/
def toInt32 (n : Nat) : Int := (n : Int).bmod (2 ^ 32)

theorem u32_of_lt {n : Nat} (h : n < 2 ^ 32) : u32 n = n := Nat.mod_eq_of_lt h

theorem u64_of_lt {n : Nat} (h : n < 2 ^ 64) : u64 n = n := Nat.mod_eq_of_lt h

theorem sub32_of_le {a b : Nat} (h : b ≤ a) (ha : a < 2 ^ 32) : sub32 a b = a - b := by
  unfold sub32; omega

theorem sub32_sub32_one {p a : Nat} (hp : p < 2 ^ 32) (ha : a + 1 < 2 ^ 32) :
    sub32 (sub32 p a) 1 = if a + 1 ≤ p then p - (a + 1) else p + 2 ^ 32 - (a + 1) := by
  unfold sub32
  split <;> omega

theorem toInt32_of_lt {n : Nat} (h : n < 2 ^ 31) : toInt32 n = n := by
  unfold toInt32; rw [Int.bmod_def]; omega

theorem toInt32_of_ge {n : Nat} (h : 2 ^ 31 ≤ n) (h' : n < 2 ^ 32) :
    toInt32 n = (n : Int) - 2 ^ 32 := by
  unfold toInt32; rw [Int.bmod_def]; omega

/-! ## Error numbers -/

def enoent : Int := 2
def eio : Int := 5
def ebadf : Int := 9
def eacces : Int := 13
def efault : Int := 14
def eexist : Int := 17
def enotdir : Int := 20
def eisdir : Int := 21
def einval : Int := 22
def enotempty : Int := 39

/-! ## Blocks and inodes -/

abbrev Block := Bytes blockSize

/-- `ext2_inode`, over the representation `β` of its block map `i_block`. -/
structure Inode (β : Type) where
  iMode : Nat
  iUid : Nat
  iGid : Nat
  iSize : Nat
  iLinksCount : Nat
  iBlocks : Nat
  iBlock : β

/-- `SuperBlock::num_aligned_blocks`: 512-byte sectors to blocks. -/
def numAlignedBlocks (iblocks : Nat) : Nat := iblocks / (2 <<< logBlockSize)

@[simp] theorem numAlignedBlocks_eq (n : Nat) : numAlignedBlocks n = n / 8 := rfl

end NaiveFS
