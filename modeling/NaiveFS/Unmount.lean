import NaiveFS.AllocSound
import NaiveFS.CacheSound
import NaiveFS.SyncFS

/-!
# Unmounting and mounting

`~FileSystem` writes the super block, the groups in memory and the dirty blocks to
the disk; the constructors of `SuperBlock` and `FileSystem` read them back. The
copies of open inodes are deleted with `OpManager` and written nowhere.
-/

namespace NaiveFS

/-! ## The bytes of the super block -/

namespace SuperBytes

/-- The 32-bit words of `ext2_super_block` in which its fields lie. `s_state` is the
upper half of its word, `s_magic` the lower one. -/
def countWord : Kind → Nat
  | .inode => 0
  | .block => 1

def perGroupWord : Kind → Nat
  | .block => 8
  | .inode => 10

def stateWord : Nat := 14

def descWord (i : Nat) : Nat := (superSize + groupDescSize * i) / 4

/-- Words of `ext2_group_desc`; the two free counts share one. -/
def bitmapWord : Kind → Nat
  | .block => 0
  | .inode => 1

def freeWord : Nat := 3

def getDesc (b : Block) (i : Nat) : GroupDesc where
  bgBitmap k := b.word (descWord i + bitmapWord k)
  bgFreeCount
    | .block => b.word (descWord i + freeWord) % 2 ^ 16
    | .inode => b.word (descWord i + freeWord) / 2 ^ 16

def get (b : Block) : SuperBlock where
  sState := b.word stateWord / 2 ^ 16
  sCount k := b.word (countWord k)
  slots := getDesc b
  descTable := []

def descFields (sb : SuperBlock) (i : Nat) : List (Nat × Nat) :=
  [(descWord i + bitmapWord .block, (sb.slots i).bgBitmap .block),
    (descWord i + bitmapWord .inode, (sb.slots i).bgBitmap .inode),
    (descWord i + freeWord, u16 ((sb.slots i).bgFreeCount .block) + 2 ^ 16 *
    u16 ((sb.slots i).bgFreeCount .inode))]

def fields (sb : SuperBlock) (b : Block) : List (Nat × Nat) :=
  (countWord .inode, sb.sCount .inode) :: (countWord .block, sb.sCount .block) ::
    (perGroupWord .block, perGroup .block) :: (perGroupWord .inode, perGroup .inode) ::
    (stateWord, b.word stateWord % 2 ^ 16 + 2 ^ 16 * u16 sb.sState) ::
    (List.range descsInBlock).flatMap (descFields sb)

/-- The fields of `sb` stored into the buffer; its other bytes stay. -/
def put (sb : SuperBlock) (b : Block) : Block := b.setWords 0 (fields sb b)

/-- The buffer holds `sb` with the descriptors of its groups, and the numbers of blocks
and inodes per group the code is compiled with. -/
structure Shows (b : Block) (sb : SuperBlock) : Prop where
  state : (get b).sState = sb.sState
  count : (get b).sCount = sb.sCount
  desc : ∀ i ∈ sb.descTable, getDesc b i = sb.slots i
  sizes : ∀ k, b.word (perGroupWord k) = perGroup k

end SuperBytes

/-- The bitmap in the buffer of a `BitmapBlock`. -/
def bitmapOf (b : Block) : Bitmap := ⟨fun w => BitVec.ofNat 32 (b.word w)⟩

namespace SyncFS

/-! ## Unmounting -/

/-- What `BlockCache::flush()` writes. -/
def dirtyWrites (s : SyncFS) : List (Nat × Block) :=
  (s.store.cache.nodes.filter CacheNode.dirty).map fun x => (x.offset, x.block)

/-- The disk after `~FileSystem`, where `super` is the buffer of the super block. -/
def unmount (super : Block) (s : SyncFS) : Disk :=
  writeAll s.dirtyWrites (writeAll (s.groupsWrites fun _ => super) s.store.disk)

/-! ## Mounting -/

def rootRecord : TreeInode := { FS.format.inodes rootInode with iBlock := fun _ => 0 }

/-- What `SuperBlock()` finds on the disk; it writes the super block of a new file
system. A disk formatted with other numbers of blocks or inodes per group is left out. -/
def openSuper (disk : Disk) : Option Disk :=
  let sb := SuperBytes.get (disk 0)
  if sb.sState = SuperBlock.uninit then
    sb.initSuperBlock.map fun new => Function.update disk 0 (SuperBytes.put new (disk 0))
  else if ∀ k ∈ [Kind.block, .inode], (disk 0).word (SuperBytes.perGroupWord k) = perGroup k then
    some disk
  else none

/-- `FileSystem()`: group 0 is loaded, the root inode found or allocated, and the group
written back. -/
def mount (disk : Disk) : Option SyncFS := do
  let new ← openSuper disk
  let groups ← Groups.mount ⟨SuperBytes.get (disk 0), fun off => bitmapOf (disk off)⟩
  let s : SyncFS := {
    store := { groups := groups, cache := { size := blockCacheSize, nodes := [] }, disk := new,
               stored := fun i => new (CachedFS.blockOffset i) }
    tables := fun _ _ => none
    opm := fun _ => none }
  let bg ← groups.blockGroups.find 0
  let found := (bitmapOf (disk ((groups.super.slots bg.desc).bgBitmap .inode))).test rootInode
  let s := if found then s.loadTable 0 0 else
    s.onRecord rootInode fun b => InodeTableBlock.put (recordOf rootInode) rootRecord
      (InodeTableBlock.clear (recordOf rootInode) b)
  return { s with store := { s.store with disk := writeAll (s.groupWrites 0 bg) new } }

def blankDisk : Disk := fun _ => Bytes.zero

theorem mount_blank_isSome : (mount blankDisk).isSome := by decide +kernel

/-- The file system that the constructors make of a zeroed disk. -/
@[irreducible] def format : SyncFS := (mount blankDisk).get mount_blank_isSome

theorem mount_blank : mount blankDisk = some format := by
  rw [format, Option.some_get]

/-! ## Sessions -/

inductive SessionOp where
  | call (op : Op)
  | remount (super : Block)

/-- Calls, and `fuse_destroy` followed by `fuse_init`. -/
def sessionStep (image : SuperBlock → Block) (s : SyncFS) : SessionOp → Option SyncFS
  | .call op => step image s op
  | .remount super => mount (s.unmount super)

/-- The root is not freed. A remount takes place while there is one block group and its
last inode table block, which lies over the first data block, is not in memory. -/
def Calm (s : SyncFS) : SessionOp → Prop
  | .call op => op ≠ .freeInode rootInode
  | .remount super =>
    SuperBytes.Shows super s.groups.super ∧ s.groups.groupCount = 1 ∧
      s.tables 0 (numInodeTableBlocks - 1) = none

/-- The record `get_inode` finds. -/
def inodeAt (s : SyncFS) (id : Nat) : Option TreeInode :=
  if s.groups.allocated .inode id then (s.loadTable (groupOf id) (tableOf id)).record id else none

/-- The disk has the bytes of block `i`, or is going to get them. -/
def Saved (s : SyncFS) (i : Nat) : Prop :=
  ∀ x, s.store.cache.lookup i = some x → x.dirty = false → s.store.disk x.offset = x.block

/-- What a mount finds of the file system `s`: the same blocks and inodes are allocated,
their records and the bytes of saved blocks are the same; blocks that are not saved
show other bytes. -/
structure Recovers (s s' : SyncFS) : Prop where
  allocated : ∀ k i, s'.groups.allocated k i = s.groups.allocated k i
  inodes : ∀ id, s'.inodeAt id = s.inodeAt id
  blocks : ∀ i, s'.contents i = s.contents i ↔ s.Saved i

end SyncFS

end NaiveFS
