import NaiveFS.Common
import NaiveFS.Bitmap
import NaiveFS.Lib.OrdMap

/-!
# Block groups

The super block with its descriptor table, the block groups with their bitmaps
and the allocator of `FileSystem` over them. Blocks and inodes are served by
twin functions of the source; `Kind` says which of the two is meant.
-/

namespace NaiveFS

inductive Kind where
  | block
  | inode
  deriving DecidableEq, Repr

/-! ## Layout constants -/

def blocksPerGroup : Nat := blockSize * 8
def inodesPerGroup : Nat := blockSize * 8

/-- `sizeof(ext2_inode)`. -/
def inodeSize : Nat := 128

def inodesPerBlock : Nat := blockSize / inodeSize
def numInodeTableBlocks : Nat := inodesPerGroup / inodesPerBlock
def totalBlocksPerGroup : Nat := blocksPerGroup + numInodeTableBlocks + 2
def maxBlockGroupSize : Nat := totalBlocksPerGroup * blockSize
def rootInode : Nat := 0

/-- Bits of a bitmap block. -/
def bitmapBits : Nat := blockSize * 8

/-- `s_blocks_per_group` and `s_inodes_per_group`, as `init_super_block` sets them. -/
def perGroup : Kind → Nat
  | .block => totalBlocksPerGroup
  | .inode => inodesPerGroup

/-- `sizeof(ext2_super_block)` and `sizeof(ext2_group_desc)`. -/
def superSize : Nat := 1024
def groupDescSize : Nat := 32

/-- Descriptors that lie inside the super block's 4096 bytes. -/
def descsInBlock : Nat := (blockSize - superSize) / groupDescSize

theorem blocksPerGroup_eq : blocksPerGroup = 32768 := rfl
theorem inodesPerGroup_eq : inodesPerGroup = 32768 := rfl
theorem numInodeTableBlocks_eq : numInodeTableBlocks = 1024 := rfl
theorem maxBlockGroupSize_eq : maxBlockGroupSize = 138420224 := rfl
theorem bitmapBits_eq : bitmapBits = 32768 := rfl
theorem perGroup_block : perGroup .block = 33794 := rfl
theorem perGroup_inode : perGroup .inode = 32768 := rfl
theorem descsInBlock_eq : descsInBlock = 96 := rfl

theorem bitmapBits_le_perGroup (k : Kind) : bitmapBits ≤ perGroup k := by cases k <;> decide

theorem perGroup_pos (k : Kind) : 0 < perGroup k := by cases k <;> decide

/-! ## Super block -/

/-- `ext2_group_desc`: byte offsets of the two bitmaps, and the free counters. -/
@[ext]
structure GroupDesc where
  bgBitmap : Kind → Nat
  bgFreeCount : Kind → Nat

/-- `SuperBlock`. `slots` is the array of descriptors behind the
`ext2_super_block` in the block's buffer; the pointers of `desc_table_` are
positions in it. -/
structure SuperBlock where
  sState : Nat
  sCount : Kind → Nat
  slots : Nat → GroupDesc
  descTable : List Nat

namespace SuperBlock

def uninit : Nat := 0
def normal : Nat := 1

def getGroupDesc (sb : SuperBlock) (index : Nat) : Option Nat := sb.descTable[index]?

def putGroupDesc (sb : SuperBlock) (slot : Nat) :
    SuperBlock := { sb with descTable := sb.descTable ++ [slot] }

def ceilGroups (k : Kind) (count : Nat) : Nat := u32 (count + perGroup k - 1) / perGroup k

def numBlockGroups (sb : SuperBlock) : Nat :=
  let n := max (ceilGroups .inode (sb.sCount .inode)) (ceilGroups .block (sb.sCount .block))
  if n = 0 then 1 else n

/-- A descriptor whose inode bitmap is at `offset`: the fields are 32 bits wide. -/
def descAt (offset freeBlocks freeInodes : Nat) : GroupDesc where
  bgBitmap
    | .inode => u32 offset
    | .block => u32 (u32 offset + blockSize)
  bgFreeCount
    | .block => freeBlocks
    | .inode => freeInodes

/-- `init_super_block` on the block read from disk; any other state aborts. -/
def initSuperBlock (sb : SuperBlock) : Option SuperBlock :=
  if sb.sState = uninit then
    let sb := { sb with
      sState := normal
      sCount
        | .block => 3
        | .inode => 1
      slots := Function.update sb.slots 0 (descAt blockSize blocksPerGroup (inodesPerGroup - 1)) }
    some (sb.putGroupDesc 0)
  else if sb.sState = normal then
    some { sb with descTable := sb.descTable ++ List.range sb.numBlockGroups }
  else none

def setFree (sb : SuperBlock) (slot : Nat) (k : Kind) (n : Nat) : SuperBlock :=
  let desc := { sb.slots slot with bgFreeCount := Function.update (sb.slots slot).bgFreeCount k n }
  { sb with slots := Function.update sb.slots slot desc }

def setCount (sb : SuperBlock) (k : Kind) (n : Nat) : SuperBlock :=
  { sb with sCount := Function.update sb.sCount k n }

end SuperBlock

/-! ## Block groups -/

structure BlockGroup where
  desc : Nat
  bitmap : Kind → Bitmap

def BlockGroup.setBitmap (bg : BlockGroup) (k : Kind) (b : Bitmap) : BlockGroup :=
  { bg with bitmap := Function.update bg.bitmap k b }

/-- The part of `FileSystem` the allocator works on, and the bitmap blocks on
the disk by byte offset. -/
structure Groups where
  super : SuperBlock
  blockGroups : OrdMap BlockGroup
  disk : Nat → Bitmap

namespace Groups

/-- `BlockGroup(desc)` reads its bitmaps from the disk. -/
def load (s : Groups) (slot : Nat) : BlockGroup where
  desc := slot
  bitmap k := s.disk ((s.super.slots slot).bgBitmap k)

def putGroup (s : Groups) (g : Nat) (bg : BlockGroup) : Groups :=
  { s with blockGroups := s.blockGroups.insert g bg }

/-- The lazy lookup in `block_groups_`. A missing descriptor is a null pointer,
which the constructor of `BlockGroup` dereferences. -/
def findGroup (g : Nat) (s : Groups) : Option (BlockGroup × Groups) :=
  match s.blockGroups.find g with
  | some bg => some (bg, s)
  | none =>
    match s.super.getGroupDesc g with
    | some slot => some (s.load slot, s.putGroup g (s.load slot))
    | none => none

/-- `BlockGroup::alloc_block` and the bitmap part of `BlockGroup::alloc_inode`. -/
def allocIn (k : Kind) (g : Nat) (bg : BlockGroup) (s : Groups) : Option (Nat × Groups) :=
  match (bg.bitmap k).allocNew bitmapBits with
  | none => none
  | some (i, b) =>
    let free := u16 ((s.super.slots bg.desc).bgFreeCount k + 65535)
    some (i, { s.putGroup g (bg.setBitmap k b) with super := s.super.setFree bg.desc k free })

/-- The loop over the existing groups. -/
def scan (k : Kind) (s : Groups) : List (Nat × BlockGroup) → Option (Nat × Nat × Groups)
  | [] => none
  | (g, bg) :: rest =>
    if (s.super.slots bg.desc).bgFreeCount k ≠ 0 then
      match s.allocIn k g bg with
      | some (i, s') => some (g, i, s')
      | none => scan k s rest
    else scan k s rest

/-- The descriptor of group `index`. -/
def newDesc (index : Nat) : GroupDesc :=
  SuperBlock.descAt (index * maxBlockGroupSize + blockSize) blocksPerGroup inodesPerGroup

def allocBlockGroup (s : Groups) : Nat × Groups :=
  let index := s.super.numBlockGroups
  let super := { s.super with slots := Function.update s.super.slots index (newDesc index) }
  (index, { s with
    super := super.putGroupDesc index
    blockGroups := s.blockGroups.insert index { desc := index, bitmap := fun _ => Bitmap.zero } })

/-- The path of `alloc_block` and `alloc_inode` that opens a new group. -/
def allocInNew (k : Kind) (s : Groups) : Option (Nat × Bool) × Groups :=
  let (g, s) := s.allocBlockGroup
  match s.blockGroups.find g with
  | none => (none, s)
  | some bg =>
    match s.allocIn k g bg with
    | some (i, s) => (some (u32 (g * perGroup k + i), false), s)
    | none => (none, s)

/-- The count of `kind` in the super block becomes `n`. -/
def setCount (k : Kind) (n : Nat) (s : Groups) : Groups := { s with super := s.super.setCount k n }

/-- The common part of `alloc_block` and `alloc_inode`: the new index, and
whether a group that existed before has served it. -/
def alloc (k : Kind) (s : Groups) : Option (Nat × Bool) × Groups :=
  let s := s.setCount k (u32 (s.super.sCount k + 1))
  match scan k s s.blockGroups.entries with
  | some (g, i, s) => (some (u32 (g * perGroup k + i), true), s)
  | none => s.allocInNew k

def allocBlock (s : Groups) : Option Nat × Groups :=
  let (r, s) := s.alloc .block
  (r.map Prod.fst, s)

/-- `get_inode` and the group part of `get_block`: is the bit set? -/
def isAllocated (k : Kind) (index : Nat) (s : Groups) : Option (Bool × Groups) :=
  match s.findGroup (index / perGroup k) with
  | none => none
  | some (bg, s) => some ((bg.bitmap k).test (index % perGroup k), s)

/-- The common part of `free_block` and `free_inode`. -/
def free (k : Kind) (index : Nat) (s : Groups) : Option (Bool × Groups) :=
  let s := s.setCount k (sub32 (s.super.sCount k) 1)
  let g := index / perGroup k
  let i := index % perGroup k
  match s.findGroup g with
  | none => none
  | some (bg, s) =>
    if (bg.bitmap k).test i then
      let free := u16 ((s.super.slots bg.desc).bgFreeCount k + 1)
      some (true, { s.putGroup g (bg.setBitmap k ((bg.bitmap k).clear i)) with
        super := s.super.setFree bg.desc k free })
    else some (false, s)

/-! ## Mounting -/

/-- What is on the disk: the super block and the bitmap blocks. -/
structure Image where
  super : SuperBlock
  bitmaps : Nat → Bitmap

/-- `BlockGroup::flush`. -/
def flushGroup (super : SuperBlock) (disk : Nat → Bitmap) (bg : BlockGroup) : Nat → Bitmap :=
  let desc := super.slots bg.desc
  Function.update (Function.update disk (desc.bgBitmap .block) (bg.bitmap .block))
    (desc.bgBitmap .inode) (bg.bitmap .inode)

/-- `FileSystem::flush`. Descriptors past the end of the super block's buffer
are not written. -/
def flush (s : Groups) : Image where
  super := { s.super with
    slots := fun i => if i < descsInBlock then s.super.slots i else ⟨fun _ => 0, fun _ => 0⟩
    descTable := [] }
  bitmaps := s.blockGroups.entries.foldl (fun disk e => flushGroup s.super disk e.2) s.disk

/-- The constructor of `FileSystem`: it opens group 0 and, if the root inode is
not there, allocates it in that group. -/
def mount (image : Image) : Option Groups :=
  match image.super.initSuperBlock with
  | none => none
  | some super =>
    match super.getGroupDesc 0 with
    | none => none
    | some slot =>
      let s : Groups := { super := super, blockGroups := OrdMap.empty, disk := image.bitmaps }
      let bg := s.load slot
      let s := s.putGroup 0 bg
      let s := if (bg.bitmap .inode).test rootInode then
        s else ((s.allocIn .inode 0 bg).map Prod.snd).getD s
      some { s with disk := flushGroup s.super s.disk ((s.blockGroups.find 0).getD bg) }

def blankImage : Image where
  super :=
    { sState := SuperBlock.uninit, sCount := fun _ => 0, slots := fun _ => ⟨fun _ => 0, fun _ => 0⟩,
             descTable := [] }
  bitmaps _ := Bitmap.zero

theorem mount_blank_isSome : (mount blankImage).isSome := rfl

def format : Groups := (mount blankImage).get mount_blank_isSome

theorem mount_blank : mount blankImage = some format := (Option.some_get mount_blank_isSome).symm

/-! ## Positions on the disk -/

/-- `BlockGroup::inode_block_offset` and `data_block_offset`: the products of
`uint32_t` and `int` are 32 bits wide, the sums are `off_t`. -/
def inodeBlockOffset (s : Groups) (bg : BlockGroup) (inodeBlockIndex : Nat) : Nat :=
  (s.super.slots bg.desc).bgBitmap .block + u32 (u32 (inodeBlockIndex + 1) * blockSize)

def dataBlockOffset (s : Groups) (bg : BlockGroup) (dataBlockIndex : Nat) : Nat :=
  (s.super.slots bg.desc).bgBitmap .block + numInodeTableBlocks * blockSize +
    u32 (dataBlockIndex * blockSize)

end Groups

end NaiveFS
