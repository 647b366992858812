import NaiveFS.BlockCache
import NaiveFS.Namespace
import NaiveFS.TreeSound

/-!
# Synchronising a file

The block layer together with the inode table blocks in memory and the copies
of open inodes in `OpManager`, down to the bytes on the disk. The operations are
the calls that FUSE operations make on these three; `fuse_fsync` commits the copy
and calls `FileSystem::flush(inode_id)`, which hands the number of the inode to
`BlockCache::flush`.
-/

namespace NaiveFS

open PointerTree

/-! ## Inode records in a block -/

namespace InodeTableBlock

/-- The fields of `ext2_inode` by the 32-bit words they lie in. -/
def fields (ino : TreeInode) : List (Nat × Nat) :=
  (0, u16 ino.iMode + 2 ^ 16 * u16 ino.iUid) :: (1, ino.iSize) :: (6,
    u16 ino.iGid + 2 ^ 16 * u16 ino.iLinksCount) ::
    (7, ino.iBlocks) :: (List.range 15).map fun j => (10 + j, ino.iBlock j)

def recordWords : Nat := inodeSize / 4

def get (r : Nat) (b : Block) : TreeInode where
  iMode := b.word (recordWords * r) % 2 ^ 16
  iUid := b.word (recordWords * r) / 2 ^ 16
  iSize := b.word (recordWords * r + 1)
  iGid := b.word (recordWords * r + 6) % 2 ^ 16
  iLinksCount := b.word (recordWords * r + 6) / 2 ^ 16
  iBlocks := b.word (recordWords * r + 7)
  iBlock j := b.word (recordWords * r + 10 + j)

def put (r : Nat) (ino : TreeInode) (b : Block) : Block := b.setWords (recordWords * r) (fields ino)

/-- The record holds size and block pointers of `ino`, in fields of 32 bits. -/
def Holds (r : Nat) (ino : TreeInode) (b : Block) : Prop :=
  (get r b).iSize = u32 ino.iSize ∧ ∀ j < 15, (get r b).iBlock j = u32 (ino.iBlock j)

def clear (r : Nat) (b : Block) : Block :=
  b.setWords (recordWords * r) ((List.range recordWords).map fun w => (w, 0))

end InodeTableBlock

/-! ## State -/

/-- `tables g k` is inode table block `k` of group `g`, if it is in memory. -/
structure SyncFS where
  store : CachedFS
  tables : Nat → Nat → Option Block
  opm : Nat → Option TreeInode

namespace SyncFS

def groups (s : SyncFS) : Groups := s.store.groups

/-- Group, table block and record of an inode. -/
def groupOf (id : Nat) : Nat := id / inodesPerGroup
def tableOf (id : Nat) : Nat := id % inodesPerGroup / inodesPerBlock
def recordOf (id : Nat) : Nat := id % inodesPerGroup % inodesPerBlock

def setTable (g k : Nat) (b : Option Block) (s : SyncFS) : SyncFS :=
  { s with tables := Function.update s.tables g (Function.update (s.tables g) k b) }

/-- The lazy read of an inode table block. -/
def loadTable (g k : Nat) (s : SyncFS) : SyncFS :=
  match s.tables g k, s.groups.blockGroups.find g with
  | none, some bg => s.setTable g k (some (s.store.disk (s.groups.inodeBlockOffset bg k)))
  | _, _ => s

/-- The table block of the inode is changed through a pointer to its record. -/
def onRecord (id : Nat) (f : Block → Block) (s : SyncFS) : SyncFS :=
  let s := s.loadTable (groupOf id) (tableOf id)
  s.setTable (groupOf id) (tableOf id) ((s.tables (groupOf id) (tableOf id)).map f)

/-- The record of an inode whose table block is in memory. -/
def record (s : SyncFS) (id : Nat) : Option TreeInode :=
  (s.tables (groupOf id) (tableOf id)).map (InodeTableBlock.get (recordOf id))

/-! ## Calls -/

/-- `alloc_inode`: only an inode of an existing group goes through `inode_init`. -/
def allocInode (mode : Nat) (s : SyncFS) : SyncFS :=
  match s.groups.alloc .inode with
  | (none, g) => { s with store := { s.store with groups := g } }
  | (some (i, served), g) =>
    let ino := if served then FS.inodeInit (FS.blankInode mode) else FS.blankInode mode
    { s with store := { s.store with groups := g } }.onRecord i fun b =>
      InodeTableBlock.put (recordOf i) { ino with iBlock := fun _ => 0 }
        (InodeTableBlock.clear (recordOf i) b)

/-- `dentry_create` in the directory with inode `parent`. -/
def addEntry (parent : Nat) (last : Option Nat) (name : List UInt8) (index mode : Nat)
    (s : SyncFS) : SyncFS :=
  let s := s.loadTable (groupOf parent) (tableOf parent)
  match s.record parent with
  | none => s
  | some ino =>
    match dentryCreate last ino name index mode s.store with
    | (_, ino, store) =>
      { s with store := store }.onRecord parent (InodeTableBlock.put (recordOf parent) ino)

/-- `OpManager::get_cache` for an inode that is not open yet. -/
def openInode (id : Nat) (s : SyncFS) : SyncFS :=
  let s := s.loadTable (groupOf id) (tableOf id)
  { s with opm := Function.update s.opm id (s.record id) }

/-- `alloc_block` for the copy of an open inode. -/
def allocFor (id : Nat) (s : SyncFS) : SyncFS :=
  match s.opm id with
  | none => s
  | some c =>
    match allocBlock c s.store with
    | (_, c, store) => { s with store := store, opm := Function.update s.opm id (some c) }

/-- A store to the fields of the copy that are no block pointers. -/
def setCopy (id mode uid gid size : Nat) (s : SyncFS) : SyncFS :=
  { s with opm := Function.update s.opm id ((s.opm id).map fun c =>
      { c with iMode := mode, iUid := uid, iGid := gid, iSize := u32 size }) }

/-- `InodeCache::commit`; it fails if the inode is gone. -/
def commit (id : Nat) (s : SyncFS) : SyncFS :=
  match s.opm id with
  | none => s
  | some c => if s.groups.allocated .inode id then
    s.onRecord id (InodeTableBlock.put (recordOf id) c) else s

/-- `OpManager::rel_cache` by the last user. -/
def closeInode (id : Nat) (s : SyncFS) : SyncFS :=
  { s.commit id with opm := Function.update s.opm id none }

/-! ## Flushing -/

def writeAll (ws : List (Nat × Block)) (disk : Disk) : Disk :=
  ws.foldl (fun d w => Function.update d w.1 w.2) disk

/-- What `BlockGroup::flush` writes: the bitmaps and the table blocks in memory. -/
def groupWrites (s : SyncFS) (g : Nat) (bg : BlockGroup) : List (Nat × Block) :=
  let desc := s.groups.super.slots bg.desc
  let bits := fun k => Bytes.ofWords fun w => ((bg.bitmap k).data w).toNat
  (desc.bgBitmap .block, bits .block) :: (desc.bgBitmap .inode, bits .inode) ::
    (List.range numInodeTableBlocks).filterMap fun k => (s.tables g k).map fun b =>
    (s.groups.inodeBlockOffset bg k, b)

/-- The writes of the super block, whose bytes are `image`, and of all groups. -/
def groupsWrites (image : SuperBlock → Block) (s : SyncFS) : List (Nat × Block) :=
  (0, image s.groups.super) :: s.groups.blockGroups.entries.flatMap fun e => s.groupWrites e.1 e.2

/-- `BlockCache::flush(inode_index)`: the node whose block number is this index. -/
def cacheWrites (index : Nat) (s : SyncFS) : List (Nat × Block) :=
  (s.store.cache.nodes.filter fun x => x.index = index && x.dirty).map fun x => (x.offset, x.block)

def flush (image : SuperBlock → Block) (index : Nat) (s : SyncFS) : SyncFS :=
  { s with store := { s.store with
      disk := writeAll (s.cacheWrites index) (writeAll (s.groupsWrites image) s.store.disk)
      cache := { s.store.cache with
        nodes := s.store.cache.nodes.map fun x => if x.index = index then
        { x with dirty := false } else x } } }

/-- `fuse_fsync` with `datasync` 0 on a handle of inode `id`. -/
def fsync (image : SuperBlock → Block) (id : Nat) (s : SyncFS) : SyncFS :=
  (s.commit id).flush image id

/-! ## Runs -/

inductive Op where
  | allocInode (mode : Nat)
  | addEntry (parent : Nat) (last : Option Nat) (name : List UInt8) (index mode : Nat)
  | openInode (id : Nat)
  | allocFor (id : Nat)
  | setCopy (id mode uid gid size : Nat)
  | setRecord (id : Nat) (ino : TreeInode)
  | closeInode (id : Nat)
  | freeInode (id : Nat)
  | freeBlock (i : Nat)
  | read (i : Nat)
  | write (i off : Nat) (buf : List UInt8)
  | fsync (id : Nat)

/-- One call. Callers name inodes and blocks that are allocated, and bytes that
fit into a block; `setRecord` stands for the stores into an inode in the table,
such as a link count or the text of a symbolic link. -/
def step (image : SuperBlock → Block) (s : SyncFS) : Op → Option SyncFS
  | .allocInode mode => some (s.allocInode mode)
  | .addEntry parent last name index mode =>
    if s.groups.allocated .inode parent && dentrySize + name.length ≤ blockSize then
      some (s.addEntry parent last name index mode)
    else none
  | .openInode id => if s.groups.allocated .inode id && (s.opm id).isNone then
    some (s.openInode id) else none
  | .allocFor id => some (s.allocFor id)
  | .setCopy id mode uid gid size => some (s.setCopy id mode uid gid size)
  | .setRecord id ino =>
    if s.groups.allocated .inode id then
      some (s.onRecord id (InodeTableBlock.put (recordOf id) ino)) else none
  | .closeInode id => some (s.closeInode id)
  | .freeInode id =>
    if s.groups.allocated .inode id then
      (s.groups.free .inode id).map fun r => { s.loadTable (groupOf id) (tableOf id) with
        store := { s.store with groups := r.2 } }
    else none
  | .freeBlock i =>
    if s.groups.allocated .block i then (s.store.freeBlock i).map fun r =>
      { s with store := r.2 } else none
  | .read i => some { s with store := (s.store.getBlock i false).2 }
  | .write i off buf =>
    if off + buf.length ≤ blockSize then
      match s.store.getBlock i true with
      | (none, store) => some { s with store := store }
      | (some _, store) => some { s with store := store.poke i fun b => b.splice off buf }
    else none
  | .fsync id => if (s.opm id).isSome then some (s.fsync image id) else none

/-! ## What is durable -/

/-- The contents of a block as `get_block` finds them. -/
def contents (s : SyncFS) (i : Nat) : Option Block :=
  match s.store.cache.lookup i with
  | some x => some x.block
  | none =>
    match s.groups.blockGroups.find (i / perGroup .block) with
    | none => none
    | some bg =>
      if (bg.bitmap .block).test (i % perGroup .block) then
        some (s.store.disk (CachedFS.offsetOf s.groups bg i)) else none

/-- The block at a position of the tree of an inode. -/
def blockAt (s : SyncFS) (ino : TreeInode) (p : Pos) : Option Nat :=
  follow slotOf ino.iBlock (fun i w => (s.contents i).map fun b => b.word w) maxDepth p

/-- File blocks below the size. -/
def sizeBlocks (ino : TreeInode) : Nat := (ino.iSize + blockSize - 1) / blockSize

/-- What `fsync` promises for a file with copy `c`: its blocks below `i_size`, the
indirect blocks on the way to them, and size and block pointers in the inode
table are on the disk. -/
structure Durable (s : SyncFS) (id : Nat) (c : TreeInode) : Prop where
  blocks : ∀ p, Live (sizeBlocks c) p → ∀ i b bg, s.blockAt c p = some i → s.contents i = some b →
    s.groups.blockGroups.find (i / perGroup .block) = some bg →
    s.store.disk (CachedFS.offsetOf s.groups bg i) = b
  inode : ∃ bg, s.groups.blockGroups.find (groupOf id) = some bg ∧
    InodeTableBlock.Holds (recordOf id) c (s.store.disk (s.groups.inodeBlockOffset bg (tableOf id)))

end SyncFS

end NaiveFS
