import NaiveFS.BlockTree
import NaiveFS.GroupsSound

/-!
# The write-back block cache

`BlockCache` keeps blocks in the order of their last use and writes a dirty one
to the disk when it is evicted or removed. `CachedFS` is the block layer of
`FileSystem` over it: the raw `alloc_block`, `free_block` and `get_block`, with
the tree code of `alloc_block(inode)` and `dentry_create` on top.
-/

namespace NaiveFS

/-! ## BlockCache -/

def blockCacheSize : Nat := 1024

/-- A node of the cache; `offset` is where its block lies on the disk. -/
structure CacheNode where
  index : Nat
  offset : Nat
  block : Block
  dirty : Bool

/-- The nodes from `head_` to `tail_`; those not in use are in `free_entries_`. -/
structure BlockCache where
  size : Nat
  nodes : List CacheNode

abbrev Disk := Nat → Block

namespace Disk

/-- `lseek` to `offset` gives a result that is not negative as an `int`. -/
def lands (offset : Nat) : Bool := offset % 2 ^ 32 < 2 ^ 31

/-- `Block::flush`. Where the seek counts as failed nothing is written, and no caller
looks at the error. -/
def flush (disk : Disk) (offset : Nat) (b : Block) : Disk :=
  if lands offset then Function.update disk offset b else disk

theorem flush_ne {o off : Nat} (h : off ≠ o) (disk : Disk) (b : Block) :
    disk.flush o b off = disk off := by
  unfold flush
  split
  · exact Function.update_of_ne h _ _
  · rfl

theorem flush_self {o : Nat} (h : lands o = true) (disk : Disk) (b : Block) :
    disk.flush o b o = b := by
  unfold flush
  rw [if_pos h, Function.update_self]

end Disk

namespace BlockCache

def lookup (c : BlockCache) (i : Nat) : Option CacheNode := c.nodes.find? fun x => x.index = i

def detach (c : BlockCache) (i : Nat) : List CacheNode := c.nodes.filter fun x => x.index ≠ i

/-- `release`: a dirty block is flushed. -/
def release (x : CacheNode) (disk : Disk) : Disk :=
  if x.dirty then disk.flush x.offset x.block else disk

/-- Make room for one node: without a free entry the last node is evicted. -/
def makeRoom (c : BlockCache) (disk : Disk) : List CacheNode × Disk :=
  if c.nodes.length < c.size then (c.nodes, disk)
  else
    match c.nodes.getLast? with
    | none => (c.nodes, disk)
    | some x => (c.nodes.dropLast, release x disk)

def insert (c : BlockCache) (x : CacheNode) (disk : Disk) : BlockCache × Disk :=
  match c.lookup x.index with
  | none => ({ c with nodes := x :: (c.makeRoom disk).1 }, (c.makeRoom disk).2)
  | some y => ({ c with nodes := { y with dirty := y.dirty || x.dirty } :: c.detach x.index }, disk)

def get (c : BlockCache) (i : Nat) (dirty : Bool) : Option (Block × BlockCache) :=
  match c.lookup i with
  | none => none
  | some x => some (x.block, { c with nodes := { x with dirty := x.dirty || dirty } :: c.detach i })

/-- What `get_block` does with a block that is not in the cache. -/
def load (c : BlockCache) (i offset : Nat) (dirty : Bool) (disk : Disk) :
    Block × BlockCache × Disk :=
  (disk offset, c.insert { index := i, offset := offset, block := disk offset, dirty := dirty }
    disk)

def remove (c : BlockCache) (i : Nat) (disk : Disk) : BlockCache × Disk :=
  match c.lookup i with
  | none => (c, disk)
  | some x => ({ c with nodes := c.detach i }, release x disk)

def modify (c : BlockCache) (i : Nat) : BlockCache :=
  { c with nodes := c.nodes.map fun x => if x.index = i then { x with dirty := true } else x }

/-- A store through the pointer to block `i`. -/
def poke (c : BlockCache) (i : Nat) (f : Block → Block) : BlockCache :=
  { c with nodes := c.nodes.map fun x => if x.index = i then { x with block := f x.block } else x }

end BlockCache

/-! ## The block layer of FileSystem -/

/-- `stored` is a ghost that no operation reads: the bytes last stored in each
block since it was last allocated. -/
structure CachedFS where
  groups : Groups
  cache : BlockCache
  disk : Disk
  stored : Nat → Block

namespace CachedFS

/-- The offset of the `Block` that a group creates for one of its blocks. -/
def offsetOf (g : Groups) (bg : BlockGroup) (i : Nat) : Nat :=
  g.dataBlockOffset bg (i % perGroup .block)

def insertNode (x : CacheNode) (s : CachedFS) : CachedFS :=
  { s with cache := (s.cache.insert x s.disk).1, disk := (s.cache.insert x s.disk).2 }

/-- `get_block` up to the copy. The second lookup under the exclusive lock finds
nothing new in a sequential run. A block group without a descriptor is a null
pointer there; the call is taken as failed. -/
def getBlock (i : Nat) (dirty : Bool) (s : CachedFS) : Option Block × CachedFS :=
  match s.cache.get i dirty with
  | some (b, cache) => (some b, { s with cache := cache })
  | none =>
    match s.groups.findGroup (i / perGroup .block) with
    | none => (none, s)
    | some (bg, groups) =>
      let s := { s with groups := groups }
      if (bg.bitmap .block).test (i % perGroup .block) then
        let (b, cache, disk) := s.cache.load i (offsetOf groups bg i) dirty s.disk
        (some b, { s with cache := cache, disk := disk })
      else (none, s)

/-- The raw `alloc_block`: the zeroed block enters the cache, not marked dirty. -/
def allocRaw (s : CachedFS) : Option Nat × CachedFS :=
  match s.groups.allocBlock with
  | (none, groups) => (none, { s with groups := groups })
  | (some i, groups) =>
    let s := { s with groups := groups, stored := Function.update s.stored i Bytes.zero }
    match groups.blockGroups.find (i / perGroup .block) with
    | none => (some i, s)
    | some bg =>
      (some i,
        s.insertNode
        { index := i, offset := offsetOf groups bg i, block := Bytes.zero, dirty := false })

def freeBlock (i : Nat) (s : CachedFS) : Option (Bool × CachedFS) :=
  match s.groups.free .block i with
  | none => none
  | some (false, groups) => some (false, { s with groups := groups })
  | some (true, groups) =>
    some (true, { s with
      groups := groups
      cache := (s.cache.remove i s.disk).1
      disk := (s.cache.remove i s.disk).2 })

def poke (i : Nat) (f : Block → Block) (s : CachedFS) : CachedFS :=
  { s with cache := s.cache.poke i f, stored := Function.update s.stored i (f (s.stored i)) }

def modify (i : Nat) (s : CachedFS) : CachedFS := { s with cache := s.cache.modify i }

end CachedFS

instance : BlockLayer CachedFS where
  getBlock := CachedFS.getBlock
  allocRaw := CachedFS.allocRaw
  poke := CachedFS.poke
  modify := CachedFS.modify

/-! ## Directory entries -/

namespace DentryBlock

def recLen (b : Block) (off : Nat) : Nat :=
  (b.byte (off + 4)).toNat + 256 * (b.byte (off + 5)).toNat

/-- The loop of the constructor: the sum of the record lengths up to the first
record of length 0 or the end of the block. A record has at least one byte, so
`BLOCK_SIZE` rounds are enough. -/
def sizeFrom (b : Block) : Nat → Nat → Nat
  | 0, size => size
  | n + 1, size =>
    if recLen b size = 0 then size
    else if size + recLen b size + dentrySize > blockSize then size + recLen b size
    else sizeFrom b n (size + recLen b size)

def size (b : Block) : Nat := sizeFrom b blockSize 0

/-- The bytes `alloc_dentry` writes. -/
def entryBytes (name : List UInt8) (inode mode : Nat) : List UInt8 :=
  Bytes.leBytes inode ++
    [UInt8.ofNat (dentrySize + name.length), UInt8.ofNat ((dentrySize + name.length) / 256),
      UInt8.ofNat name.length, UInt8.ofNat (mode / 4096)] ++ name

end DentryBlock

section
variable {σ : Type} [BlockLayer σ]
open BlockReader BlockLayer

/-- `alloc_dentry` on the block with index `i` and bytes `b`, then the dirty mark. -/
def appendDentry (i : Nat) (b : Block) (name : List UInt8) (inode mode : Nat) (s : σ) : σ :=
  modify i (poke i (fun c => c.splice (DentryBlock.size b) (DentryBlock.entryBytes name inode mode))
    s)

/-- The path of `dentry_create` that appends a block to the directory first. -/
def appendNewDentry (parent : TreeInode) (name : List UInt8) (inode mode : Nat) (s : σ) :
    Bool × TreeInode × σ :=
  match allocBlock parent s with
  | (none, parent, s) => (false, parent, s)
  | (some j, parent, s) => (true, parent, appendDentry j Bytes.zero name inode mode s)

/-- `dentry_create`. The directory's last block, if it has one, has just been
fetched by the lookup of the name; `false` is `FS_ALLOC_ERR`. -/
def dentryCreate (last : Option Nat) (parent : TreeInode) (name : List UInt8) (inode mode : Nat)
    (s : σ) :
    Bool × TreeInode × σ :=
  let fetched : Option (Nat × Block) × σ :=
    match last with
    | none => (none, s)
    | some i =>
      match getBlock i false s with
      | (none, s) => (none, s)
      | (some b, s) => (some (i, b), s)
  match fetched with
  | (none, s) => appendNewDentry parent name inode mode s
  | (some (i, b), s) =>
    if DentryBlock.size b + dentrySize + name.length > blockSize then
      appendNewDentry parent name inode mode s
    else (true, parent, appendDentry i b name inode mode s)

end

end NaiveFS
