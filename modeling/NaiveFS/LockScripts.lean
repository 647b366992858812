import NaiveFS.Lib.RwLocks

/-!
# The locks of the FUSE operations

Which locks every FUSE operation takes, in which order and what it touches under
them, on all its paths. `fuse_read` and `fuse_write` run side by side under the shared
`_big_lock`; all other operations hold it exclusively.
-/

namespace NaiveFS

open RwLocks RegularExpression

/-- A `FileStatus`, with the inode whose `InodeCache` it points to. -/
structure OpenFile where
  id : Nat
  inode : Nat
  deriving DecidableEq

/-- `_big_lock`, `OpManager::m_`, `FileStatus::rwlock`, `InodeCache::inode_rwlock_`, and
the static mutexes in `alloc_block` and `get_block`. -/
inductive Lock where
  | big
  | opManager
  | fileStatus (fd : OpenFile)
  | inodeCache (i : Nat)
  | allocBlock
  | getBlock
  deriving DecidableEq

/-- What threads share: directories, the dentry cache and the inode tables; the map of
`OpManager`; of an `InodeCache` its `cnts_`, `vec` and `cache_`; of a `FileStatus` its
`cache_update_flag_` and the rest of it; the block groups and the block cache. -/
inductive SharedData where
  | names
  | caches
  | cnts (i : Nat)
  | vec (i : Nat)
  | copy (i : Nat)
  | updateFlag (fd : OpenFile)
  | cursor (fd : OpenFile)
  | blocks
  deriving DecidableEq

abbrev Script := RegularExpression (Event Lock SharedData)

namespace Script

def reads (o : SharedData) : Script := char (.access o .read)
def writes (o : SharedData) : Script := char (.access o .write)

/-! ## FileSystem -/

/-- `get_block`: a lookup relinks the node it finds; after a miss the exclusive section
looks again. -/
def getBlock : Script :=
  locked .getBlock .shared (writes .blocks) * (1 + locked .getBlock .exclusive (writes .blocks))

/-- `alloc_block(block, index, inode)`, where the inode is part of `o`. -/
def allocBlock (o : SharedData) : Script :=
  locked .allocBlock .exclusive (writes .blocks + getBlock + writes o).star

/-- The calls of `FileSystem` on names and inodes. -/
def nameCalls : Script := (writes .names + writes .blocks + getBlock + allocBlock .names).star

/-! ## OpManager and InodeCache -/

/-- `InodeCache::copy`; finding the inode may load its group. -/
def copy (i : Nat) : Script := writes .blocks * reads .names * writes (.copy i)

def commit (i : Nat) : Script := writes .blocks * reads (.copy i) * writes .names

/-- `OpManager::get_cache`; it returns null if the copy fails. -/
def getCache (i : Nat) : Script :=
  locked .opManager .exclusive (reads .caches * (writes .blocks + (1 + copy i * writes .caches) *
    writes (.cnts i)))

def updCache (fd : OpenFile) : Script :=
  locked .opManager .exclusive
    (reads .caches * (1 + locked (.inodeCache fd.inode) .exclusive
      (writes (.vec fd.inode) * writes (.cursor fd))))

def relCache (i : Nat) : Script :=
  locked .opManager .exclusive
    (reads .caches * (1 + locked (.inodeCache i) .exclusive (writes (.cnts i) * (1 + commit i)) *
      (1 + writes .caches)))

/-! ## FileStatus -/

/-- `seek`, `bf_seek` and `next_block`, and copies from and to blocks. -/
def moves (fd : OpenFile) : Script := (reads (.copy fd.inode) + writes (.cursor fd) + getBlock).star

/-- `_upd_cache`. -/
def refresh (fd : OpenFile) : Script := writes (.updateFlag fd) * (1 + moves fd)

def copyToBuf (fd : OpenFile) : Script :=
  locked (.fileStatus fd) .exclusive
    (locked (.inodeCache fd.inode) .shared (reads (.copy fd.inode) * (1 + refresh fd * moves fd)))

/-- `upd_all`, for the handles `vec`. -/
def updAll (i : Nat) (vec : List Nat) : Script :=
  reads (.vec i) * (vec.map fun id => writes (.updateFlag ⟨id, i⟩)).prod

/-- The extending branch of `write`, from the release of the shared inode lock on. -/
def extend (fd : OpenFile) (vec : List Nat) : Script :=
  locked (.inodeCache fd.inode) .exclusive
    ((writes (.copy fd.inode) + allocBlock (.copy fd.inode) + moves fd).star *
      (1 + updAll fd.inode vec))

def write (fd : OpenFile) (vec : List Nat) : Script :=
  locked (.fileStatus fd) .exclusive
    (locked (.inodeCache fd.inode) .shared (reads (.copy fd.inode) * refresh fd) * extend fd vec +
      locked (.inodeCache fd.inode) .shared (reads (.copy fd.inode) * refresh fd * moves fd))

/-! ## The FUSE operations -/

/-- An operation that only makes calls on names and inodes. -/
def namesOnly : Script := locked .big .exclusive nameCalls

/-- An operation that changes the copy of the inode it finds and commits it. -/
def attributes (i : Nat) : Script :=
  locked .big .exclusive
    (nameCalls * (1 + getCache i * (1 + locked (.inodeCache i) .exclusive
      (writes (.copy i) * commit i) * relCache i)))

end Script

/-- A FUSE operation, with the inode or handle it comes to. `vec` lists the handles open
on the inode. -/
inductive FuseCall where
  | create (fd : OpenFile)
  | open (fd : OpenFile)
  | release (fd : OpenFile)
  | fsync (fd : OpenFile)
  | read (fd : OpenFile)
  | write (fd : OpenFile) (vec : List Nat)
  | getattr (i : Nat)
  | chmod (i : Nat)
  | chown (i : Nat)
  | utimens (i : Nat)
  | mkdir (i : Nat)
  | unlink (i : Nat)
  | rmdir
  | link
  | rename
  | symlink
  | readlink
  | access
  | readdir
  | truncate

open Script in
def FuseCall.script : FuseCall → Script
  | .create fd =>
    locked .big .exclusive
      (nameCalls * (1 + writes (.updateFlag fd) * writes (.cursor fd) * getCache fd.inode *
        (1 + Script.updCache fd * writes (.updateFlag fd) *
          locked (.inodeCache fd.inode) .exclusive (writes (.copy fd.inode) * commit fd.inode))))
  | .open fd =>
    locked .big .exclusive
      (nameCalls * (1 + writes (.updateFlag fd) * writes (.cursor fd) * getCache fd.inode *
        Script.updCache fd *
        writes (.updateFlag fd) * locked (.inodeCache fd.inode) .exclusive
        (writes (.copy fd.inode))))
  | .release fd =>
    locked .big .exclusive
      (1 + locked (.inodeCache fd.inode) .exclusive (writes (.vec fd.inode)) * writes (.cursor fd) *
        relCache fd.inode)
  | .fsync fd =>
    locked .big .exclusive
      (1 + (1 + locked (.inodeCache fd.inode) .shared (commit fd.inode)) * reads .names *
        writes .blocks)
  | .read fd => locked .big .shared (1 + Script.copyToBuf fd)
  | .write fd vec => locked .big .shared (1 + Script.write fd vec)
  | .getattr i =>
    locked .big .exclusive
      (nameCalls * (1 + getCache i * (1 + locked (.inodeCache i) .shared (reads (.copy i)) *
        relCache i)))
  | .chmod i => attributes i
  | .chown i => attributes i
  | .utimens i => attributes i
  | .mkdir i => attributes i
  | .unlink i =>
    locked .big .exclusive
      (nameCalls * (1 + getCache i * locked (.inodeCache i) .exclusive
        (reads (.cnts i) * reads (.copy i)) * relCache i *
        (1 + nameCalls)))
  | .rmdir => namesOnly
  | .link => namesOnly
  | .rename => namesOnly
  | .symlink => namesOnly
  | .readlink => namesOnly
  | .access => namesOnly
  | .readdir => namesOnly
  | .truncate => locked .big .exclusive 1

/-- A thread that serves requests: the calls it makes, and the events of their paths. -/
structure Server where
  calls : List FuseCall
  events : List (Event Lock SharedData)
  path : events ∈ (calls.map FuseCall.script).prod.matches'

/-- The threads before their first call. -/
def serving {T : Type} (servers : T → Server) : T → Thread Lock SharedData :=
  start fun t => (servers t).events

end NaiveFS
