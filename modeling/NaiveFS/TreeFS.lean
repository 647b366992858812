import NaiveFS.GroupStore

/-!
# The file system with the block trees of its inodes

`Namespace` gives an inode the list of its data blocks. Here an inode has its
`i_block` array and the indirect blocks have their bytes, so that blocks are
allocated by the tree code. `view` reads off the lists; lookups and deletions,
which change no tree, are those of `Namespace` on the view, and the calls that make an
entry are the same over this layer.
-/

namespace NaiveFS

open PointerTree

namespace GroupStore

/-- Word `k` of block `i`, if the block is there. -/
def ptr (s : GroupStore) (i k : Nat) : Option Nat := (s.data i).map fun b => b.word k

/-- The block at a position of an inode's tree, by following the pointers to it. -/
def blockAt (s : GroupStore) (ino : TreeInode) (p : Pos) : Option Nat :=
  follow slotOf ino.iBlock s.ptr maxDepth p

/-- The data blocks, in the order of the file. -/
def fileBlocks (s : GroupStore) (ino : TreeInode) : List Nat :=
  (List.range (numAlignedBlocks ino.iBlocks)).filterMap fun k => s.blockAt ino (.data k)

end GroupStore

structure TreeFS where
  store : GroupStore
  inodes : Nat → TreeInode
  dents : Nat → List Dentry
  dcache : DentryCache

namespace TreeFS

def groups (s : TreeFS) : Groups := s.store.groups

def view (s : TreeFS) : FS where
  groups := s.groups
  inodes i := { s.inodes i with iBlock := s.store.fileBlocks (s.inodes i) }
  dents := s.dents
  dcache := s.dcache

def inodeLookup (path : Path) (s : TreeFS) : Except RetCode Nat × TreeFS :=
  match s.view.inodeLookup path with
  | (r, fs) => (r, { s with dcache := fs.dcache })

/-- `alloc_block(&block, &index, inode)`: a new block has no entries. -/
def allocBlock (inode : Nat) (s : TreeFS) : Option Nat × TreeFS :=
  match NaiveFS.allocBlock (s.inodes inode) s.store with
  | (none, ino, store) =>
    (none, { s with store := store, inodes := Function.update s.inodes inode ino })
  | (some b, ino, store) =>
    (some b, { s with
      store := store
      inodes := Function.update s.inodes inode ino
      dents := Function.update s.dents b [] })

/-- An inode record without blocks; the array `i_block` is zeroed. -/
def emptyTree (ino : ListInode) : TreeInode := { ino with iBlock := fun _ => 0 }

def allocInode (mode : Nat) (s : TreeFS) : Option Nat × TreeFS :=
  match s.groups.alloc .inode with
  | (none, g) => (none, { s with store := { s.store with groups := g } })
  | (some (i, served), g) =>
    let ino := if served then FS.inodeInit (FS.blankInode mode) else FS.blankInode mode
    (some i,
      { s with
        store := { s.store with groups := g }
        inodes := Function.update s.inodes i (emptyTree ino) })

def setLinks (inode n : Nat) (s : TreeFS) : TreeFS :=
  { s with inodes := Function.update s.inodes inode { s.inodes inode with iLinksCount := n } }

def blockForDentry : Option Nat → Nat → Name → TreeFS → Option Nat × TreeFS :=
  Calls.blockForDentry view allocBlock

def dentryCreate : Option Nat → Nat → Name → Nat → Nat → TreeFS → Option (RetCode × TreeFS) :=
  Calls.dentryCreate view blockForDentry fun dents s => { s with dents := dents }

def inodeCreate : Path → Nat → TreeFS → Option (Except RetCode Nat × TreeFS) :=
  Calls.inodeCreate view inodeLookup dentryCreate allocInode

def inodeLink : Path → Path → TreeFS → Option (RetCode × TreeFS) :=
  Calls.inodeLink view inodeLookup dentryCreate setLinks

/-- `inode_unlink` frees blocks and inodes; it changes link counts and entries,
and no tree. -/
def inodeUnlink (fuel : Nat) (path : Path) (s : TreeFS) : Option (RetCode × TreeFS) :=
  match s.view.inodeUnlink fuel path with
  | none => none
  | some (r, fs) =>
    some (r, { s with
      store := { s.store with groups := fs.groups }
      inodes := fun i => { s.inodes i with iLinksCount := (fs.inodes i).iLinksCount }
      dents := fs.dents
      dcache := fs.dcache })

def format : TreeFS where
  store := { groups := Groups.format, bytes := fun _ => Bytes.zero }
  inodes i := emptyTree (FS.format.inodes i)
  dents _ := []
  dcache := DentryCache.init

/-! ## Runs -/

inductive Op where
  | create (path : Path) (mode : { m : Nat // isReg m = true ∨ isDir m = true })
  | link (src dst : Path)
  | unlink (path : Path)
  | alloc (inode : Nat)

/-- One call; `alloc_block` is called for allocated inodes. -/
def step (fuel : Nat) (s : TreeFS) : Op → Option TreeFS
  | .create path mode => (s.inodeCreate path mode.1).map Prod.snd
  | .link src dst => (s.inodeLink src dst).map Prod.snd
  | .unlink path => (s.inodeUnlink fuel path).map Prod.snd
  | .alloc inode => if s.groups.allocated .inode inode then some (s.allocBlock inode).2 else none

end TreeFS

end NaiveFS
