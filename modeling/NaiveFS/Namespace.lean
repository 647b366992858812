import NaiveFS.DentryRing
import NaiveFS.GroupsSound

/-!
# The namespace of the file system

`inode_lookup`, `inode_create`, `inode_delete`, `inode_unlink` and `inode_link`
of `FileSystem`, with the directory entries and the dentry cache they work on.
The block map of an inode is the list of its data blocks in file order, which is
what `visit_inode_blocks` runs through, and a directory block is the list of
entries `DentryBlock` finds in it. Blocks are read from an eviction-free store.
-/

namespace NaiveFS

inductive RetCode where
  | success
  | notFound
  | allocErr
  | dupErr
  | nullErr
  | ndirErr
  | dirErr
  | invalid
  deriving DecidableEq, Repr

/-! ## File modes -/

def fileType (mode : Nat) : Nat := mode / 4096 % 16

def sIfreg : Nat := 0x8000
def sIfdir : Nat := 0x4000
def sIflnk : Nat := 0xA000

def isDir (mode : Nat) : Bool := fileType mode == 4
def isReg (mode : Nat) : Bool := fileType mode == 8

/-! ## Paths -/

abbrev Name := List UInt8

/-- `Path`: the components, and whether the text was well formed. An empty
component makes a path invalid. -/
structure Path where
  valid : Bool
  names : List Name
  nonempty : valid = true → [] ∉ names
  deriving DecidableEq

namespace Path

def separator : UInt8 := 47

/-- The loop of the constructor of `Path` over the rest of the text. -/
def namesFrom : Nat → List UInt8 → List Name
  | 0, _ => []
  | _ + 1, [] => []
  | n + 1, c :: rest =>
    let text := if c = separator then rest else c :: rest
    -- a trailing separator is skipped
    if text.isEmpty then []
    else text.takeWhile (· ≠ separator) :: namesFrom n (text.dropWhile (· ≠ separator))

/-- The path with these components. -/
def of (names : List Name) : Path where
  valid := decide ([] ∉ names)
  names := names
  nonempty h := of_decide_eq_true h

def invalid : Path where
  valid := false
  names := []
  nonempty h := by cases h

/-- `Path(text)`. Every round of the loop takes a character. -/
def parse (text : List UInt8) : Path :=
  if text.head? = some separator then of (namesFrom text.length text) else invalid

/-- `Path(path, path.size() - 1)`. -/
def parent (p : Path) : Path where
  valid := p.valid
  names := p.names.dropLast
  nonempty h hm := p.nonempty h (List.mem_of_mem_dropLast hm)

def back (p : Path) : Name := p.names.getLast?.getD []

end Path

/-! ## Directory entries -/

/-- `ext2_dir_entry_2`. Removing an entry clears `nameLen` and leaves the name's
bytes in place. -/
structure Dentry where
  inode : Nat
  recLen : Nat
  nameLen : Nat
  fileType : Nat
  name : Name
  deriving DecidableEq

namespace Dentry

def live (e : Dentry) : Bool := e.nameLen != 0

/-- The two tests every visitor makes on an entry. -/
def hasName (name : Name) (e : Dentry) : Bool :=
  e.nameLen == name.length && e.name.take e.nameLen == name

/-- The entry `DentryBlock::alloc_dentry` writes: `name_len` and `file_type` are
bytes. -/
def make (name : Name) (inode mode : Nat) : Dentry where
  inode := inode
  recLen := u16 (dentrySize + name.length)
  nameLen := name.length % 256
  fileType := mode / 4096 % 256
  name := name

def kill (e : Dentry) : Dentry := { e with nameLen := 0 }

/-- The first entry with this name loses it. -/
def killFirst (name : Name) : List Dentry → List Dentry
  | [] => []
  | e :: rest => if e.hasName name then e.kill :: rest else e :: killFirst name rest

end Dentry

/-! ## State -/

abbrev ListInode := Inode (List Nat)

/-- What the dentry cache stands for: the inode of the node at each path. -/
abbrev NodeMap := List Name → Option Nat

namespace NodeMap

def insert (c : NodeMap) (parent : List Name) (name : Name) (inode : Nat) : NodeMap :=
  Function.update c (parent ++ [name]) (some inode)

/-- The node and everything below it are released. -/
def remove (c : NodeMap) (parent : List Name) (name : Name) : NodeMap :=
  fun q => if parent ++ [name] <+: q then none else c q

end NodeMap

/-- `dentry_cache_`: its nodes, which are lost once a call reads a freed one, beside the
map they stand for. `link` is the pointer to the node at a path; the root is reached
through the null pointer. -/
structure DentryCache where
  map : NodeMap
  link : List Name → Option Nat
  nodes : Option DentryRing

instance : CoeFun DentryCache fun _ => NodeMap := ⟨DentryCache.map⟩

namespace DentryCache

def init : DentryCache where
  map _ := none
  link _ := none
  nodes := some (DentryRing.init 0)

def lookup (c : DentryCache) (parent : List Name) (name : Name) : Option Nat :=
  if name.length = 0 then none else c (parent ++ [name])

/-- The cache after a lookup: the ring of the parent is entered at the node found. -/
def enter (c : DentryCache) (parent : List Name) (name : Name) : DentryCache :=
  { c with nodes := c.nodes.bind fun r => (r.lookup (c.link parent) name).map Prod.snd }

/-- The node gets an address that was not in use before. -/
def insert (c : DentryCache) (parent : List Name) (name : Name) (inode : Nat) : DentryCache where
  map := c.map.insert parent name inode
  link := Function.update c.link (parent ++ [name]) (c.nodes.map DentryRing.allocs)
  nodes := c.nodes.bind fun r => (r.insert r.allocs (c.link parent) name inode).map Prod.snd

def remove (c : DentryCache) (parent : List Name) (name : Name) : DentryCache where
  map := c.map.remove parent name
  link q := if parent ++ [name] <+: q then none else c.link q
  nodes := c.nodes.bind (DentryRing.remove (c.link parent) name)

/-- The end of `inode_unlink`: the node of the directory is looked up once more. -/
def drop (c : DentryCache) (parent : List Name) (name : Name) : DentryCache :=
  (c.enter parent.dropLast (parent.getLast?.getD [])).remove parent name

@[simp] theorem enter_map (c : DentryCache) (parent : List Name) (name : Name) :
    (c.enter parent name).map = c.map := rfl

@[simp] theorem insert_map (c : DentryCache) (parent : List Name) (name : Name) (inode : Nat) :
    (c.insert parent name inode).map = c.map.insert parent name inode := rfl

@[simp] theorem drop_map (c : DentryCache) (parent : List Name) (name : Name) :
    (c.drop parent name).map = c.map.remove parent name := rfl

end DentryCache

structure FS where
  groups : Groups
  inodes : Nat → ListInode
  dents : Nat → List Dentry
  dcache : DentryCache

/-- `FileSystem::get_inode`: the inode the pointer is set to. Without a remount
every group is in memory. -/
def Groups.getInode (index : Nat) (g : Groups) : Option Nat :=
  if index = 2 ^ 32 - 1 then some rootInode
  else if g.allocated .inode index then some index
  else none

/-- The block group of the inode is in memory or has a descriptor. -/
def Groups.hasGroup (index : Nat) (g : Groups) : Bool :=
  (g.findGroup (index / perGroup .inode)).isSome

/-- If it has neither, `get_inode` dereferences the null pointer that `get_group_desc`
returns. -/
def Groups.present (index : Nat) (g : Groups) : Bool := index = 2 ^ 32 - 1 || g.hasGroup index

/-! ## Visiting the blocks of an inode -/

/-- `visit_inode_blocks` from file block `p` on. A visitor that answers `true`
in the direct part ends the visit. In the indirect part it only ends the run of
the 1024 blocks of one indirect block; `skip` says that this run has been left. -/
def visitFrom {α : Type} (visitor : Nat → α → Bool × α) : Nat → Bool → List Nat → α → α
  | _, _, [], a => a
  | p, skip, b :: rest, a =>
    if p < maxDirBlocks then
      match visitor b a with
      | (true, a) => a
      | (false, a) => visitFrom visitor (p + 1) false rest a
    else if skip && (p - maxDirBlocks) % numIndirectBlocks != 0 then
      visitFrom visitor (p + 1) true rest a
    else
      match visitor b a with
      | (stop, a) => visitFrom visitor (p + 1) stop rest a

namespace FS

def visitInodeBlocks {α : Type} (s : FS) (inode : Nat) (visitor : Nat → α → Bool × α) (a : α) : α :=
  visitFrom visitor 0 false (s.inodes inode).iBlock a

def entries (s : FS) (inode : Nat) : List Dentry := (s.inodes inode).iBlock.flatMap s.dents

/-! ## Lookup -/

/-- The search of one component: an entry whose inode is gone ends it too. -/
def searchVisitor (s : FS) (name : Name) (b : Nat) (result : Option Nat) : Bool × Option Nat :=
  match (s.dents b).find? (Dentry.hasName name) with
  | none => (false, result)
  | some e => (true, (s.groups.getInode e.inode).map fun _ => e.inode)

def search (s : FS) (inode : Nat) (name : Name) : Option Nat :=
  s.visitInodeBlocks inode (s.searchVisitor name) none

/-- The loop of `inode_lookup`. `link` is the path of the node reached, `index`
its inode and `inode` the one the pointer shows; after a cache hit the pointer is
refreshed when it is needed. -/
def lookupFrom (link : List Name) (index inode : Nat) (cacheHit : Bool) :
    List Name → FS → Except RetCode Nat × FS
  | [], s => (.ok index, s)
  | elem :: rest, s =>
    let t := { s with dcache := s.dcache.enter link elem }
    match s.dcache.lookup link elem with
    | some i =>
      if rest.isEmpty && (s.groups.getInode i).isNone then (.error .notFound, t)
      else lookupFrom (link ++ [elem]) i inode true rest t
    | none =>
      match (if cacheHit then s.groups.getInode index else some inode) with
      | none => (.error .notFound, t)
      | some inode =>
        if !rest.isEmpty && !isDir (s.inodes inode).iMode then (.error .ndirErr, t)
        else
          match s.search inode elem with
          | none => (.error .notFound, t)
          | some i =>
            lookupFrom (link ++ [elem]) i ((s.groups.getInode i).getD inode) false rest
              { t with dcache := t.dcache.insert link elem i }

/-- `inode_lookup(path, …)`: the inode index. -/
def inodeLookup (path : Path) (s : FS) : Except RetCode Nat × FS :=
  if !path.valid then (.error .invalid, s)
  else lookupFrom [] rootInode rootInode false path.names s

/-- What `inode_lookup` does on its way: it searches a directory for a name, or asks
`get_inode` for an inode. -/
inductive Access where
  | walk (inode : Nat) (name : Name)
  | inode (index : Nat)

/-- What `lookupFrom` does on its way. -/
def accessesFrom (link : List Name) (index inode : Nat) (cacheHit : Bool) :
    List Name → FS → List Access
  | [], _ => []
  | elem :: rest, s =>
    let t := { s with dcache := s.dcache.enter link elem }
    match s.dcache.lookup link elem with
    | some i =>
      if rest.isEmpty then [.inode i] else accessesFrom (link ++ [elem]) i inode true rest t
    | none =>
      (if cacheHit then [.inode index] else []) ++
      match (if cacheHit then s.groups.getInode index else some inode) with
      | none => []
      | some inode =>
        if !rest.isEmpty && !isDir (s.inodes inode).iMode then []
        else
          .walk inode elem ::
          match s.search inode elem with
          | none => []
          | some i =>
            accessesFrom (link ++ [elem]) i ((s.groups.getInode i).getD inode) false rest
              { t with dcache := t.dcache.insert link elem i }

/-- What `inode_lookup(path, …)` does on its way. -/
def accesses (path : Path) (s : FS) : List Access :=
  if path.valid then accessesFrom [] rootInode rootInode false path.names s else []

/-- The search of one component asks `get_inode` for an inode without a block group. -/
def searchFaults (s : FS) (inode : Nat) (name : Name) : Bool :=
  s.visitInodeBlocks inode (fun b fault =>
    match (s.dents b).find? (Dentry.hasName name) with
    | none => (false, fault)
    | some e => (true, fault || !s.groups.present e.inode)) false

def Access.faults (s : FS) : Access → Bool
  | .walk d name => s.searchFaults d name
  | .inode index => !s.groups.present index

/-- `inode_lookup(path, …)` reads the descriptor of a block group that does not exist. -/
def lookupFaults (path : Path) (s : FS) : Bool := (s.accesses path).any (Access.faults s)

/-- `inode_lookup(parent, name, …)`: the inode of the last entry with this name,
and the last block. -/
def inodeLookupIn (s : FS) (parent : Nat) (name : Name) : Option Nat × Option Nat :=
  s.visitInodeBlocks parent
    (fun b (index, _) => (false, ((s.dents b).filter (Dentry.hasName name)).foldl
      (fun _ e => some e.inode) index, some b))
    (none, none)

/-! ## Allocation -/

/-- Indirect blocks that file block `n` brings with it. -/
def indirectsFor (n : Nat) : Nat :=
  if n < maxDirBlocks then 0
  else if n < maxDirBlocks + maxIndBlocks then if n = maxDirBlocks then 1 else 0
  else if n < maxDirBlocks + maxIndBlocks + maxDindBlocks then
    let m := n - maxDirBlocks - maxIndBlocks
    (if m = 0 then 1 else 0) + (if m % numIndirectBlocks = 0 then 1 else 0)
  else
    let m := n - maxDirBlocks - maxIndBlocks - maxDindBlocks
    (if m = 0 then 1 else 0) + (if m % maxDindBlocks = 0 then 2 else if m % maxIndBlocks = 0 then
      1 else 0)

def allocIndirects : Nat → Groups → Bool × Groups
  | 0, g => (true, g)
  | n + 1, g =>
    match g.allocBlock with
    | (none, g) => (false, g)
    | (some _, g) => allocIndirects n g

/-- `alloc_block(&block, &index, inode)`, for the inode record `ino`. -/
def allocBlockFor (ino : ListInode) (s : FS) : Option Nat × ListInode × FS :=
  match s.groups.allocBlock with
  | (none, g) => (none, ino, { s with groups := g })
  | (some b, g) =>
    match allocIndirects (indirectsFor (numAlignedBlocks ino.iBlocks)) g with
    | (false, g) => (none, ino, { s with groups := g })
    | (true, g) =>
      (some b,
        { ino with iBlock := ino.iBlock ++ [b], iBlocks := u32 (ino.iBlocks + 2 <<< logBlockSize) },
        { s with groups := g, dents := Function.update s.dents b [] })

/-- The same for an inode of the inode table. -/
def allocBlock (inode : Nat) (s : FS) : Option Nat × FS :=
  match s.allocBlockFor (s.inodes inode) with
  | (b, ino, s) => (b, { s with inodes := Function.update s.inodes inode ino })

/-- The inode record as `BlockGroup::alloc_inode` leaves it, and `inode_init`. -/
def blankInode (mode : Nat) : ListInode where
  iMode := u16 mode
  iUid := 0
  iGid := 0
  iSize := 0
  iLinksCount := 0
  iBlocks := 0
  iBlock := []

def inodeInit (ino : ListInode) : ListInode :=
  { ino with iBlocks := 0, iLinksCount := 1, iSize := 0, iUid := 0, iGid := 0 }

/-- `alloc_inode`: only an inode of an existing group goes through `inode_init`. -/
def allocInode (mode : Nat) (s : FS) : Option Nat × FS :=
  match s.groups.alloc .inode with
  | (none, g) => (none, { s with groups := g })
  | (some (i, served), g) =>
    let ino := if served then inodeInit (blankInode mode) else blankInode mode
    (some i, { s with groups := g, inodes := Function.update s.inodes i ino })

/-! ## Creation and linking -/

/-- `DentryBlock::size`. -/
def blockBytes (s : FS) (b : Nat) : Nat := ((s.dents b).map Dentry.recLen).sum

/-- The inode a pointer obtained for `index` shows. -/
def deref (index : Nat) : Nat := if index = 2 ^ 32 - 1 then rootInode else index

def setLinks (inode n : Nat) (s : FS) : FS :=
  { s with inodes := Function.update s.inodes inode { s.inodes inode with iLinksCount := n } }

end FS

/-! The calls that make an entry, over any layer below them: `view` is the namespace it
shows, and the other functions are those that the calls use. -/

namespace Calls

open FS

variable {σ : Type} (view : σ → FS)

/-- The block a new entry goes to: a new one if the directory has none or its
last block is full. -/
def blockForDentry (allocBlock : Nat → σ → Option Nat × σ) (last : Option Nat) (parent : Nat)
    (name : Name) (s : σ) :
    Option Nat × σ :=
  match (match last with
    | some b => (some b, s)
    | none => allocBlock parent s) with
  | (none, s) => (none, s)
  | (some b, s) =>
    if (view s).blockBytes b + dentrySize + name.length > blockSize then allocBlock parent s else
      (some b, s)

/-- `dentry_create`. An entry longer than a block is written past its end. -/
def dentryCreate (blockForDentry : Option Nat → Nat → Name → σ → Option Nat × σ)
    (setDents : (Nat → List Dentry) → σ → σ) (last : Option Nat) (parent : Nat) (name : Name)
    (index mode : Nat) (s : σ) : Option (RetCode × σ) :=
  match blockForDentry last parent name s with
  | (none, s) => some (.allocErr, s)
  | (some b, s) =>
    if dentrySize + name.length > blockSize then none
    else some (.success,
      setDents (Function.update (view s).dents b
      ((view s).dents b ++ [Dentry.make name index mode])) s)

variable (inodeLookup : Path → σ → Except RetCode Nat × σ)
  (dentryCreate : Option Nat → Nat → Name → Nat → Nat → σ → Option (RetCode × σ))

def inodeCreate (allocInode : Nat → σ → Option Nat × σ) (path : Path) (mode : Nat) (s : σ) :
    Option (Except RetCode Nat × σ) :=
  if !path.valid then some (.error .invalid, s)
  else if path.names.isEmpty then some (.error .dupErr, s)
  else
    match inodeLookup path.parent s with
    | (.error r, s) => some (.error r, s)
    | (.ok parent, s) =>
      if !isDir ((view s).inodes (deref parent)).iMode then some (.error .ndirErr, s)
      else
        match (view s).inodeLookupIn (deref parent) path.back with
        | (some i, _) =>
          if (view s).groups.present i then
            some (.error (if ((view s).groups.getInode i).isNone then .notFound else .dupErr), s)
          else none
        | (none, last) =>
          match allocInode mode s with
          | (none, s) => some (.error .allocErr, s)
          | (some i, s) =>
            match dentryCreate last (deref parent) path.back i mode s with
            | none => none
            | some (.success, s) => some (.ok i, s)
            | some (r, s) => some (.error r, s)

def inodeLink (setLinks : Nat → Nat → σ → σ) (src dst : Path) (s : σ) : Option (RetCode × σ) :=
  if !src.valid || !dst.valid then some (.invalid, s)
  else if src.names.isEmpty || dst.names.isEmpty then some (.dupErr, s)
  else
    match inodeLookup src s with
    | (.error r, s) => some (r, s)
    | (.ok index, s) =>
      if isDir ((view s).inodes (deref index)).iMode then some (.dirErr, s)
      else
        match inodeLookup dst.parent s with
        | (.error r, s) => some (r, s)
        | (.ok parent, s) =>
          if !isDir ((view s).inodes (deref parent)).iMode then some (.ndirErr, s)
          else
            match (view s).inodeLookupIn (deref parent) dst.back with
            | (some _, _) => some (.dupErr, s)
            | (none, last) =>
              match dentryCreate last (deref parent) dst.back index
                ((view s).inodes (deref index)).iMode s with
              | none => none
              | some (.success, s) =>
                some (.success,
                  setLinks (deref index) (u16 (((view s).inodes (deref index)).iLinksCount + 1)) s)
              | some (r, s) => some (r, s)

end Calls

namespace FS

def blockForDentry : Option Nat → Nat → Name → FS → Option Nat × FS :=
  Calls.blockForDentry (fun s => s) allocBlock

def dentryCreate : Option Nat → Nat → Name → Nat → Nat → FS → Option (RetCode × FS) :=
  Calls.dentryCreate (fun s => s) blockForDentry fun dents s => { s with dents := dents }

def inodeCreate : Path → Nat → FS → Option (Except RetCode Nat × FS) :=
  Calls.inodeCreate (fun s => s) inodeLookup dentryCreate allocInode

def inodeLink : Path → Path → FS → Option (RetCode × FS) :=
  Calls.inodeLink (fun s => s) inodeLookup dentryCreate setLinks

/-! ## Deletion -/

/-- `free_block` on every block of a file. -/
def freeBlocks : List Nat → Groups → Option Groups
  | [], g => some g
  | b :: rest, g =>
    match g.free .block b with
    | none => none
    | some (_, g) => freeBlocks rest g

/-- The recursive calls for the entries of a directory; their results are ignored. -/
def deleteAll (del : Nat → Groups → Option (RetCode × Groups)) :
    List Dentry → Groups → Option Groups
  | [], g => some g
  | e :: rest, g =>
    if e.live then
      match del e.inode g with
      | none => none
      | some (_, g) => deleteAll del rest g
    else deleteAll del rest g

/-- `inode_delete`, with the nesting of its calls bounded by the first argument.
It changes neither the inode table nor the directory blocks. An inode without a block
group ends the program. -/
def inodeDelete (s : FS) : Nat → Nat → Groups → Option (RetCode × Groups)
  | 0, _, _ => none
  | fuel + 1, index, g =>
    if index = rootInode then some (.invalid, g)
    else
      match g.getInode index with
      | none => if g.present index then some (.notFound, g) else none
      | some i =>
        let mode := (s.inodes i).iMode
        if !isReg mode && !isDir mode then some (.notFound, g)
        else
          match (if isDir mode then deleteAll (inodeDelete s fuel) (s.entries i) g
            else freeBlocks (s.inodes i).iBlock g) with
          | none => none
          | some g => (g.free .inode index).map fun r => (.success, r.2)

/-! ## Unlinking -/

/-- The entry with this name is cleared where it is found first. -/
def killVisitor (name : Name) (b : Nat) (st : (Nat → List Dentry) × Option Nat) :
    Bool × (Nat → List Dentry) × Option Nat :=
  match (st.1 b).find? (Dentry.hasName name) with
  | none => (false, st)
  | some e => (true, Function.update st.1 b (Dentry.killFirst name (st.1 b)), some e.inode)

/-- Clears the name in a directory; the inode of the entry cleared last. -/
def killName (s : FS) (parent : Nat) (name : Name) : FS × Option Nat :=
  match s.visitInodeBlocks parent (killVisitor name) (s.dents, none) with
  | (dents, matched) => ({ s with dents := dents }, matched)

/-- The last part of `inode_unlink`: one link less, and the inode goes with its
last link. -/
def dropLink (fuel index : Nat) (s : FS) : Option (RetCode × FS) :=
  match s.groups.getInode index with
  | none => if s.groups.present index then some (.notFound, s) else none
  | some i =>
    let links := u16 ((s.inodes i).iLinksCount + 65535)
    let s := s.setLinks i links
    if links = 0 then (s.inodeDelete fuel index s.groups).map fun r =>
      (r.1, { s with groups := r.2 })
    else some (.success, s)

def inodeUnlink (fuel : Nat) (path : Path) (s : FS) : Option (RetCode × FS) :=
  if !path.valid then some (.invalid, s)
  else if path.names.isEmpty then some (.invalid, s)
  else
    match s.inodeLookup path.parent with
    | (.error r, s) => some (r, s)
    | (.ok parent, s) =>
      if !isDir (s.inodes (deref parent)).iMode then some (.ndirErr, s)
      else
        match s.killName (deref parent) path.back with
        | (s, none) => some (.notFound, s)
        | (s, some index) =>
          dropLink fuel index { s with dcache := s.dcache.drop path.parent.names path.back }

/-! ## The formatted file system -/

/-- The root directory is readable by everyone and writable by no one. -/
def format : FS where
  groups := Groups.format
  inodes := Function.update (fun _ => blankInode 0) rootInode
    { inodeInit (blankInode sIfdir) with iMode := 0x4124 }
  dents _ := []
  dcache := DentryCache.init

end FS

end NaiveFS
