import NaiveFS.IntegritySound
import NaiveFS.Operation

/-!
# Directories as finite maps

`listing` is what a directory is for: the names of its live entries and the
inodes they stand for. `fuse_readdir` shows the names; `Entered` and `Removed`
say what `inode_create`, `inode_link` and `inode_unlink` are to do to listings.
-/

namespace NaiveFS

/-- The characters of an entry's name that count. -/
def Dentry.text (e : Dentry) : Name := e.name.take e.nameLen

namespace FS

def listing (s : FS) (d : Nat) : List (Name × Nat) :=
  ((s.entries d).filter Dentry.live).map fun e => (e.text, e.inode)

def listed (s : FS) (d : Nat) : List Name := (s.listing d).map Prod.fst

/-! ## Reading a directory -/

/-- The visitor of `fuse_readdir`, which calls `filler` for every live entry. -/
def readdirVisitor (s : FS) (b : Nat) (filled : List Name) : Bool × List Name :=
  (false, filled ++ ((s.dents b).filter Dentry.live).map Dentry.text)

/-- `fuse_readdir`: the code and the names handed to `filler`. -/
def fuseReaddir (ctx : Context) (path : Path) (s : FS) : (Int × List Name) × FS :=
  match s.inodeLookup path with
  | (.error _, s) => ((-enoent, []), s)
  | (.ok id, s) =>
    let parent := s.inodes (deref id)
    if !isDir parent.iMode then ((-enotdir, []), s)
    else if !checkPermission ctx parent true false false then ((-eacces, []), s)
    else ((0, s.visitInodeBlocks (deref id) s.readdirVisitor [[46], [46, 46]]), s)

/-! ## What the calls are to do -/

/-- Directory `d` is there in both states with the same listing. -/
def SameDir (s s' : FS) (d : Nat) : Prop := s'.isDirectory d = true ∧ s'.listing d = s.listing d

/-- A name is to be entered in the directory that `parent` gives; `result` is the
inode entered or an error. -/
structure Entered (parent : Except RetCode Nat) (name : Name) (result : Except RetCode Nat)
  (s s' : FS) : Prop where
  added : ∀ i, result = .ok i → ∃ p, parent = .ok p ∧ s.isDirectory (deref p) = true ∧
    s'.isDirectory (deref p) = true ∧
    s'.listing (deref p) = s.listing (deref p) ++ [(name, i)] ∧
    ∀ d, s.isDirectory d = true → d ≠ deref p → SameDir s s' d
  failed : ∀ r, result = .error r → ∀ d, s.isDirectory d = true → SameDir s s' d
  taken : ∀ p, parent = .ok p → name ∈ s.listed (deref p) → ∃ r, result = .error r
  fresh : ∀ d, s'.isDirectory d = true → s.isDirectory d = true ∨ s'.listing d = []

/-- A name is to be removed from the directory that `parent` gives. A directory
that goes with the name has no listing any more. -/
structure Removed (parent : Except RetCode Nat) (name : Name) (s s' : FS) : Prop where
  removed : ∀ p, parent = .ok p → s.isDirectory (deref p) = true →
    s'.listing (deref p) = (s.listing (deref p)).filter fun e => e.1 ≠ name
  others : ∀ d, s'.isDirectory d = true → s.isDirectory d = true ∧
    ((∀ p, parent = .ok p → d ≠ deref p) → s'.listing d = s.listing d)

/-- Names in a directory are distinct, and `fuse_readdir` shows them. -/
structure FiniteMaps (s : FS) : Prop where
  distinct : ∀ d, s.isDirectory d = true → (s.listed d).Nodup
  readdir : ∀ ctx path names t, s.fuseReaddir ctx path = ((0, names), t) →
    ∃ id, (s.inodeLookup path).1 = .ok id ∧ names = [[46], [46, 46]] ++ s.listed (deref id)

/-! ## Runs -/

/-- Valid paths whose components have 1 to 254 bytes. -/
abbrev ShortPath := { p : Path // p.valid = true ∧ ∀ n ∈ p.names, n.length ≤ 254 }

inductive DirOp where
  | create (path : ShortPath) (mode : Nat)
  | link (src dst : ShortPath)
  | unlink (path : ShortPath)

def dirStep (fuel : Nat) (s : FS) : DirOp → Option FS
  | .create path mode => (s.inodeCreate path mode).map Prod.snd
  | .link src dst => (s.inodeLink src dst).map Prod.snd
  | .unlink path => (s.inodeUnlink fuel path).map Prod.snd

/-- The call does to the listings what it is to do. -/
def ActsAsMap (fuel : Nat) (s : FS) : DirOp → Prop
  | .create path mode => ∀ result s', s.inodeCreate path mode = some (result, s') →
    Entered (s.inodeLookup path.1.parent).1 path.1.back result s s'
  | .link src dst => ∀ r s', s.inodeLink src dst = some (r, s') →
    Entered ((s.inodeLookup src).2.inodeLookup dst.1.parent).1 dst.1.back
      (if r = .success then (s.inodeLookup src).1 else .error r) s s'
  | .unlink path => ∀ r s', s.inodeUnlink fuel path = some (r, s') →
    Removed (s.inodeLookup path.1.parent).1 path.1.back s s'

/-- The call leaves at most 33 block groups. -/
def FewGroups (fuel : Nat) (s : FS) (op : DirOp) : Prop :=
  ∀ s', dirStep fuel s op = some s' → s'.groups.groupCount ≤ 33

end FS

end NaiveFS
