import NaiveFS.CreateSound
import NaiveFS.Lib.Replies

/-!
# The namespace as a map of paths

What the names of a file system are for: a path stands for an inode. `PathMap`
has the paths that are taken and says which inodes are directories. On it every
call of `FileSystem` that works on names is one line: a new name is one more path,
a removed one is one path less. Which number a new inode gets is left open.
-/

namespace NaiveFS

inductive NameRequest where
  | lookup (path : Path)
  | create (path : Path) (mode : { m : Nat // isReg m = true ∨ isDir m = true })
  | link (src dst : Path)
  | unlink (path : Path)
  | readdir (path : Path)

inductive NameReply where
  | inode (r : Except RetCode Nat)
  | code (r : RetCode)
  | names (result : Int) (filled : List Name)

/-! ## The code -/

namespace FS

/-- A call of `FileSystem`, or `fuse_readdir` by the super user. -/
def serve (fuel : Nat) (s : FS) : NameRequest → Option (NameReply × FS)
  | .lookup path => some (.inode (s.inodeLookup path).1, (s.inodeLookup path).2)
  | .create path mode => (s.inodeCreate path mode.1).map fun r => (.inode r.1, r.2)
  | .link src dst => (s.inodeLink src dst).map fun r => (.code r.1, r.2)
  | .unlink path => (s.inodeUnlink fuel path).map fun r => (.code r.1, r.2)
  | .readdir path =>
    match s.fuseReaddir ⟨0, 0⟩ path with
    | ((result, filled), s) => some (.names result filled, s)

end FS

/-! ## The map -/

structure PathMap where
  node : List Name → Option Nat
  dir : Nat → Bool

namespace PathMap

/-- Only the root is there. -/
def root : PathMap where
  node q := if q = [] then some rootInode else none
  dir i := i == rootInode

/-- From path `done`, which stands for inode `index`, onwards. What the last name is
looked up in need not be a directory. -/
def resolveFrom (m : PathMap) : List Name → Nat → List Name → Except RetCode Nat
  | _, index, [] => .ok index
  | done, index, elem :: rest =>
    if !rest.isEmpty && !m.dir index then .error .ndirErr
    else
      match m.node (done ++ [elem]) with
      | none => .error .notFound
      | some i => m.resolveFrom (done ++ [elem]) i rest

def find (m : PathMap) (path : Path) : Except RetCode Nat :=
  if path.valid then m.resolveFrom [] rootInode path.names else .error .invalid

/-- The directory that has or is to have the last name of a path. -/
def parent (m : PathMap) (path : Path) : Except RetCode Unit :=
  match m.find path.parent with
  | .error r => .error r
  | .ok p => if m.dir p then .ok () else .error .ndirErr

/-- Why no new name can be entered at `path`, if so. -/
def refusal (m : PathMap) (path : Path) : Except RetCode Unit :=
  match m.parent path with
  | .error r => .error r
  | .ok _ => if (m.node path.names).isSome then .error .dupErr else .ok ()

def enter (m : PathMap) (path : Path) (i : Nat) :
    PathMap := { m with node := Function.update m.node path.names (some i) }

def create (m : PathMap) (path : Path) : Except RetCode Unit :=
  if !path.valid then .error .invalid else if path.names = [] then .error .dupErr else
    m.refusal path

/-- The inode that gets another name. -/
def link (m : PathMap) (src dst : Path) : Except RetCode Nat :=
  if !src.valid || !dst.valid then .error .invalid
  else if src.names = [] || dst.names = [] then .error .dupErr
  else
    match m.find src with
    | .error r => .error r
    | .ok i => if m.dir i then .error .dirErr else (m.refusal dst).map fun _ => i

def unlink (m : PathMap) (path : Path) : Except RetCode Unit :=
  if !path.valid || path.names = [] then .error .invalid
  else
    match m.parent path with
    | .error r => .error r
    | .ok _ => if (m.node path.names).isSome then .ok () else .error .notFound

/-- The code of a call that succeeds unless the map refuses. -/
def codeOf {α : Type} : Except RetCode α → RetCode
  | .error r => r
  | .ok _ => .success

/-- The names right below a path. -/
def Children (m : PathMap) (path : Path) (names : List Name) : Prop :=
  names.Nodup ∧ ∀ n, n ∈ names ↔ n ≠ [] ∧ (m.node (path.names ++ [n])).isSome = true

/-- The replies to a request, with the map after each. -/
def Allows (m : PathMap) : NameRequest → NameReply → PathMap → Prop
  | .lookup path, reply, m' => reply = .inode (m.find path) ∧ m' = m
  | .create path mode, reply, m' =>
    match m.create path with
    | .error r => reply = .inode (.error r) ∧ m' = m
    | .ok _ => ∃ i, (∀ q, m.node q ≠ some i) ∧ reply = .inode (.ok i) ∧
      m' = { m.enter path i with dir := Function.update m.dir i (isDir mode.1) }
  | .link src dst, reply, m' =>
    match m.link src dst with
    | .error r => reply = .code r ∧ m' = m
    | .ok i => reply = .code .success ∧ m' = m.enter dst i
  | .unlink path, reply, m' =>
    match m.unlink path with
    | .error r => reply = .code r ∧ m' = m
    | .ok _ =>
      reply = .code .success ∧ m' = { m with node := Function.update m.node path.names none }
  | .readdir path, reply, m' => m' = m ∧
    match m.find path with
    | .error _ => reply = .names (-enoent) []
    | .ok d =>
      if m.dir d then ∃ names, m.Children path names ∧ reply = .names 0 ([[46], [46, 46]] ++ names)
      else reply = .names (-enotdir) []

end PathMap

namespace FS

/-- The map that is in the directory blocks. -/
def pathMap (s : FS) : PathMap where
  node q := if q.any List.isEmpty then none else (s.walk rootInode q).toOption
  dir i := isDir (s.inodes i).iMode

/-- The call a request is, for the bounds that calls keep. -/
def requestCall : NameRequest → PathOp
  | .lookup path => .lookup path
  | .create path mode => .call (.create path mode)
  | .link src dst => .call (.link src dst)
  | .unlink path => .call (.unlink path)
  | .readdir path => .lookup path

end FS

end NaiveFS
