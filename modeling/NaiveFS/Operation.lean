import NaiveFS.FSList
import NaiveFS.Namespace

/-!
# The FUSE operations

`OpManager` with its inode caches and the handles open on them, and the FUSE
operations on metadata in terms of `FileSystem`. Every operation holds the big
lock, so a run is a sequence of them.
-/

namespace NaiveFS

def code2Errno : RetCode → Int
  | .notFound => -enoent
  | .allocErr => -eio
  | .dupErr => -eexist
  | .nullErr => -efault
  | .ndirErr => -enotdir
  | .dirErr => -eisdir
  | .invalid => -einval
  | .success => 0

/-! ## Permissions -/

/-- `fuse_get_context`: the caller. -/
structure Context where
  uid : Nat
  gid : Nat
  deriving DecidableEq

/-- One triple of permission bits, from bit `shift` up, allows the access. -/
def grants (mode shift : Nat) (read write exec : Bool) : Bool :=
  (mode.testBit (shift + 2) || !read) && (mode.testBit (shift + 1) || !write) &&
    (mode.testBit shift || !exec)

def checkPermission (ctx : Context) (ino : ListInode) (read write exec : Bool) : Bool :=
  if ctx.uid = 0 then true
  else
    (ctx.gid == ino.iGid && grants ino.iMode 3 read write exec) ||
      (ctx.uid == ino.iUid && grants ino.iMode 6 read write exec) || grants ino.iMode 0 read
        write exec

def checkUser (ctx : Context) (ino : ListInode) (read write exec : Bool) : Bool :=
  ctx.uid == ino.iUid && grants ino.iMode 6 read write exec || ctx.uid == 0

/-! ## State -/

/-- `InodeCache`: the copy of the inode, the number of its users and the sentinel
of the list of its handles. -/
structure InodeCache where
  cnts : Nat
  cache : ListInode
  vec : Nat

/-- `FileStatus` without its place in the file. `inode_cache_` is given by the
object's `inode_id_` and the sentinel of its list, which it keeps for life. -/
structure Handle where
  inode : Nat
  inodeCache : Nat
  fslistPtr : Nat
  cacheUpdateFlag : Bool

/-- The mounted file system. New handles and list cells get addresses that were
never used before, so that a stale pointer is not taken for a live one. -/
structure Mount where
  fs : FS
  opm : Nat → Option InodeCache
  handles : List (Nat × Handle)
  nextHandle : Nat
  lists : FSHeap
  nextCell : Nat

namespace Mount

def format : Mount where
  fs := FS.format
  opm _ := none
  handles := []
  nextHandle := 1
  lists _ := none
  nextCell := 0

def commit (id : Nat) (cache : ListInode) (m : Mount) : Mount :=
  match m.fs.groups.getInode id with
  | none => m
  | some i => { m with fs := { m.fs with inodes := Function.update m.fs.inodes i cache } }

/-- `OpManager::get_cache`; `none` is the null pointer. -/
def getCache (id : Nat) (m : Mount) : Option (InodeCache × Mount) :=
  match m.opm id with
  | some c =>
    let c := { c with cnts := u32 (c.cnts + 1) }
    some (c, { m with opm := Function.update m.opm id (some c) })
  | none =>
    match m.fs.groups.getInode id with
    | none => none
    | some i =>
      let c := { cnts := 1, cache := m.fs.inodes i, vec := m.nextCell }
      some (c, { m with
        opm := Function.update m.opm id (some c)
        lists := FSList.make m.nextCell m.lists
        nextCell := m.nextCell + 1 })

/-- `OpManager::rel_cache`: the last user writes the copy back and deletes the object. -/
def relCache (id : Nat) (m : Mount) : Option Mount :=
  match m.opm id with
  | none => some m
  | some c =>
    let cnts := sub32 c.cnts 1
    if cnts = 0 then
      let m := m.commit id c.cache
      (FSList.delete m.nextCell c.vec m.lists).map fun lists =>
        { m with opm := Function.update m.opm id none, lists := lists }
    else some { m with opm := Function.update m.opm id (some { c with cnts := cnts }) }

/-- A change of the copy, which is then committed. -/
def updateCache (id : Nat) (c : InodeCache) (f : ListInode → ListInode) (m : Mount) : Mount :=
  let c := { c with cache := f c.cache }
  { m with opm := Function.update m.opm id (some c) }.commit id c.cache

/-- A new `FileStatus` on inode `id`, put into the list by `OpManager::upd_cache`. -/
def addHandle (id : Nat) (c : InodeCache) (m : Mount) : Option Mount :=
  (FSList.ins c.vec m.nextCell m.nextHandle m.lists).map fun lists =>
    { m with
      handles := (m.nextHandle, ⟨id, c.vec, m.nextCell, true⟩) :: m.handles
      nextHandle := m.nextHandle + 1
      lists := lists
      nextCell := m.nextCell + 1 }

/-- The object behind `inode_cache_` of a handle. -/
def cacheOf (fd : Handle) (m : Mount) : Option InodeCache :=
  (m.opm fd.inode).filter fun c => c.vec = fd.inodeCache

def updAll (c : InodeCache) (m : Mount) : Option Mount :=
  (FSList.iter m.nextCell c.vec m.lists).map fun fds =>
    { m with
      handles := m.handles.map fun e => if e.1 ∈ fds then
        (e.1, { e.2 with cacheUpdateFlag := true }) else e }

/-! ## Files -/

/-- What `fuse_create` and `fuse_mkdir` write into the copy of a new inode. -/
def claim (ctx : Context) (mode : Nat) (ino : ListInode) : ListInode :=
  { ino with iMode := u16 mode, iSize := 0, iGid := u16 ctx.gid, iUid := u16 ctx.uid }

def fuseCreate (ctx : Context) (path : Path) (mode : Nat) (m : Mount) : Option (Int × Mount) :=
  match m.fs.inodeCreate path mode with
  | none => none
  | some (.error r, fs) => some (code2Errno r, { m with fs := fs })
  | some (.ok id, fs) =>
    match getCache id { m with fs := fs } with
    | none => some (-eio, { m with fs := fs })
    | some (c, m) => (m.addHandle id c).map fun m => (0, m.updateCache id c (claim ctx mode))

/-- `O_WRONLY` and `O_RDWR` are bits 0 and 1 of the flags. -/
def fuseOpen (ctx : Context) (path : Path) (flags : Nat) (m : Mount) : Option (Int × Mount) :=
  match m.fs.inodeLookup path with
  | (.error r, fs) => some (code2Errno r, { m with fs := fs })
  | (.ok id, fs) =>
    if !checkPermission ctx (fs.inodes (FS.deref id)) (flags.testBit 1)
        (flags.testBit 0 || flags.testBit 1) false then
      some (-eacces, { m with fs := fs })
    else
      match getCache id { m with fs := fs } with
      | none => none
      | some (c, m) => (m.addHandle id c).map fun m => (0, m)

/-- `fuse_release`: the destructor of `FileStatus` takes the handle out of the list. -/
def fuseRelease (fh : Nat) (m : Mount) : Option (Int × Mount) :=
  match m.handles.lookup fh with
  | none => some (-ebadf, m)
  | some fd =>
    match m.cacheOf fd, FSList.del fd.fslistPtr m.lists with
    | some _, some lists =>
      (relCache fd.inode
        { m with handles := m.handles.eraseP fun e => e.1 = fh, lists := lists }).map fun m => (0,
        m)
    | _, _ => none

/-- `fuse_fsync`; flushing does not change what is in memory. -/
def fuseFsync (fh : Nat) (datasync : Bool) (m : Mount) : Option (Int × Mount) :=
  match m.handles.lookup fh with
  | none => some (-ebadf, m)
  | some fd =>
    if datasync then some (0, m)
    else (m.cacheOf fd).map fun c => (0, m.commit fd.inode c.cache)

structure Stat where
  stIno : Nat
  stMode : Nat
  stNlink : Nat
  stUid : Nat
  stGid : Nat
  stSize : Nat
  stBlksize : Nat
  stBlocks : Nat

def Stat.of (id : Nat) (ino : ListInode) : Stat where
  stIno := id
  stMode := ino.iMode
  stNlink := ino.iLinksCount
  stUid := ino.iUid
  stGid := ino.iGid
  stSize := ino.iSize
  stBlksize := blockSize
  stBlocks := ino.iBlocks

def fuseGetattr (path : Path) (m : Mount) : Option (Int × Option Stat × Mount) :=
  match m.fs.inodeLookup path with
  | (.error r, fs) => some (code2Errno r, none, { m with fs := fs })
  | (.ok id, fs) =>
    match getCache id { m with fs := fs } with
    | none => some (-eio, none, { m with fs := fs })
    | some (c, m) => (m.relCache id).map fun m => (0, some (Stat.of id c.cache), m)

/-- What a write through a handle does at this level: it appends `grow` blocks
to the copy and sets its size, and it may leave anything in any block. Which
blocks and bytes those are is the matter of `FileStatus::write`; `grows` says
that it ends with `upd_all`. -/
def fuseWrite (fh grow size : Nat) (grows : Bool) (dents : Nat → List Dentry) (m : Mount) :
    Option (Int × Mount) :=
  match m.handles.lookup fh with
  | none => some (-ebadf, m)
  | some fd =>
    match m.cacheOf fd with
    | none => none
    | some c =>
      let (ino, fs) := growBy grow c.cache m.fs
      let m := { m with
        fs := { fs with dents := dents }
        opm :=
        Function.update m.opm fd.inode (some { c with cache := { ino with iSize := size } }) }
      if grows then (m.updAll c).map fun m => (0, m) else some (0, m)
where
  growBy : Nat → ListInode → FS → ListInode × FS
    | 0, ino, fs => (ino, fs)
    | n + 1, ino, fs =>
      match fs.allocBlockFor ino with
      | (none, ino, fs) => (ino, fs)
      | (some _, ino, fs) => growBy n ino fs

/-! ## Names -/

/-- The calls of `FileSystem` that change names. -/
inductive NameCall where
  | link (src dst : Path)
  | unlink (path : Path)
  deriving DecidableEq

def NameCall.run (fuel : Nat) (fs : FS) : NameCall → Option (RetCode × FS)
  | .link src dst => fs.inodeLink src dst
  | .unlink path => fs.inodeUnlink fuel path

/-- The calls in turn, up to the first that fails. -/
def runCalls (fuel : Nat) : List NameCall → FS → Option (RetCode × FS)
  | [], fs => some (.success, fs)
  | call :: rest, fs =>
    match call.run fuel fs with
    | none => none
    | some (.success, fs) => runCalls fuel rest fs
    | some (r, fs) => some (r, fs)

/-- The end of an operation that changes names: checks have led to an error or
to the calls to make. -/
def finish (fuel : Nat) (m : Mount) : Except Int (List NameCall) × FS → Option (Int × Mount)
  | (.error e, fs) => some (e, { m with fs := fs })
  | (.ok calls, fs) => (runCalls fuel calls fs).map fun r => (code2Errno r.1, { m with fs := r.2 })

def fuseLink (fuel : Nat) (src dst : Path) (m : Mount) : Option (Int × Mount) :=
  finish fuel m (.ok [.link src dst], m.fs)

/-- `fuse_unlink`: a file that is open is not removed. -/
def fuseUnlink (fuel : Nat) (ctx : Context) (path : Path) (m : Mount) : Option (Int × Mount) :=
  match m.fs.inodeLookup path with
  | (.error r, fs) => some (code2Errno r, { m with fs := fs })
  | (.ok id, fs) =>
    match getCache id { m with fs := fs } with
    | none => none
    | some (c, m) =>
      match m.relCache id with
      | none => none
      | some m =>
        if 2 ≤ c.cnts || !checkPermission ctx c.cache false true false then some (-eacces, m)
        else finish fuel m (.ok [.unlink path], m.fs)

def fuseMkdir (ctx : Context) (path : Path) (mode : Nat) (m : Mount) : Option (Int × Mount) :=
  let mode := mode ||| sIfdir
  match m.fs.inodeCreate path mode with
  | none => none
  | some (.error r, fs) => some (code2Errno r, { m with fs := fs })
  | some (.ok id, fs) =>
    if !checkPermission ctx (fs.inodes id) true true false then some (-eacces, { m with fs := fs })
    else
      match getCache id { m with fs := fs } with
      | none => some (-eio, { m with fs := fs })
      | some (c, m) => ((m.updateCache id c (claim ctx mode)).relCache id).map fun m => (0, m)

def rmdirCalls (ctx : Context) (path : Path) (fs : FS) : Except Int (List NameCall) × FS :=
  match fs.inodeLookup path with
  | (.error _, fs) => (.error (-enoent), fs)
  | (.ok id, fs) =>
    let dir := fs.inodes (FS.deref id)
    if !isDir dir.iMode then (.error (-enotdir), fs)
    else if !checkPermission ctx dir true true false then (.error (-eacces), fs)
    else if (fs.entries (FS.deref id)).any Dentry.live then (.error (-enotempty), fs)
    else (.ok [.unlink path], fs)

def fuseRmdir (fuel : Nat) (ctx : Context) (path : Path) (m : Mount) : Option (Int × Mount) :=
  finish fuel m (rmdirCalls ctx path m.fs)

/-! ## Renaming -/

def renameNoreplace : Nat := 1
def renameExchange : Nat := 2

/-- The name `"/<a"` under which an exchange parks the old file. -/
def parkingName : Path := .of [[60, 97]]

/-- The lookup and the permission check at the start of a rename. -/
def renameLookup (ctx : Context) (path : Path) (fs : FS) : Except Int Nat × FS :=
  match fs.inodeLookup path with
  | (.error _, fs) => (.error (-enoent), fs)
  | (.ok id, fs) =>
    if !checkPermission ctx (fs.inodes (FS.deref id)) false true false then
      (.error (-eacces), fs) else (.ok id, fs)

def exchangeCalls (ctx : Context) (old new : Path) (fs : FS) : Except Int (List NameCall) × FS :=
  match renameLookup ctx new fs with
  | (.error e, fs) => (.error e, fs)
  | (.ok _, fs) =>
    match renameLookup ctx old fs with
    | (.error e, fs) => (.error e, fs)
    | (.ok _, fs) =>
      (.ok [.link old parkingName, .unlink old, .link new old, .link old new, .unlink parkingName],
        fs)

def noreplaceCalls (ctx : Context) (old new : Path) (fs : FS) : Except Int (List NameCall) × FS :=
  match fs.inodeLookup new with
  | (.ok _, fs) => (.error (-eexist), fs)
  | (.error _, fs) =>
    match renameLookup ctx old fs with
    | (.error e, fs) => (.error e, fs)
    | (.ok _, fs) => (.ok [.link old new, .unlink old], fs)

def replaceCalls (ctx : Context) (old new : Path) (fs : FS) : Except Int (List NameCall) × FS :=
  match renameLookup ctx old fs with
  | (.error e, fs) => (.error e, fs)
  | (.ok _, fs) =>
    match fs.inodeLookup new with
    | (.error _, fs) => (.ok [.link old new, .unlink old], fs)
    | (.ok id, fs) =>
      if !checkPermission ctx (fs.inodes (FS.deref id)) false true false then (.error (-eacces), fs)
      else (.ok [.unlink new, .link old new, .unlink old], fs)

def renameCalls (ctx : Context) (old new : Path) (flags : Nat) (fs : FS) :
    Except Int (List NameCall) × FS :=
  if flags = renameExchange then exchangeCalls ctx old new fs
  else if flags = renameNoreplace then noreplaceCalls ctx old new fs
  else if flags = 0 then replaceCalls ctx old new fs
  else (.error (-einval), fs)

def fuseRename (fuel : Nat) (ctx : Context) (old new : Path) (flags : Nat) (m : Mount) :
    Option (Int × Mount) :=
  finish fuel m (renameCalls ctx old new flags m.fs)

/-! ## Symbolic links -/

/-- `sizeof(ext2_inode::i_block)`. -/
def iBlockSize : Nat := 60

/-- The entries `DentryBlock` finds in a block that holds `text` and is zero
behind it. -/
def textDentries (text : List UInt8) : Nat → Nat → List Dentry
  | 0, _ => []
  | n + 1, off =>
    let byte := fun k => (text.getD (off + k) 0).toNat
    let recLen := byte 4 + 256 * byte 5
    if recLen = 0 then []
    else
      { inode := byte 0 + 256 * byte 1 + 65536 * byte 2 + 16777216 * byte 3
        recLen := recLen
        nameLen := byte 6
        fileType := byte 7
        name := (List.range (byte 6)).map fun k => text.getD (off + dentrySize + k) 0 } ::
        if off + recLen + dentrySize > blockSize then [] else textDentries text n (off + recLen)

/-- `fuse_symlink`. A short target is kept in the bytes of `i_block`, which the
list of blocks leaves out; a long one gets a block. -/
def fuseSymlink (src : List UInt8) (dst : Path) (m : Mount) : Option (Int × Mount) :=
  match m.fs.inodeLookup (Path.parse src) with
  | (.error r, fs) => some (code2Errno r, { m with fs := fs })
  | (.ok _, fs) =>
    match fs.inodeCreate dst sIflnk with
    | none => none
    | some (.error r, fs) => some (code2Errno r, { m with fs := fs })
    | some (.ok id, fs) =>
      if src.length ≤ iBlockSize then some (0, { m with fs := fs })
      else
        match fs.allocBlock id with
        | (none, fs) => some (code2Errno .allocErr, { m with fs := fs })
        | (some b, fs) =>
          if src.length > blockSize then none
          else some (0,
            { m with
              fs := { fs with
                dents := Function.update fs.dents b (textDentries src blockSize 0) } })

/-! ## Attributes -/

def fuseChmod (ctx : Context) (path : Path) (mode : Nat) (m : Mount) : Option (Int × Mount) :=
  match m.fs.inodeLookup path with
  | (.error r, fs) => some (code2Errno r, { m with fs := fs })
  | (.ok id, fs) =>
    if !checkPermission ctx (fs.inodes (FS.deref id)) true true false then
      some (-eacces, { m with fs := fs })
    else
      match getCache id { m with fs := fs } with
      | none => some (-eio, { m with fs := fs })
      | some (c, m) =>
        ((m.updateCache id c fun ino => { ino with iMode := u16 mode }).relCache id).map fun m =>
          (0, m)

def fuseChown (path : Path) (user group : Nat) (m : Mount) : Option (Int × Mount) :=
  match m.fs.inodeLookup path with
  | (.error r, fs) => some (code2Errno r, { m with fs := fs })
  | (.ok id, fs) =>
    match getCache id { m with fs := fs } with
    | none => none
    | some (c, m) =>
      ((m.updateCache id c fun ino => { ino with iUid := u16 user, iGid := u16 group }).relCache
        id).map fun m => (0, m)

/-- `R_OK`, `W_OK` and `X_OK` are bits 2, 1 and 0 of the mask, `F_OK` is the mask 0. -/
def fuseAccess (ctx : Context) (path : Path) (mask : Nat) (m : Mount) : Int × Mount :=
  match m.fs.inodeLookup path with
  | (.error r, fs) => (code2Errno r, { m with fs := fs })
  | (.ok id, fs) =>
    if mask = 0 then (0, { m with fs := fs })
    else if !checkPermission ctx (fs.inodes (FS.deref id)) (mask.testBit 2) (mask.testBit 1)
        (mask.testBit 0) then
      (-eacces, { m with fs := fs })
    else (0, { m with fs := fs })

/-- `fuse_utimens`: only time stamps change. -/
def fuseUtimens (ctx : Context) (path : Path) (m : Mount) : Option (Int × Mount) :=
  match m.fs.inodeLookup path with
  | (.error r, fs) => some (code2Errno r, { m with fs := fs })
  | (.ok id, fs) =>
    if !checkUser ctx (fs.inodes (FS.deref id)) false true false then
      some (-eacces, { m with fs := fs })
    else
      match getCache id { m with fs := fs } with
      | none => none
      | some (c, m) => ((m.updateCache id c fun ino => ino).relCache id).map fun m => (0, m)

/-! ## Runs -/

inductive FuseOp where
  | create (ctx : Context) (path : Path) (mode : Nat)
  | open (ctx : Context) (path : Path) (flags : Nat)
  | release (fh : Nat)
  | fsync (fh : Nat) (datasync : Bool)
  | getattr (path : Path)
  | write (fh grow size : Nat) (grows : Bool) (dents : Nat → List Dentry)
  | link (src dst : Path)
  | unlink (ctx : Context) (path : Path)
  | mkdir (ctx : Context) (path : Path) (mode : Nat)
  | rmdir (ctx : Context) (path : Path)
  | rename (ctx : Context) (old new : Path) (flags : Nat)
  | symlink (src : List UInt8) (dst : Path)
  | chmod (ctx : Context) (path : Path) (mode : Nat)
  | chown (path : Path) (user group : Nat)
  | utimens (ctx : Context) (path : Path)

/-- One operation: its return code and the state it leaves. -/
def exec (fuel : Nat) (m : Mount) : FuseOp → Option (Int × Mount)
  | .create ctx path mode => m.fuseCreate ctx path mode
  | .open ctx path flags => m.fuseOpen ctx path flags
  | .release fh => m.fuseRelease fh
  | .fsync fh datasync => m.fuseFsync fh datasync
  | .getattr path => (m.fuseGetattr path).map fun r => (r.1, r.2.2)
  | .write fh grow size grows dents => m.fuseWrite fh grow size grows dents
  | .link src dst => m.fuseLink fuel src dst
  | .unlink ctx path => m.fuseUnlink fuel ctx path
  | .mkdir ctx path mode => m.fuseMkdir ctx path mode
  | .rmdir ctx path => m.fuseRmdir fuel ctx path
  | .rename ctx old new flags => m.fuseRename fuel ctx old new flags
  | .symlink src dst => m.fuseSymlink src dst
  | .chmod ctx path mode => m.fuseChmod ctx path mode
  | .chown path user group => m.fuseChown path user group
  | .utimens ctx path => m.fuseUtimens ctx path

def step (fuel : Nat) (m : Mount) (op : FuseOp) : Option Mount := (m.exec fuel op).map Prod.snd

end Mount

end NaiveFS
