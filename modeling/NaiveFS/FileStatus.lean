import NaiveFS.BlockStore

/-!
# File handles: seeking, reading and writing

`FileStatus` of `include/operation.h` and `src/operation/operation.cpp` over the
eviction-free store. A handle caches the block it stands on and the indirect
blocks on the way to it; all handles of a file share one `InodeCache`.
-/

namespace NaiveFS

/-! ## Block positions -/

def iblock11 : Nat := 11
def iblock12 : Nat := blockSize / 4 + 11
def iblock13 : Nat := (blockSize / 4) * (blockSize / 4) + iblock12
def iblock14 : Nat := (blockSize / 4) * (blockSize / 4) * (blockSize / 4) + iblock13

@[simp] theorem iblock11_eq : iblock11 = 11 := rfl
@[simp] theorem iblock12_eq : iblock12 = 1035 := rfl
@[simp] theorem iblock13_eq : iblock13 = 1049611 := rfl
@[simp] theorem iblock14_eq : iblock14 = 1074791435 := rfl

/-- `FileStatus`: `ind0`, `ind1`, `ind2` are the ids of `indirect_block_`. -/
structure Cursor where
  cacheUpdateFlag : Bool
  blockId : Nat
  blockIdInFile : Nat
  ind0 : Nat
  ind1 : Nat
  ind2 : Nat

/-- A handle as `fuse_create` and `fuse_open` leave it: `init_seek` sets the flag. -/
def Cursor.init : Cursor := ⟨true, 0, 0, 0, 0, 0⟩

section
variable (ino : TreeInode) (s : BlockStore)

/-- The last hop of a seek: `ptr.seek(off, block_id_)`. -/
def Cursor.hop (c : Cursor) (id off : Nat) : Int × Cursor :=
  match s.ptr id off with
  | none => (-einval, c)
  | some b => (0, { c with blockId := b })

def Cursor.hop1 (c : Cursor) (id off : Nat) (k : Cursor → Int × Cursor) : Int × Cursor :=
  match s.ptr id off with
  | none => (-einval, c)
  | some b => k { c with ind1 := b }

def Cursor.hop2 (c : Cursor) (id off : Nat) (k : Cursor → Int × Cursor) : Int × Cursor :=
  match s.ptr id off with
  | none => (-einval, c)
  | some b => k { c with ind2 := b }

def bfSeek (c : Cursor) (new : Nat) : Int × Cursor :=
  let c := { c with blockIdInFile := new }
  if new ≤ iblock11 then (0, { c with blockId := ino.iBlock new })
  else if new ≤ iblock12 then
    let c := { c with ind0 := ino.iBlock indBlock }
    c.hop s c.ind0 (new - iblock11 - 1)
  else if new ≤ iblock13 then
    let firstId := (new - iblock12 - 1) / (blockSize / 4)
    let secondId := (new - iblock12 - 1) % (blockSize / 4)
    let c := { c with ind0 := ino.iBlock dindBlock }
    c.hop1 s c.ind0 firstId fun c => c.hop s c.ind1 secondId
  else if new ≤ iblock14 then
    let firstId := (new - iblock13 - 1) / ((blockSize / 4) * (blockSize / 4))
    let secondId := (new - iblock13 - 1) % ((blockSize / 4) * (blockSize / 4)) / (blockSize / 4)
    let thirdId := (new - iblock13 - 1) % (blockSize / 4)
    let c := { c with ind0 := ino.iBlock tindBlock }
    c.hop1 s c.ind0 firstId fun c => c.hop2 s c.ind1 secondId fun c => c.hop s c.ind2 thirdId
  else (-einval, c)

def nextBlock (c : Cursor) : Int × Cursor :=
  let old := c.blockIdInFile
  let new := u32 (old + 1)
  if old ≤ iblock11 then
    let c := { c with blockIdInFile := new }
    if new ≤ iblock11 then (0, { c with blockId := ino.iBlock new })
    else
      let c := { c with ind0 := ino.iBlock indBlock }
      c.hop s c.ind0 0
  else if old ≤ iblock12 then
    let c := { c with blockIdInFile := new }
    if new ≤ iblock12 then c.hop s c.ind0 (new - iblock11 - 1)
    else
      let c := { c with ind0 := ino.iBlock dindBlock }
      c.hop1 s c.ind0 0 fun c => c.hop s c.ind1 0
  else if old ≤ iblock13 then
    let c := { c with blockIdInFile := new }
    if new ≤ iblock13 then
      let firstId := (new - iblock12 - 1) / (blockSize / 4)
      let secondId := (new - iblock12 - 1) % (blockSize / 4)
      if secondId = 0 then c.hop1 s c.ind0 firstId fun c => c.hop s c.ind1 0
      else c.hop s c.ind1 secondId
    else
      let c := { c with ind0 := ino.iBlock tindBlock }
      c.hop1 s c.ind0 0 fun c => c.hop2 s c.ind1 0 fun c => c.hop s c.ind2 0
  else if old ≤ iblock14 then
    let c := { c with blockIdInFile := new }
    let firstId := (new - iblock13 - 1) / ((blockSize / 4) * (blockSize / 4))
    let secondId := (new - iblock13 - 1) % ((blockSize / 4) * (blockSize / 4)) / (blockSize / 4)
    let thirdId := (new - iblock13 - 1) % (blockSize / 4)
    if thirdId = 0 then
      if secondId = 0 then
        c.hop1 s c.ind0 firstId fun c => c.hop2 s c.ind1 secondId fun c => c.hop s c.ind2 thirdId
      else c.hop2 s c.ind1 secondId fun c => c.hop s c.ind2 thirdId
    else c.hop s c.ind2 thirdId
  else (-einval, c)

/-- `FileStatus::seek`. The result of the `bf_seek` below `IBLOCK_12` is dropped,
and the triple level indexes its last block by `new_second_id`, as in the code. -/
def seek (c : Cursor) (new : Nat) : Int × Cursor :=
  if new ≤ iblock12 then (0, (bfSeek ino s c new).2)
  else if new ≤ iblock13 then
    let oldFirstId := sub32 (sub32 c.blockIdInFile iblock12) 1 / (blockSize / 4)
    let oldSecondId := sub32 (sub32 c.blockIdInFile iblock12) 1 % (blockSize / 4)
    let newFirstId := (new - iblock12 - 1) / (blockSize / 4)
    let newSecondId := (new - iblock12 - 1) % (blockSize / 4)
    let c := { c with blockIdInFile := new }
    if newFirstId = oldFirstId ∧ newSecondId = oldSecondId then (0, c)
    else if newFirstId = oldFirstId then c.hop s c.ind1 newSecondId
    else bfSeek ino s c new
  else if new ≤ iblock14 then
    let oldOff := sub32 (sub32 c.blockIdInFile iblock13) 1
    let oldFirstId := oldOff / ((blockSize / 4) * (blockSize / 4))
    let oldSecondId := oldOff % ((blockSize / 4) * (blockSize / 4)) / (blockSize / 4)
    let oldThirdId := oldOff % (blockSize / 4)
    let newFirstId := (new - iblock13 - 1) / ((blockSize / 4) * (blockSize / 4))
    let newSecondId := (new - iblock13 - 1) % ((blockSize / 4) * (blockSize / 4)) / (blockSize / 4)
    let newThirdId := (new - iblock13 - 1) % (blockSize / 4)
    let c := { c with blockIdInFile := new }
    if newFirstId = oldFirstId ∧ newSecondId = oldSecondId ∧ newThirdId = oldThirdId then (0, c)
    else if newFirstId = oldFirstId ∧ newSecondId = oldSecondId then c.hop s c.ind2 newSecondId
    else if newFirstId = oldFirstId then c.hop2 s c.ind1 newSecondId fun c =>
      c.hop s c.ind2 newSecondId
    else bfSeek ino s c new
  else (0, c)

def updCache (c : Cursor) : Int × Cursor :=
  if c.cacheUpdateFlag then bfSeek ino s { c with cacheUpdateFlag := false } c.blockIdInFile else
    (0, c)

end

/-! ## A file and its handles -/

/-- The `InodeCache` of a file, the block store, and the handles in the cache's
list `vec`. -/
structure File where
  ino : TreeInode
  store : BlockStore
  fds : List Cursor

namespace File

def cursor (f : File) (h : Nat) : Cursor := f.fds.getD h Cursor.init

def setCursor (f : File) (h : Nat) (c : Cursor) : File := { f with fds := f.fds.set h c }

def updAll (f : File) :
    File := { f with fds := f.fds.map fun c => { c with cacheUpdateFlag := true } }

def openHandle (f : File) : File := { f with fds := f.fds ++ [Cursor.init] }

/-- `fs->get_block(id, &blk, true, off, buf, buf.length)`: false, or the bytes copied. -/
def putBytes (f : File) (id off : Nat) (buf : List UInt8) : Option File :=
  match f.store.data id with
  | none => none
  | some _ => some { f with store := f.store.poke id fun b => b.splice off buf }

/-- `fs->get_block(id, &blk, false, off, buf, n)`. -/
def getBytes (f : File) (id off n : Nat) : Option (List UInt8) :=
  (f.store.data id).map fun b => (List.range n).map fun i => b.byte (off + i)

end File

/-! ## Reading -/

/-- The loop of `copy_to_buf`, with the bytes copied so far. At most `fuel` more
rounds; each copies a byte at least. -/
def copyLoop (f : File) (isize : Nat) :
    Nat → Cursor → Nat → Nat → List UInt8 → Int × List UInt8 × Cursor
  | 0, c, _, _, out => (toInt32 out.length, out, c)
  | fuel + 1, c, offset, size, out =>
    if size = 0 then (toInt32 out.length, out, c)
    else if isize ≤ offset then (toInt32 out.length, out, c)
    else
      match nextBlock f.ino f.store c with
      | (err, c) =>
        if err ≠ 0 then (err, out, c)
        else
          let csz := min size (min (isize - offset) blockSize)
          match f.getBytes c.blockId 0 csz with
          | none => (-einval, out, c)
          | some bs => copyLoop f isize fuel c (u64 (offset + csz)) (size - csz) (out ++ bs)

/-- `FileStatus::copy_to_buf`: the return value and the bytes stored from `buf` on. -/
def copyToBuf (f : File) (h offset size : Nat) : Int × List UInt8 × File :=
  let isize := f.ino.iSize
  if isize ≤ offset then (0, [], f)
  else
    match updCache f.ino f.store (f.cursor h) with
    | (err, c) =>
      if err ≠ 0 then (err, [], f.setCursor h c)
      else
        match seek f.ino f.store c (u32 (offset / blockSize)) with
        | (err, c) =>
          if err ≠ 0 then (err, [], f.setCursor h c)
          else
            let csz := min size (blockSize - offset % blockSize)
            match f.getBytes c.blockId (offset % blockSize) csz with
            | none => (-einval, [], f.setCursor h c)
            | some bs =>
              let r := copyLoop f isize size c (u64 (offset + csz)) (size - csz) bs
              (r.1, r.2.1, f.setCursor h r.2.2)

/-! ## Writing -/

/-- The gap-filling loop of the extending branch: `none` while it has not ended
after `fuel` tests, `false` when an allocation fails. -/
def fillGap (offset : Nat) : Nat → TreeInode → BlockStore → Option (Bool × TreeInode × BlockStore)
  | 0, _, _ => none
  | fuel + 1, ino, s =>
    if sub32 (u32 (ino.iSize + blockSize)) (ino.iSize % blockSize) < offset then
      match allocBlock ino s with
      | (none, ino, s) => some (false, ino, s)
      | (some _, ino, s) =>
        fillGap offset fuel
          { ino with iSize := u32 (ino.iSize + (blockSize - ino.iSize % blockSize)) } s
    else some (true, ino, s)

/-- The block that starts at an aligned `i_size`. -/
def allocAligned (ino : TreeInode) (s : BlockStore) : Bool × TreeInode × BlockStore :=
  if ino.iSize % blockSize = 0 then
    match allocBlock ino s with
    | (none, ino, s) => (false, ino, s)
    | (some _, ino, s) => (true, ino, s)
  else (true, ino, s)

def File.growTo (f : File) (offset : Nat) : File :=
  { f with ino := { f.ino with iSize := u32 (max f.ino.iSize offset) } }

/-- The loop of the extending branch: `ret` bytes are written, `buf` is left. -/
def extendLoop : Nat → File → Cursor → Nat → Nat → List UInt8 → Int × File × Cursor
  | 0, f, c, _, ret, _ => (toInt32 ret, f.updAll, { c with cacheUpdateFlag := true })
  | fuel + 1, f, c, offset, ret, buf =>
    if buf.length = 0 then (toInt32 ret, f.updAll, { c with cacheUpdateFlag := true })
    else
      let csz := min buf.length blockSize
      match (if f.ino.iSize ≤ offset then allocBlock f.ino f.store else (some 0, f.ino,
        f.store)) with
      | (none, ino, s) => (toInt32 ret, { f with ino := ino, store := s }, c)
      | (some _, ino, s) =>
        let f := { f with ino := ino, store := s }
        match nextBlock f.ino f.store c with
        | (err, c) =>
          if err ≠ 0 then (-eio, f, c)
          else
            match f.putBytes c.blockId 0 (buf.take csz) with
            | none => (-eio, f, c)
            | some f =>
              let offset := u64 (offset + csz)
              extendLoop fuel (f.growTo offset) c offset (ret + csz) (buf.drop csz)

/-- `i_size` takes the multiples of 4096 below 2^32 in turn: a gap loop that
ends does so within this many tests. -/
def gapFuel : Nat := 2 ^ 20 + 2

/-- The allocations of the extending branch before its first chunk. -/
def allocBefore (offset : Nat) (ino : TreeInode) (s : BlockStore) :
    Option (Bool × TreeInode × BlockStore) :=
  match fillGap offset gapFuel ino s with
  | none => none
  | some (false, ino, s) => some (false, ino, s)
  | some (true, ino, s) => some (allocAligned ino s)

/-- The section of `FileStatus::write` under the exclusive inode lock, after the
re-read of `i_size`; the last component is the handle's cursor. -/
def writeExtend (f : File) (c : Cursor) (buf : List UInt8) (offset : Nat) :
    Option (Int × File × Cursor) :=
  match allocBefore offset f.ino f.store with
  | none => none
  | some (false, ino, s) => some (0, { f with ino := ino, store := s }, c)
  | some (true, ino, s) =>
    let f := { f with ino := ino, store := s }
    match seek f.ino f.store c (u32 (offset / blockSize)) with
    | (err, c) =>
      if err ≠ 0 then some (err, f, c)
      else
        let csz := min buf.length (blockSize - offset % blockSize)
        match f.putBytes c.blockId (offset % blockSize) (buf.take csz) with
        | none => some (-einval, f, c)
        | some f =>
          let offset := u64 (offset + csz)
          some (extendLoop buf.length (f.growTo offset) c offset csz (buf.drop csz))

/-- The loop of the in-place branch. -/
def overwriteLoop (isize : Nat) : Nat → File → Cursor → Nat → Nat → List UInt8 → Int × File × Cursor
  | 0, f, c, _, ret, _ => (toInt32 ret, f, c)
  | fuel + 1, f, c, offset, ret, buf =>
    if buf.length = 0 then (toInt32 ret, f, c)
    else if isize ≤ offset then (toInt32 ret, f, c)
    else
      let csz := min buf.length blockSize
      match nextBlock f.ino f.store c with
      | (err, c) =>
        if err ≠ 0 then (err, f, c)
        else
          match f.putBytes c.blockId 0 (buf.take csz) with
          | none => (-einval, f, c)
          | some f => overwriteLoop isize fuel f c (u64 (offset + csz)) (ret + csz) (buf.drop csz)

def writeInPlace (f : File) (c : Cursor) (buf : List UInt8) (offset : Nat) : Int × File × Cursor :=
  match seek f.ino f.store c (u32 (offset / blockSize)) with
  | (err, c) =>
    if err ≠ 0 then (err, f, c)
    else
      let csz := min buf.length (blockSize - offset % blockSize)
      match f.putBytes c.blockId (offset % blockSize) (buf.take csz) with
      | none => (-einval, f, c)
      | some f => overwriteLoop f.ino.iSize buf.length f c (u64 (offset + csz)) csz (buf.drop csz)

/-- `FileStatus::write` through handle `h`; `none` when it does not return. -/
def write (f : File) (h : Nat) (buf : List UInt8) (offset : Nat) (append : Bool) :
    Option (Int × File) :=
  match updCache f.ino f.store (f.cursor h) with
  | (err, c) =>
    if err ≠ 0 then some (err, f.setCursor h c)
    else
      let offset := if append then f.ino.iSize else offset
      if f.ino.iSize < u64 (offset + buf.length) then
        match writeExtend f c buf offset with
        | none => none
        | some (r, f', c) => some (r, f'.setCursor h c)
      else
        let r := writeInPlace f c buf offset
        some (r.1, r.2.1.setCursor h r.2.2)

end NaiveFS
