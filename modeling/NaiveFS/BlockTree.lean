import NaiveFS.Common

/-!
# The block tree of an inode

`FileSystem::alloc_block(Block**, uint32_t*, ext2_inode*)` appends a block to a
file through direct, single, double and triple indirect pointers;
`visit_inode_blocks` walks the same tree. Both are written over a `BlockLayer`,
the operations of `FileSystem` and `BlockCache` they use, so that the same code
runs over the eviction-free store below and over the write-back cache.
-/

namespace NaiveFS

/-- What the tree code reads blocks with. A `Block*` is represented by the block's
index: `getBlock` returns the bytes the pointer shows at that moment, and `peek` is
what a later read through the pointer does to the layer. -/
class BlockReader (σ : Type) where
  getBlock : Nat → Bool → σ → Option Block × σ
  peek : Nat → σ → σ := fun _ s => s

/-- The block operations under the tree code: `poke` stores through a pointer,
`modify` is `block_cache_->modify`. -/
class BlockLayer (σ : Type) extends BlockReader σ where
  allocRaw : σ → Option Nat × σ
  poke : Nat → (Block → Block) → σ → σ
  modify : Nat → σ → σ

open BlockReader BlockLayer

abbrev TreeInode := Inode (Nat → Nat)

/-- A new inode: zeroed by `BlockGroup::alloc_inode`, then `inode_init`. -/
def Inode.init (mode : Nat) : TreeInode where
  iMode := mode
  iUid := 0
  iGid := 0
  iSize := 0
  iLinksCount := 1
  iBlocks := 0
  iBlock _ := 0

def Inode.setBlock (ino : TreeInode) (slot index : Nat) : TreeInode :=
  { ino with iBlock := Function.update ino.iBlock slot index }

section
variable {σ : Type} [BlockLayer σ]

/-! ## Allocation -/

/-- The root of an indirect level: allocated for the level's first block,
fetched otherwise. -/
def openRoot (slot : Nat) (first : Bool) (ino : TreeInode) (s : σ) :
    Option (Nat × Block) × TreeInode × σ :=
  if first then
    match allocRaw s with
    | (none, s) => (none, ino, s)
    | (some i, s) => (some (i, Bytes.zero), ino.setBlock slot i, s)
  else
    match getBlock (ino.iBlock slot) false s with
    | (none, s) => (none, ino, s)
    | (some b, s) => (some (ino.iBlock slot, b), ino, s)

/-- Store pointer `v` in word `k` of block `i` and mark block `mark` dirty. -/
def pokeWord (i k v mark : Nat) (s : σ) : σ := modify mark (poke i (fun b => b.setWord k v) s)

def mapInd (n blockIndex : Nat) (ino : TreeInode) (s : σ) : Bool × TreeInode × σ :=
  match openRoot indBlock (n == maxDirBlocks) ino s with
  | (none, ino, s) => (false, ino, s)
  | (some (ind, _), ino, s) =>
    (true, ino, pokeWord ind (n - maxDirBlocks) blockIndex (ino.iBlock indBlock) s)

def mapDind (n blockIndex : Nat) (ino : TreeInode) (s : σ) : Bool × TreeInode × σ :=
  match openRoot dindBlock (n == maxDirBlocks + maxIndBlocks) ino s with
  | (none, ino, s) => (false, ino, s)
  | (some (ind, indBytes), ino, s) =>
    let numIndirects := (n - maxDirBlocks - 1) / numIndirectBlocks
    let innerIndex := (n - maxDirBlocks - maxIndBlocks) % numIndirectBlocks
    if innerIndex = 0 then
      match allocRaw s with
      | (none, s) => (false, ino, s)
      | (some dbl, s) =>
        let s := pokeWord ind numIndirects dbl (ino.iBlock dindBlock) s
        (true, ino, pokeWord dbl 0 blockIndex dbl s)
    else
      let dbl := indBytes.word (numIndirects - 1)
      match getBlock dbl false s with
      | (none, s) => (false, ino, s)
      | (some _, s) => (true, ino, pokeWord dbl innerIndex blockIndex dbl s)

/-- The triple indirect branch. A new double indirect block is linked from the
root at `i_block[EXT2_TIND_BLOCK]`, but the code marks
`i_block[EXT2_DIND_BLOCK]` dirty. -/
def mapTind (n blockIndex : Nat) (ino : TreeInode) (s : σ) : Bool × TreeInode × σ :=
  match openRoot tindBlock (n == maxDirBlocks + maxIndBlocks + maxDindBlocks) ino s with
  | (none, ino, s) => (false, ino, s)
  | (some (ind, indBytes), ino, s) =>
    let numIndirects := (n - maxDirBlocks - maxIndBlocks - 1) / maxDindBlocks
    let innerIndex := (n - maxDirBlocks - maxIndBlocks - maxDindBlocks) % maxDindBlocks
    if innerIndex = 0 then
      match allocRaw s with
      | (none, s) => (false, ino, s)
      | (some dbl, s) =>
        match allocRaw s with
        | (none, s) => (false, ino, s)
        | (some tpl, s) =>
          let s := pokeWord ind numIndirects dbl (ino.iBlock dindBlock) s
          let s := pokeWord dbl 0 tpl dbl s
          (true, ino, pokeWord tpl 0 blockIndex tpl s)
    else
      let dbl := indBytes.word (numIndirects - 1)
      match getBlock dbl false s with
      | (none, s) => (false, ino, s)
      | (some dblBytes, s) =>
        let numDoubleIndirects := (innerIndex + maxIndBlocks - 1) / maxIndBlocks
        let doubleInnerIndex := innerIndex % maxIndBlocks
        if doubleInnerIndex = 0 then
          match allocRaw s with
          | (none, s) => (false, ino, s)
          | (some tpl, s) =>
            let s := pokeWord dbl numDoubleIndirects tpl dbl s
            (true, ino, pokeWord tpl 0 blockIndex tpl s)
        else
          let tpl := dblBytes.word (numDoubleIndirects - 1)
          match getBlock tpl false s with
          | (none, s) => (false, ino, s)
          | (some _, s) => (true, ino, pokeWord tpl doubleInnerIndex blockIndex tpl s)

def mapBlock (n blockIndex : Nat) (ino : TreeInode) (s : σ) : Bool × TreeInode × σ :=
  if n < maxDirBlocks then (true, ino.setBlock n blockIndex, s)
  else if n < maxDirBlocks + maxIndBlocks then mapInd n blockIndex ino s
  else if n < maxDirBlocks + maxIndBlocks + maxDindBlocks then mapDind n blockIndex ino s
  else mapTind n blockIndex ino s

/-- `FileSystem::alloc_block(Block**, uint32_t*, ext2_inode*)`: the index of the
new block, or `none` where the code returns false. -/
def allocBlock (ino : TreeInode) (s : σ) : Option Nat × TreeInode × σ :=
  match allocRaw s with
  | (none, s) => (none, ino, s)
  | (some blockIndex, s) =>
    match mapBlock (numAlignedBlocks ino.iBlocks) blockIndex ino s with
    | (false, ino, s) => (none, ino, s)
    | (true, ino, s) =>
      (some blockIndex, { ino with iBlocks := u32 (ino.iBlocks + 2 <<< logBlockSize) }, s)

/-! ## Visiting -/

end

section
variable {σ α : Type} [BlockReader σ]

/-- `BlockVisitor` over captured state `α`: `true` asks to stop. -/
abbrev Visitor (σ α : Type) := Nat → Block → α × σ → Bool × α × σ

/-- The loop of `visit_indirect_blocks`: entries `k, k + 1, …` of the indirect
block `p`, at most `left` of them before its end and none from `num` on. -/
def visitEntries (visitor : Visitor σ α) (p : Nat) (ind : Block) (num : Nat) :
    Nat → Nat → α × σ → Bool × α × σ
  | 0, _, st => (true, st)
  | left + 1, k, (a, s) =>
    if k < num then
      match getBlock (ind.word k) false (peek p s) with
      | (none, s) => (false, a, s)
      | (some b, s) =>
        match visitor (ind.word k) b (a, s) with
        | (true, st) => (true, st)
        | (false, st) => visitEntries visitor p ind num left (k + 1) st
    else (true, a, s)

def visitIndirectBlocks (visitor : Visitor σ α) (p : Nat) (ind : Block) (num : Nat) (st : α × σ) :
    Bool × α × σ :=
  visitEntries visitor p ind num numIndirectBlocks 0 st

/-- `indirect_visitor`: `curr_num` is captured by reference. -/
def indirectVisitor (visitor : Visitor σ α) (numBlocks : Nat) : Visitor σ (Nat × α) :=
  fun i b ((currNum, a), s) =>
    let r := visitIndirectBlocks visitor i b (numBlocks - currNum) (a, s)
    (false, (currNum + min (numBlocks - currNum) numIndirectBlocks, r.2.1), r.2.2)

def doubleIndirectVisitor (visitor : Visitor σ α) (numBlocks : Nat) : Visitor σ (Nat × α) :=
  fun i b ((currNum, a), s) =>
    let r := visitIndirectBlocks (indirectVisitor visitor numBlocks) i b (numBlocks - currNum)
      ((currNum, a), s)
    (false, r.2)

/-- The direct blocks from `i` on, at most `left` of them; `true` when the walk
is over (stopped, finished or failed). -/
def visitDirect (visitor : Visitor σ α) (ino : TreeInode) (numBlocks : Nat) :
    Nat → Nat → α × σ → Bool × α × σ
  | 0, _, st => (false, st)
  | left + 1, i, (a, s) =>
    match getBlock (ino.iBlock i) false s with
    | (none, s) => (true, a, s)
    | (some b, s) =>
      match visitor (ino.iBlock i) b (a, s) with
      | (true, st) => (true, st)
      | (false, st) => if i + 1 = numBlocks then (true, st) else
        visitDirect visitor ino numBlocks left (i + 1) st

def visitTind (visitor : Visitor σ α) (ino : TreeInode) (numBlocks currNum : Nat) (a : α) (s : σ) :
    α × σ :=
  match getBlock (ino.iBlock tindBlock) false s with
  | (none, s) => (a, s)
  | (some ind, s) =>
    let numIndirects := ((numBlocks - currNum) + maxDindBlocks - 1) / maxDindBlocks
    let r := visitIndirectBlocks (doubleIndirectVisitor visitor numBlocks) (ino.iBlock tindBlock)
      ind numIndirects
      ((currNum, a), s)
    (r.2.1.2, r.2.2)

def visitDind (visitor : Visitor σ α) (ino : TreeInode) (numBlocks currNum : Nat) (a : α) (s : σ) :
    α × σ :=
  match getBlock (ino.iBlock dindBlock) false s with
  | (none, s) => (a, s)
  | (some ind, s) =>
    let numIndirects := ((numBlocks - currNum) + numIndirectBlocks - 1) / numIndirectBlocks
    match visitIndirectBlocks (indirectVisitor visitor numBlocks) (ino.iBlock dindBlock) ind
      numIndirects
      ((currNum, a), s) with
    | (false, (_, a), s) => (a, s)
    | (true, (currNum, a), s) =>
      if currNum = numBlocks then (a, s) else visitTind visitor ino numBlocks currNum a s

def visitInd (visitor : Visitor σ α) (ino : TreeInode) (numBlocks currNum : Nat) (a : α) (s : σ) :
    α × σ :=
  match getBlock (ino.iBlock indBlock) false s with
  | (none, s) => (a, s)
  | (some ind, s) =>
    match visitIndirectBlocks visitor (ino.iBlock indBlock) ind (numBlocks - currNum) (a, s) with
    | (false, a, s) => (a, s)
    | (true, a, s) =>
      let currNum := currNum + min (numBlocks - currNum) maxIndBlocks
      if currNum = numBlocks then (a, s) else visitDind visitor ino numBlocks currNum a s

def visitInodeBlocks (visitor : Visitor σ α) (ino : TreeInode) (a : α) (s : σ) : α × σ :=
  let numBlocks := numAlignedBlocks ino.iBlocks
  if numBlocks = 0 then (a, s)
  else
    match visitDirect visitor ino numBlocks ndirBlocks 0 (a, s) with
    | (true, st) => st
    | (false, a, s) => visitInd visitor ino numBlocks maxDirBlocks a s

end

end NaiveFS
