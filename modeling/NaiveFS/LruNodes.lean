import NaiveFS.PageStore

/-!
# The nodes of the block cache

`BlockCache` of `src/cache.cpp` with its nodes in memory: the hash map from block
numbers to nodes, the list between the sentinels `head_` and `tail_`, and the pool
of entries that are not in use.
-/

namespace NaiveFS

/-- A `Node*`. -/
inductive NodeRef where
  | null
  | head
  | tail
  | entry (i : Nat)
  deriving DecidableEq

/-- A `Block*`, with the block behind it. -/
structure BlockRef where
  id : Nat
  offset : Nat
  bytes : Block

/-- `BlockCache::Node`. -/
structure LruNode where
  dirty : Bool
  index : Nat
  block : BlockRef
  prev : NodeRef
  next : NodeRef

/-- The node after a store to its block. -/
def LruNode.poked (n : LruNode) (f : Block → Block) :
    LruNode := { n with block := { n.block with bytes := f n.block.bytes } }

abbrev LruHeap := NodeRef → LruNode

/-- `map_` is iterated over in the order of the list; `free` is `free_entries_`, its
back first. -/
structure LruCache where
  heap : LruHeap
  map : List (Nat × NodeRef)
  free : List NodeRef
  disk : Disk

namespace LruHeap

def setNext (h : LruHeap) (r q : NodeRef) : LruHeap := Function.update h r { h r with next := q }

def setPrev (h : LruHeap) (r q : NodeRef) : LruHeap := Function.update h r { h r with prev := q }

def detach (h : LruHeap) (n : NodeRef) : LruHeap :=
  let h := setNext h (h n).prev (h n).next
  setPrev h (h n).next (h n).prev

def attach (h : LruHeap) (n : NodeRef) : LruHeap :=
  let h := setPrev h n .head
  let h := setNext h n (h .head).next
  let h := setNext h .head n
  setPrev h (h n).next n

end LruHeap

namespace LruCache

def init (size : Nat) (disk : Disk) : LruCache where
  heap r := { dirty := false, index := 0, block := ⟨0, 0, Bytes.zero⟩
              prev := if r = .tail then .head else .null
              next := if r = .head then .tail else .null }
  map := []
  free := ((List.range size).map NodeRef.entry).reverse
  disk := disk

def find (c : LruCache) (i : Nat) : Option NodeRef := (c.map.find? fun e => e.1 = i).map Prod.snd

def erase (c : LruCache) (i : Nat) : LruCache := { c with map := c.map.filter fun e => e.1 ≠ i }

def writeBack (n : LruNode) (disk : Disk) : Disk :=
  if n.dirty then disk.flush n.block.offset n.block.bytes else disk

def release (c : LruCache) (n : NodeRef) : LruCache :=
  { c with disk := writeBack (c.heap n) c.disk, free := n :: c.free }

/-- The entry before `tail_` is put back into the pool. -/
def evict (c : LruCache) : LruCache :=
  let n := (c.heap .tail).prev
  let c := { c with heap := c.heap.detach n }
  let c := c.release n
  c.erase (c.heap n).index

def insert (c : LruCache) (i : Nat) (b : BlockRef) (dirty : Bool) : LruCache :=
  match c.find i with
  | none =>
    let c := if c.free = [] then c.evict else c
    match c.free with
    | [] => c
    | n :: free =>
      let h := Function.update c.heap n { c.heap n with index := i, block := b, dirty := dirty }
      { c with heap := LruHeap.attach h n, map := (i, n) :: c.map, free := free }
  | some n =>
    let h := Function.update c.heap n { c.heap n with dirty := (c.heap n).dirty || dirty }
    { c with heap := LruHeap.attach (LruHeap.detach h n) n }

def get (c : LruCache) (i : Nat) (dirty : Bool) : Option BlockRef × LruCache :=
  match c.find i with
  | none => (none, c)
  | some n =>
    let h := LruHeap.attach (LruHeap.detach c.heap n) n
    let h := Function.update h n { h n with dirty := (h n).dirty || dirty }
    (some (h n).block, { c with heap := h })

def remove (c : LruCache) (i : Nat) : LruCache :=
  match c.find i with
  | none => c
  | some n =>
    let c := { c with heap := c.heap.detach n }
    let c := c.release n
    c.erase (c.heap n).index

def modify (c : LruCache) (i : Nat) : LruCache :=
  match c.find i with
  | none => c
  | some n => { c with heap := Function.update c.heap n { c.heap n with dirty := true } }

/-- One round of the loops of `flush`. -/
def flushNode (c : LruCache) (n : NodeRef) : LruCache :=
  { c with
    disk := writeBack (c.heap n) c.disk
    heap := Function.update c.heap n { c.heap n with dirty := false } }

def flush (c : LruCache) : LruCache := c.map.foldl (fun c e => c.flushNode e.2) c

def flushIndex (c : LruCache) (i : Nat) : LruCache :=
  c.map.foldl (fun c e => if (c.heap e.2).index = i then c.flushNode e.2 else c) c

/-- A caller stores through the pointer to a cached block. -/
def poke (c : LruCache) (i : Nat) (f : Block → Block) : LruCache :=
  match c.find i with
  | none => c
  | some n => { c with heap := Function.update c.heap n ((c.heap n).poked f) }

/-- A caller that has not asked for a dirty block marks it when it has stored. -/
def store (c : LruCache) (i : Nat) (f : Block → Block) : LruCache := (c.poke i f).modify i

end LruCache

inductive CacheOp where
  | insert (i : Nat) (b : BlockRef) (dirty : Bool)
  | get (i : Nat) (dirty : Bool)
  | remove (i : Nat)
  | modify (i : Nat)
  | flush
  | flushIndex (i : Nat)
  | poke (i : Nat) (f : Block → Block)
  | store (i : Nat) (f : Block → Block)

namespace LruCache

def apply (c : LruCache) : CacheOp → LruCache
  | .insert i b dirty => c.insert i b dirty
  | .get i dirty => (c.get i dirty).2
  | .remove i => c.remove i
  | .modify i => c.modify i
  | .flush => c.flush
  | .flushIndex i => c.flushIndex i
  | .poke i f => c.poke i f
  | .store i f => c.store i f

end LruCache

end NaiveFS
