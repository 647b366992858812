import NaiveFS.BlockGroups

/-!
# The nodes of the dentry cache

`DentryCache` of `src/cache.cpp` with its nodes in memory: the children of a node
form a circular list that is entered at `childs_`. An address without a node is
freed or was never allocated; reading through it, or through a null pointer, has no
result.
-/

namespace NaiveFS

/-- `DentryCache::Node`. -/
structure RingNode where
  inode : Nat
  nameLen : Nat
  childs : Option Nat
  next : Option Nat
  name : List UInt8

/-- `strncmp(a, b, n) == 0`; bytes past the end are 0. -/
def strncmpEq : Nat → List UInt8 → List UInt8 → Bool
  | 0, _, _ => true
  | n + 1, a, b => a.headD 0 == b.headD 0 && (a.headD 0 == 0 || strncmpEq n a.tail b.tail)

/-- `strncpy(dst, src, n)` into a zeroed buffer. -/
def strncpy : Nat → List UInt8 → List UInt8
  | 0, _ => []
  | n + 1, src => if src.headD 0 = 0 then List.replicate (n + 1) 0 else
    src.headD 0 :: strncpy n src.tail

/-- The test of the loops: `name_len_` is a byte. -/
def RingNode.hasName (name : List UInt8) (n : RingNode) : Bool :=
  n.nameLen == name.length && strncmpEq name.length n.name name

/-- The node that `alloc_new_node` makes. -/
def RingNode.make (name : List UInt8) (inode : Nat) : RingNode where
  inode := inode
  nameLen := name.length % 256
  childs := none
  next := none
  name := strncpy name.length name

abbrev NodeHeap := Nat → Option RingNode

/-- The cache. `allocs` counts the nodes allocated so far: a loop over nodes, or a
nesting of calls, that ends does so within that many rounds. -/
structure DentryRing where
  heap : NodeHeap
  root : Nat
  allocs : Nat

namespace NodeHeap

def setChilds (h : NodeHeap) (a : Nat) (c : Option Nat) : NodeHeap :=
  Function.update h a ((h a).map fun n => { n with childs := c })

def setNext (h : NodeHeap) (a : Nat) (c : Option Nat) : NodeHeap :=
  Function.update h a ((h a).map fun n => { n with next := c })

def free (h : NodeHeap) (a : Nat) : NodeHeap := Function.update h a none

/-- The loop of `lookup`: the child with this name, or `none` once the loop has
come back to `start`. -/
def lookupLoop (h : NodeHeap) (name : List UInt8) (start : Nat) : Nat → Nat → Option (Option Nat)
  | 0, _ => none
  | fuel + 1, ptr =>
    match h ptr with
    | none => none
    | some n =>
      if n.hasName name then some (some ptr)
      else
        match n.next with
        | none => none
        | some ptr => if ptr = start then some none else lookupLoop h name start fuel ptr

/-- The loop of `remove`: the child with this name and the node visited before it. -/
def removeLoop (h : NodeHeap) (name : List UInt8) (start : Nat) :
    Nat → Nat → Nat → Option (Option (Nat × Nat))
  | 0, _, _ => none
  | fuel + 1, prev, ptr =>
    match h ptr with
    | none => none
    | some n =>
      if n.hasName name then some (some (prev, ptr))
      else
        match n.next with
        | none => none
        | some next => if next = start then some none else removeLoop h name start fuel ptr next

/-- The loop of `release_node`, over the recursive call. -/
def releaseLoop (release : NodeHeap → Nat → Option NodeHeap) (parent : Nat) :
    Nat → NodeHeap → Nat → Option NodeHeap
  | 0, _, _ => none
  | fuel + 1, h, ptr =>
    match h ptr with
    | none => none
    | some n =>
      match n.next, release h ptr with
      | some next, some h =>
        let h := h.free ptr
        match h parent with
        | none => none
        | some p => if p.childs = some next then some h else releaseLoop release parent fuel h next
      | _, _ => none

/-- `release_node`: everything below `parent` is freed. -/
def releaseNode (rounds : Nat) : Nat → NodeHeap → Nat → Option NodeHeap
  | 0, _, _ => none
  | fuel + 1, h, parent =>
    match h parent with
    | none => none
    | some p =>
      match p.childs with
      | none => some h
      | some c => releaseLoop (releaseNode rounds fuel) parent rounds h c

end NodeHeap

namespace DentryRing

open NodeHeap

/-- The constructor of `DentryCache`: the root is the node for "/". -/
def init (root : Nat) : DentryRing where
  heap := Function.update (fun _ => none) root (some (RingNode.make [47] rootInode))
  root := root
  allocs := 1

/-- `insert`, with the address that `calloc` returns. -/
def insert (addr : Nat) (parent : Option Nat) (name : List UInt8) (inode : Nat) (s : DentryRing) :
    Option (Nat × DentryRing) :=
  let parent := parent.getD s.root
  let h : NodeHeap := Function.update s.heap addr (some (RingNode.make name inode))
  match h parent with
  | none => none
  | some p =>
    match p.childs with
    | none =>
      let h := (h.setNext addr (some addr)).setChilds parent (some addr)
      some (addr, { s with heap := h, allocs := s.allocs + 1 })
    | some c =>
      match h c with
      | none => none
      | some first =>
        let h := ((h.setNext addr first.next).setNext c (some addr)).setChilds parent (some addr)
        some (addr, { s with heap := h, allocs := s.allocs + 1 })

def lookup (parent : Option Nat) (name : List UInt8) (s : DentryRing) :
    Option (Option Nat × DentryRing) :=
  let parent := parent.getD s.root
  if name.length = 0 then some (none, s)
  else
    match s.heap parent with
    | none => none
    | some p =>
      match p.childs with
      | none => some (none, s)
      | some c =>
        match s.heap.lookupLoop name c s.allocs c with
        | none => none
        | some none => some (none, s)
        | some (some ptr) => some (some ptr, { s with heap := s.heap.setChilds parent (some ptr) })

/-- `remove`. When the child is the first one the loop comes to, `prev` is the child itself. -/
def remove (parent : Option Nat) (name : List UInt8) (s : DentryRing) : Option DentryRing :=
  let parent := parent.getD s.root
  match s.heap parent with
  | none => none
  | some p =>
    match p.childs with
    | none => some s
    | some c =>
      match (s.heap c).bind RingNode.next with
      | none => none
      | some start =>
        match s.heap.removeLoop name start s.allocs start start with
        | none => none
        | some none => some s
        | some (some (prev, ptr)) =>
          match s.heap ptr with
          | none => none
          | some n =>
            let h := s.heap.setChilds parent (if n.next = some ptr then none else n.next)
            let h := h.setNext prev n.next
            (releaseNode s.allocs s.allocs h ptr).map fun h => { s with heap := h.free ptr }

end DentryRing

inductive RingOp where
  | insert (addr : Nat) (parent : Option Nat) (name : List UInt8) (inode : Nat)
  | lookup (parent : Option Nat) (name : List UInt8)
  | remove (parent : Option Nat) (name : List UInt8)

def RingOp.exec : RingOp → DentryRing → Option DentryRing
  | .insert addr parent name inode, s => (s.insert addr parent name inode).map Prod.snd
  | .lookup parent name, s => (s.lookup parent name).map Prod.snd
  | .remove parent name, s => s.remove parent name

end NaiveFS
