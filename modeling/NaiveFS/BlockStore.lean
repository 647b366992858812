import NaiveFS.BlockTree

/-!
# The eviction-free block store

The block layer without cache and disk: an allocated block keeps its bytes in
memory for good, and the raw `alloc_block` hands out the indices of `free`, in
that order, each with a zeroed block. Nothing here frees blocks, so a list of
upcoming allocations stands for any allocator that returns fresh blocks.
-/

namespace NaiveFS

structure BlockStore where
  data : Nat → Option Block
  free : List Nat
  nodup : free.Nodup
  fresh : ∀ i ∈ free, data i = none
  lt : ∀ i ∈ free, i < 2 ^ 32

namespace BlockStore

def blank (free : List Nat) (nodup : free.Nodup) (lt : ∀ i ∈ free, i < 2 ^ 32) : BlockStore where
  data _ := none
  free := free
  nodup := nodup
  fresh _ _ := rfl
  lt := lt

/-- A store with no free block. -/
def full (data : Nat → Option Block) : BlockStore where
  data := data
  free := []
  nodup := List.nodup_nil
  fresh := by simp
  lt := by simp

/-- The store after the head of `free` has been handed out. -/
def allocHead (s : BlockStore) : BlockStore where
  data j := if s.free.head? = some j then some Bytes.zero else s.data j
  free := s.free.tail
  nodup := s.nodup.sublist (List.tail_sublist _)
  fresh i hi := by
    have hne : s.free.head? ≠ some i := by
      intro h
      have hn := s.nodup
      cases hf : s.free with
      | nil => rw [hf] at h; cases h
      | cons j l =>
        rw [hf] at h hi hn
        cases h
        exact (List.nodup_cons.mp hn).1 hi
    rw [if_neg hne]
    exact s.fresh i (List.mem_of_mem_tail hi)
  lt i hi := s.lt i (List.mem_of_mem_tail hi)

/-- Store through the pointer to block `i`. -/
def poke (i : Nat) (f : Block → Block) (s : BlockStore) : BlockStore where
  data j := if j = i then (s.data j).map f else s.data j
  free := s.free
  nodup := s.nodup
  fresh j hj := by
    have := s.fresh j hj
    split <;> simp [this]
  lt := s.lt

/-- The 32-bit word `off` of block `id`. -/
def ptr (s : BlockStore) (id off : Nat) : Option Nat := (s.data id).map fun b => b.word off

end BlockStore

instance : BlockLayer BlockStore where
  getBlock i _ s := (s.data i, s)
  allocRaw s := (s.free.head?, s.allocHead)
  poke := BlockStore.poke
  modify _ s := s

open BlockReader BlockLayer

namespace BlockStore

@[simp] theorem getBlock_eq (i : Nat) (d : Bool) (s : BlockStore) :
    getBlock i d s = (s.data i, s) := rfl

@[simp] theorem peek_eq (p : Nat) (s : BlockStore) : peek p s = s := rfl

@[simp] theorem allocRaw_eq (s : BlockStore) : allocRaw s = (s.free.head?, s.allocHead) := rfl

@[simp] theorem pokeWord_eq (i k v mark : Nat) (s : BlockStore) :
    pokeWord i k v mark s = s.poke i fun b => b.setWord k v := rfl

@[simp] theorem poke_free (i : Nat) (f : Block → Block) (s : BlockStore) :
    (s.poke i f).free = s.free := rfl

@[simp] theorem allocHead_free (s : BlockStore) : s.allocHead.free = s.free.tail := rfl

theorem poke_data (i : Nat) (f : Block → Block) (s : BlockStore) (j : Nat) :
    (s.poke i f).data j = if j = i then (s.data j).map f else s.data j := rfl

@[simp] theorem poke_data_self (i : Nat) (f : Block → Block) (s : BlockStore) :
    (s.poke i f).data i = (s.data i).map f := by simp [poke_data]

theorem poke_data_ne {i j : Nat} (f : Block → Block) (s : BlockStore) (h : j ≠ i) :
    (s.poke i f).data j = s.data j := by simp [poke_data, h]

theorem poke_isSome (i : Nat) (f : Block → Block) (s : BlockStore) (j : Nat) :
    ((s.poke i f).data j).isSome = (s.data j).isSome := by
  rw [poke_data]; split <;> simp

theorem allocHead_data {s : BlockStore} {i : Nat} (h : s.free.head? = some i) :
    s.allocHead.data = Function.update s.data i (some Bytes.zero) := by
  funext j
  by_cases hj : j = i
  · subst hj; simp [allocHead, h]
  · simp [allocHead, h, hj, Ne.symm hj]

theorem head_free {s : BlockStore} {i : Nat} (h : s.free.head? = some i) :
    s.data i = none ∧ i < 2 ^ 32 :=
  ⟨s.fresh i (List.mem_of_head? h), s.lt i (List.mem_of_head? h)⟩

end BlockStore

end NaiveFS
