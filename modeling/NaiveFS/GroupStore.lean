import NaiveFS.AllocSound
import NaiveFS.LayerRules
import NaiveFS.TreeSound

/-!
# The block store over the block groups

The eviction-free block layer with the allocator of `FileSystem` under it. While
there are at most 32 block groups it goes in step with a `BlockStore` whose free
list is what the allocator is going to hand out, so the tree code does over the
groups what it does over fresh blocks (`allocBlock_grown`).
-/

namespace NaiveFS

open BlockLayer PointerTree

/-- The groups and the bytes of the blocks in memory. -/
structure GroupStore where
  groups : Groups
  bytes : Nat → Block

namespace GroupStore

/-- `get_block`. Without a remount every group is in memory. -/
def data (s : GroupStore) (i : Nat) : Option Block :=
  if s.groups.allocated .block i then some (s.bytes i) else none

/-- The raw `alloc_block`: the new block is zeroed. -/
def allocRaw (s : GroupStore) : Option Nat × GroupStore :=
  match s.groups.allocBlock with
  | (none, g) => (none, { s with groups := g })
  | (some i, g) => (some i, { groups := g, bytes := Function.update s.bytes i Bytes.zero })

def poke (i : Nat) (f : Block → Block) (s : GroupStore) : GroupStore :=
  { s with bytes := Function.update s.bytes i (f (s.bytes i)) }

end GroupStore

instance : BlockLayer GroupStore where
  getBlock i _ s := (s.data i, s)
  allocRaw := GroupStore.allocRaw
  poke := GroupStore.poke
  modify _ s := s

namespace GroupStore

variable {s s' : GroupStore} {g : Groups} {ino : TreeInode} {n : Nat} {loc : Pos → Nat}

theorem allocRaw_groups (s : GroupStore) : s.allocRaw.2.groups = (s.groups.alloc .block).2 := by
  unfold allocRaw
  rw [FS.allocBlock_eq]
  cases (s.groups.alloc .block).1 <;> rfl

theorem data_eq_none {i : Nat} : s.data i = none ↔ s.groups.allocated .block i = false := by
  unfold data
  split <;> simp_all

theorem data_isSome {i : Nat} : (s.data i).isSome ↔ s.groups.allocated .block i = true := by
  unfold data
  split <;> simp_all

theorem poke_data (i : Nat) (f : Block → Block) (s : GroupStore) (j : Nat) :
    (s.poke i f).data j = if j = i then (s.data j).map f else s.data j := by
  by_cases hj : j = i
  · subst hj
    by_cases ha : s.groups.allocated .block j = true <;> simp [data, poke, ha]
  · simp [data, poke, hj]

/-! ## What the allocator is going to hand out -/

/-- The blocks of the coming allocations, up to the one that opens group 32. -/
def Upcoming : Groups → List Nat → Prop
  | _, [] => False
  | g, b :: l =>
    (g.alloc .block).2.groupCount ≤ 32 → g.allocBlock.1 = some b ∧ Upcoming (g.alloc .block).2 l

theorem exists_upcoming : ∀ (k : Nat) {g : Groups}, g.Books → 2 ^ 21 - g.super.sCount .block ≤ k →
    ∃ l, Upcoming g l ∧ l.Nodup ∧ ∀ b ∈ l, g.allocated .block b = false ∧ b < 2 ^ 32 := by
  intro k
  induction k with
  | zero =>
    intro g hg hk
    have := hg.ledger.count_le.1
    have := hg.le
    omega
  | succ k ih =>
    intro g hg hk
    by_cases hle : (g.alloc .block).2.groupCount ≤ 32
    · obtain ⟨b, heq, hout, hg'⟩ := hg.alloc .block (Nat.le_succ_of_le hle)
      have hcount := hout.count .block
      rw [if_pos rfl] at hcount
      obtain ⟨l, hl, hnd, hfree⟩ := ih hg' (by omega)
      refine ⟨b :: l, fun _ => ⟨?_, hl⟩, List.nodup_cons.mpr ⟨fun hb => ?_, hnd⟩, fun c hc => ?_⟩
      · rw [FS.allocBlock_eq, heq]
        rfl
      · have := (hfree b hb).1
        rw [hout.taken] at this
        cases this
      · rcases List.mem_cons.mp hc with rfl | hc
        · exact ⟨hout.free, hout.lt⟩
        · refine ⟨Bool.eq_false_iff.mpr fun ha => ?_, (hfree c hc).2⟩
          have := (hfree c hc).1
          rw [hout.keep ha] at this
          cases this
    · -- nothing is said about this allocation, and any block outside the groups will do
      refine ⟨[2 ^ 32 - 1], fun h => absurd h hle, List.nodup_singleton _, fun b hb => ?_⟩
      rw [List.mem_singleton] at hb
      subst hb
      refine ⟨Bool.eq_false_iff.mpr fun ha => ?_, by decide⟩
      have := hg.index_lt ha
      rw [perGroup_block] at this
      omega

/-- The two stores hold the same blocks and are about to allocate the same. -/
structure Follows (inodes : Nat → Bool) (s : GroupStore) (t : BlockStore) : Prop where
  books : s.groups.Books
  inode : ∀ j, s.groups.allocated .inode j = inodes j
  data : t.data = s.data
  free : Upcoming s.groups t.free

theorem exists_follows (h : s.groups.Books) :
    ∃ t, Follows (fun j => s.groups.allocated .inode j) s t := by
  obtain ⟨l, hl, hnd, hfree⟩ := exists_upcoming (2 ^ 21) h (Nat.sub_le ..)
  exact ⟨⟨s.data, l, hnd, fun i hi => data_eq_none.mpr (hfree i hi).1, fun i hi => (hfree i hi).2⟩,
    h, fun _ => rfl, rfl, hl⟩

theorem many_groups_inv : LayerInv fun s : GroupStore => 32 < s.groups.groupCount where
  get _ _ _ h := h
  alloc s h := by
    show 32 < s.allocRaw.2.groups.groupCount
    rw [allocRaw_groups]
    exact Nat.lt_of_lt_of_le h (Groups.alloc_groupCount .block s.groups)
  poke _ _ _ h := h
  modify _ _ h := h

theorem Follows.allocRaw {inodes : Nat → Bool} {t : BlockStore} (h : Follows inodes s t)
    (hle : (s.groups.alloc .block).2.groupCount ≤ 32) :
    s.allocRaw.1 = t.free.head? ∧ Follows inodes s.allocRaw.2 t.allocHead := by
  obtain ⟨b, heq, hout, hg'⟩ := h.books.alloc .block (Nat.le_succ_of_le hle)
  obtain ⟨l, hfree⟩ : ∃ l, t.free = b :: l := by
    have hup := h.free
    cases hl : t.free with
    | nil => simp [hl, Upcoming] at hup
    | cons c l =>
      rw [hl] at hup
      have hc := (hup hle).1
      rw [FS.allocBlock_eq, heq] at hc
      cases hc
      exact ⟨l, rfl⟩
  have hraw : s.allocRaw =
    (some b,
    { groups := (s.groups.alloc .block).2, bytes := Function.update s.bytes b Bytes.zero }) := by
    unfold GroupStore.allocRaw
    rw [FS.allocBlock_eq, heq]
    rfl
  rw [hraw, hfree]
  refine ⟨rfl, hg', fun j => (hout.other (by decide) j).trans (h.inode j), ?_, ?_⟩
  · rw [BlockStore.allocHead_data (by rw [hfree]; rfl), h.data]
    funext j
    by_cases hj : j = b
    · subst hj
      simp [GroupStore.data, hout.taken]
    · simp [GroupStore.data, hj, hout.after]
  · have hup := h.free
    rw [hfree] at hup
    rw [BlockStore.allocHead_free, hfree]
    exact (hup hle).2

theorem follows_sim (inodes : Nat → Bool) :
    LayerSim (fun s : GroupStore => 32 < s.groups.groupCount) (Follows inodes) where
  out := many_groups_inv
  get i _ s t h := ⟨(congrFun h.data i).symm, h⟩
  alloc s t h := by
    by_cases hle : (s.groups.alloc .block).2.groupCount ≤ 32
    · exact Or.inr (h.allocRaw hle)
    · left
      show 32 < s.allocRaw.2.groups.groupCount
      rw [allocRaw_groups]
      exact Nat.not_le.mp hle
  poke i f s t h := by
    refine ⟨h.books, h.inode, ?_, h.free⟩
    funext j
    show (t.poke i f).data j = (s.poke i f).data j
    rw [BlockStore.poke_data, poke_data, h.data]
  modify _ _ _ h := h

/-! ## Growing a file -/

/-- Distinct positions in allocated blocks: a file is not longer than the disk. -/
theorem tree_small (h : s.groups.Books) (t : PtrTree slotOf ino.iBlock s.data (Live n) loc) :
    n + 1 < 2 ^ 29 := by
  have hnd : ((List.range n).map fun k => loc (.data k)).Nodup := by
    apply List.Nodup.map_on _ List.nodup_range
    intro k hk k' hk' heq
    have := t.inj (.data k) (.data k') (List.mem_range.mp hk) (List.mem_range.mp hk') heq
    cases this
    rfl
  have hsub : ((List.range n).map fun k => loc (.data k)) ⊆ List.range (33 * perGroup .block) := by
    intro b hb
    obtain ⟨k, hk, rfl⟩ := List.mem_map.mp hb
    exact List.mem_range.mpr
      (h.index_lt (data_isSome.mp (t.alloc (.data k) (List.mem_range.mp hk))))
  have hlen := (List.subperm_of_subset hnd hsub).length_le
  rw [List.length_map, List.length_range, List.length_range, perGroup_block] at hlen
  omega

/-- `alloc_block` on a file of `n` blocks succeeds and does what it does over a
store of fresh blocks. -/
theorem allocBlock_grown (h : s.groups.Books)
    (tree : PtrTree slotOf ino.iBlock s.data (Live n) loc) (hb : ino.iBlocks = 8 * n)
    (hle : (allocBlock ino s).2.2.groups.groupCount ≤ 32) :
    ∃ i ino' s' loc' t t', allocBlock ino s = (some i, ino', s') ∧ s'.groups.Books ∧
      (∀ j, s'.groups.allocated .inode j = s.groups.allocated .inode j) ∧ t.data = s.data ∧
      t'.data = s'.data ∧ Grown t ino n loc i ino' t' loc' := by
  obtain ⟨t, ht⟩ := exists_follows h
  rcases (follows_sim _).allocBlock ino ht with hout | ⟨o, ino', s', t', hs, hst, ht'⟩
  · exact absurd hle (Nat.not_le.mpr hout)
  have tree' : Tree t ino n loc := by
    unfold Tree
    rwa [ht.data]
  obtain ⟨-, hnone, hsome⟩ := allocBlock_spec tree' hb (tree_small h tree) hst
  cases o with
  | none =>
    have := ht'.free
    simp [hnone rfl, Upcoming] at this
  | some i =>
    obtain ⟨loc', hg⟩ := hsome i rfl
    exact ⟨i, ino', s', loc', t, t', hs, ht'.books, ht'.inode, ht.data, ht'.data, hg⟩

end GroupStore

end NaiveFS
