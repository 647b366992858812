import NaiveFS.CacheSound
import NaiveFS.Lib.Lru

/-!
# The block cache over a disk

The cache, the disk and the places of the allocated blocks on it. What is seen of
a block is its bytes in the cache, or those on the disk when it is not there. The
operations keep clean nodes equal to the disk and blocks as they are seen.
-/

namespace NaiveFS

open BlockCache

/-- `place i` is the offset of the allocated block `i`. -/
structure PageStore where
  cache : BlockCache
  disk : Disk
  place : Nat → Option Nat

namespace PageStore

/-- The blocks in the cache, the last used first. -/
def held (s : PageStore) : List Nat := s.cache.nodes.map CacheNode.index

def content (s : PageStore) (i : Nat) : Option Block :=
  match s.cache.lookup i with
  | some x => some x.block
  | none => (s.place i).map s.disk

/-- A lookup with the flag `mark`, and the load of a missing block with the flag `dirty`. -/
def fetch (i : Nat) (mark dirty : Bool) (s : PageStore) : Option Block × PageStore :=
  match s.cache.get i mark with
  | some (b, cache) => (some b, { s with cache := cache })
  | none =>
    match s.place i with
    | none => (none, s)
    | some offset =>
      let (b, cache, disk) := s.cache.load i offset dirty s.disk
      (some b, { s with cache := cache, disk := disk })

/-- `get_block` up to the copy, in a run without concurrency. -/
def getBlock (i : Nat) (dirty : Bool) (s : PageStore) : Option Block × PageStore :=
  s.fetch i dirty dirty

structure Sound (s : PageStore) : Prop where
  pos : 0 < s.cache.size
  length : s.cache.nodes.length ≤ s.cache.size
  nodup : s.held.Nodup
  placed : ∀ x ∈ s.cache.nodes, s.place x.index = some x.offset
  apart : ∀ i j off, s.place i = some off → s.place j = some off → i = j
  clean : ∀ x ∈ s.cache.nodes, x.dirty = false → s.disk x.offset = x.block

/-- No block is lost when it leaves the cache: every block lies where a flush gets
through, or there is room for all of them. -/
structure Safe (s : PageStore) : Prop extends Sound s where
  kept : (∀ i off, s.place i = some off → Disk.lands off = true) ∨
    ∀ l : List Nat, l.Nodup → (∀ i ∈ l, (s.place i).isSome) → l.length ≤ s.cache.size

variable {s : PageStore} {i j : Nat} {x : CacheNode}

theorem lookup_mem (hs : s.Sound) (hx : x ∈ s.cache.nodes) : s.cache.lookup x.index = some x := by
  cases hl : s.cache.lookup x.index with
  | none => exact absurd (List.mem_map_of_mem hx) (lookup_none hl)
  | some y =>
    obtain ⟨hy, hxy⟩ := lookup_some hl
    rw [List.inj_on_of_nodup_map hs.nodup hy hx hxy]

theorem lookup_detach (hj : j ≠ i) (nodes : List CacheNode) :
    (nodes.filter fun x => x.index ≠ i).find? (fun x => x.index = j) =
      nodes.find? fun x => x.index = j := by
  rw [List.find?_filter]
  congr 1
  funext x
  by_cases hx : x.index = j
  · simp [hx, hj]
  · simp [hx]

theorem held_detach (hs : s.Sound) (i : Nat) :
    (s.cache.detach i).map CacheNode.index = s.held.erase i := by
  rw [hs.nodup.erase_eq_filter]
  unfold held detach
  rw [List.filter_map]
  congr 1
  apply List.filter_congr
  intro x _
  simp only [ne_eq, decide_not, Function.comp_apply, bne]
  rfl

/-- The node of a block goes to the front, with its mark. -/
def touched (s : PageStore) (x : CacheNode) (dirty : Bool) : PageStore :=
  { s with
    cache :=
      { s.cache with nodes := { x with dirty := x.dirty || dirty } :: s.cache.detach x.index } }

section
variable (hs : s.Sound) (hx : x ∈ s.cache.nodes) (dirty : Bool)
include hs hx

theorem touched_held : (s.touched x dirty).held = Lru.use s.cache.size s.held x.index := by
  have hlen : (x.index :: s.held.erase x.index).length ≤ s.cache.size := by
    rw [List.length_cons, List.length_erase_of_mem (show x.index ∈
      s.held from List.mem_map_of_mem hx)]
    have := List.length_pos_iff.mpr (List.ne_nil_of_mem hx)
    have := hs.length
    unfold held
    rw [List.length_map]
    omega
  unfold Lru.use
  rw [List.take_of_length_le hlen, ← held_detach hs]
  rfl

omit hs hx in
theorem touched_lookup (j : Nat) : (s.touched x dirty).cache.lookup j =
    if j = x.index then some { x with dirty := x.dirty || dirty } else s.cache.lookup j := by
  by_cases hj : j = x.index
  · simp [hj, touched, lookup]
  · have hne : ¬ x.index = j := fun h => hj h.symm
    simp only [hj, touched, lookup, List.find?_cons, hne, decide_false, detach, if_false]
    exact lookup_detach hj s.cache.nodes

theorem touched_content : (s.touched x dirty).content = s.content := by
  funext j
  unfold content
  rw [touched_lookup]
  by_cases hj : j = x.index
  · rw [if_pos hj, hj, lookup_mem hs hx]
  · rw [if_neg hj]
    rfl

theorem Sound.touched : (s.touched x dirty).Sound := by
  refine ⟨hs.pos, ?_, ?_, fun y hy => ?_, hs.apart, fun y hy hd => ?_⟩
  · have hlen := congrArg List.length (touched_held hs hx dirty)
    unfold held at hlen
    rw [List.length_map] at hlen
    rw [hlen]
    exact Lru.use_length
  · rw [touched_held hs hx dirty]
    exact Lru.use_nodup hs.nodup
  · rcases List.mem_cons.mp hy with rfl | hy
    · exact hs.placed x hx
    · exact hs.placed y (mem_detach.mp hy).1
  · rcases List.mem_cons.mp hy with rfl | hy
    · exact hs.clean x hx (Bool.or_eq_false_iff.mp hd).1
    · exact hs.clean y (mem_detach.mp hy).1 hd

end

/-! ## What a flush leaves on the disk -/

section
variable (hs : s.Sound) (hx : x ∈ s.cache.nodes)
include hs hx

theorem release_other (hj : j ≠ x.index) {off : Nat} (hoff : s.place j = some off) :
    release x s.disk off = s.disk off :=
  CachedFS.release_ne fun h => hj (hs.apart j x.index off hoff (h ▸ hs.placed x hx))

theorem release_self (hlands : x.dirty = true → Disk.lands x.offset = true) :
    release x s.disk x.offset = x.block := by
  unfold release
  by_cases hd : x.dirty = true
  · rw [if_pos hd]
    exact Disk.flush_self (hlands hd) s.disk x.block
  · rw [if_neg hd]
    exact hs.clean x hx (Bool.eq_false_iff.mpr hd)

end

/-! ## A new node -/

/-- `insert` of a block that is not in the cache. -/
def inserted (s : PageStore) (x : CacheNode) : PageStore :=
  { s with
    cache := { s.cache with nodes := x :: (s.cache.makeRoom s.disk).1 }
    disk := (s.cache.makeRoom s.disk).2 }

theorem makeRoom_cases (s : PageStore) :
    s.cache.nodes.length < s.cache.size ∧ s.cache.makeRoom s.disk = (s.cache.nodes, s.disk) ∨
      s.cache.size ≤ s.cache.nodes.length ∧
        (s.cache.nodes = [] ∧ s.cache.makeRoom s.disk = ([], s.disk) ∨
          ∃ l y, s.cache.nodes = l ++ [y] ∧ s.cache.makeRoom s.disk = (l, release y s.disk)) := by
  unfold makeRoom
  by_cases hfull : s.cache.nodes.length < s.cache.size
  · rw [if_pos hfull]
    exact Or.inl ⟨hfull, rfl⟩
  · rw [if_neg hfull]
    right
    refine ⟨Nat.not_lt.mp hfull, ?_⟩
    rcases List.eq_nil_or_concat s.cache.nodes with hnil | ⟨l, y, hl⟩
    · rw [hnil]
      exact Or.inl ⟨rfl, rfl⟩
    · refine Or.inr ⟨l, y, by simpa using hl, ?_⟩
      rw [hl]
      simp

theorem makeRoom_subset (s : PageStore) : (s.cache.makeRoom s.disk).1 ⊆ s.cache.nodes := by
  rcases s.makeRoom_cases with ⟨-, heq⟩ | ⟨-, ⟨hnil, heq⟩ | ⟨l, z, hl, heq⟩⟩ <;> rw [heq]
  · exact List.Subset.refl _
  · exact List.nil_subset _
  · rw [hl]
    exact List.subset_append_left _ _

section
variable (hs : s.Sound) (hout : s.cache.lookup x.index = none) (hplace : s.place x.index =
  some x.offset)
include hs hout

theorem inserted_held : (s.inserted x).held = Lru.use s.cache.size s.held x.index := by
  unfold Lru.use
  rw [List.erase_of_not_mem (show x.index ∉ s.held from lookup_none hout)]
  obtain ⟨k, hk⟩ : ∃ k, s.cache.size = k + 1 := ⟨s.cache.size - 1, by have := hs.pos; omega⟩
  rw [hk, List.take_succ_cons]
  unfold held inserted
  have hlen := hs.length
  rw [List.map_cons]
  congr 1
  rcases s.makeRoom_cases with ⟨hlt, heq⟩ | ⟨hge, ⟨hnil, heq⟩ | ⟨l, y, hl, heq⟩⟩ <;> rw [heq]
  · rw [List.take_of_length_le]
    rw [List.length_map]
    omega
  · simp [hnil]
  · rw [hl] at hlen hge ⊢
    rw [List.length_append, List.length_singleton] at hlen hge
    rw [List.map_append, List.take_append_of_le_length (by rw [List.length_map]; omega),
      List.take_of_length_le]
    rw [List.length_map]
    omega

omit hs hout in
theorem inserted_lookup (j : Nat) : (s.inserted x).cache.lookup j =
    if j = x.index then some x else (s.cache.makeRoom s.disk).1.find? fun z => z.index = j := by
  by_cases hj : j = x.index
  · simp [hj, inserted, lookup]
  · have hne : ¬ x.index = j := fun h => hj h.symm
    simp [hj, hne, inserted, lookup]

omit hout in
/-- The evicted node is the only one that is not found any more. -/
theorem makeRoom_lookup (l : List CacheNode) (y : CacheNode) (hl : s.cache.nodes = l ++ [y])
    (j : Nat) :
    l.find? (fun z => z.index = j) = if j = y.index then none else s.cache.lookup j := by
  have hnodup := hs.nodup
  unfold held at hnodup
  rw [hl, List.map_append, List.nodup_append] at hnodup
  unfold lookup
  rw [hl, List.find?_append]
  by_cases hj : j = y.index
  · rw [if_pos hj, List.find?_eq_none]
    intro z hz heq
    exact hnodup.2.2 z.index (List.mem_map_of_mem hz) y.index (by simp) (hj ▸ by simpa using heq)
  · have hlast : [y].find? (fun z => z.index = j) = none := by simp [Ne.symm hj]
    rw [if_neg hj, hlast, Option.or_none]

omit hout in
theorem makeRoom_content
    (hlands : s.cache.size ≤ s.cache.nodes.length → ∀ y ∈ s.cache.nodes, y.dirty = true →
      Disk.lands y.offset = true)
    (hne : j ≠ x.index) :
    (s.inserted x).content j = s.content j := by
  unfold content
  rw [inserted_lookup, if_neg hne]
  unfold inserted
  rcases s.makeRoom_cases with ⟨-, heq⟩ | ⟨hfull, ⟨hnil, heq⟩ | ⟨l, y, hl, heq⟩⟩ <;> rw [heq]
  · rfl
  · rw [lookup, hnil]
  · have hy : y ∈ s.cache.nodes := by rw [hl]; simp
    rw [makeRoom_lookup hs l y hl]
    by_cases hjy : j = y.index
    · -- the evicted block is on the disk now
      rw [if_pos hjy, hjy, lookup_mem hs hy, hs.placed y hy]
      exact congrArg some (release_self hs hy (hlands hfull y hy))
    · rw [if_neg hjy]
      cases s.cache.lookup j with
      | some z => rfl
      | none =>
        cases hp : s.place j with
        | none => rfl
        | some off =>
          simp only [Option.map_some, Option.some.injEq]
          exact release_other hs hy hjy hp

omit hs hout in
theorem inserted_content_self : (s.inserted x).content x.index = some x.block := by
  simp [content, inserted, lookup]

include hplace

theorem Sound.inserted (hclean : x.dirty = false → s.disk x.offset = x.block) :
    (s.inserted x).Sound := by
  have hsub := s.makeRoom_subset
  -- a block that stays is not at the place of the evicted one
  have hdisk : ∀ i off, s.place i = some off → i ∉ s.held ∨
    i ∈ (s.cache.makeRoom s.disk).1.map CacheNode.index →
      (s.cache.makeRoom s.disk).2 off = s.disk off := by
    intro i off hi hstay
    rcases s.makeRoom_cases with ⟨-, heq⟩ | ⟨-, ⟨-, heq⟩ | ⟨l, z, hl, heq⟩⟩ <;> rw [heq] at hstay ⊢
    apply CachedFS.release_ne
    intro h
    have hz : z ∈ s.cache.nodes := by rw [hl]; simp
    have hiz : i = z.index := hs.apart i z.index off hi (h ▸ hs.placed z hz)
    rcases hstay with hno | hyes
    · exact hno (hiz ▸ List.mem_map_of_mem hz)
    · have hnodup := hs.nodup
      unfold held at hnodup
      rw [hl, List.map_append, List.nodup_append] at hnodup
      exact hnodup.2.2 i hyes z.index (by simp) hiz
  refine ⟨hs.pos, ?_, ?_, fun y hy => ?_, hs.apart, fun y hy hd => ?_⟩
  · have hlen := congrArg List.length (inserted_held hs hout)
    unfold held at hlen
    rw [List.length_map] at hlen
    rw [hlen]
    exact Lru.use_length
  · rw [inserted_held hs hout]
    exact Lru.use_nodup hs.nodup
  · rcases List.mem_cons.mp hy with rfl | hy
    · exact hplace
    · exact hs.placed y (hsub hy)
  · rcases List.mem_cons.mp hy with rfl | hy
    · exact (hdisk _ _ hplace (Or.inl (lookup_none hout))).trans (hclean hd)
    · exact (hdisk _ _ (hs.placed y (hsub hy)) (Or.inr (List.mem_map_of_mem hy))).trans
        (hs.clean y (hsub hy) hd)

end

/-! ## A node that goes or changes in place -/

/-- The node is written back and dropped. -/
def dropped (s : PageStore) (x : CacheNode) : PageStore :=
  { s with cache := { s.cache with nodes := s.cache.detach x.index }, disk := release x s.disk }

/-- Node `x` becomes `y`. -/
def altered (s : PageStore) (x y : CacheNode) (disk : Disk) : PageStore :=
  { s with
    cache := { s.cache with nodes := s.cache.nodes.map fun z => if z.index = x.index then y else z }
    disk := disk }

section
variable (hs : s.Sound) (hx : x ∈ s.cache.nodes)
include hs hx

omit hx in
theorem dropped_held : (s.dropped x).held = s.held.erase x.index := held_detach hs x.index

omit hs hx in
theorem dropped_lookup (j : Nat) :
    (s.dropped x).cache.lookup j = if j = x.index then none else s.cache.lookup j := by
  by_cases hj : j = x.index
  · simp [hj, dropped, lookup, detach]
  · rw [if_neg hj]
    exact lookup_detach hj s.cache.nodes

theorem dropped_content (hlands : x.dirty = true → Disk.lands x.offset = true) :
    (s.dropped x).content = s.content := by
  funext j
  unfold content
  rw [dropped_lookup]
  by_cases hj : j = x.index
  · rw [if_pos hj, hj, lookup_mem hs hx]
    simp only [dropped, hs.placed x hx, Option.map_some, release_self hs hx hlands]
  · rw [if_neg hj]
    cases s.cache.lookup j with
    | some y => rfl
    | none =>
      cases hp : s.place j with
      | none => simp [dropped, hp]
      | some off => simp [dropped, hp, release_other hs hx hj hp]

theorem Sound.dropped : (s.dropped x).Sound := by
  have hsub : (s.cache.detach x.index).Sublist s.cache.nodes := List.filter_sublist
  refine ⟨hs.pos, Nat.le_trans hsub.length_le hs.length, ?_, fun y hy => ?_, hs.apart,
    fun y hy hd => ?_⟩
  · rw [dropped_held hs]
    exact hs.nodup.erase _
  · exact hs.placed y (mem_detach.mp hy).1
  · obtain ⟨hy, hne⟩ := mem_detach.mp hy
    exact (release_other hs hx hne (hs.placed y hy)).trans (hs.clean y hy hd)

omit hs hx in
theorem altered_held {y : CacheNode} (hi : y.index = x.index) (disk : Disk) :
    (s.altered x y disk).held = s.held := by
  unfold held altered
  rw [List.map_map]
  apply List.map_congr_left
  intro z _
  simp only [Function.comp_apply]
  split
  · rename_i hz
    rw [hi, hz]
  · rfl

theorem altered_lookup {y : CacheNode} (hi : y.index = x.index) (disk : Disk) (j : Nat) :
    (s.altered x y disk).cache.lookup j = if j = x.index then some y else s.cache.lookup j := by
  unfold lookup altered
  simp only
  rw [List.find?_map]
  by_cases hj : j = x.index
  · subst hj
    have hcomp : ((fun z : CacheNode => decide (z.index = x.index)) ∘ fun z =>
      if z.index = x.index then y else z) =
        fun z => decide (z.index = x.index) := by
      funext z
      by_cases hz : z.index = x.index <;> simp [hz, hi]
    have hl := lookup_mem hs hx
    unfold lookup at hl
    rw [hcomp, hl]
    simp
  · have hcomp : ((fun z : CacheNode => decide (z.index = j)) ∘ fun z => if z.index = x.index then
      y else z) =
        fun z => decide (z.index = j) := by
      funext z
      by_cases hz : z.index = x.index
      · simp [hz, hi, Ne.symm hj]
      · simp [hz]
    rw [hcomp, if_neg hj]
    cases hl : s.cache.nodes.find? fun z => z.index = j with
    | none => rfl
    | some z =>
      have hz : z.index = j := by simpa using List.find?_some hl
      simp [hz, hj]

theorem altered_content {y : CacheNode} (hi : y.index = x.index) {disk : Disk}
    (hdisk : ∀ off, off ≠ x.offset → disk off = s.disk off) (j : Nat) :
    (s.altered x y disk).content j = if j = x.index then some y.block else s.content j := by
  unfold content
  rw [altered_lookup hs hx hi]
  by_cases hj : j = x.index
  · rw [if_pos hj, if_pos hj]
  · rw [if_neg hj, if_neg hj]
    cases s.cache.lookup j with
    | some z => rfl
    | none =>
      cases hp : s.place j with
      | none => simp [altered, hp]
      | some off =>
        have hne : off ≠ x.offset := fun h => hj (hs.apart j x.index off hp (h ▸ hs.placed x hx))
        simp [altered, hp, hdisk off hne]

theorem Sound.altered {y : CacheNode} (hi : y.index = x.index) (ho : y.offset = x.offset)
    {disk : Disk} (hdisk : ∀ off, off ≠ x.offset → disk off = s.disk off)
    (hclean : y.dirty = false → disk x.offset = y.block) :
    (s.altered x y disk).Sound := by
  have hmem : ∀ z ∈ (s.altered x y disk).cache.nodes, z = y ∨ z ∈ s.cache.nodes ∧
    z.index ≠ x.index := by
    intro z hz
    obtain ⟨w, hw, rfl⟩ := List.mem_map.mp hz
    by_cases hwx : w.index = x.index
    · exact Or.inl (if_pos hwx)
    · rw [if_neg hwx]
      exact Or.inr ⟨hw, hwx⟩
  refine ⟨hs.pos, ?_, ?_, fun z hz => ?_, hs.apart, fun z hz hd => ?_⟩
  · simp only [PageStore.altered, List.length_map]
    exact hs.length
  · rw [altered_held hi]
    exact hs.nodup
  · rcases hmem z hz with rfl | ⟨hz, -⟩
    · rw [hi, ho]
      exact hs.placed x hx
    · exact hs.placed z hz
  · rcases hmem z hz with rfl | ⟨hz, hne⟩
    · rw [ho]
      exact hclean hd
    · refine (hdisk _ fun h => hne (hs.apart z.index x.index z.offset (hs.placed z hz) ?_)).trans
        (hs.clean z hz hd)
      rw [h]
      exact hs.placed x hx

end

/-! ## Nodes where a flush gets through -/

def Landed (s : PageStore) : Prop := ∀ x ∈ s.cache.nodes, Disk.lands x.offset = true

theorem Landed.touched (h : s.Landed) (hx : x ∈ s.cache.nodes) (dirty : Bool) :
    (s.touched x dirty).Landed := by
  intro y hy
  rcases List.mem_cons.mp hy with rfl | hy
  · exact h x hx
  · exact h y (mem_detach.mp hy).1

theorem Landed.inserted (h : s.Landed) (hx : Disk.lands x.offset = true) :
    (s.inserted x).Landed := by
  intro y hy
  rcases List.mem_cons.mp hy with rfl | hy
  · exact hx
  · exact h y (s.makeRoom_subset hy)

theorem Landed.dropped (h : s.Landed) : (s.dropped x).Landed := fun y hy => h y (mem_detach.mp hy).1

theorem Landed.altered (h : s.Landed) (hx : x ∈ s.cache.nodes) {y : CacheNode}
    (ho : y.offset = x.offset) (disk : Disk) :
    (s.altered x y disk).Landed := by
  intro z hz
  obtain ⟨w, hw, rfl⟩ := List.mem_map.mp hz
  split
  · rw [ho]
    exact h x hx
  · exact h w hw

/-! ## get_block -/

/-- A full cache that misses a block has to write back, so all blocks lie where a flush
gets through. -/
theorem Safe.lands (hs : s.Safe) {off : Nat} (hout : s.cache.lookup i = none)
    (hplace : s.place i = some off) (hfull : s.cache.size ≤ s.cache.nodes.length) :
    ∀ y ∈ s.cache.nodes, y.dirty = true → Disk.lands y.offset = true := by
  intro y hy _
  rcases hs.kept with hall | hfew
  · exact hall y.index y.offset (hs.placed y hy)
  · have hle := hfew (i :: s.held) (List.nodup_cons.mpr ⟨lookup_none hout, hs.nodup⟩) fun j hj => by
      rcases List.mem_cons.mp hj with rfl | hj
      · rw [hplace]
        rfl
      · obtain ⟨x, hx, rfl⟩ := List.mem_map.mp hj
        rw [hs.placed x hx]
        rfl
    simp only [held, List.length_cons, List.length_map] at hle
    omega

/-- The node of a block that has been read from the disk. -/
def loaded (s : PageStore) (i off : Nat) : CacheNode where
  index := i
  offset := off
  block := s.disk off
  dirty := false

/-- A read finds the block in the cache, fetches it, or finds that it does not exist. -/
theorem getBlock_cases (s : PageStore) (i : Nat) :
    (∃ x, s.cache.lookup i = some x ∧ s.getBlock i false = (some x.block, s.touched x false)) ∨
      s.cache.lookup i = none ∧
        ((∃ off, s.place i = some off ∧ s.getBlock i false =
          (some (s.disk off), s.inserted (s.loaded i off))) ∨ s.place i = none ∧
            s.getBlock i false = (none, s)) := by
  unfold PageStore.getBlock fetch BlockCache.get
  cases hl : s.cache.lookup i with
  | some x =>
    obtain ⟨-, rfl⟩ := lookup_some hl
    exact Or.inl ⟨x, rfl, rfl⟩
  | none =>
    refine Or.inr ⟨rfl, ?_⟩
    cases hoff : s.place i with
    | none => exact Or.inr ⟨rfl, rfl⟩
    | some off =>
      refine Or.inl ⟨off, rfl, ?_⟩
      simp only [load, BlockCache.insert, hl]
      rfl

theorem getBlock_none (hi : s.content i = none) : s.getBlock i false = (none, s) := by
  rcases s.getBlock_cases i with ⟨x, hl, -⟩ | ⟨hl, ⟨off, hoff, -⟩ | ⟨-, hget⟩⟩
  · simp [content, hl] at hi
  · simp [content, hl, hoff] at hi
  · exact hget

theorem Sound.getBlock (hs : s.Sound) (i : Nat) : s.getBlock i false = (none, s) ∨
    ∃ b s', s.getBlock i false = (some b, s') ∧ s'.Sound ∧ s'.cache.size = s.cache.size ∧
      s'.held = Lru.use s.cache.size s.held i := by
  rcases s.getBlock_cases i with ⟨x, hl, hget⟩ | ⟨hl, ⟨off, hoff, hget⟩ | ⟨-, hget⟩⟩
  · obtain ⟨hx, rfl⟩ := lookup_some hl
    exact Or.inr ⟨_, _, hget, hs.touched hx false, rfl, touched_held hs hx false⟩
  · exact Or.inr ⟨_, _, hget, hs.inserted hl hoff fun _ => rfl, rfl, inserted_held hs hl⟩
  · exact Or.inl hget

theorem Safe.getBlock (hs : s.Safe) {b : Block} (hb : s.content i = some b) :
    ∃ s', s.getBlock i false = (some b, s') ∧ s'.Safe ∧ s'.content = s.content ∧
      s'.cache.size = s.cache.size ∧ s'.held = Lru.use s.cache.size s.held i := by
  rcases s.getBlock_cases i with ⟨x, hl, hget⟩ | ⟨hl, ⟨off, hoff, hget⟩ | ⟨hoff, -⟩⟩
  · obtain ⟨hx, rfl⟩ := lookup_some hl
    simp only [content, hl] at hb
    cases hb
    exact ⟨_, hget, ⟨hs.touched hx false, hs.kept⟩, touched_content hs.toSound hx false, rfl,
      touched_held hs.toSound hx false⟩
  · have hself : s.content i = some (s.disk off) := by simp [content, hl, hoff]
    rw [hb] at hself
    cases hself
    refine ⟨_, hget, ⟨hs.inserted hl hoff fun _ => rfl, hs.kept⟩, ?_, rfl,
      inserted_held hs.toSound hl⟩
    funext j
    by_cases hj : j = i
    · subst hj
      rw [hb]
      exact inserted_content_self
    · exact makeRoom_content hs.toSound (hs.lands hl hoff) hj
  · simp [content, hl, hoff] at hb

end PageStore

/-! ## The file system's own cache -/

namespace CachedFS

variable {hot loose : List Nat} {m : Nat} {s : CachedFS}

def pages (s : CachedFS) : PageStore :=
  ⟨s.cache, s.disk, fun i => if s.groups.allocated .block i then some (blockOffset i) else none⟩

theorem pages_place {i off : Nat} (h : s.pages.place i = some off) :
    s.groups.allocated .block i = true ∧ off = blockOffset i := by
  unfold pages at h
  simp only at h
  split at h
  · rename_i hi
    exact ⟨hi, (Option.some.inj h).symm⟩
  · cases h

theorem Coherent.pages (h : Coherent hot [] m s) : s.pages.Safe where
  pos := by
    rw [show s.pages.cache.size = blockCacheSize from h.size]
    decide
  length := by
    rw [show s.pages.cache.size = blockCacheSize from h.size]
    exact h.length
  nodup := h.nodup
  placed x hx := by
    obtain ⟨h1, h2, -⟩ := h.node x hx
    rw [h2]
    exact if_pos h1
  apart i j off hi hj := blockOffset_inj ((pages_place hi).2.symm.trans (pages_place hj).2)
  clean x hx hd := h.clean x hx hd List.not_mem_nil
  kept := Or.inl fun i off hi => by
    obtain ⟨ha, rfl⟩ := pages_place hi
    exact h.lands ha

theorem Coherent.pages_getBlock (h : Coherent hot loose m s) (i : Nat) (dirty : Bool) :
    s.pages.getBlock i dirty = ((CachedFS.getBlock i dirty s).1,
      (CachedFS.getBlock i dirty s).2.pages) := by
  cases hi : s.groups.allocated .block i with
  | false =>
    rw [h.getBlock_free dirty hi]
    unfold PageStore.getBlock PageStore.fetch BlockCache.get
    rw [show s.pages.cache = s.cache from rfl, h.lookup_free hi]
    simp [CachedFS.pages, hi]
  | true =>
    unfold PageStore.getBlock PageStore.fetch CachedFS.getBlock BlockCache.get
    rw [show s.pages.cache = s.cache from rfl]
    cases hl : s.cache.lookup i with
    | some x => rfl
    | none =>
      obtain ⟨n, hn, hled⟩ := h.ledger
      obtain ⟨bg, hfind, hbits, ht⟩ := Groups.allocated_iff.mp hi
      have hoff := offsetOf_eq hled (by omega) hfind hbits
      simp only [Groups.findGroup, hfind, ht, if_true, hoff]
      rw [show s.pages.place i = some (blockOffset i) from if_pos hi]
      rfl

end CachedFS

end NaiveFS
