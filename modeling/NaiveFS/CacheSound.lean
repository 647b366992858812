import NaiveFS.BlockCache
import NaiveFS.GroupLedger
import NaiveFS.Lib.Runs

/-!
# The cache against the bytes last stored

`Coherent hot loose m` relates the cache and the disk to the ghost `stored`:
cached blocks show it, uncached ones have it on the disk, and a clean node
agrees with the disk unless it is `loose`. The blocks in `hot` are those to
which an operation under way holds a pointer; each is among the `hot.length`
last used ones, so it is not evicted before the operation is over.
-/

namespace NaiveFS

open BlockCache

/-! ## Positions in the list of nodes -/

theorem mem_take_filter {α : Type} {q : α → Bool} {x : α} :
    ∀ {l : List α} {p : Nat}, x ∈ l.take p → q x = true → x ∈ (l.filter q).take p := by
  intro l
  induction l with
  | nil => intro p h _; simp at h
  | cons a l ih =>
    intro p h hq
    cases p with
    | zero => simp at h
    | succ p =>
      rw [List.take_succ_cons] at h
      by_cases ha : q a = true
      · rw [List.filter_cons_of_pos ha, List.take_succ_cons]
        rcases List.mem_cons.mp h with rfl | h
        · exact List.mem_cons_self
        · exact List.mem_cons_of_mem _ (ih h hq)
      · rw [List.filter_cons_of_neg ha]
        rcases List.mem_cons.mp h with rfl | h
        · exact absurd hq ha
        · exact List.take_subset_take_left _ (Nat.le_succ p) (ih h hq)

theorem mem_take_dropLast {α : Type} {x : α} {l : List α} {p : Nat} (h : x ∈ l.take p)
    (hp : p < l.length) :
    x ∈ l.dropLast.take p := by
  rw [List.dropLast_eq_take, List.take_take, Nat.min_eq_left (by omega)]
  exact h

namespace BlockCache

variable {c : BlockCache} {i : Nat} {x : CacheNode}

theorem lookup_some (h : c.lookup i = some x) : x ∈ c.nodes ∧ x.index = i :=
  ⟨List.mem_of_find?_eq_some h, by simpa using List.find?_some h⟩

theorem lookup_none (h : c.lookup i = none) : i ∉ c.nodes.map CacheNode.index := by
  simpa [lookup] using h

theorem mem_detach {y : CacheNode} : y ∈ c.detach i ↔ y ∈ c.nodes ∧ y.index ≠ i := by
  simp [detach]

end BlockCache

namespace CachedFS

/-- Where block `i` lies on the disk, below group 32. -/
def blockOffset (i : Nat) : Nat := 4096 * (i + 1026)

theorem blockOffset_inj {i j : Nat} (h : blockOffset i = blockOffset j) : i = j := by
  unfold blockOffset at h; omega

theorem offsetOf_eq {g : Groups} {n i : Nat} {bg : BlockGroup} (h : g.Ledger n) (hn : n ≤ 32)
    (hfind : g.blockGroups.find (i / perGroup .block) = some bg)
    (hi : i % perGroup .block < bitmapBits) :
    offsetOf g bg i = blockOffset i := by
  have hlt : ∀ j bg, g.blockGroups.find j = some bg → j < 32 := fun j bg hj =>
    Nat.lt_of_lt_of_le ((h.keys j).mp ⟨bg, hj⟩) hn
  have hoff : g.offset (.dataBlock (i / perGroup .block) (i % perGroup .block)) =
    some (offsetOf g bg i) := by
    simp only [Groups.offset, hfind, Option.map_some]
    exact if_pos hi
  rw [(h.placed.offset_eq hlt hoff).1]
  simp only [Groups.blockNo, blockOffset, perGroup_block]
  omega

/-! ## The invariant -/

structure Coherent (hot loose : List Nat) (m : Nat) (s : CachedFS) : Prop where
  ledger : ∃ n ≤ 15, s.groups.Ledger n
  room : s.groups.Room m
  size : s.cache.size = blockCacheSize
  length : s.cache.nodes.length ≤ blockCacheSize
  nodup : (s.cache.nodes.map CacheNode.index).Nodup
  node : ∀ x ∈ s.cache.nodes, s.groups.allocated .block x.index = true ∧
    x.offset = blockOffset x.index ∧
    x.block = s.stored x.index
  disk : ∀ i, s.groups.allocated .block i = true → i ∉ s.cache.nodes.map CacheNode.index →
    s.disk (blockOffset i) = s.stored i
  clean : ∀ x ∈ s.cache.nodes, x.dirty = false → x.index ∉ loose → s.disk x.offset = x.block
  held : loose ⊆ hot
  recent : ∀ i ∈ hot, i ∈ (s.cache.nodes.take hot.length).map CacheNode.index

variable {hot loose l : List Nat} {m i m' : Nat} {s : CachedFS}

theorem Coherent.forget (h : Coherent hot [] m s) : Coherent [] [] m s :=
  { h with held := List.Subset.refl _, recent := fun _ hi => absurd hi List.not_mem_nil }

theorem Coherent.weaken (h : Coherent hot loose m s) {loose' : List Nat} (hsub : loose ⊆ loose')
    (hheld : loose' ⊆ hot) : Coherent hot loose' m s :=
  { h with clean := fun x hx hd hn => h.clean x hx hd fun hl => hn (hsub hl), held := hheld }

theorem Coherent.lessRoom (h : Coherent hot loose m s) (hm : m' ≤ m) : Coherent hot loose m' s :=
  { h with room := h.room.mono hm }

/-- The blocks of the first 15 groups lie below 2^31. -/
theorem Coherent.lands (h : Coherent hot loose m s) (hi : s.groups.allocated .block i = true) :
    Disk.lands (blockOffset i) = true := by
  obtain ⟨n, hn, hled⟩ := h.ledger
  obtain ⟨bg, hfind, -, -⟩ := Groups.allocated_iff.mp hi
  have hlt := (hled.keys _).mp ⟨bg, hfind⟩
  rw [perGroup_block] at hlt
  unfold blockOffset Disk.lands
  exact decide_eq_true (by omega)

theorem Coherent.resident (h : Coherent hot loose m s) (hi : i ∈ hot) :
    i ∈ s.cache.nodes.map CacheNode.index := by
  obtain ⟨x, hx, rfl⟩ := List.mem_map.mp (h.recent i hi)
  exact List.mem_map_of_mem (List.mem_of_mem_take hx)

/-! ## Use of a cached block -/

theorem Coherent.touch (h : Coherent hot loose m s) {x : CacheNode} (hx : x ∈ s.cache.nodes)
    (dirty : Bool) :
    Coherent (x.index :: hot) loose m
      { s with cache := { s.cache with
          nodes := { x with dirty := x.dirty || dirty } :: s.cache.detach x.index } } := by
  have hmem : ∀ j, j ∈ s.cache.nodes.map CacheNode.index →
      j ∈ ({ x with dirty := x.dirty || dirty } :: s.cache.detach x.index).map CacheNode.index := by
    intro j hj
    obtain ⟨y, hy, rfl⟩ := List.mem_map.mp hj
    by_cases hyx : y.index = x.index
    · rw [hyx]; exact List.mem_cons_self
    · exact List.mem_cons_of_mem _ (List.mem_map_of_mem (mem_detach.mpr ⟨hy, hyx⟩))
  have hsub : (s.cache.detach x.index).Sublist s.cache.nodes := List.filter_sublist
  refine ⟨h.ledger, h.room, h.size, ?_, ?_, ?_, ?_, ?_, ?_, ?_⟩
  · have hlt : (s.cache.detach x.index).length < s.cache.nodes.length :=
      List.length_filter_lt_length_iff_exists.mpr ⟨x, hx, by simp⟩
    exact Nat.le_trans hlt h.length
  · refine List.nodup_cons.mpr ⟨?_, h.nodup.sublist (hsub.map _)⟩
    intro hin
    obtain ⟨y, hy, hyx⟩ := List.mem_map.mp hin
    exact (mem_detach.mp hy).2 hyx
  · intro y hy
    rcases List.mem_cons.mp hy with rfl | hy
    · exact h.node x hx
    · exact h.node y (mem_detach.mp hy).1
  · intro j hj hout
    exact h.disk j hj fun hin => hout (hmem j hin)
  · intro y hy hd hl
    rcases List.mem_cons.mp hy with rfl | hy
    · exact h.clean x hx (Bool.or_eq_false_iff.mp hd).1 hl
    · exact h.clean y (mem_detach.mp hy).1 hd hl
  · exact fun j hj => List.mem_cons_of_mem _ (h.held hj)
  · intro j hj
    rw [List.length_cons, List.take_succ_cons]
    by_cases hjx : j = x.index
    · rw [hjx]; exact List.mem_cons_self
    · obtain ⟨y, hy, rfl⟩ := List.mem_map.mp (h.recent j ((List.mem_cons.mp hj).resolve_left hjx))
      exact List.mem_cons_of_mem _ (List.mem_map_of_mem (mem_take_filter hy (by simpa using hjx)))

/-! ## Insertion and eviction -/

theorem release_ne {x : CacheNode} {disk : Disk} {off : Nat} (h : off ≠ x.offset) :
    release x disk off = disk off := by
  unfold release
  split
  · exact Disk.flush_ne h disk x.block
  · rfl

/-- Making room: the evicted node is not held, so it is dirty and written back
or agrees with the disk already. -/
theorem Coherent.makeRoom (h : Coherent hot loose m s) (hlt : hot.length < blockCacheSize) :
    Coherent hot loose m { s with
      cache := { s.cache with nodes := (s.cache.makeRoom s.disk).1 }, disk :=
  (s.cache.makeRoom s.disk).2 } ∧
      (s.cache.makeRoom s.disk).1.length < blockCacheSize ∧
      (s.cache.makeRoom s.disk).1 ⊆ s.cache.nodes ∧
      ∀ j, j ∉ s.cache.nodes.map CacheNode.index →
        (s.cache.makeRoom s.disk).2 (blockOffset j) = s.disk (blockOffset j) := by
  unfold BlockCache.makeRoom
  by_cases hfull : s.cache.nodes.length < s.cache.size
  · rw [if_pos hfull]
    exact ⟨h, by rw [h.size] at hfull; exact hfull, List.Subset.refl _, fun _ _ => rfl⟩
  rw [if_neg hfull]
  have hlen : s.cache.nodes.length = blockCacheSize := by
    have := h.length
    rw [h.size] at hfull
    omega
  have hne : s.cache.nodes ≠ [] := by
    intro h0
    rw [h0] at hlen
    cases hlen
  rw [List.getLast?_eq_some_getLast hne]
  simp only
  generalize hx : s.cache.nodes.getLast hne = x
  have hsplit : s.cache.nodes = s.cache.nodes.dropLast ++ [x] := by
    rw [← hx, List.dropLast_concat_getLast hne]
  have hxmem : x ∈ s.cache.nodes := by rw [← hx]; exact List.getLast_mem hne
  have hsub : s.cache.nodes.dropLast ⊆ s.cache.nodes := List.dropLast_subset _
  -- the node evicted has an index of its own
  have hout : ∀ y ∈ s.cache.nodes.dropLast, y.index ≠ x.index := by
    have hnd := h.nodup
    rw [hsplit, List.map_append, List.nodup_append] at hnd
    intro y hy heq
    exact hnd.2.2 _ (List.mem_map_of_mem hy) _ (List.mem_map_of_mem List.mem_cons_self) heq
  have hrecent : ∀ j ∈ hot, j ∈ (s.cache.nodes.dropLast.take hot.length).map CacheNode.index := by
    intro j hj
    obtain ⟨y, hy, rfl⟩ := List.mem_map.mp (h.recent j hj)
    exact List.mem_map_of_mem (mem_take_dropLast hy (by rw [hlen]; exact hlt))
  have hloose : x.index ∉ loose := by
    intro hl
    obtain ⟨y, hy, hyx⟩ := List.mem_map.mp (hrecent _ (h.held hl))
    exact hout y (List.mem_of_mem_take hy) hyx
  have hback : release x s.disk x.offset = s.stored x.index := by
    rw [← (h.node x hxmem).2.2]
    unfold release
    split
    · rw [(h.node x hxmem).2.1]
      exact Disk.flush_self (h.lands (h.node x hxmem).1) s.disk x.block
    · rename_i hd
      exact h.clean x hxmem (Bool.eq_false_iff.mpr hd) hloose
  refine ⟨⟨h.ledger, h.room, h.size, ?_, ?_, fun y hy => h.node y (hsub hy), ?_, ?_, h.held,
    hrecent⟩, ?_, hsub,
    fun j hj => release_ne ?_⟩
  · simp only [List.length_dropLast]
    omega
  · exact h.nodup.sublist ((List.dropLast_sublist _).map _)
  · intro j hj hnot
    by_cases hjx : j = x.index
    · subst hjx
      rw [← (h.node x hxmem).2.1]
      exact hback
    · refine (release_ne ?_).trans (h.disk j hj fun hin => ?_)
      · rw [(h.node x hxmem).2.1]
        exact fun heq => hjx (blockOffset_inj heq)
      · obtain ⟨y, hy, rfl⟩ := List.mem_map.mp hin
        rw [hsplit] at hy
        rcases List.mem_append.mp hy with hy | hy
        · exact hnot (List.mem_map_of_mem hy)
        · exact hjx (by rw [List.mem_singleton.mp hy])
  · intro y hy hd hl
    refine (release_ne ?_).trans (h.clean y (hsub hy) hd hl)
    rw [(h.node x hxmem).2.1, (h.node y (hsub hy)).2.1]
    exact fun heq => hout y hy (blockOffset_inj heq)
  · simp only [List.length_dropLast]
    have : 0 < blockCacheSize := by decide
    omega
  · rw [(h.node x hxmem).2.1]
    intro heq
    rw [blockOffset_inj heq] at hj
    exact hj (List.mem_map_of_mem hxmem)

/-- `BlockCache::insert` of a block that is not in the cache, after a change of
the groups and the ghost that concerns this block only. -/
theorem Coherent.insertNode (h : Coherent hot loose m s) {x : CacheNode} {g : Groups}
    {f : Nat → Block} (hlt : hot.length < blockCacheSize) (hnew : s.cache.lookup x.index = none)
    (hledger : ∃ n ≤ 15, g.Ledger n) (hroom : g.Room m')
    (halloc : ∀ j, g.allocated .block j = if j = x.index then true else s.groups.allocated .block j)
    (hstored : ∀ j, f j = if j = x.index then x.block else s.stored j)
    (hoff : x.offset = blockOffset x.index)
    (hclean : x.dirty = false → x.index ∉ l → s.disk x.offset = x.block)
    (hsub : loose ⊆ l) (hheld : l ⊆ x.index :: hot) :
    Coherent (x.index :: hot) l m' (CachedFS.insertNode x { s with groups := g, stored := f }) := by
  obtain ⟨hr, hlen, hmem, hdisk⟩ := h.makeRoom hlt
  have hout := lookup_none hnew
  have hne : ∀ y ∈ (s.cache.makeRoom s.disk).1, y.index ≠ x.index := fun y hy heq =>
    hout (heq ▸ List.mem_map_of_mem (hmem hy))
  unfold CachedFS.insertNode BlockCache.insert
  simp only [hnew]
  refine ⟨hledger, hroom, h.size, hlen, List.nodup_cons.mpr ⟨?_, hr.nodup⟩, ?_, ?_, ?_, hheld, ?_⟩
  · intro hin
    obtain ⟨y, hy, heq⟩ := List.mem_map.mp hin
    exact hne y hy heq
  · intro y hy
    rcases List.mem_cons.mp hy with rfl | hy
    · exact ⟨(halloc _).trans (if_pos rfl), hoff, ((hstored _).trans (if_pos rfl)).symm⟩
    · obtain ⟨h1, h2, h3⟩ := hr.node y hy
      exact ⟨((halloc _).trans (if_neg (hne y hy))).trans h1, h2,
        h3.trans ((hstored _).trans (if_neg (hne y hy))).symm⟩
  · intro j hj hnot
    have hjx : j ≠ x.index := fun heq => hnot (heq ▸ List.mem_cons_self)
    rw [halloc, if_neg hjx] at hj
    simp only [hstored, if_neg hjx]
    exact hr.disk j hj fun hin => hnot (List.mem_cons_of_mem _ hin)
  · intro y hy hd hl
    rcases List.mem_cons.mp hy with rfl | hy
    · simp only
      rw [hoff, hdisk _ hout, ← hoff]
      exact hclean hd hl
    · exact hr.clean y hy hd fun hin => hl (hsub hin)
  · intro j hj
    rw [List.length_cons, List.take_succ_cons]
    rcases List.mem_cons.mp hj with rfl | hj
    · exact List.mem_cons_self
    · exact List.mem_cons_of_mem _ (hr.recent j hj)

/-! ## The operations of the block layer -/

theorem Coherent.lookup_free (h : Coherent hot loose m s)
    (hi : s.groups.allocated .block i = false) :
    s.cache.lookup i = none := by
  cases hl : s.cache.lookup i with
  | none => rfl
  | some x =>
    obtain ⟨hx, rfl⟩ := lookup_some hl
    rw [(h.node x hx).1] at hi
    cases hi

theorem Coherent.getBlock (h : Coherent hot loose m s) (hlt : hot.length < blockCacheSize)
    (dirty : Bool) (hi : s.groups.allocated .block i = true) :
    ∃ s', CachedFS.getBlock i dirty s = (some (s.stored i), s') ∧ Coherent (i :: hot) loose m s' ∧
      s'.groups = s.groups ∧ s'.stored = s.stored ∧
      (∀ j, s.groups.allocated .block j = false →
      s'.disk (blockOffset j) = s.disk (blockOffset j)) ∧ ∀ x ∈ s'.cache.nodes, x.index = i →
        dirty = true → x.dirty = true := by
  unfold CachedFS.getBlock BlockCache.get
  cases hl : s.cache.lookup i with
  | some x =>
    obtain ⟨hx, rfl⟩ := lookup_some hl
    refine ⟨_, congrArg (fun b => (some b, _)) (h.node x hx).2.2, h.touch hx dirty, rfl, rfl,
      fun _ _ => rfl, fun y hy hyi hd => ?_⟩
    rcases List.mem_cons.mp hy with rfl | hy
    · exact Bool.or_eq_true_iff.mpr (Or.inr hd)
    · exact absurd hyi (mem_detach.mp hy).2
  | none =>
    obtain ⟨n, hn, hled⟩ := h.ledger
    obtain ⟨bg, hfind, hbits, ht⟩ := Groups.allocated_iff.mp hi
    have hoff := offsetOf_eq hled (by omega) hfind hbits
    have hdisk := h.disk i hi (lookup_none hl)
    simp only [Groups.findGroup, hfind, ht, if_true, hoff, load]
    let x : CacheNode :=
      { index := i, offset := blockOffset i, block := s.disk (blockOffset i), dirty := dirty }
    refine ⟨s.insertNode x, congrArg (fun b => (some b, _)) hdisk,
      h.insertNode (x := x) hlt hl ⟨n, hn, hled⟩ h.room
      ?_ ?_ rfl ?_ (List.Subset.refl _) (fun j hj => List.mem_cons_of_mem _ (h.held hj)), rfl, rfl,
      fun j hj => ?_, fun y hy hyi hd => ?_⟩
    · intro j
      split
      · rename_i heq; rw [heq]; exact hi
      · rfl
    · intro j
      split
      · rename_i heq; rw [heq]; exact hdisk.symm
      · rfl
    · intro _ _; rfl
    · have hsame := (h.makeRoom hlt).2.2.2 j (lookup_none (h.lookup_free hj))
      unfold CachedFS.insertNode BlockCache.insert
      simp only [x, hl]
      exact hsame
    · unfold CachedFS.insertNode BlockCache.insert at hy
      simp only [x, hl] at hy
      rcases List.mem_cons.mp hy with rfl | hy
      · exact hd
      · have hin := (h.makeRoom hlt).2.2.1 hy
        exact absurd (hyi ▸ List.mem_map_of_mem hin) (lookup_none hl)

theorem Coherent.getBlock_free (h : Coherent hot loose m s) (dirty : Bool)
    (hi : s.groups.allocated .block i = false) : CachedFS.getBlock i dirty s = (none, s) := by
  obtain ⟨n, hn, hled⟩ := h.ledger
  unfold CachedFS.getBlock BlockCache.get
  rw [h.lookup_free hi]
  simp only [Groups.findGroup]
  cases hfind : s.groups.blockGroups.find (i / perGroup .block) with
  | none =>
    have hge : ¬ i / perGroup .block < n := fun hlt => by
      obtain ⟨bg, hbg⟩ := (hled.keys _).mpr hlt
      rw [hfind] at hbg
      cases hbg
    have hdesc : s.groups.super.getGroupDesc (i / perGroup .block) = none := by
      unfold SuperBlock.getGroupDesc
      rw [hled.table, List.getElem?_eq_none]
      rw [List.length_range]
      omega
    simp only [hdesc]
  | some bg =>
    have ht : (bg.bitmap .block).test (i % perGroup .block) = false := by
      rcases Nat.lt_or_ge (i % perGroup .block) bitmapBits with hlt | hge
      · unfold Groups.allocated at hi
        rw [hfind] at hi
        simpa [hlt] using hi
      · exact hled.tail _ bg hfind .block _ hge
    simp only [ht]
    rfl

theorem Coherent.allocRaw (h : Coherent hot loose (m + 1) s) (hlt : hot.length < blockCacheSize)
    (hm : m ≤ 32767) :
    ∃ i s', CachedFS.allocRaw s = (some i, s') ∧ s.groups.allocBlock.1 = some i ∧
      s.groups.allocated .block i = false ∧ Coherent (i :: hot) (i :: loose) m s' ∧
      (s.disk (blockOffset i) = Bytes.zero → Coherent (i :: hot) loose m s') ∧
      ∀ j, s.groups.allocated .block j = true → s'.groups.allocated .block j = true ∧
      s'.stored j = s.stored j := by
  obtain ⟨n, hn, hled⟩ := h.ledger
  obtain ⟨i, g, heq, hout, hled'⟩ := hled.alloc (by omega) .block
  obtain ⟨hn', hroom⟩ := hled.room_alloc hn h.room hm
  rw [heq] at hroom
  have halloc : ∀ j, g.allocated .block j = if j = i then true else
    s.groups.allocated .block j := by
    intro j
    rw [hout.after]
    simp
  obtain ⟨bg, hfind, hbits, -⟩ := Groups.allocated_iff.mp ((halloc i).trans (if_pos rfl))
  have hoff := offsetOf_eq hled' (Nat.le_trans hn' (by decide)) hfind hbits
  have hval : s.groups.allocBlock = (some i, g) := by
    unfold Groups.allocBlock
    rw [heq]
    rfl
  have hstored : ∀ j, Function.update s.stored i Bytes.zero j =
    if j = i then Bytes.zero else s.stored j :=
    fun j => Function.update_apply ..
  unfold CachedFS.allocRaw
  rw [hval]
  simp only [hfind, hoff]
  let x : CacheNode := { index := i, offset := blockOffset i, block := Bytes.zero, dirty := false }
  refine ⟨i, _, rfl, rfl, hout.free, ?_, fun hzero => ?_, fun j hj => ?_⟩
  · exact h.insertNode (x := x) hlt (h.lookup_free hout.free) ⟨_, hn',
      hled'⟩ hroom halloc hstored rfl
      (fun _ hl => absurd List.mem_cons_self hl) (List.subset_cons_self _ _)
        (List.cons_subset_cons _ h.held)
  · exact h.insertNode (x := x) hlt (h.lookup_free hout.free) ⟨_, hn',
      hled'⟩ hroom halloc hstored rfl
      (fun _ _ => hzero) (List.Subset.refl _) (fun j hj => List.mem_cons_of_mem _ (h.held hj))
  · have hne : j ≠ i := by
      rintro rfl
      rw [hout.free] at hj
      cases hj
    exact ⟨(halloc j).trans ((if_neg hne).trans hj), (hstored j).trans (if_neg hne)⟩

theorem Coherent.mapNodes (h : Coherent hot loose m s) {q : CacheNode → CacheNode}
    {f : Nat → Block} (hq : ∀ x, (q x).index = x.index ∧ (q x).offset = x.offset)
    (hblock : ∀ x ∈ s.cache.nodes, (q x).block = f x.index)
    (hstored : ∀ j, j ∉ s.cache.nodes.map CacheNode.index → f j = s.stored j)
    (hclean : ∀ x ∈ s.cache.nodes, (q x).dirty = false → x.index ∉ l →
      s.disk x.offset = (q x).block)
    (hheld : l ⊆ hot) :
    Coherent hot l m
      { s with cache := { s.cache with nodes := s.cache.nodes.map q }, stored := f } := by
  have hmap : (s.cache.nodes.map q).map CacheNode.index = s.cache.nodes.map CacheNode.index := by
    rw [List.map_map]
    exact List.map_congr_left fun x _ => (hq x).1
  refine ⟨h.ledger, h.room, h.size, ?_, ?_, ?_, ?_, ?_, hheld, ?_⟩
  · simpa using h.length
  · simpa only [hmap] using h.nodup
  · intro y hy
    obtain ⟨x, hx, rfl⟩ := List.mem_map.mp hy
    obtain ⟨h1, h2, -⟩ := h.node x hx
    rw [(hq x).1, (hq x).2]
    exact ⟨h1, h2, hblock x hx⟩
  · intro j hj hnot
    simp only [hmap] at hnot
    exact (h.disk j hj hnot).trans (hstored j hnot).symm
  · intro y hy hd hl
    obtain ⟨x, hx, rfl⟩ := List.mem_map.mp hy
    rw [(hq x).1] at hl
    rw [(hq x).2]
    exact hclean x hx hd hl
  · intro j hj
    have := h.recent j hj
    rwa [List.map_take, ← hmap, ← List.map_take] at this

theorem Coherent.poke (h : Coherent hot loose m s) (hi : i ∈ hot) (f : Block → Block) :
    Coherent hot (i :: loose) m (CachedFS.poke i f s) := by
  refine h.mapNodes (fun x => ?_) (fun x hx => ?_) (fun j hj => ?_) (fun x hx hd hl => ?_)
    (List.cons_subset.mpr ⟨hi, h.held⟩)
  · split <;> exact ⟨rfl, rfl⟩
  · rw [Function.update_apply]
    split
    · rename_i heq
      rw [(h.node x hx).2.2, heq]
    · exact (h.node x hx).2.2
  · rw [Function.update_of_ne]
    rintro rfl
    exact hj (h.resident hi)
  · have hne : x.index ≠ i := fun heq => hl (heq ▸ List.mem_cons_self)
    rw [if_neg hne] at hd ⊢
    exact h.clean x hx hd fun hin => hl (List.mem_cons_of_mem _ hin)

theorem Coherent.modify (h : Coherent hot loose m s) (i : Nat) (hl : loose ⊆ i :: l)
    (hheld : l ⊆ hot) :
    Coherent hot l m (CachedFS.modify i s) := by
  refine h.mapNodes (fun x => ?_) (fun x hx => ?_) (fun _ _ => rfl) (fun x hx hd hout => ?_) hheld
  · split <;> exact ⟨rfl, rfl⟩
  · split <;> exact (h.node x hx).2.2
  · by_cases heq : x.index = i
    · rw [if_pos heq] at hd
      cases hd
    · rw [if_neg heq] at hd ⊢
      exact h.clean x hx hd fun hin => hout ((List.mem_cons.mp (hl hin)).resolve_left heq)

theorem Coherent.pokeWord (h : Coherent hot loose m s) (k v : Nat) (hi : i ∈ hot)
    (hl : loose ⊆ i :: l) (hheld : l ⊆ hot) : Coherent hot l m (NaiveFS.pokeWord i k v i s) :=
  (h.poke hi _).modify i (List.cons_subset.mpr ⟨List.mem_cons_self, hl⟩) hheld

theorem Coherent.withRoom (h : Coherent hot loose m s) (hroom : s.groups.Room m') :
    Coherent hot loose m' s :=
  { h with room := hroom }

theorem room_zero {n : Nat} {g : Groups} (h : g.Ledger n) : g.Room 0 := by
  obtain ⟨bg, hbg⟩ := (h.keys 0).mpr h.pos
  exact Or.inr ⟨0, bg, hbg, Nat.zero_le _⟩

theorem Coherent.freeBlock (h : Coherent [] [] m s) (hi : s.groups.allocated .block i = true) :
    ∃ s', CachedFS.freeBlock i s = some (true, s') ∧ Coherent [] [] 0 s' := by
  obtain ⟨n, hn, hled⟩ := h.ledger
  obtain ⟨g, heq, hled', hafter⟩ := hled.free_allocated (by omega) hi
  have halloc : ∀ j, g.allocated .block j = true → j ≠ i ∧ s.groups.allocated .block j = true := by
    intro j hj
    rw [hafter] at hj
    by_cases hji : j = i
    · simp [hji] at hj
    · simpa [hji] using hj
  have hkeep : ∀ j, j ≠ i → s.groups.allocated .block j = true → g.allocated .block j = true := by
    intro j hji hj
    rw [hafter]
    simpa [hji] using hj
  unfold CachedFS.freeBlock BlockCache.remove
  rw [heq]
  cases hl : s.cache.lookup i with
  | none =>
    have hout := lookup_none hl
    refine ⟨_, rfl, ⟨⟨n, hn, hled'⟩, room_zero hled', h.size, h.length, h.nodup, fun y hy => ?_,
      fun j hj => ?_, h.clean, h.held, h.recent⟩⟩
    · obtain ⟨h1, h2, h3⟩ := h.node y hy
      exact ⟨hkeep _ (fun heq => hout (heq ▸ List.mem_map_of_mem hy)) h1, h2, h3⟩
    · exact h.disk j (halloc j hj).2
  | some x =>
    obtain ⟨hx, rfl⟩ := lookup_some hl
    have hoff := (h.node x hx).2.1
    have hsub : (s.cache.detach x.index).Sublist s.cache.nodes := List.filter_sublist
    refine ⟨_, rfl, ⟨⟨n, hn, hled'⟩, room_zero hled', h.size, Nat.le_trans hsub.length_le h.length,
      h.nodup.sublist (hsub.map _), fun y hy => ?_, fun j hj hnot => ?_, fun y hy hd _ => ?_,
      h.held, fun _ hj => absurd hj List.not_mem_nil⟩⟩
    · obtain ⟨hy, hne⟩ := mem_detach.mp hy
      obtain ⟨h1, h2, h3⟩ := h.node y hy
      exact ⟨hkeep _ hne h1, h2, h3⟩
    · obtain ⟨hne, hj⟩ := halloc j hj
      refine (release_ne ?_).trans (h.disk j hj fun hin => ?_)
      · rw [hoff]
        exact fun heq => hne (blockOffset_inj heq)
      · obtain ⟨y, hy, rfl⟩ := List.mem_map.mp hin
        exact hnot (List.mem_map_of_mem (mem_detach.mpr ⟨hy, hne⟩))
    · obtain ⟨hy, hne⟩ := mem_detach.mp hy
      refine (release_ne ?_).trans (h.clean y hy hd List.not_mem_nil)
      rw [hoff, (h.node y hy).2.1]
      exact fun heq => hne (blockOffset_inj heq)

/-! ## The tree code -/

theorem Coherent.fetch (h : Coherent hot loose m s) (hlt : hot.length < blockCacheSize) (i : Nat)
    (dirty : Bool) :
    s.groups.allocated .block i = false ∧ BlockReader.getBlock i dirty s = (none, s) ∨
      ∃ s', BlockReader.getBlock i dirty s = (some (s.stored i), s') ∧
        Coherent (i :: hot) loose m s' ∧ s'.groups = s.groups ∧ s'.stored = s.stored := by
  cases hi : s.groups.allocated .block i with
  | false => exact Or.inl ⟨rfl, h.getBlock_free dirty hi⟩
  | true =>
    obtain ⟨s', heq, h', hgroups, hstored, -⟩ := h.getBlock hlt dirty hi
    exact Or.inr ⟨s', heq, h', hgroups, hstored⟩

/-- The root of an indirect level is held; a new one is loose. -/
theorem Coherent.openRoot (h : Coherent hot loose (m + 1) s) (hlt : hot.length < blockCacheSize)
    (hm : m ≤ 32767) (slot : Nat) (first : Bool) (ino : TreeInode) :
    first = false ∧ s.groups.allocated .block (ino.iBlock slot) = false ∧
      NaiveFS.openRoot slot first ino s = (none, ino, s) ∨
        ∃ i b ino' s' l, NaiveFS.openRoot slot first ino s = (some (i, b), ino', s') ∧
        ino'.iBlock slot = i ∧ Coherent (i :: hot) l m s' ∧ l ⊆ i :: loose ∧
        (first = false → l = loose ∧ b = s.stored (ino.iBlock slot) ∧ s'.groups = s.groups ∧
          s'.stored = s.stored) := by
  unfold NaiveFS.openRoot
  cases first with
  | true =>
    obtain ⟨i, s', heq, -, -, h', -⟩ := h.allocRaw hlt hm
    have heq' : BlockLayer.allocRaw s = (some i, s') := heq
    rw [if_pos rfl, heq']
    exact Or.inr ⟨i, _, _, s', _, rfl, Function.update_self .., h', List.Subset.refl _,
      fun hf => by cases hf⟩
  | false =>
    rw [if_neg Bool.false_ne_true]
    rcases h.fetch hlt (ino.iBlock slot) false with ⟨hfree, heq⟩ | ⟨s', heq, h', hgroups, hstored⟩
    · rw [heq]
      exact Or.inl ⟨rfl, hfree, rfl⟩
    · rw [heq]
      exact Or.inr ⟨_, _, ino, s', loose, rfl, rfl, h'.lessRoom (Nat.le_succ m),
        List.subset_cons_self _ _, fun _ => ⟨rfl, rfl, hgroups, hstored⟩⟩

/-! ## The way to the next block -/

section
variable (s : CachedFS) (ino : TreeInode) (n : Nat)

def IndOpen : Prop := n = maxDirBlocks ∨ s.groups.allocated .block (ino.iBlock indBlock) = true

def DindOpen : Prop :=
  n = maxDirBlocks + maxIndBlocks ∨
    s.groups.allocated .block (ino.iBlock dindBlock) = true ∧
      ((n - maxDirBlocks - maxIndBlocks) % numIndirectBlocks = 0 ∨
        s.groups.allocated .block
          ((s.stored (ino.iBlock dindBlock)).word ((n - maxDirBlocks - 1) / numIndirectBlocks -
          1)) = true)

def TindOpen : Prop :=
  let dbl := (s.stored (ino.iBlock tindBlock)).word
    ((n - maxDirBlocks - maxIndBlocks - 1) / maxDindBlocks - 1)
  let inner := (n - maxDirBlocks - maxIndBlocks - maxDindBlocks) % maxDindBlocks
  s.groups.allocated .block (ino.iBlock tindBlock) = true ∧ s.groups.allocated .block dbl = true ∧
    (inner % maxIndBlocks = 0 ∨
      s.groups.allocated .block ((s.stored dbl).word ((inner + maxIndBlocks - 1) / maxIndBlocks -
      1)) = true)

/-- The pointer blocks that `alloc_block` fetches on the way to file block `n` are in use. -/
def WayOpen : Prop :=
  if n < maxDirBlocks then True
  else if n < maxDirBlocks + maxIndBlocks then s.IndOpen ino n
  else if n < maxDirBlocks + maxIndBlocks + maxDindBlocks then s.DindOpen ino n
  else s.TindOpen ino n

end

/-- Further blocks in use do no harm. -/
theorem WayOpen.mono {s' : CachedFS} {ino : TreeInode} {n : Nat}
    (hold : ∀ j, s.groups.allocated .block j = true → s'.groups.allocated .block j = true ∧
      s'.stored j = s.stored j)
    (h : s.WayOpen ino n) : s'.WayOpen ino n := by
  have hind : s.IndOpen ino n → s'.IndOpen ino n := Or.imp_right fun h => (hold _ h).1
  have hdind : s.DindOpen ino n → s'.DindOpen ino n :=
    Or.imp_right fun ⟨hroot, hchild⟩ => ⟨(hold _ hroot).1, hchild.imp_right fun h => by
      rw [(hold _ hroot).2]
      exact (hold _ h).1⟩
  have htind : s.TindOpen ino n → s'.TindOpen ino n := by
    rintro ⟨hroot, hdbl, htpl⟩
    unfold TindOpen
    simp only [(hold _ hroot).2, (hold _ hdbl).2]
    exact ⟨(hold _ hroot).1, (hold _ hdbl).1, htpl.imp_right fun h => (hold _ h).1⟩
  unfold WayOpen at h ⊢
  split_ifs at h ⊢
  · exact hind h
  · exact hdind h
  · exact htind h

/-- The blocks held before are still held and no further one is loose. -/
def Kept (hot loose : List Nat) (m : Nat) (s : CachedFS) : Prop :=
  ∃ hot', hot ⊆ hot' ∧ Coherent hot' loose m s

theorem Coherent.kept (h : Coherent hot loose m s) (hm : m' ≤ m) : Kept hot loose m' s :=
  ⟨hot, List.Subset.refl _, h.lessRoom hm⟩

theorem Coherent.mapInd (h : Coherent hot loose (m + 2) s) (hlt : hot.length + 3 < blockCacheSize)
    (hm : m < 32767) (n blockIndex : Nat) (ino : TreeInode) :
    Kept hot loose m (NaiveFS.mapInd n blockIndex ino s).2.2 ∧
      (s.IndOpen ino n → (NaiveFS.mapInd n blockIndex ino s).1 = true) := by
  unfold NaiveFS.mapInd
  rcases h.openRoot (by omega) hm indBlock (n == maxDirBlocks) ino with
    ⟨hfirst, hfree, heq⟩ | ⟨i, b, ino', s', l, heq, hroot, h', hl, -⟩
  · rw [heq]
    refine ⟨h.kept (by omega), fun hopen => ?_⟩
    rcases hopen with rfl | hroot
    · simp at hfirst
    · rw [hfree] at hroot
      cases hroot
  · rw [heq]
    simp only [hroot]
    have hheld : loose ⊆ i :: hot := fun j hj => List.mem_cons_of_mem _ (h.held hj)
    exact ⟨⟨i :: hot, List.subset_cons_self _ _,
      (h'.pokeWord _ _ List.mem_cons_self hl hheld).lessRoom (Nat.le_succ m)⟩, fun _ => trivial⟩

theorem Coherent.mapDind (h : Coherent hot loose (m + 2) s)
    (hlt : hot.length + 3 < blockCacheSize) (hm : m < 32767) (n blockIndex : Nat)
    (ino : TreeInode) : Kept hot loose m (NaiveFS.mapDind n blockIndex ino s).2.2 ∧
      (s.DindOpen ino n → (NaiveFS.mapDind n blockIndex ino s).1 = true) := by
  unfold NaiveFS.mapDind
  rcases h.openRoot (by omega) hm dindBlock (n == maxDirBlocks + maxIndBlocks) ino with
    ⟨hfirst, hfree, heq⟩ | ⟨ind, b, ino', s', l, heq, hroot, h', hl, hfirst⟩
  · rw [heq]
    refine ⟨h.kept (by omega), fun hopen => ?_⟩
    rcases hopen with rfl | ⟨hroot, -⟩
    · simp at hfirst
    · rw [hfree] at hroot
      cases hroot
  have hheld : loose ⊆ ind :: hot := fun j hj => List.mem_cons_of_mem _ (h.held hj)
  rw [heq]
  simp only [hroot]
  split
  · -- a new double indirect block: it and the root are stored to and marked
    obtain ⟨dbl, s₂, halloc, -, -, h₂, -⟩ :=
      h'.allocRaw (by simp only [List.length_cons]; omega) (by omega)
    have halloc' : BlockLayer.allocRaw s' = (some dbl, s₂) := halloc
    rw [halloc']
    have hheld₂ : loose ⊆ dbl :: ind :: hot := fun j hj => List.mem_cons_of_mem _ (hheld hj)
    have hpoke := h₂.pokeWord ((n - maxDirBlocks - 1) / numIndirectBlocks) dbl (i := ind)
      (l := dbl :: loose)
      (List.mem_cons_of_mem _ List.mem_cons_self)
      (fun j hj => by
        rcases List.mem_cons.mp hj with rfl | hj
        · exact List.mem_cons_of_mem _ List.mem_cons_self
        · rcases List.mem_cons.mp (hl hj) with rfl | hj
          · exact List.mem_cons_self
          · exact List.mem_cons_of_mem _ (List.mem_cons_of_mem _ hj))
      (List.cons_subset.mpr ⟨List.mem_cons_self, hheld₂⟩)
    exact ⟨⟨dbl :: ind :: hot, fun j hj => List.mem_cons_of_mem _ (List.mem_cons_of_mem _ hj),
      hpoke.pokeWord _ _ List.mem_cons_self (List.Subset.refl _) hheld₂⟩, fun _ => rfl⟩
  · rename_i hinner
    have hnot : (n == maxDirBlocks + maxIndBlocks) = false := by
      rw [beq_eq_false_iff_ne]
      rintro rfl
      exact hinner (by simp)
    obtain ⟨rfl, rfl, hgroups, -⟩ := hfirst hnot
    rcases h'.fetch (by simp only [List.length_cons]; omega)
      ((s.stored (ino.iBlock dindBlock)).word ((n - maxDirBlocks - 1) / numIndirectBlocks - 1))
        false with
      ⟨hfree, hget⟩ | ⟨s₂, hget, h₂, -⟩
    · rw [hget]
      refine ⟨⟨ind :: hot, List.subset_cons_self _ _, h'.lessRoom (Nat.le_succ m)⟩, fun hopen => ?_⟩
      rw [hgroups] at hfree
      obtain ⟨-, hchild⟩ := hopen.resolve_left fun heq => by simp [heq] at hnot
      rw [hfree] at hchild
      exact absurd (hchild.resolve_right Bool.false_ne_true) hinner
    · rw [hget]
      exact ⟨⟨_, fun j hj => List.mem_cons_of_mem _ (List.mem_cons_of_mem _ hj),
        (h₂.pokeWord _ _ List.mem_cons_self (List.subset_cons_self _ _)
          fun j hj => List.mem_cons_of_mem _ (hheld hj)).lessRoom (Nat.le_succ m)⟩, fun _ => rfl⟩

/-- File block `n` needs a new double indirect block under the triple indirect root. -/
def NewDouble (n : Nat) : Prop :=
  maxDirBlocks + maxIndBlocks + maxDindBlocks ≤ n ∧
    (n - maxDirBlocks - maxIndBlocks - maxDindBlocks) % maxDindBlocks = 0

theorem sub_sum_mod (a b c d : Nat) : (a + b + c - a - b - c) % d = 0 := by
  rw [Nat.add_assoc, Nat.add_sub_cancel_left, Nat.add_sub_cancel_left, Nat.sub_self, Nat.zero_mod]

theorem Coherent.mapTind (h : Coherent hot loose (m + 2) s)
    (hlt : hot.length + 3 < blockCacheSize) (hm : m < 32767) {n : Nat}
    (hn : (n - maxDirBlocks - maxIndBlocks - maxDindBlocks) % maxDindBlocks ≠ 0)
    (blockIndex : Nat) (ino : TreeInode) :
    Kept hot loose m (NaiveFS.mapTind n blockIndex ino s).2.2 ∧
      (s.TindOpen ino n → (NaiveFS.mapTind n blockIndex ino s).1 = true) := by
  unfold NaiveFS.mapTind
  rcases h.openRoot (by omega) hm tindBlock (n == maxDirBlocks + maxIndBlocks + maxDindBlocks)
    ino with
    ⟨-, hfree, heq⟩ | ⟨ind, b, ino', s', l, heq, -, h', -, hfirst⟩
  · rw [heq]
    refine ⟨h.kept (by omega), fun ⟨hroot, _⟩ => ?_⟩
    rw [hfree] at hroot
    cases hroot
  have hnot : (n == maxDirBlocks + maxIndBlocks + maxDindBlocks) = false := by
    rw [beq_eq_false_iff_ne]
    rintro rfl
    exact hn (sub_sum_mod ..)
  obtain ⟨rfl, rfl, hgroups, hstored⟩ := hfirst hnot
  have hheld : l ⊆ ind :: hot := fun j hj => List.mem_cons_of_mem _ (h.held hj)
  rw [heq]
  simp only
  rw [if_neg hn]
  unfold TindOpen
  generalize (s.stored (ino.iBlock tindBlock)).word
    ((n - maxDirBlocks - maxIndBlocks - 1) / maxDindBlocks - 1) = dbl
  generalize (n - maxDirBlocks - maxIndBlocks - maxDindBlocks) % maxDindBlocks = inner
  rcases h'.fetch (by simp only [List.length_cons]; omega) dbl false with ⟨hfree, hget⟩ | ⟨s₂, hget,
    h₂, hgroups₂, -⟩
  · rw [hget]
    refine ⟨⟨ind :: hot, List.subset_cons_self _ _, h'.lessRoom (Nat.le_succ m)⟩,
      fun ⟨_, hdbl, _⟩ => ?_⟩
    simp [← hgroups, hfree] at hdbl
  rw [hget]
  have hheld₂ : l ⊆ dbl :: ind :: hot := fun j hj => List.mem_cons_of_mem _ (hheld hj)
  have hhot₂ : hot ⊆ dbl :: ind :: hot :=
    fun j hj => List.mem_cons_of_mem _ (List.mem_cons_of_mem _ hj)
  simp only
  split
  · obtain ⟨tpl, s₃, halloc, -, -, h₃, -⟩ :=
      h₂.allocRaw (by simp only [List.length_cons]; omega) (by omega)
    have halloc' : BlockLayer.allocRaw s₂ = (some tpl, s₃) := halloc
    rw [halloc']
    have hheld₃ : l ⊆ tpl :: dbl :: ind :: hot := fun j hj => List.mem_cons_of_mem _ (hheld₂ hj)
    have hpoke := h₃.pokeWord ((inner + maxIndBlocks - 1) / maxIndBlocks) tpl (i := dbl)
      (List.mem_cons_of_mem _ List.mem_cons_self) (List.subset_cons_self _ _) h₃.held
    exact ⟨⟨_, fun j hj => List.mem_cons_of_mem _ (hhot₂ hj),
      hpoke.pokeWord _ _ List.mem_cons_self (List.Subset.refl _) hheld₃⟩, fun _ => rfl⟩
  · rename_i hinner
    rcases h₂.fetch (by simp only [List.length_cons]; omega)
      ((s'.stored dbl).word ((inner + maxIndBlocks - 1) / maxIndBlocks - 1)) false with ⟨hfree,
        hget₃⟩ | ⟨s₃, hget₃, h₃, -⟩
    · rw [hget₃]
      refine ⟨⟨_, hhot₂, h₂.lessRoom (Nat.le_succ m)⟩, fun ⟨_, _, htpl⟩ => ?_⟩
      rw [← hstored, ← hgroups, ← hgroups₂, hfree] at htpl
      exact absurd (htpl.resolve_right Bool.false_ne_true) hinner
    · rw [hget₃]
      exact ⟨⟨_, fun j hj => List.mem_cons_of_mem _ (hhot₂ hj),
        (h₃.pokeWord _ _ List.mem_cons_self (List.subset_cons_self _ _)
          fun j hj => List.mem_cons_of_mem _ (hheld₂ hj)).lessRoom (Nat.le_succ m)⟩, fun _ => rfl⟩

theorem Coherent.mapBlock (h : Coherent hot loose (m + 2) s)
    (hlt : hot.length + 3 < blockCacheSize) (hm : m < 32767) {n : Nat} (hn : ¬ NewDouble n)
    (blockIndex : Nat) (ino : TreeInode) :
    Kept hot loose m (NaiveFS.mapBlock n blockIndex ino s).2.2 ∧
      (s.WayOpen ino n → (NaiveFS.mapBlock n blockIndex ino s).1 = true) := by
  unfold NaiveFS.mapBlock WayOpen
  split_ifs with h1 h2 h3
  · exact ⟨h.kept (by omega), fun _ => rfl⟩
  · exact h.mapInd hlt hm n blockIndex ino
  · exact h.mapDind hlt hm n blockIndex ino
  · exact h.mapTind hlt hm (fun hz => hn ⟨Nat.le_of_not_lt h3, hz⟩) blockIndex ino

/-- `alloc_block(inode)`: the data block is held; it is loose unless the disk
already has zeros in its place. -/
theorem Coherent.allocBlock (h : Coherent hot loose (m + 3) s)
    (hlt : hot.length + 4 < blockCacheSize) (hm : m < 32766) (ino : TreeInode)
    (hn : ¬ NewDouble (numAlignedBlocks ino.iBlocks)) :
    ∃ i r ino' s', s.groups.allocBlock.1 = some i ∧ s.groups.allocated .block i = false ∧
      NaiveFS.allocBlock ino s = (r, ino', s') ∧
      (r = none ∧ ¬ s.WayOpen ino (numAlignedBlocks ino.iBlocks) ∨ r = some i) ∧
      Kept (i :: hot) (i :: loose) m s' ∧ (s.disk (blockOffset i) = Bytes.zero →
        Kept (i :: hot) loose m s') := by
  obtain ⟨i, s₁, heq, hidx, hfree, h₁, hzero, hold⟩ := h.allocRaw (m := m + 2) (by omega) (by omega)
  have heq' : BlockLayer.allocRaw s = (some i, s₁) := heq
  have hlen : (i :: hot).length + 3 < blockCacheSize := by simp only [List.length_cons]; omega
  obtain ⟨hk, hopen⟩ := h₁.mapBlock hlen (by omega) hn i ino
  have hk' := fun hz => ((hzero hz).mapBlock hlen (by omega) hn i ino).1
  unfold NaiveFS.allocBlock
  rw [heq']
  simp only
  generalize NaiveFS.mapBlock (numAlignedBlocks ino.iBlocks) i ino s₁ = r at hk hk' hopen ⊢
  obtain ⟨ok, ino', s'⟩ := r
  cases ok with
  | false =>
    refine ⟨i, none, ino', s', hidx, hfree, rfl, Or.inl ⟨rfl, fun hway => ?_⟩, hk, hk'⟩
    cases hopen (hway.mono hold)
  | true => exact ⟨i, some i, _, s', hidx, hfree, rfl, Or.inr rfl, hk, hk'⟩

end CachedFS

end NaiveFS
