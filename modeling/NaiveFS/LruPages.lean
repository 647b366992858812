import NaiveFS.LruSound

/-!
# The operations of the block cache on its pages

With the nodes between the sentinels as its list, each operation of the cache is
the change of `PageStore` that goes by the same name there.
-/

namespace NaiveFS

open Sentinels LruHeap BlockCache

/-- What a node holds. -/
def LruNode.page (x : LruNode) : CacheNode := ⟨x.index, x.block.offset, x.block.bytes, x.dirty⟩

namespace LruHeap

/-- The nodes from `r` on, at most `k` of them. -/
def walk (h : LruHeap) : Nat → NodeRef → List NodeRef
  | 0, _ => []
  | k + 1, r => if r = .tail then [] else r :: walk h k (h r).next

theorem walk_links {h : LruHeap} :
    ∀ {ns : List NodeRef} {a : NodeRef} {k : Nat}, Links (nextOf h) (prevOf h) a ns .tail →
    .tail ∉ ns → ns.length ≤ k → walk h k (h a).next = ns
  | [], a, k, hl, _, _ => by
    have hnext : (h a).next = .tail := hl.1
    cases k with
    | zero => rfl
    | succ k => simp [walk, hnext]
  | x :: ns, a, 0, _, _, hk => by simp at hk
  | x :: ns, a, k + 1, hl, htail, hk => by
    obtain ⟨hnext, -, hl⟩ := hl
    have hne : x ≠ .tail := fun heq => htail (by simp [heq])
    rw [show (h a).next = x from hnext, walk, if_neg hne,
      walk_links hl (fun hm => htail (List.mem_cons_of_mem _ hm))]
    simpa using hk

theorem SameData.page {h h' : LruHeap} (hs : SameData h h') (r : NodeRef) :
    (h' r).page = (h r).page := by
  simp [LruNode.page, hs.index, hs.block, hs.dirty]

end LruHeap

namespace LruCache

/-- The list from `head_` to `tail_`. -/
def nodes (c : LruCache) : List NodeRef := c.heap.walk c.map.length (c.heap .head).next

/-- The nodes `ns` as the nodes of a `PageStore`. -/
def pages (size : Nat) (place : Nat → Nat) (c : LruCache) (ns : List NodeRef) : PageStore :=
  ⟨⟨size, ns.map fun r => (c.heap r).page⟩, c.disk, fun i => some (place i)⟩

end LruCache

/-- The nodes keep their keys and their `Block*`. -/
def KeepsIds (c c' : LruCache) : Prop :=
  ∀ r, (c'.heap r).index = (c.heap r).index ∧ (c'.heap r).block.id = (c.heap r).block.id

section
variable {size : Nat} {place : Nat → Nat} {c : LruCache} {ns l₁ l₂ : List NodeRef} {n r : NodeRef}
  {i : Nat}

namespace Holds

theorem nodes (hc : Holds size c ns) : c.nodes = ns := by
  refine walk_links hc.links (fun hm => ?_) ?_
  · obtain ⟨i, hi⟩ := hc.entry _ (List.mem_append_left _ hm)
    cases hi
  · rw [hc.map.length_eq, List.length_map]

theorem held : (c.pages size place ns).held = ns.map fun r => (c.heap r).index := by
  unfold PageStore.held LruCache.pages
  rw [List.map_map]
  rfl

theorem lookup (hc : Holds size c ns) (i : Nat) :
    (c.pages size place ns).cache.lookup i = (c.find i).map fun r => (c.heap r).page := by
  unfold BlockCache.lookup LruCache.pages
  simp only
  rw [List.find?_map]
  cases hf : c.find i with
  | none =>
    have hout := hc.find_none.mp hf
    have hnone : ns.find? ((fun x : CacheNode => decide (x.index = i)) ∘ fun r => (c.heap r).page) =
      none := by
      apply List.find?_eq_none.mpr
      intro r hr hri
      exact hout (List.mem_map.mpr ⟨r, hr, by simpa [LruNode.page] using hri⟩)
    rw [hnone]
  | some n =>
    obtain ⟨hn, hni⟩ := hc.find_some.mp hf
    cases hq : ns.find? ((fun x : CacheNode => decide (x.index = i)) ∘ fun r =>
      (c.heap r).page) with
    | none =>
      have := List.find?_eq_none.mp hq n hn
      simp [LruNode.page, hni] at this
    | some q =>
      have hqi : (c.heap q).index = i := by simpa [LruNode.page] using List.find?_some hq
      rw [List.inj_on_of_nodup_map hc.keys (List.mem_of_find?_eq_some hq) hn (hqi.trans hni.symm)]

theorem content (hc : Holds size c ns) (i : Nat) : (c.pages size place ns).content i =
    some (match c.find i with
      | some n => (c.heap n).block.bytes
      | none => c.disk (place i)) := by
  unfold PageStore.content
  rw [hc.lookup]
  cases c.find i <;> rfl

theorem detach_pages (hc : Holds size c (l₁ ++ n :: l₂)) :
    (c.pages size place (l₁ ++ n :: l₂)).cache.detach (c.heap n).index =
      (l₁ ++ l₂).map fun r => (c.heap r).page := by
  unfold BlockCache.detach LruCache.pages
  exact hc.filter_rest fun r => decide_eq_true_iff

theorem not_mem_rest (hc : Holds size c (l₁ ++ n :: l₂)) (hr : r ∈ l₁ ++ l₂) : r ≠ n := by
  rintro rfl
  exact (List.nodup_cons.mp (perm_front.nodup_iff.mpr (List.nodup_append.mp hc.nodup).1)).1 hr

theorem split (hc : Holds size c ns) (hf : c.find i = some n) :
    ∃ l₁ l₂, ns = l₁ ++ n :: l₂ ∧ (c.heap n).index = i := by
  obtain ⟨hn, hi⟩ := hc.find_some.mp hf
  obtain ⟨l₁, l₂, hl⟩ := List.append_of_mem hn
  exact ⟨l₁, l₂, hl, hi⟩

/-! ## A node moved to the front -/

theorem touched_pages (hc : Holds size c (l₁ ++ n :: l₂)) {h : LruHeap} {dirty : Bool}
    (hother : ∀ r, r ≠ n → (h r).page = (c.heap r).page)
    (hself : (h n).page = { (c.heap n).page with dirty := (c.heap n).dirty || dirty }) :
    LruCache.pages size place { c with heap := h } (n :: (l₁ ++ l₂)) =
      (c.pages size place (l₁ ++ n :: l₂)).touched (c.heap n).page dirty := by
  have hrest : (l₁ ++ l₂).map (fun r => (h r).page) = (l₁ ++ l₂).map fun r => (c.heap r).page :=
    List.map_congr_left fun r hr => hother r (hc.not_mem_rest hr)
  unfold PageStore.touched
  rw [show (c.heap n).page.index = (c.heap n).index from rfl, hc.detach_pages]
  unfold LruCache.pages
  rw [List.map_cons, hrest, hself]
  rfl

variable (place) in
theorem get_hit (hc : Holds size c (l₁ ++ n :: l₂)) (hf : c.find i = some n) (dirty : Bool) :
    (c.get i dirty).1 = some (c.heap n).block ∧ Holds size (c.get i dirty).2 (n :: (l₁ ++ l₂)) ∧
      (c.get i dirty).2.pages size place (n :: (l₁ ++ l₂)) =
      (c.pages size place (l₁ ++ n :: l₂)).touched (c.heap n).page dirty ∧
      KeepsIds c (c.get i dirty).2 := by
  have hsame := (detach_same c.heap n).trans (attach_same _ n)
  have hfront := hc.front hc.links_front hsame.index
  unfold LruCache.get
  rw [hf]
  simp only
  refine ⟨?_, hfront.data n (by rfl) (by rfl) (by rfl) c.disk, hc.touched_pages (fun r hr => ?_) ?_,
    fun r => ?_⟩
  · rw [Function.update_self, hsame.block]
  · rw [Function.update_of_ne hr, hsame.page]
  · rw [Function.update_self]
    simp [LruNode.page, hsame.dirty, hsame.index, hsame.block]
  · by_cases hr : r = n
    · simp [hr, hsame.block, hsame.index]
    · simp [hr, hsame.block, hsame.index]

variable (place) in
theorem insert_hit (hc : Holds size c (l₁ ++ n :: l₂)) (hf : c.find i = some n) (b : BlockRef)
    (dirty : Bool) :
    Holds size (c.insert i b dirty) (n :: (l₁ ++ l₂)) ∧
      (c.insert i b dirty).pages size place (n :: (l₁ ++ l₂)) =
      (c.pages size place (l₁ ++ n :: l₂)).touched (c.heap n).page dirty ∧
      KeepsIds c (c.insert i b dirty) := by
  let x : LruNode := { c.heap n with dirty := (c.heap n).dirty || dirty }
  have hmark : Holds size { c with heap := Function.update c.heap n x } (l₁ ++ n :: l₂) :=
    hc.data n (by rfl) (by rfl) (by rfl) c.disk
  have hsame := (detach_same (Function.update c.heap n x) n).trans (attach_same _ n)
  unfold LruCache.insert
  rw [hf]
  simp only
  refine ⟨hmark.front hmark.links_front hsame.index, hc.touched_pages (fun r hr => ?_) ?_,
    fun r => ?_⟩
  · rw [hsame.page, Function.update_of_ne hr]
  · rw [hsame.page, Function.update_self]
    rfl
  · rw [hsame.index, hsame.block]
    by_cases hr : r = n
    · simp [hr, x]
    · simp [hr]

end Holds

/-! ## A node written back and dropped -/

namespace LruCache

/-- What eviction and `remove` share. -/
def dropNode (c : LruCache) (n : NodeRef) : LruCache :=
  ((LruCache.mk (c.heap.detach n) c.map c.free c.disk).release n).erase (c.heap.detach n n).index

theorem evict_eq (c : LruCache) : c.evict = c.dropNode (prevOf c.heap .tail) := rfl

theorem remove_hit (hf : c.find i = some n) : c.remove i = c.dropNode n := by
  unfold remove
  rw [hf]
  rfl

theorem dropNode_disk (c : LruCache) (n : NodeRef) :
    (c.dropNode n).disk = BlockCache.release (c.heap n).page c.disk := by
  have hsame := detach_same c.heap n
  show writeBack (c.heap.detach n n) c.disk = _
  unfold writeBack
  rw [hsame.dirty, hsame.block]
  rfl

end LruCache

namespace Holds

theorem dropNode (hc : Holds size c (l₁ ++ n :: l₂)) : Holds size (c.dropNode n) (l₁ ++ l₂) := by
  refine hc.drop rfl rfl ?_
  rw [← (detach_same c.heap n).index]
  rfl

variable (place) in
theorem dropped_pages (hc : Holds size c (l₁ ++ n :: l₂)) :
    (c.dropNode n).pages size place (l₁ ++ l₂) =
    (c.pages size place (l₁ ++ n :: l₂)).dropped (c.heap n).page := by
  have hrest : ((l₁ ++ l₂).map fun r => ((c.dropNode n).heap r).page) =
    (l₁ ++ l₂).map fun r => (c.heap r).page :=
    List.map_congr_left fun r _ => (detach_same c.heap n).page r
  unfold PageStore.dropped
  rw [show (c.heap n).page.index = (c.heap n).index from rfl, hc.detach_pages]
  unfold LruCache.pages
  rw [hrest, LruCache.dropNode_disk]

theorem keepsIds_drop (c : LruCache) (n : NodeRef) : KeepsIds c (c.dropNode n) :=
  fun r => ⟨(detach_same c.heap n).index r, congrArg BlockRef.id ((detach_same c.heap n).block r)⟩

/-! ## A new node -/

theorem room (hc : Holds size c ns) (hpos : 0 < size) : ∃ ns₁ n free,
    (if c.free = [] then c.evict else c).free = n :: free ∧
      Holds size (if c.free = [] then c.evict else c) ns₁ ∧
        (∀ r, ((if c.free = [] then c.evict else c).heap r).page = (c.heap r).page ∧
        ((if c.free = [] then c.evict else c).heap r).block.id = (c.heap r).block.id) ∧
      (if c.free = [] then ns = ns₁ ++ [n] ∧ (if c.free = [] then c.evict else c).disk =
        release (c.heap n).page c.disk
        else ns = ns₁ ∧ (if c.free = [] then c.evict else c).disk = c.disk) := by
  by_cases hfree : c.free = []
  · have hlen := hc.length
    rw [hfree, List.length_nil] at hlen
    have hne : ns ≠ [] := fun h => by simp [h] at hlen; omega
    obtain ⟨l, n, rfl⟩ : ∃ l n, ns = l ++ [n] :=
      ⟨ns.dropLast, ns.getLast hne, (List.dropLast_append_getLast hne).symm⟩
    have hlast : prevOf c.heap .tail = n := hc.links.prev_end
    simp only [hfree, if_true, LruCache.evict_eq, hlast]
    refine ⟨l, n, c.free, rfl, ?_, fun r => ⟨(detach_same c.heap n).page r, ?_⟩, rfl,
      c.dropNode_disk n⟩
    · have := hc.dropNode
      rwa [List.append_nil] at this
    · exact congrArg BlockRef.id ((detach_same c.heap n).block r)
  · obtain ⟨n, free, hcons⟩ := List.exists_cons_of_ne_nil hfree
    simp only [hfree, if_false]
    exact ⟨ns, n, free, hcons, hc, fun _ => ⟨trivial, trivial⟩, rfl, trivial⟩

variable (place) in
theorem insert_miss (hc : Holds size c ns) (hpos : 0 < size) (hf : c.find i = none) (b : BlockRef)
    (dirty : Bool) :
    ∃ n ns₁, Holds size (c.insert i b dirty) (n :: ns₁) ∧
      (c.insert i b dirty).pages size place (n :: ns₁) =
      (c.pages size place ns).inserted ⟨i, b.offset, b.bytes, dirty⟩ ∧
      ((c.insert i b dirty).heap n).block = b ∧ ((c.insert i b dirty).heap n).index = i ∧
      (∀ r ∈ ns₁, r ∈ ns ∧ ((c.insert i b dirty).heap r).page = (c.heap r).page ∧
        ((c.insert i b dirty).heap r).block.id = (c.heap r).block.id) ∧
      (if c.free = [] then ns = ns₁ ++ [n] ∧ (c.insert i b dirty).disk =
        release (c.heap n).page c.disk
        else ns = ns₁ ∧ (c.insert i b dirty).disk = c.disk) := by
  obtain ⟨ns₁, n, free, hfree, hc₁, hpage, hdisk⟩ := hc.room hpos
  have hsub : ∀ r ∈ ns₁, r ∈ ns := by
    intro r hr
    split at hdisk
    · rw [hdisk.1]
      exact List.mem_append_left _ hr
    · rw [hdisk.1]
      exact hr
  unfold LruCache.insert
  rw [hf]
  simp only
  generalize (if c.free = [] then c.evict else c) = c₁ at hfree hc₁ hpage hdisk ⊢
  rw [hfree]
  simp only
  have hout : i ∉ ns₁.map fun r => (c₁.heap r).index := by
    intro hi
    obtain ⟨r, hr, hri⟩ := List.mem_map.mp hi
    have hidx : (c₁.heap r).index = (c.heap r).index := congrArg CacheNode.index (hpage r).1
    exact hc.find_none.mp hf (List.mem_map.mpr ⟨r, hsub r hr, hidx.symm.trans hri⟩)
  have hnew := hc₁.new hfree (x := { c₁.heap n with index := i, block := b, dirty := dirty })
    rfl rfl hout
  have hsame :=
    attach_same (Function.update c₁.heap n
    { c₁.heap n with index := i, block := b, dirty := dirty }) n
  have hrest : ∀ r ∈ ns₁, r ≠ n := by
    rintro r hr rfl
    exact (List.nodup_cons.mp (List.nodup_append.mp hnew.nodup).1).1 hr
  refine ⟨n, ns₁, hnew, ?_, ?_, ?_, fun r hr => ⟨hsub r hr, ?_, ?_⟩, hdisk⟩
  · have hroom : (c.pages size place ns).cache.makeRoom c.disk =
      (ns₁.map fun r => (c₁.heap r).page, c₁.disk) := by
      have hlen := hc.length
      have hmap : (ns₁.map fun r => (c₁.heap r).page) = ns₁.map fun r => (c.heap r).page :=
        List.map_congr_left fun r _ => (hpage r).1
      rw [hmap]
      unfold makeRoom LruCache.pages
      simp only [List.length_map]
      split at hdisk
      · rename_i hnil
        obtain ⟨rfl, hd⟩ := hdisk
        rw [hnil, List.length_nil] at hlen
        rw [if_neg (by omega), hd]
        simp
      · rename_i hcons
        obtain ⟨rfl, hd⟩ := hdisk
        have := List.length_pos_iff.mpr hcons
        rw [if_pos (by omega), hd]
    unfold PageStore.inserted
    rw [show (c.pages size place ns).disk = c.disk from rfl, hroom]
    unfold LruCache.pages
    rw [List.map_cons, hsame.page, Function.update_self]
    congr 3
    refine List.map_congr_left fun r hr => ?_
    rw [hsame.page, Function.update_of_ne (hrest r hr)]
  · rw [hsame.block, Function.update_self]
  · rw [hsame.index, Function.update_self]
  · rw [hsame.page, Function.update_of_ne (hrest r hr), (hpage r).1]
  · rw [hsame.block, Function.update_of_ne (hrest r hr), (hpage r).2]

/-! ## A node changed in place -/

variable (place) in
theorem altered_pages (hc : Holds size c ns) (hn : n ∈ ns) {x : LruNode}
    (hi : x.index = (c.heap n).index) (disk : Disk) :
    LruCache.pages size place { c with heap := Function.update c.heap n x, disk := disk } ns =
      (c.pages size place ns).altered (c.heap n).page x.page disk := by
  unfold LruCache.pages PageStore.altered
  simp only
  rw [List.map_map]
  congr 2
  apply List.map_congr_left
  intro r hr
  by_cases hrn : r = n
  · subst hrn
    simp
  · have hne : (c.heap r).page.index ≠ (c.heap n).page.index :=
      fun heq => hrn (List.inj_on_of_nodup_map hc.keys hr hn heq)
    simp [hrn, hne]

end Holds

end

end NaiveFS
