import NaiveFS.LruPages

/-!
# Every sequence of cache operations

A run of the cache carries two ghosts: the blocks inserted or fetched so far, the
last one first, and the `Block*` that was given for each of them at the insert that
took an entry for it. Callers give a new block at its place on the disk, call it
clean only when it is equal to what lies there, and mark a block when they store to
it. The cache is exact as long as the blocks it is given lie where a flush gets
through; from 2^31 on a dirty block is lost when it is evicted.
-/

namespace NaiveFS

open LruHeap BlockCache

namespace LruCache

/-- The block numbers from `head_` to `tail_`. -/
def keys (c : LruCache) : List Nat := c.nodes.map fun r => (c.heap r).index

/-- What is seen of a block. -/
def content (place : Nat → Nat) (c : LruCache) (i : Nat) : Block :=
  match c.find i with
  | some n => (c.heap n).block.bytes
  | none => c.disk (place i)

/-- The dirty mark of a block in the cache. -/
def marked (c : LruCache) (i : Nat) : Option Bool := (c.find i).map fun n => (c.heap n).dirty

end LruCache

/-- The disk after the block of a dirty node was written. -/
def LruNode.written (n : LruNode) (disk : Disk) : Disk :=
  if n.dirty then Function.update disk n.block.offset n.block.bytes else disk

structure LruRun where
  cache : LruCache
  recent : List Nat
  given : Nat → Nat

namespace LruRun

def start (size : Nat) (disk : Disk) : LruRun := ⟨.init size disk, [], fun _ => 0⟩

def used (recent : List Nat) : CacheOp → List Nat
  | .insert i _ _ => i :: recent.erase i
  | .get i _ => i :: recent.erase i
  | _ => recent

def giving (t : LruRun) : CacheOp → Nat → Nat
  | .insert i b _ => if t.cache.find i = none then Function.update t.given i b.id else t.given
  | _ => t.given

def step (t : LruRun) (op : CacheOp) : Option LruRun :=
  some ⟨t.cache.apply op, used t.recent op, t.giving op⟩

/-- What the cache may expect of its callers. Bytes are changed in a block that was
marked before, or it is marked with the change. -/
def Obeys (place : Nat → Nat) (t : LruRun) : CacheOp → Prop
  | .insert i b dirty =>
    t.cache.find i = none → b.offset = place i ∧ (dirty = false → t.cache.disk b.offset = b.bytes)
  | .poke i _ => t.cache.marked i ≠ some false
  | _ => True

/-- A new block lies where a flush gets through. -/
def Lands (t : LruRun) : CacheOp → Prop
  | .insert i b _ => t.cache.find i = none → Disk.lands b.offset = true
  | _ => True

/-- The three structures agree, the list is in the order of use, and what is clean is
on the disk. -/
structure Exact (size : Nat) (place : Nat → Nat) (t : LruRun) : Prop where
  holds : Holds size t.cache t.cache.nodes
  order : t.cache.keys.Sublist t.recent
  once : t.recent.Nodup
  given : ∀ r ∈ t.cache.nodes, (t.cache.heap r).block.id = t.given (t.cache.heap r).index
  clean : ∀ r ∈ t.cache.nodes, (t.cache.heap r).dirty = false →
    t.cache.disk (place (t.cache.heap r).index) = (t.cache.heap r).block.bytes

/-- The blocks an operation gives a new content. -/
def Writes : CacheOp → Nat → Prop
  | .insert i _ dirty, j => j = i ∧ dirty = true
  | .poke i _, j => j = i
  | .store i _, j => j = i
  | _, _ => False

/-- An operation that leaves the list and the disk alone. -/
structure InPlace (c c' : LruCache) (marks : Nat → Option Bool) : Prop where
  keys : c'.keys = c.keys
  disk : c'.disk = c.disk
  marks : c'.marked = marks

/-- What an operation does to the list, the marks and the disk, and what `get` returns. -/
def Effect (t : LruRun) : CacheOp → Prop
  | .insert i b dirty =>
    let c := t.cache.insert i b dirty
    match t.cache.find i with
    | some n => c.keys = i :: t.cache.keys.erase i ∧ c.disk = t.cache.disk ∧
        c.marked = Function.update t.cache.marked i (some ((t.cache.heap n).dirty || dirty))
    | none =>
      (∃ n, c.find i = some n ∧ (c.heap n).block = b) ∧
        if t.cache.free = [] then ∃ l n, t.cache.nodes = l ++ [n] ∧
          c.keys = i :: (l.map fun r => (t.cache.heap r).index) ∧
          c.disk = (t.cache.heap n).written t.cache.disk ∧
          c.marked = Function.update (Function.update t.cache.marked (t.cache.heap n).index none) i
          (some dirty)
        else c.keys = i :: t.cache.keys ∧ c.disk = t.cache.disk ∧
          c.marked = Function.update t.cache.marked i (some dirty)
  | .get i dirty =>
    let r := t.cache.get i dirty
    match t.cache.find i with
    | some n => r.1 = some (t.cache.heap n).block ∧ (t.cache.heap n).block.id = t.given i ∧
        r.2.keys = i :: t.cache.keys.erase i ∧ r.2.disk = t.cache.disk ∧
        r.2.marked = Function.update t.cache.marked i (some ((t.cache.heap n).dirty || dirty))
    | none => r = (none, t.cache)
  | .remove i =>
    let c := t.cache.remove i
    match t.cache.find i with
    | some n => c.keys = t.cache.keys.erase i ∧ c.disk = (t.cache.heap n).written t.cache.disk ∧
        c.marked = Function.update t.cache.marked i none
    | none => c = t.cache
  | .modify i =>
    match t.cache.find i with
    | some _ => InPlace t.cache (t.cache.modify i) (Function.update t.cache.marked i (some true))
    | none => t.cache.modify i = t.cache
  | .flush =>
    let c := t.cache.flush
    c.keys = t.cache.keys ∧ (c.marked = fun j => (t.cache.marked j).map fun _ => false) ∧
      (∀ n ∈ t.cache.nodes, (t.cache.heap n).dirty = true → c.disk (t.cache.heap n).block.offset =
      (t.cache.heap n).block.bytes) ∧
      ∀ off, (∀ n ∈ t.cache.nodes, (t.cache.heap n).dirty = true →
      (t.cache.heap n).block.offset ≠ off) →
        c.disk off = t.cache.disk off
  | .flushIndex i =>
    let c := t.cache.flushIndex i
    match t.cache.find i with
    | some n => c.keys = t.cache.keys ∧ c.disk = (t.cache.heap n).written t.cache.disk ∧
        c.marked = Function.update t.cache.marked i (some false)
    | none => c = t.cache
  | .poke i f =>
    match t.cache.find i with
    | some n => InPlace t.cache (t.cache.poke i f) t.cache.marked ∧
        ((t.cache.poke i f).heap n).block.bytes = f (t.cache.heap n).block.bytes
    | none => t.cache.poke i f = t.cache
  | .store i f =>
    match t.cache.find i with
    | some n => InPlace t.cache (t.cache.store i f) (Function.update t.cache.marked i (some true)) ∧
        ((t.cache.store i f).heap n).block.bytes = f (t.cache.heap n).block.bytes
    | none => t.cache.store i f = t.cache

end LruRun

/-! ## The operations on pages -/

/-- The cache holds the nodes `ns`, and its pages are sound. -/
structure Paged (size : Nat) (place : Nat → Nat) (c : LruCache) (ns : List NodeRef) : Prop where
  holds : Holds size c ns
  sound : (c.pages size place ns).Sound
  landed : (c.pages size place ns).Landed

/-- From one cache to the next one, with the content of the blocks in `w` changed. -/
structure Passed (size : Nat) (place : Nat → Nat) (w : Nat →
  Prop) (c : LruCache) (ns : List NodeRef) (c' : LruCache)
    (ns' : List NodeRef) : Prop where
  rep : Paged size place c' ns'
  frame : ∀ j, ¬ w j → (c'.pages size place ns').content j = (c.pages size place ns).content j

section
variable {size : Nat} {place : Nat → Nat} {w : Nat → Prop} {c c' c'' : LruCache}
  {ns l₁ l₂ : List NodeRef} {n r : NodeRef} {i : Nat}

theorem KeepsIds.trans (h : KeepsIds c c') (h' : KeepsIds c' c'') : KeepsIds c c'' :=
  fun r => ⟨(h' r).1.trans (h r).1, (h' r).2.trans (h r).2⟩

namespace Paged

variable (size place) in
theorem page_mem (c : LruCache) (hn : n ∈ ns) :
    (c.heap n).page ∈ (c.pages size place ns).cache.nodes := List.mem_map_of_mem hn

theorem keys (hr : Paged size place c ns) : c.keys = (c.pages size place ns).held := by
  unfold LruCache.keys
  rw [hr.holds.nodes, Holds.held]

theorem content (hr : Paged size place c ns) (j : Nat) :
    (c.pages size place ns).content j = some (c.content place j) :=
  hr.holds.content j

theorem marked (hr : Paged size place c ns) :
    c.marked = fun j => ((c.pages size place ns).cache.lookup j).map CacheNode.dirty := by
  funext j
  unfold LruCache.marked
  rw [hr.holds.lookup]
  cases c.find j <;> rfl

theorem clean (hr : Paged size place c ns) (hn : r ∈ ns) (hd : (c.heap r).dirty = false) :
    c.disk (place (c.heap r).index) = (c.heap r).block.bytes := by
  have hplace := Option.some.inj (hr.sound.placed _ (page_mem size place c hn))
  have hclean := hr.sound.clean _ (page_mem size place c hn) hd
  rw [show place (c.heap r).index = (c.heap r).block.offset from hplace]
  exact hclean

theorem init (hpos : 0 < size) (hplace : Function.Injective place) (disk : Disk) :
    Paged size place (.init size disk) [] := by
  refine ⟨init_holds size disk, ⟨hpos, Nat.zero_le _, List.nodup_nil,
    fun x hx => (List.not_mem_nil hx).elim, fun i j off hi hj => ?_,
    fun x hx => (List.not_mem_nil hx).elim⟩, fun x hx => (List.not_mem_nil hx).elim⟩
  exact hplace ((Option.some.inj hi).trans (Option.some.inj hj).symm)

theorem refl (hr : Paged size place c ns) : Passed size place w c ns c ns := ⟨hr, fun _ _ => rfl⟩

theorem touched (hr : Paged size place c ns) (hf : c.find i = some n) {ns' : List NodeRef}
    {dirty : Bool} (hholds : Holds size c' ns')
    (hpages : c'.pages size place ns' = (c.pages size place ns).touched (c.heap n).page dirty) :
    Passed size place (fun _ => False) c ns c' ns' ∧ c'.keys = i :: c.keys.erase i ∧
      c'.disk = c.disk ∧ c'.marked =
      Function.update c.marked i (some ((c.heap n).dirty || dirty)) := by
  obtain ⟨hn, hi⟩ := hr.holds.find_some.mp hf
  have hmem := page_mem size place c hn
  have hrep : Paged size place c' ns' :=
    ⟨hholds, hpages ▸ hr.sound.touched hmem dirty, hpages ▸ hr.landed.touched hmem dirty⟩
  refine ⟨⟨hrep, fun j _ => ?_⟩, ?_, congrArg PageStore.disk hpages, ?_⟩
  · rw [hpages, PageStore.touched_content hr.sound hmem dirty]
  · rw [hrep.keys, hr.keys, hpages, ← hi, ← PageStore.held_detach hr.sound]
    rfl
  · rw [hrep.marked, hr.marked, hpages, ← hi]
    funext j
    rw [PageStore.touched_lookup, Function.update_apply]
    exact apply_ite (Option.map CacheNode.dirty) _ _ _

theorem marked_evicted {ns' : List NodeRef} (hr' : Paged size place c' ns')
    (hr : Paged size place c (ns ++ [n])) {x : CacheNode}
    (hpages : c'.pages size place ns' = (c.pages size place (ns ++ [n])).inserted x)
    (hfree : c.free = []) :
    c'.marked = Function.update (Function.update c.marked (c.heap n).index none) x.index
      (some x.dirty) := by
  have hlen := hr.holds.length
  rw [hfree, List.length_nil] at hlen
  have hnodes : (c.pages size place (ns ++ [n])).cache.nodes =
    (ns.map fun r => (c.heap r).page) ++ [(c.heap n).page] := by
    simp [LruCache.pages]
  rw [hr'.marked, hr.marked, hpages]
  funext j
  rw [PageStore.inserted_lookup, Function.update_apply, Function.update_apply]
  rcases (c.pages size place (ns ++ [n])).makeRoom_cases with ⟨hlt, -⟩ | ⟨-,
    ⟨hnil, -⟩ | ⟨l, y, hl, heq⟩⟩
  · simp only [LruCache.pages, List.length_map] at hlt
    omega
  · simp [hnodes] at hnil
  · rw [heq, PageStore.makeRoom_lookup hr.sound l y hl]
    obtain ⟨-, hy⟩ := List.append_inj' (hnodes.symm.trans hl) rfl
    obtain rfl : (c.heap n).page = y := List.head_eq_of_cons_eq hy
    rw [apply_ite (Option.map CacheNode.dirty), apply_ite (Option.map CacheNode.dirty)]
    rfl

theorem marked_added {ns' : List NodeRef} (hr' : Paged size place c' ns')
    (hr : Paged size place c ns) {x : CacheNode}
    (hpages : c'.pages size place ns' = (c.pages size place ns).inserted x) (hfree : c.free ≠ []) :
    c'.marked = Function.update c.marked x.index (some x.dirty) := by
  have hlen := hr.holds.length
  have hpos := List.length_pos_iff.mpr hfree
  rw [hr'.marked, hr.marked, hpages]
  funext j
  rw [PageStore.inserted_lookup, Function.update_apply]
  rcases (c.pages size place ns).makeRoom_cases with ⟨-, heq⟩ | ⟨hle, -⟩
  · rw [heq]
    exact apply_ite (Option.map CacheNode.dirty) _ _ _
  · simp only [LruCache.pages, List.length_map] at hle
    omega

theorem removed (hr : Paged size place c (l₁ ++ n :: l₂)) :
    Passed size place (fun _ => False) c (l₁ ++ n :: l₂) (c.dropNode n) (l₁ ++ l₂) ∧
      (c.dropNode n).keys = c.keys.erase (c.heap n).index ∧
      (c.dropNode n).marked = Function.update c.marked (c.heap n).index none := by
  have hmem := page_mem size place c (show n ∈ l₁ ++ n :: l₂ by simp)
  have hpages := hr.holds.dropped_pages place
  have hrep : Paged size place (c.dropNode n) (l₁ ++ l₂) :=
    ⟨hr.holds.dropNode, hpages ▸ hr.sound.dropped hmem, hpages ▸ hr.landed.dropped⟩
  refine ⟨⟨hrep, fun j _ => ?_⟩, ?_, ?_⟩
  · rw [hpages, PageStore.dropped_content hr.sound hmem fun _ => hr.landed _ hmem]
  · rw [hrep.keys, hr.keys, hpages, PageStore.dropped_held hr.sound]
    rfl
  · rw [hrep.marked, hr.marked, hpages]
    funext j
    rw [PageStore.dropped_lookup, Function.update_apply]
    exact apply_ite (Option.map CacheNode.dirty) _ _ _

theorem altered (hr : Paged size place c ns) (hn : n ∈ ns) {x : LruNode} {disk : Disk}
    (hx : x.prev = (c.heap n).prev ∧ x.next = (c.heap n).next ∧ x.index = (c.heap n).index)
    (hb : x.block.offset = (c.heap n).block.offset ∧ x.block.id = (c.heap n).block.id)
    (hdisk : ∀ off, off ≠ (c.heap n).block.offset → disk off = c.disk off)
    (hclean : x.dirty = false → disk (c.heap n).block.offset = x.block.bytes) :
    Passed size place (fun j => j = (c.heap n).index ∧ x.block.bytes ≠ (c.heap n).block.bytes) c ns
        { c with heap := Function.update c.heap n x, disk := disk } ns ∧
      KeepsIds c { c with heap := Function.update c.heap n x, disk := disk } ∧
      LruCache.marked { c with heap := Function.update c.heap n x, disk := disk } =
        Function.update c.marked (c.heap n).index (some x.dirty) := by
  obtain ⟨hp, hnx, hi⟩ := hx
  have hmem := page_mem size place c hn
  have hpages := hr.holds.altered_pages place hn hi disk
  have hrep : Paged size place { c with heap := Function.update c.heap n x, disk := disk } ns :=
    ⟨hr.holds.data n hp hnx hi disk, hpages ▸ hr.sound.altered hmem hi hb.1 hdisk hclean,
      hpages ▸ hr.landed.altered hmem hb.1 disk⟩
  refine ⟨⟨hrep, fun j hj => ?_⟩, fun r => ?_, ?_⟩
  · rw [hpages, PageStore.altered_content hr.sound hmem (y := x.page) hi hdisk]
    by_cases hji : j = (c.heap n).page.index
    · have hbytes : x.block.bytes = (c.heap n).block.bytes := by
        by_contra hne
        exact hj ⟨hji, hne⟩
      rw [if_pos hji, hji]
      unfold PageStore.content
      rw [PageStore.lookup_mem hr.sound hmem]
      exact congrArg some hbytes
    · rw [if_neg hji]
  · by_cases hrn : r = n
    · subst hrn
      simp [hi, hb.2]
    · simp [hrn]
  · rw [hrep.marked, hr.marked, hpages]
    funext j
    rw [PageStore.altered_lookup hr.sound hmem (y := x.page) hi, Function.update_apply]
    exact apply_ite (Option.map CacheNode.dirty) _ _ _

/-- A pass over the nodes that changes nothing that is seen. -/
def Quiet (size : Nat) (place : Nat → Nat) (ns : List NodeRef) (c c' : LruCache) : Prop :=
  Passed size place (fun _ => False) c ns c' ns ∧ KeepsIds c c'

theorem quiet_refl (hr : Paged size place c ns) : Quiet size place ns c c :=
  ⟨hr.refl, fun _ => ⟨rfl, rfl⟩⟩

theorem quiet_trans (h : Quiet size place ns c c') (h' : Quiet size place ns c' c'') :
    Quiet size place ns c c'' :=
  ⟨⟨h'.1.rep, fun j hj => (h'.1.frame j hj).trans (h.1.frame j hj)⟩, h.2.trans h'.2⟩

theorem keeps_keys (hr : Paged size place c ns) (hr' : Paged size place c' ns)
    (hk : KeepsIds c c') : c'.keys = c.keys := by
  unfold LruCache.keys
  rw [hr.holds.nodes, hr'.holds.nodes]
  exact List.map_congr_left fun r _ => (hk r).1

theorem writeBack_other {off : Nat} (x : LruNode) (disk : Disk) (hoff : off ≠ x.block.offset) :
    LruCache.writeBack x disk off = disk off := CachedFS.release_ne hoff (x := x.page)

theorem writeBack_eq (hr : Paged size place c ns) (hn : n ∈ ns) (disk : Disk) :
    LruCache.writeBack (c.heap n) disk = (c.heap n).written disk := by
  have hlands : Disk.lands (c.heap n).block.offset = true := hr.landed _ (page_mem size place c hn)
  unfold LruCache.writeBack LruNode.written Disk.flush
  rw [hlands]
  rfl

theorem modify_hit (hr : Paged size place c ns) (hf : c.find i = some n) :
    Quiet size place ns c (c.modify i) ∧ (c.modify i).disk = c.disk ∧
      (c.modify i).marked = Function.update c.marked i (some true) := by
  obtain ⟨hn, hi⟩ := hr.holds.find_some.mp hf
  obtain ⟨hpass, hkeep, hmarks⟩ := hr.altered hn (x := { c.heap n with dirty := true }) ⟨rfl, rfl,
    rfl⟩ ⟨rfl, rfl⟩
    (fun _ _ => rfl) fun h => (Bool.noConfusion h : _)
  rw [hi] at hmarks
  unfold LruCache.modify
  rw [hf]
  exact ⟨⟨⟨hpass.rep, fun j _ => hpass.frame j fun h => h.2 rfl⟩, hkeep⟩, rfl, hmarks⟩

/-- Bytes may be changed where the node is dirty afterwards. -/
theorem stored (hr : Paged size place c ns) (hf : c.find i = some n) (f : Block → Block)
    {c' : LruCache}
    (hc' : c' =
      { c with heap := Function.update c.heap n { (c.heap n).poked f with dirty := true } }) :
    Passed size place (fun j => j = i) c ns c' ns ∧ KeepsIds c c' ∧
      c'.marked = Function.update c.marked i (some true) ∧
      (c'.heap n).block.bytes = f (c.heap n).block.bytes := by
  obtain ⟨hn, hi⟩ := hr.holds.find_some.mp hf
  subst hc'
  obtain ⟨hpass, hkeep, hmarks⟩ :=
    hr.altered hn (x := { (c.heap n).poked f with dirty := true }) ⟨rfl, rfl, rfl⟩ ⟨rfl, rfl⟩
    (fun _ _ => rfl) fun h => (Bool.noConfusion h : _)
  rw [hi] at hmarks
  refine ⟨⟨hpass.rep, fun j hj => hpass.frame j fun h => hj (h.1.trans hi)⟩, hkeep, hmarks, ?_⟩
  simp [LruNode.poked]

theorem poke_eq (hf : c.find i = some n) (hd : (c.heap n).dirty = true) (f : Block → Block) :
    c.poke i f =
      { c with heap := Function.update c.heap n { (c.heap n).poked f with dirty := true } } := by
  unfold LruCache.poke
  rw [hf]
  simp only [LruNode.poked, hd]

theorem store_eq (hf : c.find i = some n) (f : Block → Block) :
    c.store i f =
      { c with heap := Function.update c.heap n { (c.heap n).poked f with dirty := true } } := by
  have hpoke : c.poke i f = { c with heap := Function.update c.heap n ((c.heap n).poked f) } := by
    unfold LruCache.poke
    rw [hf]
  have hfind : (c.poke i f).find i = some n := by
    rw [hpoke]
    exact hf
  unfold LruCache.store LruCache.modify
  rw [hfind, hpoke]
  simp

/-! ### Flushes -/

theorem flushNode (hr : Paged size place c ns) (hn : n ∈ ns) :
    Quiet size place ns c (c.flushNode n) ∧
    (c.flushNode n).marked = Function.update c.marked (c.heap n).index (some false) := by
  have hlands : Disk.lands (c.heap n).block.offset = true := hr.landed _ (page_mem size place c hn)
  obtain ⟨hpass, hkeep, hmarks⟩ := hr.altered hn (x := { c.heap n with dirty := false }) ⟨rfl, rfl,
    rfl⟩ ⟨rfl, rfl⟩
    (fun off hoff => writeBack_other (c.heap n) c.disk hoff)
    fun _ => PageStore.release_self hr.sound (page_mem size place c hn) fun _ => hlands
  exact ⟨⟨⟨hpass.rep, fun j _ => hpass.frame j fun h => h.2 rfl⟩, hkeep⟩, hmarks⟩

theorem map_mem (hr : Paged size place c ns) : ∀ e ∈ c.map, e.2 ∈ ns :=
  fun e he => (hr.holds.mem_map.mp (show (e.1, e.2) ∈ c.map from he)).1

/-- The loop of `flush` over some of the entries. -/
theorem flush_loop {es : List (Nat × NodeRef)} (hes : ∀ e ∈ es, e.2 ∈ ns)
    (hr : Paged size place c ns) :
    Quiet size place ns c (es.foldl (fun c e => c.flushNode e.2) c) := by
  induction es generalizing c with
  | nil => exact hr.quiet_refl
  | cons e es ih =>
    have hone := (hr.flushNode (hes e List.mem_cons_self)).1
    exact quiet_trans hone (ih (fun e he => hes e (List.mem_cons_of_mem _ he)) hone.1.rep)

end Paged

namespace LruCache

theorem flush_map (es : List (Nat × NodeRef)) (c : LruCache) :
    (es.foldl (fun c e => c.flushNode e.2) c).map = c.map := by
  induction es generalizing c with
  | nil => rfl
  | cons e es ih => exact ih (c.flushNode e.2)

theorem flush_heap (es : List (Nat × NodeRef)) (c : LruCache) (r : NodeRef) :
    (es.foldl (fun c e => c.flushNode e.2) c).heap r =
      if r ∈ es.map Prod.snd then { c.heap r with dirty := false } else c.heap r := by
  induction es generalizing c with
  | nil => rfl
  | cons e es ih =>
    rw [List.foldl_cons, ih]
    by_cases hr : r = e.2
    · simp [hr, LruCache.flushNode]
    · simp only [LruCache.flushNode, Function.update_of_ne hr, List.map_cons, List.mem_cons,
        hr, false_or]

/-- Only dirty blocks are written. -/
theorem flush_disk {off : Nat} {es : List (Nat × NodeRef)} {c : LruCache}
    (h : ∀ e ∈ es, (c.heap e.2).dirty = true → (c.heap e.2).block.offset ≠ off) :
    (es.foldl (fun c e => c.flushNode e.2) c).disk off = c.disk off := by
  induction es generalizing c with
  | nil => rfl
  | cons e es ih =>
    have hone : (c.flushNode e.2).disk off = c.disk off := by
      cases hd : (c.heap e.2).dirty with
      | false => simp [LruCache.flushNode, writeBack, hd]
      | true => exact Paged.writeBack_other _ _ (h e List.mem_cons_self hd).symm
    rw [List.foldl_cons, ih fun e' he' hd => ?_, hone]
    simp only [LruCache.flushNode] at hd ⊢
    by_cases heq : e'.2 = e.2
    · simp [heq] at hd
    · rw [Function.update_of_ne heq] at hd ⊢
      exact h e' (List.mem_cons_of_mem _ he') hd

theorem flushIndex_absent {es : List (Nat × NodeRef)} {c : LruCache}
    (h : ∀ e ∈ es, (c.heap e.2).index ≠ i) :
    es.foldl (fun c e => if (c.heap e.2).index = i then c.flushNode e.2 else c) c = c := by
  induction es with
  | nil => rfl
  | cons e es ih =>
    rw [List.foldl_cons, if_neg (h e List.mem_cons_self)]
    exact ih fun e he => h e (List.mem_cons_of_mem _ he)

end LruCache

namespace Paged

theorem flush (hr : Paged size place c ns) : Quiet size place ns c c.flush ∧
    (c.flush.marked = fun j => (c.marked j).map fun _ => false) ∧
    (∀ n ∈ ns, (c.heap n).dirty = true → c.flush.disk (c.heap n).block.offset =
      (c.heap n).block.bytes) ∧
    ∀ off, (∀ n ∈ ns, (c.heap n).dirty = true → (c.heap n).block.offset ≠ off) →
      c.flush.disk off = c.disk off := by
  have hquiet : Quiet size place ns c c.flush := flush_loop hr.map_mem hr
  have hheap : ∀ r ∈ ns, c.flush.heap r = { c.heap r with dirty := false } := fun r hn => by
    refine (LruCache.flush_heap c.map c r).trans (if_pos ?_)
    exact List.mem_map.mpr ⟨((c.heap r).index, r), hr.holds.mem_map.mpr ⟨hn, rfl⟩, rfl⟩
  refine ⟨hquiet, ?_, fun n hn _ => ?_, fun off hoff => LruCache.flush_disk fun e he =>
    hoff e.2 (hr.map_mem e he)⟩
  · funext j
    have hfind : c.flush.find j = c.find j := by
      unfold LruCache.find
      rw [show c.flush.map = c.map from LruCache.flush_map c.map c]
    unfold LruCache.marked
    rw [hfind]
    cases hf : c.find j with
    | none => rfl
    | some n => simp [hheap n (hr.holds.find_some.mp hf).1]
  · -- what is clean is on the disk
    have hclean : c.flush.disk (c.flush.heap n).block.offset = (c.flush.heap n).block.bytes :=
      hquiet.1.rep.sound.clean _ (page_mem size place c.flush hn)
        (by simp [LruNode.page, hheap n hn])
    rwa [hheap n hn] at hclean

theorem flushIndex_hit (hr : Paged size place c ns) (hf : c.find i = some n) :
    c.flushIndex i = c.flushNode n := by
  obtain ⟨hn, hi⟩ := hr.holds.find_some.mp hf
  obtain ⟨l₁, l₂, hl⟩ := List.append_of_mem (hr.holds.mem_map.mpr ⟨hn, hi⟩)
  have hnodup : (c.map.map Prod.fst).Nodup := by
    refine (hr.holds.map.map Prod.fst).nodup_iff.mpr ?_
    rw [List.map_map]
    exact hr.holds.keys
  have hindex : ∀ e ∈ c.map, (c.heap e.2).index = e.1 :=
    fun e he => (hr.holds.mem_map.mp (show (e.1, e.2) ∈ c.map from he)).2
  have hother : ∀ e ∈ l₁ ++ l₂, (c.heap e.2).index ≠ i := by
    intro e he heq
    have hmem : e ∈ c.map := by
      rw [hl]
      exact (List.mem_append.mp he).elim (List.mem_append_left _) fun h =>
        List.mem_append_right _ (List.mem_cons_of_mem _ h)
    rw [hindex e hmem] at heq
    rw [hl, List.map_append, List.map_cons] at hnodup
    have hout := (List.nodup_cons.mp (List.perm_middle.nodup_iff.mp hnodup)).1
    rw [← List.map_append] at hout
    exact hout (List.mem_map.mpr ⟨e, he, heq⟩)
  unfold LruCache.flushIndex
  rw [hl, List.foldl_append, LruCache.flushIndex_absent fun e he =>
    hother e (List.mem_append_left _ he), List.foldl_cons, if_pos hi]
  refine LruCache.flushIndex_absent fun e he => ?_
  have hsame : ((c.flushNode n).heap e.2).index = (c.heap e.2).index := by
    by_cases h : e.2 = n <;> simp [LruCache.flushNode, h]
  rw [hsame]
  exact hother e (List.mem_append_right _ he)

theorem flushIndex_miss (hr : Paged size place c ns) (hf : c.find i = none) : c.flushIndex i = c :=
  LruCache.flushIndex_absent fun e he heq =>
    hr.holds.find_none.mp hf (List.mem_map.mpr ⟨e.2, hr.map_mem e he, heq⟩)

end Paged

end

/-! ## One operation of a run -/

namespace LruRun

/-- The state of a run with the nodes `ns`. -/
structure Tracks (size : Nat) (place : Nat → Nat) (t : LruRun) (ns : List NodeRef) : Prop where
  rep : Paged size place t.cache ns
  order : t.cache.keys.Sublist t.recent
  once : t.recent.Nodup
  given : ∀ r ∈ ns, (t.cache.heap r).block.id = t.given (t.cache.heap r).index

/-- What one operation leaves, with the nodes `ns`. -/
structure Done (size : Nat) (place : Nat → Nat) (t : LruRun) (op : CacheOp) (ns : List NodeRef) :
  Prop where
  rep : Paged size place (t.cache.apply op) ns
  order : (t.cache.apply op).keys.Sublist (used t.recent op)
  given : ∀ r ∈ ns, ((t.cache.apply op).heap r).block.id =
    t.giving op ((t.cache.apply op).heap r).index
  effect : Effect t op
  frame : ∀ j, ¬ Writes op j → (t.cache.apply op).content place j = t.cache.content place j

section
variable {size : Nat} {place : Nat → Nat} {t : LruRun} {ns l₁ l₂ : List NodeRef} {n : NodeRef}
  {i : Nat}

theorem frame_of {w : Nat → Prop} {c c' : LruCache} {ns' : List NodeRef}
    (hr : Paged size place c ns) (h : Passed size place w c ns c' ns') {j : Nat} (hj : ¬ w j) :
    c'.content place j = c.content place j := by
  have := h.frame j hj
  rw [hr.content, h.rep.content] at this
  exact Option.some.inj this

theorem used_nodup (h : t.recent.Nodup) (op : CacheOp) : (used t.recent op).Nodup := by
  cases op with
  | insert i b dirty => exact List.nodup_cons.mpr ⟨h.not_mem_erase, h.erase i⟩
  | get i dirty => exact List.nodup_cons.mpr ⟨h.not_mem_erase, h.erase i⟩
  | _ => exact h

namespace Tracks

theorem not_mem_keys (ht : Tracks size place t ns) (hf : t.cache.find i = none) :
    i ∉ t.cache.keys := by
  unfold LruCache.keys
  rw [ht.rep.holds.nodes]
  exact ht.rep.holds.find_none.mp hf

theorem given_kept (ht : Tracks size place t ns) {c : LruCache} (hk : KeepsIds t.cache c)
    {r : NodeRef} (hr : r ∈ ns) :
    (c.heap r).block.id = t.given (c.heap r).index := by
  rw [(hk r).1, (hk r).2]
  exact ht.given r hr

theorem insert_hit (ht : Tracks size place t ns) (hf : t.cache.find i = some n) (b : BlockRef)
    (dirty : Bool) :
    ∃ ns', Done size place t (.insert i b dirty) ns' := by
  obtain ⟨l₁, l₂, rfl, hi⟩ := ht.rep.holds.split hf
  obtain ⟨hholds, hpages, hkeep⟩ := ht.rep.holds.insert_hit place hf b dirty
  obtain ⟨hpass, hkeys, hdisk, hmarks⟩ := ht.rep.touched hf hholds hpages
  refine ⟨n :: (l₁ ++ l₂), hpass.rep, ?_, fun r hr => ?_, ?_, fun j _ => frame_of ht.rep hpass id⟩
  · show (t.cache.insert i b dirty).keys.Sublist _
    rw [hkeys]
    exact (ht.order.erase i).cons_cons i
  · simp only [giving, hf, reduceCtorEq, if_false]
    exact ht.given_kept hkeep (Holds.perm_front.mem_iff.mp hr)
  · simp only [Effect, hf]
    exact ⟨hkeys, hdisk, hmarks⟩

theorem insert_miss (ht : Tracks size place t ns) (hf : t.cache.find i = none) {b : BlockRef}
    {dirty : Bool} (hb : b.offset = place i) (hlands : Disk.lands b.offset = true)
    (hclean : dirty = false → t.cache.disk b.offset = b.bytes) :
    ∃ ns', Done size place t (.insert i b dirty) ns' := by
  have hpos : 0 < size := ht.rep.sound.pos
  obtain ⟨n, ns₁, hholds, hpages, hblock, hindex, hold, hroom⟩ :=
    ht.rep.holds.insert_miss place hpos hf b dirty
  have hlook : (t.cache.pages size place ns).cache.lookup i = none := by
    rw [ht.rep.holds.lookup, hf]; rfl
  have hsound := ht.rep.sound.inserted (x := ⟨i, b.offset, b.bytes, dirty⟩) hlook
    (congrArg some hb.symm) hclean
  have hrep : Paged size place (t.cache.insert i b dirty) (n :: ns₁) :=
    ⟨hholds, hpages ▸ hsound, hpages ▸ ht.rep.landed.inserted hlands⟩
  have hkeys : (t.cache.insert i b dirty).keys = i :: ns₁.map fun r => (t.cache.heap r).index := by
    unfold LruCache.keys
    rw [hholds.nodes, List.map_cons, hindex]
    exact congrArg _ (List.map_congr_left fun r hr => congrArg CacheNode.index (hold r hr).2.1)
  have hfind : (t.cache.insert i b dirty).find i = some n :=
    hholds.find_some.mpr ⟨List.mem_cons_self, hindex⟩
  have hout := ht.not_mem_keys hf
  have hnodes : t.cache.keys = ns.map fun r => (t.cache.heap r).index := by
    unfold LruCache.keys
    rw [ht.rep.holds.nodes]
  refine ⟨n :: ns₁, hrep, ?_, fun r hr => ?_, ?_, fun j hj => ?_⟩
  · show (t.cache.insert i b dirty).keys.Sublist _
    rw [hkeys]
    refine List.Sublist.cons_cons i (List.Sublist.trans ?_ (ht.order.erase i))
    rw [List.erase_of_not_mem hout, hnodes]
    split at hroom
    · rw [hroom.1]
      exact (List.sublist_append_left _ _).map _
    · rw [hroom.1]
  · simp only [giving, hf, if_true]
    rcases List.mem_cons.mp hr with rfl | hr
    · show ((t.cache.insert i b dirty).heap r).block.id =
        Function.update t.given i b.id ((t.cache.insert i b dirty).heap r).index
      rw [hblock, hindex, Function.update_self]
    · obtain ⟨hns, hpage, hid⟩ := hold r hr
      have hidx : ((t.cache.insert i b dirty).heap r).index = (t.cache.heap r).index :=
        congrArg CacheNode.index hpage
      have hne : (t.cache.heap r).index ≠ i := fun h => hout (hnodes ▸ List.mem_map.mpr ⟨r, hns, h⟩)
      show ((t.cache.insert i b dirty).heap r).block.id =
        Function.update t.given i b.id ((t.cache.insert i b dirty).heap r).index
      rw [hid, hidx, Function.update_of_ne hne]
      exact ht.given r hns
  · simp only [Effect, hf]
    refine ⟨⟨n, hfind, hblock⟩, ?_⟩
    split at hroom
    · rename_i hfree
      obtain ⟨rfl, hdisk⟩ := hroom
      rw [if_pos hfree]
      exact ⟨ns₁, n, ht.rep.holds.nodes, hkeys, hdisk.trans (ht.rep.writeBack_eq (by simp) _),
        hrep.marked_evicted ht.rep hpages hfree⟩
    · rename_i hfree
      obtain ⟨rfl, hdisk⟩ := hroom
      rw [if_neg hfree, hnodes]
      exact ⟨hkeys, hdisk, hrep.marked_added ht.rep hpages hfree⟩
  · have hcontent : ((t.cache.insert i b dirty).pages size place (n :: ns₁)).content j =
      (t.cache.pages size place ns).content j := by
      rw [hpages]
      by_cases hji : j = i
      · -- a clean block is what lies on the disk
        subst hji
        have hd : dirty = false := Bool.eq_false_iff.mpr fun h => hj ⟨rfl, h⟩
        have hself : (PageStore.inserted (t.cache.pages size place ns) ⟨j, b.offset, b.bytes,
          dirty⟩).content j = some b.bytes :=
          PageStore.inserted_content_self
        rw [hself, ht.rep.content, LruCache.content, hf, ← hb]
        exact congrArg some (hclean hd).symm
      · exact PageStore.makeRoom_content ht.rep.sound (fun _ y hy _ => ht.rep.landed y hy) hji
    rw [ht.rep.content, hrep.content] at hcontent
    exact Option.some.inj hcontent

theorem get (ht : Tracks size place t ns) (i : Nat) (dirty : Bool) :
    ∃ ns', Done size place t (.get i dirty) ns' := by
  cases hf : t.cache.find i with
  | none =>
    have hmiss : t.cache.get i dirty = (none, t.cache) := by
      unfold LruCache.get
      rw [hf]
    have happ : t.cache.apply (.get i dirty) = t.cache := congrArg Prod.snd hmiss
    refine ⟨ns, ?_, ?_, ?_, ?_, ?_⟩
    · rw [happ]
      exact ht.rep
    · rw [happ]
      have hsub := ht.order.erase i
      rw [List.erase_of_not_mem (ht.not_mem_keys hf)] at hsub
      exact hsub.cons i
    · rw [happ]
      exact ht.given
    · simp only [Effect, hf]
      exact hmiss
    · intro j _
      rw [happ]
  | some n =>
    obtain ⟨l₁, l₂, rfl, hi⟩ := ht.rep.holds.split hf
    obtain ⟨hblock, hholds, hpages, hkeep⟩ := ht.rep.holds.get_hit place hf dirty
    obtain ⟨hpass, hkeys, hdisk, hmarks⟩ := ht.rep.touched hf hholds hpages
    refine ⟨n :: (l₁ ++ l₂), hpass.rep, ?_, fun r hr => ?_, ?_, fun j _ => frame_of ht.rep hpass id⟩
    · show (t.cache.get i dirty).2.keys.Sublist _
      rw [hkeys]
      exact (ht.order.erase i).cons_cons i
    · exact ht.given_kept hkeep (Holds.perm_front.mem_iff.mp hr)
    · simp only [Effect, hf]
      refine ⟨hblock, ?_, hkeys, hdisk, hmarks⟩
      rw [ht.given n (by simp), hi]

theorem remove (ht : Tracks size place t ns) (i : Nat) :
    ∃ ns', Done size place t (.remove i) ns' := by
  cases hf : t.cache.find i with
  | none =>
    have hmiss : t.cache.remove i = t.cache := by
      unfold LruCache.remove
      rw [hf]
    have happ : t.cache.apply (.remove i) = t.cache := hmiss
    refine ⟨ns, ?_, ?_, ?_, ?_, ?_⟩
    · rw [happ]
      exact ht.rep
    · rw [happ]
      exact ht.order
    · rw [happ]
      exact ht.given
    · simp only [Effect, hf]
      exact hmiss
    · intro j _
      rw [happ]
  | some n =>
    obtain ⟨l₁, l₂, rfl, hi⟩ := ht.rep.holds.split hf
    obtain ⟨hpass, hkeys, hmarks⟩ := ht.rep.removed
    have happ : t.cache.apply (.remove i) = t.cache.dropNode n := LruCache.remove_hit hf
    refine ⟨l₁ ++ l₂, ?_, ?_, ?_, ?_, ?_⟩
    · rw [happ]
      exact hpass.rep
    · rw [happ, hkeys]
      exact List.erase_sublist.trans ht.order
    · intro r hr
      rw [happ]
      exact ht.given_kept (Holds.keepsIds_drop t.cache n)
        (Holds.perm_front.mem_iff.mp (List.mem_cons_of_mem n hr))
    · simp only [Effect, hf]
      rw [LruCache.remove_hit hf, hkeys, hmarks, hi]
      exact ⟨rfl, (t.cache.dropNode_disk n).trans (ht.rep.writeBack_eq (by simp) _), rfl⟩
    · intro j _
      rw [happ]
      exact frame_of ht.rep hpass id

/-- An operation that does nothing when its block is not in the cache, and keeps the
list when it is. -/
theorem inPlace (ht : Tracks size place t ns) {op : CacheOp} (hused : used t.recent op = t.recent)
    (hgiving : t.giving op = t.given)
    (h : Passed size place (Writes op) t.cache ns (t.cache.apply op) ns)
    (hk : KeepsIds t.cache (t.cache.apply op))
    (heffect : (t.cache.apply op).keys = t.cache.keys → Effect t op) :
    ∃ ns', Done size place t op ns' := by
  have hkeys := ht.rep.keeps_keys h.rep hk
  refine ⟨ns, h.rep, ?_, fun r hr => ?_, heffect hkeys, fun j hj => frame_of ht.rep h hj⟩
  · rw [hkeys, hused]
    exact ht.order
  · rw [hgiving]
    exact ht.given_kept hk hr

theorem absent (ht : Tracks size place t ns) {op : CacheOp} (hused : used t.recent op = t.recent)
    (hgiving : t.giving op = t.given) (hsame : t.cache.apply op = t.cache) (heffect : Effect t op) :
    ∃ ns', Done size place t op ns' :=
  ht.inPlace hused hgiving (by rw [hsame]; exact ht.rep.refl)
    (by rw [hsame]; exact fun _ => ⟨rfl, rfl⟩) fun _ => heffect

theorem modify (ht : Tracks size place t ns) (i : Nat) :
    ∃ ns', Done size place t (.modify i) ns' := by
  cases hf : t.cache.find i with
  | none =>
    have hsame : t.cache.modify i = t.cache := by
      unfold LruCache.modify
      rw [hf]
    exact ht.absent rfl rfl hsame (by simp only [Effect, hf]; exact hsame)
  | some n =>
    obtain ⟨⟨hpass, hk⟩, hdisk, hmarks⟩ := ht.rep.modify_hit hf
    refine ht.inPlace rfl rfl hpass hk fun hkeys => ?_
    simp only [Effect, hf]
    exact ⟨hkeys, hdisk, hmarks⟩

theorem flush (ht : Tracks size place t ns) : ∃ ns', Done size place t .flush ns' := by
  obtain ⟨⟨hpass, hk⟩, hmarks, hdirty, hrest⟩ := ht.rep.flush
  refine ht.inPlace rfl rfl hpass hk fun hkeys => ⟨hkeys, hmarks, ?_⟩
  rw [ht.rep.holds.nodes]
  exact ⟨hdirty, hrest⟩

theorem flushIndex (ht : Tracks size place t ns) (i : Nat) :
    ∃ ns', Done size place t (.flushIndex i) ns' := by
  cases hf : t.cache.find i with
  | none =>
    have hsame := ht.rep.flushIndex_miss hf
    exact ht.absent rfl rfl hsame (by simp only [Effect, hf]; exact hsame)
  | some n =>
    obtain ⟨hn, hi⟩ := ht.rep.holds.find_some.mp hf
    have heq := ht.rep.flushIndex_hit hf
    obtain ⟨⟨hpass, hk⟩, hmarks⟩ := ht.rep.flushNode hn
    rw [← heq] at hpass hk hmarks
    refine ht.inPlace rfl rfl hpass hk fun hkeys => ?_
    simp only [Effect, hf]
    refine ⟨hkeys, ?_, hi ▸ hmarks⟩
    rw [heq]
    exact ht.rep.writeBack_eq hn _

theorem poke (ht : Tracks size place t ns) {f : Block → Block}
    (hop : t.cache.marked i ≠ some false) :
    ∃ ns', Done size place t (.poke i f) ns' := by
  cases hf : t.cache.find i with
  | none =>
    have hsame : t.cache.poke i f = t.cache := by
      unfold LruCache.poke
      rw [hf]
    exact ht.absent rfl rfl hsame (by simp only [Effect, hf]; exact hsame)
  | some n =>
    have hmark : t.cache.marked i = some (t.cache.heap n).dirty := by
      unfold LruCache.marked
      rw [hf]
      rfl
    have hd : (t.cache.heap n).dirty = true := by simpa [hmark] using hop
    have heq := Paged.poke_eq hf hd f
    obtain ⟨hpass, hk, hmarks, hbytes⟩ := ht.rep.stored hf f heq
    refine ht.inPlace rfl rfl hpass hk fun hkeys => ?_
    simp only [Effect, hf]
    refine ⟨⟨hkeys, by rw [heq], hmarks.trans ?_⟩, hbytes⟩
    rw [← hd, ← hmark, Function.update_eq_self]

theorem store (ht : Tracks size place t ns) (i : Nat) (f : Block → Block) :
    ∃ ns', Done size place t (.store i f) ns' := by
  cases hf : t.cache.find i with
  | none =>
    have hsame : t.cache.store i f = t.cache := by
      simp only [LruCache.store, LruCache.poke, LruCache.modify, hf]
    exact ht.absent rfl rfl hsame (by simp only [Effect, hf]; exact hsame)
  | some n =>
    have heq := Paged.store_eq hf f
    obtain ⟨hpass, hk, hmarks, hbytes⟩ := ht.rep.stored hf f heq
    refine ht.inPlace rfl rfl hpass hk fun hkeys => ?_
    simp only [Effect, hf]
    exact ⟨⟨hkeys, by rw [heq], hmarks⟩, hbytes⟩

theorem step (ht : Tracks size place t ns) {op : CacheOp} (hop : Obeys place t op)
    (hlands : Lands t op) :
    ∃ ns', Done size place t op ns' := by
  cases op with
  | insert i b dirty =>
    cases hf : t.cache.find i with
    | none => exact ht.insert_miss hf (hop hf).1 (hlands hf) (hop hf).2
    | some n => exact ht.insert_hit hf b dirty
  | get i dirty => exact ht.get i dirty
  | remove i => exact ht.remove i
  | modify i => exact ht.modify i
  | flush => exact ht.flush
  | flushIndex i => exact ht.flushIndex i
  | poke i f => exact ht.poke hop
  | store i f => exact ht.store i f

end Tracks

theorem Done.tracks {op : CacheOp} {t' : LruRun} (ht : Tracks size place t ns)
    {ns' : List NodeRef} (hd : Done size place t op ns') (hs : t.step op = some t') :
    Tracks size place t' ns' := by
  cases hs
  exact ⟨hd.rep, hd.order, used_nodup ht.once op, hd.given⟩

theorem Tracks.exact (ht : Tracks size place t ns) : Exact size place t := by
  have hnodes := ht.rep.holds.nodes
  refine ⟨?_, ht.order, ht.once, ?_, ?_⟩
  · rw [hnodes]
    exact ht.rep.holds
  · rw [hnodes]
    exact ht.given
  · rw [hnodes]
    exact fun r hr => ht.rep.clean hr

/-! ## Whole runs -/

/-- The operation has its effect and changes what is seen of no other block. -/
def Works (place : Nat → Nat) (t : LruRun) (op : CacheOp) : Prop :=
  Effect t op ∧ ∀ j, ¬ Writes op j → (t.cache.apply op).content place j = t.cache.content place j

/-- In a run whose callers keep to their part, with all blocks where a flush gets through,
the cache is exact in every state and every operation works. -/
theorem exact_of_obeys (hpos : 0 < size) (hplace : Function.Injective place) (disk : Disk)
    (ops : List CacheOp)
    (hops : Runs.Guarded step (fun t op => Obeys place t op ∧ Lands t op) ops (start size disk)) :
    Runs.Along step (Exact size place) ops (start size disk) ∧
      Runs.Guarded step (Works place) ops (start size disk) := by
  have hstart : Tracks size place (start size disk) [] :=
    ⟨Paged.init hpos hplace disk, by simp [LruCache.keys, (init_holds size disk).nodes, start],
      List.nodup_nil, fun r hr => (List.not_mem_nil hr).elim⟩
  have hstep : ∀ t op t', (∃ ns, Tracks size place t ns) → Obeys place t op ∧ Lands t op →
    step t op = some t' →
      ∃ ns, Tracks size place t' ns := by
    rintro t op t' ⟨ns, ht⟩ ⟨hop, hlands⟩ hs
    obtain ⟨ns', hd⟩ := ht.step hop hlands
    exact ⟨ns', hd.tracks ht hs⟩
  constructor
  · exact Runs.along_of_guarded (fun t ⟨ns, ht⟩ => ht.exact) hstep ops _ ⟨[], hstart⟩ hops
  · refine Runs.Guarded.imp (fun t op ⟨ns, ht⟩ ⟨hop, hlands⟩ => ?_) hstep ops _ ⟨[], hstart⟩ hops
    obtain ⟨ns', hd⟩ := ht.step hop hlands
    exact ⟨hd.effect, hd.frame⟩

end

/-- Fetched for writing, stored to, evicted, stored to and marked, removed. -/
def evicting : List CacheOp :=
  [.insert 5 ⟨7, 5, Bytes.zero⟩ false, .get 5 true, .poke 5 fun b => b.splice 0 [1],
    .insert 6 ⟨8, 6, Bytes.zero⟩ false, .store 6 fun b => b.splice 0 [2], .remove 6]

theorem exact_evicting :
    Runs.Guarded step (fun t op => Obeys id t op ∧
      Lands t op) evicting (start 1 fun _ => Bytes.zero) ∧
        Runs.Along step (Exact 1 id) evicting (start 1 fun _ => Bytes.zero) := by
  have hops : Runs.Guarded step (fun t op => Obeys id t op ∧
    Lands t op) evicting (start 1 fun _ => Bytes.zero) := by
    intro t₁ h₁
    refine ⟨⟨fun _ => ⟨rfl, fun _ => rfl⟩, fun _ => by decide⟩,
      fun t₂ h₂ => ⟨⟨trivial, trivial⟩, fun t₃ h₃ => ⟨⟨?_, trivial⟩, fun t₄ h₄ =>
      ⟨⟨fun _ => ⟨rfl, fun _ => ?_⟩, fun _ => by decide⟩,
        fun t₅ h₅ => ⟨⟨trivial, trivial⟩, fun t₆ h₆ => ⟨⟨trivial, trivial⟩, trivial⟩⟩⟩⟩⟩⟩
    · cases h₁
      cases h₂
      show LruCache.marked _ 5 ≠ some false
      decide
    · cases h₁
      cases h₂
      cases h₃
      rfl
  exact ⟨hops, (exact_of_obeys Nat.one_pos Function.injective_id _ _ hops).1⟩

/-- Block 523262 is the first one that lies at 2^31. -/
def overflowing : List CacheOp :=
  [.insert 523262 ⟨7, CachedFS.blockOffset 523262, fun _ => 1⟩ true,
    .insert 5 ⟨8, CachedFS.blockOffset 5, Bytes.zero⟩ false]

/-- Its flush fails when it has to make room, and the zeros of the disk are seen again. -/
theorem dirty_block_lost :
    Runs.Guarded step (Obeys CachedFS.blockOffset) overflowing (start 1 fun _ => Bytes.zero) ∧
    ¬ Runs.Guarded step (Works CachedFS.blockOffset) overflowing (start 1 fun _ => Bytes.zero) := by
  constructor
  · intro t₁ h₁
    refine ⟨fun _ => ⟨rfl, fun h => by cases h⟩, fun t₂ _ => ⟨fun _ => ⟨rfl, fun _ => ?_⟩, trivial⟩⟩
    cases h₁
    rfl
  · intro h
    have hlost := ((h _ rfl).2 _ rfl).1.2 523262 fun hw => absurd hw.1 (by decide)
    exact absurd (congrFun hlost ⟨0, by decide⟩) (by decide)

end LruRun

end NaiveFS
