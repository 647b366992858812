import NaiveFS.LruNodes
import NaiveFS.Lib.Sentinels
import NaiveFS.Lib.Runs

/-!
# The block cache keeps its blocks in the order of use

The list between the sentinels, the hash map and the pool of free entries agree
after every operation. The list of nodes is then that of `PageStore`, and the
operations on it are those of `BlockCache`.
-/

namespace NaiveFS

open Sentinels

namespace LruHeap

variable {h h' : LruHeap} {n r q : NodeRef} {l₁ l₂ : List NodeRef}

def nextOf (h : LruHeap) (r : NodeRef) : NodeRef := (h r).next

def prevOf (h : LruHeap) (r : NodeRef) : NodeRef := (h r).prev

/-- The heaps differ in links only. -/
structure SameData (h h' : LruHeap) : Prop where
  dirty : ∀ r, (h' r).dirty = (h r).dirty
  index : ∀ r, (h' r).index = (h r).index
  block : ∀ r, (h' r).block = (h r).block

theorem SameData.trans {h'' : LruHeap} (h₁ : SameData h h') (h₂ : SameData h' h'') :
    SameData h h'' :=
  ⟨fun r => (h₂.dirty r).trans (h₁.dirty r), fun r => (h₂.index r).trans (h₁.index r),
    fun r => (h₂.block r).trans (h₁.block r)⟩

theorem setNext_same (h : LruHeap) (r q : NodeRef) : SameData h (setNext h r q) := by
  constructor <;> intro x <;> unfold setNext <;> by_cases hx : x = r
  all_goals simp [hx]

theorem setPrev_same (h : LruHeap) (r q : NodeRef) : SameData h (setPrev h r q) := by
  constructor <;> intro x <;> unfold setPrev <;> by_cases hx : x = r
  all_goals simp [hx]

theorem detach_same (h : LruHeap) (n : NodeRef) : SameData h (detach h n) :=
  (setNext_same _ _ _).trans (setPrev_same _ _ _)

theorem attach_same (h : LruHeap) (n : NodeRef) : SameData h (attach h n) :=
  (setPrev_same _ _ _).trans ((setNext_same _ _ _).trans
    ((setNext_same _ _ _).trans (setPrev_same _ _ _)))

@[simp] theorem nextOf_setNext : nextOf (setNext h r q) = Function.update (nextOf h) r q := by
  funext x
  by_cases hx : x = r <;> simp [nextOf, setNext, hx]

@[simp] theorem nextOf_setPrev : nextOf (setPrev h r q) = nextOf h := by
  funext x
  by_cases hx : x = r <;> simp [nextOf, setPrev, hx]

@[simp] theorem prevOf_setPrev : prevOf (setPrev h r q) = Function.update (prevOf h) r q := by
  funext x
  by_cases hx : x = r <;> simp [prevOf, setPrev, hx]

@[simp] theorem prevOf_setNext : prevOf (setNext h r q) = prevOf h := by
  funext x
  by_cases hx : x = r <;> simp [prevOf, setNext, hx]

theorem nextOf_detach (h : LruHeap) (n : NodeRef) :
    nextOf (detach h n) = Function.update (nextOf h) (prevOf h n) (nextOf h n) := by
  unfold detach
  simp only [nextOf_setPrev, nextOf_setNext]
  rfl

theorem prevOf_detach (h : LruHeap) (n : NodeRef) :
    prevOf (detach h n) = Function.update (prevOf h) (nextOf h n) (prevOf h n) := by
  have hnext : (setNext h (h n).prev (h n).next n).next = nextOf h n := by
    by_cases hn : n = (h n).prev
    · simp [setNext, nextOf, ← hn]
    · simp [setNext, nextOf, hn]
  have hprev : (setNext h (h n).prev (h n).next n).prev = prevOf h n := congrFun prevOf_setNext n
  unfold detach
  simp only [prevOf_setPrev, prevOf_setNext, hnext, hprev]

theorem attach_links (hn : n ≠ .head) :
    nextOf (attach h n) = Function.update (Function.update (nextOf h) n (nextOf h .head)) .head n ∧
      prevOf (attach h n) = Function.update (Function.update (prevOf h) n .head) (nextOf h .head)
      n := by
  have hfirst : (setPrev h n .head .head).next = nextOf h .head := congrFun nextOf_setPrev .head
  have hnext : (setNext (setNext (setPrev h n .head) n (nextOf h .head)) .head n n).next =
    nextOf h .head := by
    show nextOf (setNext (setNext (setPrev h n .head) n (nextOf h .head)) .head n) n = _
    rw [nextOf_setNext, nextOf_setNext, Function.update_of_ne hn, Function.update_self]
  unfold attach
  simp only [hfirst, hnext, nextOf_setPrev, nextOf_setNext, prevOf_setPrev, prevOf_setNext,
    and_self]

theorem links_update {x : LruNode} (hp : x.prev = (h n).prev) (hx : x.next = (h n).next) :
    nextOf (Function.update h n x) = nextOf h ∧ prevOf (Function.update h n x) = prevOf h := by
  constructor <;> funext r <;> by_cases hr : r = n <;> simp [nextOf, prevOf, hr, hp, hx]

theorem links_detach (hl : Links (nextOf h) (prevOf h) .head (l₁ ++ n :: l₂) .tail)
    (hnd : (.head :: (l₁ ++ n :: l₂) ++ [.tail] : List NodeRef).Nodup) :
    Links (nextOf (detach h n)) (prevOf (detach h n)) .head (l₁ ++ l₂) .tail := by
  rw [nextOf_detach, prevOf_detach]
  exact hl.detach hnd

theorem links_attach {l : List NodeRef} (hl : Links (nextOf h) (prevOf h) .head l .tail)
    (hn : n ∉ .head :: l ++ [.tail]) (hnd : (.head :: l ++ [.tail] : List NodeRef).Nodup) :
    Links (nextOf (attach h n)) (prevOf (attach h n)) .head (n :: l) .tail := by
  have hne : n ≠ .head := fun heq => hn (by simp [heq])
  rw [(attach_links hne).1, (attach_links hne).2]
  exact hl.attach hn hnd

end LruHeap

open LruHeap

/-! ## The three structures -/

/-- The nodes in use are `ns`, from `head_` to `tail_`. -/
structure Holds (size : Nat) (c : LruCache) (ns : List NodeRef) : Prop where
  links : Links (nextOf c.heap) (prevOf c.heap) .head ns .tail
  nodup : (ns ++ c.free).Nodup
  entry : ∀ r ∈ ns ++ c.free, ∃ i, r = .entry i
  length : ns.length + c.free.length = size
  map : c.map.Perm (ns.map fun r => ((c.heap r).index, r))
  keys : (ns.map fun r => (c.heap r).index).Nodup

section
variable {size : Nat} {c : LruCache} {ns l₁ l₂ : List NodeRef} {n r : NodeRef} {i : Nat}

theorem fence_nodup (hnd : ns.Nodup) (he : ∀ r ∈ ns, ∃ i, r = NodeRef.entry i) :
    (.head :: ns ++ [.tail] : List NodeRef).Nodup := by
  have hhead : NodeRef.head ∉ ns := fun h => by obtain ⟨i, hi⟩ := he _ h; cases hi
  have htail : NodeRef.tail ∉ ns := fun h => by obtain ⟨i, hi⟩ := he _ h; cases hi
  rw [List.cons_append, List.nodup_cons]
  refine ⟨by simp [hhead], List.nodup_append.mpr ⟨hnd, by simp, ?_⟩⟩
  intro a ha b hb hab
  rw [List.mem_singleton] at hb
  exact htail (hb ▸ hab ▸ ha)

namespace Holds

theorem fence (hc : Holds size c ns) : (.head :: ns ++ [.tail] : List NodeRef).Nodup :=
  fence_nodup (List.nodup_append.mp hc.nodup).1 fun r hr => hc.entry r (List.mem_append_left _ hr)

theorem mem_map (hc : Holds size c ns) : (i, r) ∈ c.map ↔ r ∈ ns ∧ (c.heap r).index = i := by
  rw [hc.map.mem_iff, List.mem_map]
  constructor
  · rintro ⟨q, hq, heq⟩
    cases heq
    exact ⟨hq, rfl⟩
  · rintro ⟨hr, rfl⟩
    exact ⟨r, hr, rfl⟩

theorem find_some (hc : Holds size c ns) : c.find i = some r ↔ r ∈ ns ∧ (c.heap r).index = i := by
  rw [← hc.mem_map]
  unfold LruCache.find
  constructor
  · intro h
    obtain ⟨⟨j, q⟩, he, rfl⟩ := Option.map_eq_some_iff.mp h
    have hj : j = i := by simpa using List.find?_some he
    exact hj ▸ List.mem_of_find?_eq_some he
  · intro h
    cases hf : c.map.find? fun e => e.1 = i with
    | none => exact absurd (List.find?_eq_none.mp hf _ h) (by simp)
    | some e =>
      obtain ⟨j, q⟩ := e
      have hj : j = i := by simpa using List.find?_some hf
      subst hj
      have hq := hc.mem_map.mp (List.mem_of_find?_eq_some hf)
      have hr := hc.mem_map.mp h
      rw [Option.map_some, List.inj_on_of_nodup_map hc.keys hq.1 hr.1 (hq.2.trans hr.2.symm)]

theorem find_none (hc : Holds size c ns) :
    c.find i = none ↔ i ∉ ns.map fun r => (c.heap r).index := by
  rw [Option.eq_none_iff_forall_ne_some, List.mem_map]
  constructor
  · rintro h ⟨r, hr⟩
    exact h r (hc.find_some.mpr hr)
  · intro h r hr
    exact h ⟨r, hc.find_some.mp hr⟩

theorem filter_rest (hc : Holds size c (l₁ ++ n :: l₂)) {α : Type} {g : NodeRef → α} {p : α → Bool}
    (hp : ∀ r, p (g r) = true ↔ (c.heap r).index ≠ (c.heap n).index) :
    ((l₁ ++ n :: l₂).map g).filter p = (l₁ ++ l₂).map g := by
  have hkeys := hc.keys
  rw [List.map_append, List.map_cons, List.nodup_append, List.nodup_cons] at hkeys
  have hn : ¬ p (g n) = true := fun h => (hp n).mp h rfl
  rw [List.map_append, List.map_cons, List.filter_append, List.filter_cons_of_neg hn,
    List.map_append]
  congr 1
  · apply List.filter_eq_self.mpr
    intro e he
    obtain ⟨r, hr, rfl⟩ := List.mem_map.mp he
    exact (hp r).mpr (hkeys.2.2 (c.heap r).index (List.mem_map_of_mem hr) (c.heap n).index
      (by simp))
  · apply List.filter_eq_self.mpr
    intro e he
    obtain ⟨r, hr, rfl⟩ := List.mem_map.mp he
    exact (hp r).mpr fun heq => hkeys.2.1.1 (heq ▸ List.mem_map_of_mem hr)

theorem erase_map (hc : Holds size c (l₁ ++ n :: l₂)) :
    (c.map.filter fun e => e.1 ≠ (c.heap n).index).Perm ((l₁ ++ l₂).map fun r => ((c.heap r).index,
      r)) :=
  (hc.map.filter _).trans (List.Perm.of_eq (hc.filter_rest fun r => by simp))

end Holds

theorem init_holds (size : Nat) (disk : Disk) : Holds size (.init size disk) [] where
  links := ⟨rfl, rfl⟩
  nodup := by
    rw [List.nil_append]
    unfold LruCache.init
    rw [List.nodup_reverse]
    exact List.nodup_range.map fun _ _ h => by cases h; rfl
  entry r hr := by
    simp only [LruCache.init, List.nil_append, List.mem_reverse, List.mem_map] at hr
    obtain ⟨i, -, rfl⟩ := hr
    exact ⟨i, rfl⟩
  length := by simp [LruCache.init]
  map := List.Perm.refl _
  keys := List.nodup_nil

/-! ## What the operations do to them -/

namespace Holds

theorem perm_front : (n :: (l₁ ++ l₂)).Perm (l₁ ++ n :: l₂) := List.perm_middle.symm

theorem front (hc : Holds size c (l₁ ++ n :: l₂)) {h : LruHeap}
    (hl : Links (nextOf h) (prevOf h) .head (n :: (l₁ ++ l₂)) .tail)
    (hindex : ∀ r, (h r).index = (c.heap r).index) :
    Holds size { c with heap := h } (n :: (l₁ ++ l₂)) where
  links := hl
  nodup := ((perm_front.append_right c.free).nodup_iff).mpr hc.nodup
  entry r hr := hc.entry r ((perm_front.append_right c.free).mem_iff.mp hr)
  length := by
    rw [perm_front.length_eq]
    exact hc.length
  map := by
    simp only [hindex]
    exact hc.map.trans (perm_front.map _).symm
  keys := by
    simp only [hindex]
    exact ((perm_front.map _).nodup_iff).mpr hc.keys

theorem links_front (hc : Holds size c (l₁ ++ n :: l₂)) :
    Links (nextOf (LruHeap.attach (LruHeap.detach c.heap n) n))
      (prevOf (LruHeap.attach (LruHeap.detach c.heap n) n)) .head
      (n :: (l₁ ++ l₂)) .tail := by
  have hnd := (perm_front.nodup_iff).mpr (List.nodup_append.mp hc.nodup).1
  have hentry : ∀ r ∈ n :: (l₁ ++ l₂), ∃ i, r = NodeRef.entry i := fun r hr =>
    hc.entry r (List.mem_append_left _ (perm_front.mem_iff.mp hr))
  have hfence := fence_nodup hnd hentry
  refine links_attach (links_detach hc.links hc.fence) ?_ (hfence.sublist ?_)
  · obtain ⟨i, hi⟩ := hentry n List.mem_cons_self
    intro hmem
    simp only [List.cons_append, List.mem_cons, List.mem_append, List.not_mem_nil, or_false] at hmem
    rcases hmem with hmem | hmem | hmem
    · rw [hi] at hmem
      cases hmem
    · exact (List.nodup_cons.mp hnd).1 (List.mem_append.mpr hmem)
    · rw [hi] at hmem
      cases hmem
  · exact (List.sublist_cons_self n _ |>.append_right _).cons_cons _

theorem drop (hc : Holds size c (l₁ ++ n :: l₂)) {c' : LruCache}
    (hheap : c'.heap = c.heap.detach n) (hfree : c'.free = n :: c.free)
    (hmap : c'.map = c.map.filter fun e => e.1 ≠ (c.heap n).index) : Holds size c' (l₁ ++ l₂) := by
  have hperm : (l₁ ++ l₂ ++ n :: c.free).Perm (l₁ ++ n :: l₂ ++ c.free) :=
    List.perm_middle.trans (perm_front.append_right c.free)
  have hindex := (LruHeap.detach_same c.heap n).index
  constructor
  · rw [hheap]
    exact links_detach hc.links hc.fence
  · rw [hfree]
    exact (hperm.nodup_iff).mpr hc.nodup
  · rw [hfree]
    exact fun r hr => hc.entry r (hperm.mem_iff.mp hr)
  · have := hc.length
    rw [hfree]
    simp only [List.length_append, List.length_cons] at this ⊢
    omega
  · rw [hmap, hheap]
    simp only [hindex]
    exact hc.erase_map
  · rw [hheap]
    simp only [hindex]
    refine hc.keys.sublist (List.Sublist.map _ ?_)
    exact List.Sublist.append_left (List.sublist_cons_self n l₂) l₁

theorem new (hc : Holds size c ns) {free : List NodeRef} (hfree : c.free = n :: free)
    {x : LruNode} (hp : x.prev = (c.heap n).prev) (hx : x.next = (c.heap n).next)
    (hout : x.index ∉ ns.map fun r => (c.heap r).index) :
    Holds size
      { c with
        heap := LruHeap.attach (Function.update c.heap n x) n
        map := (x.index, n) :: c.map
        free := free } (n :: ns) := by
  have hnodup := hc.nodup
  have hentry := hc.entry
  have hlength := hc.length
  rw [hfree] at hnodup hentry hlength
  have hn : n ∉ ns := fun hmem => (List.nodup_append.mp hnodup).2.2 n hmem n List.mem_cons_self rfl
  have hdata : ∀ r, (LruHeap.attach (Function.update c.heap n x) n r).index =
    (Function.update c.heap n x r).index :=
    (LruHeap.attach_same _ n).index
  have hself : (LruHeap.attach (Function.update c.heap n x) n n).index = x.index := by
    rw [hdata, Function.update_self]
  have hother : ∀ r ∈ ns, (LruHeap.attach (Function.update c.heap n x) n r).index =
    (c.heap r).index := by
    intro r hr
    have hne : r ≠ n := fun heq => hn (heq ▸ hr)
    rw [hdata, Function.update_of_ne hne]
  obtain ⟨hnext, hprev⟩ := links_update hp hx
  have hperm : (n :: ns ++ free).Perm (ns ++ n :: free) := List.perm_middle.symm
  constructor
  · refine links_attach (by rw [hnext, hprev]; exact hc.links) ?_ hc.fence
    obtain ⟨i, hi⟩ := hentry n (by simp)
    intro hmem
    simp only [List.cons_append, List.mem_cons, List.mem_append, List.not_mem_nil, or_false] at hmem
    rcases hmem with hmem | hmem | hmem
    · rw [hi] at hmem
      cases hmem
    · exact hn hmem
    · rw [hi] at hmem
      cases hmem
  · exact (hperm.nodup_iff).mpr hnodup
  · exact fun r hr => hentry r (hperm.mem_iff.mp hr)
  · simp only [List.length_cons] at hlength ⊢
    omega
  · rw [List.map_cons, hself, List.map_congr_left fun r hr => by rw [hother r hr]]
    exact hc.map.cons _
  · rw [List.map_cons, hself, List.map_congr_left fun r hr => hother r hr]
    exact List.nodup_cons.mpr ⟨hout, hc.keys⟩

theorem data (hc : Holds size c ns) (n : NodeRef) {x : LruNode} (hp : x.prev = (c.heap n).prev)
    (hx : x.next = (c.heap n).next) (hi : x.index = (c.heap n).index) (disk : Disk) :
    Holds size { c with heap := Function.update c.heap n x, disk := disk } ns := by
  obtain ⟨hnext, hprev⟩ := links_update hp hx
  have hindex : ∀ r, (Function.update c.heap n x r).index = (c.heap r).index := by
    intro r
    by_cases hr : r = n <;> simp [hr, hi]
  refine ⟨by rw [hnext, hprev]; exact hc.links, hc.nodup, hc.entry, hc.length, ?_, ?_⟩
  · simp only [hindex]
    exact hc.map
  · simp only [hindex]
    exact hc.keys

end Holds

end

end NaiveFS
