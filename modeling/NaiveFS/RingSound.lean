import NaiveFS.DentryRing
import NaiveFS.Namespace
import NaiveFS.Lib.Circle
import NaiveFS.Lib.Runs

/-!
# The child rings of the dentry cache

What the nodes stand for is a forest: every node in use has a path, and the cache
is the map from paths to inodes of `DentryCache`. A run keeps the rings exact as
long as `remove` never takes out the node behind `childs_` of a ring with other
nodes: there the search begins with that node, and its predecessor is not found.
-/

namespace NaiveFS

open Circle NodeHeap

/-! ## The forest -/

/-- The nodes in use with their paths, and the map the cache stands for. -/
structure Forest where
  root : Nat
  place : Nat → Option (List Name)
  cache : NodeMap

namespace Forest

def init (root : Nat) : Forest where
  root := root
  place := Function.update (fun _ => none) root (some [])
  cache _ := none

/-- The path of a parent; the null pointer stands for the root. -/
def node (t : Forest) (parent : Option Nat) : Option (List Name) := t.place (parent.getD t.root)

def insert (addr : Nat) (p : List Name) (name : Name) (inode : Nat) (t : Forest) : Forest :=
  { t with
    place := Function.update t.place addr (some (p ++ [name]))
    cache := t.cache.insert p name inode }

def remove (p : List Name) (name : Name) (t : Forest) : Forest :=
  { t with
    place := fun x => (t.place x).filter fun q => ¬ p ++ [name] <+: q
    cache := t.cache.remove p name }

/-- The effect of a call. The calls are on nodes in use; `insert` gets a free
address and a name that is not there yet, without NUL and no longer than a
directory entry holds. -/
def apply : RingOp → Forest → Option Forest
  | .insert addr parent name inode, t =>
    match t.node parent with
    | none => none
    | some p =>
      if t.place addr = none ∧ t.cache (p ++ [name]) = none ∧ name ≠ [] ∧ name.length < 256 ∧
          0 ∉ name then
        some (t.insert addr p name inode)
      else none
  | .lookup parent _, t => (t.node parent).map fun _ => t
  | .remove parent name, t => (t.node parent).map fun p => t.remove p name

def Child (t : Forest) (p : List Name) (x : Nat) : Prop := ∃ name, t.place x = some (p ++ [name])

def Below (t : Forest) (p : List Name) (x : Nat) : Prop := ∃ q, t.place x = some q ∧ p <+: q

end Forest

/-! ## Reading the heap -/

namespace NodeHeap

def nextOf (h : NodeHeap) (x : Nat) : Option Nat := (h x).bind RingNode.next

def childsOf (h : NodeHeap) (x : Nat) : Option (Option Nat) := (h x).map RingNode.childs

/-- What no call changes in a node. -/
def labelOf (h : NodeHeap) (x : Nat) : Option (Nat × Nat × Name) :=
  (h x).map fun n => (n.inode, n.nameLen, n.name)

variable {h : NodeHeap} {a x : Nat} {c : Option Nat}

@[simp] theorem nextOf_setChilds : nextOf (h.setChilds a c) = nextOf h := by
  funext x
  by_cases hx : x = a
  · subst hx; simp [nextOf, setChilds, Option.bind_map]
  · simp [nextOf, setChilds, Function.update_of_ne hx]

@[simp] theorem labelOf_setChilds : labelOf (h.setChilds a c) = labelOf h := by
  funext x
  by_cases hx : x = a
  · subst hx; simp [labelOf, setChilds, Function.comp_def]
  · simp [labelOf, setChilds, Function.update_of_ne hx]

@[simp] theorem labelOf_setNext : labelOf (h.setNext a c) = labelOf h := by
  funext x
  by_cases hx : x = a
  · subst hx; simp [labelOf, setNext, Function.comp_def]
  · simp [labelOf, setNext, Function.update_of_ne hx]

@[simp] theorem childsOf_setNext : childsOf (h.setNext a c) = childsOf h := by
  funext x
  by_cases hx : x = a
  · subst hx; simp [childsOf, setNext, Function.comp_def]
  · simp [childsOf, setNext, Function.update_of_ne hx]

theorem childsOf_setChilds (ha : childsOf h a ≠ none) :
    childsOf (h.setChilds a c) = Function.update (childsOf h) a (some c) := by
  funext x
  by_cases hx : x = a
  · subst hx
    cases hn : h x with
    | none => simp [childsOf, hn] at ha
    | some n => simp [childsOf, setChilds, hn]
  · simp [childsOf, setChilds, Function.update_of_ne hx]

theorem nextOf_setNext (ha : childsOf h a ≠ none) :
    nextOf (h.setNext a c) = Function.update (nextOf h) a c := by
  funext x
  by_cases hx : x = a
  · subst hx
    cases hn : h x with
    | none => simp [childsOf, hn] at ha
    | some n => simp [nextOf, setNext, hn]
  · simp [nextOf, setNext, Function.update_of_ne hx]

theorem node_of_childsOf (ha : childsOf h a = some c) : ∃ n, h a = some n ∧ n.childs = c := by
  simpa [childsOf] using ha

theorem node_of_nextOf {m : Nat} (ha : nextOf h a = some m) : ∃ n, h a = some n ∧ n.next = some m :=
  Option.bind_eq_some_iff.mp ha

end NodeHeap

/-! ## Names -/

theorem strncmpEq_iff :
    ∀ {a b : List UInt8}, a.length = b.length → 0 ∉ a → (strncmpEq b.length a b = true ↔ a = b)
  | [], [], _, _ => by simp [strncmpEq]
  | x :: a, y :: b, hl, h0 => by
    simp only [List.mem_cons, not_or] at h0
    have hx : x ≠ 0 := fun h => h0.1 h.symm
    have ih := strncmpEq_iff (Nat.succ.inj hl) h0.2
    simp [strncmpEq, hx, ih]

theorem strncpy_eq : ∀ {a : List UInt8}, 0 ∉ a → strncpy a.length a = a
  | [], _ => rfl
  | x :: a, h0 => by
    simp only [List.mem_cons, not_or] at h0
    have hx : x ≠ 0 := fun h => h0.1 h.symm
    simp [strncpy, hx, strncpy_eq h0.2]

theorem RingNode.hasName_iff {n : RingNode} {w name : Name} (hl : n.nameLen = w.length)
    (hn : n.name = w) (h0 : 0 ∉ w) : n.hasName name = true ↔ w = name := by
  simp only [RingNode.hasName, hl, hn, Bool.and_eq_true, beq_iff_eq]
  constructor
  · rintro ⟨h, hc⟩
    exact (strncmpEq_iff h h0).mp hc
  · rintro rfl
    exact ⟨rfl, (strncmpEq_iff rfl h0).mpr rfl⟩

/-! ## The nodes represent the forest -/

structure Rep (s : DentryRing) (t : Forest) : Prop where
  root_eq : t.root = s.root
  root : t.place s.root = some []
  lone : nextOf s.heap s.root = none
  inj : ∀ {a b p}, t.place a = some p → t.place b = some p → a = b
  linked : ∀ {a p}, t.place a = some p → ∃ c, childsOf s.heap a = some c ∧
    Circle.Holds (nextOf s.heap) (t.Child p) c
  named : ∀ {a p name}, t.place a = some (p ++ [name]) →
    name ≠ [] ∧ 0 ∉ name ∧ ∃ i, labelOf s.heap a = some (i, name.length, name) ∧
    t.cache (p ++ [name]) = some i
  above : ∀ {a p name}, t.place a = some (p ++ [name]) → ∃ b, t.place b = some p
  cached : ∀ {q}, t.cache q ≠ none → ∃ a, t.place a = some q
  deep : ∀ {a p}, t.place a = some p → p.length < s.allocs
  few : ∃ live : List Nat, (∀ a, t.place a ≠ none → a ∈ live) ∧ live.length ≤ s.allocs

def NodeHeap.named (h : NodeHeap) (name : Name) (x : Nat) : Bool :=
  (h x).any (RingNode.hasName name)

namespace Rep

variable {s : DentryRing} {t : Forest} (hr : Rep s t) {p : List Name}
include hr

theorem parent_eq (parent : Option Nat) : t.node parent = t.place (parent.getD s.root) := by
  rw [Forest.node, hr.root_eq]

theorem root_not_child : ¬ t.Child p s.root := by
  rintro ⟨w, hw⟩
  simp [hr.root] at hw

theorem above_prefix {r : List Name} {x : Nat} (hx : t.place x = some (p ++ r)) :
    ∃ b, t.place b = some p := by
  induction r using List.reverseRecOn generalizing x with
  | nil => exact ⟨x, by simpa using hx⟩
  | append_singleton r w ih =>
    rw [← List.append_assoc] at hx
    obtain ⟨b, hb⟩ := hr.above hx
    exact ih hb

theorem length_le {l : List Nat} (hnd : l.Nodup) (hl : ∀ x ∈ l, t.place x ≠ none) :
    l.length ≤ s.allocs := by
  obtain ⟨live, hlive, hle⟩ := hr.few
  exact (List.subperm_of_subset hnd fun x hx => hlive x (hl x hx)).length_le.trans hle

theorem named_iff {x : Nat} (name : Name) (hx : t.Child p x) :
    s.heap.named name x = true ↔ t.place x = some (p ++ [name]) := by
  obtain ⟨w, hw⟩ := hx
  obtain ⟨-, h0, i, hlab, -⟩ := hr.named hw
  obtain ⟨n, hn, hlab⟩ := Option.map_eq_some_iff.mp hlab
  simp only [Prod.mk.injEq] at hlab
  simp only [NodeHeap.named, hn, Option.any_some, RingNode.hasName_iff hlab.2.1 hlab.2.2 h0, hw,
    Option.some.injEq, List.append_cancel_left_eq, List.cons.injEq, and_true]

end Rep

/-! ## The loops -/

section Loops

variable {h : NodeHeap} {name : Name} {start : Nat}

theorem named_of_some {n : RingNode} {x : Nat} (hn : h x = some n) :
    h.named name x = n.hasName name := by
  simp [NodeHeap.named, hn]

theorem lookupLoop_eq :
    ∀ {l : List Nat} {x fuel : Nat}, Seg (nextOf h) x (x :: l) start → start ∉ l → l.length < fuel →
    h.lookupLoop name start fuel x = some ((x :: l).find? (h.named name))
  | l, x, fuel + 1, hseg, hs, hf => by
    obtain ⟨-, m, hm, hrest⟩ := hseg
    obtain ⟨n, hn, hnext⟩ := node_of_nextOf hm
    rw [List.find?_cons, named_of_some hn]
    simp only [lookupLoop, hn, hnext]
    cases n.hasName name with
    | true => rfl
    | false =>
      cases l with
      | nil =>
        cases (show m = start from hrest)
        simp
      | cons y l =>
        cases hrest.head
        rw [List.mem_cons, not_or] at hs
        rw [if_neg (by simp), if_neg (fun h => hs.1 h.symm)]
        exact lookupLoop_eq hrest hs.2 (by simpa using hf)

theorem removeLoop_eq (name : Name) :
    ∀ (prev : Nat) {l : List Nat} {x fuel : Nat}, Seg (nextOf h) x (x :: l) start → start ∉ l →
    l.length < fuel → (∃ l₁ v l₂, x :: l = l₁ ++ v :: l₂ ∧ h.named name v = true ∧
      h.removeLoop name start fuel prev x = some (some (l₁.getLastD prev, v))) ∨
    (∀ v ∈ x :: l, h.named name v = false) ∧ h.removeLoop name start fuel prev x = some none
  | prev, l, x, fuel + 1, hseg, hs, hf => by
    obtain ⟨-, m, hm, hrest⟩ := hseg
    obtain ⟨n, hn, hnext⟩ := node_of_nextOf hm
    simp only [removeLoop, hn, hnext]
    cases hname : n.hasName name with
    | true => exact Or.inl ⟨[], x, l, rfl, by rw [named_of_some hn, hname], rfl⟩
    | false =>
      have hx : h.named name x = false := by rw [named_of_some hn, hname]
      cases l with
      | nil =>
        cases (show m = start from hrest)
        exact Or.inr ⟨by simpa using hx, by simp⟩
      | cons y l =>
        cases hrest.head
        rw [List.mem_cons, not_or] at hs
        rw [if_neg (by simp), if_neg (fun h => hs.1 h.symm)]
        obtain ⟨l₁, v, l₂, hl, hv, heq⟩ | ⟨hnone, heq⟩ :=
          removeLoop_eq name x hrest hs.2 (by simpa using hf)
        · exact Or.inl ⟨x :: l₁, v, l₂, by rw [hl]; rfl, hv, by rw [heq, List.getLastD_cons]⟩
        · refine Or.inr ⟨fun v hv => ?_, heq⟩
          obtain rfl | hv := List.mem_cons.mp hv
          · exact hx
          · exact hnone v hv

end Loops

/-! ## lookup -/

namespace Rep

variable {s : DentryRing} {t : Forest} {parent : Option Nat} {name : Name} {p : List Name} {x : Nat}

theorem enter (hr : Rep s t) {a : Nat} (ha : t.place a = some p) (hx : t.Child p x) :
    Rep { s with heap := s.heap.setChilds a (some x) } t where
  root_eq := hr.root_eq
  root := hr.root
  lone := by simpa using hr.lone
  inj := hr.inj
  linked {b q} hb := by
    obtain ⟨c, hc, hold⟩ := hr.linked hb
    obtain ⟨d, hd, -⟩ := hr.linked ha
    have hne : childsOf s.heap a ≠ none := by simp [hd]
    simp only [childsOf_setChilds hne, nextOf_setChilds]
    by_cases hba : b = a
    · subst hba
      cases ha.symm.trans hb
      refine ⟨some x, Function.update_self .., ?_⟩
      cases c with
      | none => exact absurd hx (hold x)
      | some c => exact hold.enter hx
    · exact ⟨c, by rw [Function.update_of_ne hba, hc], hold⟩
  named hb := by simpa using hr.named hb
  above := hr.above
  cached := hr.cached
  deep := hr.deep
  few := hr.few

theorem walk (hr : Rep s t) {c : Nat} (hold : Circle.Holds (nextOf s.heap) (t.Child p) (some c)) :
    ∃ l, Seg (nextOf s.heap) c (c :: l) c ∧ c ∉ l ∧ (c :: l).Nodup ∧
      (∀ x, x ∈ c :: l ↔ t.Child p x) ∧ l.length < s.allocs := by
  obtain ⟨l, hseg, hc, hnd, hl⟩ := hold.walk
  refine ⟨l, hseg, hc, hnd, hl, ?_⟩
  apply hr.length_le hnd
  intro x hx
  obtain ⟨w, hw⟩ := (hl x).mp hx
  simp [hw]

theorem lookup_spec (hr : Rep s t) (name : Name) (hp : t.node parent = some p) :
    ∃ r s', s.lookup parent name = some (r, s') ∧ Rep s' t ∧ ∀ x, r = some x ↔
      t.place x = some (p ++ [name]) := by
  rw [hr.parent_eq] at hp
  by_cases hlen : name.length = 0
  · refine ⟨none, s, by simp [DentryRing.lookup, hlen], hr, fun x => ?_⟩
    simp only [reduceCtorEq, false_iff]
    exact fun hx => (hr.named hx).1 (List.length_eq_zero_iff.mp hlen)
  obtain ⟨c, hc, hold⟩ := hr.linked hp
  obtain ⟨n, hn, rfl⟩ := node_of_childsOf hc
  simp only [DentryRing.lookup, if_neg hlen, hn]
  cases hch : n.childs with
  | none =>
    rw [hch] at hold
    refine ⟨none, s, rfl, hr, fun x => ?_⟩
    simp only [reduceCtorEq, false_iff]
    exact fun hx => hold x ⟨name, hx⟩
  | some c =>
    rw [hch] at hold
    obtain ⟨l, hseg, hcl, hnd, hl, hlt⟩ := hr.walk hold
    simp only [lookupLoop_eq hseg hcl hlt]
    cases hf : (c :: l).find? (s.heap.named name) with
    | none =>
      refine ⟨none, s, rfl, hr, fun x => ?_⟩
      simp only [reduceCtorEq, false_iff]
      intro hx
      have hch : t.Child p x := ⟨name, hx⟩
      exact List.find?_eq_none.mp hf x ((hl x).mpr hch) ((hr.named_iff name hch).mpr hx)
    | some v =>
      have hv : t.Child p v := (hl v).mp (List.mem_of_find?_eq_some hf)
      have hplace := (hr.named_iff name hv).mp (List.find?_some hf)
      refine ⟨some v, _, rfl, hr.enter hp hv, fun x => ?_⟩
      constructor
      · rintro ⟨⟩
        exact hplace
      · intro hx
        rw [hr.inj hx hplace]

/-- The node that `lookup` finds has the inode the map gives for the path. -/
theorem lookup_refines (hr : Rep s t) (name : Name) (hp : t.node parent = some p) :
    ∃ r s', s.lookup parent name = some (r, s') ∧
      (r.bind fun x => (labelOf s.heap x).map Prod.fst) =
      if name.length = 0 then none else t.cache (p ++ [name]) := by
  obtain ⟨r, s', hrun, -, hr'⟩ := hr.lookup_spec name hp
  refine ⟨r, s', hrun, ?_⟩
  cases r with
  | none =>
    by_contra hne
    have hcache : t.cache (p ++ [name]) ≠ none := by
      intro h
      simp [h] at hne
    obtain ⟨x, hx⟩ := hr.cached hcache
    exact absurd ((hr' x).mpr hx) (by simp)
  | some x =>
    obtain ⟨hne, -, i, hi, hcache⟩ := hr.named ((hr' x).mp rfl)
    simp [hne, hcache, hi]

/-! ## insert -/

section Insert

variable {addr inode : Nat}

theorem insert_place_of_ne (hx : x ≠ addr) : (t.insert addr p name inode).place x = t.place x :=
  Function.update_of_ne hx ..

theorem insert_place_self : (t.insert addr p name inode).place addr = some (p ++ [name]) :=
  Function.update_self ..

theorem insert_child_iff (haddr : t.place addr = none) {q : List Name} :
    (t.insert addr p name inode).Child q x ↔ x = addr ∧ q = p ∨ t.Child q x := by
  by_cases hx : x = addr
  · subst hx
    simp [Forest.Child, insert_place_self, haddr, eq_comm]
  · simp [Forest.Child, insert_place_of_ne hx, hx]

theorem grow (hr : Rep s t) {a : Nat} {h : NodeHeap} (hp : t.place a = some p)
    (haddr : t.place addr = none) (hnew : t.cache (p ++ [name]) = none) (hne : name ≠ [])
    (h0 : 0 ∉ name)
    (hlabel : labelOf h = Function.update (labelOf s.heap) addr (some (inode, name.length, name)))
    (hchilds : childsOf h = Function.update (Function.update (childsOf s.heap) addr (some none)) a
      (some (some addr)))
    (hold : Circle.Holds (nextOf h) (fun x => x = addr ∨ t.Child p x) (some addr))
    (hnext : ∀ x, x ≠ addr → ¬ t.Child p x → nextOf h x = nextOf s.heap x) :
    Rep { s with heap := h, allocs := s.allocs + 1 } (t.insert addr p name inode) := by
  have hunplaced : ∀ {b}, t.place b ≠ some (p ++ [name]) := by
    intro b hb
    obtain ⟨-, -, i, -, hi⟩ := hr.named hb
    simp [hnew] at hi
  have hane : a ≠ addr := by rintro rfl; simp [haddr] at hp
  have hroot : s.root ≠ addr := fun h => by simp [← h, hr.root] at haddr
  refine ⟨hr.root_eq, ?_, ?_, ?_, ?_, ?_, ?_, ?_, ?_, ?_⟩
  · rw [insert_place_of_ne hroot]
    exact hr.root
  · exact (hnext s.root hroot hr.root_not_child).trans hr.lone
  · intro b b' q hb hb'
    by_cases hx : b = addr <;> by_cases hx' : b' = addr
    · rw [hx, hx']
    · subst hx
      rw [insert_place_self] at hb
      rw [insert_place_of_ne hx', ← hb] at hb'
      exact absurd hb' hunplaced
    · subst hx'
      rw [insert_place_self] at hb'
      rw [insert_place_of_ne hx, ← hb'] at hb
      exact absurd hb hunplaced
    · rw [insert_place_of_ne hx] at hb
      rw [insert_place_of_ne hx'] at hb'
      exact hr.inj hb hb'
  · intro b q hb
    simp only [hchilds]
    by_cases hx : b = addr
    · subst hx
      rw [insert_place_self] at hb
      cases hb
      refine ⟨none, by rw [Function.update_of_ne hane.symm, Function.update_self], fun x hx => ?_⟩
      rcases (insert_child_iff haddr).mp hx with ⟨-, h⟩ | ⟨w, hw⟩
      · simp at h
      · obtain ⟨b, hb⟩ := hr.above hw
        exact hunplaced hb
    · rw [insert_place_of_ne hx] at hb
      by_cases hba : b = a
      · subst hba
        cases hp.symm.trans hb
        refine ⟨some addr, Function.update_self .., hold.congr (fun x => ?_) fun _ _ => rfl⟩
        simp [insert_child_iff haddr]
      · have hqp : q ≠ p := by rintro rfl; exact hba (hr.inj hb hp)
        obtain ⟨c, hc, hold⟩ := hr.linked hb
        refine ⟨c, by rw [Function.update_of_ne hba, Function.update_of_ne hx, hc],
          hold.congr (fun x => ?_) ?_⟩
        · simp [insert_child_iff haddr, hqp]
        · rintro x ⟨w, hw⟩
          apply hnext
          · rintro rfl
            simp [haddr] at hw
          · rintro ⟨w', hw'⟩
            exact hqp (List.append_inj_left' (Option.some.inj (hw.symm.trans hw')) rfl)
  · intro b q w hb
    simp only [hlabel]
    by_cases hx : b = addr
    · subst hx
      rw [insert_place_self] at hb
      obtain ⟨rfl, rfl⟩ : p = q ∧ name = w := by simpa using hb
      exact ⟨hne, h0, inode, Function.update_self .., Function.update_self ..⟩
    · rw [insert_place_of_ne hx] at hb
      obtain ⟨hw, hw0, i, hi, hcache⟩ := hr.named hb
      have hqw : q ++ [w] ≠ p ++ [name] := fun h => hunplaced (h ▸ hb)
      exact ⟨hw, hw0, i, by rw [Function.update_of_ne hx, hi],
        (Function.update_of_ne hqw ..).trans hcache⟩
  · intro b q w hb
    by_cases hx : b = addr
    · subst hx
      rw [insert_place_self] at hb
      obtain ⟨rfl, rfl⟩ : p = q ∧ name = w := by simpa using hb
      exact ⟨a, (insert_place_of_ne hane).trans hp⟩
    · rw [insert_place_of_ne hx] at hb
      obtain ⟨b', hb'⟩ := hr.above hb
      exact ⟨b', (insert_place_of_ne fun h => by simp [h, haddr] at hb').trans hb'⟩
  · intro q hq
    by_cases hqn : q = p ++ [name]
    · subst hqn
      exact ⟨addr, insert_place_self⟩
    · obtain ⟨b, hb⟩ := hr.cached fun h => hq ((Function.update_of_ne hqn ..).trans h)
      exact ⟨b, (insert_place_of_ne fun h => by simp [h, haddr] at hb).trans hb⟩
  · intro b q hb
    by_cases hx : b = addr
    · subst hx
      rw [insert_place_self] at hb
      cases hb
      simpa using hr.deep hp
    · rw [insert_place_of_ne hx] at hb
      exact Nat.lt_succ_of_lt (hr.deep hb)
  · obtain ⟨live, hlive, hle⟩ := hr.few
    refine ⟨addr :: live, fun b hb => ?_, Nat.succ_le_succ hle⟩
    by_cases hx : b = addr
    · exact List.mem_cons.mpr (Or.inl hx)
    · rw [insert_place_of_ne hx] at hb
      exact List.mem_cons_of_mem addr (hlive b hb)

theorem insert_spec (hr : Rep s t) (hp : t.node parent = some p) (haddr : t.place addr = none)
    (hnew : t.cache (p ++ [name]) = none) (hne : name ≠ []) (hlen : name.length < 256)
    (h0 : 0 ∉ name) :
    ∃ s', s.insert addr parent name inode = some (addr, s') ∧
      Rep s' (t.insert addr p name inode) := by
  rw [hr.parent_eq] at hp
  generalize ha : parent.getD s.root = a at hp
  have hane : a ≠ addr := by rintro rfl; simp [haddr] at hp
  obtain ⟨c, hc, hold⟩ := hr.linked hp
  obtain ⟨n, hn, rfl⟩ := node_of_childsOf hc
  obtain ⟨h, hh⟩ : ∃ h : NodeHeap, h =
    Function.update s.heap addr (some (RingNode.make name inode)) := ⟨_, rfl⟩
  have hchilds : childsOf h = Function.update (childsOf s.heap) addr (some none) := by
    funext x
    by_cases hx : x = addr
    · subst hx; simp [childsOf, hh, RingNode.make]
    · simp [childsOf, hh, Function.update_of_ne hx]
  have hnext : nextOf h = Function.update (nextOf s.heap) addr none := by
    funext x
    by_cases hx : x = addr
    · subst hx; simp [nextOf, hh, RingNode.make]
    · simp [nextOf, hh, Function.update_of_ne hx]
  have hlabel : labelOf h = Function.update (labelOf s.heap) addr (some (inode, name.length,
    name)) := by
    funext x
    by_cases hx : x = addr
    · subst hx; simp [labelOf, hh, RingNode.make, strncpy_eq h0, Nat.mod_eq_of_lt hlen]
    · simp [labelOf, hh, Function.update_of_ne hx]
  have haddr' : childsOf h addr ≠ none := by simp [hchilds]
  have ha' : childsOf h a ≠ none := by simp [hchilds, Function.update_of_ne hane, hc]
  have hna : h a = some n := by rw [hh, Function.update_of_ne hane, hn]
  simp only [DentryRing.insert, ha, ← hh, hna]
  cases hch : n.childs with
  | none =>
    rw [hch] at hold
    refine ⟨_, rfl, hr.grow hp haddr hnew hne h0 ?_ ?_ ?_ ?_⟩
    · simpa using hlabel
    · rw [childsOf_setChilds (by simpa using ha'), childsOf_setNext, hchilds]
    · rw [nextOf_setChilds, nextOf_setNext haddr', hnext, Function.update_idem]
      exact hold.add_first addr
    · intro x hx _
      rw [nextOf_setChilds, nextOf_setNext haddr', hnext, Function.update_idem,
        Function.update_of_ne hx]
  | some c =>
    rw [hch] at hold
    obtain ⟨w, hw⟩ := hold.entry
    have hcaddr : c ≠ addr := by rintro rfl; simp [haddr] at hw
    obtain ⟨m, -, hm⟩ := hold.succ hold.entry
    obtain ⟨first, hfirst, hfm⟩ := node_of_nextOf hm
    have hhc : h c = some first := by rw [hh, Function.update_of_ne hcaddr, hfirst]
    have hc' : childsOf h c ≠ none := by simp [childsOf, hhc]
    have hnext' : nextOf (((h.setNext addr (some m)).setNext c (some addr)).setChilds a
      (some addr)) =
        Function.update (Function.update (nextOf s.heap) addr (some m)) c (some addr) := by
      rw [nextOf_setChilds, nextOf_setNext (by simpa using hc'), nextOf_setNext haddr', hnext,
        Function.update_idem]
    simp only [hhc, hfm]
    refine ⟨_, rfl, hr.grow hp haddr hnew hne h0 ?_ ?_ ?_ ?_⟩
    · simpa using hlabel
    · rw [childsOf_setChilds (by simpa using ha'), childsOf_setNext, childsOf_setNext, hchilds]
    · rw [hnext']
      apply hold.add hm
      rintro ⟨w, hw⟩
      simp [haddr] at hw
    · intro x hx hxp
      have hxc : x ≠ c := by rintro rfl; exact hxp hold.entry
      rw [hnext', Function.update_of_ne hxc, Function.update_of_ne hx]

end Insert

end Rep

/-! ## release_node -/

/-- Exactly the nodes in `S` are freed. -/
structure Freed (S : Nat → Prop) (h h' : NodeHeap) : Prop where
  gone : ∀ {x}, S x → h' x = none
  kept : ∀ {x}, ¬ S x → h' x = h x

theorem Freed.nil (h : NodeHeap) : Freed (fun _ => False) h h := ⟨False.elim, fun _ => rfl⟩

theorem Freed.trans {S S' : Nat → Prop} {h h' h'' : NodeHeap} (h₁ : Freed S h h')
    (h₂ : Freed S' h' h'') :
    Freed (fun x => S x ∨ S' x) h h'' where
  gone {x} hx := by
    by_cases hx' : S' x
    · exact h₂.gone hx'
    · rw [h₂.kept hx']
      exact h₁.gone (hx.resolve_right hx')
  kept {x} hx := by
    rw [not_or] at hx
    rw [h₂.kept hx.2, h₁.kept hx.1]

theorem Freed.congr {S S' : Nat → Prop} {h h' : NodeHeap} (hf : Freed S h h')
    (hS : ∀ x, S' x ↔ S x) : Freed S' h h' where
  gone {x} hx := hf.gone ((hS x).mp hx)
  kept {x} hx := hf.kept fun h => hx ((hS x).mpr h)

theorem freed_free (h : NodeHeap) (a : Nat) : Freed (fun x => x = a) h (h.free a) where
  gone {x} hx := by
    subst hx
    exact Function.update_self ..
  kept {x} hx := Function.update_of_ne hx ..

theorem prefix_sibling {p q : List Name} {v w : Name} (hv : p ++ [v] <+: q) (hw : p ++ [w] <+: q) :
    v = w := by
  have h := List.prefix_of_prefix_length_le hv hw (by simp)
  simpa [List.prefix_append_right_inj] using h

theorem not_prefix_parent (p : List Name) (v : Name) : ¬ p ++ [v] <+: p := by
  intro h
  have := h.length_le
  simp only [List.length_append, List.length_singleton] at this
  omega

namespace Forest

variable {t : Forest} {h h' : NodeHeap} {p q : List Name} {x a : Nat}

/-- The rings of `p` and of everything below it are exact. -/
def Intact (t : Forest) (h : NodeHeap) (p : List Name) : Prop :=
  ∀ {b q}, t.place b = some q → p <+: q → ∃ c, childsOf h b = some c ∧
    Circle.Holds (nextOf h) (t.Child q) c

theorem Intact.congr (hi : t.Intact h p) (hh : ∀ x, t.Below p x → h' x = h x) : t.Intact h' p := by
  intro b q hb hpq
  obtain ⟨c, hc, hold⟩ := hi hb hpq
  refine ⟨c, ?_, hold.congr (fun _ => Iff.rfl) ?_⟩
  · rw [childsOf, hh b ⟨q, hb, hpq⟩]
    exact hc
  · rintro x ⟨w, hw⟩
    rw [nextOf, nextOf, hh x ⟨_, hw, hpq.trans (List.prefix_append q [w])⟩]

theorem Intact.mono (hi : t.Intact h p) (hpq : p <+: q) : t.Intact h q :=
  fun hb hq => hi hb (hpq.trans hq)

/-- The nodes below `p` other than its own. -/
def Inside (t : Forest) (p : List Name) (x : Nat) : Prop := ∃ w, t.Below (p ++ [w]) x

theorem below_iff (hinj : ∀ {a b p}, t.place a = some p → t.place b = some p → a = b)
    (ha : t.place a = some p) :
    t.Below p x ↔ x = a ∨ t.Inside p x := by
  constructor
  · rintro ⟨q, hx, r, rfl⟩
    cases r with
    | nil =>
      rw [List.append_nil] at hx
      exact Or.inl (hinj hx ha)
    | cons w r => exact Or.inr ⟨w, _, hx, r, by simp⟩
  · rintro (rfl | ⟨w, q, hx, hq⟩)
    · exact ⟨p, ha, List.prefix_rfl⟩
    · exact ⟨q, hx, (List.prefix_append p [w]).trans hq⟩

end Forest

section Release

open Forest

variable {t : Forest} {p : List Name} {parent c : Nat} {release : NodeHeap → Nat → Option NodeHeap}

theorem releaseLoop_spec (hinj : ∀ {a b p}, t.place a = some p → t.place b = some p → a = b)
    (hrel : ∀ {h x w}, t.place x = some (p ++ [w]) → t.Intact h (p ++ [w]) →
      ∃ h', release h x = some h' ∧ Freed (t.Inside (p ++ [w])) h h')
    (hp : t.place parent = some p) :
    ∀ {l : List Nat} {x rounds : Nat} {h : NodeHeap}, Seg (nextOf h) x (x :: l) c → c ∉ l →
      (x :: l).Nodup → (∀ y ∈ x :: l, ∃ w, t.place y = some (p ++ [w]) ∧ t.Intact h (p ++ [w])) →
      childsOf h parent = some (some c) → l.length < rounds →
      ∃ h', releaseLoop release parent rounds h x = some h' ∧
        Freed (fun z => ∃ y ∈ x :: l, ∃ w, t.place y = some (p ++ [w]) ∧ t.Below (p ++ [w]) z) h h'
  | l, x, rounds + 1, h, hseg, hc, hnd, hkids, hpar, hlt => by
    obtain ⟨-, m, hm, hrest⟩ := hseg
    obtain ⟨n, hn, hnext⟩ := node_of_nextOf hm
    obtain ⟨w, hx, hint⟩ := hkids x List.mem_cons_self
    obtain ⟨h₁, hrun, hfreed⟩ := hrel hx hint
    have hfreed : Freed (t.Below (p ++ [w])) h (h₁.free x) :=
      (hfreed.trans (freed_free h₁ x)).congr fun z => (below_iff hinj hx).trans or_comm
    have hparent : (h₁.free x) parent = h parent := by
      apply hfreed.kept
      rintro ⟨q, hq, hle⟩
      cases hp.symm.trans hq
      exact not_prefix_parent p w hle
    obtain ⟨np, hnp, hnpc⟩ := node_of_childsOf hpar
    simp only [releaseLoop, hn, hnext, hrun, hparent, hnp, hnpc, Option.some.injEq]
    cases l with
    | nil =>
      cases (show m = c from hrest)
      refine ⟨_, if_pos rfl, hfreed.congr fun z => ?_⟩
      simp [hx]
    | cons y l =>
      cases hrest.head
      rw [List.mem_cons, not_or] at hc
      rw [if_neg hc.1]
      -- the siblings that are left are not below the one just freed
      have hkept : ∀ z ∈ m :: l, ∀ {v}, t.place z = some (p ++ [v]) → ∀ b, t.Below (p ++ [v]) b →
        (h₁.free x) b = h b := by
        rintro z hz v hv b ⟨q, hb, hvq⟩
        apply hfreed.kept
        rintro ⟨q', hb', hwq⟩
        cases hb.symm.trans hb'
        cases prefix_sibling hvq hwq
        cases hinj hv hx
        exact (List.nodup_cons.mp hnd).1 hz
      have hseg' : Seg (nextOf (h₁.free x)) m (m :: l) c := by
        apply hrest.congr
        intro z hz
        obtain ⟨v, hv, -⟩ := hkids z (List.mem_cons_of_mem x hz)
        rw [nextOf, nextOf, hkept z hz hv z ⟨_, hv, List.prefix_rfl⟩]
      have hkids' : ∀ z ∈ m :: l, ∃ v, t.place z = some (p ++ [v]) ∧
        t.Intact (h₁.free x) (p ++ [v]) := by
        intro z hz
        obtain ⟨v, hv, hi⟩ := hkids z (List.mem_cons_of_mem x hz)
        exact ⟨v, hv, hi.congr (hkept z hz hv)⟩
      have hpar' : childsOf (h₁.free x) parent = some (some c) := by
        rw [childsOf, hparent]
        exact hpar
      obtain ⟨h₂, hrun₂, hfreed₂⟩ :=
        releaseLoop_spec hinj hrel hp hseg' hc.2 (List.nodup_cons.mp hnd).2 hkids' hpar'
        (by simpa using hlt)
      refine ⟨h₂, hrun₂, (hfreed.trans hfreed₂).congr fun z => ?_⟩
      simp [hx]

theorem releaseNode_spec {s : DentryRing} (hr : Rep s t) :
    ∀ {fuel : Nat} {h : NodeHeap} {a : Nat} {p : List Name}, t.place a = some p →
      s.allocs ≤ fuel + p.length → t.Intact h p → ∃ h', releaseNode s.allocs fuel h a = some h' ∧
      Freed (t.Inside p) h h'
  | 0, h, a, p, ha, hfuel, _ => by
    have := hr.deep ha
    omega
  | fuel + 1, h, a, p, ha, hfuel, hint => by
    obtain ⟨e, he, hold⟩ := hint ha List.prefix_rfl
    obtain ⟨n, hn, rfl⟩ := node_of_childsOf he
    simp only [releaseNode, hn]
    -- what is inside `p` hangs below a child of `p`
    have hinside : ∀ z, t.Inside p z → ∃ y w, t.place y = some (p ++ [w]) ∧
      t.Below (p ++ [w]) z := by
      rintro z ⟨w, q, hz, r, rfl⟩
      obtain ⟨y, hy⟩ := hr.above_prefix hz
      exact ⟨y, w, hy, _, hz, List.prefix_append ..⟩
    cases hch : n.childs with
    | none =>
      rw [hch] at hold
      refine ⟨h, rfl, (Freed.nil h).congr fun z => ?_⟩
      simp only [iff_false]
      intro hz
      obtain ⟨y, w, hy, -⟩ := hinside z hz
      exact hold y ⟨w, hy⟩
    | some c =>
      rw [hch] at hold he
      obtain ⟨l, hseg, hc, hnd, hl⟩ := hold.walk
      have hlen : l.length < s.allocs := by
        apply hr.length_le hnd
        intro x hx
        obtain ⟨w, hw⟩ := (hl x).mp hx
        simp [hw]
      have hkids : ∀ y ∈ c :: l, ∃ w, t.place y = some (p ++ [w]) ∧ t.Intact h (p ++ [w]) := by
        intro y hy
        obtain ⟨w, hw⟩ := (hl y).mp hy
        exact ⟨w, hw, hint.mono (List.prefix_append p [w])⟩
      have hrel : ∀ {h x w}, t.place x = some (p ++ [w]) → t.Intact h (p ++ [w]) →
          ∃ h', releaseNode s.allocs fuel h x = some h' ∧ Freed (t.Inside (p ++ [w])) h h' := by
        intro h x w hx hi
        refine releaseNode_spec hr hx ?_ hi
        simp only [List.length_append, List.length_singleton]
        omega
      obtain ⟨h', hrun, hfreed⟩ := releaseLoop_spec hr.inj hrel ha hseg hc hnd hkids he hlen
      refine ⟨h', hrun, hfreed.congr fun z => ?_⟩
      constructor
      · intro hz
        obtain ⟨y, w, hy, hz⟩ := hinside z hz
        exact ⟨y, (hl y).mpr ⟨w, hy⟩, w, hy, hz⟩
      · rintro ⟨y, -, w, -, hz⟩
        exact ⟨w, hz⟩

end Release

/-! ## remove -/

namespace Rep

variable {s : DentryRing} {t : Forest} {parent : Option Nat} {name : Name} {p : List Name}
  {a v : Nat} {h : NodeHeap}

theorem remove_place_iff {x : Nat} {q : List Name} :
    (t.remove p name).place x = some q ↔ t.place x = some q ∧ ¬ p ++ [name] <+: q := by
  simp [Forest.remove, Option.filter_eq_some_iff]

theorem remove_absent (hr : Rep s t) (hno : ∀ x, t.place x ≠ some (p ++ [name])) :
    t.remove p name = t := by
  have hbelow : ∀ {x q}, t.place x = some q → ¬ p ++ [name] <+: q := by
    rintro x q hx ⟨r, rfl⟩
    obtain ⟨b, hb⟩ := hr.above_prefix hx
    exact hno b hb
  have hplace : (t.remove p name).place = t.place := by
    funext x
    cases hx : t.place x with
    | none => simp [Forest.remove, hx]
    | some q => exact remove_place_iff.mpr ⟨hx, hbelow hx⟩
  have hcache : (t.remove p name).cache = t.cache := by
    funext q
    show (if p ++ [name] <+: q then none else t.cache q) = t.cache q
    by_cases hq : p ++ [name] <+: q
    · rw [if_pos hq]
      by_contra hne
      obtain ⟨b, hb⟩ := hr.cached fun h => hne h.symm
      exact hbelow hb hq
    · exact if_neg hq
  rw [show t.remove p name =
    { t with place := (t.remove p name).place, cache := (t.remove p name).cache } from rfl,
    hplace, hcache]

/-- The victim's subtree is freed, whatever happened to the ring it was in. -/
theorem release_victim (hr : Rep s t) (ha : t.place a = some p)
    (hv : t.place v = some (p ++ [name]))
    (hchilds : ∀ x, x ≠ a → childsOf h x = childsOf s.heap x)
    (hnext : ∀ x, ¬ t.Child p x → nextOf h x = nextOf s.heap x) :
    ∃ h', releaseNode s.allocs s.allocs h v = some h' ∧
      Freed (t.Below (p ++ [name])) h (h'.free v) := by
  have hint : t.Intact h (p ++ [name]) := by
    intro b q hb hq
    have hne : q ≠ p := by
      rintro rfl
      exact not_prefix_parent q name hq
    obtain ⟨c, hc, hold⟩ := hr.linked hb
    refine ⟨c, ?_, hold.congr (fun _ => Iff.rfl) ?_⟩
    · rw [hchilds b fun h => ?_, hc]
      subst h
      exact hne (Option.some.inj (hb.symm.trans ha))
    · rintro x ⟨w, hw⟩
      apply hnext
      rintro ⟨w', hw'⟩
      exact hne (List.append_inj_left' (Option.some.inj (hw.symm.trans hw')) rfl)
  obtain ⟨h', hrun, hfreed⟩ := releaseNode_spec hr hv (Nat.le_add_right ..) hint
  exact ⟨h', hrun, (hfreed.trans (freed_free h' v)).congr fun z =>
    (Forest.below_iff hr.inj hv).trans or_comm⟩

theorem shrink (hr : Rep s t) {e : Option Nat} {h' : NodeHeap} (ha : t.place a = some p)
    (hv : t.place v = some (p ++ [name])) (hlabel : labelOf h = labelOf s.heap)
    (hchilds : childsOf h = Function.update (childsOf s.heap) a (some e))
    (hold : Circle.Holds (nextOf h) (fun x => x ≠ v ∧ t.Child p x) e)
    (hnext : ∀ x, ¬ t.Child p x → nextOf h x = nextOf s.heap x)
    (hfreed : Freed (t.Below (p ++ [name])) h h') :
    Rep { s with heap := h' } (t.remove p name) := by
  have hkept : ∀ {b q}, t.place b = some q → ¬ p ++ [name] <+: q → h' b = h b := by
    intro b q hb hq
    apply hfreed.kept
    rintro ⟨q', hb', hq'⟩
    cases hb.symm.trans hb'
    exact hq hq'
  have hroot : ¬ p ++ [name] <+: [] := by simp
  refine ⟨hr.root_eq, remove_place_iff.mpr ⟨hr.root, hroot⟩, ?_, ?_, ?_, ?_, ?_, ?_, ?_, ?_⟩
  · show (h' s.root).bind RingNode.next = none
    rw [hkept hr.root hroot]
    exact (hnext s.root hr.root_not_child).trans hr.lone
  · intro b b' q hb hb'
    exact hr.inj (remove_place_iff.mp hb).1 (remove_place_iff.mp hb').1
  · intro b q hplace
    obtain ⟨hb, hq⟩ := remove_place_iff.mp hplace
    have hnextOf : ∀ x, (t.remove p name).Child q x → nextOf h' x = nextOf h x := by
      rintro x ⟨w, hw⟩
      obtain ⟨hx, hxq⟩ := remove_place_iff.mp hw
      rw [nextOf, nextOf, hkept hx hxq]
    simp only [childsOf, hkept hb hq]
    change ∃ c, childsOf h b = some c ∧ _
    by_cases hba : b = a
    · subst hba
      cases ha.symm.trans hb
      have hkids : ∀ x, (t.remove p name).Child p x ↔ x ≠ v ∧ t.Child p x := by
        intro x
        constructor
        · rintro ⟨w, hw⟩
          obtain ⟨hx, hxq⟩ := remove_place_iff.mp hw
          refine ⟨?_, w, hx⟩
          rintro rfl
          exact hxq (by rw [Option.some.inj (hx.symm.trans hv)])
        · rintro ⟨hne, w, hw⟩
          refine ⟨w, remove_place_iff.mpr ⟨hw, fun hle => hne ?_⟩⟩
          cases prefix_sibling hle List.prefix_rfl
          exact hr.inj hw hv
      refine ⟨e, by rw [hchilds, Function.update_self],
        hold.congr hkids fun x hx => hnextOf x ((hkids x).mpr hx)⟩
    · have hqp : q ≠ p := by rintro rfl; exact hba (hr.inj hb ha)
      obtain ⟨c, hc, hold⟩ := hr.linked hb
      have hkids : ∀ x, (t.remove p name).Child q x ↔ t.Child q x := by
        intro x
        constructor
        · rintro ⟨w, hw⟩
          exact ⟨w, (remove_place_iff.mp hw).1⟩
        · rintro ⟨w, hw⟩
          refine ⟨w, remove_place_iff.mpr ⟨hw, fun hle => ?_⟩⟩
          rcases List.prefix_concat_iff.mp hle with heq | hle
          · exact hqp (List.append_inj_left' heq rfl).symm
          · exact hq hle
      refine ⟨c, by rw [hchilds, Function.update_of_ne hba, hc], hold.congr hkids fun x hx => ?_⟩
      rw [hnextOf x ((hkids x).mpr hx)]
      apply hnext
      obtain ⟨w, hw⟩ := hx
      rintro ⟨w', hw'⟩
      exact hqp (List.append_inj_left' (Option.some.inj (hw.symm.trans hw')) rfl)
  · intro b q w hb
    obtain ⟨hb, hq⟩ := remove_place_iff.mp hb
    obtain ⟨hw, h0, i, hi, hcache⟩ := hr.named hb
    refine ⟨hw, h0, i, ?_, (if_neg hq).trans hcache⟩
    show (h' b).map _ = _
    rw [hkept hb hq]
    exact (congrFun hlabel b).trans hi
  · intro b q w hb
    obtain ⟨hb, hq⟩ := remove_place_iff.mp hb
    obtain ⟨b', hb'⟩ := hr.above hb
    exact ⟨b', remove_place_iff.mpr ⟨hb', fun h => hq (h.trans (List.prefix_append q [w]))⟩⟩
  · intro q hq
    have hpre : ¬ p ++ [name] <+: q := fun h => hq (if_pos h)
    obtain ⟨b, hb⟩ := hr.cached fun h => hq ((if_neg hpre).trans h)
    exact ⟨b, remove_place_iff.mpr ⟨hb, hpre⟩⟩
  · intro b q hb
    exact hr.deep (remove_place_iff.mp hb).1
  · obtain ⟨live, hlive, hle⟩ := hr.few
    refine ⟨live, fun b hb => hlive b fun h => hb ?_, hle⟩
    simp [Forest.remove, h]

end Rep

/-- The node behind `childs_` is not the one to be removed, or has no sibling. -/
def DentryRing.Removable (parent : Option Nat) (name : Name) (s : DentryRing) : Prop :=
  ∀ p c v n, s.heap (parent.getD s.root) = some p → p.childs = some c → nextOf s.heap c = some v →
    s.heap v = some n → n.hasName name = true → n.next = some v

namespace Rep

variable {s : DentryRing} {t : Forest} {parent : Option Nat} {name : Name} {p : List Name}

theorem walk_next (hr : Rep s t) {c : Nat}
    (hold : Circle.Holds (nextOf s.heap) (t.Child p) (some c)) :
    ∃ m l, nextOf s.heap c = some m ∧ Seg (nextOf s.heap) m (m :: l) m ∧ m ∉ l ∧ (m :: l).Nodup ∧
      (∀ x, x ∈ m :: l ↔ t.Child p x) ∧ l.length < s.allocs := by
  obtain ⟨m, hm, hcm⟩ := hold.succ hold.entry
  obtain ⟨l, hwalk⟩ := hr.walk (hold.enter hm)
  exact ⟨m, l, hcm, hwalk⟩

theorem remove_cases (hr : Rep s t) (name : Name) {a : Nat} (ha : parent.getD s.root = a)
    (hp : t.place a = some p) :
    (s.remove parent name = some s ∧ ∀ x, t.place x ≠ some (p ++ [name])) ∨
    ∃ c start l₁ v l₂ m, childsOf s.heap a = some (some c) ∧ nextOf s.heap c = some start ∧
      Ring (nextOf s.heap) start (l₁ ++ v :: l₂) ∧ (l₁ ++ v :: l₂).Nodup ∧
      (∀ x, x ∈ l₁ ++ v :: l₂ ↔ t.Child p x) ∧ t.place v = some (p ++ [name]) ∧
      nextOf s.heap v = some m ∧ s.remove parent name = (releaseNode s.allocs s.allocs
        ((s.heap.setChilds a (if some m = some v then none else some m)).setNext (l₁.getLastD start)
          (some m)) v).map
          fun h => { s with heap := h.free v } := by
  obtain ⟨e, he, hold⟩ := hr.linked hp
  obtain ⟨n, hn, rfl⟩ := node_of_childsOf he
  cases hch : n.childs with
  | none =>
    rw [hch] at hold
    refine Or.inl ⟨by simp only [DentryRing.remove, ha, hn, hch], fun x hx => hold x ⟨name, hx⟩⟩
  | some c =>
    rw [hch] at hold he
    obtain ⟨start, l, hstart, hseg, hs, hnd, hl, hlt⟩ := hr.walk_next hold
    have hrun : (s.heap c).bind RingNode.next = some start := hstart
    obtain ⟨l₁, v, l₂, hsplit, hname, hloop⟩ | ⟨hnone, hloop⟩ :=
      removeLoop_eq name start hseg hs hlt
    · rw [hsplit] at hseg hnd hl
      have hring : Ring (nextOf s.heap) start (l₁ ++ v :: l₂) := ⟨by simp, hseg⟩
      have hv : v ∈ l₁ ++ v :: l₂ := by simp
      obtain ⟨m, -, hm⟩ := hring.mem_succ hv
      obtain ⟨nv, hnv, hnext⟩ := node_of_nextOf hm
      refine Or.inr ⟨c, start, l₁, v, l₂, m, he, hstart, hring, hnd, hl,
        (hr.named_iff name ((hl v).mp hv)).mp hname, hm, ?_⟩
      simp only [DentryRing.remove, ha, hn, hch, hrun, hloop, hnv, hnext]
    · refine Or.inl ⟨by simp only [DentryRing.remove, ha, hn, hch, hrun, hloop], fun x hx => ?_⟩
      have hch : t.Child p x := ⟨name, hx⟩
      have := (hr.named_iff name hch).mpr hx
      simp [hnone x ((hl x).mpr hch)] at this

theorem relink (hr : Rep s t) {a prev m : Nat} (e : Option Nat) (ha : t.place a = some p)
    (hprev : t.Child p prev) {h : NodeHeap}
    (hh : h = (s.heap.setChilds a e).setNext prev (some m)) :
    labelOf h = labelOf s.heap ∧ childsOf h = Function.update (childsOf s.heap) a (some e) ∧
      nextOf h = Function.update (nextOf s.heap) prev (some m) := by
  obtain ⟨w, hw⟩ := hprev
  obtain ⟨ca, hca, -⟩ := hr.linked ha
  obtain ⟨cp, hcp, -⟩ := hr.linked hw
  have hane : childsOf s.heap a ≠ none := by simp [hca]
  have hpne : childsOf (s.heap.setChilds a e) prev ≠ none := by
    rw [childsOf_setChilds hane]
    by_cases hpa : prev = a
    · simp [hpa]
    · simp [Function.update_of_ne hpa, hcp]
  subst hh
  exact ⟨by simp, by rw [childsOf_setNext, childsOf_setChilds hane],
    by rw [nextOf_setNext hpne, nextOf_setChilds]⟩

theorem remove_spec (hr : Rep s t) (hp : t.node parent = some p) (hsafe : s.Removable parent name) :
    ∃ s', s.remove parent name = some s' ∧ Rep s' (t.remove p name) := by
  rw [hr.parent_eq] at hp
  obtain ⟨heq, hno⟩ | ⟨c, start, l₁, v, l₂, m, hc, hstart, hring, hnd, hl, hv, hm, heq⟩ :=
    hr.remove_cases name rfl hp
  · rw [hr.remove_absent hno]
    exact ⟨s, heq, hr⟩
  have hvc : t.Child p v := ⟨name, hv⟩
  have hout : ∀ prev x, t.Child p prev → ¬ t.Child p x →
    Function.update (nextOf s.heap) prev (some m) x = nextOf s.heap x := by
    intro prev x hprev hx
    apply Function.update_of_ne
    rintro rfl
    exact hx hprev
  -- the ring closed around the victim, whichever node comes before it
  have hclosed : ∀ prev e, t.Child p prev → l₁.getLastD start = prev →
    (if some m = some v then none else some m) = e →
      Circle.Holds (Function.update (nextOf s.heap) prev (some m)) (fun x => x ≠ v ∧
      t.Child p x) e →
      ∃ s', s.remove parent name = some s' ∧ Rep s' (t.remove p name) := by
    intro prev e hprev hlast he hold
    rw [hlast, he] at heq
    obtain ⟨h, hh⟩ : ∃ h : NodeHeap, h = (s.heap.setChilds (parent.getD s.root) e).setNext prev
      (some m) := ⟨_, rfl⟩
    obtain ⟨hlabel, hchilds, hnext⟩ := hr.relink e hp hprev hh
    have hother : ∀ x, ¬ t.Child p x → nextOf h x = nextOf s.heap x := by
      intro x hx
      rw [hnext, hout prev x hprev hx]
    have hchilds' : ∀ x, x ≠ parent.getD s.root → childsOf h x = childsOf s.heap x := by
      intro x hx
      rw [hchilds, Function.update_of_ne hx]
    obtain ⟨h', hrun, hfreed⟩ := hr.release_victim hp hv hchilds' hother
    rw [← hh, hrun] at heq
    exact ⟨_, heq, hr.shrink hp hv hlabel hchilds (hnext ▸ hold) hother hfreed⟩
  cases hl₁ : l₁ using List.reverseRecOn with
  | nil =>
    subst hl₁
    cases hring.head
    -- the search begins with the victim, which is then alone
    obtain ⟨n, hn, hnc⟩ := node_of_childsOf hc
    obtain ⟨nv, hnv, hnm⟩ := node_of_nextOf hm
    have hname : nv.hasName name = true := by
      rw [← named_of_some hnv]
      exact (hr.named_iff name hvc).mpr hv
    have hmv : some m = some start := hnm ▸ hsafe n c start nv hn hnc hstart hnv hname
    cases hmv
    refine hclosed start none hvc rfl (if_pos rfl) ?_
    rintro x ⟨hne, hx⟩
    obtain ⟨-, m', hm', hrest⟩ := hring.seg
    cases hm.symm.trans hm'
    cases l₂ with
    | nil => exact hne (List.mem_singleton.mp ((hl x).mpr hx))
    | cons y l₂ =>
      cases hrest.head
      simp at hnd
  | append_singleton l₁' prev =>
    subst hl₁
    have hprev : t.Child p prev := (hl prev).mp (by simp)
    have hlist : l₁' ++ [prev] ++ v :: l₂ = l₁' ++ prev :: v :: l₂ := by simp
    rw [hlist] at hring hnd hl
    have hold := hring.remove hnd hm
    have hmv : ¬ some m = some v := fun h => hold.entry.1 (Option.some.inj h)
    refine hclosed prev (some m) hprev (by simp) (if_neg hmv)
      (hold.congr (fun x => ?_) fun _ _ => rfl)
    rw [hl]

/-- Without the condition the predecessor of the node keeps pointing at it. -/
theorem remove_breaks (hr : Rep s t) (hp : t.node parent = some p)
    (hnot : ¬ s.Removable parent name) :
    ∃ s', s.remove parent name = some s' ∧
      ¬ ∃ e, childsOf s'.heap (parent.getD s.root) = some e ∧
      Circle.Holds (nextOf s'.heap) ((t.remove p name).Child p) e := by
  rw [hr.parent_eq] at hp
  simp only [DentryRing.Removable, not_forall] at hnot
  obtain ⟨n, c', v', nv, hn, hnc, hcv, hnv, hname, hne⟩ := hnot
  have hc' : childsOf s.heap (parent.getD s.root) = some (some c') := by simp [childsOf, hn, hnc]
  have hold' : Circle.Holds (nextOf s.heap) (t.Child p) (some c') := by
    obtain ⟨e, he, hold⟩ := hr.linked hp
    cases hc'.symm.trans he
    exact hold
  obtain ⟨y, hy, hcy⟩ := hold'.succ hold'.entry
  cases hcv.symm.trans hcy
  have hv' := (hr.named_iff name hy).mp ((named_of_some hnv).trans hname)
  obtain ⟨heq, hno⟩ | ⟨c, start, l₁, v, l₂, m, hc, hstart, hring, hnd, hl, hv, hm, heq⟩ :=
    hr.remove_cases name rfl hp
  · exact absurd hv' (hno v')
  obtain rfl : c = c' := by simpa using hc.symm.trans hc'
  cases hcv.symm.trans hstart
  obtain rfl : v = v' := hr.inj hv hv'
  have hmv : m ≠ v := by
    rintro rfl
    obtain ⟨n', hn', hnext⟩ := node_of_nextOf hm
    cases hnv.symm.trans hn'
    exact hne hnext
  have hnil : l₁ = [] := by
    cases l₁ with
    | nil => rfl
    | cons x l₁ =>
      cases hring.head
      simp at hnd
  subst hnil
  obtain ⟨h, hh⟩ : ∃ h : NodeHeap, h = (s.heap.setChilds (parent.getD s.root) (some m)).setNext v
    (some m) := ⟨_, rfl⟩
  obtain ⟨hlabel, hchilds, hnext⟩ := hr.relink (some m) hp hy hh
  have hsame : nextOf h = nextOf s.heap := by rw [hnext, ← hm, Function.update_eq_self]
  have hchilds' : ∀ x, x ≠ parent.getD s.root → childsOf h x = childsOf s.heap x := by
    intro x hx
    rw [hchilds, Function.update_of_ne hx]
  obtain ⟨h', hrun, hfreed⟩ := hr.release_victim hp hv hchilds' fun x _ => by rw [hsame]
  rw [if_neg (fun h => hmv (Option.some.inj h)), List.getLastD_nil, ← hh, hrun] at heq
  refine ⟨_, heq, ?_⟩
  rintro ⟨e, he, hold⟩
  -- the entry keeps its successor
  have hcne : c ≠ v := by
    rintro rfl
    exact hmv (Option.some.inj (hm.symm.trans hcv))
  obtain ⟨w, hw⟩ := hold'.entry
  have hcout : ¬ p ++ [name] <+: p ++ [w] := by
    intro hle
    cases prefix_sibling hle List.prefix_rfl
    exact hcne (hr.inj hw hv)
  have hckept : (h'.free v) c = h c := by
    apply hfreed.kept
    rintro ⟨q, hq, hle⟩
    cases hw.symm.trans hq
    exact hcout hle
  have hcin : (t.remove p name).Child p c := ⟨w, remove_place_iff.mpr ⟨hw, hcout⟩⟩
  cases e with
  | none => exact hold c hcin
  | some e =>
    obtain ⟨y, ⟨w', hyw⟩, hcy⟩ := hold.succ hcin
    have hcv' : nextOf (h'.free v) c = some v := by
      rw [nextOf, hckept]
      exact (congrFun hsame c).trans hcv
    cases hcv'.symm.trans hcy
    obtain ⟨hyp, hyout⟩ := remove_place_iff.mp hyw
    rw [Option.some.inj (hyp.symm.trans hv)] at hyout
    exact hyout List.prefix_rfl

end Rep

/-! ## Runs -/

/-- A node that can be reached from the root by following pointers. -/
inductive DentryRing.Reachable (s : DentryRing) : Nat → Prop
  | root : s.Reachable s.root
  | childs {a c : Nat} : s.Reachable a → childsOf s.heap a = some (some c) → s.Reachable c
  | next {a c : Nat} : s.Reachable a → nextOf s.heap a = some c → s.Reachable c

/-- The rings are exact, no freed node can be reached, and `lookup` finds what is there. -/
structure DentryRing.Exact (s : DentryRing) (t : Forest) : Prop where
  rings : ∀ a p, t.place a = some p → ∃ e, childsOf s.heap a = some e ∧
    Circle.Holds (nextOf s.heap) (t.Child p) e
  safe : ∀ a, s.Reachable a → s.heap a ≠ none
  finds : ∀ parent name p, t.node parent = some p →
    ∃ r s', s.lookup parent name = some (r, s') ∧ ∀ x, r = some x ↔ t.place x = some (p ++ [name])

theorem Rep.live {s : DentryRing} {t : Forest} (hr : Rep s t) {a : Nat} (ha : s.Reachable a) :
    ∃ p, t.place a = some p := by
  induction ha with
  | root => exact ⟨[], hr.root⟩
  | childs _ hc ih =>
    obtain ⟨p, hp⟩ := ih
    obtain ⟨e, he, hold⟩ := hr.linked hp
    cases hc.symm.trans he
    obtain ⟨w, hw⟩ := hold.entry
    exact ⟨_, hw⟩
  | @next a c _ hn ih =>
    obtain ⟨p, hp⟩ := ih
    cases p using List.reverseRecOn with
    | nil =>
      cases hr.inj hp hr.root
      simp [hr.lone] at hn
    | append_singleton p w =>
      obtain ⟨b, hb⟩ := hr.above hp
      obtain ⟨e, he, hold⟩ := hr.linked hb
      cases e with
      | none => exact absurd ⟨w, hp⟩ (hold a)
      | some e =>
        obtain ⟨y, ⟨w', hw'⟩, hy⟩ := hold.succ ⟨w, hp⟩
        cases hn.symm.trans hy
        exact ⟨_, hw'⟩

theorem Rep.exact {s : DentryRing} {t : Forest} (hr : Rep s t) : s.Exact t where
  rings _ _ ha := hr.linked ha
  safe a ha := by
    obtain ⟨p, hp⟩ := hr.live ha
    obtain ⟨e, he, -⟩ := hr.linked hp
    obtain ⟨n, hn, -⟩ := node_of_childsOf he
    simp [hn]
  finds parent name p hp := by
    obtain ⟨r, s', hrun, -, hfound⟩ := hr.lookup_spec name hp
    exact ⟨r, s', hrun, hfound⟩

/-- The cache beside the forest it should stand for; `none` when a call had no result. -/
abbrev RingState := Option DentryRing × Forest

def ringStep (st : RingState) (op : RingOp) : Option RingState :=
  (st.2.apply op).map fun t => (st.1.bind op.exec, t)

def ringStart (root : Nat) : RingState := (some (DentryRing.init root), Forest.init root)

def RingsExact (st : RingState) : Prop := ∃ s, st.1 = some s ∧ s.Exact st.2

def RemoveSafe (st : RingState) : RingOp → Prop
  | .remove parent name => ∀ s, st.1 = some s → s.Removable parent name
  | _ => True

theorem init_place {root a : Nat} {p : List Name} (h : (Forest.init root).place a = some p) :
    a = root ∧ p = [] := by
  by_cases ha : a = root
  · subst ha
    exact ⟨rfl, by simpa [Forest.init, eq_comm] using h⟩
  · simp [Forest.init, Function.update_of_ne ha] at h

theorem rep_init (root : Nat) : Rep (DentryRing.init root) (Forest.init root) where
  root_eq := rfl
  root := by simp [Forest.init, DentryRing.init]
  lone := by simp [nextOf, DentryRing.init, RingNode.make]
  inj ha hb := (init_place ha).1.trans (init_place hb).1.symm
  linked {a p} ha := by
    obtain ⟨rfl, rfl⟩ := init_place ha
    refine ⟨none, by simp [childsOf, DentryRing.init, RingNode.make], ?_⟩
    rintro x ⟨w, hw⟩
    simpa using (init_place hw).2
  named hb := absurd (init_place hb).2 (by simp)
  above hb := absurd (init_place hb).2 (by simp)
  cached h := absurd rfl h
  deep ha := by
    rw [(init_place ha).2]
    exact Nat.one_pos
  few := by
    refine ⟨[root], fun a ha => ?_, Nat.le_refl 1⟩
    obtain ⟨p, hp⟩ := Option.ne_none_iff_exists'.mp ha
    exact List.mem_singleton.mpr (init_place hp).1

theorem ringStep_rep {s : DentryRing} {t : Forest} {op : RingOp} {st : RingState} (hr : Rep s t)
    (h : ringStep (some s, t) op = some st) (hsafe : RemoveSafe (some s, t) op) :
    ∃ s', st.1 = some s' ∧ Rep s' st.2 := by
  obtain ⟨t', ht, rfl⟩ := Option.map_eq_some_iff.mp h
  cases op with
  | insert addr parent name inode =>
    simp only [Forest.apply] at ht
    cases hp : t.node parent with
    | none => simp [hp] at ht
    | some p =>
      simp only [hp, Option.ite_none_right_eq_some, Option.some.injEq] at ht
      obtain ⟨⟨haddr, hnew, hne, hlen, h0⟩, rfl⟩ := ht
      obtain ⟨s', hrun, hr'⟩ := hr.insert_spec hp haddr hnew hne hlen h0
      exact ⟨s', by simp [RingOp.exec, hrun], hr'⟩
  | lookup parent name =>
    obtain ⟨p, hp, rfl⟩ := Option.map_eq_some_iff.mp ht
    obtain ⟨r, s', hrun, hr', -⟩ := hr.lookup_spec name hp
    exact ⟨s', by simp [RingOp.exec, hrun], hr'⟩
  | remove parent name =>
    obtain ⟨p, hp, rfl⟩ := Option.map_eq_some_iff.mp ht
    obtain ⟨s', hrun, hr'⟩ := hr.remove_spec hp (hsafe s rfl)
    exact ⟨s', hrun, hr'⟩

theorem ringStep_broken {s : DentryRing} {t : Forest} {op : RingOp} {st : RingState}
    (hr : Rep s t) (h : ringStep (some s, t) op = some st) (hnot : ¬ RemoveSafe (some s, t) op) :
    ¬ RingsExact st := by
  obtain ⟨t', ht, rfl⟩ := Option.map_eq_some_iff.mp h
  cases op with
  | insert => exact absurd trivial hnot
  | lookup => exact absurd trivial hnot
  | remove parent name =>
    obtain ⟨p, hp, rfl⟩ := Option.map_eq_some_iff.mp ht
    have hnot : ¬ s.Removable parent name := by
      intro hs
      apply hnot
      rintro s' ⟨⟩
      exact hs
    obtain ⟨s', hrun, hbad⟩ := hr.remove_breaks hp hnot
    rintro ⟨s'', hs'', hexact⟩
    cases hrun.symm.trans hs''
    apply hbad
    apply hexact.rings
    rw [hr.parent_eq] at hp
    exact Rep.remove_place_iff.mpr ⟨hp, not_prefix_parent p name⟩

/-- The rings stay exact in a run exactly as long as no `remove` takes out the node
behind `childs_` of a ring with other nodes. -/
theorem rings_exact_iff (root : Nat) (ops : List RingOp) :
    Runs.Along ringStep RingsExact ops (ringStart root) ↔
      Runs.Guarded ringStep RemoveSafe ops (ringStart root) := by
  have hstart : ∃ s, (ringStart root).1 = some s ∧ Rep s (ringStart root).2 :=
    ⟨_, rfl, rep_init root⟩
  have hstep : ∀ (st : RingState) (op : RingOp) (st' : RingState),
    (∃ s, st.1 = some s ∧ Rep s st.2) → RemoveSafe st op →
      ringStep st op = some st' → ∃ s, st'.1 = some s ∧ Rep s st'.2 := by
    rintro ⟨r, t⟩ op st' ⟨s, rfl, hr⟩ hsafe h
    exact ringStep_rep hr h hsafe
  constructor
  · apply Runs.guarded_of_along hstep _ ops (ringStart root) hstart
    rintro ⟨r, t⟩ op st' ⟨s, rfl, hr⟩ h hnot
    exact ringStep_broken hr h hnot
  · apply Runs.along_of_guarded _ hstep ops (ringStart root) hstart
    rintro ⟨r, t⟩ ⟨s, rfl, hr⟩
    exact ⟨s, rfl, hr.exact⟩

/-- Two children are inserted and the first is removed again: the second still
leads to it. -/
theorem freed_node_reachable :
    ∃ s t, Runs.run ringStep [.insert 1 none [97] 1, .insert 2 none [98] 2,
      .remove none [97]] (ringStart 0) = some (some s, t) ∧ s.Reachable 1 ∧ s.heap 1 = none ∧
        ¬ RingsExact (some s, t) := by
  have hend : ∃ s t, Runs.run ringStep [.insert 1 none [97] 1, .insert 2 none [98] 2,
    .remove none [97]] (ringStart 0) =
      some (some s, t) ∧ s.root = 0 ∧ childsOf s.heap 0 = some (some 2) ∧ nextOf s.heap 2 = some 1 ∧
      s.heap 1 = none :=
    ⟨_, _, rfl, rfl, rfl, rfl, rfl⟩
  obtain ⟨s, t, hrun, hroot, hchilds, hnext, hfree⟩ := hend
  have hreach : s.Reachable 1 := .next (.childs (hroot ▸ .root) hchilds) hnext
  refine ⟨s, t, hrun, hreach, hfree, ?_⟩
  rintro ⟨s', ⟨⟩, hexact⟩
  exact hexact.safe 1 hreach hfree

end NaiveFS
