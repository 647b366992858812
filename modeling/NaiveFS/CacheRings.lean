import NaiveFS.LookupSound
import NaiveFS.RingSound

/-!
# The dentry cache and its rings

The calls on the namespace keep the map of paths beside the rings of nodes that it
stands for. As long as the rings are intact, the map says what a lookup finds in the
rings. Lookups keep them intact; the end of `inode_unlink` does unless the node it
removes is the one behind `childs_` of a ring with other nodes.
-/

namespace NaiveFS

open NodeHeap

/-! ## Rings and map -/

namespace DentryCache

variable {c : DentryCache} {parent : List Name} {name : Name} {inode : Nat} {r : DentryRing}
  {t : Forest} {p : Option Nat}

/-- The node of a path is the root or has been entered. -/
def Holds (c : DentryCache) (q : List Name) : Prop := q = [] ∨ c q ≠ none

structure Stands (c : DentryCache) (r : DentryRing) (t : Forest) : Prop where
  nodes : c.nodes = some r
  rep : Rep r t
  cache : t.cache = c.map
  node : ∀ q, c.Holds q → t.node (c.link q) = some q
  fresh : ∀ x, t.place x ≠ none → x < r.allocs
  short : ∀ q, c.Holds q → ∀ n ∈ q, n.length < 256

/-- The rings are as the map says. -/
def Intact (c : DentryCache) : Prop := ∃ r t, c.Stands r t

/-- No call has read from a node that was freed, and a lookup in the rings finds what the
map says. -/
def Serves (c : DentryCache) : Prop :=
  ∀ parent name, c.Holds parent → ∃ r x r', c.nodes = some r ∧ r.lookup (c.link parent) name =
    some (x, r') ∧
    (x.bind fun a => (labelOf r.heap a).map Prod.fst) = c.lookup parent name

theorem Intact.serves (h : c.Intact) : c.Serves := by
  intro parent name hp
  obtain ⟨r, t, h⟩ := h
  obtain ⟨x, r', hrun, hx⟩ := h.rep.lookup_refines name (h.node parent hp)
  refine ⟨r, x, r', h.nodes, hrun, ?_⟩
  rw [hx, DentryCache.lookup, h.cache]

theorem Intact.init : DentryCache.init.Intact := by
  refine ⟨_, _, rfl, rep_init 0, rfl, fun q hq => ?_, fun x hx => ?_, fun q hq => ?_⟩
  · rcases hq with rfl | hq
    · simp [Forest.node, Forest.init, DentryCache.init]
    · exact absurd rfl hq
  · obtain ⟨p, hp⟩ := Option.ne_none_iff_exists'.mp hx
    rw [(init_place hp).1]
    exact Nat.one_pos
  · rcases hq with rfl | hq
    · exact fun n hn => absurd hn List.not_mem_nil
    · exact absurd rfl hq

theorem lookup_allocs {x : Option Nat} {r r' : DentryRing} (h : r.lookup p name = some (x, r')) :
    r'.allocs = r.allocs := by
  simp only [DentryRing.lookup] at h
  repeat' split at h
  all_goals cases h
  all_goals rfl

theorem Stands.enter (h : c.Stands r t) (hp : c.Holds parent) (name : Name) :
    ∃ r', (c.enter parent name).Stands r' t := by
  obtain ⟨x, r', hrun, hrep, -⟩ := h.rep.lookup_spec name (h.node parent hp)
  refine ⟨r', ?_, hrep, h.cache, h.node, ?_, h.short⟩
  · rw [DentryCache.enter, h.nodes]
    simp [hrun]
  · rw [lookup_allocs hrun]
    exact h.fresh

theorem Intact.enter (h : c.Intact) (hp : c.Holds parent) : (c.enter parent name).Intact := by
  obtain ⟨r, t, h⟩ := h
  obtain ⟨r', h'⟩ := h.enter hp name
  exact ⟨r', t, h'⟩

theorem insert_allocs {addr : Nat} {x : Nat} {r r' : DentryRing}
    (h : r.insert addr p name inode = some (x, r')) :
    r'.allocs = r.allocs + 1 := by
  simp only [DentryRing.insert] at h
  repeat' split at h
  all_goals cases h
  all_goals rfl

theorem Intact.insert (h : c.Intact) (hp : c.Holds parent) (hnew : c (parent ++ [name]) = none)
    (hne : name ≠ []) (hlen : name.length < 256) (h0 : 0 ∉ name) :
    (c.insert parent name inode).Intact := by
  obtain ⟨r, t, h⟩ := h
  have haddr : t.place r.allocs = none := by
    by_contra hx
    exact Nat.lt_irrefl _ (h.fresh _ hx)
  have hfresh : t.cache (parent ++ [name]) = none := by
    rw [h.cache]
    exact hnew
  obtain ⟨r', hrun, hrep⟩ : ∃ r', r.insert r.allocs _ name inode = some (r.allocs, r') ∧ _ :=
    h.rep.insert_spec (h.node parent hp) haddr hfresh hne hlen h0
  have hold : ∀ {q}, (c.insert parent name inode).Holds q → q ≠ parent ++ [name] → c.Holds q := by
    intro q hq hqp
    refine hq.imp id fun hq => ?_
    rwa [DentryCache.insert_map, NodeMap.insert, Function.update_of_ne hqp] at hq
  refine ⟨r', t.insert r.allocs parent name inode, ?_, hrep, ?_, fun q hq => ?_, fun x hx => ?_,
    fun q hq n hn => ?_⟩
  · rw [DentryCache.insert, h.nodes]
    simp [hrun]
  · rw [DentryCache.insert_map, ← h.cache]
    rfl
  · by_cases hqp : q = parent ++ [name]
    · subst hqp
      simp [Forest.node, DentryCache.insert, h.nodes, Rep.insert_place_self]
    · have hplace := h.node q (hold hq hqp)
      have hlink : (c.insert parent name inode).link q = c.link q := Function.update_of_ne hqp ..
      rw [hlink]
      refine (Rep.insert_place_of_ne fun hx => ?_).trans hplace
      rw [Forest.node, show (c.link q).getD t.root = r.allocs from hx, haddr] at hplace
      cases hplace
  · rw [insert_allocs hrun]
    by_cases hxa : x = r.allocs
    · omega
    · rw [Rep.insert_place_of_ne hxa] at hx
      exact Nat.lt_succ_of_lt (h.fresh x hx)
  · by_cases hqp : q = parent ++ [name]
    · subst hqp
      rcases List.mem_append.mp hn with hn | hn
      · exact h.short parent hp n hn
      · rwa [List.mem_singleton.mp hn]
    · exact h.short q (hold hq hqp) n hn

/-- The node that `inode_unlink` removes is not the one behind `childs_`, or has no
sibling. -/
def Removable (c : DentryCache) (parent : List Name) (name : Name) : Prop :=
  ∀ r, (c.enter parent.dropLast (parent.getLast?.getD [])).nodes = some r →
    r.Removable (c.link parent) name

instance (p : Option Nat) (name : Name) (r : DentryRing) : Decidable (r.Removable p name) :=
  decidable_of_iff ((r.heap (p.getD r.root)).all
    (fun a => a.childs.all fun x => (nextOf r.heap x).all fun y =>
      (r.heap y).all fun n => !n.hasName name || n.next == some y) = true) <| by
    simp only [DentryRing.Removable, Option.all_eq_true, Bool.or_eq_true, Bool.not_eq_true',
      beq_iff_eq]
    constructor
    · intro h a x y n ha hx hy hn hname
      exact (h a ha x hx y hy n hn).resolve_left (by simp [hname])
    · intro h a ha x hx y hy n hn
      cases hname : n.hasName name with
      | false => exact Or.inl rfl
      | true => exact Or.inr (h a x y n ha hx hy hn hname)

instance (c : DentryCache) (parent : List Name) (name : Name) :
    Decidable (c.Removable parent name) :=
  decidable_of_iff ((c.enter parent.dropLast (parent.getLast?.getD [])).nodes.all
    (fun r => decide (r.Removable (c.link parent) name)) = true)
    ((Option.all_eq_true _ _).trans (forall₂_congr fun _ _ => decide_eq_true_iff))

theorem remove_allocs {r r' : DentryRing} (h : r.remove p name = some r') :
    r'.allocs = r.allocs := by
  simp only [DentryRing.remove] at h
  repeat' split at h
  all_goals try cases h
  all_goals try rfl
  all_goals
    obtain ⟨_, -, rfl⟩ := Option.map_eq_some_iff.mp h
    rfl

theorem Stands.remove (h : c.Stands r t) (hp : c.Holds parent)
    (hsafe : r.Removable (c.link parent) name) :
    (c.remove parent name).Intact := by
  obtain ⟨r', hrun, hrep⟩ := h.rep.remove_spec (h.node parent hp) hsafe
  have hout : ∀ {q}, (c.remove parent name).Holds q → ¬ parent ++ [name] <+: q := by
    rintro q (rfl | hq)
    · simp
    · intro hc
      exact hq (if_pos hc)
  have hold : ∀ {q}, (c.remove parent name).Holds q → c.Holds q := by
    intro q hq
    have hmap : (c.remove parent name).map q = c.map q := if_neg (hout hq)
    exact hq.imp id fun hq => hmap ▸ hq
  refine ⟨r', t.remove parent name, ?_, hrep, ?_, fun q hq => ?_, fun x hx => ?_,
    fun q hq => h.short q (hold hq)⟩
  · rw [DentryCache.remove, h.nodes]
    exact hrun
  · rw [DentryCache.remove, ← h.cache]
    rfl
  · have hlink : (c.remove parent name).link q = c.link q := if_neg (hout hq)
    rw [hlink]
    exact Rep.remove_place_iff.mpr ⟨h.node q (hold hq), hout hq⟩
  · obtain ⟨q, hq⟩ := Option.ne_none_iff_exists'.mp hx
    rw [remove_allocs hrun]
    exact h.fresh x (by rw [(Rep.remove_place_iff.mp hq).1]; exact Option.some_ne_none q)

/-- With a node the one above it has been entered. -/
theorem Stands.above (h : c.Stands r t) {q : List Name} (hq : c.Holds q) : c.Holds q.dropLast := by
  cases q using List.reverseRecOn with
  | nil => exact Or.inl rfl
  | append_singleton p name =>
    rw [List.dropLast_concat]
    obtain ⟨b, hb⟩ := h.rep.above (h.node _ hq)
    cases p using List.reverseRecOn with
    | nil => exact Or.inl rfl
    | append_singleton p w =>
      obtain ⟨-, -, i, -, hcache⟩ := h.rep.named hb
      right
      rw [← h.cache, hcache]
      exact Option.some_ne_none i

theorem Intact.drop (h : c.Intact) (hp : c.Holds parent) (hsafe : c.Removable parent name) :
    (c.drop parent name).Intact := by
  obtain ⟨r, t, h⟩ := h
  obtain ⟨r', h'⟩ := h.enter (h.above hp) (parent.getLast?.getD [])
  exact h'.remove hp (hsafe r' h'.nodes)

end DentryCache

/-! ## The calls -/

/-- The components of a C string. -/
def Path.NulFree (path : Path) : Prop := ∀ n ∈ path.names, (0 : UInt8) ∉ n

instance (path : Path) : Decidable path.NulFree :=
  inferInstanceAs (Decidable (∀ n ∈ path.names, (0 : UInt8) ∉ n))

theorem Path.NulFree.parent {path : Path} (h : path.NulFree) : path.parent.NulFree :=
  fun n hn => h n (List.mem_of_mem_dropLast hn)

theorem Path.namesFrom_nulFree :
    ∀ (n : Nat) {text : List UInt8}, (0 : UInt8) ∉ text → ∀ name ∈ Path.namesFrom n text,
      (0 : UInt8) ∉ name := by
  intro n
  induction n with
  | zero =>
    intro text _ name hname
    cases hname
  | succ n ih =>
    intro text h0 name hname
    cases text with
    | nil => cases hname
    | cons c rest =>
      have htext : (0 : UInt8) ∉ (if c = Path.separator then rest else c :: rest) := by
        split
        · exact fun hc => h0 (List.mem_cons_of_mem c hc)
        · exact h0
      simp only [Path.namesFrom] at hname
      generalize (if c = Path.separator then rest else c :: rest) = text at hname htext
      split at hname
      · cases hname
      · rcases List.mem_cons.mp hname with rfl | hname
        · exact fun hc => htext ((List.takeWhile_sublist _).subset hc)
        · exact ih (fun hc => htext ((List.dropWhile_sublist _).subset hc)) name hname

theorem Path.NulFree.parse {text : List UInt8} (h : (0 : UInt8) ∉ text) :
    (Path.parse text).NulFree := by
  unfold Path.parse
  split
  · exact Path.namesFrom_nulFree _ h
  · exact fun n hn => absurd hn List.not_mem_nil

namespace FS

open DentryCache

variable {s s' : FS} {path : Path} {i : Nat}

/-- The rings are intact, and the lengths of names are bytes. -/
structure Ringed (s : FS) : Prop where
  rings : s.dcache.Intact
  narrow : ∀ b, ∀ e ∈ s.dents b, e.nameLen < 256

theorem Ringed.congr (h : s.Ringed) (hc : s'.dcache = s.dcache) (hd : s'.dents = s.dents) :
    s'.Ringed :=
  ⟨hc ▸ h.rings, hd ▸ h.narrow⟩

theorem Ringed.search_short (h : s.Ringed) {d : Nat} {name : Name} (hs : s.search d name = some i) :
    name.length < 256 := by
  obtain ⟨e, he, hn, -⟩ := search_hasName i hs
  obtain ⟨b, -, he⟩ := List.mem_flatMap.mp he
  have := h.narrow b e he
  simp only [Dentry.hasName, Bool.and_eq_true, beq_iff_eq] at hn
  omega

/-- Lookups keep the rings intact and enter what they find. -/
theorem Ringed.lookupFrom :
    ∀ {names link : List Name} {index inode : Nat} {hit : Bool} {s : FS}, s.Ringed →
    s.dcache.Holds link →
    (∀ n ∈ names, n ≠ [] ∧ (0 : UInt8) ∉ n) → (lookupFrom link index inode hit names s).2.Ringed ∧
      ∀ i, (lookupFrom link index inode hit names s).1 = .ok i →
      (lookupFrom link index inode hit names s).2.dcache.Holds (link ++ names) := by
  intro names
  induction names with
  | nil =>
    intro link index inode hit s h hl _
    exact ⟨h, fun i _ => by rw [List.append_nil]; exact hl⟩
  | cons elem rest ih =>
    intro link index inode hit s h hl hnames
    obtain ⟨hne, h0⟩ := hnames elem List.mem_cons_self
    have hrest : ∀ n ∈ rest, n ≠ [] ∧ (0 : UInt8) ∉ n :=
      fun n hn => hnames n (List.mem_cons_of_mem elem hn)
    have henter : ({ s with dcache := s.dcache.enter link elem } : FS).Ringed :=
      ⟨h.rings.enter hl, h.narrow⟩
    have hlen : elem.length ≠ 0 := fun hc => hne (List.length_eq_zero_iff.mp hc)
    have hmap : s.dcache.lookup link elem = s.dcache (link ++ [elem]) := if_neg hlen
    have happ : link ++ elem :: rest = (link ++ [elem]) ++ rest := by simp
    rw [happ]
    unfold FS.lookupFrom
    cases hc : s.dcache.lookup link elem with
    | some i =>
      simp only
      split
      · exact ⟨henter, by simp⟩
      · refine ih henter (Or.inr ?_) hrest
        rw [enter_map, ← hmap, hc]
        exact Option.some_ne_none i
    | none =>
      simp only
      split
      · exact ⟨henter, by simp⟩
      · split
        · exact ⟨henter, by simp⟩
        · split
          · exact ⟨henter, by simp⟩
          · rename_i i hs
            have hnew : (s.dcache.enter link elem) (link ++ [elem]) = none := by
              rw [enter_map, ← hmap, hc]
            refine ih (s := { s with dcache := (s.dcache.enter link elem).insert link elem i })
              ⟨henter.rings.insert hl hnew hne (h.search_short hs) h0, h.narrow⟩ (Or.inr ?_) hrest
            simp [NodeMap.insert]

theorem Ringed.lookup (h : s.Ringed) (hp : path.NulFree) : (s.inodeLookup path).2.Ringed ∧
    ∀ i, (s.inodeLookup path).1 = .ok i → (s.inodeLookup path).2.dcache.Holds path.names := by
  unfold inodeLookup
  by_cases hv : path.valid = true
  · rw [hv]
    exact h.lookupFrom (Or.inl rfl) fun n hn => ⟨fun hc => path.nonempty hv (hc ▸ hn), hp n hn⟩
  · simp only [hv]
    exact ⟨h, by simp⟩

/-- Only short names are found. -/
theorem Ringed.short (h : s.Ringed) (hp : path.NulFree) (hi : (s.inodeLookup path).1 = .ok i) :
    ∀ n ∈ path.names, n.length < 256 := by
  obtain ⟨hlooked, hholds⟩ := h.lookup hp
  obtain ⟨r, t, hst⟩ := hlooked.rings
  exact hst.short _ (hholds i hi)

theorem Ringed.allocBlock (h : s.Ringed) (inode : Nat) : (s.allocBlock inode).2.Ringed := by
  unfold FS.allocBlock allocBlockFor
  simp only
  split
  · exact h.congr rfl rfl
  · split
    · exact h.congr rfl rfl
    · refine ⟨h.rings, fun b e he => ?_⟩
      simp only [Function.update_apply] at he
      split at he
      · cases he
      · exact h.narrow b e he

theorem Ringed.dentryCreate (h : s.Ringed) {last : Option Nat} {parent index mode : Nat}
    {name : Name} {r : RetCode} (hd : s.dentryCreate last parent name index mode = some (r, s')) :
    s'.Ringed := by
  have hblock : (s.blockForDentry last parent name).2.Ringed :=
    Calls.blockForDentry_keeps h (fun _ h => h.allocBlock parent) last name
  unfold FS.dentryCreate Calls.dentryCreate at hd
  generalize s.blockForDentry last parent name = st at hblock hd
  obtain ⟨_ | b, t⟩ := st
  · cases hd
    exact hblock
  · simp only at hd
    split at hd
    · cases hd
    · cases hd
      refine ⟨hblock.rings, fun x e he => ?_⟩
      simp only [Function.update_apply] at he
      split at he
      · rcases List.mem_append.mp he with he | he
        · exact hblock.narrow b e he
        · rw [List.mem_singleton.mp he]
          exact Nat.mod_lt _ (by decide)
      · exact hblock.narrow x e he

theorem Ringed.created (h : s.Ringed) (hp : path.NulFree) {mode : Nat} {r : Except RetCode Nat}
    (hc : s.inodeCreate path mode = some (r, s')) : s'.Ringed := by
  refine Calls.inodeCreate_keeps (P := Ringed) (R := fun _ _ => True) h hc
    (fun _ h => ⟨(h.lookup hp.parent).1, fun _ _ => trivial⟩)
    (fun t _ h _ => ⟨?_, trivial⟩) (fun _ _ _ _ _ _ _ h _ hd => h.dentryCreate hd)
  obtain ⟨i, served, -, halloc⟩ := allocInode_some mode t
  rw [halloc]
  exact h.congr rfl rfl

theorem Ringed.linked (h : s.Ringed) {src dst : Path} (hsrc : src.NulFree) (hdst : dst.NulFree)
    {r : RetCode} (hl : s.inodeLink src dst = some (r, s')) : s'.Ringed :=
  Calls.inodeLink_keeps (P := Ringed) (R := fun _ _ => True) h hl (fun _ h => (h.lookup hsrc).1)
    (fun _ h => ⟨(h.lookup hdst.parent).1, fun _ _ => trivial⟩)
      (fun _ _ _ _ _ _ _ _ h _ hd => h.dentryCreate hd) (fun _ _ _ h => h.congr rfl rfl)

/-- The removal of a name keeps the rings intact. -/
def Droppable (s : FS) (path : Path) : Prop :=
  (s.inodeLookup path.parent).2.dcache.Removable path.parent.names path.back

instance (s : FS) (path : Path) : Decidable (s.Droppable path) :=
  inferInstanceAs (Decidable (DentryCache.Removable ..))

theorem dropLink_dcache {fuel : Nat} {r : RetCode} (h : s.dropLink fuel i = some (r, s')) :
    s'.dcache = s.dcache := by
  unfold dropLink at h
  cases hget : s.groups.getInode i with
  | none =>
    simp only [hget] at h
    split at h
    · cases h
      rfl
    · cases h
  | some k =>
    simp only [hget] at h
    split at h
    · obtain ⟨_, -, heq⟩ := Option.map_eq_some_iff.mp h
      cases heq
      rfl
    · cases h
      rfl

theorem killVisitor_narrow (name : Name) (bs : List Nat) {dents : Nat → List Dentry}
    (h : ∀ b, ∀ e ∈ dents b, e.nameLen < 256) :
    ∀ b, ∀ e ∈ (visitFrom (killVisitor name) 0 false bs (dents, none)).1 b, e.nameLen < 256 := by
  refine visitFrom_inv (P := fun st : (Nat → List Dentry) × Option Nat => ∀ b, ∀ e ∈ st.1 b,
    e.nameLen < 256) bs 0 false _
    (fun x _ st hst => ?_) h
  unfold killVisitor
  split
  · exact hst
  · intro b e he
    simp only [Function.update_apply] at he
    split at he
    · by_cases hl : e.live = true
      · exact hst x e (Dentry.mem_of_weaker (Dentry.killFirst_weaker name (st.1 x)) he hl)
      · simp only [Dentry.live, bne_iff_ne, ne_eq, not_not] at hl
        omega
    · exact hst b e he

theorem Ringed.unlinked (h : s.Ringed) (hp : path.NulFree) (hsafe : s.Droppable path) {fuel : Nat}
    {r : RetCode} (hu : s.inodeUnlink fuel path = some (r, s')) : s'.Ringed := by
  obtain ⟨hlooked, hholds⟩ := h.lookup hp.parent
  unfold Droppable at hsafe
  unfold inodeUnlink at hu
  split at hu
  · cases hu
    exact h
  split at hu
  · cases hu
    exact h
  cases hl : s.inodeLookup path.parent with
  | mk res t =>
    rw [hl] at hu hlooked hholds hsafe
    cases res with
    | error e =>
      cases hu
      exact hlooked
    | ok parent =>
      simp only at hu
      split at hu
      · cases hu
        exact hlooked
      have hnarrow := killVisitor_narrow path.back (t.inodes (deref parent)).iBlock hlooked.narrow
      unfold killName visitInodeBlocks at hu
      generalize visitFrom (killVisitor path.back) 0 false (t.inodes (deref parent)).iBlock
        (t.dents, none) = st at hu hnarrow
      obtain ⟨dents, _ | i⟩ := st
      · cases hu
        exact ⟨hlooked.rings, hnarrow⟩
      · have hrings := hlooked.rings.drop (hholds parent rfl) hsafe
        refine Ringed.congr ⟨hrings, hnarrow⟩ (dropLink_dcache hu) (dropLink_frame hu).1

theorem Ringed.format : FS.format.Ringed := ⟨Intact.init, fun _ _ he => absurd he List.not_mem_nil⟩

/-- The caches of the code answer as the model does: the rings of `dentry_cache_` as the
map of paths, the walks over `block_cache_` as those over lists of blocks. -/
structure Backed (s : FS) : Prop where
  rings : s.dcache.Serves
  blocks : s.Served

theorem Ringed.backed (h : s.Ringed) (hb : s.Cacheable) (hs : s.Clean s.groups) : s.Backed :=
  ⟨h.rings.serves, hb.served hs⟩

end FS

end NaiveFS
