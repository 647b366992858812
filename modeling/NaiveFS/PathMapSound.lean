import NaiveFS.PathMap
import NaiveFS.RenameSound
import NaiveFS.UnlinkSound

/-!
# Calls on names act on the map of paths

In a namespace in order (`Charted`) every call of `FileSystem` on names returns
what the map of paths says, down to the error code, and changes the map by at most
one path.
-/

namespace NaiveFS

namespace FS

open Groups

variable {s s' : FS} {path src dst : Path} {i j k p : Nat} {name : Name} {q : List Name}
  {fuel : Nat} {r : RetCode}

/-! ## Resolving -/

theorem toOption_eq_some {e : Except RetCode Nat} : e.toOption = some k ↔ e = .ok k := by
  cases e <;> simp [Except.toOption]

theorem any_isEmpty : q.any List.isEmpty = true ↔ [] ∈ q := by simp

theorem pathMap_nil (hq : [] ∈ q) : s.pathMap.node q = none := if_pos (any_isEmpty.mpr hq)

theorem pathMap_walk (hq : [] ∉ q) : s.pathMap.node q = (s.walk rootInode q).toOption :=
  if_neg fun h => hq (any_isEmpty.mp h)

theorem pathMap_node (hq : [] ∉ q) : s.pathMap.node q = some k ↔ s.walk rootInode q = .ok k := by
  rw [pathMap_walk hq, toOption_eq_some]

theorem pathMap_cached (c : DentryCache) : ({ s with dcache := c } : FS).pathMap = s.pathMap := by
  unfold pathMap
  simp only [walk_cached]

theorem pathMap_ext {m : PathMap} (hnil : ∀ q, [] ∈ q → m.node q = none)
    (hnode : ∀ q k, [] ∉ q → (s.walk rootInode q = .ok k ↔ m.node q = some k))
    (hdir : ∀ j, isDir (s.inodes j).iMode = m.dir j) : s.pathMap = m := by
  obtain ⟨node, dir⟩ := m
  have hd : s.pathMap.dir = dir := funext hdir
  have hn : s.pathMap.node = node := by
    funext q
    by_cases hq : [] ∈ q
    · rw [show node q = none from hnil q hq, pathMap_nil hq]
    · apply Option.ext
      intro k
      rw [pathMap_node hq, hnode q k hq]
  rw [← hd, ← hn]

theorem Orderly.resolve (h : s.Orderly) :
    ∀ (rest link : List Name) (index : Nat), [] ∉ link → [] ∉ rest →
    s.walk rootInode link = .ok index → s.walk index rest =
      s.pathMap.resolveFrom link index rest := by
  intro rest
  induction rest with
  | nil => intro link index _ _ _; rfl
  | cons elem rest ih =>
    intro link index hlink hne hw
    have hname : elem ≠ [] := fun hc => hne (hc ▸ List.mem_cons_self)
    have hrest : [] ∉ rest := fun hc => hne (List.mem_cons_of_mem _ hc)
    have hlink' : [] ∉ link ++ [elem] := by simp [hlink, Ne.symm hname]
    have hia := h.walk_allocated h.tidy.root hlink hw
    have hderef := deref_allocated h.books hia
    have hstep : s.walk rootInode (link ++ [elem]) = s.walk index [elem] :=
      h.walk_append h.tidy.root hlink hw [elem]
    unfold walk PathMap.resolveFrom
    rw [hderef]
    split
    · rename_i hcond
      rw [if_pos (by exact hcond)]
    · rename_i hcond
      rw [if_neg (by exact hcond)]
      cases hs : s.search index elem with
      | none =>
        have hnode : s.pathMap.node (link ++ [elem]) = none := by
          simp [pathMap_walk hlink', hstep, walk, hderef, hs, Except.toOption]
        simp [hnode]
      | some j =>
        have hj : s.walk rootInode (link ++ [elem]) = .ok j := by
          rw [hstep]
          simp [walk, hderef, hs]
        simp only [(pathMap_node hlink').mpr hj]
        exact ih (link ++ [elem]) j hlink' hrest hj

theorem refusal_error (hr : s.pathMap.refusal path = .error r) : s.pathMap.parent path = .error r ∨
    r = .dupErr ∧ s.pathMap.parent path = .ok () ∧ ∃ k, s.pathMap.node path.names = some k := by
  unfold PathMap.refusal at hr
  cases hp : s.pathMap.parent path with
  | error r' =>
    simp [hp] at hr
    exact Or.inl (by rw [hr])
  | ok _ =>
    cases hn : s.pathMap.node path.names with
    | none => simp [hp, hn] at hr
    | some k =>
      simp [hp, hn] at hr
      exact Or.inr ⟨hr.symm, rfl, k, rfl⟩

theorem refusal_none (hr : s.pathMap.refusal path = .ok ()) :
    s.pathMap.parent path = .ok () ∧ (s.pathMap.node path.names).isSome = false := by
  unfold PathMap.refusal at hr
  cases hp : s.pathMap.parent path with
  | error r => simp [hp] at hr
  | ok _ =>
    refine ⟨rfl, ?_⟩
    by_contra hn
    rw [Bool.not_eq_false] at hn
    simp [hp, hn] at hr

namespace Charted

variable (h : s.Charted)
include h

theorem lookup_find (path : Path) :
    ∃ c, s.Looked c ∧ s.inodeLookup path = (s.pathMap.find path, { s with dcache := c }) := by
  obtain ⟨c, hc⟩ := inodeLookup_frame path s
  have hfind : (s.inodeLookup path).1 = s.pathMap.find path := by
    unfold PathMap.find
    by_cases hv : path.valid = true
    · rw [if_pos hv, (h.lookup path hv).1]
      exact h.order.resolve path.names [] rootInode List.not_mem_nil (path.nonempty hv) rfl
    · rw [if_neg hv]
      simp [inodeLookup, hv]
  have heq : s.inodeLookup path = (s.pathMap.find path, { s with dcache := c }) := Prod.ext hfind hc
  exact ⟨c, Looked.start.of_eq heq, heq⟩

theorem find_ok (hf : s.pathMap.find path = .ok i) :
    path.valid = true ∧ s.walk rootInode path.names = .ok i ∧ s.groups.allocated .inode i =
      true := by
  obtain ⟨c, -, hl⟩ := h.lookup_find path
  exact h.found (by rw [hl, hf])

theorem parent_ok (hp : s.pathMap.parent path = .ok ()) :
    ∃ p, s.pathMap.find path.parent = .ok p ∧ s.pathMap.dir p = true ∧
    path.valid = true ∧ s.walk rootInode path.parent.names = .ok p ∧ s.isDirectory p = true := by
  unfold PathMap.parent at hp
  cases hf : s.pathMap.find path.parent with
  | error r => simp [hf] at hp
  | ok p =>
    obtain ⟨hv, hw, ha⟩ := h.find_ok hf
    by_cases hd : s.pathMap.dir p = true
    · exact ⟨p, rfl, hd, hv, hw, isDirectory_iff.mpr ⟨ha, hd⟩⟩
    · simp [hf, hd] at hp

theorem child_listed (hnil : [] ∉ q ++ [name]) (hw : s.walk rootInode q = .ok p)
    (hpd : s.isDirectory p = true) :
    s.pathMap.node (q ++ [name]) = some k ↔ (name, k) ∈ s.listing p := by
  rw [pathMap_node hnil, h.order.walk_concat_ok hnil]
  constructor
  · intro hex
    obtain ⟨d, hd, -, hin⟩ := hex
    cases hw.symm.trans hd
    exact hin
  · intro hin
    exact ⟨p, hw, hpd, hin⟩

/-- A path is taken if an entry of its directory has its last name. -/
theorem node_listed (hv : path.valid = true) (hne : path.names ≠ [])
    (hw : s.walk rootInode path.parent.names = .ok p) (hpd : s.isDirectory p = true) :
    s.pathMap.node path.names = some k ↔ ∃ e ∈ s.entries p, e.hasName path.back = true ∧
      e.inode = k := by
  have hnil := path.nonempty hv
  rw [← h.order.tidy.mem_listing_iff (isDirectory_iff.mp hpd).1 (Path.back_ne_nil hv hne)]
  rw [Path.names_eq hne] at hnil ⊢
  exact h.child_listed hnil hw hpd

theorem node_none (hv : path.valid = true) (hne : path.names ≠ [])
    (hw : s.walk rootInode path.parent.names = .ok p) (hpd : s.isDirectory p = true)
    (hnone : (s.pathMap.node path.names).isSome = false) :
    ∀ e ∈ s.entries p, e.hasName path.back = false := by
  intro e he
  by_contra hc
  rw [Bool.not_eq_false] at hc
  rw [(h.node_listed hv hne hw hpd).mpr ⟨e, he, hc, rfl⟩] at hnone
  cases hnone

/-! ## Creating -/

theorem parent_error (hp : s.pathMap.parent path = .error r) :
    s.pathMap.find path.parent = .error r ∨
    r = .ndirErr ∧ ∃ p, s.pathMap.find path.parent = .ok p ∧ deref p = p ∧
      isDir (s.inodes p).iMode = false := by
  unfold PathMap.parent at hp
  cases hf : s.pathMap.find path.parent with
  | error r' =>
    simp [hf] at hp
    exact Or.inl (by rw [hp])
  | ok p =>
    by_cases hd : s.pathMap.dir p = true
    · simp [hf, hd] at hp
    · simp [hf, hd] at hp
      exact Or.inr ⟨hp.symm, p, rfl, deref_allocated h.order.books (h.find_ok hf).2.2,
        Bool.eq_false_iff.mpr hd⟩

theorem create_refused (hm : s.pathMap.create path = .error r) (mode : Nat) :
    ∃ s', s.inodeCreate path mode = some (.error r, s') := by
  unfold PathMap.create at hm
  by_cases hv : path.valid = true
  case neg =>
    simp [hv] at hm
    subst hm
    exact ⟨s, by simp [inodeCreate, Calls.inodeCreate, hv]⟩
  by_cases hne : path.names = []
  case pos =>
    simp [hv, hne] at hm
    subst hm
    exact ⟨s, by simp [inodeCreate, Calls.inodeCreate, hv, hne]⟩
  simp only [hv, Bool.not_true, Bool.false_eq_true, if_false, hne] at hm
  obtain ⟨c, -, hl⟩ := h.lookup_find path.parent
  rcases refusal_error hm with hp | ⟨rfl, hp, k, hn⟩
  · rcases h.parent_error hp with hf | ⟨rfl, p, hf, hderef, hd⟩
    · exact ⟨{ s with dcache := c }, by simp [inodeCreate, Calls.inodeCreate, hv, hne, hl, hf]⟩
    · refine ⟨{ s with dcache := c }, ?_⟩
      simp [inodeCreate, Calls.inodeCreate, hv, hne, hl, hf, hderef, hd]
  · obtain ⟨p, -, -, -, hw, hpd⟩ := h.parent_ok hp
    have hin :=
      (h.order.tidy.mem_listing_iff (isDirectory_iff.mp hpd).1 (Path.back_ne_nil hv hne)).mpr
      ((h.node_listed hv hne hw hpd).mp hn)
    exact h.create_taken hv hne hw hin mode

theorem create_enters (hm : s.pathMap.create path = .ok ()) (hlen : path.back.length ≤ 255)
    (mode : Nat) :
    ∃ i s', s.inodeCreate path mode = some (.ok i, s') := by
  unfold PathMap.create at hm
  by_cases hv : path.valid = true
  case neg => simp [hv] at hm
  by_cases hne : path.names = []
  case pos => simp [hv, hne] at hm
  simp only [hv, Bool.not_true, Bool.false_eq_true, if_false, hne] at hm
  obtain ⟨hp, hnone⟩ := refusal_none hm
  obtain ⟨p, hf, hd, -, hw, hpd⟩ := h.parent_ok hp
  obtain ⟨c, -, hl⟩ := h.lookup_find path.parent
  have hderef := deref_allocated h.order.books (isDirectory_iff.mp hpd).1
  have hscan := @inodeLookupIn_new { s with dcache := c } path.back p
    (h.node_none hv hne hw hpd hnone)
  obtain ⟨i, served, -, halloc⟩ := allocInode_some mode { s with dcache := c }
  obtain ⟨s', hs'⟩ := dentryCreate_fits (entry_fits hlen) (s.inodes p).iBlock.getLast? p i mode
    (({ s with dcache := c } : FS).allocInode mode).2
  rw [halloc] at hs'
  refine ⟨i, s', ?_⟩
  unfold inodeCreate Calls.inodeCreate
  simp only [hv, Bool.not_true, Bool.false_eq_true, if_false, List.isEmpty_iff, hne, hl, hf, hderef,
    show isDir (s.inodes p).iMode = true from hd, hscan, halloc, hs']

omit h in
theorem entered_map {t : FS} {f : Nat → Bool} (hv : path.valid = true)
    (hnone : s.pathMap.node path.names = none)
    (hwalk : ∀ q k, [] ∉ q → (t.walk rootInode q = .ok k ↔ s.walk rootInode q = .ok k ∨
      q = path.names ∧ k = i))
    (hdir : ∀ j, isDir (t.inodes j).iMode = f j) :
    t.pathMap = { s.pathMap.enter path i with dir := f } := by
  have hnil := path.nonempty hv
  have hnew : ∀ k, s.walk rootInode path.names ≠ .ok k := by
    intro k hk
    rw [(pathMap_node hnil).mpr hk] at hnone
    cases hnone
  refine pathMap_ext (fun q hq => ?_) (fun q k hq => ?_) hdir
  · have hqp : q ≠ path.names := fun hc => hnil (hc ▸ hq)
    simp [PathMap.enter, hqp, pathMap_nil hq]
  · rw [hwalk q k hq]
    by_cases hqp : q = path.names
    · subst hqp
      simp [PathMap.enter, hnew k, eq_comm]
    · simp [PathMap.enter, hqp, pathMap_node hq]

theorem create_map {mode : Nat} (hmode : isReg mode = true ∨ isDir mode = true)
    (hlen : path.back.length ≤ 255) (hserved : s.groups.hasFree .inode = true)
    (hc : s.inodeCreate path mode = some (.ok i, s')) (hle : s'.groups.groupCount ≤ 33) :
    (∀ q, s.pathMap.node q ≠ some i) ∧
      s'.pathMap =
      { s.pathMap.enter path i with dir := Function.update s.pathMap.dir i (isDir mode) } := by
  have h' := h.created hlen hmode hserved hc hle
  have hent := (h.order.tidy.created hlen hc hle).2
  rcases inodeCreate_cases h.order.tidy.clean h.order.tidy.root hc hle with ⟨c, e, -, -, hr⟩ |
    ⟨parent, c, k, g, hlook, hpa, hpd, hv, hne, hnew, hr, hout, -, hadd⟩
  · cases hr
  cases hr
  obtain ⟨-, -, hw⟩ := h.parent_walk hlook
  rw [hlook] at hent
  have hfree : ∀ q, s.pathMap.node q ≠ some i := by
    intro q hq
    by_cases hnil : [] ∈ q
    · simp [pathMap_nil hnil] at hq
    · have ha := h.order.walk_allocated h.order.tidy.root hnil ((pathMap_node hnil).mp hq)
      rw [hout.free] at ha
      cases ha
  have hleaf : s'.isDirectory i = true → s'.listing i = [] := by
    intro hd
    rcases hent.fresh i hd with hold | hempty
    · have ha := (isDirectory_iff.mp hold).1
      rw [hout.free] at ha
      cases ha
    · exact hempty
  have hnone : s.pathMap.node path.names = none := by
    rw [Option.eq_none_iff_forall_ne_some]
    intro k hk
    obtain ⟨e, he, hname, -⟩ := (h.node_listed hv hne hw (isDirectory_iff.mpr ⟨hpa, hpd⟩)).mp hk
    rw [hnew e he] at hname
    cases hname
  refine ⟨hfree, entered_map hv hnone (fun q k hq => ?_) fun j => ?_⟩
  · rw [hent.walk_iff h.order h'.order (path.parent.nonempty hv) hw hleaf k hq, ← Path.names_eq hne]
  · rw [hadd.mode j]
    by_cases hj : j = i
    · subst hj
      simp [newInode_iMode, isDir, fileType_u16]
    · simp [hj, pathMap]

/-! ## Linking -/

section
variable {u : FS} {src : Path} {index : Nat} (hv : (!src.valid || !dst.valid) = false)
  (hne : (src.names.isEmpty || dst.names.isEmpty) = false) (hsrc : u.inodeLookup src =
    (.ok index, s))
  (hfile : isDir (s.inodes (deref index)).iMode = false)
include hv hne hsrc hfile

theorem link_refused (hm : s.pathMap.refusal dst = .error r) :
    ∃ c, u.inodeLink src dst = some (r, { s with dcache := c }) := by
  obtain ⟨c, -, hl⟩ := h.lookup_find dst.parent
  refine ⟨c, ?_⟩
  simp only [inodeLink, Calls.inodeLink, hv, hne, hsrc, hfile, hl, Bool.false_eq_true, if_false]
  rcases refusal_error hm with hp | ⟨rfl, hp, k, hn⟩
  · rcases h.parent_error hp with hf | ⟨rfl, p, hf, hderef, hd⟩
    · simp [hf]
    · simp [hf, hderef, hd]
  · obtain ⟨p, hf, hd, -, hw, hpd⟩ := h.parent_ok hp
    have hderef := deref_allocated h.order.books (isDirectory_iff.mp hpd).1
    obtain ⟨e, he, hname, -⟩ := (h.node_listed (by simp_all) (by simp_all) hw hpd).mp hn
    cases hscan : ({ s with dcache := c } : FS).inodeLookupIn p dst.back with
    | mk found last =>
      cases found with
      | some k => simp [hf, hderef, show isDir (s.inodes p).iMode = true from hd, hscan]
      | none =>
        have hnone := inodeLookupIn_none (s := { s with dcache := c }) (by rw [hscan]) e he
        rw [hname] at hnone
        cases hnone

theorem link_enters (hm : s.pathMap.refusal dst = .ok ()) (hlen : dst.back.length ≤ 255) :
    ∃ s', u.inodeLink src dst = some (.success, s') := by
  obtain ⟨hp, hnone⟩ := refusal_none hm
  obtain ⟨p, hf, hd, -, hw, hpd⟩ := h.parent_ok hp
  obtain ⟨c, -, hl⟩ := h.lookup_find dst.parent
  have hderef := deref_allocated h.order.books (isDirectory_iff.mp hpd).1
  have hscan := @inodeLookupIn_new { s with dcache := c } dst.back p
    (h.node_none (by simp_all) (by simp_all) hw hpd hnone)
  obtain ⟨s', hs'⟩ := dentryCreate_fits (entry_fits hlen) (s.inodes p).iBlock.getLast? p index
    (s.inodes (deref index)).iMode { s with dcache := c }
  simp only [inodeLink, Calls.inodeLink, hv, hne, hsrc, hfile, hl, hf, hderef,
    show isDir (s.inodes p).iMode = true from hd, hscan, hs', Bool.not_true, Bool.false_eq_true,
    if_false]
  exact ⟨_, rfl⟩

end

theorem link_code (src : Path) (hlen : dst.back.length ≤ 255) :
    ∃ s', s.inodeLink src dst = some (PathMap.codeOf (s.pathMap.link src dst), s') ∧
      ∀ r, s.pathMap.link src dst = .error r → s'.pathMap = s.pathMap := by
  unfold PathMap.link
  by_cases hv : (!src.valid || !dst.valid) = true
  case pos => exact ⟨s, by simp [inodeLink, Calls.inodeLink, hv, PathMap.codeOf], fun _ _ => rfl⟩
  by_cases hne : (src.names = [] || dst.names = []) = true
  case pos => exact ⟨s, by simp_all [inodeLink, Calls.inodeLink, PathMap.codeOf], fun _ _ => rfl⟩
  rw [if_neg hv, if_neg hne]
  have hv := Bool.eq_false_iff.mpr hv
  have hne' : (src.names.isEmpty || dst.names.isEmpty) = false := by simpa using hne
  obtain ⟨c, hlooked, hl⟩ := h.lookup_find src
  cases hf : s.pathMap.find src with
  | error r =>
    refine ⟨{ s with dcache := c }, ?_, fun _ _ => pathMap_cached c⟩
    simp [inodeLink, Calls.inodeLink, hv, hne', hl, hf, PathMap.codeOf]
  | ok index =>
    have hderef := deref_allocated h.order.books (h.find_ok hf).2.2
    cases hd : isDir (s.inodes index).iMode with
    | true =>
      simp only [show s.pathMap.dir index = true from hd, if_true]
      refine ⟨{ s with dcache := c }, ?_, fun _ _ => pathMap_cached c⟩
      simp [inodeLink, Calls.inodeLink, hv, hne', hl, hf, hderef, hd, PathMap.codeOf]
    | false =>
      simp only [show s.pathMap.dir index = false from hd, Bool.false_eq_true, if_false]
      have hc := h.looked hlooked
      rw [hf] at hl
      have hfile : isDir (({ s with dcache := c } : FS).inodes (deref index)).iMode = false := by
        rw [hderef]; exact hd
      cases hr : s.pathMap.refusal dst with
      | error r =>
        obtain ⟨c', hs'⟩ := hc.link_refused hv hne' hl hfile (by rw [pathMap_cached, hr])
        exact ⟨_, hs', fun _ _ => pathMap_cached (s := s) c'⟩
      | ok _ =>
        obtain ⟨s', hs'⟩ := hc.link_enters hv hne' hl hfile (by rw [pathMap_cached, hr]) hlen
        exact ⟨s', hs', fun r hr => by simp [Except.map] at hr⟩

omit h in
theorem link_ok (hm : s.pathMap.link src dst = .ok i) :
    dst.valid = true ∧ s.pathMap.find src = .ok i ∧ s.pathMap.node dst.names = none := by
  unfold PathMap.link at hm
  by_cases hv : (!src.valid || !dst.valid) = true
  case pos => simp [hv] at hm
  by_cases hne : (src.names = [] || dst.names = []) = true
  case pos => simp_all
  rw [if_neg hv, if_neg hne] at hm
  cases hf : s.pathMap.find src with
  | error r => simp [hf] at hm
  | ok j =>
    cases hd : s.pathMap.dir j with
    | true => simp [hf, hd] at hm
    | false =>
      cases hr : s.pathMap.refusal dst with
      | error r => simp [hf, hd, hr, Except.map] at hm
      | ok _ =>
        simp [hf, hd, hr, Except.map] at hm
        subst hm
        exact ⟨by simp_all, rfl, by simpa using (refusal_none hr).2⟩

theorem link_map (hm : s.pathMap.link src dst = .ok i) (hlen : dst.back.length ≤ 255)
    (hroom : ∀ i, (s.inodeLookup src).1 = .ok i → s.refs (deref i) < 65535)
    (hl : s.inodeLink src dst = some (.success, s')) (hle : s'.groups.groupCount ≤ 33) :
    s'.pathMap = s.pathMap.enter dst i := by
  obtain ⟨hv, hf, hnone⟩ := link_ok hm
  obtain ⟨j, hj, -, gained⟩ := h.link_gained hlen hroom hl hle
  obtain ⟨c, -, hlook⟩ := h.lookup_find src
  rw [hlook, hf] at hj
  cases hj
  exact entered_map hv hnone gained.walk fun j => congrArg isDir (gained.mode j)

/-! ## Unlinking -/

theorem clears (hv : path.valid = true) (hne : path.names ≠ [])
    (hp : s.pathMap.parent path = .ok ()) (hn : s.pathMap.node path.names = some k) :
    ∃ i, s.Clears path i ∧ s.groups.allocated .inode i = true ∧ i ≠ rootInode := by
  obtain ⟨p, hf, hd, -, hw, hpd⟩ := h.parent_ok hp
  have hpa := (isDirectory_iff.mp hpd).1
  have hderef := deref_allocated h.order.books hpa
  obtain ⟨c, -, hl⟩ := h.lookup_find path.parent
  obtain ⟨e, he, hname, -⟩ := (h.node_listed hv hne hw hpd).mp hn
  have hback := Path.back_ne_nil hv hne
  cases hst : (s.visitInodeBlocks p (killVisitor path.back) (s.dents, none)).2 with
  | none =>
    obtain ⟨b, hb, heb⟩ := List.mem_flatMap.mp he
    have hnone := killVisitor_none hst b hb e heb
    rw [hname] at hnone
    cases hnone
  | some i =>
    obtain ⟨b, hb, e', he', hname', rfl, -⟩ := (killName_killed hback s p).found i hst
    have hin : (path.back, e'.inode) ∈ s.listing p :=
      (h.order.tidy.mem_listing_iff hpa hback).mpr ⟨e', List.mem_flatMap.mpr ⟨b, hb, he'⟩,
        hname', rfl⟩
    refine ⟨e'.inode, ⟨hv, hne, p, { s with dcache := c }, ?_, ?_, ?_⟩,
      (h.order.of_listing hpa hin).2⟩
    · rw [hl, hf]
    · rw [hderef]
      exact hd
    · rw [hderef]
      exact hst

/-- One call of `inode_delete` is enough for a file or an empty directory. -/
theorem dropLink_some {t : FS} (hgroups : t.groups = s.groups) (hinodes : t.inodes = s.inodes)
    (hlive : ∀ b, ∀ e ∈ t.dents b, e.live = true → e ∈ s.dents b)
    (hia : s.groups.allocated .inode i = true) (hir : i ≠ rootInode)
    (hempty : s.isDirectory i = true → s.listing i = []) :
    ∃ s', t.dropLink (fuel + 1) i = some (.success, s') := by
  have hget : t.groups.getInode i = some i := by
    rw [hgroups, getInode_of_allocated h.order.books hia]
  unfold dropLink
  simp only [hget]
  split
  · rename_i hlast
    have hmode : ∀ n, ((t.setLinks i n).inodes i).iMode = (s.inodes i).iMode := by
      intro n
      rw [setLinks_iMode, hinodes]
    rw [hlast]
    have hbooks : (t.setLinks i 0).groups = s.groups := hgroups
    have hdelete := @inodeDelete_alone_some (t.setLinks i 0) fuel i (t.setLinks i 0).groups
      (by rw [hbooks]; exact h.order.books)
      (by rw [hbooks]; exact hia) hir ?_ ?_ ?_
    · obtain ⟨g, hdel, -⟩ := hdelete
      rw [hdel]
      exact ⟨_, rfl⟩
    · rw [hmode]
      exact h.order.linked.graph.kind i hia
    · rw [hmode, setLinks_entries]
      intro hd e he
      by_contra hl
      rw [Bool.not_eq_false] at hl
      obtain ⟨b, hb, heb⟩ := List.mem_flatMap.mp he
      rw [hinodes] at hb
      have hold : e ∈ s.entries i := List.mem_flatMap.mpr ⟨b, hb, hlive b e heb hl⟩
      rw [dead_of_listing (hempty (isDirectory_iff.mpr ⟨hia, hd⟩)) e hold] at hl
      cases hl
    · rw [hmode, setLinks_iBlock, hinodes]
      exact h.order.plain i hia
  · exact ⟨_, rfl⟩

theorem unlink_code (fuel : Nat)
    (hempty : ∀ i, s.target path = some i → s.isDirectory i = true → s.listing i = []) :
    ∃ s', s.inodeUnlink (fuel + 1) path = some (PathMap.codeOf (s.pathMap.unlink path), s') := by
  unfold PathMap.unlink
  by_cases hv : path.valid = true
  case neg => exact ⟨s, by simp [inodeUnlink, hv, PathMap.codeOf]⟩
  by_cases hne : path.names = []
  case pos => exact ⟨s, by simp [inodeUnlink, hv, hne, PathMap.codeOf]⟩
  simp only [hv, hne, Bool.not_true, decide_false, Bool.or_self, Bool.false_eq_true, if_false]
  obtain ⟨c, -, hl⟩ := h.lookup_find path.parent
  cases hp : s.pathMap.parent path with
  | error r =>
    rcases h.parent_error hp with hf | ⟨rfl, p, hf, hderef, hd⟩
    · exact ⟨{ s with dcache := c }, by simp [inodeUnlink, hv, hne, hl, hf, PathMap.codeOf]⟩
    · refine ⟨{ s with dcache := c }, ?_⟩
      simp [inodeUnlink, hv, hne, hl, hf, hderef, hd, PathMap.codeOf]
  | ok _ =>
    cases hn : s.pathMap.node path.names with
    | some k =>
      obtain ⟨i, hclears, hia, hir⟩ := h.clears hv hne hp hn
      obtain ⟨t, heq, hgroups, hinodes, -, hlive, -⟩ := hclears.inodeUnlink
      obtain ⟨-, -, p, t', hlook, hd, hi⟩ := hclears
      have htarget : s.target path = some i := (target_eq hlook hd hne).trans hi
      rw [heq]
      exact h.dropLink_some hgroups hinodes hlive hia hir (hempty i htarget)
    | none =>
      obtain ⟨p, hf, hd, -, hw, hpd⟩ := h.parent_ok hp
      have hderef := deref_allocated h.order.books (isDirectory_iff.mp hpd).1
      have hnone := h.node_none hv hne hw hpd (by rw [hn]; rfl)
      have hback := Path.back_ne_nil hv hne
      cases hst : (s.visitInodeBlocks p (killVisitor path.back) (s.dents, none)).2 with
      | some i =>
        obtain ⟨b, hb, e, he, hname, -, -⟩ := (killName_killed hback s p).found i hst
        rw [hnone e (List.mem_flatMap.mpr ⟨b, hb, he⟩)] at hname
        cases hname
      | none =>
        have hkill : ({ s with dcache := c } : FS).killName p path.back =
            ({ s with
              dents := (s.visitInodeBlocks p (killVisitor path.back) (s.dents, none)).1
              dcache := c }, none) :=
          Prod.ext rfl hst
        exact ⟨{ s with dents := _, dcache := c }, by
          simp [inodeUnlink, hv, hne, hl, hf, hderef, show isDir (s.inodes p).iMode = true from hd,
            hkill, PathMap.codeOf]
          rfl⟩

omit h in
theorem unlink_ok (hm : s.pathMap.unlink path = .ok ()) : path.valid = true ∧ path.names ≠ [] := by
  unfold PathMap.unlink at hm
  by_cases hv : path.valid = true
  case neg => simp [hv] at hm
  by_cases hne : path.names = []
  case pos => simp [hne] at hm
  exact ⟨hv, hne⟩

/-- A refused call leaves the names alone: a name that was cleared would have been
there. -/
theorem unlink_refused (hm : s.pathMap.unlink path = .error r)
    (hu : s.inodeUnlink fuel path = some (r, s')) :
    s'.pathMap = s.pathMap := by
  rcases inodeUnlink_cases h.order.tidy.root hu with ⟨c, -, rfl, -, -⟩ |
    ⟨parent, c, st, i, hlook, hpa, hpd, hv, hne, -, hk, hst, -⟩
  · exact pathMap_cached c
  obtain ⟨b, hb, e, he, hname, -, -⟩ := hk.found i hst
  obtain ⟨-, -, hw⟩ := h.parent_walk hlook
  have hdir : s.isDirectory (deref parent) = true := isDirectory_iff.mpr ⟨hpa, hpd⟩
  have hn := (h.node_listed hv hne hw hdir).mpr ⟨e, List.mem_flatMap.mpr ⟨b, hb, he⟩, hname, rfl⟩
  obtain ⟨c', -, hl⟩ := h.lookup_find path.parent
  have hf : s.pathMap.find path.parent = .ok parent := by
    rw [hlook] at hl
    exact (congrArg Prod.fst hl).symm
  have hd : s.pathMap.dir parent = true := by
    rw [deref_allocated h.order.books (h.find_ok hf).2.2] at hpd
    exact hpd
  simp [PathMap.unlink, PathMap.parent, hv, hne, hf, hd, hn] at hm

theorem unlink_map (hm : s.pathMap.unlink path = .ok ())
    (hempty : ∀ i, s.target path = some i → s.isDirectory i = true → s.listing i = [])
    (hu : s.inodeUnlink fuel path = some (.success, s')) :
    s'.pathMap = { s.pathMap with node := Function.update s.pathMap.node path.names none } := by
  obtain ⟨hv, hne⟩ := unlink_ok hm
  have h' := h.unlinked hempty hu
  rcases h.order.unlink_cases hempty hu with ⟨c, -, -, hr⟩ | ⟨parent, c, i, hlook, -, -, hun⟩
  · exact absurd rfl hr
  obtain ⟨-, hP, hparent⟩ := h.parent_walk hlook
  have hnil := path.nonempty hv
  refine pathMap_ext (fun q hq => ?_) (fun q k hq => ?_) fun j => ?_
  · have hqp : q ≠ path.names := fun hc => hnil (hc ▸ hq)
    simp [hqp, pathMap_nil hq]
  · have hwalk := hun.walk_iff h.order h'.order hP hparent (by rw [← Path.names_eq hne]; exact hnil)
      k hq
    rw [hwalk, ← Path.names_eq hne]
    by_cases hqp : q = path.names
    · simp [hqp]
    · simp [hqp, pathMap_node hq]
  · rw [hun.inodes, setLinks_iMode]
    rfl

/-! ## Reading a directory -/

theorem readdir_map (fuel : Nat) (path : Path) : ∃ reply c, s.Looked c ∧
    s.serve fuel (.readdir path) = some (reply, { s with dcache := c }) ∧
      s.pathMap.Allows (.readdir path) reply s.pathMap := by
  obtain ⟨c, hlooked, hl⟩ := h.lookup_find path
  cases hf : s.pathMap.find path with
  | error r =>
    refine ⟨.names (-enoent) [], c, hlooked, ?_, rfl, ?_⟩
    · simp [serve, fuseReaddir, hl, hf]
    · simp [hf]
  | ok d =>
    obtain ⟨hv, hw, ha⟩ := h.find_ok hf
    have hderef := deref_allocated h.order.books ha
    cases hd : isDir (s.inodes d).iMode with
    | false =>
      refine ⟨.names (-enotdir) [], c, hlooked, ?_, rfl, ?_⟩
      · simp [serve, fuseReaddir, hl, hf, hderef, hd]
      · simp [hf, show s.pathMap.dir d = false from hd]
    | true =>
      have hdir : s.isDirectory d = true := isDirectory_iff.mpr ⟨ha, hd⟩
      refine ⟨.names 0 ([[46], [46, 46]] ++ s.listed d), c, hlooked, ?_, rfl, ?_⟩
      · have hread := readdir_eq { s with dcache := c } d [[46], [46, 46]]
        simp only [serve, fuseReaddir, hl, hf, hderef, hd, checkPermission, Bool.not_true,
          Bool.false_eq_true, if_false, if_true, hread]
        rfl
      · simp only [hf, show s.pathMap.dir d = true from hd, if_true]
        refine ⟨s.listed d, ⟨h.order.tidy.distinct d ha, fun n => ?_⟩, rfl⟩
        by_cases hn : n = []
        · subst hn
          simp [h.order.tidy.nil_not_listed ha]
        have hnil : [] ∉ path.names ++ [n] := by simp [path.nonempty hv, Ne.symm hn]
        simp [hn, Option.isSome_iff_exists, h.child_listed hnil hw hdir, listed]

end Charted

/-! ## Runs -/

/-- A request is made within the bounds of its call. -/
def Proper (fuel : Nat) (s : FS) (req : NameRequest) : Prop := UsualStep fuel s (requestCall req)

theorem Charted.served (h : s.Charted) {req : NameRequest} (hreq : Proper (fuel + 1) s req) :
    ∃ reply s' m', s.serve (fuel + 1) req = some (reply, s') ∧ s.pathMap.Allows req reply m' ∧
      s'.Charted ∧ s'.pathMap = m' := by
  obtain ⟨husual, -, hfew⟩ := hreq
  cases req with
  | lookup path =>
    obtain ⟨c, hlooked, hl⟩ := h.lookup_find path
    refine ⟨_, _, s.pathMap, rfl, ⟨by rw [hl], rfl⟩, ?_, ?_⟩
    · rw [hl]
      exact h.looked hlooked
    · rw [hl]
      exact pathMap_cached c
  | readdir path =>
    obtain ⟨reply, c, hlooked, hs, hallows⟩ := h.readdir_map (fuel + 1) path
    exact ⟨reply, _, _, hs, hallows, h.looked hlooked, pathMap_cached c⟩
  | create path mode =>
    cases hm : s.pathMap.create path with
    | error r =>
      obtain ⟨s', hc⟩ := h.create_refused hm mode.1
      have hle : s'.groups.groupCount ≤ 33 :=
        (hfew s' (by simp [requestCall, pathStep, namespaceStep, hc])).groups
      refine ⟨.inode (.error r), s', s.pathMap, by simp [serve, hc], by simp [PathMap.Allows, hm],
        h.created husual.1 mode.2 husual.2 hc hle, ?_⟩
      rcases inodeCreate_inv hc with ⟨c, e, -, rfl, -⟩ | ⟨parent, c, i, t, -, -, -, -, -, hr, -⟩
      · exact pathMap_cached c
      · cases hr
    | ok _ =>
      obtain ⟨i, s', hc⟩ := h.create_enters hm husual.1 mode.1
      have hle : s'.groups.groupCount ≤ 33 :=
        (hfew s' (by simp [requestCall, pathStep, namespaceStep, hc])).groups
      obtain ⟨hfree, hmap⟩ := h.create_map mode.2 husual.1 husual.2 hc hle
      refine ⟨.inode (.ok i), s', _, by simp [serve, hc], ?_,
        h.created husual.1 mode.2 husual.2 hc hle, hmap⟩
      simp only [PathMap.Allows, hm]
      exact ⟨i, hfree, rfl, rfl⟩
  | link src dst =>
    obtain ⟨s', hl, hkept⟩ := h.link_code src husual.1
    have hle : s'.groups.groupCount ≤ 33 :=
      (hfew s' (by simp [requestCall, pathStep, namespaceStep, hl])).groups
    have h' := h.linked husual.1 husual.2 hl hle
    cases hm : s.pathMap.link src dst with
    | error r =>
      rw [hm] at hl
      exact ⟨.code r, s',
        s.pathMap, by simp [serve, hl, PathMap.codeOf], by simp [PathMap.Allows, hm], h',
        hkept r hm⟩
    | ok i =>
      rw [hm] at hl
      exact ⟨.code .success, s',
        _, by simp [serve, hl, PathMap.codeOf], by simp [PathMap.Allows, hm], h',
        h.link_map hm husual.1 husual.2 hl hle⟩
  | unlink path =>
    obtain ⟨s', hu⟩ := h.unlink_code fuel husual
    have h' := h.unlinked husual hu
    cases hm : s.pathMap.unlink path with
    | error r =>
      rw [hm] at hu
      refine ⟨.code r, s',
        s.pathMap, by simp [serve, hu, PathMap.codeOf], by simp [PathMap.Allows, hm], h', ?_⟩
      exact h.unlink_refused hm hu
    | ok _ =>
      rw [hm] at hu
      exact ⟨.code .success, s',
        _, by simp [serve, hu, PathMap.codeOf], by simp [PathMap.Allows, hm], h',
        h.unlink_map hm husual hu⟩

theorem pathMap_format : FS.format.pathMap = PathMap.root := by
  refine pathMap_ext (fun q hq => ?_) (fun q k hq => ?_) fun j => ?_
  · have hne : q ≠ [] := List.ne_nil_of_mem hq
    simp [PathMap.root, hne]
  · rcases List.eq_nil_or_concat' q with rfl | ⟨l, n, rfl⟩
    · simp [walk, PathMap.root]
    · rw [Charted.format.order.walk_concat_ok hq]
      simp [format_listing, PathMap.root]
  · by_cases hj : j = rootInode
    · subst hj
      decide
    · simp [FS.format, PathMap.root, hj, blankInode, isDir, fileType, u16]

/-- A request leaves the state that its call leaves. -/
theorem serve_step {req : NameRequest} {reply : NameReply}
    (h : s.serve fuel req = some (reply, s')) :
    pathStep fuel s (requestCall req) = some s' := by
  cases req with
  | lookup path =>
    cases h
    rfl
  | create path mode =>
    obtain ⟨r, hr, heq⟩ := Option.map_eq_some_iff.mp h
    cases heq
    simp [requestCall, pathStep, namespaceStep, hr]
  | link src dst =>
    obtain ⟨r, hr, heq⟩ := Option.map_eq_some_iff.mp h
    cases heq
    simp [requestCall, pathStep, namespaceStep, hr]
  | unlink path =>
    obtain ⟨r, hr, heq⟩ := Option.map_eq_some_iff.mp h
    cases heq
    simp [requestCall, pathStep, namespaceStep, hr]
  | readdir path =>
    simp only [serve, fuseReaddir] at h
    simp only [requestCall, pathStep]
    generalize s.inodeLookup path = st at h ⊢
    obtain ⟨_ | i, t⟩ := st
    · cases h
      rfl
    · simp only at h
      repeat' split at h
      all_goals
        cases h
        rfl

/-- Every list of requests on names, made within the bounds of the calls, gets
replies that the map of paths allows; the caches answer in every state on the way. -/
theorem names_conform (fuel : Nat) (reqs : List NameRequest)
    (h : Replies.Within (serve (fuel + 1)) (Proper (fuel + 1)) reqs FS.format) :
    Replies.Within (serve (fuel + 1)) (fun s _ => s.Backed) reqs FS.format ∧
      ∃ replies, Replies.replies (serve (fuel + 1)) reqs FS.format = some replies ∧
        Replies.Conforms PathMap.Allows reqs replies PathMap.root := by
  have hstep : ∀ s req reply s', s.Mapped → Proper (fuel + 1) s req →
    s.serve (fuel + 1) req = some (reply, s') → s'.Mapped :=
    fun s req reply s' hs hreq hserve => hs.step hreq (serve_step hserve)
  refine ⟨h.imp (fun s _ hs _ => hs.backed) hstep reqs _ Mapped.format, ?_⟩
  refine Replies.conforms (R := fun s m => s.Mapped ∧ s.pathMap = m) ?_ reqs FS.format PathMap.root
    ⟨Mapped.format, pathMap_format⟩ h
  intro s m req hR hreq
  obtain ⟨hs, rfl⟩ := hR
  obtain ⟨reply, s', m', hserve, hallows, -, hm'⟩ := hs.charted.served hreq
  exact ⟨reply, s', m', hserve, hallows, hstep s req reply s' hs hreq hserve, hm'⟩

theorem names_conform_file :
    Replies.Within (serve 1) (fun s _ => s.Backed)
      [.create (.of [[102]]) ⟨sIfreg, Or.inl rfl⟩, .unlink (.of [[102]]),
        .readdir (.of [])] FS.format ∧
    ∃ replies,
      Replies.replies (serve 1) [.create (.of [[102]]) ⟨sIfreg, Or.inl rfl⟩, .unlink (.of [[102]]),
        .readdir (.of [])] FS.format =
        some replies ∧
      Replies.Conforms PathMap.Allows
        [.create (.of [[102]]) ⟨sIfreg, Or.inl rfl⟩, .unlink (.of [[102]]),
          .readdir (.of [])] replies PathMap.root := by
  refine names_conform 0 _ ?_
  refine Replies.Within.cons rfl ⟨⟨by decide, by decide⟩, by decide, by decide⟩ ?_
  refine Replies.Within.cons rfl ⟨fun i hi hd => ?_, by decide, by decide⟩ ?_
  · cases (show some 1 = some i from hi)
    exact absurd hd (by decide)
  · exact Replies.Within.cons rfl ⟨trivial, by decide, by decide⟩ trivial

end FS

end NaiveFS
