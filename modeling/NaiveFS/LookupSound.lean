import NaiveFS.DirectorySound
import Mathlib.Algebra.BigOperators.Group.Finset.Piecewise

/-!
# The dentry cache is transparent

`walk` is `inode_lookup` without the cache. Under `Charted` every cached path
walks to its cached inode, so a lookup gives what a walk gives whatever is cached
(`inodeLookup_walk`). A name that is removed takes exactly the cached paths with
it that lead through it, since a directory is reached by one path only.
-/

namespace NaiveFS

namespace FS

open Groups

/-! ## Walking -/

def walk (s : FS) : Nat → List Name → Except RetCode Nat
  | index, [] => .ok index
  | index, elem :: rest =>
    if !rest.isEmpty && !isDir (s.inodes (deref index)).iMode then .error .ndirErr
    else
      match s.search (deref index) elem with
      | none => .error .notFound
      | some i => s.walk i rest

/-- A directory has one name. -/
def SingleNames (s : FS) : Prop :=
  ∀ c d d' n n', s.isDirectory c = true → s.isDirectory d = true → s.isDirectory d' = true →
    (n, c) ∈ s.listing d → (n', c) ∈ s.listing d' → d = d' ∧ n = n'

/-- A namespace in order: link counts are the numbers of names, only directories
have blocks, and every directory has one name. -/
structure Orderly (s : FS) : Prop where
  linked : s.Linked
  tidy : s.Tidy
  counted : ∀ i, s.groups.allocated .inode i = true → i ≠ rootInode →
    (s.inodes i).iLinksCount = s.refs i
  plain : ∀ i, s.groups.allocated .inode i = true → isDir (s.inodes i).iMode = false →
    (s.inodes i).iBlock = []
  tree : s.SingleNames

/-- Every cached path walks to its inode. -/
structure Charted (s : FS) : Prop where
  order : s.Orderly
  cache : ∀ q i, s.dcache q = some i → [] ∉ q ∧ s.walk rootInode q = .ok i

variable {s s' : FS} {d i j : Nat} {name : Name} {r : RetCode}

theorem search_cached (c : DentryCache) (d : Nat) (name : Name) :
    ({ s with dcache := c } : FS).search d name = s.search d name := rfl

theorem walk_cached (c : DentryCache) :
    ∀ (q : List Name) (j : Nat), ({ s with dcache := c } : FS).walk j q = s.walk j q := by
  intro q
  induction q with
  | nil => exact fun _ => rfl
  | cons elem rest ih =>
    intro j
    unfold walk
    rw [search_cached]
    simp only [ih]

theorem mem_listing :
    (name, i) ∈ s.listing d ↔ ∃ e ∈ s.entries d, e.live = true ∧ e.text = name ∧ e.inode = i := by
  simp [listing]
  tauto

theorem Tidy.mem_listing_iff (h : s.Tidy) (hd : s.groups.allocated .inode d = true)
    (hne : name ≠ []) :
    (name, i) ∈ s.listing d ↔ ∃ e ∈ s.entries d, e.hasName name = true ∧ e.inode = i := by
  rw [mem_listing]
  constructor
  · intro hex
    obtain ⟨e, he, -, ht, hei⟩ := hex
    exact ⟨e, he, ((h.whole d hd e he).hasName_iff name).mpr ht, hei⟩
  · intro hex
    obtain ⟨e, he, hn, hei⟩ := hex
    exact ⟨e, he, Dentry.live_of_hasName hne hn, ((h.whole d hd e he).hasName_iff name).mp hn, hei⟩

theorem deref_allocated (h : s.groups.Books) (hi : s.groups.allocated .inode i = true) :
    deref i = i :=
  if_neg (h.ne_root_alias hi)

theorem search_hasName :
    ∀ i, s.search d name = some i → ∃ e ∈ s.entries d, e.hasName name = true ∧ e.inode = i := by
  refine visitFrom_inv (P := fun r => ∀ i, r = some i → ∃ e ∈ s.entries d, e.hasName name = true ∧
    e.inode = i)
    (s.inodes d).iBlock 0 false none ?_ ?_
  · intro b hb r hr i hi
    unfold searchVisitor at hi
    cases hf : (s.dents b).find? (Dentry.hasName name) with
    | none =>
      rw [hf] at hi
      exact hr i hi
    | some e =>
      simp only [hf] at hi
      obtain ⟨k, -, rfl⟩ := Option.map_eq_some_iff.mp hi
      exact ⟨e, List.mem_flatMap.mpr ⟨b, hb, List.mem_of_find?_eq_some hf⟩, List.find?_some hf, rfl⟩
  · intro i hi
    cases hi

/-- A search that finds nothing has seen every block, if the entries it stops at name
inodes that are there. -/
theorem search_none
    (hthere : ∀ e ∈ s.entries d, e.hasName name = true → (s.groups.getInode e.inode).isSome = true)
    (hs : s.search d name = none) : ∀ e ∈ s.entries d, e.hasName name = false := by
  have hnot : ¬ s.search d name ≠ none := fun hf => hf hs
  have hstop : ∀ b ∈ (s.inodes d).iBlock, ∀ e, (s.dents b).find? (Dentry.hasName name) = some e →
      (s.groups.getInode e.inode).map (fun _ => e.inode) ≠ none := by
    intro b hb e hf
    have := hthere e (List.mem_flatMap.mpr ⟨b, hb, List.mem_of_find?_eq_some hf⟩)
      (List.find?_some hf)
    simpa [Option.isSome_iff_ne_none] using this
  have hpassed := visitFrom_passed (fun r => r ≠ none) ?_ ?_ ?_ 0 hnot
  · intro e he
    obtain ⟨b, hb, heb⟩ := List.mem_flatMap.mp he
    have hb := hpassed b hb
    unfold searchVisitor at hb
    cases hf : (s.dents b).find? (Dentry.hasName name) with
    | none => simpa using List.find?_eq_none.mp hf e heb
    | some e' => simp [hf] at hb
  all_goals intro b hb
  · intro r hr
    unfold searchVisitor
    split
    · exact hr
    · exact hstop b hb _ ‹_›
  · unfold searchVisitor
    split
    · exact fun hc => by cases hc
    · exact fun _ => hstop b hb _ ‹_›
  · unfold searchVisitor
    split
    · exact fun _ => rfl
    · exact fun hc => by cases hc

namespace Orderly

variable (h : s.Orderly)
include h

theorem books : s.groups.Books := h.tidy.clean.books

theorem cached (c : DentryCache) : ({ s with dcache := c } : FS).Orderly :=
  ⟨h.linked.cached c, h.tidy.cached c, h.counted, h.plain, h.tree⟩

theorem of_listing (hd : s.groups.allocated .inode d = true) (hin : (name, i) ∈ s.listing d) :
    s.isDirectory d = true ∧ s.groups.allocated .inode i = true ∧ i ≠ rootInode := by
  obtain ⟨e, he, hl, -, rfl⟩ := mem_listing.mp hin
  have hdir : s.isDirectory d = true := by
    refine isDirectory_iff.mpr ⟨hd, ?_⟩
    by_contra hno
    rw [entries, h.plain d hd (Bool.eq_false_iff.mpr hno)] at he
    cases he
  exact ⟨hdir, h.linked.graph.named d e (mem_dirEntries.mpr ⟨hdir, he⟩) hl⟩

theorem listing_unique (hd : s.groups.allocated .inode d = true) (hi : (name, i) ∈ s.listing d)
    (hj : (name, j) ∈ s.listing d) : i = j := by
  have := List.inj_on_of_nodup_map (h.tidy.distinct d hd) hi hj rfl
  cases this
  rfl

theorem search_iff (hd : s.groups.allocated .inode d = true) (hne : name ≠ []) :
    s.search d name = some i ↔ (name, i) ∈ s.listing d := by
  have hmem : ∀ {j}, s.search d name = some j → (name, j) ∈ s.listing d :=
    fun hj => (h.tidy.mem_listing_iff hd hne).mpr (search_hasName _ hj)
  refine ⟨hmem, fun hin => ?_⟩
  cases hs : s.search d name with
  | some j => rw [h.listing_unique hd hin (hmem hs)]
  | none =>
    obtain ⟨e, he, hn, -⟩ := (h.tidy.mem_listing_iff hd hne).mp hin
    have hnone := search_none (fun e he hn => ?_) hs e he
    · rw [hn] at hnone
      cases hnone
    · have hlisted := (h.tidy.mem_listing_iff hd hne).mpr ⟨e, he, hn, rfl⟩
      rw [getInode_of_allocated h.books (h.of_listing hd hlisted).2.1]
      rfl

theorem walk_cons_ok (hj : s.groups.allocated .inode j = true) (hne : name ≠ [])
    {rest : List Name} :
    s.walk j (name :: rest) = .ok i ↔ ∃ k, (name, k) ∈ s.listing j ∧ s.walk k rest = .ok i := by
  rw [walk, deref_allocated h.books hj]
  constructor
  · intro hw
    split at hw
    · cases hw
    · cases hs : s.search j name with
      | none => simp [hs] at hw
      | some k =>
        simp only [hs] at hw
        exact ⟨k, (h.search_iff hj hne).mp hs, hw⟩
  · rintro ⟨k, hk, hw⟩
    have hdir := (isDirectory_iff.mp (h.of_listing hj hk).1).2
    rw [if_neg (by simp [hdir]), (h.search_iff hj hne).mpr hk]
    exact hw

theorem walk_allocated :
    ∀ {q : List Name} {j i : Nat}, s.groups.allocated .inode j = true → [] ∉ q →
    s.walk j q = .ok i → s.groups.allocated .inode i = true := by
  intro q
  induction q with
  | nil =>
    intro j i hj _ hw
    cases hw
    exact hj
  | cons elem rest ih =>
    intro j i hj hne hw
    obtain ⟨k, hk, hw⟩ := (h.walk_cons_ok hj fun hc => hne (hc ▸ List.mem_cons_self)).mp hw
    exact ih (h.of_listing hj hk).2.1 (fun hc => hne (List.mem_cons_of_mem _ hc)) hw

theorem walk_append_ok :
    ∀ {l r : List Name} {j : Nat}, s.groups.allocated .inode j = true → [] ∉ l →
    (s.walk j (l ++ r) = .ok i ↔ ∃ k, s.walk j l = .ok k ∧ s.walk k r = .ok i) := by
  intro l r
  induction l with
  | nil =>
    intro j _ _
    refine ⟨fun hw => ⟨j, rfl, hw⟩, ?_⟩
    rintro ⟨k, hk, hw⟩
    cases hk
    exact hw
  | cons elem rest ih =>
    intro j hj hne
    have hname : elem ≠ [] := fun hc => hne (hc ▸ List.mem_cons_self)
    have hrest : [] ∉ rest := fun hc => hne (List.mem_cons_of_mem _ hc)
    rw [List.cons_append, h.walk_cons_ok hj hname]
    constructor
    · rintro ⟨k, hk, hw⟩
      obtain ⟨m, hm, hw⟩ := (ih (h.of_listing hj hk).2.1 hrest).mp hw
      exact ⟨m, (h.walk_cons_ok hj hname).mpr ⟨k, hk, hm⟩, hw⟩
    · rintro ⟨m, hm, hw⟩
      obtain ⟨k, hk, hm⟩ := (h.walk_cons_ok hj hname).mp hm
      exact ⟨k, hk, (ih (h.of_listing hj hk).2.1 hrest).mpr ⟨m, hm, hw⟩⟩

theorem walk_cons_of_listing (hj : s.groups.allocated .inode j = true) (hne : name ≠ []) {k : Nat}
    (hk : (name, k) ∈ s.listing j) (rest : List Name) :
    s.walk j (name :: rest) = s.walk k rest := by
  have hdir := (isDirectory_iff.mp (h.of_listing hj hk).1).2
  rw [walk, deref_allocated h.books hj, if_neg (by simp [hdir]), (h.search_iff hj hne).mpr hk]

theorem walk_concat_ok {l : List Name} (hne : [] ∉ l ++ [name]) :
    s.walk rootInode (l ++ [name]) = .ok i ↔ ∃ p, s.walk rootInode l = .ok p ∧
      s.isDirectory p = true ∧ (name, i) ∈ s.listing p := by
  have hl : [] ∉ l := fun hc => hne (List.mem_append_left _ hc)
  have hn : name ≠ [] := fun hc => hne (List.mem_append_right _ (hc ▸ List.mem_cons_self))
  rw [h.walk_append_ok h.tidy.root hl]
  constructor
  · rintro ⟨p, hp, hw⟩
    have hpa := h.walk_allocated h.tidy.root hl hp
    obtain ⟨k, hk, hki⟩ := (h.walk_cons_ok hpa hn).mp hw
    cases hki
    exact ⟨p, hp, (h.of_listing hpa hk).1, hk⟩
  · rintro ⟨p, hp, hpd, hin⟩
    exact ⟨p, hp, (h.walk_cons_ok (isDirectory_iff.mp hpd).1 hn).mpr ⟨i, hin, rfl⟩⟩

theorem walk_unique {d : Nat} : ∀ {l l' : List Name}, s.isDirectory d = true → [] ∉ l → [] ∉ l' →
    s.walk rootInode l = .ok d → s.walk rootInode l' = .ok d → l = l' := by
  have hroot : ∀ {p n}, s.isDirectory p = true → (n, rootInode) ∉ s.listing p := by
    intro p n hp hin
    exact (h.of_listing (isDirectory_iff.mp hp).1 hin).2.2 rfl
  intro l
  induction l using List.reverseRecOn generalizing d with
  | nil =>
    intro l' _ _ hne' hw hw'
    cases hw
    rcases List.eq_nil_or_concat' l' with rfl | ⟨l', n, rfl⟩
    · rfl
    · obtain ⟨p, -, hpd, hin⟩ := (h.walk_concat_ok hne').mp hw'
      exact absurd hin (hroot hpd)
  | append_singleton l n ih =>
    intro l' hd hne hne' hw hw'
    obtain ⟨p, hp, hpd, hin⟩ := (h.walk_concat_ok hne).mp hw
    rcases List.eq_nil_or_concat' l' with rfl | ⟨l', n', rfl⟩
    · cases hw'
      exact absurd hin (hroot hpd)
    · obtain ⟨p', hp', hpd', hin'⟩ := (h.walk_concat_ok hne').mp hw'
      obtain ⟨rfl, rfl⟩ := h.tree d p p' n n' hd hpd hpd' hin hin'
      rw [ih hpd (fun hc => hne (List.mem_append_left _ hc))
        (fun hc => hne' (List.mem_append_left _ hc)) hp hp']

end Orderly

theorem walk_mono (h : s.Orderly) (h' : s'.Orderly)
    (hgrow : ∀ d, s.isDirectory d = true → s'.isDirectory d = true ∧
      ∀ e ∈ s.listing d, e ∈ s'.listing d) :
    ∀ {q : List Name} {j i : Nat}, s.groups.allocated .inode j = true → [] ∉ q →
      s.walk j q = .ok i → s'.walk j q = .ok i := by
  intro q
  induction q with
  | nil => exact fun _ _ hw => hw
  | cons elem rest ih =>
    intro j i hj hne hw
    have hname : elem ≠ [] := fun hc => hne (hc ▸ List.mem_cons_self)
    obtain ⟨k, hk, hw⟩ := (h.walk_cons_ok hj hname).mp hw
    obtain ⟨hjd, hka, -⟩ := h.of_listing hj hk
    obtain ⟨hjd', hsub⟩ := hgrow j hjd
    exact (h'.walk_cons_ok (isDirectory_iff.mp hjd').1 hname).mpr
      ⟨k, hsub _ hk, ih hka (fun hc => hne (List.mem_cons_of_mem _ hc)) hw⟩

/-! ## Looking up -/

namespace Charted

theorem insert (h : s.Charted) {link : List Name} {elem : Name} (hne : [] ∉ link ++ [elem])
    (hw : s.walk rootInode (link ++ [elem]) = .ok i) :
    ({ s with dcache := s.dcache.insert link elem i } : FS).Charted := by
  refine ⟨h.order.cached _, fun q j hq => ?_⟩
  rw [walk_cached]
  by_cases hql : q = link ++ [elem]
  · subst hql
    simp only [DentryCache.insert_map, NodeMap.insert, Function.update_self] at hq
    cases hq
    exact ⟨hne, hw⟩
  · simp only [DentryCache.insert_map, NodeMap.insert, Function.update_of_ne hql] at hq
    exact h.cache q j hq

theorem enter (h : s.Charted) (link : List Name) (elem : Name) :
    ({ s with dcache := s.dcache.enter link elem } : FS).Charted :=
  ⟨h.order.cached _, fun q j hq => by rw [walk_cached]; exact h.cache q j hq⟩

theorem lookupFrom_walk :
    ∀ {rest link : List Name} {index inode : Nat} {hit : Bool} {s : FS}, s.Charted → [] ∉ link →
    [] ∉ rest → s.walk rootInode link = .ok index → (hit = false → inode = index) →
    (lookupFrom link index inode hit rest s).1 = s.walk index rest ∧
      (lookupFrom link index inode hit rest s).2.Charted := by
  intro rest
  induction rest with
  | nil => exact fun h _ _ _ _ => ⟨rfl, h⟩
  | cons elem rest ih =>
    intro link index inode hit s h hlink hne hw hinode
    have hname : elem ≠ [] := fun hc => hne (hc ▸ List.mem_cons_self)
    have hrest : [] ∉ rest := fun hc => hne (List.mem_cons_of_mem _ hc)
    have hlink' : [] ∉ link ++ [elem] := by simp [hlink, Ne.symm hname]
    have hia := h.order.walk_allocated h.order.tidy.root hlink hw
    have hstep : ∀ {i}, (elem, i) ∈ s.listing index → s.walk rootInode (link ++ [elem]) =
      .ok i := by
      intro i hi
      exact (h.order.walk_append_ok h.order.tidy.root hlink).mpr ⟨index, hw,
        (h.order.walk_cons_ok hia hname).mpr ⟨i, hi, rfl⟩⟩
    unfold lookupFrom
    have hcached : s.dcache.lookup link elem = s.dcache (link ++ [elem]) := by
      rw [DentryCache.lookup, if_neg (by simpa using hname)]
    rw [hcached]
    cases hc : s.dcache (link ++ [elem]) with
    | some i =>
      obtain ⟨-, hwalk⟩ := h.cache _ _ hc
      obtain ⟨k, hk, hlast⟩ := (h.order.walk_append_ok h.order.tidy.root hlink).mp hwalk
      cases hw.symm.trans hk
      obtain ⟨k, hin, hki⟩ := (h.order.walk_cons_ok hia hname).mp hlast
      cases hki
      have hget := getInode_of_allocated h.order.books (h.order.of_listing hia hin).2.1
      simp only [hget, Option.isNone_some, Bool.and_false, Bool.false_eq_true, if_false]
      rw [h.order.walk_cons_of_listing hia hname hin, ← walk_cached (s.dcache.enter link elem)]
      exact ih (h.enter link elem) hlink' hrest (by rw [walk_cached]; exact hwalk)
        (fun hc => by cases hc)
    | none =>
      have hptr : (if hit = true then s.groups.getInode index else some inode) = some index := by
        cases hit with
        | true => rw [if_pos rfl, getInode_of_allocated h.order.books hia]
        | false => rw [if_neg Bool.false_ne_true, hinode rfl]
      rw [hptr, walk, deref_allocated h.order.books hia]
      simp only
      split
      · exact ⟨rfl, h.enter link elem⟩
      · cases hs : s.search index elem with
        | none => exact ⟨rfl, h.enter link elem⟩
        | some i =>
          have hin := (h.order.search_iff hia hname).mp hs
          have hia' := (h.order.of_listing hia hin).2.1
          simp only [getInode_of_allocated h.order.books hia', Option.getD_some]
          rw [← walk_cached ((s.dcache.enter link elem).insert link elem i)]
          have hwalk := hstep hin
          exact ih ((h.enter link elem).insert hlink' (by rw [walk_cached]; exact hwalk))
            hlink' hrest
            (by rw [walk_cached]; exact hwalk) fun _ => rfl

variable (h : s.Charted) (path : Path)
include h

theorem lookup (hv : path.valid = true) :
    (s.inodeLookup path).1 = s.walk rootInode path.names ∧ (s.inodeLookup path).2.Charted := by
  unfold inodeLookup
  rw [hv]
  exact h.lookupFrom_walk List.not_mem_nil (path.nonempty hv) rfl fun _ => rfl

theorem looked {c : DentryCache} (hc : s.Looked c) : ({ s with dcache := c } : FS).Charted := by
  induction hc with
  | start => exact h
  | @lookup c _ path ih =>
    have hnext : (({ s with dcache := c } : FS).inodeLookup path).2.Charted := by
      by_cases hv : path.valid = true
      · exact (ih.lookup path hv).2
      · unfold inodeLookup
        simp only [Bool.eq_false_iff.mpr hv]
        exact ih
    obtain ⟨c', hc'⟩ := inodeLookup_frame path { s with dcache := c }
    rw [hc'] at hnext ⊢
    exact hnext

end Charted

/-! ## Entering a name -/

section Entering

variable {parent : Except RetCode Nat} {result : Except RetCode Nat}
  (hent : Entered parent name result s s')
include hent

theorem Entered.grow (hd : s.isDirectory d = true) :
    s'.isDirectory d = true ∧ ∀ e ∈ s.listing d, e ∈ s'.listing d := by
  cases result with
  | error r =>
    obtain ⟨hd', hl⟩ := hent.failed r rfl d hd
    exact ⟨hd', fun e he => hl ▸ he⟩
  | ok i =>
    obtain ⟨p, -, -, hp', hl, hothers⟩ := hent.added i rfl
    by_cases hdp : d = deref p
    · subst hdp
      rw [hl]
      exact ⟨hp', fun e he => List.mem_append_left _ he⟩
    · obtain ⟨hd', hl⟩ := hothers d hd hdp
      exact ⟨hd', fun e he => hl ▸ he⟩

theorem Entered.edge {n : Name} {c : Nat} (hd : s'.isDirectory d = true)
    (hin : (n, c) ∈ s'.listing d) :
    s.isDirectory d = true ∧ (n, c) ∈ s.listing d ∨
      ∃ p, parent = .ok p ∧ d = deref p ∧ n = name ∧ result = .ok c := by
  rcases hent.fresh d hd with hd' | hnil
  · cases result with
    | error r =>
      rw [(hent.failed r rfl d hd').2] at hin
      exact Or.inl ⟨hd', hin⟩
    | ok i =>
      obtain ⟨p, hp, -, -, hl, hothers⟩ := hent.added i rfl
      by_cases hdp : d = deref p
      · subst hdp
        rw [hl, List.mem_append, List.mem_singleton] at hin
        rcases hin with hin | hin
        · exact Or.inl ⟨hd', hin⟩
        · cases hin
          exact Or.inr ⟨p, hp, rfl, rfl, rfl⟩
      · rw [(hothers d hd' hdp).2] at hin
        exact Or.inl ⟨hd', hin⟩
  · rw [hnil] at hin
    cases hin

theorem Entered.singleNames (h : s.Orderly)
    (hkeep : ∀ c, s.groups.allocated .inode c = true → s'.isDirectory c = true →
      s.isDirectory c = true)
    (hnew : ∀ i, result = .ok i → s'.isDirectory i = true → s.groups.allocated .inode i = false) :
    s'.SingleNames := by
  have hold : ∀ {c d n}, s.isDirectory d = true → (n, c) ∈ s.listing d →
    s.groups.allocated .inode c = true :=
    fun hd hin => (h.of_listing (isDirectory_iff.mp hd).1 hin).2.1
  have hclash : ∀ {c d n}, s'.isDirectory c = true → s.isDirectory d = true → (n, c) ∈ s.listing d →
    result ≠ .ok c := by
    intro c d n hc hd hin hr
    have := hnew c hr hc
    rw [hold hd hin] at this
    cases this
  intro c d d' n n' hc hd hd' hin hin'
  rcases hent.edge hd hin with ⟨hds, hins⟩ | ⟨p, hp, rfl, rfl, hr⟩
  · rcases hent.edge hd' hin' with ⟨hds', hins'⟩ | ⟨p', -, -, -, hr'⟩
    · exact h.tree c d d' n n' (hkeep c (hold hds hins) hc) hds hds' hins hins'
    · exact absurd hr' (hclash hc hds hins)
  · rcases hent.edge hd' hin' with ⟨hds', hins'⟩ | ⟨p', hp', rfl, rfl, -⟩
    · exact absurd hr (hclash hc hds' hins')
    · cases hp.symm.trans hp'
      exact ⟨rfl, rfl⟩

theorem Entered.charted {c : DentryCache} (h : ({ s with dcache := c } : FS).Charted)
    (h' : s'.Orderly) (hc : s'.dcache = c) :
    s'.Charted := by
  refine ⟨h', fun q i hq => ?_⟩
  rw [hc] at hq
  obtain ⟨hne, hw⟩ := h.cache q i hq
  exact ⟨hne, walk_mono h.order h' (fun d hd => hent.grow hd) h.order.tidy.root hne hw⟩

end Entering

section
variable (h : s.Orderly)
include h

theorem Orderly.created {path : Path} {mode : Nat} {result : Except RetCode Nat}
    (hlen : path.back.length ≤ 255) (hmode : isReg mode = true ∨ isDir mode = true)
    (hserved : s.groups.hasFree .inode = true) (hc : s.inodeCreate path mode = some (result, s'))
    (hle : s'.groups.groupCount ≤ 33) : s'.Orderly := by
  have hlinked := h.linked.created hmode hserved hc hle
  obtain ⟨htidy, hent⟩ := h.tidy.created hlen hc hle
  rcases inodeCreate_cases h.tidy.clean h.tidy.root hc hle with ⟨c, e, -, rfl, rfl⟩ |
    ⟨parent, c, i, g, hlook, hpa, hpd, hv, hnames, hnew, rfl, hout, hbooks, hadd⟩
  · exact h.cached c
  have hfresh : ∀ d, ∀ x ∈ s.dirEntries d, x.live = true → x.inode ≠ i := by
    rintro d x hx hl rfl
    have := hout.free
    rw [(h.linked.graph.named d x hx hl).1] at this
    cases this
  have hold : ∀ {j}, s'.groups.allocated .inode j = true → j ≠ i →
    s.groups.allocated .inode j = true := by
    intro j hj hji
    rw [hadd.allocated] at hj
    rwa [hout.after, if_neg fun hc => hji hc.2] at hj
  refine ⟨hlinked, htidy, fun j hj hr => ?_, fun j hj hm => ?_,
    hent.singleNames h (fun j hj hd => ?_) fun j hj _ => ?_⟩
  · rw [hadd.refs_newInode hout hbooks (isDirectory_iff.mpr ⟨hpa, hpd⟩)]
    rcases hadd.links_newInode hout hserved hj with ⟨rfl, hl⟩ | ⟨hji, ha, hl⟩
    · rw [hl, refs_eq_zero hfresh, Dentry.make_live (Path.back_ne_nil hv hnames) hlen]
      simp
    · rw [hl, h.counted j ha hr, if_neg (by simp [Ne.symm hji]), Nat.add_zero]
  · rw [hadd.mode] at hm
    by_cases hji : j = i
    · subst hji
      have hjp : j ≠ deref parent := by
        rintro rfl
        have := hout.free
        rw [hpa] at this
        cases this
      rw [hadd.inodes j hjp]
      simp [newInode_iBlock]
    · simp only [Function.update_of_ne hji] at hm
      have hjp : j ≠ deref parent := by
        rintro rfl
        rw [hpd] at hm
        cases hm
      rw [hadd.inodes j hjp]
      simp only [Function.update_of_ne hji]
      exact h.plain j (hold hj hji) hm
  · have hji : j ≠ i := by
      rintro rfl
      rw [hout.free] at hj
      cases hj
    rwa [hadd.isDirectory, isDirectory_newInode hout, if_neg hji] at hd
  · cases hj
    exact hout.free

theorem Orderly.linkedTo {src dst : Path} (hlen : dst.back.length ≤ 255)
    (hroom : ∀ i, (s.inodeLookup src).1 = .ok i → s.refs (deref i) < 65535)
    (hl : s.inodeLink src dst = some (r, s')) (hle : s'.groups.groupCount ≤ 33) : s'.Orderly := by
  have hroom' : ∀ i, (s.inodeLookup src).1 = .ok i → isDir (s.inodes (deref i)).iMode = false →
      (s.inodes (deref i)).iLinksCount < 65535 := by
    intro i hi hreg
    obtain ⟨hidx, hia, hir⟩ := h.linked.graph.source (Prod.ext hi rfl) hreg
    have := hroom i hi
    rwa [hidx, ← h.counted i hia hir, ← hidx] at this
  have hlinked := h.linked.linked hroom' hl hle
  obtain ⟨htidy, hent⟩ := h.tidy.linked hlen hl hle
  rcases inodeLink_cases h.tidy.clean h.tidy.root hl hle with ⟨c, -, rfl, hr⟩ |
    ⟨index, parent, c, c', t, hsrc, hreg, hlook, hpa, hpd, hv, hnames, -, hnew, rfl, hadd, rfl⟩
  · exact h.cached c
  have hlt := hroom' index (by rw [hsrc]) hreg
  obtain ⟨hidx, hia, hir⟩ := h.linked.graph.source hsrc hreg
  rw [if_pos rfl, hsrc] at hent
  rw [hidx] at hreg hlt hlinked htidy hent ⊢
  have hdir : ∀ d, (t.setLinks index (u16 ((t.inodes index).iLinksCount + 1))).isDirectory d =
    s.isDirectory d := by
    intro d
    rw [setLinks_isDirectory, hadd.isDirectory]
    rfl
  refine ⟨hlinked, htidy, fun j hj hjr => ?_, fun j hj hm => ?_,
    hent.singleNames h (fun j _ hd => ?_) fun j hj hd => ?_⟩
  · change t.groups.allocated .inode j = true at hj
    rw [hadd.allocated] at hj
    have hlive := Dentry.make_live (Path.back_ne_nil hv hnames) hlen index
      (s.inodes index).iMode
    have hcount := h.counted j hj hjr
    rw [setLinks_refs, hadd.refs (isDirectory_iff.mpr ⟨hpa, hpd⟩) h.books, hidx, hlive]
    change _ = s.refs j + _
    by_cases hji : j = index
    · subst hji
      have hsum : (s.inodes j).iLinksCount + 1 < 2 ^ 16 := by omega
      rw [setLinks_self, hadd.links]
      change u16 ((s.inodes j).iLinksCount + 1) = _
      rw [u16, Nat.mod_eq_of_lt hsum, hcount]
      simp [Dentry.make]
    · rw [setLinks_ne _ _ _ hji, hadd.links, if_neg (by simp [Dentry.make, Ne.symm hji]),
        Nat.add_zero]
      exact hcount
  · change t.groups.allocated .inode j = true at hj
    rw [hadd.allocated] at hj
    rw [setLinks_iMode, hadd.mode] at hm
    have hjp : j ≠ deref parent := by
      rintro rfl
      change isDir (s.inodes (deref parent)).iMode = false at hm
      rw [hpd] at hm
      cases hm
    rw [setLinks_iBlock, hadd.inodes j hjp]
    exact h.plain j hj hm
  · rwa [hdir] at hd
  · cases hj
    rw [hdir] at hd
    have := (isDirectory_iff.mp hd).2
    rw [hreg] at this
    cases this

end

/-! ## Removing a name -/

theorem deleteAll_dead {del : Nat → Groups → Option (RetCode × Groups)} {g : Groups} :
    ∀ {l : List Dentry},
    (∀ e ∈ l, e.live = false) → deleteAll del l g = some g := by
  intro l
  induction l with
  | nil => exact fun _ => rfl
  | cons e rest ih =>
    intro h
    rw [deleteAll, h e List.mem_cons_self]
    exact ih fun x hx => h x (List.mem_cons_of_mem _ hx)

section Alone

variable {fuel i : Nat} {g : Groups} (hg : g.Books) (hi : g.allocated .inode i = true) (hr : i ≠
  rootInode)
  (hkind : isReg (s.inodes i).iMode = true ∨ isDir (s.inodes i).iMode = true)
  (hdir : isDir (s.inodes i).iMode = true → ∀ e ∈ s.entries i, e.live = false)
  (hreg : isDir (s.inodes i).iMode = false → (s.inodes i).iBlock = [])
include hg hi hr hkind hdir hreg

theorem inodeDelete_alone_some :
    ∃ g', s.inodeDelete (fuel + 1) i g = some (.success, g') ∧
      g.free .inode i = some (true, g') := by
  have hkind' : (!isReg (s.inodes i).iMode && !isDir (s.inodes i).iMode) = false := by
    rcases hkind with hk | hk <;> simp [hk]
  have hbody : (if isDir (s.inodes i).iMode = true then
    deleteAll (s.inodeDelete fuel) (s.entries i) g
      else freeBlocks (s.inodes i).iBlock g) = some g := by
    split
    · exact deleteAll_dead (hdir ‹_›)
    · rw [hreg (Bool.eq_false_iff.mpr ‹_›)]
      rfl
  obtain ⟨g₁, hfree, -⟩ := hg.free hi
  rw [inodeDelete, if_neg hr, getInode_of_allocated hg hi]
  simp only [hkind', Bool.false_eq_true, if_false, hbody, hfree, Option.map_some]
  exact ⟨_, rfl, rfl⟩

theorem inodeDelete_alone {g' : Groups} (h : s.inodeDelete fuel i g = some (r, g')) :
    g.free .inode i = some (true, g') := by
  cases fuel with
  | zero => cases h
  | succ fuel =>
    obtain ⟨g₁, hdel, hfree⟩ := @inodeDelete_alone_some s fuel i g hg hi hr hkind hdir hreg
    rw [hdel] at h
    cases h
    exact hfree

end Alone

theorem naming_entries (s : FS) (d j : Nat) :
    Dentry.naming j (s.entries d) = (s.listing d).countP fun e => e.2 == j := by
  unfold Dentry.naming listing
  rw [List.countP_map, List.countP_filter]
  apply List.countP_congr
  intro e _
  simp [and_comm]

theorem countP_filter_key {α β : Type} [DecidableEq α] {l : List (α × β)} {a : α} {b : β}
    (p : α × β → Bool) (hnd : (l.map Prod.fst).Nodup) (hin : (a, b) ∈ l) :
    l.countP p = (l.filter fun e => e.1 ≠ a).countP p + if p (a, b) then 1 else 0 := by
  induction l with
  | nil => cases hin
  | cons e l ih =>
    rw [List.map_cons, List.nodup_cons] at hnd
    by_cases he : e.1 = a
    · have heq : e = (a, b) := by
        rcases List.mem_cons.mp hin with heq | hin
        · exact heq.symm
        · exact absurd (he ▸ List.mem_map_of_mem hin) hnd.1
      have hrest : l.filter (fun e => e.1 ≠ a) = l := by
        refine List.filter_eq_self.mpr fun x hx => ?_
        have hne : x.1 ≠ a := fun hc => hnd.1 (he ▸ hc ▸ List.mem_map_of_mem hx)
        simpa using hne
      rw [List.filter_cons_of_neg (by simp [he]), hrest, List.countP_cons, heq]
    · have hin' : (a, b) ∈ l := (List.mem_cons.mp hin).resolve_left fun hc => he (hc ▸ rfl)
      rw [List.filter_cons_of_pos (by simpa using he), List.countP_cons, List.countP_cons,
        ih hnd.2 hin']
      exact Nat.add_right_comm ..

/-- What `inode_unlink` does when it removes a name that is no directory's, or an
empty directory's. -/
structure Unlinked (c : DentryCache) (P : List Name) (p : Nat) (name : Name) (i : Nat) (s s' : FS) :
  Prop where
  dir : s.isDirectory p = true
  listed : (name, i) ∈ s.listing p
  removed : s'.listing p = (s.listing p).filter fun e => e.1 ≠ name
  others : ∀ d, s.isDirectory d = true → d ≠ p → s'.listing d = s.listing d
  inodes : s'.inodes = (s.setLinks i ((s.inodes i).iLinksCount - 1)).inodes
  weaker : ∀ b, List.Forall₂ (Dentry.Weaker name) (s.dents b) (s'.dents b)
  groups : if (s.inodes i).iLinksCount = 1 then s.groups.free .inode i =
    some (true, s'.groups) else s'.groups = s.groups
  allocated : ∀ j, s'.groups.allocated .inode j = true ↔
    s.groups.allocated .inode j = true ∧ ¬ (j = i ∧ (s.inodes i).iLinksCount = 1)
  empty : s.isDirectory i = true → s.listing i = []
  dcache : s'.dcache = c.drop P name

theorem dead_of_listing (h : s.listing d = []) : ∀ e ∈ s.entries d, e.live = false := by
  intro e he
  by_contra hl
  rw [Bool.not_eq_false] at hl
  have := List.mem_map_of_mem (f := fun e => (e.text, e.inode)) (List.mem_filter.mpr ⟨he, hl⟩)
  change _ ∈ s.listing d at this
  rw [h] at this
  cases this

namespace Orderly

variable (h : s.Orderly)
include h

theorem refs_pos_of_listing (hd : s.isDirectory d = true) (hin : (name, i) ∈ s.listing d) :
    0 < s.refs i := by
  obtain ⟨e, he, hl, -, rfl⟩ := mem_listing.mp hin
  exact refs_pos h.books (mem_dirEntries.mpr ⟨hd, he⟩) hl

theorem ne_of_listing (hd : s.isDirectory d = true) (hin : (name, i) ∈ s.listing d) : i ≠ d := by
  rintro rfl
  obtain ⟨e, he, hl, -, hei⟩ := mem_listing.mp hin
  apply h.linked.graph.not_reach_parent (mem_dirEntries.mpr ⟨hd, he⟩) hl
  rw [hei]
  exact Relation.ReflTransGen.refl

theorem unlink_cases {fuel : Nat} {path : Path}
    (hempty : ∀ i, s.target path = some i → s.isDirectory i = true → s.listing i = [])
    (hu : s.inodeUnlink fuel path = some (r, s')) :
    (∃ c, s.Looked c ∧ s' = { s with dcache := c } ∧ r ≠ .success) ∨
      ∃ parent c i, s.inodeLookup path.parent = (.ok parent, { s with dcache := c }) ∧
        path.names ≠ [] ∧ s.target path = some i ∧
        Unlinked c path.parent.names (deref parent) path.back i s s' := by
  obtain ⟨-, hrem⟩ := h.tidy.unlinked hu
  rcases inodeUnlink_cases h.tidy.root hu with ⟨c, hlooked, rfl, hr, -⟩ |
    ⟨parent, c, st, i, hlook, hpa, hpd, hv, hne, hst, hk, hm, hdrop⟩
  · exact Or.inl ⟨c, hlooked, rfl, hr⟩
  have hpdir : s.isDirectory (deref parent) = true := isDirectory_iff.mpr ⟨hpa, hpd⟩
  have htarget : s.target path = some i := by rw [target_eq hlook hpd hne, ← hst, hm]
  have hback := Path.back_ne_nil hv hne
  have hin : (path.back, i) ∈ s.listing (deref parent) := by
    obtain ⟨b, hb, e, heb, hname, hei, -⟩ := hk.found i hm
    have he : e ∈ s.entries (deref parent) := List.mem_flatMap.mpr ⟨b, hb, heb⟩
    exact (h.tidy.mem_listing_iff hpa hback).mpr ⟨e, he, hname, hei⟩
  obtain ⟨-, hia, hir⟩ := h.of_listing hpa hin
  have hpos := h.refs_pos_of_listing hpdir hin
  have hcount := h.counted i hia hir
  have hbound := h.linked.bound i hia
  have hpred : u16 ((s.inodes i).iLinksCount + 65535) = (s.inodes i).iLinksCount - 1 := by
    unfold u16
    omega
  have hentries := dropLink_entries hdrop
  refine Or.inr ⟨parent, c, i, hlook, hne, htarget, ?_⟩
  -- the listings before the link is dropped
  generalize hc' : DentryCache.drop c path.parent.names path.back = c' at hdrop hentries
  have hlive : ∀ e ∈ ({ s with dents := st.1, dcache := c' } : FS).dirEntries i, e.live = true →
    e ∈ s.dirEntries i :=
    fun e he hl => hk.mem_dirEntries he hl
  obtain ⟨g, rfl, hg⟩ : ∃ g, s' =
    { ({ s with dents := st.1, dcache := c' } : FS).setLinks i ((s.inodes i).iLinksCount - 1) with
      groups := g } ∧ if (s.inodes i).iLinksCount = 1 then s.groups.free .inode i =
      some (true, g) else g = s.groups := by
    unfold dropLink at hdrop
    change (match s.groups.getInode i with
      | none => _
      | some i => _) = _ at hdrop
    rw [getInode_of_allocated h.books hia] at hdrop
    simp only [hpred] at hdrop
    by_cases hlast : (s.inodes i).iLinksCount - 1 = 0
    · have hone : (s.inodes i).iLinksCount = 1 := by omega
      rw [if_pos hlast] at hdrop
      obtain ⟨⟨rc, g⟩, hdel, heq⟩ := Option.map_eq_some_iff.mp hdrop
      cases heq
      refine ⟨g, rfl, ?_⟩
      rw [if_pos hone]
      refine inodeDelete_alone h.books hia hir ?_ ?_ ?_ hdel
      · rw [setLinks_iMode]
        exact h.linked.graph.kind i hia
      · rw [setLinks_iMode, setLinks_entries]
        intro hdir e he
        have hidir : s.isDirectory i = true := isDirectory_iff.mpr ⟨hia, hdir⟩
        by_contra hl
        rw [Bool.not_eq_false] at hl
        have hold := (mem_dirEntries.mp (hlive e (mem_dirEntries.mpr ⟨hidir, he⟩) hl)).2
        rw [dead_of_listing (hempty i htarget hidir) e hold] at hl
        cases hl
      · rw [setLinks_iMode, setLinks_iBlock]
        exact h.plain i hia
    · rw [if_neg hlast] at hdrop
      cases hdrop
      refine ⟨s.groups, rfl, ?_⟩
      rw [if_neg (by omega)]
  refine ⟨hpdir, hin, hrem.removed parent (by rw [hlook]) hpdir, fun d hd hdp => ?_, rfl, hk.weaker,
    hg, fun j => ?_, hempty i htarget, hc'.symm⟩
  · refine listing_congr ((hentries d).trans ?_)
    exact hk.entries_ne h.tidy.clean hpa (isDirectory_iff.mp hd).1 hdp
  · change g.allocated .inode j = true ↔ _
    by_cases hone : (s.inodes i).iLinksCount = 1
    · rw [if_pos hone] at hg
      obtain ⟨g₁, hfree, -, hafter⟩ := h.books.free hia
      cases hfree.symm.trans hg
      rw [hafter]
      by_cases hji : j = i <;> simp [hji, hone]
    · rw [if_neg hone] at hg
      simp [hg, hone]

end Orderly

namespace Unlinked

variable {c : DentryCache} {P : List Name} {p : Nat} (hun : Unlinked c P p name i s s')
include hun

theorem isDirectory :
    s'.isDirectory d = true ↔ s.isDirectory d = true ∧
      ¬ (d = i ∧ (s.inodes i).iLinksCount = 1) := by
  rw [isDirectory_iff, isDirectory_iff, hun.allocated, hun.inodes, setLinks_iMode]
  tauto

theorem sub (hd : s.isDirectory d = true) {e : Name × Nat} (he : e ∈ s'.listing d) :
    e ∈ s.listing d := by
  by_cases hdp : d = p
  · subst hdp
    rw [hun.removed] at he
    exact (List.mem_filter.mp he).1
  · rwa [hun.others d hd hdp] at he

theorem keep (hd : s.isDirectory d = true) {n : Name} {k : Nat} (hin : (n, k) ∈ s.listing d)
    (hne : ¬ (d = p ∧ n = name)) :
    s'.isDirectory d = true ∧ (n, k) ∈ s'.listing d := by
  constructor
  · rw [hun.isDirectory]
    refine ⟨hd, ?_⟩
    rintro ⟨rfl, -⟩
    rw [hun.empty hd] at hin
    cases hin
  · by_cases hdp : d = p
    · subst hdp
      rw [hun.removed]
      have hn : n ≠ name := fun hc => hne ⟨rfl, hc⟩
      exact List.mem_filter.mpr ⟨hin, by simpa using hn⟩
    · rwa [hun.others d hd hdp]

variable (h : s.Orderly)
include h

theorem naming (j d : Nat) : Dentry.naming j (s.dirEntries d) =
    Dentry.naming j (s'.dirEntries d) + if d = p then (if j = i then 1 else 0) else 0 := by
  by_cases hd : s.isDirectory d = true
  · have hin := hun.listed
    unfold dirEntries
    by_cases hdp : d = p
    · subst hdp
      have hd' : s'.isDirectory d = true := by
        rw [hun.isDirectory]
        exact ⟨hd, fun hc => h.ne_of_listing hd hin hc.1.symm⟩
      rw [if_pos hd, if_pos hd', if_pos rfl, naming_entries, naming_entries, hun.removed,
        countP_filter_key _ (h.tidy.distinct d (isDirectory_iff.mp hd).1) hin]
      by_cases hji : j = i
      · simp [hji]
      · simp [hji, Ne.symm hji]
    · rw [if_pos hd, if_neg hdp, Nat.add_zero]
      by_cases hd' : s'.isDirectory d = true
      · rw [if_pos hd', naming_entries, naming_entries, hun.others d hd hdp]
      · -- the directory that goes is empty
        rw [hun.isDirectory, not_and, not_not] at hd'
        obtain ⟨rfl, -⟩ := hd' hd
        rw [naming_entries, hun.empty hd]
        split
        · rw [naming_entries, hun.others d hd hdp, hun.empty hd]
        · rfl
  · have hd' : ¬ s'.isDirectory d = true := fun hc => hd (hun.isDirectory.mp hc).1
    have hdp : d ≠ p := fun hc => hd (hc ▸ hun.dir)
    simp [dirEntries, hd, hd', hdp]

theorem refs (j : Nat) : s.refs j = s'.refs j + if j = i then 1 else 0 := by
  have hp := Finset.mem_range.mpr (lt_inodeLimit h.books (isDirectory_iff.mp hun.dir).1)
  unfold FS.refs
  rw [Finset.sum_congr rfl fun d _ => hun.naming h j d, Finset.sum_add_distrib, Finset.sum_ite_eq',
    if_pos hp]

theorem orderly (hlinked : s'.Linked) (htidy : s'.Tidy) : s'.Orderly := by
  refine ⟨hlinked, htidy, fun j hj hjr => ?_, fun j hj hm => ?_,
    fun x d d' n n' hx hd hd' hin hin' => ?_⟩
  · have hcount := h.counted j ((hun.allocated j).mp hj).1 hjr
    have hrefs := hun.refs h j
    rw [hun.inodes]
    by_cases hji : j = i
    · subst hji
      rw [if_pos rfl] at hrefs
      rw [setLinks_self]
      omega
    · rw [if_neg hji, Nat.add_zero] at hrefs
      rw [setLinks_ne _ _ _ hji, hcount, hrefs]
  · rw [hun.inodes, setLinks_iMode] at hm
    rw [hun.inodes, setLinks_iBlock]
    exact h.plain j ((hun.allocated j).mp hj).1 hm
  · obtain ⟨hx, -⟩ := hun.isDirectory.mp hx
    obtain ⟨hd, -⟩ := hun.isDirectory.mp hd
    obtain ⟨hd', -⟩ := hun.isDirectory.mp hd'
    exact h.tree x d d' n n' hx hd hd' (hun.sub hd hin) (hun.sub hd' hin')

/-- A path to its end that does not lead through the removed name. -/
theorem walk_keep (h' : s'.Orderly) (hP : [] ∉ P) (hparent : s.walk rootInode P = .ok p) :
    ∀ {q l : List Name} {j k : Nat}, [] ∉ l → [] ∉ q → s.walk rootInode l = .ok j →
      ¬ P ++ [name] <+: l ++ q → s.walk j q = .ok k → s'.walk j q = .ok k := by
  intro q
  induction q with
  | nil => exact fun _ _ _ _ hw => hw
  | cons elem rest ih =>
    intro l j k hl hq hwl hout hw
    have hname : elem ≠ [] := fun hc => hq (hc ▸ List.mem_cons_self)
    have hja := h.walk_allocated h.tidy.root hl hwl
    obtain ⟨m, hm, hw⟩ := (h.walk_cons_ok hja hname).mp hw
    have hjd := (h.of_listing hja hm).1
    have hother : ¬ (j = p ∧ elem = name) := by
      rintro ⟨rfl, rfl⟩
      apply hout
      rw [h.walk_unique hjd hl hP hwl hparent]
      exact ⟨rest, by simp⟩
    obtain ⟨hjd', hm'⟩ := hun.keep hjd hm hother
    refine (h'.walk_cons_ok (isDirectory_iff.mp hjd').1 hname).mpr ⟨m, hm',
      ih (l := l ++ [elem]) ?_ ?_ ?_ ?_ hw⟩
    · simp [hl, Ne.symm hname]
    · exact fun hc => hq (List.mem_cons_of_mem _ hc)
    · exact (h.walk_append_ok h.tidy.root hl).mpr ⟨j, hwl,
        (h.walk_cons_ok hja hname).mpr ⟨m, hm, rfl⟩⟩
    · rwa [List.append_assoc, List.singleton_append]

end Unlinked

/-! ## Runs -/

inductive NameOp where
  | lookup (path : ShortPath)
  | call (op : DirOp)

def nameStep (fuel : Nat) (s : FS) : NameOp → Option FS
  | .lookup path => some (s.inodeLookup path).2
  | .call op => dirStep fuel s op

/-- Lookups give the same with the dentry cache as without. -/
def Transparent (s : FS) : Prop :=
  ∀ path : ShortPath, (s.inodeLookup path).1 =
    (({ s with dcache := DentryCache.init } : FS).inodeLookup path).1

/-- Regular files and directories are created, in the first group; fewer than
65535 names are linked to an inode; a directory that is unlinked is empty. -/
def Ordinary (s : FS) : NameOp → Prop
  | .lookup _ => True
  | .call (.create _ mode) =>
    (isReg mode = true ∨ isDir mode = true) ∧ (s.groups.super.slots 0).bgFreeCount .inode ≠ 0
  | .call (.link src _) => ∀ i, (s.inodeLookup src).1 = .ok i → s.refs (deref i) < 65535
  | .call (.unlink path) => ∀ i, s.target path = some i → s.isDirectory i = true → s.listing i = []

namespace Charted

variable (h : s.Charted)
include h

theorem uncached : ({ s with dcache := DentryCache.init } : FS).Charted :=
  ⟨h.order.cached _, fun _ _ hq => by cases hq⟩

theorem transparent : s.Transparent := by
  intro path
  rw [(h.lookup path path.2.1).1, (h.uncached.lookup path path.2.1).1]
  exact (walk_cached _ _ _).symm

theorem created {path : Path} {mode : Nat} {result : Except RetCode Nat}
    (hlen : path.back.length ≤ 255) (hmode : isReg mode = true ∨ isDir mode = true)
    (hserved : s.groups.hasFree .inode = true) (hc : s.inodeCreate path mode = some (result, s'))
    (hle : s'.groups.groupCount ≤ 33) : s'.Charted := by
  have hord := h.order.created hlen hmode hserved hc hle
  have hent := (h.order.tidy.created hlen hc hle).2
  rcases inodeCreate_cases h.order.tidy.clean h.order.tidy.root hc hle with ⟨c, e, hlooked,
    rfl, -⟩ |
    ⟨parent, c, i, g, hlook, -, -, -, -, -, -, -, -, hadd⟩
  · exact h.looked hlooked
  · exact hent.charted (h.looked (Looked.start.of_eq hlook)) hord hadd.dcache

theorem linked {src dst : Path} (hlen : dst.back.length ≤ 255)
    (hroom : ∀ i, (s.inodeLookup src).1 = .ok i → s.refs (deref i) < 65535)
    (hl : s.inodeLink src dst = some (r, s')) (hle : s'.groups.groupCount ≤ 33) : s'.Charted := by
  have hord := h.order.linkedTo hlen hroom hl hle
  have hent := (h.order.tidy.linked hlen hl hle).2
  rcases inodeLink_cases h.order.tidy.clean h.order.tidy.root hl hle with ⟨c, hlooked, rfl, -⟩ |
    ⟨index, parent, c, c', t, hsrc, -, hlook, -, -, -, -, -, -, -, hadd, rfl⟩
  · exact h.looked hlooked
  · exact hent.charted (h.looked ((Looked.start.of_eq hsrc).of_eq hlook)) hord hadd.dcache

theorem unlinked {fuel : Nat} {path : Path}
    (hempty : ∀ i, s.target path = some i → s.isDirectory i = true → s.listing i = [])
    (hu : s.inodeUnlink fuel path = some (r, s')) : s'.Charted := by
  have henc : ∀ i, s.target path = some i → (s.inodes i).iLinksCount = 1 → s.Enclosed i := by
    intro i hi _ j hreach hji
    rcases Relation.ReflTransGen.cases_head hreach with hij | ⟨x, ⟨ha, -, hdir, e, he, hl, -⟩, -⟩
    · exact absurd hij.symm hji
    · rw [dead_of_listing (hempty i hi (isDirectory_iff.mpr ⟨ha, hdir⟩)) e he] at hl
      cases hl
  have hlinked := h.order.linked.unlinked henc hu
  have htidy := (h.order.tidy.unlinked hu).1
  rcases h.order.unlink_cases hempty hu with ⟨c, hlooked, rfl, -⟩ | ⟨parent, c, i, hlook,
    hne, -, hun⟩
  · exact h.looked hlooked
  have hord := hun.orderly h.order hlinked htidy
  have hc := h.looked (Looked.start.of_eq hlook)
  have hvalid : path.parent.valid = true := by
    by_contra hv
    simp [inodeLookup, Bool.eq_false_iff.mpr hv] at hlook
  have hP := path.parent.nonempty hvalid
  have hparent : s.walk rootInode path.parent.names = .ok (deref parent) := by
    rw [← (h.lookup _ hvalid).1, hlook, deref_allocated h.order.books]
    have hw := (h.lookup _ hvalid).1
    rw [hlook] at hw
    exact h.order.walk_allocated h.order.tidy.root hP hw.symm
  refine ⟨hord, fun q k hq => ?_⟩
  rw [hun.dcache, DentryCache.drop_map, NodeMap.remove] at hq
  split at hq
  · cases hq
  · obtain ⟨hqne, hw⟩ := hc.cache q k hq
    rw [walk_cached] at hw
    exact ⟨hqne, hun.walk_keep h.order hord hP hparent (l := []) List.not_mem_nil hqne rfl ‹_› hw⟩

theorem step {fuel : Nat} {op : NameOp}
    (hop : s.Ordinary op ∧ Runs.Leaves (nameStep fuel) Modest s op)
    (hstep : nameStep fuel s op = some s') :
    s'.Charted := by
  have hle := (hop.2 s' hstep).groups
  match op with
  | .lookup path =>
    cases hstep
    exact (h.lookup path path.2.1).2
  | .call (.create path mode) =>
    obtain ⟨⟨r, t⟩, heq, rfl⟩ := Option.map_eq_some_iff.mp hstep
    refine h.created (Path.back_short path) hop.1.1 ?_ heq hle
    exact (h.order.books.ledger.hasFree_iff .inode).mpr ⟨0, h.order.books.ledger.pos, hop.1.2⟩
  | .call (.link src dst) =>
    obtain ⟨⟨r, t⟩, heq, rfl⟩ := Option.map_eq_some_iff.mp hstep
    exact h.linked (Path.back_short dst) hop.1 heq hle
  | .call (.unlink path) =>
    obtain ⟨⟨r, t⟩, heq, rfl⟩ := Option.map_eq_some_iff.mp hstep
    exact h.unlinked hop.1 heq

end Charted

theorem format_listing (d : Nat) : format.listing d = [] := by
  unfold listing entries
  rw [format_iBlock]
  rfl

theorem Charted.format : FS.format.Charted where
  order := {
    linked := Linked.format
    tidy := Tidy.format
    counted i hi hr := absurd ((format_allocated i).mp hi) hr
    plain i _ _ := format_iBlock i
    tree c d d' n n' _ _ _ hin := by
      rw [format_listing] at hin
      cases hin }
  cache _ _ hq := by cases hq

/-- While the block groups can be counted and the blocks can be cached, the dentry cache
changes no lookup. -/
theorem lookup_transparent (fuel : Nat) (ops : List NameOp)
    (h : Runs.Guarded (nameStep fuel) (fun s op => s.Ordinary op ∧
      Runs.Leaves (nameStep fuel) Modest s op) ops FS.format) :
    Runs.Along (nameStep fuel) (fun s => s.Transparent ∧ s.Served) ops FS.format :=
  Runs.along_of_guarded
    (fun s (hs : s.Charted ∧ s.Cacheable) => ⟨hs.1.transparent, hs.2.served hs.1.order.tidy.clean⟩)
    (fun _ _ _ hs hop hstep => ⟨hs.1.step hop hstep, (hop.2 _ hstep).blocks⟩) ops
      _ ⟨Charted.format, by decide⟩ h

theorem lookup_transparent_links :
    Runs.Along (nameStep 1) (fun s => s.Transparent ∧ s.Served)
      [.call (.create ⟨.of [[102]], by decide, by decide⟩ sIfreg),
        .lookup ⟨.of [[102]], by decide, by decide⟩,
        .call (.unlink ⟨.of [[102]], by decide, by decide⟩)] FS.format := by
  refine lookup_transparent 1 _ (Runs.guarded_cons rfl ⟨⟨Or.inl rfl, by decide⟩, by decide⟩
    (Runs.guarded_cons rfl ⟨trivial, by decide⟩
    (Runs.guarded_cons rfl ⟨fun i hi hd => ?_, by decide⟩ trivial)))
  cases (show some 1 = some i from hi)
  exact absurd hd (by decide)

end FS
end NaiveFS
