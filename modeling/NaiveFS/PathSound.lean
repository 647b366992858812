import NaiveFS.Outline

/-!
# Paths through files

`inode_lookup` checks that an inode is a directory except before the last component,
so the last component is searched in whatever the path before it leads to. In a
regular file the search reads the contents as directory entries.
-/

namespace NaiveFS

namespace FS

open Groups

variable {s s' u : FS} {d i j k : Nat} {name : Name} {g : Groups} {q : List Name}

/-! ## Walks, step by step -/

theorem walk_cons_dir {elem : Name} {m : Nat} (hd : isDir (s.inodes (deref j)).iMode = true)
    (hs : s.search (deref j) elem = some m) (l : List Name) :
    s.walk j (elem :: l) = s.walk m l := by
  rw [walk, if_neg (by simp [hd]), hs]

theorem walk_take :
    ∀ {q : List Name} {j : Nat}, s.walk j q = .ok i →
    ∀ k < q.length, ∃ d m, s.walk j (q.take k) = .ok d ∧
    s.walk j (q.take (k + 1)) = .ok m ∧ s.search (deref d) (q.getD k []) = some m ∧
    (k + 1 < q.length → isDir (s.inodes (deref d)).iMode = true) := by
  intro q
  induction q with
  | nil => exact fun _ k hk => absurd hk (Nat.not_lt_zero k)
  | cons elem rest ih =>
    intro j hw k hk
    rw [walk] at hw
    split at hw
    · cases hw
    · rename_i hcond
      cases hs : s.search (deref j) elem with
      | none =>
        rw [hs] at hw
        cases hw
      | some m =>
        simp only [hs] at hw
        cases k with
        | zero =>
          refine ⟨j, m, rfl, by simp [walk, hs], hs, fun hlen => ?_⟩
          have hne : rest ≠ [] := by
            rintro rfl
            simp at hlen
          simpa [hne] using hcond
        | succ k =>
          have hlt : k < rest.length := Nat.lt_of_succ_lt_succ hk
          have hdir : isDir (s.inodes (deref j)).iMode = true := by
            have hne : rest ≠ [] := List.ne_nil_of_length_pos (Nat.zero_lt_of_lt hlt)
            simpa [hne] using hcond
          obtain ⟨d, m', h₁, h₂, h₃, h₄⟩ := ih hw k hlt
          refine ⟨d, m', ?_, ?_, h₃, fun hlen => h₄ (Nat.lt_of_succ_lt_succ hlen)⟩
          · rw [List.take_succ_cons, walk_cons_dir hdir hs]
            exact h₁
          · rw [List.take_succ_cons, walk_cons_dir hdir hs]
            exact h₂

/-- The walk gets through directories to what is not one, and `Q` holds of that and the
last component. -/
def Strays (s : FS) (Q : Nat → Name → Prop) (j : Nat) (q : List Name) : Prop :=
  ∃ l x f, q = l ++ [x] ∧ (∀ k < l.length, ∃ d, s.walk j (l.take k) = .ok d ∧
    isDir (s.inodes (deref d)).iMode = true) ∧
    s.walk j l = .ok f ∧ isDir (s.inodes (deref f)).iMode = false ∧ Q (deref f) x

section
variable {Q Q' : Nat → Name → Prop}

theorem Strays.mono (hQ : ∀ f x, Q f x → Q' f x) (h : s.Strays Q j q) : s.Strays Q' j q := by
  obtain ⟨l, x, f, hq, hdirs, hw, hf, hx⟩ := h
  exact ⟨l, x, f, hq, hdirs, hw, hf, hQ _ _ hx⟩

theorem not_strays_nil : ¬ s.Strays Q j [] := by
  rintro ⟨l, x, f, hq, -⟩
  simp at hq

theorem strays_cached (c : DentryCache) :
    ({ s with dcache := c } : FS).Strays Q j q ↔ s.Strays Q j q := by
  unfold Strays
  simp only [walk_cached]

theorem strays_last {x : Name} :
    s.Strays Q j [x] ↔ isDir (s.inodes (deref j)).iMode = false ∧ Q (deref j) x := by
  constructor
  · rintro ⟨l, y, f, hq, -, hw, hf, hx⟩
    cases l with
    | nil =>
      cases hq
      cases hw
      exact ⟨hf, hx⟩
    | cons a l => simp at hq
  · rintro ⟨hf, hx⟩
    exact ⟨[], x, j, rfl, fun k hk => absurd hk (Nat.not_lt_zero k), rfl, hf, hx⟩

theorem strays_cons {elem elem' : Name} {rest : List Name} : s.Strays Q j (elem :: elem' :: rest) ↔
    isDir (s.inodes (deref j)).iMode = true ∧ ∃ k, s.search (deref j) elem = some k ∧
      s.Strays Q k (elem' :: rest) := by
  constructor
  · rintro ⟨l, x, f, hq, hdirs, hw, hf, hx⟩
    cases l with
    | nil => simp at hq
    | cons a l =>
      obtain ⟨rfl, hrest⟩ := List.cons.inj hq
      obtain ⟨d, hd, hdir⟩ := hdirs 0 (Nat.zero_lt_succ _)
      cases hd
      refine ⟨hdir, ?_⟩
      cases hs : s.search (deref j) elem with
      | none =>
        rw [walk, if_neg (by simp [hdir]), hs] at hw
        cases hw
      | some k =>
        rw [walk_cons_dir hdir hs] at hw
        refine ⟨k, rfl, l, x, f, hrest, fun n hn => ?_, hw, hf, hx⟩
        have := hdirs (n + 1) (Nat.succ_lt_succ hn)
        rwa [List.take_succ_cons, walk_cons_dir hdir hs] at this
  · rintro ⟨hdir, k, hs, l, x, f, hq, hdirs, hw, hf, hx⟩
    refine ⟨elem :: l, x, f, by rw [hq, List.cons_append], fun n hn => ?_, ?_, hf, hx⟩
    · cases n with
      | zero => exact ⟨j, rfl, hdir⟩
      | succ n =>
        rw [List.take_succ_cons, walk_cons_dir hdir hs]
        exact hdirs n (Nat.lt_of_succ_lt_succ hn)
    · rw [walk_cons_dir hdir hs]
      exact hw

end

/-- The search for a name finds an inode. -/
def Finds (s : FS) (f : Nat) (x : Name) : Prop := ∃ i, s.search f x = some i

theorem sealed_of_not_strays :
    ∀ {q : List Name} {j : Nat}, ¬ s.Strays s.Finds j q → s.Sealed j q := by
  intro q
  induction q with
  | nil => exact fun _ => trivial
  | cons elem rest ih =>
    intro j h
    cases rest with
    | nil =>
      by_cases hd : isDir (s.inodes (deref j)).iMode = true
      · exact Or.inl hd
      · refine Or.inr ?_
        cases hs : s.search (deref j) elem with
        | none => rfl
        | some i => exact absurd (strays_last.mpr ⟨Bool.eq_false_iff.mpr hd, i, hs⟩) h
    | cons elem' rest =>
      exact fun hd m hs => ih fun hstray => h (strays_cons.mpr ⟨hd, m, hs, hstray⟩)

theorem Strays.walk :
    ∀ {q : List Name} {j : Nat}, s.Strays s.Finds j q → ∃ i, s.walk j q = .ok i := by
  intro q
  induction q with
  | nil => exact fun h => absurd h not_strays_nil
  | cons elem rest ih =>
    intro j h
    cases rest with
    | nil =>
      obtain ⟨-, i, hi⟩ := strays_last.mp h
      refine ⟨i, ?_⟩
      rw [FS.walk, if_neg (by simp), hi]
      rfl
    | cons elem' rest =>
      obtain ⟨hd, m, hs, h⟩ := strays_cons.mp h
      rw [walk_cons_dir hd hs]
      exact ih h

/-! ## Inodes without a block group -/

theorem searchFaults_dir (h : s.outline.Charted) (ha : s.groups.allocated .inode d = true)
    (hd : isDir (s.inodes d).iMode = true) (hname : name ≠ []) : s.searchFaults d name = false := by
  refine visitFrom_inv (P := fun fault => fault =
    false) _ 0 false false (fun b hb fault hfault => ?_) rfl
  split
  · exact hfault
  · rename_i e he
    have hdir : s.outline.isDirectory d = true :=
      (outline_isDirectory s d).trans (isDirectory_iff.mpr ⟨ha, hd⟩)
    have hin : maskDentry e ∈ s.outline.dirEntries d := by
      refine mem_dirEntries.mpr ⟨hdir, ?_⟩
      rw [outline_entries hd]
      exact List.mem_map_of_mem (List.mem_flatMap.mpr ⟨b, hb, List.mem_of_find?_eq_some he⟩)
    have hlive : e.live = true := Dentry.live_of_hasName hname (List.find?_some he)
    have hia : s.groups.allocated .inode e.inode = true :=
      (h.order.linked.graph.named d _ hin hlive).1
    simp [hfault, present_of_allocated hia]

/-- A lookup asks for an inode without a block group exactly if it searches a file that
has an entry for one. -/
theorem accessesFrom_faults :
    ∀ {rest link : List Name} {index inode : Nat} {hit : Bool} {s : FS}, s.outline.Charted →
    [] ∉ link →
    [] ∉ rest → s.outline.walk rootInode link = .ok index → (hit = false → inode = index) →
    ((accessesFrom link index inode hit rest s).any (Access.faults s) = true ↔
      s.Strays (fun f x => s.searchFaults f x = true) index rest) := by
  intro rest
  induction rest with
  | nil =>
    intro link index inode hit s _ _ _ _ _
    exact ⟨(by cases ·), fun hs => absurd hs not_strays_nil⟩
  | cons elem rest ih =>
    intro link index inode hit s h hlink hne hw hinode
    have hname : elem ≠ [] := fun hc => hne (hc ▸ List.mem_cons_self)
    have hrest : [] ∉ rest := fun hc => hne (List.mem_cons_of_mem _ hc)
    have hlink' : [] ∉ link ++ [elem] := by simp [hlink, Ne.symm hname]
    have hia := h.order.walk_allocated h.order.tidy.root hlink hw
    have hderef := deref_allocated (s := s) h.order.books hia
    have hget := getInode_of_allocated (g := s.groups) h.order.books hia
    -- a component found in a directory
    have hdown : ∀ {i}, (elem, i) ∈ s.outline.listing index → isDir (s.inodes index).iMode = true ∧
      s.search index elem = some i ∧
        s.groups.allocated .inode i = true ∧ s.outline.walk rootInode (link ++ [elem]) = .ok i ∧
        (s.Strays (fun f x => s.searchFaults f x = true) index (elem :: rest) ↔
          s.Strays (fun f x => s.searchFaults f x = true) i rest) := by
      intro i hin
      obtain ⟨hdir, hia', -⟩ := h.order.of_listing hia hin
      have hd : isDir (s.inodes index).iMode = true := by simpa using (isDirectory_iff.mp hdir).2
      have hs : s.search index elem = some i := by
        rw [← outline_search_dir hd]
        exact (h.order.search_iff hia hname).mpr hin
      refine ⟨hd, hs, hia', ?_, ?_⟩
      · exact (h.order.walk_append_ok h.order.tidy.root hlink).mpr ⟨index, hw,
          (h.order.walk_cons_ok hia hname).mpr ⟨i, hin, rfl⟩⟩
      · cases rest with
        | nil => simp [strays_last, not_strays_nil, hderef, hd]
        | cons elem' rest => simp [strays_cons, hderef, hd, hs]
    unfold accessesFrom
    rw [cache_lookup hname]
    cases hc : s.dcache (link ++ [elem]) with
    | some i =>
      obtain ⟨-, hwalk⟩ := h.cache _ _ hc
      obtain ⟨k, hk, hlast⟩ := (h.order.walk_append_ok h.order.tidy.root hlink).mp hwalk
      cases hw.symm.trans hk
      obtain ⟨k, hin, hki⟩ := (h.order.walk_cons_ok hia hname).mp hlast
      cases hki
      obtain ⟨-, -, hia', hstep, hiff⟩ := hdown hin
      rw [hiff]
      cases rest with
      | nil => simp [not_strays_nil, Access.faults, present_of_allocated hia']
      | cons elem' rest =>
        rw [← strays_cached (s.dcache.enter link elem)]
        exact @ih (link ++ [elem]) i inode true { s with dcache := s.dcache.enter link elem }
          (h.enter link elem) hlink' hrest
          (by rw [← hstep]; exact walk_cached (s := s.outline) _ _ _) (by simp)
    | none =>
      have hptr : (if hit = true then s.groups.getInode index else some inode) = some index := by
        cases hit with
        | true => rw [if_pos rfl, hget]
        | false => rw [if_neg Bool.false_ne_true, hinode rfl]
      have hfirst : (if hit = true then [Access.inode index] else []).any (Access.faults s) =
        false := by
        have hpresent : s.groups.present index = true := present_of_allocated hia
        cases hit <;> simp [Access.faults, hpresent]
      rw [List.any_append, hfirst, Bool.false_or, hptr]
      by_cases hd : isDir (s.inodes index).iMode = true
      · have hsafe : s.searchFaults index elem = false := searchFaults_dir h hia hd hname
        simp only [hd, Bool.not_true, Bool.and_false, Bool.false_eq_true, if_false, List.any_cons,
          Access.faults, hsafe, Bool.false_or]
        cases hs : s.search index elem with
        | none =>
          cases rest with
          | nil => simp [strays_last, hderef, hd]
          | cons elem' rest => simp [strays_cons, hderef, hs]
        | some i =>
          have hin : (elem, i) ∈ s.outline.listing index := by
            rw [← h.order.search_iff hia hname, outline_search_dir hd]
            exact hs
          obtain ⟨-, -, hia', hstep, hiff⟩ := hdown hin
          rw [hiff, ← strays_cached ((s.dcache.enter link elem).insert link elem i)]
          simp only [getInode_of_allocated (g := s.groups) h.order.books hia', Option.getD_some]
          exact @ih (link ++ [elem]) i i false
            { s with dcache := (s.dcache.enter link elem).insert link elem i }
            ((h.enter link elem).insert hlink'
              (by rw [← hstep]; exact walk_cached (s := s.outline) _ _ _)) hlink' hrest
            (by rw [← hstep]; exact walk_cached (s := s.outline) _ _ _) fun _ => rfl
      · -- only the last component is searched in a file
        have hd := Bool.eq_false_iff.mpr hd
        cases rest with
        | nil =>
          simp only [List.isEmpty_nil, Bool.not_true, Bool.false_and, Bool.false_eq_true, if_false,
            List.any_cons, Access.faults, strays_last, hderef, hd, true_and]
          cases s.search index elem <;> simp [accessesFrom]
        | cons elem' rest => simp [strays_cons, hderef, hd]

theorem lookup_faults (h : s.outline.Charted) (path : Path) (hv : path.valid = true) :
    s.lookupFaults path = true ↔
    s.Strays (fun f x => s.searchFaults f x = true) rootInode path.names := by
  unfold lookupFaults accesses
  rw [if_pos hv]
  exact accessesFrom_faults h List.not_mem_nil (path.nonempty hv) rfl fun _ => rfl

/-! ## What a lookup may follow -/

theorem lookup_grows {p : Path} (hv : p.valid = true) (hq : s.dcache q = some k) :
    (s.inodeLookup p).2.dcache q = some k := by
  rw [inodeLookup, if_neg (by simpa using hv)]
  exact lookupFrom_grows (p.nonempty hv) rfl hq

/-- The first `k` components. -/
def Path.upTo (p : Path) (k : Nat) : Path where
  valid := p.valid
  names := p.names.take k
  nonempty h hm := p.nonempty h (List.mem_of_mem_take hm)

/-- A lookup returns; one that succeeds follows live entries of directories; one that gets
to something else fails, and adds nothing to the dentry cache below it. -/
structure ThroughDirectories (s : FS) (p : Path) : Prop where
  returns : s.lookupFaults p = false
  followed : ∀ i, (s.inodeLookup p).1 = .ok i → ∀ k < p.names.length, ∃ d j,
    (s.inodeLookup (Path.upTo p k)).1 = .ok d ∧
    isDir (s.inodes (deref d)).iMode = true ∧ (s.inodeLookup (Path.upTo p (k + 1))).1 = .ok j ∧
    ∃ e ∈ s.entries (deref d), e.live = true ∧ e.hasName (p.names.getD k []) = true ∧ e.inode = j
  barred : ∀ k < p.names.length, ∀ f, (s.inodeLookup (Path.upTo p k)).1 = .ok f →
    isDir (s.inodes (deref f)).iMode = false →
    (∃ r, (s.inodeLookup p).1 = .error r) ∧
      ∀ q, (Path.upTo p k).names <+: q → q ≠ (Path.upTo p k).names →
      (s.inodeLookup p).2.dcache q = s.dcache q

/-- The contents of a file hold an entry with this name, of an inode that is allocated or
that has no block group. -/
def Yields (s : FS) (f : Nat) (x : Name) : Prop := s.Finds f x ∨ s.searchFaults f x = true

/-- Through directories the path leads to what is not one, and there the last component
is met. -/
def Exposed (s : FS) (p : Path) : Prop :=
  p.names ≠ [] ∧ (∀ k, k + 1 < p.names.length →
    ∃ d, (s.inodeLookup (Path.upTo p k)).1 = .ok d ∧ isDir (s.inodes (deref d)).iMode = true) ∧
  ∃ f, (s.inodeLookup p.parent).1 = .ok f ∧ isDir (s.inodes (deref f)).iMode = false ∧
  s.Yields (deref f) p.back

/-- The invariant: the outline is in order. -/
structure Housed (s : FS) : Prop where
  clean : s.Clean s.groups
  charted : s.outline.Charted

namespace Housed

variable (h : s.Housed) {p : Path} (hv : p.valid = true)
include h hv

theorem lookup_upTo (k : Nat) :
    (s.inodeLookup (Path.upTo p k)).1 = s.walk rootInode (p.names.take k) :=
  lookup_walk h.charted (Path.upTo p k) hv

theorem exposed_iff : s.Exposed p ↔ s.Strays s.Yields rootInode p.names := by
  have hpar := lookup_walk h.charted p.parent hv
  constructor
  · rintro ⟨hne, hdirs, f, hf, hfile, hs⟩
    rw [hpar] at hf
    refine ⟨p.parent.names, p.back, f, Path.names_eq hne, fun k hk => ?_, hf, hfile, hs⟩
    have hlen : k + 1 < p.names.length := by
      rw [Path.names_eq hne, List.length_append]
      simpa using hk
    obtain ⟨d, hd, hdir⟩ := hdirs k hlen
    rw [h.lookup_upTo hv] at hd
    refine ⟨d, ?_, hdir⟩
    rw [← hd, Path.names_eq hne, List.take_append_of_le_length (Nat.le_of_lt hk)]
  · rintro ⟨l, x, f, hq, hdirs, hw, hfile, hs⟩
    have hne : p.names ≠ [] := by simp [hq]
    have hsplit := hq
    rw [Path.names_eq hne] at hsplit
    obtain ⟨rfl, hback⟩ := List.append_inj' hsplit rfl
    cases hback
    refine ⟨hne, fun k hk => ?_, f, by rw [hpar]; exact hw, hfile, hs⟩
    have hlt : k < p.parent.names.length := by
      rw [hq, List.length_append] at hk
      simpa using hk
    rw [h.lookup_upTo hv, hq, List.take_append_of_le_length (Nat.le_of_lt hlt)]
    exact hdirs k hlt

theorem sealed_of_shut (hexp : ¬ s.Exposed p) : s.Sealed rootInode p.names :=
  sealed_of_not_strays fun hc => hexp ((h.exposed_iff hv).mpr (hc.mono fun _ _ => Or.inl))

theorem walk_dirs (hexp : ¬ s.Exposed p) (hw : s.walk rootInode p.names = .ok i) :
    ∀ k < p.names.length,
    ∃ d m, s.walk rootInode (p.names.take k) = .ok d ∧
      s.walk rootInode (p.names.take (k + 1)) = .ok m ∧ isDir (s.inodes (deref d)).iMode = true ∧
      s.search (deref d) (p.names.getD k []) = some m := by
  intro k hk
  obtain ⟨d, m, hd, hm, hs, hdir⟩ := walk_take hw k hk
  refine ⟨d, m, hd, hm, ?_, hs⟩
  by_cases hlast : k + 1 < p.names.length
  · exact hdir hlast
  · -- the last component: if it is searched in a file, the path is exposed
    have hlen : k + 1 = p.names.length := Nat.le_antisymm hk (Nat.le_of_not_lt hlast)
    have hne : p.names ≠ [] := List.ne_nil_of_length_pos (by omega)
    have hsplit : p.names = p.names.take k ++ [p.names.getD k []] := by
      rw [List.getD_eq_getElem _ _ hk, List.take_append_getElem hk, hlen, List.take_length]
    by_contra hfile
    refine hexp ((h.exposed_iff hv).mpr ⟨_, _, d, hsplit, fun k' hk' => ?_, hd,
      Bool.eq_false_iff.mpr hfile, Or.inl ⟨m, hs⟩⟩)
    rw [List.length_take, Nat.min_eq_left (Nat.le_of_lt hk)] at hk'
    obtain ⟨d', m', hd', -, -, hdir'⟩ := walk_take hw k' (Nat.lt_trans hk' hk)
    rw [List.take_take, Nat.min_eq_left (Nat.le_of_lt hk')]
    exact ⟨d', hd', hdir' (by omega)⟩

theorem looked_charted (hexp : ¬ s.Exposed p) : (s.inodeLookup p).2.outline.Charted := by
  have := (h.charted.lookup p hv).2
  rwa [lookup_outline h.charted p fun _ => h.sealed_of_shut hv hexp] at this

theorem through_iff : s.ThroughDirectories p ↔ ¬ s.Exposed p := by
  have hlook := lookup_walk h.charted p hv
  constructor
  · intro ht hexp
    have hstray := (h.exposed_iff hv).mp hexp
    obtain ⟨hne, -, f, hf, hfile, -⟩ := hexp
    obtain ⟨j, hj⟩ : ∃ j, s.walk rootInode p.names = .ok j := by
      obtain ⟨l, x, f, hq, hdirs, hw, hfile, hfinds | hfaults⟩ := hstray
      · exact Strays.walk ⟨l, x, f, hq, hdirs, hw, hfile, hfinds⟩
      · have hreturns := ht.returns
        rw [(lookup_faults h.charted p hv).mpr ⟨l, x, f, hq, hdirs, hw, hfile, hfaults⟩] at hreturns
        cases hreturns
    have hpos := List.length_pos_iff.mpr hne
    have hparent : p.parent.names = p.names.take (p.names.length - 1) := List.dropLast_eq_take
    obtain ⟨⟨r, hr⟩, -⟩ := ht.barred (p.names.length - 1) (by omega) f (by
      rw [h.lookup_upTo hv, ← hparent, ← hf]
      exact (lookup_walk h.charted p.parent hv).symm) hfile
    rw [hlook, hj] at hr
    cases hr
  · intro hexp
    refine ⟨?_, fun i hi k hk => ?_, fun k hk f hf hfile => ?_⟩
    · rw [Bool.eq_false_iff, Ne, lookup_faults h.charted p hv]
      exact fun hc => hexp ((h.exposed_iff hv).mpr (hc.mono fun _ _ => Or.inr))
    · rw [hlook] at hi
      obtain ⟨d, m, hd, hm, hdir, hs⟩ := h.walk_dirs hv hexp hi k hk
      obtain ⟨e, he, hn, hem⟩ := search_hasName m hs
      have hne : p.names.getD k [] ≠ [] := by
        rw [List.getD_eq_getElem _ _ hk]
        exact fun hc => p.nonempty hv (hc ▸ List.getElem_mem hk)
      rw [h.lookup_upTo hv, h.lookup_upTo hv]
      exact ⟨d, m, hd, hdir, hm, e, he, Dentry.live_of_hasName hne hn, hn, hem⟩
    · rw [h.lookup_upTo hv] at hf
      refine ⟨?_, fun q hpre hqne => ?_⟩
      · cases hw : s.walk rootInode p.names with
        | error r => exact ⟨r, by rw [hlook, hw]⟩
        | ok i =>
          obtain ⟨d, m, hd, -, hdir, -⟩ := h.walk_dirs hv hexp hw k hk
          cases hf.symm.trans hd
          rw [hdir] at hfile
          cases hfile
      · cases hq : s.dcache q with
        | some v => exact lookup_grows hv hq
        | none =>
          cases ht : (s.inodeLookup p).2.dcache q with
          | none => rfl
          | some v =>
            -- what is cached now is reached through directories
            have hchart := h.looked_charted hv hexp
            obtain ⟨c, hc⟩ := inodeLookup_frame p s
            rw [hc] at hchart ht
            obtain ⟨hne, hw⟩ := hchart.cache q v ht
            obtain ⟨rest, rfl⟩ := hpre
            have hord := hchart.order
            have hk : [] ∉ (Path.upTo p k).names := fun hm => hne (List.mem_append_left _ hm)
            obtain ⟨d, hd, hrest⟩ := (hord.walk_append_ok hord.tidy.root hk).mp hw
            cases rest with
            | nil => simp at hqne
            | cons x rest =>
              have hx : x ≠ [] := fun hx => hne (by simp [hx])
              have hda := hord.walk_allocated hord.tidy.root hk hd
              obtain ⟨m, hm, -⟩ := (hord.walk_cons_ok hda hx).mp hrest
              have hdir := (isDirectory_iff.mp (hord.of_listing hda hm).1).2
              have hd' := walk_of_outline hd
              rw [walk_cached] at hd'
              cases hf.symm.trans hd'
              rw [deref_allocated hord.books hda] at hfile
              rw [outline_isDir, hfile] at hdir
              cases hdir

end Housed

/-! ## Runs -/

/-- Block `k` of a regular file, or else a new last block, gets the contents `text`.
Its entries are those that `DentryBlock` would find in it. -/
def writeBlock (i k : Nat) (text : List UInt8) (s : FS) : FS :=
  if !(s.groups.allocated .inode i && isReg (s.inodes i).iMode) then s
  else
    match (s.inodes i).iBlock[k]? with
    | some b => { s with dents := Function.update s.dents b (Mount.textDentries text blockSize 0) }
    | none =>
      match s.allocBlock i with
      | (none, s) => s
      | (some b, s) =>
        { s with dents := Function.update s.dents b (Mount.textDentries text blockSize 0) }

/-- The same for any inode and any entries. -/
def putBlock (i k : Nat) (es : List Dentry) (s : FS) : FS :=
  match (s.inodes i).iBlock[k]? with
  | some b => { s with dents := Function.update s.dents b es }
  | none =>
    match s.allocBlock i with
    | (none, s) => s
    | (some b, s) => { s with dents := Function.update s.dents b es }

theorem writeBlock_eq (i k : Nat) (text : List UInt8) (s : FS) : s.writeBlock i k text =
    if !(s.groups.allocated .inode i && isReg (s.inodes i).iMode) then s
    else s.putBlock i k (Mount.textDentries text blockSize 0) := rfl

theorem similar_rewritten {b : Nat} (hu : s.outline.Clean g)
    (ha : ∀ j, g.allocated .inode j = s.groups.allocated .inode j)
    (hb : ∀ j, s.groups.allocated .inode j = true → isDir (s.inodes j).iMode = true →
      b ∉ (s.inodes j).iBlock)
    (es : List Dentry) :
    Similar s.outline
      { s.outline with groups := g, dents := Function.update s.outline.dents b es } := by
  refine ⟨fun _ _ => rfl, fun _ _ => rfl, fun _ _ => rfl, rfl, ha, fun j hj c hc => ?_,
    ⟨hu.books, hu.owned, hu.nodup⟩⟩
  refine Function.update_of_ne ?_ ..
  rintro rfl
  rw [outline_inodes] at hc
  by_cases hd : isDir (s.inodes j).iMode = true
  · rw [sketch_dir hd] at hc
    exact hb j hj hd hc
  · rw [sketch_file (Bool.eq_false_iff.mpr hd)] at hc
    cases hc

theorem sketch_addBlock {ino : ListInode} (h : isDir ino.iMode = false) (b : Nat) :
    sketch (addBlock ino b) = sketch ino := by
  simp [sketch, addBlock, h]

theorem Housed.putBlock {es : List Dentry} (h : s.Housed) (hi : s.groups.allocated .inode i = true)
    (hfile : isDir (s.inodes i).iMode = false) (hle : (s.putBlock i k es).groups.groupCount ≤ 33) :
    (s.putBlock i k es).Housed := by
  have hs := h.clean
  unfold FS.putBlock at hle ⊢
  cases hb : (s.inodes i).iBlock[k]? with
  | some b =>
    simp only
    refine ⟨⟨hs.books, hs.owned, hs.nodup⟩, ?_⟩
    have hsame :=
      (similar_rewritten (b := b) (outline_clean hs) (fun _ => rfl) (fun j hj hd hbj => ?_)
      (es.map maskDentry)).charted h.charted
    · unfold outline at hsame ⊢
      simp only at hsame ⊢
      rw [map_update_dents]
      exact hsame
    · have hji := hs.owned.unique j i b ⟨hj, hbj⟩ ⟨hi, List.mem_of_getElem? hb⟩
      rw [hji, hfile] at hd
      cases hd
  | none =>
    simp only [hb] at hle ⊢
    have hcount : (s.allocBlock i).2.groups.groupCount ≤ 33 := by
      generalize s.allocBlock i = q at hle
      obtain ⟨_ | b, t⟩ := q <;> exact hle
    obtain ⟨b, g, heq, hout⟩ := allocBlock_spec i hs.books hcount
    have hadd := Added.new (Dentry.make [] 0 0) hs hi hout
    have hclean :
      ({ s with groups := g, inodes := Function.update s.inodes i (addBlock (s.inodes i) b) } :
      FS).Clean g :=
      ⟨hadd.clean.books, hadd.clean.owned, hadd.clean.nodup⟩
    rw [heq]
    simp only [Function.update_idem]
    -- the file has its new block, of which nothing is left in the outline
    have houtline : ∀ dents,
      (FS.mk g (Function.update s.inodes i (addBlock (s.inodes i) b)) dents s.dcache).outline =
        { s.outline with groups := g, dents := fun b => (dents b).map maskDentry } := by
      intro dents
      rw [outline_update, sketch_addBlock hfile, ← outline_inodes, Function.update_eq_self]
      rfl
    refine ⟨⟨hclean.books, hclean.owned, hclean.nodup⟩, ?_⟩
    rw [houtline, map_update_dents]
    refine (similar_rewritten ?_ hout.inode (fun j hj _ hbj => ?_) _).charted h.charted
    · have := outline_clean hclean
      rw [houtline] at this
      exact ⟨this.books, this.owned, this.nodup⟩
    · have := hs.owned.allocated j b ⟨hj, hbj⟩
      rw [hout.fresh] at this
      cases this

inductive FileOp where
  | path (op : PathOp)
  | write (i k : Nat) (text : List UInt8)

def fileStep (fuel : Nat) (s : FS) : FileOp → Option FS
  | .path op => pathStep fuel s op
  | .write i k text => some (s.writeBlock i k text)

/-- The paths that are looked up. -/
def PathOp.paths : PathOp → List Path
  | .lookup path => [path]
  | .call (.create path _) => [path.parent]
  | .call (.link src dst) => [src, dst.parent]
  | .call (.unlink path) => [path.parent]

/-- The call is usual, none of its paths is exposed, and it stays within the caches. -/
structure CarefulStep (fuel : Nat) (s : FS) (op : FileOp) : Prop where
  usual : ∀ op', op = .path op' → s.Usual op' ∧ ∀ p ∈ op'.paths, p.valid = true → ¬ s.Exposed p
  rings : ∀ op', op = .path op' → s.RingSafe op'
  modest : Runs.Leaves (fileStep fuel) Modest s op

theorem Ringed.written {text : List UInt8} (h : s.Ringed) : (s.writeBlock i k text).Ringed := by
  unfold writeBlock
  split
  · exact h
  · split
    · exact LinkFS.ringed_text h _ text
    · have hblock := h.allocBlock i
      generalize s.allocBlock i = st at hblock
      obtain ⟨_ | b, t⟩ := st
      · exact hblock
      · exact LinkFS.ringed_text hblock b text

theorem Ringed.fileStep {fuel : Nat} {op : FileOp} (h : s.Ringed) (hop : CarefulStep fuel s op)
    (hstep : fileStep fuel s op = some s') : s'.Ringed := by
  cases op with
  | write i k text =>
    cases hstep
    exact h.written
  | path op => exact h.pathStep (hop.rings op rfl) hstep

theorem outline_refs (s : FS) (i : Nat) : s.outline.refs i = s.refs i := by
  refine Finset.sum_congr rfl fun d _ => ?_
  unfold dirEntries
  rw [outline_isDirectory]
  split
  · rename_i hd
    rw [outline_entries (isDirectory_iff.mp hd).2, Dentry.naming, List.countP_map]
    rfl
  · rfl

/-! ## Inodes without a name -/

theorem Charted.adopt (h : s.Charted) (hclean : s.Clean g)
    (hg : ∀ j, g.allocated .inode j = true ↔ s.groups.allocated .inode j = true ∨ j = i)
    (hfree : s.groups.allocated .inode i = false) (hreg : isReg (s.inodes i).iMode = true)
    (hblocks : (s.inodes i).iBlock = []) (hlinks : (s.inodes i).iLinksCount = 0) :
    ({ s with groups := g } : FS).Charted := by
  have hord := h.order
  have hgraph := hord.linked.graph
  have hfile := not_isDir_of_isReg hreg
  have hdir : ∀ d, ({ s with groups := g } : FS).isDirectory d = s.isDirectory d := by
    intro d
    rw [Bool.eq_iff_iff, isDirectory_iff, isDirectory_iff, hg]
    constructor
    · rintro ⟨hd | rfl, hm⟩
      · exact ⟨hd, hm⟩
      · rw [hfile] at hm
        cases hm
    · exact fun hd => ⟨Or.inl hd.1, hd.2⟩
  have hdirEntries : ∀ d, ({ s with groups := g } : FS).dirEntries d = s.dirEntries d := by
    intro d
    unfold dirEntries
    rw [hdir]
    rfl
  have hrefs := refs_congr hdirEntries
  have hnone : s.refs i = 0 := by
    refine refs_eq_zero fun d e he hl hei => ?_
    have := (hgraph.named d e he hl).1
    rw [hei, hfree] at this
    cases this
  have hempty : s.entries i = [] := by rw [entries, hblocks, List.flatMap_nil]
  have hclean : ({ s with groups := g } : FS).Clean g := ⟨hclean.books, hclean.owned, hclean.nodup⟩
  have horder : ({ s with groups := g } : FS).Orderly := by
    refine ⟨⟨⟨hclean, ?_, ?_, ?_, ?_⟩, ?_, ?_⟩,
      ⟨hclean, (hg _).mpr (Or.inl hord.tidy.root), ?_, ?_⟩, ?_, ?_, ?_⟩
    · rw [hdir]
      exact hgraph.root
    · intro j hj
      rcases (hg j).mp hj with hj | rfl
      · exact hgraph.kind j hj
      · exact Or.inl hreg
    · intro d e he hl
      rw [hdirEntries] at he
      obtain ⟨ha, hr⟩ := hgraph.named d e he hl
      exact ⟨(hg _).mpr (Or.inl ha), hr⟩
    · obtain ⟨rank, hrank⟩ := hgraph.ranked
      refine ⟨rank, fun d e he hl hd => ?_⟩
      rw [hdirEntries] at he
      rw [hdir] at hd
      exact hrank d e he hl hd
    · intro j hj
      rw [hrefs]
      rcases (hg j).mp hj with hj | rfl
      · exact hord.linked.count j hj
      · rw [hnone]
        exact Nat.zero_le _
    · intro j hj
      rcases (hg j).mp hj with hj | rfl
      · exact hord.linked.bound j hj
      · rw [hlinks]
        decide
    · intro j hj e he
      rcases (hg j).mp hj with hj | rfl
      · exact hord.tidy.whole j hj e he
      · rw [show ({ s with groups := g } : FS).entries j = s.entries j from rfl, hempty] at he
        cases he
    · intro j hj
      rcases (hg j).mp hj with hj | rfl
      · exact hord.tidy.distinct j hj
      · rw [show ({ s with groups := g } : FS).listed j = s.listed j from rfl, listed,
          listing, hempty]
        exact List.nodup_nil
    · intro j hj hr
      rw [hrefs]
      rcases (hg j).mp hj with hj | rfl
      · exact hord.counted j hj hr
      · rw [hnone]
        exact hlinks
    · intro j hj hd
      rcases (hg j).mp hj with hj | rfl
      · exact hord.plain j hj hd
      · exact hblocks
    · intro c d d' n n' hc hd hd' hin hin'
      rw [hdir] at hc hd hd'
      exact hord.tree c d d' n n' hc hd hd' hin hin'
  refine ⟨horder, fun q k hq => ?_⟩
  obtain ⟨hne, hw⟩ := h.cache q k hq
  refine ⟨hne, walk_mono hord horder (fun d hd => ?_) hord.tidy.root hne hw⟩
  rw [hdir]
  exact ⟨hd, fun _ he => he⟩

theorem inodeDelete_refused {fuel : Nat} (hr : i ≠ rootInode) (hget : g.getInode i = some i)
    (hreg : isReg (s.inodes i).iMode = false) (hdir : isDir (s.inodes i).iMode = false) :
    s.inodeDelete (fuel + 1) i g = some (.notFound, g) := by
  rw [inodeDelete, if_neg hr, hget]
  simp [hreg, hdir]

namespace Housed

variable {path src dst : Path} {r : RetCode} {fuel : Nat} (h : s.Housed)
include h

theorem root : s.groups.allocated .inode rootInode = true := h.charted.order.tidy.root

theorem cached {c : DentryCache} (hchart : ({ s with dcache := c } : FS).outline.Charted) :
    ({ s with dcache := c } : FS).Housed :=
  ⟨⟨h.clean.books, h.clean.owned, h.clean.nodup⟩, hchart⟩

theorem looked_shut (hshut : path.valid = true → ¬ s.Exposed path) :
    (s.inodeLookup path).2.Housed := by
  by_cases hv : path.valid = true
  · have hchart := h.looked_charted hv (hshut hv)
    obtain ⟨c, hc⟩ := inodeLookup_frame path s
    rw [hc] at hchart ⊢
    exact h.cached hchart
  · rw [inodeLookup, if_pos (by simpa using hv)]
    exact h

theorem created {mode : Nat} {res : Except RetCode Nat}
    (hseal : path.valid = true → s.Sealed rootInode path.parent.names)
    (hlen : path.back.length ≤ 255) (hfree : s.groups.hasFree .inode = true)
    (hc : s.inodeCreate path mode = some (res, s')) (hle : s'.groups.groupCount ≤ 33) :
    s'.Housed := by
  have hkind : isReg (maskMode mode) = true ∨ isDir (maskMode mode) = true := by
    rw [isReg_maskMode, isDir_maskMode]
    cases isDir mode <;> simp
  refine ⟨?_, h.charted.created hlen hkind hfree (outline_inodeCreate h.charted hseal hc hle) hle⟩
  rcases inodeCreate_cases h.clean h.root hc hle with ⟨c, e, -, rfl, -⟩ | ⟨_, _, _, _, -, -, -, -,
    -, -, -, -, -, hadd⟩
  · exact ⟨h.clean.books, h.clean.owned, h.clean.nodup⟩
  · exact hadd.clean

theorem linked_sealed (hsrc : src.valid = true → s.Sealed rootInode src.names)
    (hdst : dst.valid = true → s.Sealed rootInode dst.parent.names) (hlen : dst.back.length ≤ 255)
    (hroom : ∀ i, (s.inodeLookup src).1 = .ok i → s.refs (deref i) < 65535)
    (hl : s.inodeLink src dst = some (r, s')) (hle : s'.groups.groupCount ≤ 33) :
    s'.Housed ∧ s.outline.inodeLink src dst = some (r, s'.outline) := by
  have houtline := outline_inodeLink h.charted hsrc hdst hl
  refine ⟨⟨?_, h.charted.linked hlen (fun i hi => ?_) houtline hle⟩, houtline⟩
  · rcases inodeLink_cases h.clean h.root hl hle with ⟨c, -, rfl, -⟩ | ⟨_, _, _, _, t, -, -, -, -,
      -, -, -, -, -, -, hadd, rfl⟩
    · exact ⟨h.clean.books, h.clean.owned, h.clean.nodup⟩
    · exact hadd.clean.setLinks _ _
  · rw [lookup_outline h.charted src hsrc] at hi
    rw [outline_refs]
    exact hroom i hi

section
variable (hseal : path.valid = true → s.Sealed rootInode path.parent.names)
  (hempty : ∀ i, s.target path = some i → s.isDirectory i = true → s.listing i = [])
include hseal hempty

theorem target_empty :
    ∀ i, s.outline.target path = some i → s.outline.isDirectory i = true →
      s.outline.listing i = [] := by
  intro i hi hd
  rw [outline_target h.charted hseal] at hi
  rw [outline_isDirectory] at hd
  rw [outline_listing hd]
  exact hempty i hi hd

theorem unlinked_sealed (hfree : ∀ i, s.target path = some i → ¬ s.Stuck i)
    (hu : s.inodeUnlink fuel path = some (r, s')) :
    s'.Housed ∧ ∃ g, s.outline.inodeUnlink fuel path = some (r, { s'.outline with groups := g }) ∧
      ∀ j, g.allocated .inode j = s'.groups.allocated .inode j := by
  have hclean := h.clean.unlinked h.root hu
  obtain ⟨g, houtline, hsame⟩ := outline_inodeUnlink h.charted hseal h.clean hfree hempty hu
  have hchart := h.charted.unlinked (h.target_empty hseal hempty) houtline
  refine ⟨⟨hclean, Similar.charted (s := { s'.outline with groups := g }) ?_ hchart⟩, g,
    houtline, hsame⟩
  exact ⟨fun _ _ => rfl, fun _ _ => rfl, fun _ _ => rfl, rfl, fun j => (hsame j).symm,
    fun _ _ _ _ => rfl, outline_clean hclean⟩

/-- The last name of a symbolic link is removed: the link stays behind without a name. -/
theorem orphaned (hi : s.target path = some i) (hstuck : s.Stuck i)
    (hu : s.inodeUnlink fuel path = some (r, s')) : s'.Housed := by
  obtain ⟨ha, hr⟩ := allocated_of_target h.charted hseal hi
  have hget := getInode_of_allocated h.clean.books ha
  rw [Stuck, deref_of_getInode hget] at hstuck
  obtain ⟨hlast, hkind⟩ := hstuck
  obtain ⟨hreg, hdir⟩ := hkind.resolve_left hr
  have hclean := h.clean.unlinked h.root hu
  rcases outline_unlink_cases h.charted hseal fuel with ⟨r', c, heq, heq'⟩ | ⟨j, dents, c, hj,
    heq, heq', -⟩
  · cases heq.symm.trans hu
    exact ⟨hclean, h.charted.unlinked (h.target_empty hseal hempty) heq'⟩
  cases hi.symm.trans hj
  rw [heq, dropLink_last (s := FS.mk s.groups s.inodes dents c) hget hlast] at hu
  cases fuel with
  | zero => cases hu
  | succ fuel =>
    -- the link is still there, a file would be gone
    have hleft : s' = (FS.mk s.groups s.inodes dents c).setLinks i 0 := by
      rw [inodeDelete_refused hr hget (by rw [setLinks_iMode]; exact hreg)
        (by rw [setLinks_iMode]; exact hdir)] at hu
      cases hu
      rfl
    subst hleft
    obtain ⟨g', hdel, hafter⟩ :=
      outline_delete (s := (FS.mk s.groups s.inodes dents c).setLinks i 0) fuel h.clean.books ha hr
      (by rw [setLinks_iMode, hdir]; simp)
    have hlinks : ((FS.mk s.groups s.inodes dents c).outline.inodes i).iLinksCount =
      (s.inodes i).iLinksCount := sketch_iLinksCount _
    rw [dropLink_last (s := (FS.mk s.groups s.inodes dents c).outline) hget
      (by rw [hlinks]; exact hlast), ← outline_setLinks, outline_groups, hdel,
      Option.map_some] at heq'
    have hgone := h.charted.unlinked (h.target_empty hseal hempty) heq'
    have halloc : ∀ j, s.groups.allocated .inode j = true ↔ g'.allocated .inode j = true ∨
      j = i := by
      intro j
      rw [hafter]
      by_cases hji : j = i
      · simp [hji, ha]
      · simp [hji]
    have houtline := outline_clean hclean
    refine ⟨hclean, Charted.adopt hgone ⟨houtline.books, houtline.owned,
      houtline.nodup⟩ halloc ?_ ?_ ?_ ?_⟩
    · rw [hafter, if_pos rfl]
    · simp only [outline_inodes, sketch_iMode, isReg_maskMode, setLinks_iMode, hdir, Bool.not_false]
    · exact sketch_file (by rw [setLinks_iMode]; exact hdir)
    · simp only [outline_inodes, sketch_iLinksCount]
      exact setLinks_self ..

end

theorem removed (hshut : path.valid = true → ¬ s.Exposed path.parent)
    (hempty : ∀ i, s.target path = some i → s.isDirectory i = true → s.listing i = [])
    (hu : s.inodeUnlink fuel path = some (r, s')) : s'.Housed := by
  have hseal : path.valid = true → s.Sealed rootInode path.parent.names := fun hv =>
    sealed_of_shut (p := path.parent) h hv (hshut hv)
  by_cases hstuck : ∃ i, s.target path = some i ∧ s.Stuck i
  · obtain ⟨i, hi, hstuck⟩ := hstuck
    exact h.orphaned hseal hempty hi hstuck hu
  · exact (h.unlinked_sealed hseal hempty (fun i hi hc => hstuck ⟨i, hi, hc⟩) hu).1

theorem step {op : FileOp} (hop : CarefulStep fuel s op) (hstep : fileStep fuel s op = some s') :
    s'.Housed := by
  have hle := (hop.modest s' hstep).groups
  match op with
  | .write i n text =>
    cases hstep
    rw [writeBlock_eq] at hle ⊢
    split
    · exact h
    · rename_i hcond
      rw [if_neg hcond] at hle
      obtain ⟨hi, hreg⟩ : s.groups.allocated .inode i = true ∧ isReg (s.inodes i).iMode = true := by
        simpa using hcond
      exact h.putBlock hi (not_isDir_of_isReg hreg) hle
  | .path (.lookup path) =>
    cases hstep
    exact h.looked_shut ((hop.1 _ rfl).2 path List.mem_cons_self)
  | .path (.call (.create path mode)) =>
    obtain ⟨husual, hexp⟩ := hop.1 _ rfl
    obtain ⟨⟨res, t⟩, heq, rfl⟩ := Option.map_eq_some_iff.mp hstep
    exact h.created (fun hv => h.sealed_of_shut (p := path.parent) hv
      (hexp path.parent List.mem_cons_self hv)) husual.1 husual.2
      heq hle
  | .path (.call (.link src dst)) =>
    obtain ⟨husual, hexp⟩ := hop.1 _ rfl
    obtain ⟨⟨r, t⟩, heq, rfl⟩ := Option.map_eq_some_iff.mp hstep
    exact (h.linked_sealed (fun hv => h.sealed_of_shut hv (hexp src List.mem_cons_self hv))
      (fun hv => h.sealed_of_shut (p := dst.parent) hv
      (hexp dst.parent (by simp [PathOp.paths]) hv)) husual.1 husual.2 heq hle).1
  | .path (.call (.unlink path)) =>
    obtain ⟨husual, hexp⟩ := hop.1 _ rfl
    obtain ⟨⟨r, t⟩, heq, rfl⟩ := Option.map_eq_some_iff.mp hstep
    exact h.removed (hexp path.parent List.mem_cons_self) husual heq

end Housed

theorem Housed.format : FS.format.Housed := by
  have hroot : ∀ j, FS.format.groups.allocated .inode j = true →
    FS.format.outline.inodes j = FS.format.inodes j := by
    intro j hj
    rw [(format_allocated j).mp hj]
    rfl
  have hclean := Clean.format
  refine ⟨hclean, Similar.charted (s := FS.format) ?_ Charted.format⟩
  refine ⟨fun j hj => congrArg (fun ino => fileType ino.iMode) (hroot j hj),
    fun j hj => congrArg (fun ino => ino.iLinksCount) (hroot j hj),
    fun j hj => congrArg (fun ino => ino.iBlock) (hroot j hj), rfl, fun _ => rfl,
    fun j _ b hb => ?_,
    outline_clean hclean⟩
  rw [format_iBlock] at hb
  cases hb

/-- An entry with the name `x` for the inode of the first file. -/
def forgedEntry : List UInt8 := [1, 0, 0, 0, 9, 0, 1, 8, 120]

theorem sIfreg_kind : isReg sIfreg = true ∨ isDir sIfreg = true := Or.inl rfl

def forgedRun : List FileOp :=
  [.path (.call (.create (.of [[102]]) ⟨sIfreg, sIfreg_kind⟩)), .write 1 0 forgedEntry]

end FS

end NaiveFS
