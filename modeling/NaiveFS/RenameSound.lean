import NaiveFS.MountSound
import NaiveFS.OwnerSound

/-!
# Renaming a file

`fuse_rename` is made of `inode_link` and `inode_unlink`. On the paths of the file
system the first adds one path to an inode and the second takes one away, and what a
rename does to all other paths follows from the two.
-/

namespace NaiveFS

namespace FS

open Groups

variable {s s' t : FS} {i j k : Nat} {name : Name} {P q : List Name} {path : Path} {fuel : Nat}
  {c : DentryCache}

/-! ## One path less, one path more -/

/-- Path `Q` of inode `i` is there, and only it is new. -/
structure Gained (Q : List Name) (i : Nat) (s s' : FS) : Prop where
  walk : ∀ q k, [] ∉ q → (s'.walk rootInode q = .ok k ↔ s.walk rootInode q = .ok k ∨ q = Q ∧ k = i)
  links : ∀ j, (s'.inodes j).iLinksCount = (s.inodes j).iLinksCount + if j = i then 1 else 0
  mode : ∀ j, (s'.inodes j).iMode = (s.inodes j).iMode
  allocated : ∀ j, s'.groups.allocated .inode j = s.groups.allocated .inode j

/-- Path `Q` of inode `i` is gone, and only it is. -/
structure Lost (Q : List Name) (i : Nat) (s s' : FS) : Prop where
  walk : ∀ q k, [] ∉ q → (s'.walk rootInode q = .ok k ↔ s.walk rootInode q = .ok k ∧ q ≠ Q)
  links : ∀ j, (s'.inodes j).iLinksCount = (s.inodes j).iLinksCount - if j = i then 1 else 0
  mode : ∀ j, (s'.inodes j).iMode = (s.inodes j).iMode
  allocated : ∀ j, s'.groups.allocated .inode j = true ↔ s.groups.allocated .inode j = true ∧
    ¬ (j = i ∧ (s.inodes i).iLinksCount = 1)

theorem nil_not_mem_of_concat {l : List Name} (h : [] ∉ l ++ [name]) : [] ∉ l :=
  fun hc => h (List.mem_append_left _ hc)

theorem Unlinked.walk_iff {p : Nat} (hun : Unlinked c P p name i s s') (h : s.Orderly)
    (h' : s'.Orderly) (hP : [] ∉ P) (hparent : s.walk rootInode P = .ok p)
    (hne : [] ∉ P ++ [name]) :
    ∀ k, [] ∉ q → (s'.walk rootInode q = .ok k ↔ s.walk rootInode q = .ok k ∧ q ≠ P ++ [name]) := by
  induction q using List.reverseRecOn with
  | nil =>
    intro k _
    simp [walk]
  | append_singleton l n ih =>
    intro k hq
    have hl := nil_not_mem_of_concat hq
    rw [h.walk_concat_ok hq, h'.walk_concat_ok hq]
    constructor
    · rintro ⟨d, hd, hdir, hin⟩
      obtain ⟨hd, -⟩ := (ih d hl).mp hd
      have hdir := (hun.isDirectory.mp hdir).1
      refine ⟨⟨d, hd, hdir, hun.sub hdir hin⟩, fun heq => ?_⟩
      obtain ⟨rfl, hn⟩ := List.append_inj' heq rfl
      cases hn
      cases hd.symm.trans hparent
      rw [hun.removed] at hin
      simp at hin
    · rintro ⟨⟨d, hd, hdir, hin⟩, hother⟩
      -- no path leads on from the name that is removed
      have hstay : l ≠ P ++ [name] := by
        rintro rfl
        cases hd.symm.trans ((h.walk_concat_ok hne).mpr ⟨p, hparent, hun.dir, hun.listed⟩)
        rw [hun.empty hdir] at hin
        cases hin
      obtain ⟨hdir', hin'⟩ := hun.keep hdir hin fun hc => by
        obtain ⟨rfl, rfl⟩ := hc
        rw [h.walk_unique hdir hl hP hd hparent] at hother
        exact hother rfl
      exact ⟨d, (ih d hl).mpr ⟨hd, hstay⟩, hdir', hin'⟩

theorem Entered.walk_iff {p : Nat} (hent : Entered (.ok p) name (.ok i) s s') (h : s.Orderly)
    (h' : s'.Orderly) (hP : [] ∉ P) (hparent : s.walk rootInode P = .ok (deref p))
    (hleaf : s'.isDirectory i = true → s'.listing i = []) :
    ∀ k, [] ∉ q → (s'.walk rootInode q = .ok k ↔ s.walk rootInode q = .ok k ∨ q = P ++ [name] ∧
      k = i) := by
  obtain ⟨p', hp', hpd, hpd', hlisting, -⟩ := hent.added i rfl
  cases hp'
  induction q using List.reverseRecOn with
  | nil =>
    intro k _
    simp [walk]
  | append_singleton l n ih =>
    intro k hq
    have hl := nil_not_mem_of_concat hq
    rw [h.walk_concat_ok hq, h'.walk_concat_ok hq]
    constructor
    · rintro ⟨d, hd, hdir, hin⟩
      rcases (ih d hl).mp hd with hd | ⟨-, rfl⟩
      · rcases hent.edge hdir hin with ⟨hdir, hin⟩ | ⟨p', hp', rfl, rfl, hi⟩
        · exact Or.inl ⟨d, hd, hdir, hin⟩
        · cases hp'
          cases hi
          rw [h.walk_unique hpd hl hP hd hparent]
          exact Or.inr ⟨rfl, rfl⟩
      · rw [hleaf hdir] at hin
        cases hin
    · rintro (⟨d, hd, hdir, hin⟩ | ⟨heq, rfl⟩)
      · obtain ⟨hdir', hsub⟩ := hent.grow hdir
        exact ⟨d, (ih d hl).mpr (Or.inl hd), hdir', hsub _ hin⟩
      · obtain ⟨rfl, hn⟩ := List.append_inj' heq rfl
        cases hn
        refine ⟨deref p, (ih _ hl).mpr (Or.inl hparent), hpd', ?_⟩
        rw [hlisting]
        simp

theorem Orderly.walk_append (h : s.Orderly) :
    ∀ {l : List Name} {j : Nat}, s.groups.allocated .inode j = true → [] ∉ l →
    s.walk j l = .ok k → ∀ r, s.walk j (l ++ r) = s.walk k r := by
  intro l
  induction l with
  | nil =>
    intro j _ _ hw r
    cases hw
    rfl
  | cons elem rest ih =>
    intro j hj hne hw r
    have hname : elem ≠ [] := fun hc => hne (hc ▸ List.mem_cons_self)
    obtain ⟨m, hm, hw⟩ := (h.walk_cons_ok hj hname).mp hw
    rw [List.cons_append, h.walk_cons_of_listing hj hname hm]
    exact ih (h.of_listing hj hm).2.1 (fun hc => hne (List.mem_cons_of_mem _ hc)) hw r

theorem Orderly.walk_notFound (h : s.Orderly) {p : Nat} (hP : [] ∉ P)
    (hw : s.walk rootInode P = .ok p) (hno : ∀ k, s.walk rootInode (P ++ [name]) ≠ .ok k) :
    s.walk rootInode (P ++ [name]) = .error .notFound := by
  have heq := h.walk_append h.tidy.root hP hw [name]
  rw [heq] at hno ⊢
  unfold walk at hno ⊢
  simp only [List.isEmpty_nil, Bool.not_true, Bool.false_and, Bool.false_eq_true, if_false] at hno ⊢
  cases hs : s.search (deref p) name with
  | none => rfl
  | some k =>
    simp only [hs] at hno
    exact absurd rfl (hno k)

theorem Orderly.root_ne (h : s.Orderly) (hfile : isDir (s.inodes i).iMode = false) :
    i ≠ rootInode := by
  rintro rfl
  have := (isDirectory_iff.mp h.linked.graph.root).2
  rw [hfile] at this
  cases this

namespace Charted

variable (h : s.Charted)
include h

theorem parent_walk {parent : Nat}
    (hl : s.inodeLookup path.parent = (.ok parent, { s with dcache := c })) :
    path.valid = true ∧ [] ∉ path.parent.names ∧ s.walk rootInode path.parent.names =
      .ok (deref parent) := by
  obtain ⟨hv, hw, ha⟩ := h.found (congrArg Prod.fst hl)
  rw [deref_allocated h.order.books ha]
  exact ⟨hv, path.parent.nonempty hv, hw⟩

theorem link_gained {src dst : Path} (hlen : dst.back.length ≤ 255)
    (hroom : ∀ i, (s.inodeLookup src).1 = .ok i → s.refs (deref i) < 65535)
    (hl : s.inodeLink src dst = some (.success, s')) (hle : s'.groups.groupCount ≤ 33) :
    ∃ i, (s.inodeLookup src).1 = .ok i ∧ isDir (s.inodes i).iMode = false ∧
      Gained dst.names i s s' := by
  have h' := h.linked hlen hroom hl hle
  have hord := h.order
  have hent := (hord.tidy.linked hlen hl hle).2
  rcases inodeLink_cases hord.tidy.clean hord.tidy.root hl hle with ⟨c, -, -, hr⟩ |
    ⟨index, parent, c, c', t, hsrc, hreg, hlook, -, -, -, hnames, -, -, -, hadd, rfl⟩
  · exact absurd rfl hr
  have hsrc' : (s.inodeLookup src).1 = .ok index := by rw [hsrc]
  obtain ⟨-, -, hia⟩ := h.found hsrc'
  have hindex := deref_allocated h.order.books hia
  rw [hsrc] at hent
  simp only [hlook, if_true] at hent
  have hlooked : ({ s with dcache := c } : FS).Charted := h.looked (Looked.start.of_eq hsrc)
  obtain ⟨-, hP, hparent⟩ := hlooked.parent_walk hlook
  rw [walk_cached] at hparent
  rw [hindex] at hreg h' hent ⊢
  have hmode : ∀ j, ((t.setLinks index (u16 ((t.inodes index).iLinksCount + 1))).inodes j).iMode =
    (s.inodes j).iMode := by
    intro j
    rw [setLinks_iMode]
    exact hadd.mode j
  refine ⟨index, hsrc', hreg, fun q k hq => ?_, fun j => ?_, hmode, hadd.allocated⟩
  · rw [Path.names_eq hnames]
    refine hent.walk_iff hord h'.order hP hparent (fun hdir => ?_) k hq
    rw [isDirectory, hmode, hreg, Bool.and_false] at hdir
    cases hdir
  · have hlinks : ∀ j, (t.inodes j).iLinksCount = (s.inodes j).iLinksCount := hadd.links
    by_cases hji : j = index
    · subst hji
      have hlt := hroom j hsrc'
      rw [hindex, ← hord.counted j hia (hord.linked.graph.source hsrc
        (hindex.symm ▸ hreg)).2.2] at hlt
      have hsum : (s.inodes j).iLinksCount + 1 < 2 ^ 16 := by omega
      rw [setLinks_self, hlinks, if_pos rfl, u16, Nat.mod_eq_of_lt hsum]
    · rw [setLinks_ne _ _ _ hji, hlinks, if_neg hji, Nat.add_zero]

theorem empty_of_file
    (hfile : ∀ i, (s.inodeLookup path).1 = .ok i → isDir (s.inodes i).iMode = false) :
    ∀ i, s.target path = some i → s.isDirectory i = true → s.listing i = [] := by
  intro i hi hd
  have := (isDirectory_iff.mp hd).2
  rw [hfile i (h.target_found hi)] at this
  cases this

theorem unlink_lost (hfile : ∀ i, (s.inodeLookup path).1 = .ok i → isDir (s.inodes i).iMode = false)
    (hu : s.inodeUnlink fuel path = some (.success, s')) :
    ∃ i, (s.inodeLookup path).1 = .ok i ∧ Lost path.names i s s' := by
  have hempty := h.empty_of_file hfile
  have h' := h.unlinked hempty hu
  have hord := h.order
  rcases hord.unlink_cases hempty hu with ⟨c, -, -, hr⟩ | ⟨parent, c, i, hlook, hnames,
    htarget, hun⟩
  · exact absurd rfl hr
  obtain ⟨hv, hP, hparent⟩ := h.parent_walk hlook
  have hfound := h.target_found htarget
  refine ⟨i, hfound, fun q k hq => ?_, fun j => ?_, fun j => ?_, hun.allocated⟩
  · have hne := path.nonempty hv
    rw [Path.names_eq hnames] at hne ⊢
    exact hun.walk_iff hord h'.order hP hparent hne k hq
  · rw [hun.inodes]
    by_cases hji : j = i
    · subst hji
      rw [setLinks_self, if_pos rfl]
    · rw [setLinks_ne _ _ _ hji, if_neg hji, Nat.sub_zero]
  · rw [hun.inodes, setLinks_iMode]

end Charted

namespace Tended

variable (h : s.Tended)
include h

theorem link_gained {src dst : Path} (hlen : dst.back.length ≤ 255)
    (hroom : ∀ i, (s.inodeLookup src).1 = .ok i → s.refs (deref i) < 65535)
    (hl : s.inodeLink src dst = some (.success, s')) (hle : s'.groups.groupCount ≤ 33) :
    s'.Tended ∧ ∃ i, (s.inodeLookup src).1 = .ok i ∧ isDir (s.inodes i).iMode = false ∧
      Gained dst.names i s s' :=
  ⟨(h.linkedTo hlen hroom hl hle).1, h.charted.link_gained hlen hroom hl hle⟩

theorem unlink_lost
    (hfile : ∀ i, (s.inodeLookup path).1 = .ok i → isDir (s.inodes i).iMode = false)
    (hu : s.inodeUnlink fuel path = some (.success, s')) :
    s'.Tended ∧ ∃ i, (s.inodeLookup path).1 = .ok i ∧ Lost path.names i s s' :=
  ⟨(h.unlinked (h.charted.empty_of_file hfile) hu).1, h.charted.unlink_lost hfile hu⟩

end Tended

/-! ## Moving a name -/

/-- What renaming a file is to do: the name moves from `old` to `new`, and the file
that had the new name loses it. -/
structure Moved (old new : Path) (i : Nat) (s s' : FS) : Prop where
  found : (s'.inodeLookup new).1 = .ok i
  gone : (s'.inodeLookup old).1 = .error .notFound
  others : ∀ q : Path, q ≠ old → q ≠ new → ∀ k, (s'.inodeLookup q).1 = .ok k ↔
    (s.inodeLookup q).1 = .ok k
  links : (s.inodeLookup new).1 ≠ .ok i → (s'.inodes i).iLinksCount = (s.inodes i).iLinksCount
  merged : (s.inodeLookup new).1 = .ok i → (s'.inodes i).iLinksCount + 1 = (s.inodes i).iLinksCount
  replaced : ∀ k, (s.inodeLookup new).1 = .ok k → k ≠ i →
    (s'.inodes k).iLinksCount + 1 = (s.inodes k).iLinksCount ∧
    (s'.groups.allocated .inode k = false ↔ (s.inodes k).iLinksCount = 1)

/-- Paths and inodes after a path has been replaced by another. -/
structure Shifted (old new : Path) (i : Nat) (s s' : FS) : Prop where
  walk : ∀ q k, [] ∉ q → (s'.walk rootInode q = .ok k ↔
    (s.walk rootInode q = .ok k ∨ q = new.names ∧ k = i) ∧ q ≠ old.names)
  links : ∀ j, (s'.inodes j).iLinksCount = (s.inodes j).iLinksCount
  allocated : ∀ j, s'.groups.allocated .inode j = s.groups.allocated .inode j

theorem Path.eq_of_names {p q : Path} (hp : p.valid = true) (hq : q.valid = true)
    (h : p.names = q.names) : p = q := by
  cases p
  cases q
  simp_all

variable {old new : Path}

theorem Tended.shifted (h : s.Tended) (hlen : new.back.length ≤ 255)
    (hold : (s.inodeLookup old).1 = .ok i) (hroom : s.refs i < 65535)
    (hl : s.inodeLink old new = some (.success, t)) (hle : t.groups.groupCount ≤ 33)
    (hu : t.inodeUnlink fuel old = some (.success, s')) : s'.Tended ∧ Shifted old new i s s' := by
  obtain ⟨hv, hw, hia⟩ := h.charted.found hold
  obtain ⟨ht, i', hi', hfile, hg⟩ := h.link_gained hlen (fun j hj => by
    cases hj.symm.trans hold
    rwa [deref_allocated h.books hia]) hl hle
  cases hi'.symm.trans hold
  have hold' : (t.inodeLookup old).1 = .ok i := by
    rw [(ht.charted.lookup old hv).1]
    exact (hg.walk _ _ (old.nonempty hv)).mpr (Or.inl hw)
  obtain ⟨h', i'', hi'', hlost⟩ := ht.unlink_lost (fun j hj => by
    cases hj.symm.trans hold'
    rwa [hg.mode]) hu
  cases hi''.symm.trans hold'
  have hroot : i ≠ rootInode := h.charted.order.root_ne hfile
  refine ⟨h', fun q k hq => ?_, fun j => ?_, fun j => ?_⟩
  · rw [hlost.walk q k hq, hg.walk q k hq]
  · rw [hlost.links, hg.links]
    split <;> simp
  · have hmore : (t.inodes i).iLinksCount ≠ 1 := by
      have := h.linked i hia hroot
      rw [hg.links, if_pos rfl]
      omega
    rw [Bool.eq_iff_iff, hlost.allocated, hg.allocated]
    simp [hmore]

section
variable (h : s.Charted) (h' : s'.Charted) (hold : (s.inodeLookup old).1 =
  .ok i) (hfile : isDir (s.inodes i).iMode = false)
  (hv : new.valid = true) (hne : old ≠ new) (hnew : ∀ k, (s.inodeLookup new).1 = .ok k →
    isDir (s.inodes k).iMode = false)
  (hw : ∀ q k, [] ∉ q → (s'.walk rootInode q = .ok k ↔
    (s.walk rootInode q = .ok k ∧ q ≠ new.names ∨ q = new.names ∧ k = i) ∧ q ≠ old.names))
include h h' hold hfile hv hne hnew hw

theorem lookups_moved : (s'.inodeLookup new).1 = .ok i ∧ (s'.inodeLookup old).1 = .error .notFound ∧
    ∀ q : Path, q ≠ old → q ≠ new → ∀ k, (s'.inodeLookup q).1 = .ok k ↔
      (s.inodeLookup q).1 = .ok k := by
  obtain ⟨hvo, hwo, -⟩ := h.found hold
  have hnames : new.names ≠ old.names := fun hc => hne (Path.eq_of_names hvo hv hc.symm)
  refine ⟨?_, ?_, fun q hqo hqn k => ?_⟩
  · rw [(h'.lookup new hv).1]
    exact (hw _ _ (new.nonempty hv)).mpr ⟨Or.inr ⟨rfl, rfl⟩, hnames⟩
  · have hnil : old.names ≠ [] := by
      intro hc
      rw [hc] at hwo
      cases hwo
      rw [(isDirectory_iff.mp h.order.linked.graph.root).2] at hfile
      cases hfile
    have hP := old.parent.nonempty hvo
    have hqn := old.nonempty hvo
    rw [(h'.lookup old hvo).1]
    rw [Path.names_eq hnil] at hwo hqn hw ⊢
    obtain ⟨p, hp, hpd, -⟩ := (h.order.walk_concat_ok hqn).mp hwo
    -- the directory of the old name is not the file that goes
    have hother : old.parent.names ≠ new.names := by
      intro hc
      rw [hc, ← (h.lookup new hv).1] at hp
      have := (isDirectory_iff.mp hpd).2
      rw [hnew p hp] at this
      cases this
    have hp' : s'.walk rootInode old.parent.names = .ok p :=
      (hw _ _ hP).mpr ⟨Or.inl ⟨hp, hother⟩, by simp⟩
    exact h'.order.walk_notFound hP hp' fun k hk => ((hw _ _ hqn).mp hk).2 rfl
  · by_cases hvq : q.valid = true
    · have hqo' : q.names ≠ old.names := fun hc => hqo (Path.eq_of_names hvq hvo hc)
      have hqn' : q.names ≠ new.names := fun hc => hqn (Path.eq_of_names hvq hv hc)
      rw [(h'.lookup q hvq).1, (h.lookup q hvq).1, hw _ _ (q.nonempty hvq)]
      simp [hqo', hqn']
    · simp [inodeLookup, hvq]

end

section
variable (h : s.Tended) (hv : new.valid = true) (hlen : new.back.length ≤ 255) (hne : old ≠ new)
  (hold : (s.inodeLookup old).1 = .ok i) (hfile : isDir (s.inodes i).iMode =
    false) (hroom : s.refs i < 65535)
include h hv hlen hne hold hfile hroom

theorem Tended.moved_absent (hnew : ∀ k, (s.inodeLookup new).1 ≠ .ok k)
    (hl : s.inodeLink old new = some (.success, t)) (hle : t.groups.groupCount ≤ 33)
    (hu : t.inodeUnlink fuel old = some (.success, s')) : s'.Tended ∧ Moved old new i s s' := by
  have hnames : old.names ≠ new.names :=
    fun hc => hne (Path.eq_of_names (h.charted.found hold).1 hv hc)
  obtain ⟨h', hshift⟩ := h.shifted hlen hold hroom hl hle hu
  obtain ⟨hfound, hgone, hothers⟩ :=
    lookups_moved h.charted h'.charted hold hfile hv hne (fun k hk => absurd hk (hnew k))
    fun q k hq => by
      rw [hshift.walk q k hq]
      by_cases hqn : q = new.names
      · subst hqn
        have hno := hnew k
        rw [(h.charted.lookup new hv).1] at hno
        simp [hno]
      · simp [hqn]
  exact ⟨h', hfound, hgone, hothers, fun _ => hshift.links i, fun hc => absurd hc (hnew i),
    fun k hk => absurd hk (hnew k)⟩

theorem Tended.moved_replaced {u : FS} (hk : (s.inodeLookup new).1 = .ok k)
    (hkfile : isDir (s.inodes k).iMode = false)
    (hu₀ : s.inodeUnlink fuel new = some (.success, u))
    (hl : u.inodeLink old new = some (.success, t)) (hle : t.groups.groupCount ≤ 33)
    (hu : t.inodeUnlink fuel old = some (.success, s')) : s'.Tended ∧ Moved old new i s s' := by
  obtain ⟨hvo, hwo, hia⟩ := h.charted.found hold
  obtain ⟨-, -, hka⟩ := h.charted.found hk
  have hnames : old.names ≠ new.names := fun hc => hne (Path.eq_of_names hvo hv hc)
  have hnew : ∀ j, (s.inodeLookup new).1 = .ok j → isDir (s.inodes j).iMode = false := by
    intro j hj
    cases hj.symm.trans hk
    exact hkfile
  obtain ⟨h₀, k', hk', hlost⟩ := h.unlink_lost hnew hu₀
  cases hk'.symm.trans hk
  have hold₀ : (u.inodeLookup old).1 = .ok i := by
    rw [(h₀.charted.lookup old hvo).1]
    exact (hlost.walk _ _ (old.nonempty hvo)).mpr ⟨hwo, hnames⟩
  have hroom₀ : u.refs i < 65535 := by
    have hir := h.charted.order.root_ne hfile
    have hcount := h.charted.order.counted i hia hir
    have hcount₀ := h₀.charted.order.counted i (h₀.charted.found hold₀).2.2 hir
    rw [hlost.links] at hcount₀
    omega
  obtain ⟨h', hshift⟩ := h₀.shifted hlen hold₀ hroom₀ hl hle hu
  obtain ⟨hfound, hgone, hothers⟩ :=
    lookups_moved h.charted h'.charted hold hfile hv hne hnew fun q j hq => by
    rw [hshift.walk q j hq, hlost.walk q j hq]
  have hpos := h.linked k hka (h.charted.order.root_ne hkfile)
  have hlinks : ∀ j, (s'.inodes j).iLinksCount = (s.inodes j).iLinksCount - if j = k then
    1 else 0 := by
    intro j
    rw [hshift.links, hlost.links]
  refine ⟨h', hfound, hgone, hothers, fun hik => ?_, fun hik => ?_, fun j hj hji => ?_⟩
  · have hne' : i ≠ k := fun hc => hik (hc ▸ hk)
    rw [hlinks, if_neg hne', Nat.sub_zero]
  · cases hik.symm.trans hk
    rw [hlinks, if_pos rfl]
    omega
  · cases hj.symm.trans hk
    refine ⟨?_, ?_⟩
    · rw [hlinks, if_pos rfl]
      omega
    · rw [hshift.allocated, Bool.eq_false_iff, ne_eq, hlost.allocated]
      simp [hka]

end

theorem Moved.of_looked (h : s.Charted) (hc : s.Looked c)
    (hm : Moved old new i { s with dcache := c } s') :
    Moved old new i s s' := by
  have hsame := h.lookup_looked hc
  refine ⟨hm.found, hm.gone, fun q hqo hqn k => ?_, fun hn => ?_, fun hn => ?_, fun k hk hki => ?_⟩
  · rw [← hsame q]
    exact hm.others q hqo hqn k
  · rw [← hsame new] at hn
    exact hm.links hn
  · rw [← hsame new] at hn
    exact hm.merged hn
  · rw [← hsame new] at hk
    exact hm.replaced k hk hki

end FS

namespace Mount

open FS Groups

variable {s s' t : FS} {m : Mount} {fuel flags i : Nat} {ctx : Context} {old new path : Path}
  {r : RetCode}

/-! ## The calls of a rename -/

theorem runCalls_cons {call : NameCall} {rest : List NameCall}
    (hr : runCalls fuel (call :: rest) s = some (r, s')) :
    r ≠ .success ∧ call.run fuel s = some (r, s') ∨ ∃ t, call.run fuel s = some (.success, t) ∧
      runCalls fuel rest t = some (r, s') := by
  unfold runCalls at hr
  split at hr
  · cases hr
  · rename_i t ht
    exact Or.inr ⟨t, ht, hr⟩
  · rename_i hno ht
    cases hr
    exact Or.inl ⟨hno, ht⟩

theorem renameLookup_ok {c : DentryCache} {res : Except Int Nat} (hc : s.Looked c)
    (hr : renameLookup ctx path { s with dcache := c } = (res, t)) :
    (∃ c', t = { s with dcache := c' } ∧ s.Looked c') ∧ ∀ e, res = .error e → e ≠ 0 := by
  obtain ⟨c', hc', hlooked⟩ := hc.next path
  unfold renameLookup at hr
  split at hr
  · rename_i hl
    rw [hl] at hc'
    cases hr
    refine ⟨⟨c', hc', hlooked⟩, fun e he => ?_⟩
    cases he
    decide
  · rename_i hl
    rw [hl] at hc'
    split at hr
    · cases hr
      refine ⟨⟨c', hc', hlooked⟩, fun e he => ?_⟩
      cases he
      decide
    · cases hr
      exact ⟨⟨c', hc', hlooked⟩, fun _ he => by cases he⟩

theorem renameCalls_looked {res : Except Int (List NameCall)}
    (hr : renameCalls ctx old new flags s = (res, t)) :
    ∃ c, t = { s with dcache := c } ∧ s.Looked c := by
  unfold renameCalls at hr
  split at hr
  · unfold exchangeCalls at hr
    split at hr
    · rename_i hl
      obtain ⟨hc, -⟩ := renameLookup_ok Looked.start hl
      cases hr
      exact hc
    · rename_i hl
      obtain ⟨⟨c, rfl, hlooked⟩, -⟩ := renameLookup_ok Looked.start hl
      split at hr <;> rename_i hl' <;> cases hr <;> exact (renameLookup_ok hlooked hl').1
  split at hr
  · unfold noreplaceCalls at hr
    obtain ⟨c, hc, hlooked⟩ := (Looked.start (s := s)).next new
    split at hr <;> rename_i hl <;> rw [show s.inodeLookup new = _ from hl] at hc <;>
      simp only at hc <;> subst hc
    · cases hr
      exact ⟨c, rfl, hlooked⟩
    · split at hr <;> rename_i hl' <;> cases hr <;> exact (renameLookup_ok hlooked hl').1
  split at hr
  · unfold replaceCalls at hr
    split at hr
    · rename_i hl
      obtain ⟨hc, -⟩ := renameLookup_ok Looked.start hl
      cases hr
      exact hc
    · rename_i hl
      obtain ⟨⟨c, rfl, hlooked⟩, -⟩ := renameLookup_ok Looked.start hl
      obtain ⟨c', hc', hlooked'⟩ := hlooked.next new
      split at hr <;> rename_i hl <;> rw [hl] at hc'
      · cases hr
        exact ⟨c', hc', hlooked'⟩
      · split at hr <;> cases hr <;> exact ⟨c', hc', hlooked'⟩
  · cases hr
    exact ⟨s.dcache, rfl, .start⟩

/-- Without exchange, a rename links the new name and removes the old one, after it
has removed the new name if that is taken. -/
theorem renameCalls_cases {res : Except Int (List NameCall)} (h : s.Charted)
    (hflags : flags = 0 ∨ flags = renameNoreplace)
    (hr : renameCalls ctx old new flags s = (res, t)) :
    ∃ c, t = { s with dcache := c } ∧ s.Looked c ∧
      match res with
      | .error e => e ≠ 0
      | .ok calls => (∀ k, (s.inodeLookup new).1 ≠ .ok k) ∧ calls = [.link old new, .unlink old] ∨
        ∃ k, (s.inodeLookup new).1 = .ok k ∧ calls = [.unlink new, .link old new, .unlink old] := by
  rcases hflags with rfl | rfl
  · rw [renameCalls, if_neg (by decide), if_neg (by decide), if_pos rfl, replaceCalls] at hr
    split at hr
    · rename_i hl
      obtain ⟨⟨c, hc, hlooked⟩, hcode⟩ := renameLookup_ok Looked.start hl
      cases hr
      exact ⟨c, hc, hlooked, hcode _ rfl⟩
    · rename_i hl
      obtain ⟨⟨c, rfl, hlooked⟩, -⟩ := renameLookup_ok Looked.start hl
      obtain ⟨c', hc', hlooked'⟩ := hlooked.next new
      have hsame := h.lookup_looked hlooked new
      split at hr
      · rename_i hl
        rw [hl] at hsame hc'
        cases hr
        refine ⟨c', hc', hlooked', Or.inl ⟨fun k hk => ?_, rfl⟩⟩
        rw [← hsame] at hk
        cases hk
      · rename_i hl
        rw [hl] at hsame hc'
        split at hr
        · cases hr
          exact ⟨c', hc', hlooked', show -eacces ≠ 0 by decide⟩
        · cases hr
          exact ⟨c', hc', hlooked', Or.inr ⟨_, hsame.symm, rfl⟩⟩
  · rw [renameCalls, if_neg (by decide), if_pos rfl, noreplaceCalls] at hr
    obtain ⟨c, hc, hlooked⟩ := (Looked.start (s := s)).next new
    split at hr
    · rename_i hl
      rw [hl] at hc
      cases hr
      exact ⟨c, hc, hlooked, show -eexist ≠ 0 by decide⟩
    · rename_i hl
      rw [show s.inodeLookup new = _ from hl] at hc
      simp only at hc
      subst hc
      split at hr
      · rename_i hl
        obtain ⟨⟨c', hc', hlooked'⟩, hcode⟩ := renameLookup_ok hlooked hl
        cases hr
        exact ⟨c', hc', hlooked', hcode _ rfl⟩
      · rename_i hl'
        obtain ⟨⟨c', hc', hlooked'⟩, -⟩ := renameLookup_ok hlooked hl'
        cases hr
        refine ⟨c', hc', hlooked', Or.inl ⟨fun k hk => ?_, rfl⟩⟩
        rw [hl] at hk
        cases hk

section
variable (h : s.Tended) (hlen : new.back.length ≤ 255)
  (hold : ∀ i, (s.inodeLookup old).1 = .ok i → isDir (s.inodes i).iMode = false ∧ s.refs i < 65535)
include h hlen hold

theorem relink_tended (hr : runCalls fuel [.link old new, .unlink old] s = some (r, s'))
    (hle : s'.groups.groupCount ≤ 33) :
    s'.Tended := by
  have hroom : ∀ i, (s.inodeLookup old).1 = .ok i → s.refs (deref i) < 65535 := by
    intro i hi
    rw [deref_allocated h.books (h.charted.found hi).2.2]
    exact (hold i hi).2
  rcases runCalls_cons hr with ⟨-, hl⟩ | ⟨t, hl, hr⟩
  · exact (h.linkedTo hlen hroom hl hle).1
  · rw [runCalls_single] at hr
    have hu : t.inodeUnlink fuel old = some (r, s') := hr
    rw [inodeUnlink_groupCount hu] at hle
    obtain ⟨ht, i, hi, hfile, hg⟩ := h.link_gained hlen hroom hl hle
    refine (ht.unlinked (fun j hj hd => ?_) hu).1
    -- the old name is still that of a file
    have hj := ht.charted.target_found hj
    obtain ⟨hvo, hwo, -⟩ := ht.charted.found hj
    have hdir := (isDirectory_iff.mp hd).2
    rw [hg.mode] at hdir
    rcases (hg.walk _ _ (old.nonempty hvo)).mp hwo with hw | ⟨-, rfl⟩
    · rw [(hold j ((h.charted.lookup old hvo).1.trans hw)).1] at hdir
      cases hdir
    · rw [hfile] at hdir
      cases hdir

theorem replace_tended {k : Nat} (hk : (s.inodeLookup new).1 = .ok k)
    (hkfile : isDir (s.inodes k).iMode = false)
    (hr : runCalls fuel [.unlink new, .link old new, .unlink old] s = some (r, s'))
    (hle : s'.groups.groupCount ≤ 33) : s'.Tended := by
  have hfile : ∀ j, (s.inodeLookup new).1 = .ok j → isDir (s.inodes j).iMode = false := by
    intro j hj
    cases hj.symm.trans hk
    exact hkfile
  rcases runCalls_cons hr with ⟨-, hu⟩ | ⟨u, hu, hr⟩
  · refine (h.unlinked (fun j hj hd => ?_) hu).1
    have hdir := (isDirectory_iff.mp hd).2
    rw [hfile j (h.charted.target_found hj)] at hdir
    cases hdir
  · obtain ⟨h₀, j, -, hlost⟩ := h.unlink_lost hfile hu
    refine relink_tended h₀ hlen (fun i hi => ?_) hr hle
    obtain ⟨hvo, hwo, hia₀⟩ := h₀.charted.found hi
    have hi' : (s.inodeLookup old).1 = .ok i := by
      rw [(h.charted.lookup old hvo).1]
      exact ((hlost.walk _ _ (old.nonempty hvo)).mp hwo).1
    obtain ⟨hifile, hroom⟩ := hold i hi'
    have hir := h.charted.order.root_ne hifile
    have hcount := h.charted.order.counted i (h.charted.found hi').2.2 hir
    have hcount₀ := h₀.charted.order.counted i hia₀ hir
    rw [hlost.links] at hcount₀
    rw [hlost.mode]
    exact ⟨hifile, by omega⟩

variable (hv : new.valid = true) (hne : old ≠ new)
include hv hne

theorem relink_moved (hi : (s.inodeLookup old).1 = .ok i)
    (hnew : ∀ k, (s.inodeLookup new).1 ≠ .ok k)
    (hr : runCalls fuel [.link old new, .unlink old] s = some (.success, s'))
    (hle : s'.groups.groupCount ≤ 33) :
    Moved old new i s s' := by
  rcases runCalls_cons hr with ⟨hc, -⟩ | ⟨t, hl, hr⟩
  · exact absurd rfl hc
  · rw [runCalls_single] at hr
    have hu : t.inodeUnlink fuel old = some (.success, s') := hr
    rw [inodeUnlink_groupCount hu] at hle
    exact (h.moved_absent hv hlen hne hi (hold i hi).1 (hold i hi).2 hnew hl hle hu).2

theorem replace_moved {k : Nat} (hk : (s.inodeLookup new).1 = .ok k)
    (hkfile : isDir (s.inodes k).iMode = false) (hi : (s.inodeLookup old).1 = .ok i)
    (hr : runCalls fuel [.unlink new, .link old new, .unlink old] s = some (.success, s'))
    (hle : s'.groups.groupCount ≤ 33) :
    Moved old new i s s' := by
  rcases runCalls_cons hr with ⟨hc, -⟩ | ⟨u, hu₀, hr⟩
  · exact absurd rfl hc
  rcases runCalls_cons hr with ⟨hc, -⟩ | ⟨t, hl, hr⟩
  · exact absurd rfl hc
  rw [runCalls_single] at hr
  have hu : t.inodeUnlink fuel old = some (.success, s') := hr
  rw [inodeUnlink_groupCount hu] at hle
  exact (h.moved_replaced hv hlen hne hi (hold i hi).1 (hold i hi).2 hk hkfile hu₀ hl hle hu).2

end

theorem code2Errno_eq_zero (h : code2Errno r = 0) : r = .success := by
  cases r <;> first | rfl | exact absurd h (by decide)

theorem Coherent.fuseRename (h : m.Coherent) (hnone : m.handles = []) (hv : new.valid = true)
    (hlen : new.back.length ≤ 255) (hne : old ≠ new)
    (hflags : flags = 0 ∨ flags = renameNoreplace)
    (hold : ∀ i, (m.fs.inodeLookup old).1 = .ok i → isDir (m.fs.inodes i).iMode = false ∧
      m.fs.refs i < 65535)
    (hnew : ∀ k, (m.fs.inodeLookup new).1 = .ok k → isDir (m.fs.inodes k).iMode = false)
    {q : Int × Mount} (hr : m.fuseRename fuel ctx old new flags = some q)
    (hle : q.2.fs.groups.groupCount ≤ 33) :
    q.2.Coherent ∧ ∀ i, (m.fs.inodeLookup old).1 = .ok i → q.1 = 0 →
      Moved old new i m.fs q.2.fs := by
  have hclosed : ∀ {fs : FS}, fs.Tended → Coherent { m with fs := fs } := by
    intro fs hs
    refine h.withFs hs fun e he => ?_
    rw [hnone] at he
    cases he
  unfold Mount.fuseRename at hr
  rcases hcalls : renameCalls ctx old new flags m.fs with ⟨e | calls, t⟩
  · obtain ⟨c, rfl, hlooked, hcode⟩ := renameCalls_cases h.tended.charted hflags hcalls
    rw [hcalls] at hr
    cases hr
    exact ⟨h.withLooked hlooked, fun _ _ hzero => absurd hzero hcode⟩
  · obtain ⟨c, rfl, hlooked, hcases⟩ := renameCalls_cases h.tended.charted hflags hcalls
    rw [hcalls] at hr
    obtain ⟨⟨r, s'⟩, hrun, rfl⟩ := Option.map_eq_some_iff.mp hr
    have hsame := h.tended.charted.lookup_looked hlooked
    have hs := h.tended.looked hlooked
    have hold' : ∀ i, (({ m.fs with dcache := c } : FS).inodeLookup old).1 = .ok i →
        isDir (m.fs.inodes i).iMode = false ∧ m.fs.refs i < 65535 := by
      intro i hi
      rw [hsame] at hi
      exact hold i hi
    rcases hcases with ⟨habsent, rfl⟩ | ⟨k, hk, rfl⟩
    · refine ⟨hclosed (relink_tended hs hlen hold' hrun hle), fun i hi hzero => ?_⟩
      cases code2Errno_eq_zero hzero
      apply Moved.of_looked h.tended.charted hlooked
      apply relink_moved hs hlen hold' hv hne _ _ hrun hle
      · rwa [hsame]
      · intro k
        rw [hsame]
        exact habsent k
    · have hkfile := hnew k hk
      rw [← hsame] at hk
      refine ⟨hclosed (replace_tended hs hlen hold' hk hkfile hrun hle), fun i hi hzero => ?_⟩
      cases code2Errno_eq_zero hzero
      apply Moved.of_looked h.tended.charted hlooked
      apply replace_moved hs hlen hold' hv hne hk hkfile _ hrun hle
      rwa [hsame]

/-! ## Runs -/

def Short (path : Path) : Prop := path.valid = true ∧ ∀ n ∈ path.names, n.length ≤ 254

/-- A mount on which nothing is open. -/
def idle (s : FS) : Mount := { format with fs := s }

/-- No handle is open but while one is released; regular files and directories are
created, in the first group; fewer than 65535 names are linked to an inode; files are
unlinked; a regular file is renamed, to a name that is free or that of a regular file. -/
def Quiet (m : Mount) : FuseOp → Prop
  | .release _ => True
  | .create _ path mode =>
    m.handles = [] ∧ Short path ∧ isReg mode = true ∧
      (m.fs.groups.super.slots 0).bgFreeCount .inode ≠ 0
  | .mkdir _ path mode => m.handles = [] ∧ Short path ∧ isDir (mode ||| sIfdir) = true ∧
    (m.fs.groups.super.slots 0).bgFreeCount .inode ≠ 0
  | .link src dst =>
    m.handles = [] ∧ Short src ∧ Short dst ∧ ∀ i, (m.fs.inodeLookup src).1 = .ok i →
      m.fs.refs i < 65535
  | .unlink _ path =>
    m.handles = [] ∧ Short path ∧ ∀ i, (m.fs.inodeLookup path).1 = .ok i →
      isDir (m.fs.inodes i).iMode = false
  | .rmdir _ path => m.handles = [] ∧ Short path
  | .rename _ old new flags =>
    m.handles = [] ∧ Short old ∧ Short new ∧ old ≠ new ∧ (flags = 0 ∨ flags = renameNoreplace) ∧
    (∀ i, (m.fs.inodeLookup old).1 = .ok i → isReg (m.fs.inodes i).iMode = true ∧
    m.fs.refs i < 65535) ∧
    ∀ k, (m.fs.inodeLookup new).1 = .ok k → isReg (m.fs.inodes k).iMode = true
  | _ => False

/-- A rename that returns 0 moves the name. -/
def RenameMoves (fuel : Nat) (m : Mount) : FuseOp → Prop
  | .rename ctx old new flags =>
    ∀ i m', (m.fs.inodeLookup old).1 = .ok i → m.fuseRename fuel ctx old new flags = some (0, m') →
    Moved old new i m.fs m'.fs
  | _ => True

theorem Short.back {path : Path} (h : Short path) : path.back.length ≤ 255 :=
  Path.back_short ⟨path, h⟩

theorem few_of_none (h : m.handles = []) (i : Nat) : (m.openOn i).length + 1 < 2 ^ 32 :=
  by simp [openOn, h]

theorem Coherent.hasFree (h : m.Coherent)
    (hfree : (m.fs.groups.super.slots 0).bgFreeCount .inode ≠ 0) :
    m.fs.groups.hasFree .inode = true :=
  (h.tended.books.ledger.hasFree_iff .inode).mpr ⟨0, h.tended.books.ledger.pos, hfree⟩

theorem Coherent.quiet_rename (h : m.Coherent) (hquiet : m.Quiet (.rename ctx old new flags))
    {q : Int × Mount} (hr : m.fuseRename fuel ctx old new flags = some q)
    (hle : q.2.fs.groups.groupCount ≤ 33) :
    q.2.Coherent ∧ ∀ i, (m.fs.inodeLookup old).1 = .ok i → q.1 = 0 →
      Moved old new i m.fs q.2.fs := by
  obtain ⟨hnone, -, hshort, hne, hflags, hold, hnew⟩ := hquiet
  apply h.fuseRename hnone hshort.1 hshort.back hne hflags _ _ hr hle
  · intro i hi
    exact ⟨not_isDir_of_isReg (hold i hi).1, (hold i hi).2⟩
  · intro k hk
    exact not_isDir_of_isReg (hnew k hk)

theorem Coherent.quiet_step (h : m.Coherent) {op : FuseOp} {m' : Mount} (hquiet : m.Quiet op)
    (hs : m.step fuel op = some m') (hle : m'.fs.groups.groupCount ≤ 33) : m'.Coherent := by
  obtain ⟨q, hq, rfl⟩ := Option.map_eq_some_iff.mp hs
  cases op with
  | release fh => exact (h.fuseRelease hq).1
  | create ctx path mode =>
    obtain ⟨hnone, hshort, hmode, hfree⟩ := hquiet
    exact h.fuseCreate (fun i => Nat.lt_of_succ_lt (few_of_none hnone i)) hshort.back hmode
      (h.hasFree hfree) hq hle
  | mkdir ctx path mode =>
    obtain ⟨hnone, hshort, hmode, hfree⟩ := hquiet
    exact h.fuseMkdir (fun i => Nat.lt_of_succ_lt (few_of_none hnone i)) hshort.back hmode
      (h.hasFree hfree) hq hle
  | link src dst =>
    obtain ⟨hnone, -, hshort, hroom⟩ := hquiet
    refine h.fuseLink hshort.back (fun i hi => ?_) (fun i hi => ?_) hq hle
    · rw [deref_allocated h.tended.books (h.tended.charted.found hi).2.2]
      exact hroom i hi
    · rw [h.accounts.opm_none, openOn, hnone]
      rfl
  | unlink ctx path => exact h.fuseUnlink (few_of_none hquiet.1) hquiet.2.2 hq
  | rmdir ctx path => exact h.fuseRmdir hq
  | rename ctx old new flags => exact (h.quiet_rename hquiet hq hle).1
  | _ => cases hquiet

/-- In every run without open files, within the bounds of the caches, a rename moves
exactly one name. -/
theorem rename_moves (fuel : Nat) (ops : List FuseOp)
    (h : Runs.Guarded (step fuel) (fun m op => m.Quiet op ∧
      ModestAfter fuel m op) ops Mount.format) :
    Runs.Guarded (step fuel) (RenameMoves fuel) ops Mount.format ∧
      Runs.Along (step fuel) (fun m => m.fs.Served) ops Mount.format := by
  constructor
  · refine Runs.Guarded.imp (fun m op (hm : m.Coherent) hop => ?_)
      (fun _ _ _ hm hop hs => hm.quiet_step hop.1 hs (hop.2 _ hs).groups) ops
      _ Coherent.format h
    cases op with
    | rename ctx old new flags =>
      intro i m' hi hr
      have hle := (hop.2 m' (by rw [step, exec, hr]; rfl)).groups
      exact (hm.quiet_rename hop.1 hr hle).2 i hi rfl
    | _ => trivial
  · exact Runs.along_of_guarded
      (fun m (hm : m.Coherent ∧ m.fs.Cacheable) => hm.2.served hm.1.tended.charted.order.tidy.clean)
      (fun _ _ _ hm hop hs => ⟨hm.1.quiet_step hop.1 hs (hop.2 _ hs).groups, (hop.2 _ hs).blocks⟩)
        ops _ ⟨Coherent.format, by decide⟩ h

theorem rename_moves_file : Runs.Guarded (step 1) (RenameMoves 1)
    [.create ⟨0, 0⟩ (.of [[102]]) 0x81a4, .release 1, .rename ⟨0, 0⟩ (.of [[102]]) (.of [[103]]) 0]
      Mount.format := by
  refine (rename_moves 1 _ ?_).1
  have hrun : (Mount.format.step 1 (.create ⟨0, 0⟩ (.of [[102]]) 0x81a4)).all fun m₁ =>
      m₁.fs.Modest ∧ (m₁.step 1 (.release 1)).all fun m₂ =>
        m₂.fs.Modest ∧ m₂.handles = [] ∧ (m₂.fs.inodeLookup (.of [[102]])).1.toOption = some 1 ∧
          (m₂.fs.inodeLookup (.of [[103]])).1.toOption = none ∧ isReg (m₂.fs.inodes 1).iMode ∧
          (m₂.fs.inodes 1).iLinksCount = 1 ∧
          (m₂.step 1 (.rename ⟨0, 0⟩ (.of [[102]]) (.of [[103]]) 0)).all fun m₃ =>
            m₃.fs.Modest := by decide +kernel
  have hshort : ∀ c : UInt8, Short (.of [[c]]) := fun c => ⟨by simp [Path.of], by simp [Path.of]⟩
  intro m₁ hs₁
  rw [hs₁, Option.all_some] at hrun
  obtain ⟨hg₁, hrun⟩ := of_decide_eq_true hrun
  have hop₁ : Mount.format.Quiet (.create ⟨0, 0⟩ (.of [[102]]) 0x81a4) ∧
      ModestAfter 1 Mount.format (.create ⟨0, 0⟩ (.of [[102]]) 0x81a4) := by
    refine ⟨⟨rfl, hshort 102, by decide, by decide +kernel⟩, fun m hm => ?_⟩
    cases hs₁.symm.trans hm
    exact hg₁
  have h₁ := Coherent.format.quiet_step hop₁.1 hs₁ hg₁.groups
  refine ⟨hop₁, fun m₂ hs₂ => ?_⟩
  rw [hs₂, Option.all_some] at hrun
  obtain ⟨hg₂, hh₂, hlook, hno, hreg, hlinks, hrun⟩ := of_decide_eq_true hrun
  have hop₂ : m₁.Quiet (.release 1) ∧ ModestAfter 1 m₁ (.release 1) := by
    refine ⟨trivial, fun m hm => ?_⟩
    cases hs₂.symm.trans hm
    exact hg₂
  have h₂ := h₁.quiet_step hop₂.1 hs₂ hg₂.groups
  refine ⟨hop₂, fun m₃ hs₃ => ⟨⟨⟨hh₂, hshort 102, hshort 103, by decide, Or.inl rfl, fun i hi => ?_,
    fun k hk => ?_⟩, fun m hm => ?_⟩, trivial⟩⟩
  · rw [hi] at hlook
    cases hlook
    refine ⟨hreg, ?_⟩
    have hord := h₂.tended.charted.order
    rw [← hord.counted 1 (h₂.tended.charted.found hi).2.2 (by decide), hlinks]
    decide
  · rw [hk] at hno
    cases hno
  · rw [hm, Option.all_some] at hrun
    exact of_decide_eq_true hrun

end Mount

end NaiveFS
