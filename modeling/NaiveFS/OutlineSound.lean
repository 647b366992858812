import NaiveFS.PathSound
import NaiveFS.RenameSound

/-!
# The namespace with symbolic links

`outline` is the namespace alone, with symbolic links as files and files without
contents. On paths that go through directories, lookups, links and removals of names do
on the state what they do on its outline (`Housed.lookup`, `Housed.linked`,
`Housed.unlinked`).
-/

namespace NaiveFS

namespace FS

open Groups

variable {s s' t : FS} {i j k d p : Nat} {name : Name} {path src dst : Path} {r : RetCode}
  {fuel : Nat}

/-! ## When a call succeeds -/

namespace Charted

variable (h : s.Charted)
include h

theorem target_of_found (hne : path.names ≠ []) (hi : (s.inodeLookup path).1 = .ok i) :
    s.target path = some i := by
  obtain ⟨p, hp, hpd, hin⟩ := h.entry hne hi
  obtain ⟨hpa, hpm⟩ := isDirectory_iff.mp hpd
  have hderef := deref_allocated h.order.books hpa
  cases hl : s.inodeLookup path.parent with
  | mk res t =>
    rw [hl] at hp
    simp only at hp
    subst hp
    have htarget := target_eq hl (by rw [hderef]; exact hpm) hne
    cases hj : s.target path with
    | some j =>
      cases (h.target_found hj).symm.trans hi
      rfl
    | none =>
      rw [hj, hderef] at htarget
      obtain ⟨e, he, -, ht, -⟩ := mem_listing.mp hin
      obtain ⟨b, hb, heb⟩ := List.mem_flatMap.mp he
      have hno := killVisitor_none htarget.symm b hb e heb
      rw [((h.order.tidy.whole p hpa e he).hasName_iff _).mpr ht] at hno
      cases hno

theorem unlink_succeeds (hne : path.names ≠ []) (hi : (s.inodeLookup path).1 = .ok i)
    (hu : s.inodeUnlink fuel path = some (r, s')) : r = .success := by
  have htarget := h.target_of_found hne hi
  obtain ⟨p, -, hpd, hin⟩ := h.entry hne hi
  obtain ⟨-, hia, hir⟩ := h.order.of_listing (isDirectory_iff.mp hpd).1 hin
  have hderef := deref_allocated h.order.books hia
  rcases inodeUnlink_cases h.order.tidy.root hu with ⟨c, -, -, -, hunfound⟩ | ⟨p', c, st, j, hl, -,
    hpm, -, -, hst, -, hj, hdrop⟩
  · obtain ⟨hv, -, -⟩ := h.found hi
    rcases hunfound with hc | hc | hno
    · rw [hv] at hc
      cases hc
    · exact absurd hc hne
    · unfold target at htarget
      rw [if_neg (by simpa using hne)] at htarget
      split at htarget
      · cases htarget
      · rename_i hl
        split at htarget
        · rename_i hd
          cases htarget.symm.trans (hno _ _ hl hd)
        · cases htarget
  · rw [target_eq hl hpm hne, ← hst, hj] at htarget
    cases htarget
    refine dropLink_success (by rw [hderef]; exact getInode_of_allocated h.order.books hia)
      (fun hstuck => ?_) hdrop
    rcases hstuck.2 with hc | ⟨hreg, hdir⟩
    · exact hir hc
    · rw [hderef] at hreg hdir
      rcases h.order.linked.graph.kind i hia with hc | hc
      · rw [show isReg (s.inodes i).iMode = false from hreg] at hc
        cases hc
      · rw [show isDir (s.inodes i).iMode = false from hdir] at hc
        cases hc

theorem link_succeeds (hsrc : (s.inodeLookup src).1 = .ok i)
    (hfile : isDir (s.inodes i).iMode = false) (hne : dst.names ≠ [])
    (hp : (s.inodeLookup dst.parent).1 = .ok p) (hpd : isDir (s.inodes p).iMode = true)
    (hnew : ∀ k, (s.inodeLookup dst).1 ≠ .ok k) (hl : s.inodeLink src dst = some (r, s')) :
    r = .success := by
  obtain ⟨hvs, hws, hia⟩ := h.found hsrc
  obtain ⟨hvd, hwp, hpa⟩ := h.found hp
  have hback : dst.back ≠ [] := Path.back_ne_nil hvd hne
  have hsne : src.names ≠ [] := by
    intro hc
    rw [hc] at hws
    cases hws
    rw [(isDirectory_iff.mp h.order.linked.graph.root).2] at hfile
    cases hfile
  -- no entry of the directory has the name
  have hentries : ∀ e ∈ s.entries p, e.hasName dst.back = false := by
    intro e he
    by_contra hn
    rw [Bool.not_eq_false] at hn
    refine hnew e.inode ?_
    have hnil := dst.nonempty hvd
    rw [(h.lookup dst hvd).1]
    rw [Path.names_eq hne] at hnil ⊢
    refine (h.order.walk_concat_ok hnil).mpr ⟨p, hwp, isDirectory_iff.mpr ⟨hpa, hpd⟩, ?_⟩
    exact (h.order.tidy.mem_listing_iff hpa hback).mpr ⟨e, he, hn, rfl⟩
  obtain ⟨c, hc⟩ := inodeLookup_frame src s
  have hlook : s.inodeLookup src = (.ok i, { s with dcache := c }) := Prod.ext hsrc hc
  obtain ⟨c', hc'⟩ := inodeLookup_frame dst.parent { s with dcache := c }
  have hlook' : ({ s with dcache := c } : FS).inodeLookup dst.parent =
    (.ok p, { s with dcache := c' }) :=
    Prod.ext ((h.lookup_looked (Looked.start.of_eq hlook) dst.parent).trans hp) hc'
  have hscan := inodeLookupIn_new (s := { s with dcache := c' }) hentries
  have hvalid : (!src.valid || !dst.valid) = false := by simp [hvs, show dst.valid = true from hvd]
  have hnames : (src.names.isEmpty || dst.names.isEmpty) = false := by simp [hsne, hne]
  unfold inodeLink Calls.inodeLink at hl
  simp only [hvalid, hnames, hlook, deref_allocated h.order.books hia, hfile, hlook',
    deref_allocated h.order.books hpa, hpd, hscan, Bool.not_true, Bool.false_eq_true,
    if_false] at hl
  split at hl
  · cases hl
  · cases hl
    rfl
  · rename_i hrc hdc
    exact absurd (dentryCreate_inv hdc).1 hrc

end Charted

theorem walk_groups {g : Groups} (hsame : ∀ j, g.allocated .inode j = s.groups.allocated .inode j) :
    ∀ (q : List Name) (j : Nat), ({ s with groups := g } : FS).walk j q = s.walk j q := by
  have hsearch : ∀ d name, ({ s with groups := g } : FS).search d name = s.search d name := by
    intro d name
    have hvisitor : ({ s with groups := g } : FS).searchVisitor name = s.searchVisitor name := by
      funext b result
      simp only [searchVisitor, getInode, hsame]
    unfold search
    rw [hvisitor]
    rfl
  intro q
  induction q with
  | nil => exact fun _ => rfl
  | cons elem rest ih =>
    intro j
    simp only [walk, hsearch, ih]

/-! ## Paths through directories -/

theorem outline_links (s : FS) (i : Nat) :
    (s.outline.inodes i).iLinksCount = (s.inodes i).iLinksCount := sketch_iLinksCount _

/-- The path is well formed, and what comes before its last component leads to
directories. -/
structure Walkable (s : FS) (p : Path) : Prop where
  valid : p.valid = true
  dirs : ∀ q, q <+: p.names → q ≠ p.names → ∃ d, s.outline.walk rootInode q = .ok d ∧
    s.outline.isDirectory d = true

namespace Walkable

variable (hp : s.Walkable path)
include hp

theorem nonempty {q : List Name} (hq : q <+: path.names) : [] ∉ q :=
  fun hm => path.nonempty hp.valid (hq.subset hm)

theorem parent : s.Walkable path.parent := by
  have hpre : path.parent.names <+: path.names := List.dropLast_prefix _
  refine ⟨hp.valid, fun q hq hne => hp.dirs q (hq.trans hpre) ?_⟩
  rintro rfl
  exact hne (List.IsPrefix.eq_of_length hq (Nat.le_antisymm hq.length_le hpre.length_le))

theorem parent_dir (hne : path.names ≠ []) :
    ∃ d, s.outline.walk rootInode path.parent.names = .ok d ∧ s.outline.isDirectory d = true := by
  refine hp.dirs _ (List.dropLast_prefix _) fun heq => ?_
  have := congrArg List.length heq
  have hpos := List.length_pos_iff.mpr hne
  rw [Path.parent, List.length_dropLast] at this
  omega

theorem gained {Q : List Name} (hg : Gained Q i s.outline s'.outline) : s'.Walkable path := by
  refine ⟨hp.valid, fun q hq hne => ?_⟩
  obtain ⟨d, hd, hdir⟩ := hp.dirs q hq hne
  refine ⟨d, (hg.walk q d (hp.nonempty hq)).mpr (Or.inl hd), ?_⟩
  rw [isDirectory, hg.allocated, hg.mode]
  exact hdir

theorem lost {Q : List Name} (hl : Lost Q i s.outline s'.outline)
    (hi : s.outline.walk rootInode Q = .ok i) (hfile : s.outline.isDirectory i = false) :
    s'.Walkable path := by
  refine ⟨hp.valid, fun q hq hne => ?_⟩
  obtain ⟨d, hd, hdir⟩ := hp.dirs q hq hne
  have hdi : d ≠ i := by
    rintro rfl
    rw [hfile] at hdir
    cases hdir
  refine ⟨d, (hl.walk q d (hp.nonempty hq)).mpr ⟨hd, ?_⟩, ?_⟩
  · rintro rfl
    cases hd.symm.trans hi
    exact hdi rfl
  · obtain ⟨ha, hm⟩ := isDirectory_iff.mp hdir
    refine isDirectory_iff.mpr ⟨(hl.allocated d).mpr ⟨ha, fun hc => hdi hc.1⟩, ?_⟩
    rw [hl.mode]
    exact hm

end Walkable

namespace Housed

variable (h : s.Housed)
include h

theorem books : s.groups.Books := h.clean.books

theorem sealed (hp : s.Walkable path) : s.Sealed rootInode path.names := by
  refine sealed_of_not_strays fun hstray => ?_
  obtain ⟨l, x, f, hq, -, hw, hf, -⟩ := hstray
  obtain ⟨d, hd, hdir⟩ := hp.dirs l ⟨[x], hq.symm⟩ (by rw [hq]; simp)
  cases hw.symm.trans (walk_of_outline hd)
  obtain ⟨ha, hm⟩ := isDirectory_iff.mp hdir
  rw [deref_allocated h.books ha] at hf
  rw [outline_isDir, hf] at hm
  cases hm

theorem lookup_outline (hp : s.Walkable path) :
    s.outline.inodeLookup path = ((s.inodeLookup path).1, (s.inodeLookup path).2.outline) :=
  FS.lookup_outline h.charted path fun _ => h.sealed hp

theorem lookup (hp : s.Walkable path) :
    (s.inodeLookup path).1 = s.outline.walk rootInode path.names := by
  rw [← (h.charted.lookup path hp.valid).1, h.lookup_outline hp]

theorem looked (hp : s.Walkable path) : (s.inodeLookup path).2.Housed := by
  have hchart := (h.charted.lookup path hp.valid).2
  rw [h.lookup_outline hp] at hchart
  obtain ⟨c, hc⟩ := inodeLookup_frame path s
  rw [hc] at hchart ⊢
  exact h.cached hchart

theorem lookup_cached {c : DentryCache} (hc : ({ s with dcache := c } : FS).Housed) (path : Path) :
    (({ s with dcache := c } : FS).inodeLookup path).1 = (s.inodeLookup path).1 := by
  by_cases hv : path.valid = true
  · rw [lookup_walk h.charted path hv, lookup_walk hc.charted path hv, walk_cached]
  · simp [inodeLookup, hv]

theorem allocated (hv : path.valid = true) (hi : s.outline.walk rootInode path.names = .ok i) :
    s.groups.allocated .inode i = true :=
  h.charted.order.walk_allocated h.charted.order.tidy.root (path.nonempty hv) hi

theorem refs_lt (hi : s.groups.allocated .inode i = true)
    (hroom : (s.inodes i).iLinksCount < 65535) : s.outline.refs i < 65535 := by
  have := h.charted.order.linked.count i hi
  rw [outline_links] at this
  omega

theorem names_ne_nil (hi : s.outline.walk rootInode path.names = .ok i)
    (hfile : isDir (s.inodes i).iMode = false) : path.names ≠ [] := by
  intro hc
  rw [hc] at hi
  cases hi
  have := (isDirectory_iff.mp h.charted.order.linked.graph.root).2
  rw [outline_isDir, hfile] at this
  cases this

theorem target (hp : s.Walkable path) (hne : path.names ≠ [])
    (hi : s.outline.walk rootInode path.names = .ok i) :
    s.target path = some i := by
  rw [← outline_target h.charted fun _ => h.sealed hp.parent]
  exact h.charted.target_of_found hne ((h.charted.lookup path hp.valid).1.trans hi)

theorem ne_root (hp : s.Walkable path) (hne : path.names ≠ [])
    (hi : s.outline.walk rootInode path.names = .ok i) : i ≠ rootInode := by
  obtain ⟨d, -, hd, hin⟩ := h.charted.entry hne ((h.charted.lookup path hp.valid).1.trans hi)
  exact (h.charted.order.of_listing (isDirectory_iff.mp hd).1 hin).2.2

theorem links_pos (hp : s.Walkable path) (hne : path.names ≠ [])
    (hi : s.outline.walk rootInode path.names = .ok i) :
    0 < (s.inodes i).iLinksCount := by
  obtain ⟨d, -, hd, hin⟩ := h.charted.entry hne ((h.charted.lookup path hp.valid).1.trans hi)
  obtain ⟨e, he, hl, -, rfl⟩ := mem_listing.mp hin
  obtain ⟨-, hia, hir⟩ := h.charted.order.of_listing (isDirectory_iff.mp hd).1 hin
  have hpos := refs_pos h.charted.order.books (mem_dirEntries.mpr ⟨hd, he⟩) hl
  rw [← h.charted.order.counted _ hia hir, outline_links] at hpos
  exact hpos

/-! ## Calls on the namespace -/

theorem linked (hsrc : s.Walkable src) (hdst : s.Walkable dst) (hlen : dst.back.length ≤ 255)
    (hroom : ∀ i, s.outline.walk rootInode src.names = .ok i → (s.inodes i).iLinksCount < 65535)
    (hl : s.inodeLink src dst = some (r, s')) (hle : s'.groups.groupCount ≤ 33) :
    s'.Housed ∧ s.outline.inodeLink src dst = some (r, s'.outline) := by
  refine h.linked_sealed (fun _ => h.sealed hsrc) (fun _ => h.sealed hdst.parent) hlen
    (fun i hi => ?_) hl hle
  rw [h.lookup hsrc] at hi
  have hia := h.allocated hsrc.valid hi
  rw [deref_allocated h.books hia, ← outline_refs]
  exact h.refs_lt hia (hroom i hi)

theorem link_gained (hsrc : s.Walkable src) (hdst : s.Walkable dst) (hlen : dst.back.length ≤ 255)
    (hroom : ∀ i, s.outline.walk rootInode src.names = .ok i → (s.inodes i).iLinksCount < 65535)
    (hl : s.inodeLink src dst = some (.success, s')) (hle : s'.groups.groupCount ≤ 33) :
    ∃ i, s.outline.walk rootInode src.names = .ok i ∧ isDir (s.inodes i).iMode = false ∧
      Gained dst.names i s.outline s'.outline := by
  have hwalk := (h.charted.lookup src hsrc.valid).1
  have hrefs : ∀ i, (s.outline.inodeLookup src).1 = .ok i → s.outline.refs (deref i) < 65535 := by
    intro i hi
    rw [hwalk] at hi
    have hia := h.allocated hsrc.valid hi
    rw [deref_allocated h.books hia]
    exact h.refs_lt hia (hroom i hi)
  obtain ⟨i, hi, hfile, hg⟩ :=
    h.charted.link_gained hlen hrefs (h.linked hsrc hdst hlen hroom hl hle).2 hle
  rw [outline_isDir] at hfile
  exact ⟨i, hwalk.symm.trans hi, hfile, hg⟩

theorem link_succeeds (hsrc : s.Walkable src) (hdst : s.Walkable dst) (hne : dst.names ≠ [])
    (hlen : dst.back.length ≤ 255)
    (hroom : ∀ i, s.outline.walk rootInode src.names = .ok i → (s.inodes i).iLinksCount < 65535)
    (hi : s.outline.walk rootInode src.names = .ok i) (hfile : isDir (s.inodes i).iMode = false)
    (hnew : ∀ k, s.outline.walk rootInode dst.names ≠ .ok k)
    (hl : s.inodeLink src dst = some (r, s')) (hle : s'.groups.groupCount ≤ 33) : r = .success := by
  obtain ⟨p, hp, hpd⟩ := hdst.parent_dir hne
  refine h.charted.link_succeeds ((h.charted.lookup src hsrc.valid).1.trans hi)
    (by rw [outline_isDir]; exact hfile) hne
    ((h.charted.lookup dst.parent hdst.valid).1.trans hp) (isDirectory_iff.mp hpd).2 (fun k => ?_)
    (h.linked hsrc hdst hlen hroom hl hle).2
  rw [(h.charted.lookup dst hdst.valid).1]
  exact hnew k

theorem unlinked (hp : s.Walkable path) (hi : s.outline.walk rootInode path.names = .ok i)
    (hfile : isDir (s.inodes i).iMode = false) (hfree : ¬ s.Stuck i)
    (hu : s.inodeUnlink fuel path = some (r, s')) :
    r = .success ∧ s'.Housed ∧ Lost path.names i s.outline s'.outline := by
  have hne := h.names_ne_nil hi hfile
  have hia := h.allocated hp.valid hi
  have htarget := h.target hp hne hi
  have hempty : ∀ j, s.target path = some j → s.isDirectory j = true → s.listing j = [] := by
    intro j hj hd
    cases htarget.symm.trans hj
    rw [(isDirectory_iff.mp hd).2] at hfile
    cases hfile
  have hfree' : ∀ j, s.target path = some j → ¬ s.Stuck j := by
    intro j hj
    cases htarget.symm.trans hj
    exact hfree
  obtain ⟨hhoused, g, hout, hsame⟩ :=
    h.unlinked_sealed (fun _ => h.sealed hp.parent) hempty hfree' hu
  have hfound : (s.outline.inodeLookup path).1 = .ok i :=
    (h.charted.lookup path hp.valid).1.trans hi
  have hr := h.charted.unlink_succeeds hne hfound hout
  subst hr
  have hfile' : ∀ j, (s.outline.inodeLookup path).1 = .ok j → isDir (s.outline.inodes j).iMode =
    false := by
    intro j hj
    cases hj.symm.trans hfound
    rw [outline_isDir]
    exact hfile
  obtain ⟨i', hi', hl⟩ := h.charted.unlink_lost hfile' hout
  cases hi'.symm.trans hfound
  refine ⟨rfl, hhoused, fun q k hq => ?_, hl.links, hl.mode, fun j => ?_⟩
  · rw [← hl.walk q k hq, ← walk_groups (s := s'.outline) hsame]
  · rw [← hl.allocated j, hsame]
    rfl

end Housed

/-! ## Removing a name without leaving the namespace in order -/

theorem clears_of_target (hv : path.valid = true) (h : s.target path = some i) :
    s.Clears path i := by
  unfold target at h
  split at h
  · cases h
  · rename_i hne
    split at h
    · cases h
    · rename_i parent t hl
      split at h
      · rename_i hd
        exact ⟨hv, by simpa using hne, parent, t, hl, hd, h⟩
      · cases h

theorem Walkable.cached (hp : s.Walkable path) (c : DentryCache) :
    ({ s with dcache := c } : FS).Walkable path := by
  refine ⟨hp.valid, fun q hq hne => ?_⟩
  obtain ⟨d, hd, hdir⟩ := hp.dirs q hq hne
  exact ⟨d, (walk_cached (s := s.outline) c q rootInode).trans hd, hdir⟩

theorem outline_walk_cached (c : DentryCache) (q : List Name) :
    ({ s with dcache := c } : FS).outline.walk rootInode q = s.outline.walk rootInode q :=
      walk_cached (s := s.outline) c q rootInode

theorem Housed.link_new (h : s.Housed) (hsrc : s.Walkable src) (hdst : s.Walkable dst)
    (hl : s.inodeLink src dst = some (.success, s')) (k : Nat) :
    s.outline.walk rootInode dst.names ≠ .ok k := by
  intro hk
  rcases inodeLink_inv hl with ⟨c, -, -, hr⟩ | ⟨index, parent, c, c', t, hlook, -, hlook', -, hv,
    hne, -, hnone, -⟩
  · exact hr rfl
  have hlooked := h.looked hsrc
  rw [hlook] at hlooked
  obtain ⟨p, hp, hpd, hin⟩ := h.charted.entry hne ((h.charted.lookup dst hdst.valid).1.trans hk)
  have hparent := hlooked.lookup (hdst.parent.cached c)
  rw [hlook', outline_walk_cached, ← (h.charted.lookup dst.parent hdst.valid).1, hp] at hparent
  cases hparent
  obtain ⟨hpa, hpm⟩ := isDirectory_iff.mp hpd
  rw [deref_allocated h.books hpa] at hnone
  rw [outline_isDir] at hpm
  obtain ⟨e, he, -, ht, -⟩ := mem_listing.mp hin
  have hname := ((h.charted.order.tidy.whole _ hpa e he).hasName_iff dst.back).mpr ht
  rw [outline_entries hpm] at he
  obtain ⟨x, hx, rfl⟩ := List.mem_map.mp he
  rw [hasName_maskDentry, hnone x hx] at hname
  cases hname

theorem not_stuck_of_links (hderef : deref i = i) (hlinks : 2 ≤ (s.inodes i).iLinksCount)
    (hbound : (s.inodes i).iLinksCount < 65536) :
    ¬ s.Stuck i := by
  intro hstuck
  have := hstuck.1
  rw [hderef, u16] at this
  omega

theorem putBlock_new {b : Nat} (hb : s.allocBlock i = (some b, t)) (es : List Dentry) :
    s.putBlock i (s.inodes i).iBlock.length es =
      { t with dents := Function.update t.dents b es } := by
  unfold putBlock
  rw [List.getElem?_eq_none (Nat.le_refl _), hb]

theorem Housed.created_kind {mode : Nat} (h : s.Housed)
    (hc : s.inodeCreate path mode = some (.ok i, s')) (hle : s'.groups.groupCount ≤ 33) :
    s'.groups.allocated .inode i = true ∧ isDir (s'.inodes i).iMode = isDir mode := by
  rcases inodeCreate_cases h.clean h.root hc hle with ⟨_, _, -, -, hr⟩ |
    ⟨parent, c, i', g, -, -, -, -, -, -, hi, hout, -, hadd⟩
  · cases hr
  · cases hi
    refine ⟨(hadd.allocated i).trans hout.taken, ?_⟩
    have hmode : (s'.inodes i).iMode = u16 mode := by
      rw [hadd.mode]
      change (Function.update s.inodes i (s.newInode mode) i).iMode = _
      rw [Function.update_self, newInode_iMode]
    rw [hmode, isDir, isDir, fileType_u16]

/-! ## Attributes -/

/-- `fuse_chmod` and `fuse_chown`: permissions and owners change, the kind of the inode
does not. -/
def setAttributes (i user group mode : Nat) (s : FS) : FS :=
  { s with inodes := Function.update s.inodes i { s.inodes i with
      iMode := (s.inodes i).iMode / 4096 * 4096 + mode % 4096, iUid := u16 user, iGid :=
      u16 group } }

theorem fileType_maskMode (mode : Nat) :
    fileType (maskMode mode) = if isDir mode then 4 else 8 := by
  have hd := isDir_maskMode mode
  have hr := isReg_maskMode mode
  unfold isDir at hd
  unfold isReg at hr
  split
  · rename_i h
    rw [isDir] at h
    rw [h] at hd
    exact beq_iff_eq.mp hd
  · rename_i h
    rw [Bool.not_eq_true] at h
    rw [h] at hr
    exact beq_iff_eq.mp hr

theorem Housed.attributes (h : s.Housed) (i user group mode : Nat) :
    (s.setAttributes i user group mode).Housed := by
  have hdir : ∀ j, isDir ((s.setAttributes i user group mode).inodes j).iMode =
    isDir (s.inodes j).iMode := by
    intro j
    by_cases hji : j = i
    · subst hji
      simp only [setAttributes, Function.update_self, isDir, fileType]
      congr 1
      omega
    · simp only [setAttributes, Function.update_of_ne hji]
  have hfield : ∀ {α : Type} (f : ListInode → α),
    (∀ ino m u g, f { ino with iMode := m, iUid := u, iGid := g } = f ino) →
      ∀ j, f ((s.setAttributes i user group mode).inodes j) = f (s.inodes j) := by
    intro α f hf j
    by_cases hji : j = i
    · subst hji
      simp only [setAttributes, Function.update_self, hf]
    · simp only [setAttributes, Function.update_of_ne hji]
  have hblocks := hfield (fun ino => ino.iBlock) fun _ _ _ _ => rfl
  have hclean : (s.setAttributes i user group mode).Clean s.groups := by
    have hholds : (s.setAttributes i user group mode).Holds s.groups = s.Holds s.groups := by
      unfold Holds
      simp only [hblocks]
    refine ⟨h.books, by rw [hholds]; exact h.clean.owned, fun j hj => ?_⟩
    rw [hblocks]
    exact h.clean.nodup j hj
  refine ⟨hclean, Similar.charted (s := s.outline) ?_ h.charted⟩
  refine ⟨fun j _ => ?_, fun j _ => ?_, fun j _ => ?_, rfl, fun _ => rfl, fun _ _ _ _ => rfl,
    outline_clean hclean⟩
  · simp only [outline_inodes, sketch_iMode, fileType_maskMode, hdir]
  · rw [outline_links, outline_links]
    exact hfield (fun ino => ino.iLinksCount) (fun _ _ _ _ => rfl) j
  · rw [outline_inodes, outline_inodes, sketch, sketch, hdir]
    split
    · exact hblocks j
    · rfl

end FS

end NaiveFS
