import NaiveFS.PagedWalk
import NaiveFS.Lib.Runs

/-!
# Referential integrity of the namespace

Every live entry names an allocated inode as long as the link counts are right
and no directory is removed while something below it has a name elsewhere:
`inode_unlink` honours the link count of the entry it removes, `inode_delete`
does not look at the counts of what lies below.
-/

namespace NaiveFS

namespace FS

open Groups

/-- Inode indices of a file system with at most 33 groups lie below this. -/
@[irreducible] def inodeLimit : Nat := 33 * inodesPerGroup

def isDirectory (s : FS) (d : Nat) : Bool := s.groups.allocated .inode d && isDir (s.inodes d).iMode

/-- The entries of `d` if it is a directory. -/
def dirEntries (s : FS) (d : Nat) : List Dentry := if s.isDirectory d then s.entries d else []

/-- Live entries that name `i`, over all directories. -/
def refs (s : FS) (i : Nat) : Nat := ∑ d ∈ Finset.range inodeLimit, Dentry.naming i (s.dirEntries d)

theorem isDirectory_iff {s : FS} {d : Nat} :
    s.isDirectory d = true ↔ s.groups.allocated .inode d = true ∧
      isDir (s.inodes d).iMode = true := by
  simp [isDirectory]

theorem isDirectory_ne {s : FS} {d i : Nat} (hd : s.isDirectory d = true)
    (hi : s.groups.allocated .inode i = false) : d ≠ i := by
  rintro rfl
  rw [isDirectory_iff, hi] at hd
  cases hd.1

theorem mem_dirEntries {s : FS} {d : Nat} {e : Dentry} :
    e ∈ s.dirEntries d ↔ s.isDirectory d = true ∧ e ∈ s.entries d := by
  unfold dirEntries
  split
  · rename_i h; simp [h]
  · rename_i h; simp [h]

/-- The shape of the namespace, apart from the link counts. -/
structure Graph (s : FS) : Prop where
  clean : s.Clean s.groups
  root : s.isDirectory rootInode = true
  kind : ∀ i, s.groups.allocated .inode i = true → isReg (s.inodes i).iMode = true ∨
    isDir (s.inodes i).iMode = true
  named : ∀ d, ∀ e ∈ s.dirEntries d, e.live = true → s.groups.allocated .inode e.inode = true ∧
    e.inode ≠ rootInode
  -- directories are entered where they were created, so creation order is a rank
  ranked : ∃ rank : Nat → Nat, ∀ d, ∀ e ∈ s.dirEntries d, e.live = true →
    s.isDirectory e.inode = true →
    rank d < rank e.inode

/-- The link count of an inode covers its names. -/
structure Linked (s : FS) : Prop where
  graph : s.Graph
  count : ∀ i, s.groups.allocated .inode i = true → s.refs i ≤ (s.inodes i).iLinksCount
  bound : ∀ i, s.groups.allocated .inode i = true → (s.inodes i).iLinksCount < 65536

variable {s s' : FS} {d : Nat} {path : Path}

theorem lt_inodeLimit (h : s.groups.Books) {i : Nat} (ha : s.groups.allocated .inode i = true) :
    i < inodeLimit := by
  unfold inodeLimit
  exact h.index_lt ha

theorem not_isDir_of_isReg {mode : Nat} (h : isReg mode = true) : isDir mode = false := by
  simp only [isReg, isDir, beq_iff_eq] at h ⊢
  simp [h]

theorem fileType_u16 (mode : Nat) : fileType (u16 mode) = fileType mode :=
  by unfold fileType u16; omega

/-! ## Counting -/

theorem naming_pos {i : Nat} {l : List Dentry} {e : Dentry} (he : e ∈ l) (hl : e.live = true)
    (hi : e.inode = i) :
    0 < Dentry.naming i l := by
  rw [Dentry.naming, List.countP_pos_iff]
  exact ⟨e, he, by simp [hl, hi]⟩

theorem refs_pos (hb : s.groups.Books) {e : Dentry} (he : e ∈ s.dirEntries d) (hl : e.live = true) :
    0 < s.refs e.inode := by
  have hd := lt_inodeLimit hb (isDirectory_iff.mp (mem_dirEntries.mp he).1).1
  exact Nat.lt_of_lt_of_le (naming_pos he hl rfl)
    (Finset.single_le_sum (f := fun d => Dentry.naming e.inode (s.dirEntries d))
      (fun _ _ => Nat.zero_le _)
      (Finset.mem_range.mpr hd))

theorem refs_eq_zero {i : Nat} (h : ∀ d, ∀ e ∈ s.dirEntries d, e.live = true → e.inode ≠ i) :
    s.refs i = 0 := by
  refine Finset.sum_eq_zero fun d _ => ?_
  rw [Dentry.naming, List.countP_eq_zero]
  intro e he
  have := h d e he
  simp_all

theorem refs_mono {i : Nat}
    (h : ∀ d, Dentry.naming i (s'.dirEntries d) ≤ Dentry.naming i (s.dirEntries d)) :
    s'.refs i ≤ s.refs i := Finset.sum_le_sum fun d _ => h d

theorem refs_congr (h : ∀ d, s'.dirEntries d = s.dirEntries d) (i : Nat) : s'.refs i = s.refs i :=
  Finset.sum_congr rfl fun d _ => by rw [h d]

theorem refs_change {i p : Nat} (hp : p < inodeLimit)
    (h : ∀ d, d ≠ p → s'.dirEntries d = s.dirEntries d) :
    s'.refs i + Dentry.naming i (s.dirEntries p) =
      s.refs i + Dentry.naming i (s'.dirEntries p) := by
  have hp' := Finset.mem_range.mpr hp
  unfold refs
  rw [← Finset.add_sum_erase _ _ hp',
    ← Finset.add_sum_erase _ (fun d => Dentry.naming i (s.dirEntries d)) hp']
  have : ∑ d ∈ (Finset.range inodeLimit).erase p, Dentry.naming i (s'.dirEntries d) =
      ∑ d ∈ (Finset.range inodeLimit).erase p, Dentry.naming i (s.dirEntries d) :=
    Finset.sum_congr rfl fun d hd => by rw [h d (Finset.ne_of_mem_erase hd)]
  omega

/-! ## A new inode -/

section NewInode

variable {i : Nat} {ino : ListInode} {g : Groups} {c : DentryCache}
  (hout : HandedOut .inode i s.groups g)
include hout

theorem isDirectory_newInode (d : Nat) :
    ({ s with groups := g, inodes := Function.update s.inodes i ino, dcache := c } : FS).isDirectory
      d =
      if d = i then isDir ino.iMode else s.isDirectory d := by
  unfold isDirectory
  by_cases hd : d = i
  · subst hd
    simp [hout.taken]
  · simp [hd, hout.after]

theorem dirEntries_newInode (hempty : ino.iBlock = []) (d : Nat) :
    ({ s with groups := g, inodes := Function.update s.inodes i ino, dcache := c } : FS).dirEntries
      d = s.dirEntries d := by
  unfold dirEntries
  rw [isDirectory_newInode hout]
  by_cases hd : d = i
  · subst hd
    simp [isDirectory, hout.free, entries, hempty]
  · simp [hd, entries]

theorem Graph.newInode (h : s.Graph) (hbooks : g.Books) (hempty : ino.iBlock = [])
    (hkind : isReg ino.iMode = true ∨ isDir ino.iMode = true) :
    ({ s with groups := g, inodes := Function.update s.inodes i ino, dcache := c } : FS).Graph := by
  have hne : ∀ {j}, s.groups.allocated .inode j = true → j ≠ i := by
    rintro j hj rfl
    rw [hout.free] at hj
    cases hj
  refine ⟨h.clean.newInode hout hbooks hempty c, ?_, fun j hj => ?_, fun d e he hl => ?_, ?_⟩
  · rw [isDirectory_newInode hout, if_neg (hne (isDirectory_iff.mp h.root).1)]
    exact h.root
  · by_cases hji : j = i
    · subst hji
      simpa using hkind
    · simp only [Function.update_of_ne hji]
      rw [hout.after, if_neg fun hc => hji hc.2] at hj
      exact h.kind j hj
  · rw [dirEntries_newInode hout hempty] at he
    obtain ⟨ha, hr⟩ := h.named d e he hl
    exact ⟨hout.keep ha, hr⟩
  · obtain ⟨rank, hrank⟩ := h.ranked
    refine ⟨rank, fun d e he hl hdir => ?_⟩
    rw [dirEntries_newInode hout hempty] at he
    rw [isDirectory_newInode hout, if_neg (hne (h.named d e he hl).1)] at hdir
    exact hrank d e he hl hdir

end NewInode

/-! ## A new entry -/

section NewEntry

variable {p : Nat} {e : Dentry} (hadd : Added p e s s')
include hadd

theorem Added.mode (d : Nat) : (s'.inodes d).iMode = (s.inodes d).iMode := by
  by_cases hd : d = p
  · rw [hd, hadd.same.mode]
  · rw [hadd.inodes d hd]

theorem Added.links (d : Nat) : (s'.inodes d).iLinksCount = (s.inodes d).iLinksCount := by
  by_cases hd : d = p
  · rw [hd, hadd.same.links]
  · rw [hadd.inodes d hd]

theorem Added.isDirectory (d : Nat) : s'.isDirectory d = s.isDirectory d := by
  unfold FS.isDirectory
  rw [hadd.allocated, hadd.mode]

theorem Added.dirEntries_self (hp : s.isDirectory p = true) :
    s'.dirEntries p = s.dirEntries p ++ [e] := by
  unfold FS.dirEntries
  rw [hadd.isDirectory, if_pos hp, if_pos hp, hadd.entries]

theorem Added.dirEntries_ne (hd : d ≠ p) : s'.dirEntries d = s.dirEntries d := by
  unfold FS.dirEntries
  rw [hadd.isDirectory]
  split
  · rename_i h
    exact hadd.others d (isDirectory_iff.mp h).1 hd
  · rfl

theorem Added.mem_dirEntries (hp : s.isDirectory p = true) {x : Dentry} (hx : x ∈ s'.dirEntries d) :
    x ∈ s.dirEntries d ∨ d = p ∧ x = e := by
  by_cases hd : d = p
  · subst hd
    rw [hadd.dirEntries_self hp, List.mem_append, List.mem_singleton] at hx
    exact hx.imp_right fun hx => ⟨rfl, hx⟩
  · rw [hadd.dirEntries_ne hd] at hx
    exact Or.inl hx

theorem Added.refs (hp : s.isDirectory p = true) (hb : s.groups.Books) (i : Nat) :
    s'.refs i = s.refs i + if e.live && e.inode == i then 1 else 0 := by
  have hlt := lt_inodeLimit hb (isDirectory_iff.mp hp).1
  have hchange := refs_change (i := i) hlt fun d hd => hadd.dirEntries_ne hd
  have hone : Dentry.naming i (s'.dirEntries p) =
      Dentry.naming i (s.dirEntries p) + if e.live && e.inode == i then 1 else 0 := by
    rw [hadd.dirEntries_self hp, Dentry.naming, List.countP_append, List.countP_singleton]
    rfl
  omega

theorem Graph.added (h : s.Graph) (hp : s.isDirectory p = true)
    (he : s.groups.allocated .inode e.inode = true ∧ e.inode ≠ rootInode)
    (hnew : s.isDirectory e.inode = true → e.inode ≠ p ∧ s.dirEntries e.inode = [] ∧
      ∀ d, ∀ x ∈ s.dirEntries d, x.live = true → x.inode ≠ e.inode) : s'.Graph := by
  refine ⟨hadd.clean, by rw [hadd.isDirectory]; exact h.root, fun i hi => ?_,
    fun d x hx hl => ?_, ?_⟩
  · rw [hadd.allocated] at hi
    rw [hadd.mode]
    exact h.kind i hi
  · rw [hadd.allocated]
    rcases hadd.mem_dirEntries hp hx with hx | ⟨-, rfl⟩
    · exact h.named d x hx hl
    · exact he
  · obtain ⟨rank, hrank⟩ := h.ranked
    by_cases hdir : s.isDirectory e.inode = true
    · -- a new directory comes after its parent
      obtain ⟨hne, hempty, hfresh⟩ := hnew hdir
      refine ⟨Function.update rank e.inode (rank p + 1), fun d x hx hl hxd => ?_⟩
      rw [hadd.isDirectory] at hxd
      rcases hadd.mem_dirEntries hp hx with hx | ⟨rfl, rfl⟩
      · have hd : d ≠ e.inode := by
          rintro rfl
          rw [hempty] at hx
          cases hx
        rw [Function.update_of_ne hd, Function.update_of_ne (hfresh d x hx hl)]
        exact hrank d x hx hl hxd
      · rw [Function.update_self, Function.update_of_ne hne.symm]
        exact Nat.lt_succ_self _
    · refine ⟨rank, fun d x hx hl hxd => ?_⟩
      rw [hadd.isDirectory] at hxd
      rcases hadd.mem_dirEntries hp hx with hx | ⟨-, rfl⟩
      · exact hrank d x hx hl hxd
      · exact absurd hxd hdir

end NewEntry

/-! ## A removed name -/

section RemovedName

variable {name : Name} {p : Nat} {st : (Nat → List Dentry) × Option Nat} {c : DentryCache}
  (hk : Killed name (s.inodes p).iBlock s.dents st)
include hk

theorem Killed.mem_dirEntries {e : Dentry}
    (he : e ∈ ({ s with dents := st.1, dcache := c } : FS).dirEntries d) (hl : e.live = true) :
    e ∈ s.dirEntries d := by
  rw [FS.mem_dirEntries] at he ⊢
  refine ⟨he.1, ?_⟩
  obtain ⟨b, hb, heb⟩ := List.mem_flatMap.mp he.2
  exact List.mem_flatMap.mpr ⟨b, hb, Dentry.mem_of_weaker (hk.weaker b) heb hl⟩

theorem Killed.entries_ne (hs : s.Clean s.groups) (hp : s.groups.allocated .inode p = true)
    (hd : s.groups.allocated .inode d = true) (hne : d ≠ p) :
    ({ s with dents := st.1, dcache := c } : FS).entries d = s.entries d := by
  unfold FS.entries
  rw [List.flatMap_def, List.flatMap_def]
  congr 1
  apply List.map_congr_left
  intro b hb
  exact hk.outside b fun hc => hne (hs.owned.unique d p b ⟨hd, hb⟩ ⟨hp, hc⟩)

theorem Killed.naming_le (i d : Nat) :
    Dentry.naming i (({ s with dents := st.1, dcache := c } : FS).dirEntries d) ≤
      Dentry.naming i (s.dirEntries d) := by
  unfold FS.dirEntries
  change Dentry.naming i (if s.isDirectory d = true then _ else _) ≤ _
  split
  · unfold FS.entries Dentry.naming
    rw [List.countP_flatMap, List.countP_flatMap]
    exact List.sum_le_sum fun b _ => Dentry.naming_weaker (hk.weaker b) i
  · exact Nat.le_refl _

theorem Killed.refs_lt (hb : s.groups.Books) (hp : s.isDirectory p = true) {i : Nat}
    (hi : st.2 = some i) :
    ({ s with dents := st.1, dcache := c } : FS).refs i < s.refs i := by
  obtain ⟨b, hbp, e, he, hn, hei, hlt⟩ := hk.found i hi
  refine Finset.sum_lt_sum (fun d _ => hk.naming_le i d)
    ⟨p, Finset.mem_range.mpr (lt_inodeLimit hb (isDirectory_iff.mp hp).1), ?_⟩
  unfold FS.dirEntries
  change Dentry.naming i (if s.isDirectory p = true then _ else _) < _
  rw [if_pos hp, if_pos hp]
  unfold FS.entries Dentry.naming
  rw [List.countP_flatMap, List.countP_flatMap]
  exact List.sum_lt_sum _ _ (fun b _ => Dentry.naming_weaker (hk.weaker b) i) ⟨b, hbp, hlt⟩

theorem Graph.killed (h : s.Graph) : ({ s with dents := st.1, dcache := c } : FS).Graph where
  clean := ⟨h.clean.books, h.clean.owned, h.clean.nodup⟩
  root := h.root
  kind := h.kind
  named d e he hl := h.named d e (hk.mem_dirEntries he hl) hl
  ranked := by
    obtain ⟨rank, hrank⟩ := h.ranked
    exact ⟨rank, fun d e he hl hdir => hrank d e (hk.mem_dirEntries he hl) hl hdir⟩

end RemovedName

/-! ## Link counts -/

section SetLinks

variable (i n : Nat) (s)

theorem setLinks_iMode (j : Nat) : ((s.setLinks i n).inodes j).iMode = (s.inodes j).iMode := by
  by_cases hj : j = i
  · subst hj; simp [setLinks]
  · simp [setLinks, hj]

theorem setLinks_iBlock (j : Nat) : ((s.setLinks i n).inodes j).iBlock = (s.inodes j).iBlock := by
  by_cases hj : j = i
  · subst hj; simp [setLinks]
  · simp [setLinks, hj]

theorem setLinks_self : ((s.setLinks i n).inodes i).iLinksCount = n := by simp [setLinks]

theorem setLinks_ne {j : Nat} (hj : j ≠ i) :
    ((s.setLinks i n).inodes j).iLinksCount = (s.inodes j).iLinksCount := by
  simp [setLinks, hj]

theorem setLinks_entries (d : Nat) : (s.setLinks i n).entries d = s.entries d := by
  unfold entries
  rw [setLinks_iBlock]
  rfl

theorem setLinks_isDirectory (d : Nat) : (s.setLinks i n).isDirectory d = s.isDirectory d := by
  unfold isDirectory
  rw [setLinks_iMode]
  rfl

theorem setLinks_dirEntries (d : Nat) : (s.setLinks i n).dirEntries d = s.dirEntries d := by
  unfold dirEntries
  rw [setLinks_isDirectory, setLinks_entries]

theorem setLinks_refs (j : Nat) : (s.setLinks i n).refs j = s.refs j :=
  refs_congr (setLinks_dirEntries s i n) j

theorem Clean.setLinks {s : FS} {g : Groups} (h : s.Clean g) (i n : Nat) :
    (s.setLinks i n).Clean g := by
  refine ⟨h.books, h.owned.mono (fun _ hb => hb) ?_, fun j hj => ?_⟩
  · rintro j b ⟨hj, hb⟩
    rw [setLinks_iBlock] at hb
    exact ⟨hj, hb⟩
  · rw [setLinks_iBlock]
    exact h.nodup j hj

theorem Graph.setLinks {s : FS} (h : s.Graph) (i n : Nat) : (s.setLinks i n).Graph := by
  refine ⟨h.clean.setLinks i n, by rw [setLinks_isDirectory]; exact h.root, fun j hj => ?_,
    fun d e he => ?_, ?_⟩
  · rw [setLinks_iMode]
    exact h.kind j hj
  · rw [setLinks_dirEntries] at he
    exact h.named d e he
  · obtain ⟨rank, hrank⟩ := h.ranked
    refine ⟨rank, fun d e he hl hdir => ?_⟩
    rw [setLinks_dirEntries] at he
    rw [setLinks_isDirectory] at hdir
    exact hrank d e he hl hdir

end SetLinks

/-! ## A removed subtree -/

/-- What lies strictly below `i` has all its names below `i`. -/
def Enclosed (s : FS) (i : Nat) : Prop :=
  ∀ j, s.Reach s.groups i j → j ≠ i → ∀ d, ∀ e ∈ s.dirEntries d, e.live = true → e.inode = j →
    s.Reach s.groups i d

theorem Graph.mortal (h : s.Graph) {i : Nat} (ha : s.groups.allocated .inode i = true)
    (hr : i ≠ rootInode) : s.Mortal i :=
  ⟨hr, h.kind i ha⟩

section RemovedSubtree

variable {i : Nat} {F : Set Nat} {g' : Groups} (h : s.Graph) (hi : s.Mortal i)
  (hdel : s.Deleted i F s.groups g')
include hdel

theorem isDirectory_purged (hd : ({ s with groups := g' } : FS).isDirectory d = true) :
    s.isDirectory d = true := by
  rw [isDirectory_iff] at hd ⊢
  exact ⟨((hdel.purged.inode d).mp hd.1).1, hd.2⟩

theorem mem_dirEntries_purged {e : Dentry} (he : e ∈ ({ s with groups := g' } : FS).dirEntries d) :
    e ∈ s.dirEntries d := by
  rw [mem_dirEntries] at he ⊢
  exact ⟨isDirectory_purged hdel he.1, he.2⟩

theorem refs_purged (j : Nat) : ({ s with groups := g' } : FS).refs j ≤ s.refs j := by
  refine refs_mono fun d => ?_
  unfold dirEntries
  by_cases hd : ({ s with groups := g' } : FS).isDirectory d = true
  · rw [if_pos hd, if_pos (isDirectory_purged hdel hd)]
    exact Nat.le_refl _
  · rw [if_neg hd]
    exact Nat.zero_le _

include h hi

theorem gone_of_reach (hd : s.Reach s.groups i d) : g'.allocated .inode d = false := by
  induction hd with
  | refl => exact hdel.gone hi
  | tail _ hedge ih =>
    obtain ⟨ha, -, hdir, e, he, hl, rfl⟩ := hedge
    have hmem : e ∈ s.dirEntries _ := mem_dirEntries.mpr ⟨isDirectory_iff.mpr ⟨ha, hdir⟩, he⟩
    obtain ⟨hea, her⟩ := h.named _ e hmem hl
    refine hdel.swept _ ?_ hdir e he hl (h.mortal hea her)
    by_contra hF
    rw [(hdel.purged.inode _).mpr ⟨ha, hF⟩] at ih
    cases ih

theorem Graph.purged (hfree : ∀ d, ∀ e ∈ s.dirEntries d, e.live = true → e.inode ≠ i)
    (henc : s.Enclosed i) :
    ({ s with groups := g' } : FS).Graph := by
  have hroot : rootInode ∉ F := by
    intro hF
    rcases Relation.ReflTransGen.cases_tail (hdel.reach _ hF) with hr | ⟨d, -, ha, -, hdir, e,
      he, hl, hr⟩
    · exact hi.1 hr.symm
    · exact (h.named d e (mem_dirEntries.mpr ⟨isDirectory_iff.mpr ⟨ha, hdir⟩, he⟩) hl).2 hr
  refine ⟨⟨hdel.purged.books, (h.clean.purge hdel.purged).owned, (h.clean.purge hdel.purged).nodup⟩,
    ?_, fun j hj => ?_, fun d e he hl => ?_, ?_⟩
  · obtain ⟨ha, hdir⟩ := isDirectory_iff.mp h.root
    exact isDirectory_iff.mpr ⟨(hdel.purged.inode _).mpr ⟨ha, hroot⟩, hdir⟩
  · exact h.kind j ((hdel.purged.inode j).mp hj).1
  · have hmem := mem_dirEntries_purged hdel he
    obtain ⟨ha, hr⟩ := h.named d e hmem hl
    refine ⟨(hdel.purged.inode _).mpr ⟨ha, fun hF => ?_⟩, hr⟩
    -- a freed inode below `i` is named below `i` only, and those directories are gone
    have hd :=
      gone_of_reach h hi hdel (henc e.inode (hdel.reach _ hF) (hfree d e hmem hl) d e hmem hl rfl)
    rw [(isDirectory_iff.mp (mem_dirEntries.mp he).1).1] at hd
    cases hd
  · obtain ⟨rank, hrank⟩ := h.ranked
    exact ⟨rank, fun d e he hl hdir => hrank d e (mem_dirEntries_purged hdel he) hl
      (isDirectory_purged hdel hdir)⟩

end RemovedSubtree

theorem Graph.not_reach_parent (h : s.Graph) {p : Nat} {e : Dentry} (he : e ∈ s.dirEntries p)
    (hl : e.live = true) :
    ¬ s.Reach s.groups e.inode p := by
  obtain ⟨rank, hrank⟩ := h.ranked
  have hp := (mem_dirEntries.mp he).1
  have hmono : ∀ {x}, s.Reach s.groups e.inode x → s.isDirectory x = true →
    s.isDirectory e.inode = true →
      rank e.inode ≤ rank x := by
    intro x hx
    induction hx with
    | refl => exact fun _ _ => Nat.le_refl _
    | tail _ hedge ih =>
      obtain ⟨ha, -, hdir, e', he', hl', rfl⟩ := hedge
      intro hx hi
      have hd := isDirectory_iff.mpr ⟨ha, hdir⟩
      exact Nat.le_trans (ih hd hi) (Nat.le_of_lt
        (hrank _ e' (mem_dirEntries.mpr ⟨hd, he'⟩) hl' hx))
  intro hreach
  by_cases hdir : s.isDirectory e.inode = true
  · exact Nat.lt_irrefl _ (Nat.lt_of_lt_of_le (hrank p e he hl hdir) (hmono hreach hp hdir))
  · rcases Relation.ReflTransGen.cases_head hreach with heq | ⟨x, ⟨ha, -, hd, -⟩, -⟩
    · exact hdir (heq ▸ hp)
    · exact hdir (isDirectory_iff.mpr ⟨ha, hd⟩)

theorem Killed.reach {name : Name} {p i n : Nat} {st : (Nat → List Dentry) × Option Nat}
    {c : DentryCache} (hk : Killed name (s.inodes p).iBlock s.dents st) {x y : Nat}
    (h : (({ s with dents := st.1, dcache := c } : FS).setLinks i n).Reach s.groups x y) :
    s.Reach s.groups x y := by
  induction h with
  | refl => exact Relation.ReflTransGen.refl
  | tail _ hedge ih =>
    obtain ⟨ha, hr, hdir, e, he, hl, rfl⟩ := hedge
    rw [setLinks_entries] at he
    rw [setLinks_iMode] at hdir
    have hmem := hk.mem_dirEntries (c := c) (FS.mem_dirEntries.mpr ⟨isDirectory_iff.mpr ⟨ha, hdir⟩,
      he⟩) hl
    exact ih.tail ⟨ha, hr, hdir, e, (FS.mem_dirEntries.mp hmem).2, hl, rfl⟩

theorem Enclosed.killed (h : s.Graph) {name : Name} {p i n : Nat}
    {st : (Nat → List Dentry) × Option Nat} {c : DentryCache}
    (hk : Killed name (s.inodes p).iBlock s.dents st) (hp : s.isDirectory p = true)
    (hnot : ¬ s.Reach s.groups i p) (henc : s.Enclosed i) :
    (({ s with dents := st.1, dcache := c } : FS).setLinks i n).Enclosed i := by
  have hforth : ∀ {x}, s.Reach s.groups i x →
      (({ s with dents := st.1, dcache := c } : FS).setLinks i n).Reach s.groups i x := by
    intro x hx
    induction hx with
    | refl => exact Relation.ReflTransGen.refl
    | @tail y z hy hedge ih =>
      obtain ⟨ha, hr, hdir, e, he, hl, rfl⟩ := hedge
      have hyp : y ≠ p := fun hc => hnot (hc ▸ hy)
      refine ih.tail ⟨ha, hr, by rw [setLinks_iMode]; exact hdir, e, ?_, hl, rfl⟩
      rw [setLinks_entries, hk.entries_ne h.clean (isDirectory_iff.mp hp).1 ha hyp]
      exact he
  intro j hj hne d e he hl hej
  rw [setLinks_dirEntries] at he
  exact hforth (henc j (hk.reach hj) hne d e (hk.mem_dirEntries he hl) hl hej)

/-! ## The operations -/

section NewFile

variable {p i mode : Nat} {name : Name} {g : Groups} {c : DentryCache}
  (hout : HandedOut .inode i s.groups g)
  (hadd : Added p (Dentry.make name i mode)
    { s with groups := g, inodes := Function.update s.inodes i (s.newInode mode), dcache := c } s')
include hout hadd

theorem Added.refs_newInode (hbooks : g.Books) (hp : s.isDirectory p = true) (j : Nat) :
    s'.refs j = s.refs j + if (Dentry.make name i mode).live && i == j then 1 else 0 := by
  have hpi : p ≠ i := by
    rintro rfl
    have := hout.free
    rw [(isDirectory_iff.mp hp).1] at this
    cases this
  rw [hadd.refs (by rw [isDirectory_newInode hout, if_neg hpi]; exact hp) hbooks,
    refs_congr fun d => dirEntries_newInode hout (newInode_iBlock s mode) d]
  rfl

theorem Added.links_newInode (hserved : s.groups.hasFree .inode = true) {j : Nat}
    (hj : s'.groups.allocated .inode j = true) :
    (j = i ∧ (s'.inodes j).iLinksCount = 1) ∨
      j ≠ i ∧ s.groups.allocated .inode j = true ∧
      (s'.inodes j).iLinksCount = (s.inodes j).iLinksCount := by
  rw [hadd.links]
  by_cases hji : j = i
  · subst hji
    exact Or.inl ⟨rfl, by simp [newInode, hserved, inodeInit]⟩
  · rw [hadd.allocated] at hj
    simp only [hout.after, hji, and_false, if_false] at hj
    exact Or.inr ⟨hji, hj, by simp [hji]⟩

end NewFile

theorem Linked.cached (h : s.Linked) (c : DentryCache) : ({ s with dcache := c } : FS).Linked :=
  ⟨⟨⟨h.graph.clean.books, h.graph.clean.owned, h.graph.clean.nodup⟩, h.graph.root, h.graph.kind,
    h.graph.named, h.graph.ranked⟩, h.count, h.bound⟩

theorem Linked.created {mode : Nat} {r : Except RetCode Nat} (h : s.Linked)
    (hmode : isReg mode = true ∨ isDir mode = true) (hserved : s.groups.hasFree .inode = true)
    (hc : s.inodeCreate path mode = some (r, s')) (hle : s'.groups.groupCount ≤ 33) :
    s'.Linked := by
  have hroot := (isDirectory_iff.mp h.graph.root).1
  rcases inodeCreate_cases h.graph.clean hroot hc hle with ⟨c, e, -, rfl, -⟩ |
    ⟨parent, c, i, g, -, hpa, hpd, -, -, -, -, hout, hbooks, hadd⟩
  · exact h.cached c
  · have hfresh : ∀ d, ∀ x ∈ s.dirEntries d, x.live = true → x.inode ≠ i := by
      rintro d x hx hl rfl
      have := hout.free
      rw [(h.graph.named d x hx hl).1] at this
      cases this
    have hpi : deref parent ≠ i := by
      rintro rfl
      have := hout.free
      rw [hpa] at this
      cases this
    have hkind : isReg (s.newInode mode).iMode = true ∨ isDir (s.newInode mode).iMode = true := by
      rw [newInode_iMode]
      simpa only [isReg, isDir, fileType_u16] using hmode
    have hempty := newInode_iBlock s mode
    have hdirs := fun d => dirEntries_newInode (c := c) hout hempty d
    have hgraph := h.graph.newInode (c := c) hout hbooks hempty hkind
    have hdir :
      ({ s with groups := g, inodes := Function.update s.inodes i (s.newInode mode), dcache := c } :
      FS).isDirectory
        (deref parent) = true := by
      rw [isDirectory_newInode hout, if_neg hpi]
      exact isDirectory_iff.mpr ⟨hpa, hpd⟩
    have hrefs := hadd.refs_newInode hout hbooks (isDirectory_iff.mpr ⟨hpa, hpd⟩)
    have hlinks := fun j => hadd.links_newInode hout hserved (j := j)
    refine ⟨hgraph.added hadd hdir ⟨hout.taken, ?_⟩ fun _ => ⟨hpi.symm, ?_, fun d x hx hl => ?_⟩,
      fun j hj => ?_, fun j hj => ?_⟩
    · intro hc
      have := hout.free
      rw [show i = rootInode from hc, hroot] at this
      cases this
    · rw [hdirs, dirEntries, if_neg]
      intro hc
      exact Bool.false_ne_true (hout.free.symm.trans (isDirectory_iff.mp hc).1)
    · rw [hdirs] at hx
      exact hfresh d x hx hl
    · rw [hrefs]
      rcases hlinks j hj with ⟨rfl, hl⟩ | ⟨hji, ha, hl⟩
      · rw [hl, refs_eq_zero hfresh]
        split <;> decide
      · rw [hl, if_neg (by simp [Ne.symm hji]), Nat.add_zero]
        exact h.count j ha
    · rcases hlinks j hj with ⟨-, hl⟩ | ⟨-, ha, hl⟩
      · rw [hl]; decide
      · rw [hl]; exact h.bound j ha

theorem Graph.source (h : s.Graph) {t : FS} {i : Nat} (hl : s.inodeLookup path = (.ok i, t))
    (hreg : isDir (s.inodes (deref i)).iMode = false) :
    deref i = i ∧ s.groups.allocated .inode i = true ∧ i ≠ rootInode := by
  obtain ⟨hroot, hdir⟩ := isDirectory_iff.mp h.root
  obtain ⟨hi, ha⟩ : deref i = i ∧ s.groups.allocated .inode i = true := by
    rcases getInode_cases (inodeLookup_ok hroot hl) with ⟨-, hi⟩ | ⟨hi, ha⟩
    · rw [hi, hdir] at hreg
      cases hreg
    · exact ⟨hi.symm, by rw [hi]; exact ha⟩
  refine ⟨hi, ha, ?_⟩
  rintro rfl
  rw [hi, hdir] at hreg
  cases hreg

theorem Linked.linked {src dst : Path} {r : RetCode} (h : s.Linked)
    (hroom : ∀ i, (s.inodeLookup src).1 = .ok i → isDir (s.inodes (deref i)).iMode = false →
      (s.inodes (deref i)).iLinksCount < 65535)
    (hl : s.inodeLink src dst = some (r, s')) (hle : s'.groups.groupCount ≤ 33) : s'.Linked := by
  have hroot := (isDirectory_iff.mp h.graph.root).1
  rcases inodeLink_cases h.graph.clean hroot hl hle with ⟨c, -, rfl, -⟩ |
    ⟨index, parent, c, c', t, hsrc, hreg, -, hpa, hpd, -, -, -, -, -, hadd, rfl⟩
  · exact h.cached c
  · have hlt := hroom index (by rw [hsrc]) hreg
    obtain ⟨hidx, hia, hir⟩ := h.graph.source hsrc hreg
    rw [hidx] at hreg hlt
    have hnd : ({ s with dcache := c' } : FS).isDirectory index ≠ true := fun hc => by
      have := (isDirectory_iff.mp hc).2
      rw [hreg] at this
      cases this
    have hpdir : ({ s with dcache := c' } : FS).isDirectory (deref parent) = true :=
      isDirectory_iff.mpr ⟨hpa, hpd⟩
    have hgraph := (h.cached c').graph.added hadd hpdir ⟨hia, hir⟩ fun hc => absurd hc hnd
    have hrefs := hadd.refs hpdir h.graph.clean.books
    have hsum : u16 ((t.inodes (deref index)).iLinksCount + 1) =
      (s.inodes index).iLinksCount + 1 := by
      rw [hidx, hadd.links]
      have hlt' : (s.inodes index).iLinksCount + 1 < 2 ^ 16 := by omega
      exact Nat.mod_eq_of_lt hlt'
    rw [hsum, hidx]
    refine ⟨hgraph.setLinks _ _, fun j hj => ?_, fun j hj => ?_⟩
    · change t.groups.allocated .inode j = true at hj
      rw [hadd.allocated] at hj
      have hcount := h.count j hj
      rw [setLinks_refs, hrefs]
      change s.refs j + _ ≤ _
      by_cases hji : j = index
      · subst hji
        rw [setLinks_self]
        exact Nat.add_le_add hcount (by split <;> decide)
      · rw [setLinks_ne _ _ _ hji, hadd.links, if_neg (by simp [Dentry.make, Ne.symm hji]),
          Nat.add_zero]
        exact hcount
    · change t.groups.allocated .inode j = true at hj
      rw [hadd.allocated] at hj
      by_cases hji : j = index
      · subst hji
        rw [setLinks_self]
        omega
      · rw [setLinks_ne _ _ _ hji, hadd.links]
        exact h.bound j hj

/-- The inode of the entry that `inode_unlink` clears. -/
def target (path : Path) (s : FS) : Option Nat :=
  if path.names.isEmpty then none
  else
    match s.inodeLookup path.parent with
    | (.error _, _) => none
    | (.ok parent, _) => if isDir (s.inodes (deref parent)).iMode then
      (s.killName (deref parent) path.back).2 else none

theorem target_eq {parent : Nat} {t : FS} (hl : s.inodeLookup path.parent = (.ok parent, t))
    (hd : isDir (s.inodes (deref parent)).iMode = true) (hne : path.names ≠ []) :
    s.target path = (s.visitInodeBlocks (deref parent) (killVisitor path.back) (s.dents,
      none)).2 := by
  unfold target
  rw [if_neg (by simpa using hne), hl]
  simp only [hd, if_true]
  rfl

theorem Linked.unlinked {fuel : Nat} {r : RetCode} (h : s.Linked)
    (henc : ∀ i, s.target path = some i → (s.inodes i).iLinksCount = 1 → s.Enclosed i)
    (hu : s.inodeUnlink fuel path = some (r, s')) : s'.Linked := by
  have hroot := (isDirectory_iff.mp h.graph.root).1
  rcases inodeUnlink_cases hroot hu with ⟨c, -, rfl, -⟩ | ⟨parent, c, st, i, hlook, hpa, hpd, hv,
    hne, hst, hk, hm, hdrop⟩
  · exact h.cached c
  · have hpdir : s.isDirectory (deref parent) = true := isDirectory_iff.mpr ⟨hpa, hpd⟩
    have htarget : s.target path = some i := by rw [target_eq hlook hpd hne, ← hst, hm]
    obtain ⟨b, hb, e, heb, hname, hei, -⟩ := hk.found i hm
    subst hei
    have hlive := Dentry.live_of_hasName (Path.back_ne_nil hv hne) hname
    have he : e ∈ s.dirEntries (deref parent) :=
      mem_dirEntries.mpr ⟨hpdir, List.mem_flatMap.mpr ⟨b, hb, heb⟩⟩
    obtain ⟨ha, hir⟩ := h.graph.named _ e he hlive
    have hpos := refs_pos h.graph.clean.books he hlive
    have hcount := h.count e.inode ha
    have hbound := h.bound e.inode ha
    generalize hc' : DentryCache.drop c path.parent.names path.back = c' at hdrop
    have hless := hk.refs_lt (c := c') h.graph.clean.books hpdir hm
    have hgraph : ({ s with dents := st.1, dcache := c' } : FS).Graph := h.graph.killed hk
    have hpred : u16 ((s.inodes e.inode).iLinksCount + 65535) =
      (s.inodes e.inode).iLinksCount - 1 := by
      unfold u16
      omega
    -- the counts cover the names that are left, before anything is deleted
    have hcounts : ∀ j, s.groups.allocated .inode j = true →
        (({ s with dents := st.1, dcache := c' } : FS).setLinks e.inode
        ((s.inodes e.inode).iLinksCount - 1)).refs j ≤
          ((({ s with dents := st.1, dcache := c' } : FS).setLinks e.inode
          ((s.inodes e.inode).iLinksCount - 1)).inodes j).iLinksCount ∧
        ((({ s with dents := st.1, dcache := c' } : FS).setLinks e.inode
        ((s.inodes e.inode).iLinksCount - 1)).inodes j).iLinksCount < 65536 := by
      intro j hj
      rw [setLinks_refs]
      by_cases hji : j = e.inode
      · subst hji
        rw [setLinks_self]
        omega
      · rw [setLinks_ne _ _ _ hji]
        exact ⟨Nat.le_trans (refs_mono fun d => hk.naming_le j d) (h.count j hj), h.bound j hj⟩
    unfold dropLink at hdrop
    simp only [getInode_of_allocated h.graph.clean.books ha, hpred] at hdrop
    by_cases hlast : (s.inodes e.inode).iLinksCount - 1 = 0
    · rw [if_pos hlast] at hdrop
      obtain ⟨⟨rc, g'⟩, hdelete, heq⟩ := Option.map_eq_some_iff.mp hdrop
      cases heq
      obtain ⟨F, hdel⟩ := inodeDelete_spec _ _ _ _ _ (hgraph.setLinks _ _).clean hdelete
      have hone : (s.inodes e.inode).iLinksCount = 1 := by omega
      have henc' := (henc e.inode htarget hone).killed (n := (s.inodes e.inode).iLinksCount - 1)
        (c := c') h.graph hk hpdir
        (h.graph.not_reach_parent he hlive)
      have hzero : ({ s with dents := st.1, dcache := c' } : FS).refs e.inode = 0 := by omega
      refine ⟨(hgraph.setLinks _ _).purged ((hgraph.setLinks _ _).mortal ha hir) hdel
        (fun d x hx hl hxi => ?_) henc', fun j hj => ?_, fun j hj => ?_⟩
      · rw [setLinks_dirEntries] at hx
        have := refs_pos (s := { s with dents := st.1, dcache := c' }) h.graph.clean.books hx hl
        rw [hxi, hzero] at this
        exact Nat.lt_irrefl 0 this
      · exact Nat.le_trans (refs_purged hdel j) (hcounts j ((hdel.purged.inode j).mp hj).1).1
      · exact (hcounts j ((hdel.purged.inode j).mp hj).1).2
    · rw [if_neg hlast] at hdrop
      cases hdrop
      exact ⟨hgraph.setLinks _ _, fun j hj => (hcounts j hj).1, fun j hj => (hcounts j hj).2⟩

/-! ## Runs -/

/-- The calls on a namespace of regular files and directories. -/
inductive NamespaceOp where
  | create (path : Path) (mode : { m : Nat // isReg m = true ∨ isDir m = true })
  | link (src dst : Path)
  | unlink (path : Path)

/-- One call, with the nesting of `inode_delete` bounded by `fuel`. -/
def namespaceStep (fuel : Nat) (s : FS) : NamespaceOp → Option FS
  | .create path mode => (s.inodeCreate path mode.1).map Prod.snd
  | .link src dst => (s.inodeLink src dst).map Prod.snd
  | .unlink path => (s.inodeUnlink fuel path).map Prod.snd

/-- Reached from the root through live entries. -/
inductive FromRoot (s : FS) : Nat → Prop where
  | root : FromRoot s rootInode
  | entry {d : Nat} {e : Dentry} (hd : FromRoot s d) (he : e ∈ s.dirEntries d) (hl : e.live =
    true) : FromRoot s e.inode

/-- Every live entry that can be reached names an allocated inode. -/
def Intact (s : FS) : Prop :=
  ∀ d, s.FromRoot d → ∀ e ∈ s.dirEntries d, e.live = true → s.groups.allocated .inode e.inode = true

/-- No directory that is left in `s'` names an inode freed on the way from `s`. -/
def FreesSafely (s s' : FS) : Prop :=
  ∀ i, s.groups.allocated .inode i = true → s'.groups.allocated .inode i = false →
    ∀ d, ∀ e ∈ s'.dirEntries d, e.live = true → e.inode ≠ i

/-- The calls that keep link counts and names together. -/
def Careful (fuel : Nat) (s : FS) (op : NamespaceOp) : Prop :=
  Runs.Leaves (namespaceStep fuel) Modest s op ∧
    match op with
    | .create _ _ => s.groups.hasFree .inode = true
    | .link src _ => ∀ i, (s.inodeLookup src).1 = .ok i → (s.inodes (deref i)).iLinksCount < 65535
    | .unlink path => ∀ i, s.target path = some i → (s.inodes i).iLinksCount = 1 → s.Enclosed i

theorem Linked.step {fuel : Nat} {op : NamespaceOp} (h : s.Linked) (hc : Careful fuel s op)
    (hstep : namespaceStep fuel s op = some s') : s'.Linked := by
  have hle := (hc.1 s' hstep).groups
  cases op with
  | create path mode =>
    obtain ⟨⟨r, t⟩, heq, rfl⟩ := Option.map_eq_some_iff.mp hstep
    exact h.created mode.2 hc.2 heq hle
  | link src dst =>
    obtain ⟨⟨r, t⟩, heq, rfl⟩ := Option.map_eq_some_iff.mp hstep
    exact h.linked (fun i hi _ => hc.2 i hi) heq hle
  | unlink path =>
    obtain ⟨⟨r, t⟩, heq, rfl⟩ := Option.map_eq_some_iff.mp hstep
    exact h.unlinked hc.2 heq

theorem format_iBlock (i : Nat) : (format.inodes i).iBlock = [] := by
  by_cases hi : i = rootInode
  · subst hi; rfl
  · simp [format, hi, blankInode]

theorem format_dirEntries (d : Nat) : format.dirEntries d = [] := by
  unfold dirEntries entries
  rw [format_iBlock]
  split <;> rfl

theorem Clean.format : FS.format.Clean FS.format.groups := by
  refine ⟨Books.format, ⟨?_, ?_⟩, fun i _ => ?_⟩
  · rintro i b ⟨-, hb⟩
    rw [format_iBlock] at hb
    cases hb
  · rintro i j b ⟨-, hb⟩
    rw [format_iBlock] at hb
    cases hb
  · rw [format_iBlock]
    exact List.nodup_nil

theorem Graph.format : FS.format.Graph where
  clean := Clean.format
  root := by decide
  kind i hi := by
    rw [(format_allocated i).mp hi]
    exact Or.inr rfl
  named d e he := by
    rw [format_dirEntries] at he
    cases he
  ranked := ⟨id, fun d e he => by rw [format_dirEntries] at he; cases he⟩

theorem Linked.format : FS.format.Linked where
  graph := Graph.format
  count i _ := by
    rw [refs_eq_zero fun d e he => by rw [format_dirEntries] at he; cases he]
    exact Nat.zero_le _
  bound i hi := by
    rw [(format_allocated i).mp hi]
    decide

theorem Linked.intact (h : s.Linked) : s.Intact := fun d _ e he hl => (h.graph.named d e he hl).1

theorem Linked.freesSafely (h : s'.Linked) : FreesSafely s s' := by
  rintro i - hfreed d e he hl rfl
  rw [(h.graph.named d e he hl).1] at hfreed
  cases hfreed

/-- In a run of careful calls every entry names an allocated inode, and an inode
is freed only when nothing outside the removed subtree names it. -/
theorem intact_of_careful (fuel : Nat) (ops : List NamespaceOp)
    (h : Runs.Guarded (namespaceStep fuel) (Careful fuel) ops FS.format) :
    Runs.Along (namespaceStep fuel) (fun s => s.Intact ∧ s.Served) ops FS.format ∧
      Runs.Guarded (namespaceStep fuel) (fun s => Runs.Leaves (namespaceStep fuel) (FreesSafely s)
        s) ops FS.format :=
  ⟨Runs.along_of_guarded
      (fun s (hs : s.Linked ∧ s.Cacheable) => ⟨hs.1.intact, hs.2.served hs.1.graph.clean⟩)
      (fun _ _ _ hs hc hstep => ⟨hs.1.step hc hstep, (hc.1 _ hstep).blocks⟩) ops
      _ ⟨Linked.format, by decide⟩ h,
    Runs.Guarded.imp (fun _ _ hs hc _ hstep => (hs.step hc hstep).freesSafely)
    (fun _ _ _ => Linked.step) ops _
      Linked.format h⟩

theorem intact_of_careful_links :
    Runs.Guarded (namespaceStep 1) (Careful 1)
        [.create (.of [[102]]) ⟨sIfreg, Or.inl rfl⟩, .link (.of [[102]]) (.of [[103]]),
          .unlink (.of [[102]])] FS.format ∧
      Runs.Along (namespaceStep 1) (fun s => s.Intact ∧ s.Served)
        [.create (.of [[102]]) ⟨sIfreg, Or.inl rfl⟩, .link (.of [[102]]) (.of [[103]]),
          .unlink (.of [[102]])] FS.format := by
  have hg : Runs.Guarded (namespaceStep 1) (Careful 1)
      [.create (.of [[102]]) ⟨sIfreg, Or.inl rfl⟩, .link (.of [[102]]) (.of [[103]]),
        .unlink (.of [[102]])] FS.format := by
    refine Runs.guarded_cons rfl ⟨by decide, by decide⟩
      (Runs.guarded_cons rfl ⟨by decide, fun i hi => ?_⟩ (Runs.guarded_cons rfl ⟨by decide,
        fun i hi hone => ?_⟩ trivial))
    · cases (show Except.ok 1 = Except.ok i from hi)
      decide
    · cases (show some 1 = some i from hi)
      exact absurd hone (by decide)
  exact ⟨hg, (intact_of_careful 1 _ hg).1⟩

/-- `mkdir /a`, a file `/a/f`, its second name `/b`: removing `/a` frees the file. -/
theorem removed_directory_frees_linked_file :
    ¬ Runs.Along (namespaceStep 3) Intact
      [.create (.of [[97]]) ⟨sIfdir, Or.inr rfl⟩, .create (.of [[97], [102]]) ⟨sIfreg, Or.inl rfl⟩,
        .link (.of [[97], [102]]) (.of [[98]]), .unlink (.of [[97]])] FS.format := by
  intro h
  have hend : (Runs.run (namespaceStep 3)
      [.create (.of [[97]]) ⟨sIfdir, Or.inr rfl⟩, .create (.of [[97], [102]]) ⟨sIfreg, Or.inl rfl⟩,
        .link (.of [[97], [102]]) (.of [[98]]), .unlink (.of [[97]])] FS.format).map
      (fun s => (s.dirEntries rootInode).any fun e => e.live && !s.groups.allocated .inode
        e.inode) = some true := by
    decide
  obtain ⟨s, hrun, hany⟩ := Option.map_eq_some_iff.mp hend
  obtain ⟨e, he, hbad⟩ := List.any_eq_true.mp hany
  rw [Bool.and_eq_true, Bool.not_eq_true'] at hbad
  have := h.last hrun rootInode FromRoot.root e he hbad.1
  rw [hbad.2] at this
  cases this

end FS

end NaiveFS
