import NaiveFS.DirectorySound
import NaiveFS.OwnerSound
import NaiveFS.PagedWalk

/-!
# Recursive deletion comes to an end

A directory is there before the entries in it are written, and a number that is
handed out again goes to an inode younger than every entry that still has it. So
the directories an entry leads to are younger than the one it stands in, and
`inode_delete` gets to younger ones only.

It comes to an end on the inodes that have a block group: for any other index
`get_inode` or `free_inode` dereferences a null descriptor.
-/

namespace NaiveFS

namespace Groups

variable {g : Groups} {i : Nat}

theorem Books.hasGroup_iff (h : g.Books) :
    g.hasGroup i = true ↔ i / perGroup .inode < g.groupCount := by
  have hkeys := h.ledger.keys (i / perGroup .inode)
  rw [hasGroup, findGroup]
  cases hf : g.blockGroups.find (i / perGroup .inode) with
  | some bg => simpa using hkeys.mp ⟨bg, hf⟩
  | none =>
    have hdesc : g.super.getGroupDesc (i / perGroup .inode) = none := by
      rw [SuperBlock.getGroupDesc, List.getElem?_eq_none_iff, ← Nat.not_lt]
      intro hlt
      obtain ⟨bg, hbg⟩ := hkeys.mpr hlt
      rw [hf] at hbg
      cases hbg
    rw [hdesc]
    simp only [Option.isSome_none, Bool.false_eq_true, false_iff]
    intro hlt
    obtain ⟨bg, hbg⟩ := hkeys.mpr hlt
    rw [hf] at hbg
    cases hbg

theorem Books.ne_alias (h : g.Books) (hi : i / perGroup .inode < g.groupCount) :
    i ≠ 2 ^ 32 - 1 := by
  rintro rfl
  have hle := Nat.le_trans hi h.le
  revert hle
  decide

theorem Books.group_lt (h : g.Books) (ha : g.allocated .inode i = true) :
    i / perGroup .inode < g.groupCount := by
  obtain ⟨bg, hfind, -⟩ := allocated_iff.mp ha
  exact (h.ledger.keys _).mp ⟨bg, hfind⟩

end Groups

namespace FS

open Groups

/-! ## What is to hold -/

/-- Directory `d` has a live entry that names directory `c`. -/
def DirEdge (s : FS) (d c : Nat) : Prop :=
  s.isDirectory d = true ∧ s.isDirectory c = true ∧ ∃ e ∈ s.entries d, e.live = true ∧ e.inode = c

/-- The calls `inode_delete(index)` is made of come to an end. -/
def DeleteEnds (s : FS) (index : Nat) : Prop :=
  ∃ fuel, (s.inodeDelete fuel index s.groups).isSome = true

structure Unlooped (s : FS) : Prop where
  acyclic : ∀ d, ¬ Relation.TransGen s.DirEdge d d
  ends : ∀ index, s.DeleteEnds index ↔ s.groups.hasGroup index = true

/-! ## Creation order -/

/-- A rank by which every directory comes after those that name it. -/
def RankedBy (s : FS) (rank : Nat → Nat) : Prop :=
  ∀ d, ∀ e ∈ s.dirEntries d, e.live = true → s.isDirectory e.inode = true → rank d < rank e.inode

structure Aged (s : FS) : Prop where
  clean : s.Clean s.groups
  root : s.isDirectory rootInode = true
  named : ∀ d, ∀ e ∈ s.dirEntries d, e.live = true → e.inode / perGroup .inode < s.groups.groupCount
  ranked : ∃ rank, s.RankedBy rank

variable {s s' : FS} {fuel index : Nat} {g : Groups} {rank : Nat → Nat}

theorem rank_lt (h : s.groups.Books) (rank : Nat → Nat) :
    ∃ R, ∀ d, s.isDirectory d = true → rank d < R := by
  refine ⟨(Finset.range inodeLimit).sup rank + 1, fun d hd => ?_⟩
  rw [Nat.lt_succ_iff]
  exact Finset.le_sup (f := rank) (Finset.mem_range.mpr (lt_inodeLimit h (isDirectory_iff.mp hd).1))

/-- A new inode comes after all others. Entries of the inode that had its number
before may name it. -/
theorem RankedBy.newInode {i : Nat} {ino : ListInode} {c : DentryCache} (h : s.RankedBy rank)
    (hs : s.groups.Books) (hout : HandedOut .inode i s.groups g) (hempty : ino.iBlock = []) :
    ∃ rank', ({ s with groups := g, inodes := Function.update s.inodes i ino, dcache := c } :
      FS).RankedBy rank' ∧ ∀ d, s.isDirectory d = true → rank' d < rank' i := by
  have hne : ∀ {d}, s.isDirectory d = true → d ≠ i := fun hd => isDirectory_ne hd hout.free
  obtain ⟨R, hR⟩ := rank_lt hs rank
  have hlast : ∀ d, s.isDirectory d = true → Function.update rank i R d <
    Function.update rank i R i := by
    intro d hd
    rw [Function.update_self, Function.update_of_ne (hne hd)]
    exact hR d hd
  refine ⟨_, fun d e he hl hdir => ?_, hlast⟩
  rw [dirEntries_newInode hout hempty] at he
  have hd := (mem_dirEntries.mp he).1
  by_cases hei : e.inode = i
  · rw [hei]
    exact hlast d hd
  · rw [isDirectory_newInode hout, if_neg hei] at hdir
    rw [Function.update_of_ne (hne hd), Function.update_of_ne hei]
    exact h d e he hl hdir

namespace Aged

variable (h : s.Aged)
include h

theorem cached (c : DentryCache) : ({ s with dcache := c } : FS).Aged :=
  ⟨⟨h.clean.books, h.clean.owned, h.clean.nodup⟩, h.root, h.named, h.ranked⟩

theorem allocated_root : s.groups.allocated .inode rootInode = true := (isDirectory_iff.mp h.root).1

theorem created {path : Path} {mode : Nat} {r : Except RetCode Nat}
    (hc : s.inodeCreate path mode = some (r, s')) (hle : s'.groups.groupCount ≤ 33) : s'.Aged := by
  rcases inodeCreate_cases h.clean h.allocated_root hc hle with ⟨c, e, -, rfl, -⟩ |
    ⟨parent, c, i, g, -, hpa, hpd, -, -, -, -, hout, hbooks, hadd⟩
  · exact h.cached c
  have hempty := newInode_iBlock s mode
  obtain ⟨rank, hrank⟩ := h.ranked
  obtain ⟨rank', hrank', hlast⟩ := hrank.newInode (c := c) h.clean.books hout hempty
  have hp : s.isDirectory (deref parent) = true := isDirectory_iff.mpr ⟨hpa, hpd⟩
  have hold : ∀ {d}, s.isDirectory d = true → ({ s with
      groups := g, inodes := Function.update s.inodes i (s.newInode mode), dcache :=
      c } : FS).isDirectory d = true := by
    intro d hd
    rw [isDirectory_newInode hout, if_neg (isDirectory_ne hd hout.free)]
    exact hd
  refine ⟨hadd.clean, ?_, fun d e he hl => ?_, rank', fun d e he hl hdir => ?_⟩
  · rw [hadd.isDirectory]
    exact hold h.root
  · rcases hadd.mem_dirEntries (hold hp) he with he | ⟨-, rfl⟩
    · rw [dirEntries_newInode hout hempty] at he
      exact Nat.lt_of_lt_of_le (h.named d e he hl) (inodeCreate_groupCount hc)
    · exact hadd.clean.books.group_lt ((hadd.allocated i).trans hout.taken)
  · rw [hadd.isDirectory] at hdir
    rcases hadd.mem_dirEntries (hold hp) he with he | ⟨rfl, rfl⟩
    · exact hrank' d e he hl hdir
    · exact hlast _ hp

theorem linked {src dst : Path} {r : RetCode} (hl : s.inodeLink src dst = some (r, s'))
    (hle : s'.groups.groupCount ≤ 33) :
    s'.Aged := by
  rcases inodeLink_cases h.clean h.allocated_root hl hle with ⟨c, -, rfl, -⟩ |
    ⟨index, parent, c, c', t, hsrc, hfile, -, hpa, hpd, -, -, -, -, -, hadd, rfl⟩
  · exact h.cached c
  have hp : ({ s with dcache := c' } : FS).isDirectory (deref parent) = true :=
    isDirectory_iff.mpr ⟨hpa, hpd⟩
  have hindex : index ≠ 2 ^ 32 - 1 := by
    intro hc
    rw [deref, if_pos hc, (isDirectory_iff.mp h.root).2] at hfile
    cases hfile
  have hgroup : index / perGroup .inode < s.groups.groupCount := by
    rcases getInode_cases (inodeLookup_ok h.allocated_root hsrc) with ⟨hc, -⟩ | ⟨-, ha⟩
    · exact absurd hc hindex
    · rw [deref, if_neg hindex] at ha
      exact h.clean.books.group_lt ha
  have hmore := inodeLink_groupCount hl
  obtain ⟨rank, hrank⟩ := h.ranked
  refine ⟨hadd.clean.setLinks _ _, ?_, fun d e he hl => ?_, rank, fun d e he hl hdir => ?_⟩
  · rw [setLinks_isDirectory, hadd.isDirectory]
    exact h.root
  · rw [setLinks_dirEntries] at he
    rcases hadd.mem_dirEntries hp he with he | ⟨-, rfl⟩
    · exact Nat.lt_of_lt_of_le (h.named d e he hl) hmore
    · exact Nat.lt_of_lt_of_le hgroup hmore
  · rw [setLinks_dirEntries] at he
    rw [setLinks_isDirectory, hadd.isDirectory] at hdir
    rcases hadd.mem_dirEntries hp he with he | ⟨-, rfl⟩
    · exact hrank d e he hl hdir
    · have hdir := (isDirectory_iff.mp hdir).2
      rw [deref, if_neg hindex] at hfile
      rw [show (Dentry.make dst.back index _).inode = index from rfl, hfile] at hdir
      cases hdir

theorem unlinked {path : Path} {r : RetCode} (hu : s.inodeUnlink fuel path = some (r, s')) :
    s'.Aged := by
  have hclean := h.clean.unlinked h.allocated_root hu
  obtain ⟨F, hF, hroot⟩ := inodeUnlink_purged h.clean hu
  rcases inodeUnlink_cases h.allocated_root hu with ⟨c, -, rfl, -⟩ | ⟨parent, c, st, i, -, -, -, -,
    -, -, hk, -, hdrop⟩
  · exact h.cached c
  obtain ⟨-, hframe⟩ := dropLink_frame hdrop
  have hdir : ∀ {d}, s'.isDirectory d = true → s.isDirectory d = true := by
    intro d hd
    obtain ⟨ha, hm⟩ := isDirectory_iff.mp hd
    rw [(hframe d).2] at hm
    exact isDirectory_iff.mpr ⟨((hF.inode d).mp ha).1, hm⟩
  have hmem : ∀ {d e}, e ∈ s'.dirEntries d → e.live = true → e ∈ s.dirEntries d := by
    intro d e he hl
    obtain ⟨hd, he⟩ := mem_dirEntries.mp he
    rw [dropLink_entries hdrop] at he
    exact hk.mem_dirEntries (mem_dirEntries.mpr ⟨hdir hd, he⟩) hl
  obtain ⟨rank, hrank⟩ := h.ranked
  have hcount := inodeUnlink_groupCount hu
  refine ⟨hclean, ?_, fun d e he hl => hcount ▸ h.named d e (hmem he hl) hl, rank,
    fun d e he hl hd => hrank d e (hmem he hl) hl (hdir hd)⟩
  refine isDirectory_iff.mpr ⟨(hF.inode _).mpr ⟨h.allocated_root, hroot⟩, ?_⟩
  rw [(hframe _).2]
  exact (isDirectory_iff.mp h.root).2

theorem step {op : NamespaceOp} (hroom : Runs.Leaves (namespaceStep fuel) Modest s op)
    (hstep : namespaceStep fuel s op = some s') :
    s'.Aged := by
  have hle := (hroom s' hstep).1
  cases op with
  | create path mode =>
    obtain ⟨⟨r, t⟩, hc, rfl⟩ := Option.map_eq_some_iff.mp hstep
    exact h.created hc hle
  | link src dst =>
    obtain ⟨⟨r, t⟩, hl, rfl⟩ := Option.map_eq_some_iff.mp hstep
    exact h.linked hl hle
  | unlink path =>
    obtain ⟨⟨r, t⟩, hu, rfl⟩ := Option.map_eq_some_iff.mp hstep
    exact h.unlinked hu

end Aged

theorem Aged.format : FS.format.Aged where
  clean := Clean.format
  root := Graph.format.root
  named d e he := by
    rw [format_dirEntries] at he
    cases he
  ranked := by
    refine ⟨fun _ => 0, fun d e he => ?_⟩
    rw [format_dirEntries] at he
    cases he

/-! ## No cycle, and an end of the recursion -/

theorem RankedBy.acyclic (h : s.RankedBy rank) (d : Nat) : ¬ Relation.TransGen s.DirEdge d d := by
  have hlt : ∀ {a b}, Relation.TransGen s.DirEdge a b → rank a < rank b := by
    intro a b hab
    induction hab with
    | single hstep =>
      obtain ⟨hd, hc, e, he, hl, rfl⟩ := hstep
      exact h _ e (mem_dirEntries.mpr ⟨hd, he⟩) hl hc
    | tail _ hstep ih =>
      obtain ⟨hd, hc, e, he, hl, rfl⟩ := hstep
      exact Nat.lt_trans ih (h _ e (mem_dirEntries.mpr ⟨hd, he⟩) hl hc)
  exact fun hd => Nat.lt_irrefl _ (hlt hd)

theorem deleteAll_isSome {del : Nat → Groups → Option (RetCode × Groups)} {Inv : Groups → Prop}
    (hkeep : ∀ i g r g', Inv g → del i g = some (r, g') → Inv g') :
    ∀ {es : List Dentry} {g : Groups}, Inv g →
      (∀ e ∈ es, e.live = true → ∀ g, Inv g → (del e.inode g).isSome = true) →
      (deleteAll del es g).isSome = true := by
  intro es
  induction es with
  | nil => intro g _ _; rfl
  | cons e rest ih =>
    intro g hg hall
    have hrest := fun x hx => hall x (List.mem_cons_of_mem e hx)
    unfold deleteAll
    by_cases hl : e.live = true
    · obtain ⟨⟨r, g'⟩, hd⟩ := Option.isSome_iff_exists.mp (hall e List.mem_cons_self hl g hg)
      simp only [hl, if_true, hd]
      exact ih (hkeep _ _ _ _ hg hd) hrest
    · rw [if_neg hl]
      exact ih hg hrest

/-- What the groups are like while inodes of `s` are deleted. -/
structure Shrunk (s : FS) (g : Groups) : Prop where
  clean : s.Clean g
  count : g.groupCount = s.groups.groupCount
  less : ∀ j, g.allocated .inode j = true → s.groups.allocated .inode j = true

theorem Shrunk.delete {r : RetCode} {g' : Groups} (hg : s.Shrunk g)
    (hd : s.inodeDelete fuel index g = some (r, g')) : s.Shrunk g' := by
  obtain ⟨F, hF⟩ := inodeDelete_spec _ _ _ _ _ hg.clean hd
  exact ⟨hg.clean.purge hF.purged, (inodeDelete_groupCount hd).trans hg.count,
    fun j hj => hg.less j ((hF.purged.inode j).mp hj).1⟩

theorem Shrunk.delete_isSome (hg : s.Shrunk g)
    (hgroup : index / perGroup .inode < s.groups.groupCount)
    (hbelow : s.isDirectory index = true → ∀ e ∈ s.entries index, e.live = true → ∀ g, s.Shrunk g →
      (s.inodeDelete fuel e.inode g).isSome = true) :
    (s.inodeDelete (fuel + 1) index g).isSome = true := by
  unfold inodeDelete
  by_cases hroot : index = rootInode
  · rw [if_pos hroot]
    rfl
  rw [if_neg hroot]
  rw [← hg.count] at hgroup
  have hne := hg.clean.books.ne_alias hgroup
  cases hi : g.getInode index with
  | none => simp [present, hg.clean.books.hasGroup_iff.mpr hgroup]
  | some i =>
    obtain ⟨rfl, ha⟩ := (getInode_cases hi).resolve_left fun hc => hne hc.1
    simp only
    split
    · rfl
    -- the inode is still there when its contents are gone
    obtain ⟨g₁, hwork, hbooks, hstill⟩ : ∃ g₁, (if isDir (s.inodes index).iMode = true then
        deleteAll (s.inodeDelete fuel) (s.entries index) g else
        freeBlocks (s.inodes index).iBlock g) = some g₁ ∧
          g₁.Books ∧ g₁.allocated .inode index = true := by
      by_cases hdir : isDir (s.inodes index).iMode = true
      · rw [if_pos hdir]
        have hall : (deleteAll (s.inodeDelete fuel) (s.entries index) g).isSome = true :=
          deleteAll_isSome (fun _ _ _ _ hg hd => Shrunk.delete hg hd) hg
            (hbelow (isDirectory_iff.mpr ⟨hg.less index ha, hdir⟩))
        obtain ⟨g₁, hall⟩ := Option.isSome_iff_exists.mp hall
        obtain ⟨F, hp, -, hr, -⟩ := deleteAll_spec (inodeDelete_spec fuel) hg.clean hall
        refine ⟨g₁, hall, hp.books, (hp.inode index).mpr ⟨ha, fun hF => ?_⟩⟩
        obtain ⟨e, he, hl, hback⟩ := hr index hF
        exact not_freed_below hg.clean.books hroot ha hdir hall he hl hback
      · rw [if_neg hdir]
        obtain ⟨g₁, heq, hbooks, hinode, -⟩ :=
          freeBlocks_spec hg.clean.books (hg.clean.nodup index ha)
          fun b hb => hg.clean.owned.allocated index b ⟨ha, hb⟩
        exact ⟨g₁, heq, hbooks, (hinode index).trans ha⟩
    rw [hwork]
    obtain ⟨g₂, hfree, -⟩ := hbooks.free hstill
    simp [hfree]

namespace Aged

variable (h : s.Aged)
include h

/-- The fuel it takes is the number of ranks from the directory on. -/
theorem delete_isSome (hrank : s.RankedBy rank) {R : Nat}
    (hR : ∀ d, s.isDirectory d = true → rank d < R) : ∀ (n index : Nat) (g : Groups), s.Shrunk g →
      index / perGroup .inode < s.groups.groupCount →
      (s.isDirectory index = true → R ≤ rank index + n) → (s.inodeDelete (n + 1) index g).isSome =
      true := by
  intro n
  induction n with
  | zero =>
    intro index g hg hne hlow
    refine hg.delete_isSome hne fun hdir => ?_
    have := hR index hdir
    have := hlow hdir
    omega
  | succ n ih =>
    intro index g hg hne hlow
    refine hg.delete_isSome hne fun hdir e he hl g hg => ?_
    have hmem := mem_dirEntries.mpr ⟨hdir, he⟩
    refine ih e.inode g hg (h.named index e hmem hl) fun hedir => ?_
    have := hrank index e hmem hl hedir
    have := hlow hdir
    omega

/-- An index without a block group ends the program: in `get_inode`, or, if it is the
one that stands for the root, in `free_inode`. -/
theorem group_of_delete {r : RetCode} (hd : s.inodeDelete (fuel + 1) index s.groups = some (r, g)) :
    index / perGroup .inode < s.groups.groupCount := by
  by_contra hno
  have hbooks := h.clean.books
  have hroot : index ≠ rootInode := by
    rintro rfl
    exact hno (hbooks.group_lt h.allocated_root)
  cases hi : s.groups.getInode index with
  | none =>
    have hne : index ≠ 2 ^ 32 - 1 := by
      rintro rfl
      cases hi
    have hgroup : s.groups.present index = false := by
      rw [present, decide_eq_false hne, Bool.false_or, ← Bool.not_eq_true, hbooks.hasGroup_iff]
      exact hno
    unfold inodeDelete at hd
    simp [hroot, hi, hgroup] at hd
  | some i =>
    rcases getInode_cases hi with ⟨-, rfl⟩ | ⟨rfl, ha⟩
    · -- the entries of the root are gone, and there is no inode to be freed
      rcases inodeDelete_some hd with ⟨-, rfl | hnone | ⟨j, hj, -, hdir⟩⟩ | ⟨j, g₁, b, -, hj, -,
        hwork, hfree⟩
      · exact hroot rfl
      · rw [hi] at hnone
        cases hnone
      · cases hi.symm.trans hj
        rw [(isDirectory_iff.mp h.root).2] at hdir
        cases hdir
      · cases hi.symm.trans hj
        rcases hwork with ⟨-, hall⟩ | ⟨hreg, -⟩
        · have hg₁ := deleteAll_inv (P := s.Shrunk) (fun _ _ _ _ hg hd => hg.delete hd) ⟨h.clean,
            rfl, fun _ hj => hj⟩ hall
          have hres : g₁.Resident := hg₁.clean.books.ledger.keys
          rw [hres.free_none (by rw [hg₁.count]; exact Nat.not_lt.mp hno)] at hfree
          cases hfree
        · have hdir := (isDirectory_iff.mp h.root).2
          rw [not_isDir_of_isReg hreg] at hdir
          cases hdir
    · exact hno (hbooks.group_lt ha)

theorem unlooped : s.Unlooped := by
  obtain ⟨rank, hrank⟩ := h.ranked
  obtain ⟨R, hR⟩ := rank_lt h.clean.books rank
  have hg : s.Shrunk s.groups := ⟨h.clean, rfl, fun _ hj => hj⟩
  refine ⟨hrank.acyclic, fun index => ?_⟩
  rw [h.clean.books.hasGroup_iff]
  refine ⟨fun ⟨fuel, hends⟩ => ?_, fun hgroup => ⟨R + 1,
    h.delete_isSome hrank hR R _ _ hg hgroup fun _ => Nat.le_add_left _ _⟩⟩
  obtain ⟨⟨r, g'⟩, hd⟩ := Option.isSome_iff_exists.mp hends
  cases fuel with
  | zero => cases hd
  | succ fuel => exact h.group_of_delete hd

end Aged

end FS

end NaiveFS
