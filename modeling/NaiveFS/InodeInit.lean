import NaiveFS.TreeFS

/-!
# A new inode

`alloc_inode` calls `inode_init` when a group that exists serves the inode. An inode
from a group opened for it keeps the zeros of `BlockGroup::alloc_inode`, and with
them a link count of 0: the first `inode_unlink` then makes it 65535 and frees
nothing.
-/

namespace NaiveFS

namespace Groups

variable {k : Kind} {s s' : Groups} {g i : Nat}

theorem scan_least :
    ∀ {l : List (Nat × BlockGroup)}, l.Pairwise (fun a b => a.1 < b.1) →
    scan k s l = some (g, i, s') → ∀ e ∈ l, ¬ Skipped k s e.2 → g ≤ e.1 := by
  intro l
  induction l with
  | nil =>
    intro _ h
    cases h
  | cons a rest ih =>
    intro hs h e he hskip
    obtain ⟨hlt, hs⟩ := List.pairwise_cons.mp hs
    rcases scan_cons k s a.1 a.2 rest with ⟨ha, heq⟩ | ⟨-, j, -, heq⟩
    · rw [heq] at h
      rcases List.mem_cons.mp he with rfl | he
      · exact absurd ha hskip
      · exact ih hs h e he hskip
    · rw [heq] at h
      cases h
      rcases List.mem_cons.mp he with rfl | he
      · exact Nat.le_refl _
      · exact Nat.le_of_lt (hlt e he)

/-- A group below `2 ^ 17`, whose inodes have 32-bit numbers, shows a free inode and
has one. -/
def Serves (s : Groups) : Prop :=
  ∃ g bg, g < 2 ^ 17 ∧ s.blockGroups.find g = some bg ∧
    (s.super.slots bg.desc).bgFreeCount .inode ≠ 0 ∧
    ∃ i < bitmapBits, (bg.bitmap .inode).test i = false

theorem not_skipped {bg : BlockGroup} (hfree : (s.super.slots bg.desc).bgFreeCount k ≠ 0)
    {i : Nat} (hi : i < bitmapBits) (hbit : (bg.bitmap k).test i = false) : ¬ Skipped k s bg := by
  rintro (h | h)
  · exact hfree h
  · have := Bitmap.find_none h i hi
    rw [hbit] at this
    cases this

theorem alloc_first (s : Groups) :
    (∃ g bg i t, s.alloc .inode = (some (u32 (g * perGroup .inode + i), true), t) ∧ i < bitmapBits ∧
        s.blockGroups.find g = some bg ∧ (s.super.slots bg.desc).bgFreeCount .inode ≠ 0 ∧
        (bg.bitmap .inode).test i = false ∧
        (∀ j, t.allocated .inode j = if j = g * perGroup .inode + i then true else
        s.allocated .inode j) ∧ ∀ g' bg', s.blockGroups.find g' = some bg' →
          ¬ Skipped .inode s bg' → g ≤ g') ∨
      ∃ i t, s.alloc .inode = (some (i, false), t) ∧ ∀ g bg, s.blockGroups.find g = some bg →
      Skipped .inode s bg := by
  unfold alloc
  simp only
  cases hscan : scan .inode (s.setCount .inode (u32 (s.super.sCount .inode + 1)))
    s.blockGroups.entries with
  | none =>
    right
    rw [setCount_blockGroups, hscan]
    simp only
    rw [allocInNew_eq .inode _ rfl]
    exact ⟨_, _, rfl, fun g bg hg => scan_none hscan _ (OrdMap.find_eq_some.mp hg)⟩
  | some r =>
    left
    obtain ⟨g, i, t⟩ := r
    obtain ⟨bg, hmem, hfree, hbit, rfl⟩ := scan_some hscan
    obtain ⟨hi, hclear, -⟩ := Bitmap.find_some hbit
    have hfind := OrdMap.find_eq_some.mpr hmem
    rw [setCount_blockGroups, hscan]
    refine ⟨g, bg, i, _, rfl, hi, hfind, hfree, hclear, fun j => ?_, fun g' bg' hg' hskip => ?_⟩
    · have hset := allocated_setBitmap hfind hi
        (take_blockGroups .inode g bg i (s.setCount .inode (u32 (s.super.sCount .inode + 1))))
        (fun j hj => Bitmap.test_set_ne _ hj) .inode j
      simpa using hset
    · exact scan_least s.blockGroups.sorted hscan _ (OrdMap.find_eq_some.mp hg') hskip

end Groups

namespace TreeFS

open Groups

/-- Inode `i` is new, and as `alloc_inode` should leave it; `last` is the test of
`inode_unlink` for the last link. -/
structure Initialised (s : TreeFS) (mode i : Nat) (s' : TreeFS) : Prop where
  mode : (s'.inodes i).iMode = mode
  links : (s'.inodes i).iLinksCount = 1
  size : (s'.inodes i).iSize = 0
  blocks : (s'.inodes i).iBlocks = 0
  block : ∀ k, (s'.inodes i).iBlock k = 0
  fresh : s.groups.allocated .inode i = false
  taken : s'.groups.allocated .inode i = true
  others : ∀ j, j ≠ i → s'.inodes j = s.inodes j ∧ s'.groups.allocated .inode j =
    s.groups.allocated .inode j
  last : u16 ((s'.inodes i).iLinksCount + 65535) = 0

/-- An inode from a new group keeps the link count 0. -/
theorem allocInode_unserved {s : TreeFS}
    (hskip : ∀ g bg, s.groups.blockGroups.find g = some bg → Skipped .inode s.groups bg)
    (mode : Nat) : ∃ i s', s.allocInode mode = (some i, s') ∧ ¬ s.Initialised mode i s' := by
  rcases s.groups.alloc_first with ⟨g, bg, i, t, heq, hi, hfind, hfree, hclear, -, -⟩ | ⟨i,
    t, heq, -⟩
  · exact absurd (hskip g bg hfind) (not_skipped hfree hi hclear)
  · refine ⟨_, _, by unfold allocInode; rw [heq], fun h => ?_⟩
    have hlinks := h.links
    simp [emptyTree, FS.blankInode] at hlinks

/-- The formatted file system with every inode of its group in use. -/
def allInUse : TreeFS :=
  { format with store := { format.store with groups :=
      { Groups.format with
        super := Groups.format.super.setFree 0 .inode 0
        blockGroups := OrdMap.empty.insert 0 ⟨0, fun _ => ⟨fun _ => BitVec.allOnes 32⟩⟩ } } }

theorem first_file_of_new_group :
    ∃ i s', allInUse.allocInode 0o100644 = (some i, s') ∧ ¬ allInUse.Initialised 0o100644 i s' := by
  refine allocInode_unserved (fun g bg hfind => ?_) _
  have hbg : bg = ⟨0, fun _ => ⟨fun _ => BitVec.allOnes 32⟩⟩ := by
    have h : (OrdMap.empty.insert 0 _).find g = some bg := hfind
    rw [OrdMap.find_insert] at h
    split at h
    · cases h
      rfl
    · cases h
  rw [hbg]
  exact Or.inl (by decide)

/-- `alloc_inode` never fails, and initialises the inode exactly if an existing group
serves it and the mode fits its field. -/
theorem allocInode_initialised_iff (s : TreeFS) (mode : Nat) :
    ∃ i s', s.allocInode mode = (some i, s') ∧
      (s.Initialised mode i s' ↔ s.groups.Serves ∧ mode < 2 ^ 16) := by
  rcases s.groups.alloc_first with ⟨g, bg, i, t, heq, hi, hfind, hfree, hclear, hafter,
    hleast⟩ | ⟨i, t, heq, hskip⟩
  · refine ⟨_, _, by unfold allocInode; rw [heq],
      fun h => ⟨⟨g, bg, ?_, hfind, hfree, i, hi, hclear⟩, ?_⟩, fun ⟨hserves, hmode⟩ => ?_⟩
    · -- the number of the inode is the one whose bit was set
      by_contra hlarge
      have hne : u32 (g * perGroup .inode + i) ≠ g * perGroup .inode + i := by
        rw [perGroup_inode]
        unfold u32
        omega
      have htaken : t.allocated .inode _ = true := h.taken
      rw [hafter, if_neg hne, h.fresh] at htaken
      cases htaken
    · have hmode := h.mode
      simp only [if_true, Function.update_self, emptyTree, FS.inodeInit, FS.blankInode] at hmode
      rw [← hmode]
      exact Nat.mod_lt _ (by decide)
    · obtain ⟨g', bg', hlt, hfind', hfree', j, hj, hclear'⟩ := hserves
      have hg : g < 2 ^ 17 :=
        Nat.lt_of_le_of_lt (hleast g' bg' hfind' (not_skipped hfree' hj hclear')) hlt
      have hidx : u32 (g * perGroup .inode + i) = g * perGroup .inode + i := by
        apply u32_of_lt
        rw [perGroup_inode]
        rw [bitmapBits_eq] at hi
        omega
      have hpos := (index_eq_iff (k := .inode) (g := g) hi).mp rfl
      have hfresh : s.groups.allocated .inode (g * perGroup .inode + i) = false := by
        unfold allocated
        rw [hpos.1, hfind]
        simp only
        rw [hpos.2, hclear, Bool.and_false]
      rw [hidx]
      refine ⟨?_, ?_, ?_, ?_, fun k => ?_, hfresh, ?_, fun j hj => ⟨?_, ?_⟩, ?_⟩
      · simp only [if_true, Function.update_self, emptyTree, FS.inodeInit, FS.blankInode]
        exact Nat.mod_eq_of_lt hmode
      · simp [emptyTree, FS.inodeInit]
      · simp [emptyTree, FS.inodeInit]
      · simp [emptyTree, FS.inodeInit]
      · simp [emptyTree]
      · exact (hafter _).trans (if_pos rfl)
      · exact Function.update_of_ne hj _ _
      · exact (hafter j).trans (if_neg hj)
      · simp [emptyTree, FS.inodeInit, u16]
  · obtain ⟨j, s', hs', hnot⟩ := allocInode_unserved hskip mode
    refine ⟨j, s', hs', fun h => absurd h hnot, fun ⟨hserves, _⟩ => ?_⟩
    obtain ⟨g, bg, -, hfind, hfree, j, hj, hclear⟩ := hserves
    exact absurd (hskip g bg hfind) (not_skipped hfree hj hclear)

end TreeFS

end NaiveFS
