import NaiveFS.GroupsSound

/-!
# The layout of the disk

Where the super block and the bitmaps, inode blocks and data blocks of every
group lie. With at most 32 groups the one collision is the one `overlap_iff`
names: the last inode block of a group is its first data block, because the
inode blocks start one block behind the block bitmap and the data blocks
`NUM_INODE_TABLE_BLOCKS` blocks behind it. Group 32 on, the 32-bit descriptor
fields wrap around.
-/

namespace NaiveFS

namespace Groups

/-- A block of the disk with a meaning of its own. -/
inductive DiskObj where
  | super
  | bitmap (k : Kind) (g : Nat)
  | inodeBlock (g k : Nat)
  | dataBlock (g i : Nat)
  deriving DecidableEq, Repr

/-- The offset of an object, if the layout of `s` has it. -/
def offset (s : Groups) : DiskObj → Option Nat
  | .super => some 0
  | .bitmap k g => (s.blockGroups.find g).map fun bg => (s.super.slots bg.desc).bgBitmap k
  | .inodeBlock g k =>
    if k < numInodeTableBlocks then (s.blockGroups.find g).map fun bg =>
      s.inodeBlockOffset bg k else none
  | .dataBlock g i =>
    if i < blocksPerGroup then (s.blockGroups.find g).map fun bg => s.dataBlockOffset bg i else none

/-- The 4096 bytes at `a` and at `b` have no byte in common. -/
def DisjointAt (a b : Nat) : Prop := a + blockSize ≤ b ∨ b + blockSize ≤ a

def NonOverlapping (s : Groups) : Prop :=
  ∀ x y a b, x ≠ y → s.offset x = some a → s.offset y = some b → DisjointAt a b

/-- The layouts the code builds: groups are added one at a time while the
`ASSERT` of `alloc_block_group` admits the descriptor. Between two groups any
number of allocations and frees happens; of these only the counts matter, since
the next group's index is computed from them. -/
inductive Built : Groups → Prop where
  | format : Built format
  | counts {s : Groups} (c : Kind → Nat) : Built s →
    Built { s with super := { s.super with sCount := c } }
  | group {s : Groups} : superSize + s.super.numBlockGroups * groupDescSize ≤ blockSize →
      Built s → Built s.allocBlockGroup.2

/-- Every group of `s` has the descriptor `alloc_block_group` writes for its index. -/
structure Placed (s : Groups) : Prop where
  zero : ∃ bg, s.blockGroups.find 0 = some bg
  desc : ∀ g bg, s.blockGroups.find g = some bg → bg.desc = g
  slot : ∀ g bg, s.blockGroups.find g = some bg → (s.super.slots g).bgBitmap = (newDesc g).bgBitmap

theorem format_slot : (format.super.slots 0).bgBitmap = (newDesc 0).bgBitmap := by
  funext k
  cases k <;> rfl

theorem Placed.format : Placed Groups.format := by
  have hfind : ∀ g bg', Groups.format.blockGroups.find g = some bg' → g = 0 ∧ bg' = rootGroup := by
    intro g bg' h
    rw [OrdMap.find_eq_some, format_entries] at h
    simpa using h
  refine ⟨⟨rootGroup, ?_⟩, fun g bg' h => ?_, fun g bg' h => ?_⟩
  · rw [OrdMap.find_eq_some, format_entries]; exact List.mem_singleton.mpr rfl
  · obtain ⟨rfl, rfl⟩ := hfind g bg' h
    rfl
  · obtain ⟨rfl, -⟩ := hfind g bg' h
    exact format_slot

theorem Placed.allocBlockGroup {s : Groups} (h : Placed s) : Placed s.allocBlockGroup.2 := by
  simp only [Groups.allocBlockGroup]
  have hfind := fun g => OrdMap.find_insert s.blockGroups s.super.numBlockGroups
    { desc := s.super.numBlockGroups, bitmap := fun _ => Bitmap.zero } g
  refine ⟨?_, fun g bg hg => ?_, fun g bg hg => ?_⟩
  · rw [hfind]
    split
    · exact ⟨_, rfl⟩
    · exact h.zero
  · rw [hfind] at hg
    split at hg
    · rename_i heq
      cases hg
      exact heq.symm
    · exact h.desc g bg hg
  · rw [hfind] at hg
    simp only [SuperBlock.putGroupDesc]
    split at hg
    · rename_i heq
      rw [← heq, Function.update_self]
    · rename_i hne
      rw [Function.update_of_ne hne]
      exact h.slot g bg hg

theorem Built.placed {s : Groups} (h : Built s) : Placed s := by
  induction h with
  | format => exact Placed.format
  | counts _ _ ih => exact ⟨ih.zero, ih.desc, ih.slot⟩
  | group _ _ ih => exact ih.allocBlockGroup

/-! ## Collisions -/

theorem inodeBlockOffset_last (s : Groups) (bg : BlockGroup) :
    s.inodeBlockOffset bg 1023 = s.dataBlockOffset bg 0 := rfl

/-- The last inode block of a group is its first data block. -/
theorem offset_last {s : Groups} {g : Nat} {bg : BlockGroup} (h : s.blockGroups.find g = some bg) :
    s.offset (.inodeBlock g 1023) = some (s.dataBlockOffset bg 0) ∧
      s.offset (.dataBlock g 0) = some (s.dataBlockOffset bg 0) := by
  constructor
  · simp only [offset, h, Option.map_some, inodeBlockOffset_last]; rfl
  · simp only [offset, h, Option.map_some]; rfl

theorem layout_overlaps {s : Groups} (h : Built s) : ¬ NonOverlapping s := by
  intro hn
  obtain ⟨bg, hbg⟩ := h.placed.zero
  obtain ⟨hi, hd⟩ := offset_last hbg
  have := hn _ _ _ _ (by decide) hi hd
  unfold DisjointAt at this
  rw [blockSize_eq] at this
  omega

theorem layout_overlaps_format : Built Groups.format ∧ ¬ NonOverlapping Groups.format :=
  ⟨Built.format, layout_overlaps Built.format⟩

theorem layout_collision_group_zero :
    Built Groups.format ∧ Groups.format.offset (.inodeBlock 0 1023) = some 4202496 ∧
      Groups.format.offset (.dataBlock 0 0) = some 4202496 :=
  ⟨Built.format, rfl, rfl⟩

/-! ## No other collision below group 32 -/

/-- The block number of an object when no descriptor field wraps around. -/
def blockNo : DiskObj → Nat
  | .super => 0
  | .bitmap .inode g => 33794 * g + 1
  | .bitmap .block g => 33794 * g + 2
  | .inodeBlock g k => 33794 * g + 3 + k
  | .dataBlock g i => 33794 * g + 1026 + i

/-- The position of an object in its group. -/
def Within : DiskObj → Prop
  | .super | .bitmap _ _ => True
  | .inodeBlock _ k => k < 1024
  | .dataBlock _ i => i < 32768

theorem newDesc_bitmap {g : Nat} (hg : g < 32) :
    (newDesc g).bgBitmap .inode = 4096 * (33794 * g + 1) ∧ (newDesc g).bgBitmap .block =
      4096 * (33794 * g + 2) := by
  have h : g * maxBlockGroupSize + blockSize = 4096 * (33794 * g + 1) := by
    rw [maxBlockGroupSize_eq, blockSize_eq]; omega
  simp only [newDesc, SuperBlock.descAt]
  rw [h, blockSize_eq]
  unfold u32
  constructor <;> omega

theorem Placed.offset_eq {s : Groups} (h : Placed s)
    (hlt : ∀ g bg, s.blockGroups.find g = some bg → g < 32) {x : DiskObj} {a : Nat}
    (hx : s.offset x = some a) : a = 4096 * blockNo x ∧ Within x := by
  have hblock : ∀ g bg, s.blockGroups.find g = some bg →
      (s.super.slots bg.desc).bgBitmap .block = 4096 * (33794 * g + 2) := by
    intro g bg hbg
    rw [h.desc g bg hbg, h.slot g bg hbg]
    exact (newDesc_bitmap (hlt g bg hbg)).2
  cases x with
  | super => cases hx; exact ⟨rfl, trivial⟩
  | bitmap k g =>
    simp only [offset, Option.map_eq_some_iff] at hx
    obtain ⟨bg, hbg, rfl⟩ := hx
    rw [h.desc g bg hbg, h.slot g bg hbg]
    obtain ⟨hi, hb⟩ := newDesc_bitmap (hlt g bg hbg)
    cases k with
    | block => exact ⟨hb, trivial⟩
    | inode => exact ⟨hi, trivial⟩
  | inodeBlock g k =>
    simp only [offset] at hx
    split at hx
    · rename_i hk
      rw [numInodeTableBlocks_eq] at hk
      obtain ⟨bg, hbg, rfl⟩ := Option.map_eq_some_iff.mp hx
      refine ⟨?_, hk⟩
      simp only [inodeBlockOffset, hblock g bg hbg, blockSize_eq, blockNo, u32]
      omega
    · cases hx
  | dataBlock g i =>
    simp only [offset] at hx
    split at hx
    · rename_i hi
      rw [blocksPerGroup_eq] at hi
      obtain ⟨bg, hbg, rfl⟩ := Option.map_eq_some_iff.mp hx
      refine ⟨?_, hi⟩
      simp only [dataBlockOffset, hblock g bg hbg, blockSize_eq, numInodeTableBlocks_eq,
        blockNo, u32]
      omega
    · cases hx

/-- The two names of one block. -/
def Twins (x y : DiskObj) : Prop := ∃ g, x = .inodeBlock g 1023 ∧ y = .dataBlock g 0

theorem blockNo_eq {x y : DiskObj} (hx : Within x) (hy : Within y) (h : blockNo x = blockNo y) :
    x = y ∨ Twins x y ∨ Twins y x := by
  rcases x with _ | ⟨_ | _, g⟩ | ⟨g, k⟩ | ⟨g, i⟩ <;>
    rcases y with _ | ⟨_ | _, g'⟩ | ⟨g', k'⟩ | ⟨g', i'⟩ <;>
    simp only [blockNo, Within] at h hx hy
  all_goals try omega
  all_goals simp only [Twins, DiskObj.bitmap.injEq, DiskObj.inodeBlock.injEq,
    DiskObj.dataBlock.injEq, reduceCtorEq, false_and, and_false, exists_false, or_false, false_or,
    true_and]
  all_goals first | omega | exact ⟨g, by omega, by omega⟩

/-- Below group 32 the only blocks with two meanings are the ones of `offset_last`. -/
theorem overlap_iff {s : Groups} (h : Placed s)
    (hlt : ∀ g bg, s.blockGroups.find g = some bg → g < 32) {x y : DiskObj} {a b : Nat}
    (hne : x ≠ y) (hx : s.offset x = some a) (hy : s.offset y = some b) :
    ¬ DisjointAt a b ↔ Twins x y ∨ Twins y x := by
  obtain ⟨ha, hwx⟩ := h.offset_eq hlt hx
  obtain ⟨hb, hwy⟩ := h.offset_eq hlt hy
  have hmeet : ¬ DisjointAt a b ↔ blockNo x = blockNo y := by
    unfold DisjointAt
    rw [ha, hb, blockSize_eq]
    omega
  rw [hmeet]
  constructor
  · intro heq
    exact (blockNo_eq hwx hwy heq).resolve_left hne
  · rintro (⟨g, rfl, rfl⟩ | ⟨g, rfl, rfl⟩) <;> rfl

end Groups

end NaiveFS
