import NaiveFS.Namespace
import NaiveFS.GroupLedger

/-!
# What the namespace asks of the allocator

`Books` is the ledger of a file system with at most 33 block groups. Under it
every index handed out is new and giving back an allocated index clears one bit.
`Owned` says that the blocks held by inodes are allocated and have one holder.
-/

namespace NaiveFS

namespace Groups

def groupCount (g : Groups) : Nat := g.super.descTable.length

structure Books (g : Groups) : Prop where
  ledger : Ledger g.groupCount g
  le : g.groupCount ≤ 33

/-- The groups in memory are those that have a descriptor, so none is read from
the disk. -/
def Resident (g : Groups) : Prop := ∀ i, (∃ bg, g.blockGroups.find i = some bg) ↔ i < g.groupCount

theorem Books.resident {g : Groups} (h : g.Books) : g.Resident := h.ledger.keys

theorem Ledger.groupCount_eq {n : Nat} {g : Groups} (h : Ledger n g) : g.groupCount = n := by
  unfold groupCount; rw [h.table, List.length_range]

theorem Ledger.books {n : Nat} {g : Groups} (h : Ledger n g) (hn : g.groupCount ≤ 33) : g.Books :=
  ⟨by rw [h.groupCount_eq]; exact h, hn⟩

theorem Books.format : Groups.format.Books := Ledger.format.books (by decide)

/-! ## Allocation -/

theorem alloc_groupCount (k : Kind) (g : Groups) : g.groupCount ≤ (g.alloc k).2.groupCount := by
  have hres := alloc_result k g
  generalize g.alloc k = r at hres
  cases hres with
  | old => exact Nat.le_refl _
  | new hs₁ hg hskip =>
    subst hs₁
    change _ ≤ (g.super.descTable ++ [_]).length
    rw [List.length_append]
    exact Nat.le_add_right ..

theorem Ledger.alloc_opens {n : Nat} {g : Groups} (h : Ledger n g) {k : Kind}
    (hfull : g.hasFree k = false) :
    (g.alloc k).2.groupCount = g.groupCount + 1 := by
  have hres := alloc_result k g
  generalize g.alloc k = r at hres
  cases hres with
  | @old j bg i hfind hfree hbit =>
    rw [h.desc j bg hfind] at hfree
    rw [(h.hasFree_iff k).mpr ⟨j, (h.keys j).mp ⟨bg, hfind⟩, hfree⟩] at hfull
    cases hfull
  | new hs₁ hg hskip =>
    subst hs₁
    change (g.super.descTable ++ [_]).length = _
    rw [List.length_append]
    rfl

theorem Books.alloc {g : Groups} (h : g.Books) (k : Kind) (hle : (g.alloc k).2.groupCount ≤ 33) :
    ∃ i, g.alloc k = (some (i, g.hasFree k), (g.alloc k).2) ∧ HandedOut k i g (g.alloc k).2 ∧
      (g.alloc k).2.Books := by
  have hroom : g.hasFree k = true ∨ g.groupCount ≤ 32 := by
    rcases Bool.eq_false_or_eq_true (g.hasFree k) with hhas | hfull
    · exact Or.inl hhas
    · rw [h.ledger.alloc_opens hfull] at hle
      exact Or.inr (Nat.le_of_succ_le_succ hle)
  obtain ⟨i, g', heq, hout, hled⟩ := h.ledger.alloc_of_room h.le hroom
  rw [heq] at hle ⊢
  exact ⟨i, rfl, hout, hled.books hle⟩

theorem Books.free {g : Groups} (h : g.Books) {k : Kind} {i : Nat} (ha : g.allocated k i = true) :
    ∃ g', g.free k i = some (true, g') ∧ g'.Books ∧
      ∀ k' j, g'.allocated k' j = if k' = k ∧ j = i then false else g.allocated k' j := by
  obtain ⟨g', heq, hled, hafter⟩ := h.ledger.free_allocated h.le ha
  exact ⟨g', heq, hled.books (by rw [hled.groupCount_eq]; exact h.le), hafter⟩

theorem Books.index_lt {g : Groups} (h : g.Books) {k : Kind} {i : Nat}
    (ha : g.allocated k i = true) :
    i < 33 * perGroup k := by
  obtain ⟨bg, hfind, -⟩ := allocated_iff.mp ha
  have hlt := (h.ledger.keys _).mp ⟨bg, hfind⟩
  exact (Nat.div_lt_iff_lt_mul (perGroup_pos k)).mp (Nat.lt_of_lt_of_le hlt h.le)

/-- The counts of the super block bound what is allocated. -/
theorem Books.length_le {g : Groups} (h : g.Books) {k : Kind} {l : List Nat} (hl : l.Nodup)
    (ha : ∀ i ∈ l, g.allocated k i = true) : baseCount k + l.length ≤ g.super.sCount k := by
  classical
  let bits (j : Nat) : Finset Nat := (Finset.range bitmapBits).filter fun i =>
    ∃ bg, g.blockGroups.find j = some bg ∧ (bg.bitmap k).test i = true
  have hcard : ∀ j, (bits j).card ≤ g.used k j := by
    intro j
    cases hf : g.blockGroups.find j with
    | none => simp [bits, hf]
    | some bg =>
      rw [used_eq hf, Bitmap.count, Nat.count_eq_card_filter_range]
      simp [bits, hf]
  have hsub : l.toFinset ⊆ (Finset.range g.groupCount).biUnion fun j => (bits j).image fun i =>
    j * perGroup k + i := by
    intro i hi
    have hi := ha i (List.mem_toFinset.mp hi)
    obtain ⟨bg, hfind, hlt, ht⟩ := allocated_iff.mp hi
    refine Finset.mem_biUnion.mpr ⟨i / perGroup k,
      Finset.mem_range.mpr ((h.ledger.keys _).mp ⟨bg, hfind⟩),
      Finset.mem_image.mpr ⟨i % perGroup k, Finset.mem_filter.mpr ⟨Finset.mem_range.mpr hlt, bg,
      hfind, ht⟩, ?_⟩⟩
    rw [Nat.mul_comm]
    exact Nat.div_add_mod i (perGroup k)
  have hle : l.length ≤ ∑ j ∈ Finset.range g.groupCount, g.used k j := by
    rw [← List.toFinset_card_of_nodup hl]
    refine (Finset.card_le_card hsub).trans
      (Finset.card_biUnion_le.trans (Finset.sum_le_sum fun j _ => ?_))
    exact Finset.card_image_le.trans (hcard j)
  rw [h.ledger.count k]
  omega

theorem Resident.free_none {g : Groups} (h : g.Resident) {k : Kind} {i : Nat}
    (hi : g.groupCount ≤ i / perGroup k) :
    g.free k i = none := by
  have hfind : g.blockGroups.find (i / perGroup k) = none := by
    cases hf : g.blockGroups.find (i / perGroup k) with
    | none => rfl
    | some bg => exact absurd ((h _).mp ⟨bg, hf⟩) (Nat.not_lt.mpr hi)
  have hdesc : g.super.descTable[i / perGroup k]? = none := List.getElem?_eq_none_iff.mpr hi
  simp [Groups.free, findGroup, hfind, SuperBlock.getGroupDesc, setCount, SuperBlock.setCount,
    hdesc]

theorem allocated_found {g : Groups} {k : Kind} {j : Nat} {bg : BlockGroup}
    (h : g.blockGroups.find (j / perGroup k) = some bg) :
    g.allocated k j = (decide (j % perGroup k < bitmapBits) && (bg.bitmap k).test
      (j % perGroup k)) := by
  unfold allocated
  rw [h]

theorem allocated_of_find {g g' : Groups} {k : Kind} {j : Nat}
    (h : g'.blockGroups.find (j / perGroup k) = g.blockGroups.find (j / perGroup k)) :
    g'.allocated k j = g.allocated k j := by
  unfold allocated
  rw [h]

theorem Resident.free {g g' : Groups} (h : g.Resident) {k : Kind} {i : Nat} {b : Bool}
    (heq : g.free k i = some (b, g')) :
    g'.Resident ∧ g'.groupCount = g.groupCount ∧
      ∀ k' j, ¬ (k' = k ∧ j = i) → g'.allocated k' j = g.allocated k' j := by
  cases hfind : g.blockGroups.find (i / perGroup k) with
  | none =>
    have hle : g.groupCount ≤ i / perGroup k := by
      by_contra hlt
      obtain ⟨bg, hbg⟩ := (h _).mpr (Nat.lt_of_not_le hlt)
      rw [hfind] at hbg
      cases hbg
    rw [h.free_none hle] at heq
    cases heq
  | some bg =>
    simp only [Groups.free, findGroup, setCount_blockGroups, hfind] at heq
    by_cases ht : (bg.bitmap k).test (i % perGroup k) = true
    · rw [if_pos ht] at heq
      cases heq
      refine ⟨fun j => ?_, rfl, fun k' j hne => ?_⟩
      · refine Iff.trans ?_ (h j)
        change (∃ bg', (g.blockGroups.insert (i / perGroup k) _).find j = some bg') ↔ _
        rw [OrdMap.find_insert]
        split
        · rename_i hj
          rw [hj, hfind]
          exact ⟨fun _ => ⟨_, rfl⟩, fun _ => ⟨_, rfl⟩⟩
        · exact Iff.rfl
      · by_cases hj : j / perGroup k' = i / perGroup k
        · have hold : g.blockGroups.find (j / perGroup k') = some bg := by rw [hj, hfind]
          rw [allocated_found hold]
          refine (allocated_found ((OrdMap.find_insert ..).trans (if_pos hj))).trans ?_
          by_cases hk : k' = k
          · subst hk
            have hmod : j % perGroup k' ≠ i % perGroup k' := by
              intro hmod
              exact hne ⟨rfl, by rw [← Nat.div_add_mod j (perGroup k'), hj, hmod, Nat.div_add_mod]⟩
            simp only [setBitmap_self, Bitmap.test_clear_ne _ hmod]
          · simp only [setBitmap_ne _ _ hk]
        · apply allocated_of_find
          exact (OrdMap.find_insert ..).trans (if_neg hj)
    · rw [if_neg ht] at heq
      cases heq
      exact ⟨h, rfl, fun _ _ _ => rfl⟩

/-! ## Inodes -/

theorem Books.ne_root_alias {g : Groups} (h : g.Books) {i : Nat}
    (ha : g.allocated .inode i = true) : i ≠ 2 ^ 32 - 1 := by
  have := h.index_lt ha
  rw [perGroup_inode] at this
  omega

theorem getInode_of_allocated {g : Groups} (h : g.Books) {i : Nat}
    (ha : g.allocated .inode i = true) :
    g.getInode i = some i := by
  rw [getInode, if_neg (h.ne_root_alias ha), if_pos ha]

theorem present_of_allocated {g : Groups} {i : Nat} (ha : g.allocated .inode i = true) :
    g.present i = true := by
  obtain ⟨bg, hfind, -⟩ := allocated_iff.mp ha
  simp [present, hasGroup, findGroup, hfind]

theorem getInode_cases {g : Groups} {i j : Nat} (h : g.getInode i = some j) :
    i = 2 ^ 32 - 1 ∧ j = rootInode ∨ i = j ∧ g.allocated .inode j = true := by
  unfold getInode at h
  split at h
  · rename_i hi
    cases h
    exact Or.inl ⟨hi, rfl⟩
  · split at h
    · rename_i ha
      cases h
      exact Or.inr ⟨rfl, ha⟩
    · cases h

theorem getInode_deref {g : Groups} {i j : Nat} (h : g.getInode i = some j) : FS.deref i = j := by
  unfold FS.deref
  rcases getInode_cases h with ⟨hi, rfl⟩ | ⟨rfl, -⟩
  · rw [if_pos hi]
  · unfold getInode at h
    split at h
    · rename_i hi; cases h; rw [if_pos hi]
    · rename_i hi; rw [if_neg hi]

/-- What handing out a data block, and the indirect blocks that come with it, does. -/
structure BlockOut (b : Nat) (g g' : Groups) : Prop where
  books : g'.Books
  fresh : g.allocated .block b = false
  taken : g'.allocated .block b = true
  keep : ∀ j, g.allocated .block j = true → g'.allocated .block j = true
  inode : ∀ j, g'.allocated .inode j = g.allocated .inode j

theorem HandedOut.keep {k : Kind} {i : Nat} {g g' : Groups} (h : HandedOut k i g g') {k' : Kind}
    {j : Nat} (ha : g.allocated k' j = true) : g'.allocated k' j = true := by
  rw [h.after]
  split
  · rfl
  · exact ha

theorem HandedOut.other {k k' : Kind} {i : Nat} {g g' : Groups} (h : HandedOut k i g g')
    (hk : k' ≠ k) (j : Nat) :
    g'.allocated k' j = g.allocated k' j := by
  rw [h.after, if_neg fun hc => hk hc.1]

theorem HandedOut.taken {k : Kind} {i : Nat} {g g' : Groups} (h : HandedOut k i g g') :
    g'.allocated k i = true := by
  rw [h.after, if_pos ⟨rfl, rfl⟩]

end Groups

/-! ## Blocks and their holders -/

/-- `holds i b`: inode `i` holds block `b`. -/
structure Owned (g : Groups) (holds : Nat → Nat → Prop) : Prop where
  allocated : ∀ i b, holds i b → g.allocated .block b = true
  unique : ∀ i j b, holds i b → holds j b → i = j

namespace Owned

variable {g g' : Groups} {holds holds' : Nat → Nat → Prop}

theorem mono (h : Owned g holds)
    (hg : ∀ b, g.allocated .block b = true → g'.allocated .block b = true)
    (hsub : ∀ i b, holds' i b → holds i b) : Owned g' holds' where
  allocated i b hb := hg b (h.allocated i b (hsub i b hb))
  unique i j b hi hj := h.unique i j b (hsub i b hi) (hsub j b hj)

theorem grow (h : Owned g holds) {b : Nat} (i₀ : Nat) (hout : Groups.BlockOut b g g')
    (hsub : ∀ i c, holds' i c → holds i c ∨ i = i₀ ∧ c = b) : Owned g' holds' := by
  have hfree : ∀ i, ¬ holds i b := fun i hi => by
    have := h.allocated i b hi
    rw [hout.fresh] at this
    cases this
  constructor
  · intro i c hc
    rcases hsub i c hc with hc | ⟨-, rfl⟩
    · exact hout.keep c (h.allocated i c hc)
    · exact hout.taken
  · intro i j c hi hj
    rcases hsub i c hi with hi | ⟨rfl, rfl⟩
    · rcases hsub j c hj with hj | ⟨rfl, rfl⟩
      · exact h.unique i j c hi hj
      · exact absurd hi (hfree i)
    · rcases hsub j c hj with hj | ⟨rfl, -⟩
      · exact absurd hj (hfree j)
      · rfl

end Owned

namespace FS

open Groups

/-! ## Blocks for an inode -/

theorem allocBlock_eq (g : Groups) :
    g.allocBlock = ((g.alloc .block).1.map Prod.fst, (g.alloc .block).2) := rfl

/-- A block is always found, if need be in a new group. -/
theorem allocIndirects_succ (n : Nat) (g : Groups) :
    allocIndirects (n + 1) g = allocIndirects n (g.alloc .block).2 := by
  obtain ⟨r, hr⟩ := Option.isSome_iff_exists.mp (g.alloc_sCount .block).1
  rw [allocIndirects, allocBlock_eq, hr]
  rfl

theorem allocIndirects_true : ∀ (n : Nat) (g : Groups), (allocIndirects n g).1 = true := by
  intro n
  induction n with
  | zero => exact fun g => rfl
  | succ n ih =>
    intro g
    rw [allocIndirects_succ]
    exact ih _

theorem allocIndirects_groupCount :
    ∀ (n : Nat) (g : Groups), g.groupCount ≤ (allocIndirects n g).2.groupCount := by
  intro n
  induction n with
  | zero => exact fun g => Nat.le_refl _
  | succ n ih =>
    intro g
    rw [allocIndirects_succ]
    exact Nat.le_trans (alloc_groupCount .block g) (ih _)

theorem allocIndirects_spec :
    ∀ (n : Nat) (g : Groups), g.Books → (allocIndirects n g).2.groupCount ≤ 33 →
    (allocIndirects n g).2.Books ∧
      (∀ j, g.allocated .block j = true → (allocIndirects n g).2.allocated .block j = true) ∧
      ∀ j, (allocIndirects n g).2.allocated .inode j = g.allocated .inode j := by
  intro n
  induction n with
  | zero => exact fun g hg _ => ⟨hg, fun _ h => h, fun _ => rfl⟩
  | succ n ih =>
    intro g hg hle
    rw [allocIndirects_succ] at hle ⊢
    obtain ⟨i, -, hout, hbooks⟩ :=
      hg.alloc .block (Nat.le_trans (allocIndirects_groupCount n _) hle)
    obtain ⟨h1, h2, h3⟩ := ih _ hbooks hle
    exact ⟨h1, fun j hj => h2 j (hout.keep hj), fun j => (h3 j).trans (hout.other (by decide) j)⟩

def addBlock (ino : ListInode) (b : Nat) : ListInode :=
  { ino with iBlock := ino.iBlock ++ [b], iBlocks := u32 (ino.iBlocks + 2 <<< logBlockSize) }

@[simp] theorem addBlock_iBlock (ino : ListInode) (b : Nat) :
    (addBlock ino b).iBlock = ino.iBlock ++ [b] := rfl
@[simp] theorem addBlock_iMode (ino : ListInode) (b : Nat) : (addBlock ino b).iMode = ino.iMode :=
  rfl
@[simp] theorem addBlock_iLinksCount (ino : ListInode) (b : Nat) :
    (addBlock ino b).iLinksCount = ino.iLinksCount := rfl

/-- The groups after `alloc_block` for `ino`: a data block is taken, and the
indirect blocks it brings with it. -/
def takenFor (ino : ListInode) (g : Groups) : Groups :=
  (allocIndirects (indirectsFor (numAlignedBlocks ino.iBlocks)) (g.alloc .block).2).2

theorem takenFor_groupCount (ino : ListInode) (g : Groups) :
    g.groupCount ≤ (takenFor ino g).groupCount :=
  Nat.le_trans (alloc_groupCount .block g) (allocIndirects_groupCount ..)

theorem allocBlockFor_eq (ino : ListInode) (s : FS) :
    ∃ b served, (s.groups.alloc .block).1 = some (b, served) ∧
      s.allocBlockFor ino = (some b, addBlock ino b,
        { s with groups := takenFor ino s.groups, dents := Function.update s.dents b [] }) := by
  obtain ⟨⟨b, served⟩, hr⟩ := Option.isSome_iff_exists.mp (s.groups.alloc_sCount .block).1
  refine ⟨b, served, hr, ?_⟩
  have htrue := allocIndirects_true (indirectsFor (numAlignedBlocks ino.iBlocks))
    (s.groups.alloc .block).2
  unfold allocBlockFor takenFor
  rw [allocBlock_eq, hr]
  simp only [Option.map_some]
  generalize allocIndirects (indirectsFor (numAlignedBlocks ino.iBlocks))
    (s.groups.alloc .block).2 = a at htrue
  obtain ⟨ok, g⟩ := a
  cases htrue
  rfl

theorem allocBlockFor_groupCount (ino : ListInode) (s : FS) :
    s.groups.groupCount ≤ (s.allocBlockFor ino).2.2.groups.groupCount := by
  obtain ⟨b, served, -, heq⟩ := allocBlockFor_eq ino s
  rw [heq]
  exact takenFor_groupCount ino s.groups

theorem allocBlockFor_spec (ino : ListInode) {s : FS} (h : s.groups.Books)
    (hle : (s.allocBlockFor ino).2.2.groups.groupCount ≤ 33) :
    ∃ b g, s.allocBlockFor ino = (some b, addBlock ino b,
      { s with groups := g, dents := Function.update s.dents b [] }) ∧
      BlockOut b s.groups g := by
  obtain ⟨b, served, hr, heq⟩ := allocBlockFor_eq ino s
  rw [heq] at hle
  obtain ⟨b', hb', hout, hbooks⟩ :=
    h.alloc .block (Nat.le_trans (allocIndirects_groupCount _ _) hle)
  rw [hb'] at hr
  cases hr
  obtain ⟨hbooks', hkeep, hinode⟩ := allocIndirects_spec _ _ hbooks hle
  exact ⟨b, _, heq, hbooks', hout.free, hkeep b hout.taken, fun j hj => hkeep j (hout.keep hj),
    fun j => (hinode j).trans (hout.other (by decide) j)⟩

/-! ## Inodes -/

theorem allocInode_some (mode : Nat) (s : FS) :
    ∃ i served, (s.groups.alloc .inode).1 = some (i, served) ∧ s.allocInode mode = (some i, { s with
      groups := (s.groups.alloc .inode).2
      inodes := Function.update s.inodes i (if served then inodeInit (blankInode mode) else
        blankInode mode) }) := by
  obtain ⟨⟨i, served⟩, hr⟩ := Option.isSome_iff_exists.mp (s.groups.alloc_sCount .inode).1
  refine ⟨i, served, hr, ?_⟩
  unfold allocInode
  rw [show s.groups.alloc .inode = (some (i, served),
    (s.groups.alloc .inode).2) from Prod.ext hr rfl]

theorem allocInode_spec (mode : Nat) {s : FS} (h : s.groups.Books)
    (hle : (s.allocInode mode).2.groups.groupCount ≤ 33) :
    ∃ i g, s.allocInode mode = (some i, { s with
        groups := g
        inodes := Function.update s.inodes i
          (if s.groups.hasFree .inode then inodeInit (blankInode mode) else blankInode mode) }) ∧
      HandedOut .inode i s.groups g ∧ g.Books := by
  obtain ⟨i', served, hr, ha⟩ := allocInode_some mode s
  rw [ha] at hle ⊢
  obtain ⟨i, heq, hout, hbooks⟩ := h.alloc .inode hle
  rw [heq] at hr
  cases hr
  exact ⟨i', _, rfl, hout, hbooks⟩

end FS

end NaiveFS
