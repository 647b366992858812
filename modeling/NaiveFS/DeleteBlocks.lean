import NaiveFS.OwnerSound

/-!
# The blocks of deleted inodes

`inode_delete` hands the data blocks of regular files to `free_block`. The blocks
of directories are only read, and no visitor ever sees an indirect block, so both
stay marked in the block bitmap when their inode is gone.
-/

namespace NaiveFS

open PointerTree Groups

namespace FS

variable {s : FS} {index : Nat} {F : Set Nat} {g g' : Groups}

theorem Deleted.mem_iff (h : s.Deleted index F g g') {j : Nat} :
    j ∈ F ↔ s.Reach g index j ∧ g.allocated .inode j = true ∧ s.Mortal j := by
  constructor
  · intro hj
    exact ⟨h.reach j hj, h.purged.sub j hj, h.purged.mortal j hj⟩
  · intro ⟨hreach, ha, hm⟩
    have hgone : g'.allocated .inode j = false := by
      clear ha
      induction hreach with
      | refl => exact h.gone hm
      | @tail d c _ hedge ih =>
        obtain ⟨hda, hroot, hdir, e, he, hl, rfl⟩ := hedge
        have hd : d ∈ F := by
          by_contra hd
          have := (h.purged.inode d).mpr ⟨hda, hd⟩
          rw [ih ⟨hroot, Or.inr hdir⟩] at this
          cases this
        exact h.swept d hd hdir e he hl hm
    by_contra hj
    have := (h.purged.inode j).mpr ⟨ha, hj⟩
    rw [hgone] at this
    cases this

end FS

namespace TreeFS

/-- `inode_delete(index)` deletes inode `j`. -/
def Doomed (s : TreeFS) (index j : Nat) : Prop :=
  s.view.Reach s.groups index j ∧ s.groups.allocated .inode j = true ∧ s.view.Mortal j

/-- Block `b` is a data block or an indirect block of inode `j`. -/
def BlockOf (s : TreeFS) (j b : Nat) : Prop :=
  ∃ p, Live (numAlignedBlocks (s.inodes j).iBlocks) p ∧ s.store.blockAt (s.inodes j) p = some b

/-- What the deletion of `index` is to do to the bitmaps. -/
structure Releases (s : TreeFS) (index : Nat) (g' : Groups) : Prop where
  inodes : ∀ j, s.Doomed index j → g'.allocated .inode j = false
  blocks : ∀ j b, s.Doomed index j → s.BlockOf j b → g'.allocated .block b = false
  otherInodes : ∀ j, ¬ s.Doomed index j → g'.allocated .inode j = s.groups.allocated .inode j
  otherBlocks : ∀ b, (∀ j, s.Doomed index j → ¬ s.BlockOf j b) →
    g'.allocated .block b = s.groups.allocated .block b

/-- The directories to be deleted have no block, the files no indirect block. -/
def DirectOnly (s : TreeFS) (index : Nat) : Prop :=
  ∀ j, s.Doomed index j → numAlignedBlocks (s.inodes j).iBlocks ≤ if isDir (s.inodes j).iMode then
    0 else maxDirBlocks

variable {s : TreeFS} {n : Nat → Nat} {loc : Nat → Pos → Nat} {index j b : Nat} {g' : Groups}
  {F : Set Nat}

theorem live_of_le {n : Nat} (hn : n ≤ maxDirBlocks) {p : Pos} (hp : Live n p) :
    ∃ k < n, p = .data k := by
  have hn : n ≤ 12 := hn
  cases p with
  | data k => exact ⟨k, hp, rfl⟩
  | ind => exact absurd hp (by simp only [Live]; omega)
  | dind => exact absurd hp (by simp only [Live]; omega)
  | dchild c => exact absurd hp.1 (by omega)
  | tind => exact absurd hp (by simp only [Live]; omega)
  | tchild a => exact absurd hp (by simp only [Live]; omega)
  | tgrand a b => exact absurd hp.1 (by omega)

namespace Placed

variable (h : s.Placed n loc)
include h

theorem numBlocks (hj : s.groups.allocated .inode j = true) :
    numAlignedBlocks (s.inodes j).iBlocks = n j := by
  rw [numAlignedBlocks_eq, h.size j hj, Nat.mul_div_cancel_left _ (by decide)]

theorem blockOf_iff (hj : s.groups.allocated .inode j = true) :
    s.BlockOf j b ↔ ∃ p, Live (n j) p ∧ loc j p = b := by
  unfold BlockOf
  rw [h.numBlocks hj]
  constructor
  · intro ⟨p, hp, hb⟩
    rw [blockAt_eq (h.tree j hj) hp] at hb
    exact ⟨p, hp, Option.some.inj hb⟩
  · intro ⟨p, hp, hb⟩
    exact ⟨p, hp, by rw [blockAt_eq (h.tree j hj) hp, hb]⟩

theorem mem_view (hj : s.groups.allocated .inode j = true) :
    b ∈ (s.view.inodes j).iBlock ↔ ∃ k < n j, loc j (.data k) = b :=
  mem_fileBlocks (h.tree j hj) (h.size j hj)

/-- A block of a deleted inode stays unless it is a data block of a regular file. -/
theorem stays (hp : s.view.Purged F s.groups g') (hj : j ∈ F) {p : Pos} (hlive : Live (n j) p)
    (hkept : isReg (s.inodes j).iMode = true → ∀ k, p ≠ .data k) :
    g'.allocated .block (loc j p) = true := by
  have hja := hp.sub j hj
  refine (hp.block _).mpr ⟨h.allocated hja hlive, fun i hi hreg hmem => ?_⟩
  have hia := hp.sub i hi
  obtain ⟨k, hk, heq⟩ := (h.mem_view hia).mp hmem
  by_cases hij : i = j
  · subst hij
    exact hkept hreg k ((h.tree i hia).inj p (.data k) hlive hk heq.symm)
  · exact h.apart i j hia hja hij (.data k) p hk hlive heq

variable (hF : s.view.Deleted index F s.groups g')
include hF

theorem releases_of_direct (hdir : s.DirectOnly index) : s.Releases index g' where
  inodes j hj := by
    have hmem := hF.mem_iff.mpr hj
    rw [Bool.eq_false_iff]
    exact fun ha => ((hF.purged.inode j).mp ha).2 hmem
  blocks j b hj hb := by
    have hle := hdir j hj
    rw [h.numBlocks hj.2.1] at hle
    obtain ⟨p, hp, hb⟩ := (h.blockOf_iff hj.2.1).mp hb
    obtain ⟨k, hk, rfl⟩ := live_of_le (Nat.le_trans hle (by split <;> decide)) hp
    have hreg : isReg (s.inodes j).iMode = true := by
      refine hj.2.2.2.resolve_right fun hd => ?_
      rw [if_pos (show isDir (s.inodes j).iMode = true from hd)] at hle
      omega
    rw [Bool.eq_false_iff]
    exact fun ha => ((hF.purged.block b).mp ha).2 j (hF.mem_iff.mpr hj) hreg
      ((h.mem_view hj.2.1).mpr ⟨k, hk, hb⟩)
  otherInodes j hj := by
    rw [Bool.eq_iff_iff, hF.purged.inode]
    exact ⟨And.left, fun ha => ⟨ha, fun hmem => hj (hF.mem_iff.mp hmem)⟩⟩
  otherBlocks b hb := by
    rw [Bool.eq_iff_iff, hF.purged.block]
    refine ⟨And.left, fun ha => ⟨ha, fun j hj _ hmem => ?_⟩⟩
    have hja := hF.purged.sub j hj
    obtain ⟨k, hk, heq⟩ := (h.mem_view hja).mp hmem
    exact hb j (hF.mem_iff.mp hj) ((h.blockOf_iff hja).mpr ⟨.data k, hk, heq⟩)

theorem direct_of_releases (hrel : s.Releases index g') : s.DirectOnly index := by
  intro j hj
  rw [h.numBlocks hj.2.1]
  by_contra hgt
  rw [Nat.not_le] at hgt
  -- the first block of a directory, or the indirect block of a file
  obtain ⟨p, hlive, hkept⟩ : ∃ p, Live (n j) p ∧
    (isReg (s.inodes j).iMode = true → ∀ k, p ≠ .data k) := by
    by_cases hd : isDir (s.inodes j).iMode = true
    · rw [if_pos hd] at hgt
      refine ⟨.data 0, hgt, fun hreg => ?_⟩
      simp_all [isReg, isDir]
    · rw [if_neg hd] at hgt
      exact ⟨.ind, hgt, fun _ k hc => by cases hc⟩
  have hfree := hrel.blocks j (loc j p) hj ((h.blockOf_iff hj.2.1).mpr ⟨p, hlive, rfl⟩)
  rw [h.stays hF.purged (hF.mem_iff.mpr hj) hlive hkept] at hfree
  cases hfree

end Placed

/-- In every state of a run with at most 32 block groups, a successful deletion clears
exactly the bits it should if and only if it meets no block of a directory and no
indirect block. -/
theorem deletion_releases_iff (fuel : Nat) (ops : List Op) :
    Runs.Along (step fuel) (fun s => s.groups.groupCount ≤ 32 →
      ∀ index fuel' g', s.groups.allocated .inode index = true → s.view.Mortal index →
        s.view.inodeDelete fuel' index s.groups = some (.success, g') →
        (s.Releases index g' ↔ s.DirectOnly index)) ops TreeFS.format := by
  have hiff : ∀ s : TreeFS, (s.groups.groupCount ≤ 32 → s.Sound) → s.groups.groupCount ≤ 32 →
      ∀ index fuel' g', s.groups.allocated .inode index = true → s.view.Mortal index →
        s.view.inodeDelete fuel' index s.groups = some (.success, g') →
        (s.Releases index g' ↔ s.DirectOnly index) := by
    intro s hs hle index fuel' g' _ _ hdel
    obtain ⟨n, loc, h⟩ := hs hle
    obtain ⟨F, hF⟩ := FS.inodeDelete_spec _ _ _ _ _ h.clean hdel
    exact ⟨h.direct_of_releases hF, h.releases_of_direct hF⟩
  apply Runs.along_of_inv hiff
  · intro s op s' hs hstep hle
    exact (hs (Nat.le_trans (step_groupCount hstep) hle)).step hstep hle
  · exact fun _ => Sound.format

/-- `mkdir /a` and a file `/a/f`: the block with the entry stays when `/a` is deleted. -/
theorem directory_block_kept :
    ∃ s index g', Runs.run (step 3) [.create (.of [[97]]) ⟨sIfdir, Or.inr rfl⟩,
      .create (.of [[97], [102]]) ⟨sIfreg, Or.inl rfl⟩]
        TreeFS.format = some s ∧ s.groups.allocated .inode index = true ∧ s.view.Mortal index ∧
      s.view.inodeDelete 3 index s.groups = some (.success, g') ∧ ¬ s.Releases index g' := by
  have hrun : (Runs.run (step 3) [.create (.of [[97]]) ⟨sIfdir, Or.inr rfl⟩,
    .create (.of [[97], [102]]) ⟨sIfreg, Or.inl rfl⟩]
      TreeFS.format).any fun s => s.groups.allocated .inode 1 && isDir (s.inodes 1).iMode &&
        decide (numAlignedBlocks (s.inodes 1).iBlocks =
          1) && (s.store.blockAt (s.inodes 1) (.data 0)).any fun b =>
          (s.view.inodeDelete 3 1 s.groups).any fun r =>
            decide (r.1 = .success) && r.2.allocated .block b := by
    decide +kernel
  obtain ⟨s, hs, hrun⟩ := (Option.any_eq_true _ _).mp hrun
  simp only [Bool.and_eq_true, decide_eq_true_eq] at hrun
  obtain ⟨⟨⟨ha, hdir⟩, hn⟩, hrun⟩ := hrun
  obtain ⟨b, hb, hrun⟩ := (Option.any_eq_true _ _).mp hrun
  obtain ⟨⟨r, g'⟩, hdel, hrun⟩ := (Option.any_eq_true _ _).mp hrun
  simp only [Bool.and_eq_true, decide_eq_true_eq] at hrun
  obtain ⟨rfl, hkept⟩ := hrun
  have hm : s.view.Mortal 1 := ⟨by decide, Or.inr hdir⟩
  refine ⟨s, 1, g', hs, ha, hm, hdel, fun hrel => ?_⟩
  have hlive : Live (numAlignedBlocks (s.inodes 1).iBlocks) (.data 0) := by
    rw [hn]
    exact Nat.zero_lt_one
  have hfree := hrel.blocks 1 b ⟨Relation.ReflTransGen.refl, ha, hm⟩ ⟨.data 0, hlive, hb⟩
  rw [hkept] at hfree
  cases hfree

end TreeFS

end NaiveFS
