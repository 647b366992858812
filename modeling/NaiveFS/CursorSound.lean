import NaiveFS.TreeAgree

/-!
# Cursors follow the block tree

A cursor that stands on a mapped block and knows the pointer blocks on the way
there can be moved to any mapped block below the triple indirect range by
`seek`, and to the next one by `nextBlock`. A cursor whose flag is up is put
back on its block by `updCache`.
-/

namespace NaiveFS

open PointerTree BlockReader BlockLayer

/-- What holds of every handle between calls: it stands on a mapped block, or
at the start of a file without blocks, and is in step unless its flag is up. -/
structure CursorOk (loc : Pos → Nat) (n : Nat) (c : Cursor) : Prop where
  pos : c.blockIdInFile < n ∨ c.blockIdInFile = 0
  sync : c.cacheUpdateFlag = false → c.blockIdInFile < n → SyncedAt loc c.blockIdInFile c

theorem CursorOk.init (loc : Pos → Nat) (n : Nat) : CursorOk loc n .init :=
  ⟨Or.inr rfl, fun h => by cases h⟩

theorem SyncedAt.of_flag {loc : Pos → Nat} {k : Nat} {c : Cursor} (h : SyncedAt loc k c)
    (b : Bool) :
    SyncedAt loc k { c with cacheUpdateFlag := b } :=
  ⟨h.id, h.block, h.ind, h.dind, h.tind⟩

theorem SyncedAt.cursorOk {loc : Pos → Nat} {k n : Nat} {c : Cursor} (h : SyncedAt loc k c)
    (hk : k < n) :
    CursorOk loc n c :=
  ⟨Or.inl (by rw [h.id]; exact hk), fun _ _ => by rw [h.id]; exact h⟩

theorem SyncedAt.grow {s : BlockStore} {ino : TreeInode} {n k : Nat} {loc loc' : Pos → Nat}
    {c : Cursor} (t : Tree s ino n loc) (hold : ∀ p, Live n p → loc' p = loc p) (hk : k < n)
    (h : SyncedAt loc k c) :
    SyncedAt loc' k c := by
  have hd : Live n (.data k) := hk
  refine ⟨h.id, h.block.trans (hold _ hd).symm, fun h1 h2 => ?_, fun h1 h2 => ?_, fun h1 => ?_⟩
  · have hq := (t.cell_slot _ _ _ hd (slotOf_data_ind h1 h2)).1
    exact (h.ind h1 h2).trans (hold _ hq).symm
  · have hq := (t.cell_slot _ _ _ hd (slotOf_data_dind h1 h2)).1
    have hr := (t.cell_slot _ _ _ hq rfl).1
    exact ⟨(h.dind h1 h2).1.trans (hold _ hr).symm, (h.dind h1 h2).2.trans (hold _ hq).symm⟩
  · have hq := (t.cell_slot _ _ _ hd (slotOf_data_tind h1)).1
    have hr := (t.cell_slot _ _ _ hq rfl).1
    have hu := (t.cell_slot _ _ _ hr rfl).1
    obtain ⟨h3, h4, h5⟩ := h.tind h1
    exact ⟨h3.trans (hold _ hu).symm, h4.trans (hold _ hr).symm, h5.trans (hold _ hq).symm⟩

section
variable {s : BlockStore} {ino : TreeInode} {n : Nat} {loc : Pos → Nat} (t : Tree s ino n loc)
  (hn : n < 2 ^ 29)
include t hn

theorem updCache_spec {c : Cursor} (hc : CursorOk loc n c) :
    ∃ c', updCache ino s c = (0, c') ∧ c'.blockIdInFile = c.blockIdInFile ∧
      c'.cacheUpdateFlag = false ∧ (c.blockIdInFile < n → SyncedAt loc c.blockIdInFile c') := by
  unfold updCache
  cases hf : c.cacheUpdateFlag with
  | false => exact ⟨c, rfl, rfl, hf, hc.sync hf⟩
  | true =>
    simp only [ite_true]
    by_cases hk : c.blockIdInFile < n
    · obtain ⟨c', hs, hsync, hflag⟩ := bfSeek_spec t hk hn { c with cacheUpdateFlag := false }
      exact ⟨c', hs, hsync.id, hflag, fun _ => hsync⟩
    · have h0 : c.blockIdInFile = 0 := hc.pos.resolve_left hk
      rw [h0]
      refine ⟨_, rfl, rfl, rfl, fun h => ?_⟩
      rw [h0] at hk
      exact absurd h hk

theorem seek_spec {c : Cursor} {k : Nat}
    (hc : 1036 ≤ c.blockIdInFile → SyncedAt loc c.blockIdInFile c) (hp : c.blockIdInFile < 2 ^ 32)
    (hk : k < n) (hlow : k < 1049612) :
    ∃ c', seek ino s c k = (0, c') ∧ SyncedAt loc k c' ∧
      c'.cacheUpdateFlag = c.cacheUpdateFlag := by
  unfold seek
  rw [iblock12_eq, iblock13_eq, blockSize_eq]
  by_cases h1 : k ≤ 1035
  · obtain ⟨c', hs, hsync, hflag⟩ := bfSeek_spec t hk hn c
    rw [if_pos h1, hs]
    exact ⟨c', rfl, hsync, hflag⟩
  rw [if_neg h1, if_pos (show k ≤ 1049611 by omega), sub32_sub32_one hp (by omega),
    Nat.sub_sub k 1035 1]
  have hd : Live n (.data k) := hk
  have hslot := slotOf_data_dind (k := k) (by omega) hlow
  simp only [Nat.reduceAdd, Nat.reduceDiv]
  generalize ho : (if 1036 ≤ c.blockIdInFile then c.blockIdInFile - 1036 else
    c.blockIdInFile + 2 ^ 32 - 1036) = o
  by_cases hsame : (k - 1036) / 1024 = o / 1024
  · -- same second-level block: the cursor is in the double indirect range already
    have hge : 1036 ≤ c.blockIdInFile := by
      refine Classical.byContradiction fun h => ?_
      rw [if_neg h] at ho
      omega
    rw [if_pos hge] at ho
    have hsync := hc hge
    obtain ⟨h0, h1'⟩ := hsync.dind hge (by omega)
    rw [ho, ← hsame] at h1'
    by_cases hsame2 : (k - 1036) % 1024 = o % 1024
    · have hpos : c.blockIdInFile = k := by omega
      rw [if_pos ⟨hsame, hsame2⟩, ← hpos]
      exact ⟨c, rfl, hsync, rfl⟩
    · rw [if_neg (fun h => hsame2 h.2), if_pos hsame]
      have hptr := t.ptr_eq hd hslot
      rw [← h1'] at hptr
      simp only [Cursor.hop, hptr]
      exact ⟨_, rfl, .of_dind rfl rfl (by omega) hlow h0 h1', rfl⟩
  · rw [if_neg (fun h => hsame h.1), if_neg hsame]
    exact bfSeek_spec t hk hn _

omit hn in
theorem nextBlock_spec {c : Cursor} {k : Nat} (hc : SyncedAt loc k c) (hk : k + 1 < n)
    (hlow : k + 1 < 1049612) :
    ∃ c', nextBlock ino s c = (0, c') ∧ SyncedAt loc (k + 1) c' ∧
      c'.cacheUpdateFlag = c.cacheUpdateFlag := by
  have hd : Live n (.data (k + 1)) := hk
  unfold nextBlock
  simp only [hc.id, u32_of_lt (show k + 1 < 2 ^ 32 by omega)]
  rw [iblock11_eq, iblock12_eq, iblock13_eq, blockSize_eq, indBlock_eq, dindBlock_eq]
  by_cases h1 : k ≤ 11
  · rw [if_pos h1]
    by_cases h1' : k + 1 ≤ 11
    · simp only [if_pos h1']
      exact ⟨_, rfl, .of_direct rfl (t.root_slot _ _ hd (slotOf_data_direct (by omega))) (by omega),
        rfl⟩
    · -- the first block below the indirect block
      have hk11 : k = 11 := by omega
      subst hk11
      have hr := t.root_slot .ind 12 (by simp only [Live]; omega) rfl
      have hptr := t.ptr_eq hd (slotOf_data_ind (by omega) (by omega))
      simp only [if_neg h1', Cursor.hop, hr, hptr]
      exact ⟨_, rfl, .of_ind rfl rfl (by omega) (by omega) rfl, rfl⟩
  rw [if_neg h1]
  by_cases h2 : k ≤ 1035
  · rw [if_pos h2]
    by_cases h2' : k + 1 ≤ 1035
    · have hptr := t.ptr_eq hd (slotOf_data_ind (by omega) (by omega))
      have h0 := hc.ind (by omega) (by omega)
      rw [← h0] at hptr
      simp only [if_pos h2', Cursor.hop, Nat.sub_sub, Nat.reduceAdd, hptr]
      exact ⟨_, rfl, .of_ind rfl rfl (by omega) (by omega) h0, rfl⟩
    · have hk35 : k = 1035 := by omega
      subst hk35
      have hr := t.root_slot .dind 13 (by simp only [Live]; omega) rfl
      have hslot : slotOf (.data 1036) = .cell (.dchild 0) 0 :=
        slotOf_data_dchild (c := 0) (j := 0) (by omega) (by omega)
      have hptr := t.ptr_eq hd hslot
      have hptr1 := t.ptr_eq (t.cell_slot _ _ _ hd hslot).1 rfl
      simp only [if_neg h2', Cursor.hop1, Cursor.hop, hr, hptr1, hptr]
      exact ⟨_, rfl, .of_dind rfl rfl (by omega) (by omega) rfl rfl, rfl⟩
  rw [if_neg h2, if_pos (show k ≤ 1049611 by omega)]
  simp only [if_pos (show k + 1 ≤ 1049611 by omega)]
  obtain ⟨h0, h1'⟩ := hc.dind (by omega) (by omega)
  have hslot := slotOf_data_dind (k := k + 1) (by omega) hlow
  have hq := (t.cell_slot _ _ _ hd hslot).1
  have hptr := t.ptr_eq hd hslot
  rw [Nat.sub_sub (k + 1) 1035 1]
  simp only [Nat.reduceAdd, Nat.reduceDiv]
  by_cases hwrap : (k + 1 - 1036) % 1024 = 0
  · have hptr1 := t.ptr_eq hq rfl
    rw [← h0] at hptr1
    rw [hwrap] at hptr
    simp only [if_pos hwrap, Cursor.hop1, Cursor.hop, hptr1, hptr]
    exact ⟨_, rfl, .of_dind rfl rfl (by omega) hlow h0 rfl, rfl⟩
  · have hdiv : (k - 1036) / 1024 = (k + 1 - 1036) / 1024 := by omega
    rw [hdiv] at h1'
    rw [← h1'] at hptr
    simp only [if_neg hwrap, Cursor.hop, hptr]
    exact ⟨_, rfl, .of_dind rfl rfl (by omega) hlow h0 h1', rfl⟩

end

end NaiveFS
