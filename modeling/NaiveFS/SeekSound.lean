import NaiveFS.FileStatus

/-!
# Stepping and seeking against seeking from scratch

`bfSeek` follows the pointers of a block tree from the inode down. `nextBlock`
and `seek` start from the pointers a cursor has kept. Over any tree in any store,
`nextBlock` does exactly what `bfSeek` to the next position does. `seek` does what
`bfSeek` does except at two places: below the single indirect block it drops the
error, and at the triple level it indexes the last pointer block by the wrong
index.
-/

namespace NaiveFS

/-- The cursor is what a successful `bfSeek` to its position leaves. -/
def InSync (ino : TreeInode) (s : BlockStore) (c : Cursor) : Prop :=
  ∃ c₀, bfSeek ino s c₀ c.blockIdInFile = (0, c)

section
variable {ino : TreeInode} {s : BlockStore} {c c' : Cursor} {n id off : Nat}

/-! ## Hops -/

theorem einval_ne_zero : einval ≠ 0 := by decide

theorem Cursor.hop_eq_zero :
    c.hop s id off = (0, c') ↔ ∃ b, s.ptr id off = some b ∧ { c with blockId := b } = c' := by
  unfold Cursor.hop
  cases h : s.ptr id off <;> simp [einval_ne_zero]

theorem Cursor.hop1_eq_zero {k : Cursor → Int × Cursor} :
    c.hop1 s id off k = (0, c') ↔ ∃ b, s.ptr id off = some b ∧
      k { c with ind1 := b } = (0, c') := by
  unfold Cursor.hop1
  cases h : s.ptr id off <;> simp [einval_ne_zero]

theorem Cursor.hop2_eq_zero {k : Cursor → Int × Cursor} :
    c.hop2 s id off k = (0, c') ↔ ∃ b, s.ptr id off = some b ∧
      k { c with ind2 := b } = (0, c') := by
  unfold Cursor.hop2
  cases h : s.ptr id off <;> simp [einval_ne_zero]

/-! ## The four levels -/

theorem bfSeek_direct (h : n ≤ 11) :
    bfSeek ino s c n = (0, { c with blockIdInFile := n, blockId := ino.iBlock n }) := by
  simp [bfSeek, h]

theorem bfSeek_ind (h : 11 < n) (h' : n ≤ 1035) :
    bfSeek ino s c n = { c with blockIdInFile := n, ind0 := ino.iBlock 12 }.hop s (ino.iBlock 12)
      (n - 12) := by
  simp [bfSeek, Nat.not_le.mpr h, h', Nat.sub_sub]

theorem bfSeek_dind (h : 1035 < n) (h' : n ≤ 1049611) :
    bfSeek ino s c n = { c with blockIdInFile := n, ind0 := ino.iBlock 13 }.hop1 s (ino.iBlock 13)
      ((n - 1036) / 1024)
      fun c => c.hop s c.ind1 ((n - 1036) % 1024) := by
  have h11 : ¬ n ≤ 11 := by omega
  simp [bfSeek, h11, Nat.not_le.mpr h, h', Nat.sub_sub, blockSize_eq]

theorem bfSeek_tind (h : 1049611 < n) (h' : n ≤ 1074791435) :
    bfSeek ino s c n = { c with blockIdInFile := n, ind0 := ino.iBlock 14 }.hop1 s (ino.iBlock 14)
      ((n - 1049612) / 1048576)
      fun c => c.hop2 s c.ind1 ((n - 1049612) % 1048576 / 1024) fun c =>
      c.hop s c.ind2 ((n - 1049612) % 1024) := by
  have h11 : ¬ n ≤ 11 := by omega
  have h12 : ¬ n ≤ 1035 := by omega
  simp [bfSeek, h11, h12, Nat.not_le.mpr h, h', Nat.sub_sub, blockSize_eq]

theorem bfSeek_out (h : 1074791435 < n) :
    bfSeek ino s c n = (-einval, { c with blockIdInFile := n }) := by
  have h11 : ¬ n ≤ 11 := by omega
  have h12 : ¬ n ≤ 1035 := by omega
  have h13 : ¬ n ≤ 1049611 := by omega
  simp [bfSeek, h11, h12, h13, Nat.not_le.mpr h]

theorem bfSeek_again {c₀ : Cursor} (h : bfSeek ino s c₀ n = (0, c)) :
    c.blockIdInFile = n ∧ bfSeek ino s c n = (0, c) := by
  by_cases h1 : n ≤ 11
  · rw [bfSeek_direct h1] at h ⊢
    cases h
    exact ⟨rfl, rfl⟩
  by_cases h2 : n ≤ 1035
  · rw [bfSeek_ind (by omega) h2, Cursor.hop_eq_zero] at h ⊢
    obtain ⟨b, hb, rfl⟩ := h
    exact ⟨rfl, b, hb, rfl⟩
  by_cases h3 : n ≤ 1049611
  · rw [bfSeek_dind (by omega) h3, Cursor.hop1_eq_zero] at h ⊢
    obtain ⟨b, hb, h⟩ := h
    obtain ⟨d, hd, rfl⟩ := Cursor.hop_eq_zero.mp h
    exact ⟨rfl, b, hb, Cursor.hop_eq_zero.mpr ⟨d, hd, rfl⟩⟩
  by_cases h4 : n ≤ 1074791435
  · rw [bfSeek_tind (by omega) h4, Cursor.hop1_eq_zero] at h ⊢
    obtain ⟨b, hb, h⟩ := h
    obtain ⟨d, hd, h⟩ := Cursor.hop2_eq_zero.mp h
    obtain ⟨e, he, rfl⟩ := Cursor.hop_eq_zero.mp h
    exact ⟨rfl, b, hb, Cursor.hop2_eq_zero.mpr ⟨d, hd, Cursor.hop_eq_zero.mpr ⟨e, he, rfl⟩⟩⟩
  · simp [bfSeek_out (Nat.lt_of_not_le h4), einval_ne_zero] at h

theorem InSync.of_bfSeek {c₀ : Cursor} (h : bfSeek ino s c₀ n = (0, c)) : InSync ino s c :=
  ⟨c₀, by rw [(bfSeek_again h).1]; exact h⟩

namespace InSync

theorem bfSeek_self (h : InSync ino s c) : bfSeek ino s c c.blockIdInFile = (0, c) := by
  obtain ⟨c₀, h⟩ := h
  exact (bfSeek_again h).2

theorem le (h : InSync ino s c) : c.blockIdInFile ≤ 1074791435 := by
  refine Classical.byContradiction fun hc => ?_
  have h := h.bfSeek_self
  simp [bfSeek_out (Nat.lt_of_not_le hc), einval_ne_zero] at h

/-! What a cursor in sync knows at each level. -/

theorem ind (h : InSync ino s c) (h1 : 11 < c.blockIdInFile) (h2 : c.blockIdInFile ≤ 1035) :
    c.ind0 = ino.iBlock 12 ∧ s.ptr c.ind0 (c.blockIdInFile - 12) = some c.blockId := by
  have h := h.bfSeek_self
  rw [bfSeek_ind h1 h2] at h
  obtain ⟨b, hb, h⟩ := Cursor.hop_eq_zero.mp h
  rw [← h]
  exact ⟨rfl, hb⟩

theorem dind (h : InSync ino s c) (h1 : 1035 < c.blockIdInFile) (h2 : c.blockIdInFile ≤ 1049611) :
    c.ind0 = ino.iBlock 13 ∧ s.ptr c.ind0 ((c.blockIdInFile - 1036) / 1024) = some c.ind1 ∧
      s.ptr c.ind1 ((c.blockIdInFile - 1036) % 1024) = some c.blockId := by
  have h := h.bfSeek_self
  rw [bfSeek_dind h1 h2] at h
  obtain ⟨b, hb, h⟩ := Cursor.hop1_eq_zero.mp h
  obtain ⟨d, hd, h⟩ := Cursor.hop_eq_zero.mp h
  rw [← h]
  exact ⟨rfl, hb, hd⟩

theorem tind (h : InSync ino s c) (h1 : 1049611 < c.blockIdInFile) :
    c.ind0 = ino.iBlock 14 ∧ s.ptr c.ind0 ((c.blockIdInFile - 1049612) / 1048576) = some c.ind1 ∧
      s.ptr c.ind1 ((c.blockIdInFile - 1049612) % 1048576 / 1024) = some c.ind2 ∧
      s.ptr c.ind2 ((c.blockIdInFile - 1049612) % 1024) = some c.blockId := by
  have hle := h.le
  have h := h.bfSeek_self
  rw [bfSeek_tind h1 hle] at h
  obtain ⟨b, hb, h⟩ := Cursor.hop1_eq_zero.mp h
  obtain ⟨d, hd, h⟩ := Cursor.hop2_eq_zero.mp h
  obtain ⟨e, he, h⟩ := Cursor.hop_eq_zero.mp h
  rw [← h]
  exact ⟨rfl, hb, hd, he⟩

end InSync

/-! ## Stepping -/

theorem Cursor.hop1_some {b : Nat} {k : Cursor → Int × Cursor} (h : s.ptr id off = some b) :
    c.hop1 s id off k = k { c with ind1 := b } := by
  simp [Cursor.hop1, h]

theorem Cursor.hop2_some {b : Nat} {k : Cursor → Int × Cursor} (h : s.ptr id off = some b) :
    c.hop2 s id off k = k { c with ind2 := b } := by
  simp [Cursor.hop2, h]

section
-- the next position is a variable of its own: nothing then evaluates the sum with the level bounds
variable (hc : InSync ino s c) (hu : u32 (c.blockIdInFile + 1) = n) (hn : n = c.blockIdInFile + 1)
include hc hu hn

theorem nextBlock_dind (h1 : 1035 < c.blockIdInFile) (h2 : n ≤ 1049611) :
    nextBlock ino s c = bfSeek ino s c n := by
  obtain ⟨h0, hp, -⟩ := hc.dind h1 (by omega)
  have h11 : ¬ c.blockIdInFile ≤ 11 := by omega
  have h13 : c.blockIdInFile ≤ 1049611 := by omega
  rw [bfSeek_dind (by omega) h2, ← h0]
  simp only [nextBlock, hu, iblock11_eq, h11, iblock12_eq, Nat.not_le.mpr h1, iblock13_eq, h13, h2,
    blockSize_eq, Nat.sub_sub, Nat.reduceAdd, Nat.reduceDiv, if_true, if_false]
  by_cases hw : (n - 1036) % 1024 = 0
  · simp only [hw, if_true]
  · have hdiv : (c.blockIdInFile - 1036) / 1024 = (n - 1036) / 1024 := by omega
    rw [hdiv] at hp
    simp only [hw, if_false, Cursor.hop1_some hp]

theorem nextBlock_tind (h1 : 1049611 < c.blockIdInFile) (h2 : n ≤ 1074791435) :
    nextBlock ino s c = bfSeek ino s c n := by
  obtain ⟨h0, hp, hq, -⟩ := hc.tind h1
  have h11 : ¬ c.blockIdInFile ≤ 11 := by omega
  have h12 : ¬ c.blockIdInFile ≤ 1035 := by omega
  have h13 := Nat.not_le.mpr h1
  have h14 : c.blockIdInFile ≤ 1074791435 := by omega
  rw [bfSeek_tind (by omega) h2, ← h0]
  simp only [nextBlock, hu, iblock11_eq, h11, iblock12_eq, h12, iblock13_eq, h13, iblock14_eq, h14,
    if_true, if_false]
  simp only [blockSize_eq, Nat.sub_sub, Nat.reduceAdd, Nat.reduceDiv, Nat.reduceMul]
  by_cases hw : (n - 1049612) % 1024 = 0
  · by_cases hv : (n - 1049612) % 1048576 / 1024 = 0
    · simp only [hw, hv, if_true]
    · -- the third index wraps, the first stays
      have hdiv : (c.blockIdInFile - 1049612) / 1048576 = (n - 1049612) / 1048576 := by omega
      rw [hdiv] at hp
      simp only [hw, hv, if_true, if_false, Cursor.hop1_some hp]
  · have hdiv : (c.blockIdInFile - 1049612) / 1048576 = (n - 1049612) / 1048576 := by omega
    have hdiv' : (c.blockIdInFile - 1049612) % 1048576 / 1024 = (n - 1049612) % 1048576 / 1024 := by
      omega
    rw [hdiv] at hp
    rw [hdiv'] at hq
    simp only [hw, if_false, Cursor.hop1_some hp, Cursor.hop2_some hq]

theorem nextBlock_eq_of (hle : n ≤ 1074791435) : nextBlock ino s c = bfSeek ino s c n := by
  by_cases h1 : c.blockIdInFile ≤ 11
  · by_cases h1' : n ≤ 11
    · rw [bfSeek_direct h1']
      simp [nextBlock, hu, h1, h1']
    · have h12 : n = 12 := by omega
      rw [bfSeek_ind (by omega) (by omega)]
      simp [nextBlock, hu, h1, h12]
  by_cases h2 : c.blockIdInFile ≤ 1035
  · by_cases h2' : n ≤ 1035
    · rw [bfSeek_ind (by omega) h2', ← (hc.ind (by omega) h2).1]
      simp [nextBlock, hu, h1, h2, h2', Nat.sub_sub]
    · have h36 : n = 1036 := by omega
      rw [bfSeek_dind (by omega) (by omega)]
      simp [nextBlock, hu, h1, h2, h36]
  by_cases h3 : c.blockIdInFile ≤ 1049611
  · by_cases h3' : n ≤ 1049611
    · exact nextBlock_dind hc hu hn (by omega) h3'
    · have h12 : n = 1049612 := by omega
      rw [bfSeek_tind (by omega) (by omega)]
      simp [nextBlock, hu, h1, h2, h3, h12]
  · exact nextBlock_tind hc hu hn (by omega) hle

end

theorem nextBlock_eq (hc : InSync ino s c) (hn : c.blockIdInFile + 1 ≤ iblock14) :
    nextBlock ino s c = bfSeek ino s c (c.blockIdInFile + 1) := by
  rw [iblock14_eq] at hn
  exact nextBlock_eq_of hc (u32_of_lt (by omega)) rfl hn

theorem bfSeek_start (ino : TreeInode) (s : BlockStore) (n : Nat) (c d : Cursor) :
    (bfSeek ino s c n).1 = (bfSeek ino s d n).1 ∧
      ((bfSeek ino s d n).1 = 0 → (bfSeek ino s c n).2.blockId = (bfSeek ino s d n).2.blockId) := by
  by_cases h1 : n ≤ 11
  · simp [bfSeek_direct h1]
  by_cases h2 : n ≤ 1035
  · rw [bfSeek_ind (by omega) h2, bfSeek_ind (by omega) h2]
    unfold Cursor.hop
    cases s.ptr (ino.iBlock 12) (n - 12) <;> simp [einval_ne_zero]
  by_cases h3 : n ≤ 1049611
  · rw [bfSeek_dind (by omega) h3, bfSeek_dind (by omega) h3]
    unfold Cursor.hop1 Cursor.hop
    cases s.ptr (ino.iBlock 13) ((n - 1036) / 1024) with
    | none => simp [einval_ne_zero]
    | some b => cases h : s.ptr b ((n - 1036) % 1024) <;> simp [h, einval_ne_zero]
  by_cases h4 : n ≤ 1074791435
  · rw [bfSeek_tind (by omega) h4, bfSeek_tind (by omega) h4]
    unfold Cursor.hop1 Cursor.hop2 Cursor.hop
    cases s.ptr (ino.iBlock 14) ((n - 1049612) / 1048576) with
    | none => simp [einval_ne_zero]
    | some b =>
      cases h : s.ptr b ((n - 1049612) % 1048576 / 1024) with
      | none => simp [h, einval_ne_zero]
      | some e => cases h' : s.ptr e ((n - 1049612) % 1024) <;> simp [h, h', einval_ne_zero]
  · simp [bfSeek_out (Nat.lt_of_not_le h4), einval_ne_zero]

end

/-- The blocks that up to `k` calls of `nextBlock` come to before one fails. -/
def stepBlocks (ino : TreeInode) (s : BlockStore) : Nat → Cursor → List Nat
  | 0, _ => []
  | k + 1, c =>
    match nextBlock ino s c with
    | (err, c) => if err = 0 then c.blockId :: stepBlocks ino s k c else []

/-- The blocks that fresh seeks to `n`, `n + 1`, …, `n + k - 1` come to before one fails. -/
def seekBlocks (ino : TreeInode) (s : BlockStore) : Nat → Nat → List Nat
  | 0, _ => []
  | k + 1, n =>
    match bfSeek ino s Cursor.init n with
    | (err, c) => if err = 0 then c.blockId :: seekBlocks ino s k (n + 1) else []

theorem stepBlocks_eq {ino : TreeInode} {s : BlockStore} :
    ∀ (k : Nat) {c : Cursor}, InSync ino s c →
    c.blockIdInFile + k ≤ iblock14 → stepBlocks ino s k c = seekBlocks ino s k (c.blockIdInFile + 1)
  | 0, _, _, _ => rfl
  | k + 1, c, hc, hk => by
    have hstart := bfSeek_start ino s (c.blockIdInFile + 1) c Cursor.init
    simp only [stepBlocks, seekBlocks, nextBlock_eq hc (by omega)]
    rw [← hstart.1]
    by_cases h0 : (bfSeek ino s c (c.blockIdInFile + 1)).1 = 0
    · have hok : bfSeek ino s c (c.blockIdInFile + 1) =
        (0, (bfSeek ino s c (c.blockIdInFile + 1)).2) := Prod.ext h0 rfl
      have hpos := (bfSeek_again hok).1
      have ih := stepBlocks_eq k (.of_bfSeek hok) (by omega)
      rw [if_pos h0, if_pos h0, ih, hpos, hstart.2 (hstart.1 ▸ h0)]
    · rw [if_neg h0, if_neg h0]

/-- `nextBlock` agrees with seeking: it returns the code of a seek from scratch to
the next position, on success ends on the same block and in sync again, and any
number of steps comes to the blocks that fresh seeks come to. -/
theorem nextBlock_agrees (ino : TreeInode) (s : BlockStore) (c d : Cursor) (hc : InSync ino s c)
    (hn : c.blockIdInFile + 1 ≤ iblock14) :
    (nextBlock ino s c).1 = (bfSeek ino s d (c.blockIdInFile + 1)).1 ∧
      ((bfSeek ino s d (c.blockIdInFile + 1)).1 = 0 →
        (nextBlock ino s c).2.blockIdInFile =
        (bfSeek ino s d (c.blockIdInFile + 1)).2.blockIdInFile ∧ (nextBlock ino s c).2.blockId =
        (bfSeek ino s d (c.blockIdInFile + 1)).2.blockId ∧ InSync ino s (nextBlock ino s c).2) ∧
      ∀ k, c.blockIdInFile + k ≤ iblock14 → stepBlocks ino s k c =
      seekBlocks ino s k (c.blockIdInFile + 1) := by
  have hstart := bfSeek_start ino s (c.blockIdInFile + 1) c d
  rw [nextBlock_eq hc hn]
  refine ⟨hstart.1, fun h0 => ?_, fun k hk => stepBlocks_eq k hc hk⟩
  have hok : bfSeek ino s c (c.blockIdInFile + 1) = (0, (bfSeek ino s c (c.blockIdInFile + 1)).2) :=
    Prod.ext (hstart.1.trans h0) rfl
  have hok' : bfSeek ino s d (c.blockIdInFile + 1) =
    (0, (bfSeek ino s d (c.blockIdInFile + 1)).2) := Prod.ext h0 rfl
  exact ⟨(bfSeek_again hok).1.trans (bfSeek_again hok').1.symm, hstart.2 h0, .of_bfSeek hok⟩

/-- Block 1 is a triple indirect block with block 2 below it, block 3 below that
and two pointers in block 3. -/
def tripleStore : BlockStore := .full fun
  | 1 => some (Bytes.zero.setWord 0 2)
  | 2 => some (Bytes.zero.setWord 0 3)
  | 3 => some ((Bytes.zero.setWord 0 10).setWord 1 11)
  | _ => none

def tripleInode : TreeInode := (Inode.init 0).setBlock tindBlock 1

def tripleCursor : Cursor := ⟨false, 10, iblock13 + 1, 1, 2, 3⟩

/-- A step inside the triple indirect range. -/
theorem nextBlock_agrees_triple :
    (nextBlock tripleInode tripleStore tripleCursor).1 = 0 ∧
      (nextBlock tripleInode tripleStore tripleCursor).2.blockId = 11 ∧
      InSync tripleInode tripleStore (nextBlock tripleInode tripleStore tripleCursor).2 ∧
      stepBlocks tripleInode tripleStore 2 tripleCursor =
      seekBlocks tripleInode tripleStore 2 (iblock13 + 2) := by
  have hseek : (bfSeek tripleInode tripleStore Cursor.init (iblock13 + 2)).1 = 0 ∧
      (bfSeek tripleInode tripleStore Cursor.init (iblock13 + 2)).2.blockId = 11 := by decide
  obtain ⟨hcode, hmoved, hsteps⟩ :=
    nextBlock_agrees tripleInode tripleStore tripleCursor Cursor.init ⟨tripleCursor,
      rfl⟩ (by decide)
  obtain ⟨-, hblock, hsync⟩ := hmoved hseek.1
  exact ⟨hcode.trans hseek.1, hblock.trans hseek.2, hsync, hsteps 2 (by decide)⟩

/-! ## Seeking with the pointers kept -/

/-- `seek` returns what a seek from scratch returns, and on success ends where it
ends, in sync again. -/
structure SeekAgrees (ino : TreeInode) (s : BlockStore) (c : Cursor) (n : Nat) : Prop where
  code : (seek ino s c n).1 = (bfSeek ino s c n).1
  pos : (bfSeek ino s c n).1 = 0 → (seek ino s c n).2.blockIdInFile =
    (bfSeek ino s c n).2.blockIdInFile
  block : (bfSeek ino s c n).1 = 0 → (seek ino s c n).2.blockId = (bfSeek ino s c n).2.blockId
  sync : (bfSeek ino s c n).1 = 0 → InSync ino s (seek ino s c n).2

/-- First, second and third index of a position of the triple indirect range. -/
def firstId (n : Nat) : Nat := (n - iblock13 - 1) / ((blockSize / 4) * (blockSize / 4))
def secondId (n : Nat) : Nat :=
  (n - iblock13 - 1) % ((blockSize / 4) * (blockSize / 4)) / (blockSize / 4)
def thirdId (n : Nat) : Nat := (n - iblock13 - 1) % (blockSize / 4)

/-- What `seek` needs: in the single indirect range, that the indirect block can be
read; for a move inside one part of the triple indirect range, that the last
pointer block holds the same pointer under the second and the third index. -/
structure SeekSafe (ino : TreeInode) (s : BlockStore) (c : Cursor) (n : Nat) : Prop where
  ind : iblock11 < n → n ≤ iblock12 → (s.data (ino.iBlock indBlock)).isSome
  tind : iblock13 < n → iblock13 < c.blockIdInFile → c.blockIdInFile ≠ n →
    firstId c.blockIdInFile = firstId n →
    ∀ t, s.ptr c.ind1 (secondId n) = some t → s.ptr t (secondId n) = s.ptr t (thirdId n)

section
variable {ino : TreeInode} {s : BlockStore} {c : Cursor} {n : Nat}

@[simp] theorem firstId_eq (n : Nat) : firstId n = (n - 1049612) / 1048576 := by
  simp [firstId, blockSize_eq, Nat.sub_sub]

@[simp] theorem secondId_eq (n : Nat) : secondId n = (n - 1049612) % 1048576 / 1024 := by
  simp [secondId, blockSize_eq, Nat.sub_sub]

@[simp] theorem thirdId_eq (n : Nat) : thirdId n = (n - 1049612) % 1024 := by
  simp [thirdId, blockSize_eq, Nat.sub_sub]

theorem SeekAgrees.of_eq (h : seek ino s c n = bfSeek ino s c n) : SeekAgrees ino s c n := by
  refine ⟨congrArg Prod.fst h, fun _ => by rw [h], fun _ => by rw [h], fun h0 => ?_⟩
  rw [h]
  exact .of_bfSeek (Prod.ext h0 rfl)

theorem BlockStore.ptr_isSome (s : BlockStore) (id off : Nat) :
    (s.ptr id off).isSome = (s.data id).isSome := by
  simp [BlockStore.ptr]

theorem seek_low (h : n ≤ 1035) : seek ino s c n = (0, (bfSeek ino s c n).2) := by
  simp [seek, h]

theorem seekAgrees_low (h : n ≤ 1035) : SeekAgrees ino s c n ↔ (bfSeek ino s c n).1 = 0 := by
  constructor
  · intro ha
    have hcode := ha.code
    rw [seek_low h] at hcode
    exact hcode.symm
  · intro h0
    apply SeekAgrees.of_eq
    rw [seek_low h]
    exact Prod.ext h0.symm rfl

theorem bfSeek_ind_code (h : 11 < n) (h' : n ≤ 1035) :
    (bfSeek ino s c n).1 = 0 ↔ (s.data (ino.iBlock 12)).isSome := by
  rw [bfSeek_ind h h', ← s.ptr_isSome _ (n - 12)]
  unfold Cursor.hop
  cases s.ptr (ino.iBlock 12) (n - 12) <;> simp [einval_ne_zero]

theorem bfSeek_from (m : Nat) :
    bfSeek ino s { c with blockIdInFile := m } n = bfSeek ino s c n := by
  simp [bfSeek]

theorem seek_dind (hc : InSync ino s c) (h1 : 1035 < n) (h2 : n ≤ 1049611) :
    seek ino s c n = bfSeek ino s c n := by
  have hle := hc.le
  have h12 := Nat.not_le.mpr h1
  unfold seek
  rw [iblock12_eq, iblock13_eq, blockSize_eq, if_neg h12, if_pos h2,
    sub32_sub32_one (by omega) (by omega), Nat.sub_sub n 1035 1]
  simp only [Nat.reduceAdd, Nat.reduceDiv]
  generalize ho : (if 1036 ≤ c.blockIdInFile then c.blockIdInFile - 1036 else
    c.blockIdInFile + 2 ^ 32 - 1036) = o
  by_cases hfirst : (n - 1036) / 1024 = o / 1024
  · -- a position below the range would wrap to a first index far above 1023
    have hge : 1036 ≤ c.blockIdInFile := by
      refine Classical.byContradiction fun h => ?_
      rw [if_neg h] at ho
      omega
    rw [if_pos hge] at ho
    obtain ⟨h0, hp, -⟩ := hc.dind hge (by omega)
    rw [ho, ← hfirst, h0] at hp
    by_cases hsecond : (n - 1036) % 1024 = o % 1024
    · have hpos : c.blockIdInFile = n := by omega
      rw [if_pos ⟨hfirst, hsecond⟩, ← hpos, hc.bfSeek_self]
    · rw [if_neg (fun h => hsecond h.2), if_pos hfirst, bfSeek_dind h1 h2,
        Cursor.hop1_some hp, ← h0]
  · rw [if_neg (fun h => hfirst h.1), if_neg hfirst, bfSeek_from]

/-- The three ways `seek` goes in the triple indirect range: nothing to do or from
scratch, or with the second index in place of the third. -/
theorem seek_tind (hc : InSync ino s c) (h1 : 1049611 < n) (h2 : n ≤ 1074791435) :
    if 1049611 < c.blockIdInFile ∧ c.blockIdInFile ≠ n ∧ firstId c.blockIdInFile = firstId n then
      ∃ t, s.ptr c.ind1 (secondId n) = some t ∧
        seek ino s c n = { c with blockIdInFile := n, ind2 := t }.hop s t (secondId n) ∧
        bfSeek ino s c n = { c with blockIdInFile := n, ind2 := t }.hop s t (thirdId n)
    else seek ino s c n = bfSeek ino s c n := by
  have hle := hc.le
  have h12 : ¬ n ≤ 1035 := by omega
  have h13 := Nat.not_le.mpr h1
  unfold seek
  rw [iblock12_eq, iblock13_eq, iblock14_eq, blockSize_eq, if_neg h12, if_neg h13, if_pos h2,
    sub32_sub32_one (by omega) (by omega), Nat.sub_sub n 1049611 1]
  simp only [Nat.reduceAdd, Nat.reduceDiv, Nat.reduceMul, firstId_eq, secondId_eq, thirdId_eq]
  generalize ho : (if 1049612 ≤ c.blockIdInFile then c.blockIdInFile - 1049612 else
    c.blockIdInFile + 2 ^ 32 - 1049612) = o
  by_cases hfirst : (n - 1049612) / 1048576 = o / 1048576
  · have hge : 1049612 ≤ c.blockIdInFile := by
      refine Classical.byContradiction fun h => ?_
      rw [if_neg h] at ho
      omega
    rw [if_pos hge] at ho
    obtain ⟨h0, hp, hq, -⟩ := hc.tind hge
    rw [ho] at hp hq
    rw [ho]
    by_cases hpos : c.blockIdInFile = n
    · have hsecond : (n - 1049612) % 1048576 / 1024 = o % 1048576 / 1024 := by omega
      have hthird : (n - 1049612) % 1024 = o % 1024 := by omega
      rw [if_neg (fun h => h.2.1 hpos), if_pos ⟨hfirst, hsecond, hthird⟩, ← hpos, hc.bfSeek_self]
    · rw [← hfirst, h0] at hp
      have hbf : ∀ t, s.ptr c.ind1 ((n - 1049612) % 1048576 / 1024) = some t →
          bfSeek ino s c n = { c with blockIdInFile := n, ind2 := t }.hop s t
          ((n - 1049612) % 1024) := by
        intro t ht
        rw [bfSeek_tind h1 h2, Cursor.hop1_some hp, Cursor.hop2_some ht, ← h0]
      rw [if_pos ⟨hge, hpos, hfirst.symm⟩, if_neg (fun h => hpos (by omega))]
      by_cases hsecond : (n - 1049612) % 1048576 / 1024 = o % 1048576 / 1024
      · rw [← hsecond] at hq
        rw [if_pos ⟨hfirst, hsecond⟩]
        exact ⟨c.ind2, hq, rfl, hbf _ hq⟩
      · have hsome : (s.ptr c.ind1 ((n - 1049612) % 1048576 / 1024)).isSome := by
          rw [s.ptr_isSome, ← s.ptr_isSome _ (o % 1048576 / 1024), hq]
          rfl
        obtain ⟨t, ht⟩ := Option.isSome_iff_exists.mp hsome
        rw [if_neg (fun h => hsecond h.2), if_pos hfirst, Cursor.hop2_some ht]
        exact ⟨t, ht, rfl, hbf t ht⟩
  · have hno : ¬ (1049611 < c.blockIdInFile ∧ c.blockIdInFile ≠ n ∧
        (c.blockIdInFile - 1049612) / 1048576 = (n - 1049612) / 1048576) := by
      rintro ⟨hge, -, heq⟩
      rw [if_pos (show 1049612 ≤ c.blockIdInFile from hge)] at ho
      exact hfirst (by rw [← ho, heq])
    rw [if_neg hno, if_neg (fun h => hfirst h.1), if_neg (fun h => hfirst h.1), if_neg hfirst,
      bfSeek_from]

theorem seekAgrees_hop {c' : Cursor} {t a b : Nat} (ha : seek ino s c n = c'.hop s t a)
    (hb : bfSeek ino s c n = c'.hop s t b) :
    SeekAgrees ino s c n ↔ s.ptr t a = s.ptr t b := by
  constructor
  · intro h
    have hcode := h.code
    have hblock := h.block
    rw [ha, hb] at hcode hblock
    unfold Cursor.hop at hcode hblock
    cases hpa : s.ptr t a with
    | none =>
      cases hpb : s.ptr t b with
      | none => rfl
      | some y => simp [hpa, hpb, einval_ne_zero] at hcode
    | some x =>
      cases hpb : s.ptr t b with
      | none =>
        rw [eq_comm] at hcode
        simp [hpa, hpb, einval_ne_zero] at hcode
      | some y => simpa [hpa, hpb] using hblock
  · intro h
    apply SeekAgrees.of_eq
    rw [ha, hb]
    unfold Cursor.hop
    rw [h]

/-- `seek` agrees with a seek from scratch exactly where it is safe. -/
theorem seek_agrees_iff (ino : TreeInode) (s : BlockStore) (c : Cursor) (hc : InSync ino s c)
    (n : Nat) (hn : n ≤ iblock14) :
    SeekAgrees ino s c n ↔ SeekSafe ino s c n := by
  rw [iblock14_eq] at hn
  by_cases h2 : n ≤ 1035
  · rw [seekAgrees_low h2]
    by_cases h1 : n ≤ 11
    · simp only [bfSeek_direct h1, true_iff]
      refine ⟨fun h => ?_, fun h => ?_⟩
      · exact absurd h (Nat.not_lt.mpr h1)
      · rw [iblock13_eq] at h
        omega
    · rw [bfSeek_ind_code (by omega) h2]
      refine ⟨fun h => ⟨fun _ _ => h, fun h' => ?_⟩, fun h => h.ind (Nat.lt_of_not_le h1) h2⟩
      rw [iblock13_eq] at h'
      omega
  have hind : iblock11 < n → n ≤ iblock12 → (s.data (ino.iBlock indBlock)).isSome :=
    fun _ h => absurd h h2
  by_cases h3 : n ≤ 1049611
  · have hsafe : SeekSafe ino s c n := by
      refine ⟨hind, fun h => ?_⟩
      rw [iblock13_eq] at h
      omega
    exact iff_of_true (.of_eq (seek_dind hc (by omega) h3)) hsafe
  have hseek := seek_tind hc (by omega) hn
  by_cases hmove : 1049611 < c.blockIdInFile ∧ c.blockIdInFile ≠ n ∧
    firstId c.blockIdInFile = firstId n
  · rw [if_pos hmove] at hseek
    obtain ⟨t, ht, ha, hb⟩ := hseek
    rw [seekAgrees_hop ha hb]
    constructor
    · intro h
      refine ⟨hind, fun _ _ _ _ t' ht' => ?_⟩
      rw [ht] at ht'
      cases ht'
      exact h
    · intro h
      exact h.tind (by rw [iblock13_eq]; omega) (by rw [iblock13_eq]; exact hmove.1) hmove.2.1
        hmove.2.2 t ht
  · rw [if_neg hmove] at hseek
    exact iff_of_true (.of_eq hseek) ⟨hind, fun _ h1 h2 h3 => absurd ⟨h1, h2, h3⟩ hmove⟩

/-- Back from the second to the first block of the triple indirect range. -/
theorem seek_agrees_back :
    SeekAgrees tripleInode tripleStore
      { tripleCursor with blockId := 11, blockIdInFile := iblock13 + 2 }
      (iblock13 + 1) := by
  refine (seek_agrees_iff tripleInode tripleStore _ ⟨tripleCursor,
    rfl⟩ (iblock13 + 1) (by decide)).mpr ⟨?_, ?_⟩
  · exact fun _ h => absurd h (by decide)
  · exact fun _ _ _ _ t _ => rfl

end

def noBlocks : BlockStore := .full fun _ => none

/-- At the triple level `seek` to the next block stays on the old one, and in the
single indirect range of a file without blocks it reports success. -/
theorem seek_disagrees :
    InSync tripleInode tripleStore tripleCursor ∧
      (bfSeek tripleInode tripleStore tripleCursor (iblock13 + 2)).2.blockId = 11 ∧
      (seek tripleInode tripleStore tripleCursor (iblock13 + 2)).2.blockId = 10 ∧
      ¬ SeekAgrees tripleInode tripleStore tripleCursor (iblock13 + 2) ∧
      InSync (Inode.init 0) noBlocks Cursor.init ∧
      ¬ SeekAgrees (Inode.init 0) noBlocks Cursor.init (iblock11 + 1) := by
  have hb : (bfSeek tripleInode tripleStore tripleCursor (iblock13 + 2)).2.blockId = 11 := by decide
  have hs : (seek tripleInode tripleStore tripleCursor (iblock13 + 2)).2.blockId = 10 := by decide
  refine ⟨⟨tripleCursor, ?_⟩, hb, hs, fun h => ?_, ⟨Cursor.init, rfl⟩, fun h => ?_⟩
  · rfl
  · have h := h.block (by decide)
    rw [hb, hs] at h
    cases h
  · exact absurd h.code (by decide)

end NaiveFS
