import NaiveFS.WriteSound

/-!
# Sizes and block counts of a write

What a write does to `i_size` and `i_blocks` does not depend on the blocks it
finds: over any block layer an allocation adds one block and leaves the size
alone, and the loops of the extending branch decide by the size when to allocate.
-/

namespace NaiveFS

open BlockReader BlockLayer

section
variable {σ : Type} [BlockLayer σ]

theorem openRoot_rest (slot : Nat) (first : Bool) (ino : TreeInode) (s : σ) :
    SameRest ino (openRoot slot first ino s).2.1 := by
  unfold openRoot
  split
  · split <;> rfl
  · split <;> rfl

theorem mapBlock_rest (n bi : Nat) (ino : TreeInode) (s : σ) :
    SameRest ino (mapBlock n bi ino s).2.1 := by
  unfold mapBlock
  split
  · rfl
  split
  · unfold mapInd
    have h := openRoot_rest indBlock (n == maxDirBlocks) ino s
    split <;> rename_i he <;> rw [he] at h <;> exact h
  split
  · unfold mapDind
    have h := openRoot_rest dindBlock (n == maxDirBlocks + maxIndBlocks) ino s
    split <;> rename_i he <;> rw [he] at h
    · exact h
    · simp only
      split
      · split <;> exact h
      · split <;> exact h
  · unfold mapTind
    have h := openRoot_rest tindBlock (n == maxDirBlocks + maxIndBlocks + maxDindBlocks) ino s
    split <;> rename_i he <;> rw [he] at h
    · exact h
    · simp only
      split
      · split
        · exact h
        · split <;> exact h
      · split
        · exact h
        · split
          · split <;> exact h
          · split <;> exact h

theorem SameRest.iSize {ino ino' : TreeInode} (h : SameRest ino ino') : ino'.iSize = ino.iSize := by
  unfold SameRest at h
  rw [h]

theorem allocBlock_rest (ino : TreeInode) (s : σ) :
    (allocBlock ino s).2.1.iSize = ino.iSize ∧
      (allocBlock ino s).2.1.iBlocks = if (allocBlock ino s).1.isSome then
      u32 (ino.iBlocks + 8) else ino.iBlocks := by
  unfold allocBlock
  cases allocRaw s with
  | mk o s₁ =>
    cases o with
    | none => exact ⟨rfl, rfl⟩
    | some bi =>
      have h := mapBlock_rest (numAlignedBlocks ino.iBlocks) bi ino s₁
      rcases hm : mapBlock (numAlignedBlocks ino.iBlocks) bi ino s₁ with ⟨ok, ino₁, s₂⟩
      rw [hm] at h
      cases ok with
      | false =>
        simp only [hm]
        exact ⟨h.iSize, h.iBlocks⟩
      | true =>
        simp only [hm]
        exact ⟨h.iSize, congrArg (fun b => u32 (b + 8)) h.iBlocks⟩

theorem allocBlock_some {ino ino' : TreeInode} {s s' : σ} {i n : Nat}
    (h : allocBlock ino s = (some i, ino', s')) (hb : ino.iBlocks = 8 * n) (hn : n + 1 < 2 ^ 29) :
    ino'.iSize = ino.iSize ∧ ino'.iBlocks = 8 * (n + 1) := by
  have hrest := allocBlock_rest ino s
  rw [h, hb] at hrest
  refine ⟨hrest.1, hrest.2.trans ?_⟩
  simp only [Option.isSome_some, if_true]
  rw [u32_of_lt (by omega)]
  omega

theorem allocBlock_count (ino : TreeInode) (s : σ) :
    numAlignedBlocks (allocBlock ino s).2.1.iBlocks ≤ numAlignedBlocks ino.iBlocks + 1 := by
  rw [(allocBlock_rest ino s).2, numAlignedBlocks_eq, numAlignedBlocks_eq]
  split
  · unfold u32
    omega
  · exact Nat.le_succ _

end

theorem putBytes_ino {f f' : File} {id off : Nat} {buf : List UInt8}
    (h : f.putBytes id off buf = some f') :
    f'.ino = f.ino := by
  unfold File.putBytes at h
  split at h
  · cases h
  · cases h
    rfl

theorem extendLoop_count : ∀ fuel f c offset ret buf,
    numAlignedBlocks (extendLoop fuel f c offset ret buf).2.1.ino.iBlocks ≤
      numAlignedBlocks f.ino.iBlocks + ceilBlocks buf.length := by
  intro fuel
  induction fuel with
  | zero => intro f c offset ret buf; exact Nat.le_add_right _ _
  | succ fuel ih =>
    intro f c offset ret buf
    unfold extendLoop
    simp only [blockSize_eq]
    split
    · exact Nat.le_add_right _ _
    rename_i hlen
    have hceil : ceilBlocks buf.length =
      1 + ceilBlocks (buf.drop (min buf.length 4096)).length := by
      rw [List.length_drop]
      unfold ceilBlocks
      omega
    have hcount : ∀ o ino s, (if f.ino.iSize ≤ offset then allocBlock f.ino f.store else
      (some 0, f.ino, f.store)) =
        (o, ino, s) → numAlignedBlocks ino.iBlocks ≤ numAlignedBlocks f.ino.iBlocks + 1 := by
      intro o ino s h
      split at h
      · have := allocBlock_count f.ino f.store
        rwa [h] at this
      · cases h
        exact Nat.le_succ _
    split
    · rename_i ino s he
      have := hcount _ _ _ he
      simp only
      omega
    · rename_i i ino s he
      have h1 := hcount _ _ _ he
      split
      · simp only
        omega
      split
      · simp only
        omega
      · rename_i f₂ hput
        have hino : f₂.ino = ino := putBytes_ino hput
        refine Nat.le_trans (ih _ _ _ _ _) ?_
        simp only [File.growTo, hino]
        omega

/-! ## Blocks before the first chunk -/

theorem gap_round (size : Nat) :
    sub32 (u32 (size + 4096)) (size % 4096) = u32 (size + (4096 - size % 4096)) := by
  unfold sub32 u32
  omega

/-- How far the gap loop has come on a file of `size` bytes and `n` blocks. -/
def GapPart (offset size n size' n' : Nat) : Prop :=
  (size' = size ∧ n' = n) ∨
  (nextBound size < offset ∧ size' % 4096 = 0 ∧ nextBound size ≤ size' ∧ size' < offset ∧
    4096 * n' + (size - size % 4096) = 4096 * n + size')

theorem fillGap_count {offset : Nat} (ho : offset ≤ 2 ^ 32 - 4096) :
    ∀ (fuel : Nat) {ino ino' : TreeInode} {s s' : BlockStore}
    {n : Nat} {ok : Bool}, ino.iBlocks = 8 * n → n ≤ ino.iSize / 4096 + 2 ^ 22 →
    ino.iSize < 2 ^ 32 - 4096 → fillGap offset fuel ino s = some (ok, ino', s') →
    ∃ n', ino'.iBlocks = 8 * n' ∧ GapPart offset ino.iSize n ino'.iSize n' ∧
      (ok = true → GapFilled offset ino.iSize n ino'.iSize n') := by
  intro fuel
  induction fuel with
  | zero =>
    intro ino ino' s s' n ok _ _ _ h
    cases h
  | succ fuel ih =>
    intro ino ino' s s' n ok hb hn hs h
    unfold fillGap at h
    rw [blockSize_eq, gap_test hs] at h
    by_cases hgap : nextBound ino.iSize < offset
    · rw [if_pos hgap] at h
      have hrest := allocBlock_rest ino s
      rcases ha : allocBlock ino s with ⟨_ | i, ino₁, s₁⟩
      · simp only [ha, Option.some.injEq, Prod.mk.injEq] at h
        obtain ⟨rfl, rfl, rfl⟩ := h
        rw [ha] at hrest
        exact ⟨n, hrest.2.trans hb, Or.inl ⟨hrest.1, rfl⟩, by simp⟩
      · simp only [ha] at h
        obtain ⟨hsize, hblocks⟩ := allocBlock_some ha hb (by omega)
        have hnew : u32 (ino₁.iSize + (4096 - ino₁.iSize % 4096)) = nextBound ino.iSize := by
          rw [hsize]
          unfold u32 nextBound
          omega
        rw [hnew] at h
        have hb₁ : ({ ino₁ with iSize := nextBound ino.iSize } : TreeInode).iBlocks = 8 * (n + 1) :=
          hblocks
        obtain ⟨n', hb', hpart, hg⟩ :=
          ih hb₁ (by simp only [nextBound]; omega) (by simp only; omega) h
        refine ⟨n', hb', ?_, fun hok => ?_⟩
        · unfold GapPart nextBound at hpart ⊢
          unfold nextBound at hgap
          simp only at hpart
          omega
        · have hg := hg hok
          unfold GapFilled nextBound at hg ⊢
          unfold nextBound at hgap
          simp only at hg
          omega
    · rw [if_neg hgap] at h
      cases h
      exact ⟨n, hb, Or.inl ⟨rfl, rfl⟩, fun _ => Or.inl ⟨Nat.not_lt.mp hgap, rfl, rfl⟩⟩

theorem allocAligned_count {ino ino' : TreeInode} {s s' : BlockStore} {n : Nat} {ok : Bool}
    (hb : ino.iBlocks = 8 * n) (hn : n + 1 < 2 ^ 29) (h : allocAligned ino s = (ok, ino', s')) :
    ino'.iSize = ino.iSize ∧ ino'.iBlocks =
      8 * (if ok = true ∧ ino.iSize % 4096 = 0 then n + 1 else n) := by
  unfold allocAligned at h
  rw [blockSize_eq] at h
  by_cases hal : ino.iSize % 4096 = 0
  · rw [if_pos hal] at h
    have hrest := allocBlock_rest ino s
    rcases ha : allocBlock ino s with ⟨_ | i, ino₁, s₁⟩
    · simp only [ha, Prod.mk.injEq] at h
      obtain ⟨rfl, rfl, rfl⟩ := h
      rw [ha] at hrest
      exact ⟨hrest.1, by simpa [hb] using hrest.2⟩
    · simp only [ha, Prod.mk.injEq] at h
      obtain ⟨rfl, rfl, rfl⟩ := h
      rw [if_pos ⟨rfl, hal⟩]
      exact allocBlock_some ha hb hn
  · rw [if_neg hal] at h
    cases h
    rw [if_neg (fun hc => hal hc.2)]
    exact ⟨rfl, hb⟩

theorem allocBefore_count {offset n : Nat} {ino ino' : TreeInode} {s s' : BlockStore} {ok : Bool}
    (ho : offset ≤ 2 ^ 32 - 4096) (hb : ino.iBlocks = 8 * n) (hn : n ≤ ino.iSize / 4096 + 2 ^ 22)
    (hs : ino.iSize < 2 ^ 32 - 4096) (h : allocBefore offset ino s = some (ok, ino', s')) :
    ∃ n', ino'.iBlocks = 8 * n' ∧ (ok = false → GapPart offset ino.iSize n ino'.iSize n') ∧
      (ok = true → Prepared offset ino.iSize n ino'.iSize n') := by
  unfold allocBefore at h
  rcases hg : fillGap offset gapFuel ino s with _ | ⟨gapOk, ino₁, s₁⟩
  · simp [hg] at h
  obtain ⟨n₁, hb₁, hpart, hfilled⟩ := fillGap_count ho gapFuel hb hn hs hg
  cases gapOk with
  | false =>
    simp only [hg, Option.some.injEq, Prod.mk.injEq] at h
    obtain ⟨rfl, rfl, rfl⟩ := h
    exact ⟨n₁, hb₁, fun _ => hpart, by simp⟩
  | true =>
    simp only [hg, Option.some.injEq] at h
    have hn₁ : n₁ + 1 < 2 ^ 29 := by
      unfold GapPart nextBound at hpart
      omega
    obtain ⟨hsize, hb'⟩ := allocAligned_count hb₁ hn₁ h
    refine ⟨_, hb', fun hok => ?_, fun hok => ?_⟩
    · rw [if_neg (by simp [hok]), hsize]
      exact hpart
    · refine ⟨n₁, hsize ▸ hfilled rfl, ?_⟩
      rw [hsize]
      simp only [hok, true_and]

/-! ## The chunks behind the first -/

theorem toInt32_le (n : Nat) : toInt32 n ≤ n := by
  unfold toInt32
  rw [Int.bmod_def]
  split <;> omega

theorem toInt32_ne_of_lt {a b : Nat} (h : a < b) : toInt32 a ≠ b := by
  have := toInt32_le a
  omega

theorem alloc_if_size {ino ino' : TreeInode} {s s' : BlockStore} {o : Option Nat} (p : Prop)
    [Decidable p] (h : (if p then allocBlock ino s else (some 0, ino, s)) = (o, ino', s')) :
    ino'.iSize = ino.iSize := by
  by_cases hp : p
  · rw [if_pos hp] at h
    have hrest := (allocBlock_rest ino s).1
    rwa [h] at hrest
  · rw [if_neg hp] at h
    cases h
    rfl

theorem alloc_if_blocks {ino ino' : TreeInode} {s s' : BlockStore} {i n : Nat} (p : Prop)
    [Decidable p] (hb : ino.iBlocks = 8 * n) (hn : n + 1 < 2 ^ 29)
    (h : (if p then allocBlock ino s else (some 0, ino, s)) = (some i, ino', s')) :
    ino'.iBlocks = 8 * (if p then n + 1 else n) := by
  by_cases hp : p
  · rw [if_pos hp] at h ⊢
    exact (allocBlock_some h hb hn).2
  · rw [if_neg hp] at h ⊢
    cases h
    exact hb

theorem extendLoop_exact :
    ∀ (fuel : Nat) {f f' : File} {c c' : Cursor} {offset ret : Nat} {buf : List UInt8} {r : Int},
    extendLoop fuel f c offset ret buf = (r, f', c') → r = (ret + buf.length : Nat) →
    buf.length ≤ fuel →
    offset ≤ f.ino.iSize → (buf ≠ [] → offset % 4096 = 0) → f.ino.iSize < 2 ^ 32 →
    offset + buf.length < 2 ^ 32 → f'.ino.iSize = max f.ino.iSize (offset + buf.length) ∧
      ∀ n, f.ino.iBlocks = 8 * n → n ≤ ceilBlocks f.ino.iSize + 2 ^ 23 →
        ∃ n', f'.ino.iBlocks = 8 * n' ∧ n' + ceilBlocks f.ino.iSize =
        n + ceilBlocks f'.ino.iSize := by
  intro fuel
  induction fuel with
  | zero =>
    intro f f' c c' offset ret buf r h _ hfuel hle _ _ _
    obtain rfl : buf = [] := List.eq_nil_of_length_eq_zero (Nat.le_zero.mp hfuel)
    simp only [extendLoop, Prod.mk.injEq] at h
    obtain ⟨-, rfl, -⟩ := h
    exact ⟨(Nat.max_eq_left hle).symm, fun n hb _ => ⟨n, hb, rfl⟩⟩
  | succ fuel ih =>
    intro f f' c c' offset ret buf r h hr hfuel hle hal hlt hend
    unfold extendLoop at h
    by_cases hbuf : buf = []
    · subst hbuf
      simp only [List.length_nil, if_true, Prod.mk.injEq] at h
      obtain ⟨-, rfl, -⟩ := h
      exact ⟨(Nat.max_eq_left hle).symm, fun n hb _ => ⟨n, hb, rfl⟩⟩
    have hlen : 0 < buf.length := List.length_pos_iff.mpr hbuf
    have hal := hal hbuf
    have hio : -eio ≤ 0 := by decide
    rw [if_neg (by omega), blockSize_eq] at h
    generalize hcsz : min buf.length 4096 = csz at h
    rcases ha : (if f.ino.iSize ≤ offset then allocBlock f.ino f.store else (some 0, f.ino,
      f.store)) with ⟨_ | i, ino₁, s₁⟩
    · simp only [ha, Prod.mk.injEq] at h
      exact absurd (h.1.trans hr) (toInt32_ne_of_lt (Nat.lt_add_of_pos_right hlen))
    have hsize := alloc_if_size _ ha
    simp only [ha] at h
    rcases hnext : nextBlock ino₁ s₁ c with ⟨err, c₁⟩
    simp only [hnext] at h
    by_cases herr : err = 0
    · subst herr
      simp only [ne_eq, not_true_eq_false, if_false] at h
      rcases hput : File.putBytes { f with ino := ino₁, store := s₁ } c₁.blockId 0
        (buf.take csz) with _ | f₂
      · simp only [hput, Prod.mk.injEq] at h
        omega
      · simp only [hput] at h
        have hino : f₂.ino = ino₁ := putBytes_ino hput
        have hgrow : f₂.growTo (offset + csz) =
          { f₂ with ino := { ino₁ with iSize := max f.ino.iSize (offset + csz) } } := by
          rw [File.growTo_eq _ (by rw [hino, hsize]; omega), hino, hsize]
        rw [u64_of_lt (by omega), hgrow] at h
        obtain ⟨hsz', hcount⟩ :=
          ih h (by rw [List.length_drop]; omega) (by rw [List.length_drop]; omega)
          (Nat.le_max_right _ _) (fun hne => by
            have := List.length_pos_iff.mpr hne
            rw [List.length_drop] at this
            omega) (by simp only; omega) (by rw [List.length_drop]; omega)
        rw [List.length_drop] at hsz'
        simp only at hsz'
        refine ⟨by omega, fun n hb hn => ?_⟩
        unfold ceilBlocks at hn
        have hb₁ := alloc_if_blocks (f.ino.iSize ≤ offset) hb (by omega) ha
        obtain ⟨n', hb', hcnt⟩ := hcount _ hb₁
          (by unfold ceilBlocks; simp only; split <;> omega)
        refine ⟨n', hb', ?_⟩
        simp only at hcnt
        unfold ceilBlocks at hcnt ⊢
        split at hcnt <;> omega
    · simp only [ne_eq, herr, not_false_eq_true, if_true, Prod.mk.injEq] at h
      omega

end NaiveFS
