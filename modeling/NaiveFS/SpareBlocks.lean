import NaiveFS.FileSound
import NaiveFS.WriteCount
import NaiveFS.Lib.Runs

/-!
# Blocks that no byte of a file needs

The extending branch allocates in the gap loop, when the size is aligned, and for
each chunk behind the size. The second allocation is one too many when the write
starts before an aligned end of file, since the loop allocates the same block
again, and after a gap that starts inside a block.
-/

namespace NaiveFS

/-! ## Branches that allocate nothing -/

theorem overwriteLoop_ino (isize : Nat) :
    ∀ (fuel : Nat) (f : File) (c : Cursor) (offset ret : Nat) (buf : List UInt8),
    (overwriteLoop isize fuel f c offset ret buf).2.1.ino = f.ino := by
  intro fuel
  induction fuel with
  | zero => exact fun _ _ _ _ _ => rfl
  | succ fuel ih =>
    intro f c offset ret buf
    unfold overwriteLoop
    split
    · rfl
    split
    · rfl
    simp only
    split
    · rfl
    split
    · rfl
    · rename_i f₂ hput
      rw [ih]
      exact putBytes_ino hput

theorem writeInPlace_ino (f : File) (c : Cursor) (buf : List UInt8) (offset : Nat) :
    (writeInPlace f c buf offset).2.1.ino = f.ino := by
  unfold writeInPlace
  simp only
  split
  · rfl
  split
  · rfl
  · rename_i f₂ hput
    rw [overwriteLoop_ino]
    exact putBytes_ino hput

/-! ## The extending branch -/

/-- The write allocates a block more than it needs. -/
def Wasteful (size offset len : Nat) : Prop :=
  size < offset + len ∧
    (size % 4096 = 0 ∧ offset < size ∨ size % 4096 ≠ 0 ∧ nextBound size < offset ∧
    (offset % 4096 ≠ 0 ∨ len = 0))

instance (size offset len : Nat) : Decidable (Wasteful size offset len) :=
  inferInstanceAs (Decidable (_ ∧ _))

theorem Prepared.spare {offset len size n size' n₁ n' csz : Nat}
    (h : Prepared offset size n size' n₁) (hext : size < offset + len)
    (hcsz : min len (4096 - offset % 4096) = csz)
    (hcnt : n' + ceilBlocks (max size' (offset + csz)) = n₁ + ceilBlocks (offset + len)) :
    n' + ceilBlocks size ≤ n + ceilBlocks (offset + len) + if Wasteful size offset len then
      1 else 0 := by
  obtain ⟨m, hfilled, hn₁⟩ := h
  unfold GapFilled nextBound at hfilled
  unfold ceilBlocks at hcnt ⊢
  by_cases hw : Wasteful size offset len
  · rw [if_pos hw]
    unfold Wasteful nextBound at hw
    split at hn₁ <;> omega
  · rw [if_neg hw]
    unfold Wasteful nextBound at hw
    split at hn₁ <;> omega

theorem GapPart.spare {offset size n size' n' : Nat} (h : GapPart offset size n size' n')
    (hext : size < offset) :
    n' + ceilBlocks size ≤ n + ceilBlocks size' + if Wasteful size offset 0 then 1 else 0 := by
  unfold GapPart nextBound at h
  unfold ceilBlocks
  by_cases hw : Wasteful size offset 0
  · rw [if_pos hw]
    unfold Wasteful nextBound at hw
    omega
  · rw [if_neg hw]
    unfold Wasteful nextBound at hw
    omega

theorem writeExtend_count {f f' : File} {c c' : Cursor} {buf : List UInt8} {offset n : Nat}
    {r : Int} (h : writeExtend f c buf offset = some (r, f', c')) (hr : r = buf.length)
    (hb : f.ino.iBlocks = 8 * n) (hn : n ≤ ceilBlocks f.ino.iSize)
    (hext : f.ino.iSize < offset + buf.length) (hend : offset + buf.length ≤ 2 ^ 32 - 4096) :
    f'.ino.iSize ≤ 2 ^ 32 - 4096 ∧ ∃ n', f'.ino.iBlocks = 8 * n' ∧
      n' + ceilBlocks f.ino.iSize ≤ n + ceilBlocks f'.ino.iSize +
      if Wasteful f.ino.iSize offset buf.length then 1 else 0 := by
  have hval : -einval ≤ 0 ∧ -einval ≠ 0 := by decide
  unfold writeExtend at h
  rcases hbefore : allocBefore offset f.ino f.store with _ | ⟨ok, ino₁, s₁⟩
  · simp [hbefore] at h
  obtain ⟨n₁, hb₁, hpart, hprep⟩ :=
    allocBefore_count (by omega) hb (by unfold ceilBlocks at hn; omega) (by omega) hbefore
  cases ok with
  | false =>
    simp only [hbefore, Option.some.injEq, Prod.mk.injEq] at h
    obtain ⟨hr₀, rfl, -⟩ := h
    have hpart := hpart rfl
    have hlen : buf.length = 0 := by omega
    rw [hlen] at hext ⊢
    refine ⟨?_, n₁, hb₁, hpart.spare hext⟩
    unfold GapPart at hpart
    simp only
    omega
  | true =>
    obtain ⟨m, hfilled, hn₁⟩ := hprep rfl
    simp only [hbefore, blockSize_eq] at h
    rcases hseek : seek ino₁ s₁ c (u32 (offset / 4096)) with ⟨err, c₁⟩
    have herr := seek_err ino₁ s₁ c (u32 (offset / 4096))
    simp only [hseek] at h herr
    by_cases he : err = 0
    · subst he
      simp only [ne_eq, not_true_eq_false, if_false] at h
      generalize hcsz : min buf.length (4096 - offset % 4096) = csz at h
      rcases hput : File.putBytes { f with ino := ino₁, store := s₁ } c₁.blockId (offset % 4096)
        (buf.take csz) with _ | f₂
      · simp only [hput, Option.some.injEq, Prod.mk.injEq] at h
        omega
      · simp only [hput, Option.some.injEq] at h
        have hino : f₂.ino = ino₁ := putBytes_ino hput
        unfold GapFilled nextBound at hfilled
        unfold ceilBlocks at hn
        rw [u64_of_lt (by omega), File.growTo_eq _ (by rw [hino]; omega), hino] at h
        obtain ⟨hsz', hcount⟩ := extendLoop_exact buf.length h (by rw [List.length_drop]; omega)
          (by rw [List.length_drop]; omega) (Nat.le_max_right _ _) (fun hne => by
            have := List.length_pos_iff.mpr hne
            rw [List.length_drop] at this
            omega) (by simp only; omega) (by rw [List.length_drop]; omega)
        obtain ⟨n', hb', hcnt⟩ :=
          hcount n₁ hb₁ (by unfold ceilBlocks; simp only; split at hn₁ <;> omega)
        rw [List.length_drop] at hsz'
        simp only at hsz' hcnt
        have hsize : f'.ino.iSize = offset + buf.length := by omega
        refine ⟨by omega, n', hb', ?_⟩
        rw [hsize] at hcnt ⊢
        exact (hprep rfl).spare hext hcsz hcnt
    · simp only [ne_eq, he, not_false_eq_true, if_true, Option.some.injEq, Prod.mk.injEq] at h
      omega

/-! ## Runs of writes -/

inductive WriteOp where
  | openHandle
  | write (h : Nat) (buf : List UInt8) (offset : Nat) (append : Bool)

/-- A write that succeeds and stays within the size limit. -/
def writeStep (f : File) : WriteOp → Option File
  | .openHandle => some f.openHandle
  | .write h buf offset append =>
    if f.start offset append + buf.length ≤ 2 ^ 32 - 4096 then
      match write f h buf offset append with
      | none => none
      | some (r, f') => if r = buf.length then some f' else none
    else none

/-- No data block lies behind the end of the file; `fuse_getattr` reports
`i_blocks` as `st_blocks`. -/
structure NoSpare (f : File) : Prop where
  blocks : numAlignedBlocks f.ino.iBlocks ≤ ceilBlocks f.ino.iSize
  sectors : f.ino.iBlocks ≤ 8 * ceilBlocks f.ino.iSize

/-- A wasteful write is done only where a block of the file is missing. -/
def Frugal (f : File) : WriteOp → Prop
  | .openHandle => True
  | .write _ buf offset append =>
    Wasteful f.ino.iSize (f.start offset append) buf.length →
      numAlignedBlocks f.ino.iBlocks < ceilBlocks f.ino.iSize

/-- What holds of the two fields along a run. -/
def Tight (f : File) : Prop :=
  f.ino.iSize ≤ 2 ^ 32 - 4096 ∧ ∃ n, f.ino.iBlocks = 8 * n ∧ n ≤ ceilBlocks f.ino.iSize

theorem Tight.noSpare {f : File} (h : Tight f) : NoSpare f := by
  obtain ⟨-, n, hb, hn⟩ := h
  refine ⟨?_, by omega⟩
  rw [numAlignedBlocks_eq, hb]
  omega

theorem Tight.write {f f' : File} {h offset : Nat} {buf : List UInt8} {append : Bool}
    (ht : Tight f) (hend : f.start offset append + buf.length ≤ 2 ^ 32 - 4096)
    (hfrugal : Frugal f (.write h buf offset append))
    (hw : write f h buf offset append = some ((buf.length : Int), f')) : Tight f' := by
  obtain ⟨hsize, n, hb, hn⟩ := ht
  unfold Frugal at hfrugal
  rw [numAlignedBlocks_eq, hb, Nat.mul_div_cancel_left n (by decide)] at hfrugal
  unfold NaiveFS.write at hw
  rcases hupd : updCache f.ino f.store (f.cursor h) with ⟨err, c⟩
  have herr := @updCache_err f.ino f.store (f.cursor h)
  simp only [hupd] at hw herr
  by_cases he : err = 0
  · subst he
    simp only [ne_eq, not_true_eq_false, if_false] at hw
    rw [show (if append = true then f.ino.iSize else offset) = f.start offset append from rfl,
      u64_of_lt (show f.start offset append + buf.length < 2 ^ 64 by omega)] at hw
    by_cases hext : f.ino.iSize < f.start offset append + buf.length
    · rw [if_pos hext] at hw
      rcases hx : writeExtend f c buf (f.start offset append) with _ | ⟨r, f₁, c₁⟩
      · simp [hx] at hw
      · simp only [hx, Option.some.injEq, Prod.mk.injEq] at hw
        obtain ⟨rfl, rfl⟩ := hw
        obtain ⟨hsize', n', hb', hcnt⟩ := writeExtend_count hx rfl hb hn hext hend
        refine ⟨hsize', n', hb', ?_⟩
        by_cases hwaste : Wasteful f.ino.iSize (f.start offset append) buf.length
        · have := hfrugal hwaste
          rw [if_pos hwaste] at hcnt
          simp only [File.setCursor]
          omega
        · rw [if_neg hwaste] at hcnt
          simp only [File.setCursor]
          omega
    · rw [if_neg hext] at hw
      simp only [Option.some.injEq, Prod.mk.injEq] at hw
      obtain ⟨-, rfl⟩ := hw
      simp only [Tight, File.setCursor, writeInPlace_ino]
      exact ⟨hsize, n, hb, hn⟩
  · simp only [ne_eq, he, not_false_eq_true, if_true, Option.some.injEq, Prod.mk.injEq] at hw
    omega

theorem Tight.step {f f' : File} {op : WriteOp} (ht : Tight f) (hfrugal : Frugal f op)
    (hs : writeStep f op = some f') :
    Tight f' := by
  cases op with
  | openHandle =>
    cases hs
    exact ht
  | write h buf offset append =>
    simp only [writeStep] at hs
    split at hs
    · rename_i hend
      rcases hw : NaiveFS.write f h buf offset append with _ | ⟨r, f₁⟩
      · simp [hw] at hs
      · simp only [hw] at hs
        split at hs
        · rename_i hr
          cases hs
          rw [hr] at hw
          exact ht.write hend hfrugal hw
        · cases hs
    · cases hs

/-- In a run without wasteful writes no file has a block behind its end. -/
theorem no_spare_blocks (mode : Nat) (s : BlockStore) (ops : List WriteOp)
    (h : Runs.Guarded writeStep Frugal ops (.create mode s)) :
    Runs.Along writeStep NoSpare ops (.create mode s) := by
  have hinit : Tight (.create mode s) := ⟨Nat.zero_le _, 0, rfl, Nat.zero_le _⟩
  exact Runs.along_of_guarded (fun _ => Tight.noSpare) (fun _ _ _ => Tight.step) ops _ hinit h

theorem no_spare_blocks_appends :
    Runs.Along writeStep NoSpare [.openHandle, .write 0 [7] 0 false, .write 0 [8] 0 true]
      (.create 0 (.blank [5, 6] (by decide) (by decide))) := by
  refine no_spare_blocks 0 _ _ (Runs.guarded_cons rfl trivial
    (Runs.guarded_cons (by decide) (fun h => ?_)
    (Runs.guarded_cons (by decide) (fun h => ?_) trivial)))
  · exact absurd h (by decide)
  · exact absurd h (by decide)

/-- One byte at 0 and one at 4097: the file has three blocks and needs two. -/
theorem spare_block_after_gap :
    ¬ Runs.Along writeStep NoSpare [.openHandle, .write 0 [7] 0 false, .write 0 [8] 4097 false]
      (.create 0 (.blank [5, 6, 7, 8] (by decide) (by decide))) := by
  intro h
  have hend : (Runs.run writeStep [.openHandle, .write 0 [7] 0 false, .write 0 [8] 4097 false]
      (.create 0 (.blank [5, 6, 7, 8] (by decide) (by decide)))).map
      (fun f => decide (numAlignedBlocks f.ino.iBlocks ≤ ceilBlocks f.ino.iSize)) = some false := by
        decide
  obtain ⟨f, hrun, hbad⟩ := Option.map_eq_some_iff.mp hend
  exact absurd (h.last hrun).blocks (of_decide_eq_false hbad)

end NaiveFS
