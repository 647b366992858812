import NaiveFS.FileSound
import NaiveFS.WriteCount

/-!
# Writes behind the end of a file

The extending branch fills the gap block by block, adds a block when the size is
aligned, and seeks to the first block of the write. When the offset is aligned
too, the block it seeks to may be one that none of these allocations has
mapped. `SparseFits` says when this happens; otherwise a sparse write does what
it should.
-/

namespace NaiveFS

open PointerTree BlockLayer FlatBytes

/-- What a write of `buf` at `offset`, behind the end of `f`, should do. -/
structure SparseWritten (f : File) (buf : List UInt8) (offset : Nat) (r : Int) (f' : File) :
  Prop where
  ret : r = buf.length
  size : f'.ino.iSize = offset + buf.length
  mapped : ∀ k, k * 4096 < f'.ino.iSize → ∃ id, f'.blockOf k = some id ∧ (f'.store.data id).isSome ∧
    f'.Owns id
  gap : ∀ i, f.ino.iSize ≤ i → i < offset → f'.byteAt i = 0
  written : ∀ i, i < buf.length → f'.byteAt (offset + i) = buf.getD i 0
  kept : ∀ i, i < f.ino.iSize → f'.byteAt i = f.byteAt i
  others : ∀ id, (f.store.data id).isSome → ¬ f.Owns id → f'.store.data id = f.store.data id

/-- Where a write may start: not behind the end, or behind it with its first
block mapped in time. -/
def Fits (f : File) (o : Nat) : Prop :=
  o ≤ f.ino.iSize ∨ SparseFits f.ino.iSize (numAlignedBlocks f.ino.iBlocks) o

theorem FileOk.sparseWritten {f f' : File} {n n' : Nat} {loc loc' : Pos → Nat} {buf : List UInt8}
    {offset : Nat} (ok : FileOk f n loc) (ok' : FileOk f' n' loc')
    (hev : Evolves f.store loc n f'.store loc' n') (hoff : f.ino.iSize < offset)
    (hsz : f'.ino.iSize = offset + buf.length) (hbytes : f'.byteAt = patch f.byteAt offset buf) :
    SparseWritten f buf offset buf.length f' where
  ret := rfl
  size := hsz
  mapped k hk := ok'.mapped hk
  gap i hi hio := by
    rw [hbytes, patch_out _ (Or.inl hio), ok.data.byteAt_eq ok.lt]
    exact ok.data.tail i hi
  written i hi := by
    rw [hbytes, patch_in _ (Nat.le_add_right _ _) (Nat.add_lt_add_left hi _),
      Nat.add_sub_cancel_left]
  kept i hi := by
    rw [hbytes, patch_out _ (Or.inl (Nat.lt_trans hi hoff))]
  others id hid hno := by
    apply hev.other hid
    intro p hp hpid
    exact hno ((ok.data.owns_iff ok.lt id).mpr ⟨p, hp, hpid⟩)

theorem Prepared.first_eq {offset size n size' n' : Nat} (h : Prepared offset size n size' n')
    (hs : size ≤ 4096 * n) (hoff : size < offset) (hfit : ¬ SparseFits size n offset) :
    offset % 4096 = 0 ∧ n' = offset / 4096 := by
  obtain ⟨n₁, hg, rfl⟩ := h
  unfold GapFilled nextBound at hg
  unfold SparseFits ceilBlocks nextBound at hfit
  split <;> omega

/-- A sparse write that does not fit and still returns its size leaves its last
block unmapped. -/
theorem writeExtend_short {f f' : File} {c c' : Cursor} {buf : List UInt8} {offset n : Nat}
    {loc : Pos → Nat} {r : Int} (ok : FileOk f n loc) (hne : buf ≠ [])
    (hend : offset + buf.length ≤ 2 ^ 32 - 4096) (hoff : f.ino.iSize < offset)
    (hfit : ¬ SparseFits f.ino.iSize n offset)
    (hw : writeExtend f c buf offset = some (r, f', c')) (hfree : f'.store.free ≠ [])
    (hr : r = buf.length) :
    numAlignedBlocks f'.ino.iBlocks ≤ (offset + buf.length - 1) / 4096 := by
  have hlen : 0 < buf.length := List.length_pos_iff.mpr hne
  have hx := ok.count
  obtain ⟨okb, ino₁, s₁, hbefore, hfail, hdone⟩ :=
    allocBefore_spec (show offset < 2 ^ 32 - 4096 by omega) ok.data
    (by omega) (by unfold ceilBlocks at hx; omega)
  unfold writeExtend at hw
  rw [hbefore] at hw
  cases okb with
  | false =>
    simp only [Option.some.injEq, Prod.mk.injEq] at hw
    obtain ⟨-, rfl, -⟩ := hw
    exact absurd (hfail rfl) hfree
  | true =>
    obtain ⟨loc₁, n₁, w₁, hprep⟩ := hdone rfl
    obtain ⟨hal, rfl⟩ := hprep.first_eq ok.data.size hoff hfit
    have herr := seek_err ino₁ s₁ c (u32 (offset / 4096))
    rcases hs : seek ino₁ s₁ c (u32 (offset / 4096)) with ⟨err, c₂⟩
    rw [hs] at herr
    simp only [blockSize_eq, hs] at hw
    by_cases he : err = 0
    · subst he
      simp only [ne_eq, not_true_eq_false, ite_false] at hw
      generalize hcsz : min buf.length (4096 - offset % 4096) = csz at hw
      split at hw
      · have hcode := neg_einval_le
        simp only [Option.some.injEq, Prod.mk.injEq] at hw
        omega
      · rename_i f₂ hput
        have hino : f₂.ino = ino₁ := putBytes_ino hput
        simp only [Option.some.injEq] at hw
        have hcount := extendLoop_count buf.length (f₂.growTo (u64 (offset + csz))) c₂
          (u64 (offset + csz)) csz
          (buf.drop csz)
        rw [hw, List.length_drop] at hcount
        simp only [File.growTo, hino, numAlignedBlocks_eq, w₁.data.blocks] at hcount ⊢
        unfold ceilBlocks at hcount
        omega
    · -- the seek fails, and its error code is no size
      simp only [ne_eq, he, not_false_eq_true, ite_true, Option.some.injEq, Prod.mk.injEq] at hw
      simp only at herr
      omega

/-- A sparse write does what it should exactly when its first block is mapped in
time and its size is an `int`. -/
theorem sparse_write_iff {f : File} (hr : FileRun Fits f) (h offset : Nat) (buf : List UInt8)
    (hne : buf ≠ []) (hoff : f.ino.iSize < offset) (hend : offset + buf.length ≤ 2 ^ 32 - 4096)
    (hspace : ∀ r f', write f h buf offset false = some (r, f') → f'.store.free ≠ []) :
    (∃ r f', write f h buf offset false = some (r, f') ∧ SparseWritten f buf offset r f') ↔
      SparseFits f.ino.iSize (numAlignedBlocks f.ino.iBlocks) offset ∧ buf.length < 2 ^ 31 := by
  obtain ⟨n, loc, ok⟩ := hr.ok fun _ _ h => h
  rw [ok.data.numBlocks]
  constructor
  · rintro ⟨r, f', hw, hspec⟩
    have hlt := write_lt hw
    have hret := hspec.ret
    refine ⟨Classical.byContradiction fun hfit => ?_, by omega⟩
    have hfree := hspace r f' hw
    have hlen : 0 < buf.length := List.length_pos_iff.mpr hne
    unfold write at hw
    obtain ⟨c₁, hupd, -⟩ := updCache_spec ok.data.tree ok.lt (ok.cursor h)
    simp only [hupd, ne_eq, not_true_eq_false, ite_false, Bool.false_eq_true,
      u64_of_lt (show offset + buf.length < 2 ^ 64 by omega),
      if_pos (show f.ino.iSize < offset + buf.length by omega)] at hw
    cases hx : writeExtend f c₁ buf offset with
    | none => rw [hx] at hw; cases hw
    | some res =>
      obtain ⟨r₁, f₁, c₂⟩ := res
      simp only [hx, Option.some.injEq, Prod.mk.injEq] at hw
      obtain ⟨rfl, rfl⟩ := hw
      have hshort := writeExtend_short ok hne hend hoff hfit hx hfree hret
      -- the last block of the file is not among the mapped ones
      obtain ⟨id, hid, -⟩ :=
        hspec.mapped ((offset + buf.length - 1) / 4096) (by rw [hspec.size]; omega)
      unfold File.blockOf at hid
      rw [if_neg (by simp only [File.setCursor]; omega)] at hid
      cases hid
  · rintro ⟨hfit, hlt⟩
    obtain ⟨r, f', hw, hspec⟩ := write_spec ok h offset buf false hne hend (Or.inr hfit)
    obtain ⟨hret, hsz, loc', n', ok', hbytes, hev⟩ := hspec (hspace r f' hw)
    have hstart : f.start offset false = offset := rfl
    rw [hstart] at hsz hbytes
    refine ⟨r, f', hw, ?_⟩
    rw [hret, toInt32_of_lt hlt]
    exact ok.sparseWritten ok' hev hoff (by omega) hbytes

theorem sparse_write_iff_one : ∃ f, f = File.create 0 (.blank [5, 6] (by decide) (by decide)) ∧
    ∃ r f', write f 0 [7] 1 false = some (r, f') ∧ SparseWritten f [7] 1 r f' := by
  refine ⟨_, rfl, (sparse_write_iff (.create 0 _) 0 1 [7] (List.cons_ne_nil _ _) (by decide)
    (by decide) ?_).mpr
    ⟨Or.inl (by decide), by decide⟩⟩
  intro r f' hw hfree
  have h : (write (File.create 0 (.blank [5, 6] (by decide) (by decide))) 0 [7] 1 false).map
      (fun r => r.2.store.free) = some [6] := by decide
  rw [hw, Option.map_some, hfree] at h
  cases h

/-- One byte at offset 4096 of an empty file: the block at index 0, which belongs
to someone else, is written instead of a block of the file. -/
theorem sparse_write_hits_block_zero : ∃ f r f', FileRun Fits f ∧ f.ino.iSize < 4096 ∧
    write f 0 [7] 4096 false = some (r, f') ∧ f'.store.free ≠ [] ∧
      ¬ SparseWritten f [7] 4096 r f' := by
  let s : BlockStore :=
    { data := fun i => if i = 0 then some Bytes.zero else none, free := [5, 6], nodup := by decide,
      fresh := by decide, lt := by decide }
  have h : (write (File.create 0 s) 0 [7] 4096 false).map (fun r => (r.2.store.free,
    (r.2.store.data 0).map (·.byte 0))) =
      some ([6], some 7) := by decide
  cases hw : write (File.create 0 s) 0 [7] 4096 false with
  | none => rw [hw] at h; cases h
  | some res =>
    obtain ⟨r, f'⟩ := res
    rw [hw] at h
    simp only [Option.map_some, Option.some.injEq, Prod.mk.injEq] at h
    refine ⟨File.create 0 s, r, f', .create 0 s, by decide,
      hw, by rw [h.1]; exact List.cons_ne_nil _ _, fun hspec => ?_⟩
    have hother := hspec.others 0 rfl ?_
    · rw [hother] at h
      cases h.2
    · rintro ⟨p, hp, -⟩
      cases p <;> simp [Live, File.create, Inode.init] at hp

end NaiveFS
