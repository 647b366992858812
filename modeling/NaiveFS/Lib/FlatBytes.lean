import NaiveFS.Lib.Bytes
import Mathlib.Logic.Function.Basic
import Mathlib.Data.List.GetD

/-!
# Flat contents over blocks

Contents as one unbounded byte sequence, the replacement of a range of it
(`patch`), and the sequence a family of equally sized blocks makes up (`flat`).
A copy into one block is a patch of the flat contents (`flat_splice`).
-/

namespace FlatBytes

/-- The contents `v` with the bytes from `o` on replaced by `buf`. -/
def patch (v : Nat → UInt8) (o : Nat) (buf : List UInt8) : Nat → UInt8 := fun i =>
  if o ≤ i ∧ i < o + buf.length then buf.getD (i - o) 0 else v i

theorem patch_nil (v : Nat → UInt8) (o : Nat) : patch v o [] = v := by
  funext i
  unfold patch
  rw [List.length_nil, Nat.add_zero, if_neg (by omega)]

theorem patch_in (v : Nat → UInt8) {o i : Nat} {buf : List UInt8} (h : o ≤ i)
    (h' : i < o + buf.length) :
    patch v o buf i = buf.getD (i - o) 0 := if_pos ⟨h, h'⟩

theorem patch_out (v : Nat → UInt8) {o i : Nat} {buf : List UInt8}
    (h : i < o ∨ o + buf.length ≤ i) :
    patch v o buf i = v i := if_neg (by omega)

theorem patch_append (v : Nat → UInt8) (o : Nat) (a b : List UInt8) :
    patch (patch v o a) (o + a.length) b = patch v o (a ++ b) := by
  funext i
  by_cases hb : o + a.length ≤ i ∧ i < o + a.length + b.length
  · rw [patch_in _ hb.1 hb.2, patch_in _ (by omega) (by rw [List.length_append]; omega),
      List.getD_append_right _ _ _ _ (by omega), Nat.sub_add_eq]
  · rw [patch_out _ (by omega)]
    by_cases ha : o ≤ i ∧ i < o + a.length
    · rw [patch_in _ ha.1 ha.2, patch_in _ ha.1 (by rw [List.length_append]; omega),
        List.getD_append _ _ _ _ (by omega)]
    · rw [patch_out _ (by omega), patch_out _ (by rw [List.length_append]; omega)]

theorem patch_split (v : Nat → UInt8) (o : Nat) {c : Nat} {buf : List UInt8} (hc : c ≤ buf.length) :
    patch (patch v o (buf.take c)) (o + c) (buf.drop c) = patch v o buf := by
  have h := patch_append v o (buf.take c) (buf.drop c)
  rwa [List.take_append_drop, List.length_take, Nat.min_eq_left hc] at h

variable {B : Nat}

/-- The contents that the blocks `blk 0, blk 1, …` make up. -/
def flat (blk : Nat → Bytes B) : Nat → UInt8 := fun i => (blk (i / B)).byte (i % B)

theorem flat_splice (hB : 0 < B) (blk : Nat → Bytes B) (k : Nat) {off : Nat} {buf : List UInt8}
    (h : off + buf.length ≤ B) :
    flat (Function.update blk k ((blk k).splice off buf)) = patch (flat blk) (B * k + off) buf := by
  funext i
  have hi := Nat.div_add_mod i B
  have hlt := Nat.mod_lt i hB
  unfold flat
  by_cases hk : i / B = k
  · rw [hk] at hi
    rw [hk, Function.update_self]
    by_cases hin : off ≤ i % B ∧ i % B < off + buf.length
    · rw [Bytes.byte_splice_in _ hlt hin.1 hin.2, patch_in _ (by omega) (by omega)]
      congr 1
      omega
    · rw [Bytes.byte_splice_out _ (by omega), patch_out _ (by omega), hk]
  · rw [Function.update_of_ne hk]
    show flat blk i = _
    refine (patch_out _ ?_).symm
    rcases Nat.lt_or_gt_of_ne hk with hlt' | hgt
    · have := Nat.mul_le_mul_left B (show i / B + 1 ≤ k from hlt')
      rw [Nat.mul_add, Nat.mul_one] at this
      omega
    · have := Nat.mul_le_mul_left B (show k + 1 ≤ i / B from hgt)
      rw [Nat.mul_add, Nat.mul_one] at this
      omega

end FlatBytes
