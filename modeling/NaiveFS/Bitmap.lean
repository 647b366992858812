import Mathlib.Data.Nat.Count
import Mathlib.Tactic.Common

/-!
# Bitmaps

`Bitmap` of `utils/bitmap.cpp`: bits stored in 32-bit words, with the search
for the first clear bit word by word. `find_some` and `find_none` are what the
allocators use of it.
-/

namespace NaiveFS

/-- The words of a bitmap block. -/
structure Bitmap where
  data : Nat → BitVec 32

namespace Bitmap

def bitShift : Nat := 5
def bitMask : Nat := 31

/-- `BIT_GET`. -/
def bitGet (i : Nat) : BitVec 32 := 1#32 <<< (i &&& bitMask)

def zero : Bitmap := ⟨fun _ => 0⟩

def set (b : Bitmap) (i : Nat) : Bitmap :=
  ⟨Function.update b.data (i >>> bitShift) (b.data (i >>> bitShift) ||| bitGet i)⟩

def test (b : Bitmap) (i : Nat) : Bool := b.data (i >>> bitShift) &&& bitGet i != 0

def clear (b : Bitmap) (i : Nat) : Bitmap :=
  ⟨Function.update b.data (i >>> bitShift) (b.data (i >>> bitShift) &&& ~~~bitGet i)⟩

/-- The inner loop of `find`: `cur_bits` is an `int`, so the shift is
arithmetic. A word has 32 bits, hence the fuel of its caller. -/
def skipOnes : Nat → BitVec 32 → Nat → Nat
  | 0, _, k => k
  | n + 1, curBits, k => if curBits &&& 1 != 0 then
    skipOnes n (curBits.sshiftRight 1) (k + 1) else k

/-- The outer loop of `find`, at word `i` with `n` words left. -/
def findFrom (b : Bitmap) (size i : Nat) : Nat → Option Nat
  | 0 => none
  | n + 1 =>
    if b.data i != BitVec.allOnes 32 then
      let ret := (i <<< bitShift) + skipOnes 32 (b.data i) 0
      if ret ≥ size then none else some ret
    else findFrom b size (i + 1) n

/-- The first clear bit below `size`; `none` stands for -1. -/
def find (b : Bitmap) (size : Nat) : Option Nat :=
  b.findFrom size 0 ((size >>> bitShift) + if size &&& bitMask != 0 then 1 else 0)

/-- `BitmapBlock::alloc_new`, over the bits of one block. -/
def allocNew (b : Bitmap) (bits : Nat) : Option (Nat × Bitmap) :=
  (b.find bits).map fun i => (i, b.set i)

/-- The number of set bits below `n`. -/
def count (b : Bitmap) (n : Nat) : Nat := Nat.count (fun i => b.test i = true) n

/-! ## Single bits -/

theorem shiftRight_bitShift (i : Nat) : i >>> bitShift = i / 32 := Nat.shiftRight_eq_div_pow i 5

theorem and_bitMask (i : Nat) : i &&& bitMask = i % 32 := Nat.and_two_pow_sub_one_eq_mod i 5

theorem test_eq (b : Bitmap) (i : Nat) : b.test i = (b.data (i / 32)).getLsbD (i % 32) := by
  have h := BitVec.and_twoPow (b.data (i / 32)) (i % 32)
  have hne : BitVec.twoPow 32 (i % 32) ≠ 0#32 := by
    intro h0
    have h1 := congrArg (fun v => v.getLsbD (i % 32)) h0
    simp [Nat.mod_lt] at h1
  unfold test bitGet
  rw [shiftRight_bitShift, and_bitMask, ← BitVec.twoPow_eq, h]
  cases (b.data (i / 32)).getLsbD (i % 32) <;> simp [hne]

theorem getLsbD_bitGet (i k : Nat) : (bitGet i).getLsbD k = decide (i % 32 = k) := by
  unfold bitGet
  rw [and_bitMask, ← BitVec.twoPow_eq, BitVec.getLsbD_twoPow]
  simp [Nat.mod_lt]

@[simp] theorem test_zero (i : Nat) : zero.test i = false := by
  rw [test_eq]
  exact BitVec.getLsbD_zero

theorem test_set (b : Bitmap) (i j : Nat) : (b.set i).test j = (decide (i = j) || b.test j) := by
  rw [test_eq, test_eq]
  simp only [set, shiftRight_bitShift]
  by_cases hw : j / 32 = i / 32
  · rw [hw, Function.update_self, BitVec.getLsbD_or, getLsbD_bitGet, Bool.or_comm]
    congr 1
    exact decide_eq_decide.mpr ⟨fun h => by omega, fun h => by rw [h]⟩
  · rw [Function.update_of_ne hw]
    have hij : i ≠ j := fun h => hw (by rw [h])
    simp [hij]

theorem test_clear (b : Bitmap) (i j : Nat) :
    (b.clear i).test j = (b.test j && !decide (i = j)) := by
  rw [test_eq, test_eq]
  simp only [clear, shiftRight_bitShift]
  have hlt := Nat.mod_lt j (show 32 > 0 by omega)
  by_cases hw : j / 32 = i / 32
  · rw [hw, Function.update_self, BitVec.getLsbD_and, BitVec.getLsbD_not, getLsbD_bitGet]
    have heq : decide (i % 32 = j % 32) = decide (i = j) :=
      decide_eq_decide.mpr ⟨fun h => by omega, fun h => by rw [h]⟩
    simp [heq, hlt]
  · rw [Function.update_of_ne hw]
    have hij : i ≠ j := fun h => hw (by rw [h])
    simp [hij]

@[simp] theorem test_set_self (b : Bitmap) (i : Nat) : (b.set i).test i = true := by simp [test_set]

theorem test_set_ne (b : Bitmap) {i j : Nat} (h : j ≠ i) : (b.set i).test j = b.test j := by
  simp [test_set, Ne.symm h]

@[simp] theorem test_clear_self (b : Bitmap) (i : Nat) : (b.clear i).test i = false :=
  by simp [test_clear]

theorem test_clear_ne (b : Bitmap) {i j : Nat} (h : j ≠ i) : (b.clear i).test j = b.test j := by
  simp [test_clear, Ne.symm h]

/-! ## The search -/

theorem and_one_ne_zero (v : BitVec 32) : (v &&& 1 != 0) = v.getLsbD 0 := by
  have h := BitVec.and_twoPow v 0
  rw [BitVec.twoPow_eq, BitVec.shiftLeft_zero] at h
  change (v &&& 1#32 != 0#32) = _
  rw [h]
  cases v.getLsbD 0 <;> rfl

theorem skipOnes_spec (w : BitVec 32) :
    ∀ (n k : Nat), n + k = 32 → (∀ j < k, w.getLsbD j = true) → w ≠ BitVec.allOnes 32 →
      ∃ r < 32, skipOnes n (w.sshiftRight k) k = r ∧ w.getLsbD r = false ∧
      ∀ j < r, w.getLsbD j = true := by
  intro n
  induction n with
  | zero =>
    intro k hk hall hne
    refine absurd (BitVec.eq_of_getLsbD_eq fun i hi => ?_) hne
    rw [hall i (by omega), BitVec.getLsbD_allOnes]
    simp [hi]
  | succ n ih =>
    intro k hk hall hne
    have hbit : (w.sshiftRight k).getLsbD 0 = w.getLsbD k := by
      rw [BitVec.getLsbD_sshiftRight]
      simp [show k < 32 by omega]
    unfold skipOnes
    rw [and_one_ne_zero, hbit]
    cases hw : w.getLsbD k with
    | false => exact ⟨k, by omega, rfl, hw, hall⟩
    | true =>
      rw [if_pos rfl, ← BitVec.sshiftRight_add]
      refine ih (k + 1) (by omega) (fun j hj => ?_) hne
      rcases Nat.lt_succ_iff_lt_or_eq.mp hj with h | rfl
      · exact hall j h
      · exact hw

theorem test_of_allOnes {b : Bitmap} {i j : Nat} (h : b.data i = BitVec.allOnes 32)
    (hj : j / 32 = i) :
    b.test j = true := by
  rw [test_eq, hj, h, BitVec.getLsbD_allOnes]
  simp [Nat.mod_lt]

/-- One round of the outer loop: the word is full, or its first clear bit is
the first clear bit of the bitmap. -/
theorem word_spec (b : Bitmap) (i : Nat) (hfull : ∀ j < 32 * i, b.test j = true)
    (h : b.data i ≠ BitVec.allOnes 32) :
    ∃ r, (i <<< bitShift) + skipOnes 32 (b.data i) 0 = r ∧ r < 32 * (i + 1) ∧
      b.test r = false ∧ ∀ j < r, b.test j = true := by
  obtain ⟨r, hr, hskip, hclear, hset⟩ := skipOnes_spec (b.data i) 32 0 rfl (by omega) h
  rw [BitVec.sshiftRight_zero] at hskip
  have hshift : i <<< bitShift = 32 * i := by
    rw [Nat.shiftLeft_eq, Nat.mul_comm]; rfl
  refine ⟨32 * i + r, by rw [hskip, hshift], by omega, ?_, fun j hj => ?_⟩
  · rw [test_eq, show (32 * i + r) / 32 = i by omega, show (32 * i + r) % 32 = r by omega]
    exact hclear
  · rcases Nat.lt_or_ge j (32 * i) with hlt | hge
    · exact hfull j hlt
    · rw [test_eq, show j / 32 = i by omega]
      exact hset _ (by omega)

theorem findFrom_spec (b : Bitmap) (size : Nat) :
    ∀ (n i : Nat), size ≤ 32 * (i + n) → (∀ j < 32 * i, b.test j = true) →
      match b.findFrom size i n with
      | some r => r < size ∧ b.test r = false ∧ ∀ j < r, b.test j = true
      | none => ∀ j < size, b.test j = true := by
  intro n
  induction n with
  | zero => intro i hsize hfull j hj; exact hfull j (by omega)
  | succ n ih =>
    intro i hsize hfull
    unfold findFrom
    by_cases hw : b.data i = BitVec.allOnes 32
    · rw [if_neg (by simp [hw])]
      refine ih (i + 1) (by omega) fun j hj => ?_
      rcases Nat.lt_or_ge j (32 * i) with hlt | hge
      · exact hfull j hlt
      · exact test_of_allOnes hw (by omega)
    · obtain ⟨r, hr, -, hclear, hset⟩ := word_spec b i hfull hw
      simp only [hr, bne_iff_ne, ne_eq, hw, not_false_eq_true, if_true]
      by_cases hge : r ≥ size
      · simp only [hge, if_true]
        exact fun j hj => hset j (by omega)
      · simp only [hge, if_false]
        exact ⟨by omega, hclear, hset⟩

theorem find_spec (b : Bitmap) (size : Nat) :
    match b.find size with
    | some r => r < size ∧ b.test r = false ∧ ∀ j < r, b.test j = true
    | none => ∀ j < size, b.test j = true := by
  refine findFrom_spec b size _ 0 ?_ (by omega)
  rw [shiftRight_bitShift, and_bitMask]
  split
  · omega
  · rename_i h
    simp only [bne_iff_ne, ne_eq, Decidable.not_not] at h
    omega

theorem find_some {b : Bitmap} {size r : Nat} (h : b.find size = some r) :
    r < size ∧ b.test r = false ∧ ∀ j < r, b.test j = true := by
  have := find_spec b size
  rwa [h] at this

theorem find_none {b : Bitmap} {size : Nat} (h : b.find size = none) :
    ∀ j < size, b.test j = true := by
  have := find_spec b size
  rwa [h] at this

/-! ## Counting -/

@[simp] theorem count_zero (n : Nat) : zero.count n = 0 := by
  unfold count
  rw [Nat.count_iff_forall_not]
  simp

theorem count_le (b : Bitmap) (n : Nat) : b.count n ≤ n := Nat.count_le _

theorem count_of_set {b c : Bitmap} {r n : Nat} (hr : r < n) (hb : b.test r = false)
    (hc : c.test r = true) (hne : ∀ j, j ≠ r → c.test j = b.test j) :
    c.count n = b.count n + 1 := by
  unfold count
  rw [Nat.count_eq_card_filter_range, Nat.count_eq_card_filter_range]
  have hins : (Finset.range n).filter (fun i => c.test i = true) =
      insert r ((Finset.range n).filter fun i => b.test i = true) := by
    ext j
    by_cases hj : j = r
    · subst hj; simp [hr, hc]
    · simp [hj, hne j hj]
  rw [hins, Finset.card_insert_of_notMem]
  simp [hb]

theorem count_set {b : Bitmap} {r n : Nat} (hr : r < n) (hb : b.test r = false) :
    (b.set r).count n = b.count n + 1 :=
  count_of_set hr hb (test_set_self b r) fun _ h => test_set_ne b h

theorem count_clear {b : Bitmap} {r n : Nat} (hr : r < n) (hb : b.test r = true) :
    (b.clear r).count n + 1 = b.count n :=
  (count_of_set hr (test_clear_self b r) hb fun _ h => (test_clear_ne b h).symm).symm

theorem find_of_count_lt {b : Bitmap} {n : Nat} (h : b.count n < n) : ∃ r, b.find n = some r := by
  cases hf : b.find n with
  | some r => exact ⟨r, rfl⟩
  | none =>
    have hall := find_none hf
    have : b.count n = n := by
      unfold count
      rw [Nat.count_iff_forall]
      exact hall
    omega

end Bitmap

end NaiveFS
