import Mathlib.Algebra.Ring.Int.Defs
import Mathlib.Algebra.Ring.Nat
import Mathlib.Data.Nat.Basic
import Mathlib.Data.List.GetD

/-!
# Fixed-size byte blocks

A block of `n` bytes, the copy of a buffer into it at an offset, the block a list
of bytes makes up, and the little-endian 32-bit words it can be read as. `word_setWord` and
`word_setWord_ne` are all a pointer table needs to know about its bytes.
-/

abbrev Bytes (n : Nat) := Fin n → UInt8

namespace Bytes

variable {n i j k : Nat}

def zero : Bytes n := fun _ => 0

/-- Byte `i`; positions past the end read as 0. -/
def byte (b : Bytes n) (i : Nat) : UInt8 := if h : i < n then b ⟨i, h⟩ else 0

/-- Copy `buf` into the block from offset `off` on. -/
def splice (b : Bytes n) (off : Nat) (buf : List UInt8) : Bytes n := fun i =>
  if off ≤ i.val ∧ i.val < off + buf.length then buf.getD (i.val - off) 0 else b i

/-- The `k`-th little-endian 32-bit word. -/
def word (b : Bytes n) (k : Nat) : Nat :=
  (b.byte (4 * k)).toNat + 256 * (b.byte (4 * k + 1)).toNat +
    65536 * (b.byte (4 * k + 2)).toNat + 16777216 * (b.byte (4 * k + 3)).toNat

def leBytes (v : Nat) : List UInt8 :=
  [UInt8.ofNat v, UInt8.ofNat (v / 256), UInt8.ofNat (v / 65536), UInt8.ofNat (v / 16777216)]

def setWord (b : Bytes n) (k v : Nat) : Bytes n := b.splice (4 * k) (leBytes v)

/-- Words `k + w` set to `v` for the pairs `(w, v)` in turn. -/
def setWords (b : Bytes n) (k : Nat) (ws : List (Nat × Nat)) : Bytes n :=
  ws.foldl (fun b e => b.setWord (k + e.1) e.2) b

/-- The block that starts with these bytes and is zero behind them. -/
def ofList (l : List UInt8) : Bytes n := fun i => l.getD i.val 0

/-- The length of the string the block starts with, if it ends in the block. -/
def strlen (b : Bytes n) : Option Nat := (List.range n).find? fun i => b.byte i == 0

def ofWords (f : Nat → Nat) : Bytes n := fun i => (leBytes (f (i.val / 4))).getD (i.val % 4) 0

@[simp] theorem byte_zero (i : Nat) : (zero : Bytes n).byte i = 0 := by
  unfold byte; split <;> rfl

@[simp] theorem word_zero (k : Nat) : (zero : Bytes n).word k = 0 := by simp [word]

theorem byte_splice (b : Bytes n) (off : Nat) (buf : List UInt8) (hi : i < n) :
    (b.splice off buf).byte i =
      if off ≤ i ∧ i < off + buf.length then buf.getD (i - off) 0 else b.byte i := by
  simp [byte, splice, hi]

theorem byte_splice_in (b : Bytes n) {off : Nat} {buf : List UInt8} (hi : i < n) (h1 : off ≤ i)
    (h2 : i < off + buf.length) : (b.splice off buf).byte i = buf.getD (i - off) 0 := by
  rw [byte_splice b off buf hi, if_pos ⟨h1, h2⟩]

theorem byte_splice_out (b : Bytes n) {off : Nat} {buf : List UInt8}
    (h : i < off ∨ off + buf.length ≤ i) : (b.splice off buf).byte i = b.byte i := by
  by_cases hi : i < n
  · rw [byte_splice b off buf hi, if_neg (by omega)]
  · simp [byte, hi]

theorem byte_ofList {l : List UInt8} (hl : l.length ≤ n) (i : Nat) :
    (ofList l : Bytes n).byte i = l.getD i 0 := by
  unfold byte
  split
  · rfl
  · rw [List.getD_eq_default _ _ (by omega)]

theorem ofList_nil : (ofList [] : Bytes n) = zero := by
  funext i
  simp [ofList, zero]

theorem splice_ofList (a b c m : List UInt8) (hm : m.length = b.length) :
    (ofList (a ++ b ++ c) : Bytes n).splice a.length m = ofList (a ++ m ++ c) := by
  funext i
  unfold splice ofList
  by_cases hin : a.length ≤ i.val ∧ i.val < a.length + m.length
  · rw [if_pos hin, List.getD_append _ _ _ _ (by simp; omega), List.getD_append_right _ _ _ _ hin.1]
  · rw [if_neg hin]
    by_cases hlow : i.val < a.length
    · rw [List.append_assoc, List.append_assoc, List.getD_append _ _ _ _ hlow,
        List.getD_append _ _ _ _ hlow]
    · rw [List.getD_append_right _ _ _ _ (by simp; omega),
        List.getD_append_right _ _ _ _ (by simp; omega)]
      simp [hm]

theorem splice_ofList_length (l m : List UInt8) :
    (ofList l : Bytes n).splice l.length m = ofList (l ++ m) := by
  funext i
  unfold splice ofList
  by_cases hlow : i.val < l.length
  · rw [if_neg (by omega), List.getD_append _ _ _ _ hlow]
  · rw [List.getD_append_right _ _ _ _ (by omega)]
    split
    · rfl
    · rw [List.getD_eq_default _ _ (by omega), List.getD_eq_default _ _ (by omega)]

theorem byte_ofList_mid {a b c : List UInt8} (hl : (a ++ b ++ c).length ≤ n) (hj : j < b.length) :
    (ofList (a ++ b ++ c) : Bytes n).byte (a.length + j) = b.getD j 0 := by
  rw [byte_ofList hl, List.getD_append _ _ _ _ (by simp; omega),
    List.getD_append_right _ _ _ _ (by omega), Nat.add_sub_cancel_left]

theorem strlen_ofList {l : List UInt8} (hl : l.length < n) (hnul : 0 ∉ l) :
    (ofList l : Bytes n).strlen = some l.length := by
  unfold strlen
  rw [List.find?_range_eq_some]
  refine ⟨?_, List.mem_range.mpr hl, fun j hj => ?_⟩
  · simp [byte_ofList (Nat.le_of_lt hl)]
  · rw [byte_ofList (Nat.le_of_lt hl), List.getD_eq_getElem _ _ hj]
    have hne : l[j] ≠ 0 := fun hc => hnul (hc ▸ List.getElem_mem hj)
    simpa using hne

theorem word_out (b : Bytes n) (hk : n ≤ 4 * k) : b.word k = 0 := by
  have hb : ∀ i, 4 * k ≤ i → b.byte i = 0 := fun i hi => dif_neg (by omega)
  unfold word
  rw [hb _ (Nat.le_refl _), hb _ (by omega), hb _ (by omega), hb _ (by omega)]
  rfl

theorem word_ofWords (f : Nat → Nat) (hk : 4 * k + 3 < n) :
    (ofWords f : Bytes n).word k = f k % 2 ^ 32 := by
  have hb : ∀ j < 4, (ofWords f : Bytes n).byte (4 * k + j) = (leBytes (f k)).getD j 0 := by
    intro j hj
    unfold byte ofWords
    rw [dif_pos (by omega), show (4 * k + j) / 4 = k by omega, show (4 * k + j) % 4 = j by omega]
  have h0 := hb 0 (by omega)
  rw [Nat.add_zero] at h0
  unfold word
  rw [h0, hb 1 (by omega), hb 2 (by omega), hb 3 (by omega)]
  simp only [leBytes, List.getD_cons_zero, List.getD_cons_succ, UInt8.toNat_ofNat']
  omega

theorem word_setWord_mod (b : Bytes n) (v : Nat) (hk : 4 * k + 3 < n) :
    (b.setWord k v).word k = v % 2 ^ 32 := by
  have hb : ∀ j < 4, (b.setWord k v).byte (4 * k + j) = (leBytes v).getD j 0 := by
    intro j hj
    unfold setWord
    rw [byte_splice_in b (by omega) (by omega) (by simp [leBytes]; omega), Nat.add_sub_cancel_left]
  have h0 := hb 0 (by omega)
  rw [Nat.add_zero] at h0
  unfold word
  rw [h0, hb 1 (by omega), hb 2 (by omega), hb 3 (by omega)]
  simp only [leBytes, List.getD_cons_zero, List.getD_cons_succ, UInt8.toNat_ofNat']
  omega

theorem word_setWord (b : Bytes n) {v : Nat} (hk : 4 * k + 3 < n) (hv : v < 2 ^ 32) :
    (b.setWord k v).word k = v := by
  rw [b.word_setWord_mod v hk, Nat.mod_eq_of_lt hv]

theorem word_setWord_ne (b : Bytes n) (v : Nat) (h : j ≠ k) :
    (b.setWord k v).word j = b.word j := by
  have hb : ∀ i < 4, (b.setWord k v).byte (4 * j + i) = b.byte (4 * j + i) := by
    intro i hi
    unfold setWord
    exact byte_splice_out b (by simp [leBytes]; omega)
  have h0 := hb 0 (by omega)
  rw [Nat.add_zero] at h0
  unfold word
  rw [h0, hb 1 (by omega), hb 2 (by omega), hb 3 (by omega)]

theorem word_setWords_out : ∀ {ws : List (Nat × Nat)} (b : Bytes n), (∀ e ∈ ws, j ≠ k + e.1) →
    (b.setWords k ws).word j = b.word j := by
  intro ws
  induction ws with
  | nil => exact fun _ _ => rfl
  | cons e ws ih =>
    intro b h
    rw [setWords, List.foldl_cons, ← setWords, ih _ fun e' he' => h e' (List.mem_cons_of_mem e he')]
    exact word_setWord_ne b e.2 (h e List.mem_cons_self)

theorem word_setWords : ∀ {ws : List (Nat × Nat)} (b : Bytes n), (ws.map Prod.fst).Nodup →
    (∀ e ∈ ws, 4 * (k + e.1) + 3 < n) → ∀ e ∈ ws, (b.setWords k ws).word (k + e.1) =
      e.2 % 2 ^ 32 := by
  intro ws
  induction ws with
  | nil =>
    intro b _ _ e he
    cases he
  | cons e ws ih =>
    intro b hnd hlt e' he'
    rw [List.map_cons, List.nodup_cons] at hnd
    rw [setWords, List.foldl_cons, ← setWords]
    rcases List.mem_cons.mp he' with rfl | he'
    · rw [word_setWords_out, word_setWord_mod b e'.2 (hlt e' List.mem_cons_self)]
      intro f hf heq
      exact hnd.1 (List.mem_map.mpr ⟨f, hf, Nat.add_left_cancel heq.symm⟩)
    · exact ih _ hnd.2 (fun f hf => hlt f (List.mem_cons_of_mem e hf)) e' he'

end Bytes
