import Mathlib.Data.Finset.Range
import NaiveFS.BlockGroups
import NaiveFS.Lib.Runs

/-!
# The bitmap search on a buffer

`Bitmap::find` over a buffer of finite length, in the `int`s of the code: an
access outside the buffer, or a scan that does not stop, has no result.
`find_eq` reduces it to `Bitmap.find`; `Session` follows the calls of
`alloc_new` and `clear` on one bitmap block.
-/

namespace NaiveFS

/-- The buffer `data_` points at. -/
abbrev Words := List (BitVec 32)

/-- A value as an `int`. -/
def int32 (n : Nat) : Int := (BitVec.ofNat 32 n).toInt

namespace Words

open Bitmap (bitShift bitMask bitGet)

def test (w : Words) (i : Nat) : Option Bool := w[i >>> bitShift]?.map fun v => v &&& bitGet i != 0

def set (w : Words) (i : Nat) : Option Words :=
  w[i >>> bitShift]?.map fun v => List.set w (i >>> bitShift) (v ||| bitGet i)

def clear (w : Words) (i : Nat) : Option Words :=
  w[i >>> bitShift]?.map fun v => List.set w (i >>> bitShift) (v &&& ~~~bitGet i)

/-- `while (cur_bits & 1)`, with an arithmetic shift. -/
def skipOnes : Nat → BitVec 32 → Nat → Option Nat
  | 0, _, _ => none
  | n + 1, curBits, k => if curBits &&& 1 != 0 then skipOnes n (curBits.sshiftRight 1) (k + 1) else
    some k

/-- The loop of `find` at word `i` with `n` words left. -/
def findFrom (fuel : Nat) (w : Words) (size i : Nat) : Nat → Option Int
  | 0 => some (-1)
  | n + 1 =>
    w[i]?.bind fun v =>
      if v != BitVec.allOnes 32 then
        (skipOnes fuel v 0).map fun k =>
          let ret := int32 ((i <<< bitShift) + k)
          if ret ≥ size then -1 else ret
      else findFrom fuel w size (i + 1) n

def find (fuel : Nat) (w : Words) (size : Nat) : Option Int :=
  findFrom fuel w size 0 ((size >>> bitShift) + if size &&& bitMask != 0 then 1 else 0)

/-- `BitmapBlock::alloc_new`. -/
def allocNew (fuel : Nat) (w : Words) : Option (Int × Words) :=
  (find fuel w bitmapBits).bind fun i => if i < 0 then some (i, w) else (w.set i.toNat).map (i, ·)

/-- The buffer as the bitmap of the model. -/
def view (w : Words) : Bitmap := ⟨fun i => w.getD i 0⟩

variable {w : Words} {i j n size fuel : Nat}

/-! ## Single bits -/

theorem getElem?_view (h : i < 32 * w.length) :
    w[i >>> bitShift]? = some (w.view.data (i >>> bitShift)) := by
  have hlt : i >>> bitShift < w.length := by
    rw [Bitmap.shiftRight_bitShift]
    omega
  simp [view, List.getD, hlt]

theorem test_eq (h : i < 32 * w.length) : w.test i = some (w.view.test i) := by
  rw [test, getElem?_view h]
  rfl

theorem test_past (h : 32 * w.length ≤ i) : w.test i = none := by
  have hle : w.length ≤ i >>> bitShift := by
    rw [Bitmap.shiftRight_bitShift]
    omega
  simp [test, hle]

theorem view_set {v : BitVec 32} (h : i < 32 * w.length) :
    view (List.set w (i >>> bitShift) v) = ⟨Function.update w.view.data (i >>> bitShift) v⟩ := by
  have hlt : i >>> bitShift < w.length := by
    rw [Bitmap.shiftRight_bitShift]
    omega
  unfold view
  congr 1
  funext k
  by_cases hk : k = i >>> bitShift
  · subst hk
    simp [List.getD, hlt]
  · rw [Function.update_of_ne hk]
    simp [List.getD, Ne.symm hk]

theorem set_eq (h : i < 32 * w.length) :
    ∃ w', w.set i = some w' ∧ w'.length = w.length ∧ w'.view = w.view.set i := by
  rw [set, getElem?_view h]
  exact ⟨_, rfl, List.length_set, view_set h⟩

theorem clear_eq (h : i < 32 * w.length) :
    ∃ w', w.clear i = some w' ∧ w'.length = w.length ∧ w'.view = w.view.clear i := by
  rw [clear, getElem?_view h]
  exact ⟨_, rfl, List.length_set, view_set h⟩

theorem test_update {w' : Words} {b : Bool} (h : i < 32 * w.length) (hlen : w'.length = w.length)
    (hself : w'.view.test i = b) (hne : ∀ j ≠ i, w'.view.test j = w.view.test j) (j : Nat) :
    w'.test j = if j = i then some b else w.test j := by
  by_cases hj : j < 32 * w.length
  · rw [test_eq hj, test_eq (hlen ▸ hj)]
    by_cases hji : j = i
    · rw [if_pos hji, hji, hself]
    · rw [if_neg hji, hne j hji]
  · rw [test_past (by omega), test_past (by omega), if_neg (by omega)]

/-! ## The search -/

theorem skipOnes_eq {v : BitVec 32} {r : Nat} (hr : r < 32) (hclear : v.getLsbD r = false)
    (hset : ∀ j < r, v.getLsbD j = true) :
    ∀ n k, k ≤ r → r < k + n → skipOnes n (v.sshiftRight k) k = some r := by
  intro n
  induction n with
  | zero => intro k hk hn; omega
  | succ n ih =>
    intro k hk hn
    have hbit : (v.sshiftRight k).getLsbD 0 = v.getLsbD k := by
      rw [BitVec.getLsbD_sshiftRight]
      simp [show k < 32 by omega]
    rw [skipOnes, Bitmap.and_one_ne_zero, hbit]
    by_cases hkr : k = r
    · subst hkr
      simp [hclear]
    · rw [if_pos (hset k (by omega)), ← BitVec.sshiftRight_add]
      exact ih (k + 1) (by omega) (by omega)

theorem int32_eq (h : n < 2 ^ 31) : int32 n = n := by
  unfold int32
  rw [BitVec.toInt_eq_toNat_of_lt, BitVec.toNat_ofNat, Nat.mod_eq_of_lt (by omega)]
  rw [BitVec.toNat_ofNat, Nat.mod_eq_of_lt (by omega)]
  omega

/-- The result of `find` in the model as the code returns it. -/
def encode : Option Nat → Int
  | none => -1
  | some i => i

theorem findFrom_eq (hf : 32 ≤ fuel) (hs : size < 2 ^ 31) :
    ∀ n i, i + n ≤ w.length → 32 * (i + n) < size + 32 →
      findFrom fuel w size i n = some (encode (w.view.findFrom size i n)) := by
  intro n
  induction n with
  | zero => intro i _ _; rfl
  | succ n ih =>
    intro i hi hn
    have hget : w[i]? = some (w.view.data i) := by
      simp [view, List.getD, show i < w.length by omega]
    rw [findFrom, Bitmap.findFrom, hget, Option.bind_some]
    by_cases hv : w.view.data i = BitVec.allOnes 32
    · rw [if_neg (by simp [hv]), if_neg (by simp [hv])]
      exact ih (i + 1) (by omega) (by omega)
    · obtain ⟨r, hr, hskip, hclear, hset⟩ :=
        Bitmap.skipOnes_spec (w.view.data i) 32 0 rfl (by omega) hv
      have hskip' := skipOnes_eq hr hclear hset fuel 0 (Nat.zero_le r) (by omega)
      have hshift : i <<< bitShift = 32 * i := by
        rw [Nat.shiftLeft_eq, Nat.mul_comm]
        rfl
      rw [BitVec.sshiftRight_zero] at hskip hskip'
      rw [if_pos (by simpa using hv), if_pos (by simpa using hv), hskip', hskip, Option.map_some,
        hshift, int32_eq (by omega)]
      by_cases hge : 32 * i + r ≥ size
      · rw [if_pos hge, if_pos (by exact_mod_cast hge)]
        rfl
      · rw [if_neg hge, if_neg (by exact_mod_cast hge)]
        rfl

theorem find_eq (hf : 32 ≤ fuel) (hs : size < 2 ^ 31) (hw : size ≤ 32 * w.length) :
    find fuel w size = some (encode (w.view.find size)) := by
  unfold find Bitmap.find
  have hn : ∀ n, n = (size >>> bitShift) + (if size &&& bitMask != 0 then 1 else 0) → n ≤ w.length ∧
    32 * n < size + 32 := by
    intro n hn
    rw [Bitmap.shiftRight_bitShift, Bitmap.and_bitMask] at hn
    split at hn
    · rename_i h
      have : size % 32 ≠ 0 := by simpa using h
      omega
    · omega
  obtain ⟨hle, hlt⟩ := hn _ rfl
  exact findFrom_eq hf hs _ 0 (by omega) (by omega)

/-- `r` is the least index below `n` that is not used, or -1 when there is none. -/
def Answers (used : Nat → Prop) (n : Nat) (r : Int) : Prop :=
  (r = -1 ↔ ∀ j < n, used j) ∧ (r ≠ -1 → ∃ i : Nat, r = i ∧ i < n ∧ ¬ used i ∧ ∀ j < i, used j)

theorem answers_find (b : Bitmap) (n : Nat) :
    Answers (fun j => b.test j = true) n (encode (b.find n)) := by
  cases h : b.find n with
  | none =>
    have hall := Bitmap.find_none h
    exact ⟨⟨fun _ => hall, fun _ => rfl⟩, fun hne => absurd rfl hne⟩
  | some r =>
    obtain ⟨hr, hclear, hset⟩ := Bitmap.find_some h
    have hne : encode (some r) ≠ -1 := by simp [encode]
    refine ⟨⟨fun he => absurd he hne, fun hall => ?_⟩,
      fun _ => ⟨r, rfl, hr, by simp [hclear], hset⟩⟩
    rw [hall r hr] at hclear
    cases hclear

theorem Answers.congr {used used' : Nat → Prop} {r : Int} (h : Answers used n r)
    (hu : ∀ j < n, used j ↔ used' j) :
    Answers used' n r := by
  refine ⟨h.1.trans (forall₂_congr hu), fun hne => ?_⟩
  obtain ⟨i, hr, hi, hclear, hset⟩ := h.2 hne
  exact ⟨i, hr, hi, fun hc => hclear ((hu i hi).mpr hc),
    fun j hj => (hu j (hj.trans hi)).mp (hset j hj)⟩

/-! ## One bitmap block over time -/

/-- A call on a bitmap block. -/
inductive Call where
  | allocNew
  | clear (i : Fin bitmapBits)

/-- The buffer, and the indices in use: those set at the beginning or handed
out, and not cleared since. -/
structure Session where
  words : Words
  held : Finset Nat

namespace Session

/-- What the results of the calls say about the indices in use. -/
def step (fuel : Nat) (s : Session) : Call → Option Session
  | .allocNew =>
    (s.words.allocNew fuel).map fun (r, w) => ⟨w, if r = -1 then s.held else insert r.toNat s.held⟩
  | .clear i => (s.words.clear i).map fun w => ⟨w, s.held.erase i⟩

def start (w : Words) : Session :=
  ⟨w, (Finset.range bitmapBits).filter fun j => w.test j = some true⟩

def Exact (fuel : Nat) (s : Session) : Call → Prop
  | .allocNew => ∃ r w, s.words.allocNew fuel = some (r, w) ∧ Answers (· ∈ s.held) bitmapBits r
  | .clear _ => True

structure Tracks (s : Session) : Prop where
  length : 32 * s.words.length = bitmapBits
  bits : ∀ j < bitmapBits, s.words.view.test j = true ↔ j ∈ s.held

theorem tracks_start (h : 32 * w.length = bitmapBits) : Tracks (start w) := by
  refine ⟨h, fun j hj => ?_⟩
  simp [start, hj, test_eq (h.symm ▸ hj)]

end Session

theorem allocNew_eq (hf : 32 ≤ fuel) (h : 32 * w.length = bitmapBits) :
    ∃ w', w.allocNew fuel = some (encode (w.view.find bitmapBits), w') ∧ w'.length = w.length ∧
      w'.view = ((w.view.allocNew bitmapBits).map Prod.snd).getD w.view := by
  rw [allocNew, find_eq hf (by decide) h.ge, Option.bind_some, Bitmap.allocNew]
  cases hfind : w.view.find bitmapBits with
  | none => exact ⟨w, rfl, rfl, rfl⟩
  | some i =>
    obtain ⟨w', hw', hlen, hview⟩ := set_eq ((Bitmap.find_some hfind).1.trans_le h.ge)
    refine ⟨w', ?_, hlen, hview⟩
    simp [encode, hw']

theorem allocNew_spec (hf : 32 ≤ fuel) (h : 32 * w.length = bitmapBits) :
    ∃ r w', w.allocNew fuel = some (r, w') ∧ w'.length = w.length ∧
      Answers (fun j => w.view.test j = true) bitmapBits r ∧
        ∀ j, w'.view.test j = (decide (r = j) || w.view.test j) := by
  obtain ⟨w', hw', hlen, hview⟩ := allocNew_eq hf h
  refine ⟨_, w', hw', hlen, answers_find w.view bitmapBits, fun j => ?_⟩
  rw [hview, Bitmap.allocNew]
  cases w.view.find bitmapBits with
  | none => simp [encode]
  | some i =>
    refine (Bitmap.test_set w.view i j).trans (congrArg (· || w.view.test j) ?_)
    exact decide_eq_decide.mpr Int.natCast_inj.symm

namespace Session

theorem Tracks.allocNew {s : Session} (h : Tracks s) (hf : 32 ≤ fuel) :
    Exact fuel s .allocNew ∧ ∃ s', s.step fuel .allocNew = some s' ∧ Tracks s' := by
  obtain ⟨r, w, hw, hlen, hans, hbits⟩ := allocNew_spec hf h.length
  have hheld := hans.congr h.bits
  refine ⟨⟨r, w, hw, hheld⟩,
    ⟨w, if r = -1 then s.held else insert r.toNat s.held⟩, by rw [step, hw]; rfl, ?_, ?_⟩
  · rw [hlen, h.length]
  · intro j hj
    rw [hbits j, Bool.or_eq_true, h.bits j hj, decide_eq_true_iff]
    by_cases hr : r = -1
    · simp [hr]
    · obtain ⟨i, rfl, -⟩ := hheld.2 hr
      rw [Int.natCast_inj, if_neg hr, Finset.mem_insert, Int.toNat_natCast, eq_comm]

theorem Tracks.clear {s : Session} (h : Tracks s) (i : Fin bitmapBits) :
    ∃ s', s.step fuel (.clear i) = some s' ∧ Tracks s' := by
  obtain ⟨w, hw, hlen, hview⟩ := clear_eq (w := s.words) (i.isLt.trans_le h.length.ge)
  refine ⟨⟨w, s.held.erase i⟩, by rw [step, hw]; rfl, ?_, fun j hj => ?_⟩
  · rw [hlen, h.length]
  · rw [hview, Bitmap.test_clear, Bool.and_eq_true, h.bits j hj]
    rw [Finset.mem_erase, and_comm, Bool.not_eq_true', decide_eq_false_iff_not, ne_comm]

theorem Tracks.step {s : Session} (h : Tracks s) (hf : 32 ≤ fuel) (c : Call) :
    Exact fuel s c ∧ ∃ s', s.step fuel c = some s' ∧ Tracks s' := by
  cases c with
  | allocNew => exact h.allocNew hf
  | clear i => exact ⟨trivial, h.clear i⟩

theorem Tracks.run (hf : 32 ≤ fuel) :
    ∀ (calls : List Call) (s : Session), Tracks s →
      (∃ s', Runs.run (Session.step fuel) calls s = some s') ∧
      Runs.Guarded (Session.step fuel) (Exact fuel) calls s := by
  intro calls
  induction calls with
  | nil => intro s _; exact ⟨⟨s, rfl⟩, trivial⟩
  | cons c calls ih =>
    intro s h
    obtain ⟨hexact, t, ht, htracks⟩ := h.step hf c
    obtain ⟨⟨s', hs'⟩, hg⟩ := ih t htracks
    refine ⟨⟨s', by rw [Runs.run, ht]; exact hs'⟩, fun t' ht' => ?_⟩
    cases ht.symm.trans ht'
    exact ⟨hexact, hg⟩

end Session

/-- The search, the two updates, and every run of `alloc_new` and `clear` on a block. -/
theorem search_exact (fuel : Nat) (hf : 32 ≤ fuel) :
    (∀ (w : Words) size, size < 2 ^ 31 → size ≤ 32 * w.length →
      ∃ r, w.find fuel size = some r ∧ Answers (fun j => w.test j = some true) size r) ∧
    (∀ (w : Words) i, i < 32 * w.length →
      (∃ w', w.set i = some w' ∧ w'.length = w.length ∧
        ∀ j, w'.test j = if j = i then some true else w.test j) ∧ ∃ w', w.clear i = some w' ∧
          w'.length = w.length ∧ ∀ j, w'.test j = if j = i then some false else w.test j) ∧
    ∀ (w : Words) calls, 32 * w.length = bitmapBits →
      (∃ s, Runs.run (Session.step fuel) calls (Session.start w) = some s) ∧
        Runs.Guarded (Session.step fuel) (Session.Exact fuel) calls (Session.start w) := by
  refine ⟨?_, ?_, ?_⟩
  · intro w size hs hw
    refine ⟨_, find_eq hf hs hw, (answers_find w.view size).congr fun j hj => ?_⟩
    rw [test_eq (by omega), Option.some_inj]
  · intro w i hi
    obtain ⟨w₁, hw₁, hlen₁, hview₁⟩ := set_eq hi
    obtain ⟨w₂, hw₂, hlen₂, hview₂⟩ := clear_eq hi
    refine ⟨⟨w₁, hw₁, hlen₁, test_update hi hlen₁ ?_ ?_⟩, w₂, hw₂, hlen₂,
      test_update hi hlen₂ ?_ ?_⟩
    · rw [hview₁, Bitmap.test_set_self]
    · intro j hj
      rw [hview₁, Bitmap.test_set_ne _ hj]
    · rw [hview₂, Bitmap.test_clear_self]
    · intro j hj
      rw [hview₂, Bitmap.test_clear_ne _ hj]
  · intro w calls hw
    exact Session.Tracks.run hf calls _ (Session.tracks_start hw)

theorem search_exact_block :
    find 32 [0x7fffffff#32, 5#32] 64 = some 31 ∧
      Runs.Guarded (Session.step 32) (Session.Exact 32) [.allocNew, .clear ⟨0, by decide⟩,
        .allocNew] (Session.start (List.replicate 1024 0)) := by
  obtain ⟨-, -, hruns⟩ := search_exact 32 le_rfl
  exact ⟨by decide, (hruns _ _ (by rw [List.length_replicate]; rfl)).2⟩

end Words

end NaiveFS
