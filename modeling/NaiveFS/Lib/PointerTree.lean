import NaiveFS.Lib.Bytes
import Mathlib.Logic.Function.Basic

/-!
# Trees of pointer blocks

Blocks of a heap that point to each other through their 32-bit words, hung
from a table of root pointers. A shape gives each position of the tree the one
slot its pointer lives in; `PtrTree` says that every live position is reached
through its slot and that no two positions share a block. Fresh blocks are
attached one slot at a time (`attach_root`, `attach_cell`), and whatever
happens to blocks that are no position's parent leaves the tree alone
(`frame`).
-/

namespace PointerTree

/-- Where the pointer to a position is kept: a root slot, or a word of the
block at another position. -/
inductive Slot (P : Type) where
  | root (j : Nat)
  | cell (p : P) (w : Nat)

variable {P : Type} {n i : Nat} (slot : P → Slot P)

/-- The block at a position, found by following at most `depth` pointers; `ptr i w`
is word `w` of block `i`. -/
def follow (root : Nat → Nat) (ptr : Nat → Nat → Option Nat) : Nat → P → Option Nat
  | 0, _ => none
  | depth + 1, p =>
    match slot p with
    | .root j => some (root j)
    | .cell q w => (follow root ptr depth q).bind fun i => ptr i w

/-- The live positions of a tree sit in allocated, pairwise distinct blocks
`loc p`, and each one's slot holds its block. -/
structure PtrTree (root : Nat → Nat) (heap : Nat → Option (Bytes n)) (live : P →
  Prop) (loc : P → Nat) :
    Prop where
  alloc : ∀ p, live p → (heap (loc p)).isSome
  inj : ∀ p q, live p → live q → loc p = loc q → p = q
  root_slot : ∀ p j, live p → slot p = .root j → root j = loc p
  cell_slot : ∀ p q w, live p → slot p = .cell q w →
    live q ∧ ∃ b, heap (loc q) = some b ∧ b.word w = loc p

namespace PtrTree

variable {slot} {root : Nat → Nat} {heap heap' : Nat → Option (Bytes n)} {live live' : P → Prop}
  {loc : P → Nat}

theorem of_none (h : ∀ p, ¬ live p) : PtrTree slot root heap live loc where
  alloc p hp := absurd hp (h p)
  inj p _ hp := absurd hp (h p)
  root_slot p _ hp := absurd hp (h p)
  cell_slot p _ _ hp := absurd hp (h p)

theorem follow_eq (t : PtrTree slot root heap live loc) {depth : P → Nat} (hroot : ∀ p, 0 < depth p)
    (hcell : ∀ p q w, slot p = .cell q w → depth q < depth p) {ptr : Nat → Nat → Option Nat}
    (hptr : ∀ i w, ptr i w = (heap i).map fun b => b.word w) :
    ∀ (d : Nat) (p : P), depth p ≤ d → live p → follow slot root ptr d p = some (loc p) := by
  intro d
  induction d with
  | zero =>
    intro p hd
    exact absurd hd (Nat.not_le.mpr (hroot p))
  | succ d ih =>
    intro p hd hp
    unfold follow
    cases hs : slot p with
    | root j => simp only [t.root_slot p j hp hs]
    | cell q w =>
      obtain ⟨hq, b, hb, hw⟩ := t.cell_slot p q w hp hs
      have hlt := Nat.lt_of_lt_of_le (hcell p q w hs) hd
      simp only [ih q (Nat.le_of_lt_succ hlt) hq, Option.bind_some, hptr, hb, Option.map_some, hw]

theorem ne_of_free (t : PtrTree slot root heap live loc) (hi : heap i = none) {p : P}
    (hp : live p) :
    loc p ≠ i := by
  intro e
  have := t.alloc p hp
  rw [e, hi] at this
  cases this

/-- Only the blocks of parents matter to the tree, apart from which blocks are
allocated at all. -/
theorem frame (t : PtrTree slot root heap live loc) (ha : ∀ i, (heap i).isSome → (heap' i).isSome)
    (hp : ∀ p q w, live p → slot p = .cell q w → heap' (loc q) = heap (loc q)) :
    PtrTree slot root heap' live loc where
  alloc p hl := ha _ (t.alloc p hl)
  inj := t.inj
  root_slot := t.root_slot
  cell_slot p q w hl hs := by
    rw [hp p q w hl hs]
    exact t.cell_slot p q w hl hs

theorem alloc_block (t : PtrTree slot root heap live loc) (hi : heap i = none) (b : Bytes n) :
    PtrTree slot root (Function.update heap i (some b)) live loc := by
  refine t.frame (fun j hj => ?_) fun p q w hl hs => ?_
  · by_cases h : j = i
    · subst h; simp
    · rwa [Function.update_of_ne h]
  · exact Function.update_of_ne (t.ne_of_free hi (t.cell_slot p q w hl hs).1) _ _

variable [DecidableEq P]

theorem loc_update {p q : P} (hp : ¬ live p) (hq : live q) : Function.update loc p i q = loc q :=
  Function.update_of_ne (fun e : q = p => hp (e ▸ hq)) _ _

theorem inj_update (t : PtrTree slot root heap live loc) {p : P} (hp : ¬ live p)
    (hi : ∀ q, live q → loc q ≠ i) : ∀ a b, (a = p ∨ live a) → (b = p ∨ live b) →
    Function.update loc p i a = Function.update loc p i b → a = b := by
  intro a b ha hb hab
  rcases ha with rfl | ha <;> rcases hb with rfl | hb
  · rfl
  · rw [Function.update_self, loc_update hp hb] at hab
    exact absurd hab.symm (hi b hb)
  · rw [Function.update_self, loc_update hp ha] at hab
    exact absurd hab (hi a ha)
  · rw [loc_update hp ha, loc_update hp hb] at hab
    exact t.inj a b ha hb hab

theorem attach_root (hinj : Function.Injective slot) (t : PtrTree slot root heap live loc) {p : P}
    {j : Nat} (hs : slot p = .root j) (hp : ¬ live p) (ha : (heap i).isSome)
    (hi : ∀ q, live q → loc q ≠ i) :
    PtrTree slot (Function.update root j i) heap (fun q => q = p ∨
      live q) (Function.update loc p i) where
  alloc q hq := by
    rcases hq with rfl | hq
    · rwa [Function.update_self]
    · rw [loc_update hp hq]; exact t.alloc q hq
  inj := inj_update t hp hi
  root_slot q k hq hk := by
    rcases hq with rfl | hq
    · rw [hs] at hk; cases hk; simp
    · have hne : k ≠ j := fun e => hp (hinj (hk.trans (e ▸ hs.symm)) ▸ hq)
      rw [loc_update hp hq, Function.update_of_ne hne]
      exact t.root_slot q k hq hk
  cell_slot q r w hq hw := by
    rcases hq with rfl | hq
    · rw [hs] at hw; cases hw
    · obtain ⟨hr, b, hb, hbw⟩ := t.cell_slot q r w hq hw
      rw [loc_update hp hr, loc_update hp hq]
      exact ⟨Or.inr hr, b, hb, hbw⟩

theorem attach_cell (hinj : Function.Injective slot) (t : PtrTree slot root heap live loc)
    {p q : P} {w : Nat} (hs : slot p = .cell q w) (hq : live q) (hw : 4 * w + 3 < n)
    (hp : ¬ live p) (ha : (heap i).isSome) (hi : ∀ q, live q → loc q ≠ i) (hv : i < 2 ^ 32)
    (hh : ∀ j, heap' j = if j = loc q then (heap j).map (fun b => b.setWord w i) else heap j) :
    PtrTree slot root heap' (fun q => q = p ∨ live q) (Function.update loc p i) where
  alloc r hr := by
    have key : (heap (Function.update loc p i r)).isSome := by
      rcases hr with rfl | hr
      · rwa [Function.update_self]
      · rw [loc_update hp hr]; exact t.alloc r hr
    rw [hh]
    split
    · simpa using key
    · exact key
  inj := inj_update t hp hi
  root_slot r j hr hj := by
    rcases hr with rfl | hr
    · rw [hs] at hj; cases hj
    · rw [loc_update hp hr]; exact t.root_slot r j hr hj
  cell_slot r q' w' hr hw' := by
    rcases hr with rfl | hr
    · rw [hs] at hw'
      cases hw'
      obtain ⟨b, hb⟩ := Option.isSome_iff_exists.mp (t.alloc q hq)
      refine ⟨Or.inr hq, b.setWord w i, ?_, ?_⟩
      · rw [loc_update hp hq, hh, if_pos rfl, hb]; rfl
      · rw [Function.update_self]; exact b.word_setWord hw hv
    · obtain ⟨hq', b, hb, hbw⟩ := t.cell_slot r q' w' hr hw'
      rw [loc_update hp hq', loc_update hp hr, hh]
      by_cases he : loc q' = loc q
      · -- the same block: its other words survive, since slots are not shared
        have hqq : q' = q := t.inj q' q hq' hq he
        subst hqq
        have hww : w' ≠ w := fun e => hp (hinj (hw'.trans (e ▸ hs.symm)) ▸ hr)
        refine ⟨Or.inr hq', b.setWord w i, ?_, ?_⟩
        · rw [if_pos rfl, hb]; rfl
        · rw [b.word_setWord_ne i hww]; exact hbw
      · exact ⟨Or.inr hq', b, by rw [if_neg he]; exact hb, hbw⟩

end PtrTree

end PointerTree
