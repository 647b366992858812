import NaiveFS.CursorSound
import NaiveFS.Lib.FlatBytes

/-!
# The contents of a file

A file of `n` blocks is read as one byte sequence that is zero past its last
block (`view`). The two things a write does to a file, allocating its next
block and copying bytes into a mapped one, are seen here as steps on the view:
the first leaves it alone, the second patches it. `Evolves` collects what such
steps leave alone elsewhere.
-/

namespace NaiveFS

open PointerTree BlockLayer FlatBytes

def dataBlocks (s : BlockStore) (loc : Pos → Nat) (n : Nat) : Nat → Block := fun k =>
  if k < n then (s.data (loc (.data k))).getD Bytes.zero else Bytes.zero

def view (s : BlockStore) (loc : Pos → Nat) (n : Nat) : Nat → UInt8 := flat (dataBlocks s loc n)

/-- From one state of a file's blocks to a later one: old positions stay where
they are, new ones get blocks that were free, and no other block changes. -/
structure Evolves (s : BlockStore) (loc : Pos → Nat) (n : Nat) (s' : BlockStore) (loc' : Pos →
  Nat) (n' : Nat) :
    Prop where
  le : n ≤ n'
  old : ∀ p, Live n p → loc' p = loc p
  new : ∀ p, Live n' p → ¬ Live n p → s.data (loc' p) = none
  some : ∀ j, (s.data j).isSome → (s'.data j).isSome
  frame : ∀ j, s'.data j = s.data j ∨ ∃ p, Live n' p ∧ loc' p = j

theorem Live.mono {n n' : Nat} (h : n ≤ n') {p : Pos} (hp : Live n p) : Live n' p := by
  cases p <;> simp only [Live] at hp ⊢ <;> omega

namespace Evolves

variable {s s' s'' : BlockStore} {loc loc' loc'' : Pos → Nat} {n n' n'' : Nat}

theorem refl (s : BlockStore) (loc : Pos → Nat) (n : Nat) : Evolves s loc n s loc n :=
  ⟨Nat.le_refl n, fun _ _ => rfl, fun _ h h' => absurd h h', fun _ h => h, fun _ => Or.inl rfl⟩

theorem trans {ino' : TreeInode} (t : Tree s' ino' n' loc') (h : Evolves s loc n s' loc' n')
    (h' : Evolves s' loc' n' s'' loc'' n'') : Evolves s loc n s'' loc'' n'' where
  le := Nat.le_trans h.le h'.le
  old p hp := (h'.old p (hp.mono h.le)).trans (h.old p hp)
  new p hp hnp := by
    by_cases hl : Live n' p
    · rw [h'.old p hl]
      exact h.new p hl hnp
    · have hnone := h'.new p hp hl
      rcases h.frame (loc'' p) with e | ⟨q, hq, e⟩
      · rw [← e]; exact hnone
      · exact absurd e (t.ne_of_free hnone hq)
  some j hj := h'.some j (h.some j hj)
  frame j := by
    rcases h'.frame j with e' | h''
    · rcases h.frame j with e | ⟨p, hp, hpj⟩
      · exact Or.inl (e'.trans e)
      · exact Or.inr ⟨p, hp.mono h'.le, (h'.old p hp).trans hpj⟩
    · exact Or.inr h''

theorem other (h : Evolves s loc n s' loc' n') {j : Nat} (hj : (s.data j).isSome)
    (hno : ∀ p, Live n p → loc p ≠ j) :
    s'.data j = s.data j := by
  rcases h.frame j with e | ⟨p, hp, rfl⟩
  · exact e
  · by_cases hl : Live n p
    · exact absurd (h.old p hl).symm (hno p hl)
    · rw [h.new p hp hl] at hj
      cases hj

end Evolves

/-! ## Allocating the next block -/

section
variable {s s' : BlockStore} {ino ino' : TreeInode} {n i : Nat} {loc loc' : Pos → Nat}

theorem Grown.evolves (g : Grown s ino n loc i ino' s' loc') : Evolves s loc n s' loc' (n + 1) where
  le := Nat.le_succ n
  old := g.loc_old
  new := g.new_free
  some j hj := by
    rcases g.frame j with e | ⟨p, hp, rfl, -⟩
    · rw [e]; exact hj
    · exact g.tree.alloc p hp
  frame j := (g.frame j).imp_right fun ⟨p, hp, hpj, _⟩ => ⟨p, hp, hpj⟩

theorem Grown.view_eq (g : Grown s ino n loc i ino' s' loc') :
    view s' loc' (n + 1) = view s loc n := by
  unfold view
  congr 1
  funext k
  unfold dataBlocks
  by_cases hk : k < n
  · have hold := g.loc_old (.data k) hk
    have hdata : s'.data (loc' (.data k)) = s.data (loc (.data k)) := by
      rcases g.frame (loc' (.data k)) with e | ⟨p, hp, hpk, hpm⟩
      · rw [e, hold]
      · have hpe := g.tree.inj p (.data k) hp (Nat.lt_succ_of_lt hk) hpk
        subst hpe
        rcases hpm with h | h
        · cases h
        · cases h; omega
    rw [if_pos hk, if_pos (Nat.lt_succ_of_lt hk), hdata]
  · rw [if_neg hk]
    by_cases hkn : k = n
    · subst hkn
      rw [if_pos (Nat.lt_succ_self k), g.loc_new, g.zero]
      rfl
    · rw [if_neg (by omega)]

end

/-- The blocks of a file are in order: its tree is, its size is covered, and
the bytes past its size are zero. -/
structure DataOk (s : BlockStore) (ino : TreeInode) (n : Nat) (loc : Pos → Nat) : Prop where
  tree : Tree s ino n loc
  blocks : ino.iBlocks = 8 * n
  size : ino.iSize ≤ 4096 * n
  tail : ∀ i, ino.iSize ≤ i → view s loc n i = 0

theorem DataOk.alloc {s s' : BlockStore} {ino ino' : TreeInode} {n i : Nat} {loc : Pos → Nat}
    (d : DataOk s ino n loc) (hn : n + 1 < 2 ^ 29) (h : allocBlock ino s = (some i, ino', s')) :
    ∃ loc', DataOk s' ino' (n + 1) loc' ∧ view s' loc' (n + 1) = view s loc n ∧
      Evolves s loc n s' loc' (n + 1) ∧ ino'.iSize = ino.iSize := by
  obtain ⟨loc', g⟩ := (allocBlock_spec d.tree d.blocks hn h).2.2 i rfl
  refine ⟨loc', ⟨g.tree, g.iBlocks, ?_, fun j hj => ?_⟩, g.view_eq, g.evolves, g.iSize⟩
  · rw [g.iSize]
    have := d.size
    omega
  · rw [g.view_eq]
    exact d.tail j (g.iSize ▸ hj)

theorem DataOk.resize {s : BlockStore} {ino : TreeInode} {n m : Nat} {loc : Pos → Nat}
    (d : DataOk s ino n loc) (h : ino.iSize ≤ m) (h' : m ≤ 4096 * n) :
    DataOk s { ino with iSize := m } n loc :=
  ⟨d.tree, d.blocks, h', fun i hi => d.tail i (Nat.le_trans h hi)⟩

/-! ## Copying into a mapped block -/

theorem File.putBytes_spec {f : File} {n k off : Nat} {loc : Pos → Nat} {buf : List UInt8}
    (t : Tree f.store f.ino n loc) (hn : n < 2 ^ 29) (hk : k < n) (h : off + buf.length ≤ 4096) :
    ∃ s', f.putBytes (loc (.data k)) off buf = some { f with store := s' } ∧
      s'.free = f.store.free ∧ Tree s' f.ino n loc ∧
      view s' loc n = patch (view f.store loc n) (4096 * k + off) buf ∧
      Evolves f.store loc n s' loc n := by
  obtain ⟨b, hb⟩ := Option.isSome_iff_exists.mp (t.alloc (.data k) hk)
  refine ⟨f.store.poke (loc (.data k)) fun b => b.splice off buf, ?_, rfl, ?_, ?_, ?_⟩
  · unfold putBytes
    rw [hb]
  · refine t.store (Nat.le_of_lt hn) (fun i hi => ?_) fun p hp hm => ?_
    · rw [BlockStore.poke_isSome]; exact hi
    · refine BlockStore.poke_data_ne _ _ fun e => ?_
      rw [t.inj p (.data k) hp hk e] at hm
      cases hm
  · unfold view
    refine Eq.trans ?_ (flat_splice (B := blockSize) (by rw [blockSize_eq]; omega) _ k h)
    congr 1
    funext j
    by_cases hj : j = k
    · subst hj
      rw [Function.update_self]
      unfold dataBlocks
      rw [if_pos hk, if_pos hk, BlockStore.poke_data_self, hb]
      rfl
    · rw [Function.update_of_ne hj]
      unfold dataBlocks
      by_cases hjn : j < n
      · have hne : loc (.data j) ≠ loc (.data k) := fun e => hj (Pos.data.inj (t.inj _ _ hjn hk e))
        rw [if_pos hjn, if_pos hjn, BlockStore.poke_data_ne _ _ hne]
      · rw [if_neg hjn, if_neg hjn]
  · refine ⟨Nat.le_refl n, fun _ _ => rfl, fun _ h h' => absurd h h', fun j hj => ?_, fun j => ?_⟩
    · rw [BlockStore.poke_isSome]; exact hj
    · by_cases hj : j = loc (.data k)
      · exact Or.inr ⟨.data k, hk, hj.symm⟩
      · exact Or.inl (BlockStore.poke_data_ne _ _ hj)

end NaiveFS
