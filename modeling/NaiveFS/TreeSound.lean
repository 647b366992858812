import NaiveFS.FileStatus
import NaiveFS.Lib.PointerTree

/-!
# The block tree is what the allocator builds

Positions of the block tree (`Pos`), the slot each one's pointer lives in
(`slotOf`) and the positions that exist in a file of `n` blocks (`Live`).
`allocBlock_spec`: allocating the next block keeps the tree and adds its
position, and touches no block but pointer blocks of this tree.
-/

namespace NaiveFS

open PointerTree BlockReader BlockLayer

/-! ## Positions -/

inductive Pos where
  | data (k : Nat)
  | ind
  | dind
  | dchild (c : Nat)
  | tind
  | tchild (a : Nat)
  | tgrand (a b : Nat)
  deriving DecidableEq

def Pos.isMeta : Pos → Bool
  | .data _ => false
  | _ => true

def slotOf : Pos → Slot Pos
  | .data k =>
    if k < 12 then .root k
    else if k < 1036 then .cell .ind (k - 12)
    else if k < 1049612 then .cell (.dchild ((k - 1036) / 1024)) ((k - 1036) % 1024)
    else .cell (.tgrand ((k - 1049612) / 1048576) ((k - 1049612) % 1048576 / 1024))
      ((k - 1049612) % 1024)
  | .ind => .root 12
  | .dind => .root 13
  | .dchild c => .cell .dind c
  | .tind => .root 14
  | .tchild a => .cell .tind a
  | .tgrand a b => .cell (.tchild a) b

/-- The positions of a file of `n` blocks. -/
def Live (n : Nat) : Pos → Prop
  | .data k => k < n
  | .ind => 12 < n
  | .dind => 1036 < n
  | .dchild c => 1036 + 1024 * c < n ∧ c < 1024
  | .tind => 1049612 < n
  | .tchild a => 1049612 + 1048576 * a < n
  | .tgrand a b => 1049612 + 1048576 * a + 1024 * b < n ∧ b < 1024

theorem not_live_tchild {n a : Nat} (h : n ≤ 1049612 + 1048576 * a) : ¬ Live n (.tchild a) :=
  Nat.not_lt.mpr h

theorem not_live_tgrand {n a b : Nat} (h : n ≤ 1049612 + 1048576 * a + 1024 * b) :
    ¬ Live n (.tgrand a b) :=
  fun hl => Nat.not_lt.mpr h hl.1

theorem live_succ_tind {n a m : Nat} (h : n = 1049612 + 1048576 * a + m) (hm : m < 1048576)
    (p : Pos) :
    Live (n + 1) p ↔ p = .data n ∨ p = .tgrand a (m / 1024) ∨ p = .tchild a ∨ p = .tind ∨
      Live n p := by
  cases p <;> simp [Live] <;> omega

theorem slotOf_data_direct {k : Nat} (h : k < 12) : slotOf (.data k) = .root k := by
  simp [slotOf, h]

theorem slotOf_data_ind {k : Nat} (h : 12 ≤ k) (h' : k < 1036) :
    slotOf (.data k) = .cell .ind (k - 12) := by
  simp [slotOf, Nat.not_lt.mpr h, h']

theorem slotOf_data_dind {k : Nat} (h : 1036 ≤ k) (h' : k < 1049612) :
    slotOf (.data k) = .cell (.dchild ((k - 1036) / 1024)) ((k - 1036) % 1024) := by
  simp [slotOf, show ¬ k < 12 by omega, Nat.not_lt.mpr h, h']

theorem slotOf_data_tind {k : Nat} (h : 1049612 ≤ k) :
    slotOf (.data k) =
      .cell (.tgrand ((k - 1049612) / 1048576) ((k - 1049612) % 1048576 / 1024))
      ((k - 1049612) % 1024) := by
  simp [slotOf, show ¬ k < 12 by omega, show ¬ k < 1036 by omega, Nat.not_lt.mpr h]

theorem slotOf_injective : Function.Injective slotOf := by
  intro p q h
  cases p <;> cases q <;> simp only [slotOf] at h <;> (try split_ifs at h) <;>
    (try simp only [Slot.root.injEq, Slot.cell.injEq, Pos.dchild.injEq, Pos.tchild.injEq,
      Pos.tgrand.injEq, reduceCtorEq, false_and, true_and] at h) <;>
    (try simp only [Pos.data.injEq, Pos.dchild.injEq, Pos.tchild.injEq, Pos.tgrand.injEq]) <;> omega

theorem slotOf_cell {n : Nat} {p q : Pos} {w : Nat} (hp : Live n p) (hn : n ≤ 2 ^ 29)
    (h : slotOf p = .cell q w) :
    q.isMeta = true ∧ 4 * w + 3 < blockSize := by
  cases p <;> simp only [slotOf, Live] at h hp <;> (try split_ifs at h) <;>
    simp only [Slot.cell.injEq, reduceCtorEq] at h <;> obtain ⟨rfl, rfl⟩ := h <;>
    simp only [Pos.isMeta, blockSize_eq, true_and] <;> omega

/-- Pointers from the inode to a position. -/
def Pos.depth : Pos → Nat
  | .data k => if k < 12 then 1 else if k < 1036 then 2 else if k < 1049612 then 3 else 4
  | .ind => 1
  | .dind => 1
  | .dchild _ => 2
  | .tind => 1
  | .tchild _ => 2
  | .tgrand _ _ => 3

def maxDepth : Nat := 4

theorem depth_pos (p : Pos) : 0 < p.depth := by
  cases p <;> simp only [Pos.depth] <;> (try split_ifs) <;> decide

theorem depth_le (p : Pos) : p.depth ≤ maxDepth := by
  cases p <;> simp only [Pos.depth] <;> (try split_ifs) <;> decide

theorem depth_slot (p q : Pos) (w : Nat) (h : slotOf p = .cell q w) : q.depth < p.depth := by
  cases p with
  | data k =>
    simp only [slotOf] at h
    simp only [Pos.depth]
    split_ifs at h ⊢ <;> cases h <;> exact Nat.lt_succ_self _
  | ind => cases h
  | dind => cases h
  | dchild c => cases h; exact Nat.lt_succ_self _
  | tind => cases h
  | tchild a => cases h; exact Nat.lt_succ_self _
  | tgrand a b => cases h; exact Nat.lt_succ_self _

abbrev Tree (s : BlockStore) (ino : TreeInode) (n : Nat) (loc : Pos → Nat) : Prop :=
  PtrTree slotOf ino.iBlock s.data (Live n) loc

theorem not_live_zero (p : Pos) : ¬ Live 0 p := by cases p <;> simp [Live]

theorem Tree.empty (s : BlockStore) (ino : TreeInode) (loc : Pos → Nat) : Tree s ino 0 loc :=
  PtrTree.of_none not_live_zero

theorem Tree.store {s s' : BlockStore} {ino : TreeInode} {n : Nat} {loc : Pos → Nat}
    (t : Tree s ino n loc) (hn : n ≤ 2 ^ 29) (ha : ∀ i, (s.data i).isSome → (s'.data i).isSome)
    (hm : ∀ p, Live n p → p.isMeta = true → s'.data (loc p) = s.data (loc p)) : Tree s' ino n loc :=
  t.frame ha fun p q w hp hs => hm q (t.cell_slot p q w hp hs).1 (slotOf_cell hp hn hs).1

/-! ## One allocation, stage by stage -/

/-- Midway through an allocation that started from store `s₀` and a tree with
positions `base`: the tree has grown to `live`, and the blocks of `F` are
allocated and zeroed but not attached yet. -/
structure Stage (s₀ : BlockStore) (base : Pos → Prop) (loc₀ : Pos →
  Nat) (s : BlockStore) (ino : TreeInode)
    (live : Pos → Prop) (loc : Pos → Nat) (F : List Nat) : Prop where
  tree : PtrTree slotOf ino.iBlock s.data live loc
  nodup : F.Nodup
  fresh : ∀ i ∈ F, s.data i = some Bytes.zero ∧ i < 2 ^ 32 ∧ ∀ p, live p → loc p ≠ i
  fresh_free : ∀ i ∈ F, s₀.data i = none
  new_free : ∀ p, live p → ¬ base p → s₀.data (loc p) = none
  base_live : ∀ p, base p → live p
  base_loc : ∀ p, base p → loc p = loc₀ p
  frame : ∀ j, s.data j = s₀.data j ∨ j ∈ F ∨ ∃ p, live p ∧ loc p = j ∧ (p.isMeta = true ∨ ¬ base p)

namespace Stage

variable {s₀ s : BlockStore} {base live live' : Pos → Prop} {loc₀ loc : Pos → Nat} {ino : TreeInode}
  {F : List Nat}

theorem start (t : PtrTree slotOf ino.iBlock s.data live loc) :
    Stage s live loc s ino live loc [] where
  tree := t
  nodup := List.nodup_nil
  fresh i hi := by cases hi
  fresh_free i hi := by cases hi
  new_free p hp hb := absurd hp hb
  base_live _ h := h
  base_loc _ _ := rfl
  frame _ := Or.inl rfl

theorem congr_live (st : Stage s₀ base loc₀ s ino live loc F) (h : ∀ p, live' p ↔ live p) :
    Stage s₀ base loc₀ s ino live' loc F := by
  have : live' = live := funext fun p => propext (h p)
  rwa [this]

theorem allocHead (st : Stage s₀ base loc₀ s ino live loc F) {i : Nat} (h : s.free.head? = some i) :
    Stage s₀ base loc₀ s.allocHead ino live loc (i :: F) := by
  obtain ⟨hn, hlt⟩ := BlockStore.head_free h
  have hne : ∀ j ∈ F, j ≠ i := by
    intro j hj e
    have := (st.fresh j hj).1
    rw [e, hn] at this
    cases this
  have hfree : s₀.data i = none := by
    rcases st.frame i with h | h | ⟨p, hp, hpi, -⟩
    · rw [← h, hn]
    · exact absurd rfl (hne i h)
    · exact absurd hpi (st.tree.ne_of_free hn hp)
  refine ⟨?_, List.nodup_cons.mpr ⟨fun hi => hne i hi rfl, st.nodup⟩, ?_, ?_, st.new_free,
    st.base_live, st.base_loc, ?_⟩
  · rw [BlockStore.allocHead_data h]
    exact st.tree.alloc_block hn _
  · intro j hj
    rw [BlockStore.allocHead_data h]
    rcases List.mem_cons.mp hj with rfl | hj
    · exact ⟨Function.update_self .., hlt, fun p hp => st.tree.ne_of_free hn hp⟩
    · rw [Function.update_of_ne (hne j hj)]
      exact st.fresh j hj
  · intro j hj
    rcases List.mem_cons.mp hj with rfl | hj
    · exact hfree
    · exact st.fresh_free j hj
  · intro j
    rw [BlockStore.allocHead_data h]
    by_cases hj : j = i
    · exact Or.inr (Or.inl (by simp [hj]))
    · rw [Function.update_of_ne hj]
      rcases st.frame j with h | h | h
      · exact Or.inl h
      · exact Or.inr (Or.inl (List.mem_cons_of_mem _ h))
      · exact Or.inr (Or.inr h)

section
variable {p : Pos} {i : Nat} (st : Stage s₀ base loc₀ s ino live loc F) (hi : i ∈ F) (hp : ¬ live p)
include st hp

theorem base_update (q : Pos) (hq : base q) : Function.update loc p i q = loc₀ q := by
  rw [PtrTree.loc_update hp (st.base_live q hq)]
  exact st.base_loc q hq

theorem frame_update {d : Nat → Option Block} {j : Nat} (hd : d j = s.data j) :
    d j = s₀.data j ∨ j ∈ F.erase i ∨ ∃ q, (q = p ∨ live q) ∧ Function.update loc p i q = j ∧
      (q.isMeta = true ∨ ¬ base q) := by
  rcases st.frame j with h | h | ⟨q, hq, hj, hb⟩
  · exact Or.inl (hd.trans h)
  · by_cases hji : j = i
    · exact Or.inr (Or.inr ⟨p, Or.inl rfl, by rw [Function.update_self, hji],
        Or.inr fun hb => hp (st.base_live p hb)⟩)
    · exact Or.inr (Or.inl ((List.mem_erase_of_ne hji).mpr h))
  · exact Or.inr (Or.inr ⟨q, Or.inr hq, by rw [PtrTree.loc_update hp hq]; exact hj, hb⟩)

theorem fresh_update {k : Nat} (hk : k ∈ F.erase i) :
    k ∈ F ∧ ∀ q, (q = p ∨ live q) → Function.update loc p i q ≠ k := by
  have hki : k ≠ i ∧ k ∈ F := (List.Nodup.mem_erase_iff st.nodup).mp hk
  refine ⟨hki.2, ?_⟩
  rintro q (rfl | hq)
  · rw [Function.update_self]; exact Ne.symm hki.1
  · rw [PtrTree.loc_update hp hq]; exact (st.fresh k hki.2).2.2 q hq

include hi in
theorem new_free_update (q : Pos) (hq : q = p ∨ live q) (hb : ¬ base q) :
    s₀.data (Function.update loc p i q) = none := by
  rcases hq with rfl | hq
  · rw [Function.update_self]; exact st.fresh_free i hi
  · rw [PtrTree.loc_update hp hq]; exact st.new_free q hq hb

include hi in
theorem attach_root {j : Nat} (hs : slotOf p = .root j) :
    Stage s₀ base loc₀ s (ino.setBlock j i) (fun q => q = p ∨
      live q) (Function.update loc p i) (F.erase i) where
  tree := st.tree.attach_root slotOf_injective hs hp (by rw [(st.fresh i hi).1]; rfl)
    (st.fresh i hi).2.2
  nodup := st.nodup.erase _
  fresh k hk := by
    obtain ⟨hkF, hne⟩ := fresh_update st hp hk
    exact ⟨(st.fresh k hkF).1, (st.fresh k hkF).2.1, hne⟩
  fresh_free k hk := st.fresh_free k (fresh_update st hp hk).1
  new_free := new_free_update st hi hp
  base_live q hq := Or.inr (st.base_live q hq)
  base_loc := base_update st hp
  frame j := frame_update st hp rfl

include hi in
theorem attach_cell {q : Pos} {w : Nat} (hs : slotOf p = .cell q w) (hq : live q)
    (hm : q.isMeta = true) (hw : 4 * w + 3 < blockSize) :
    Stage s₀ base loc₀ (s.poke (loc q) fun b => b.setWord w i) ino (fun r => r = p ∨ live r)
      (Function.update loc p i) (F.erase i) where
  tree := st.tree.attach_cell slotOf_injective hs hq hw hp (by rw [(st.fresh i hi).1]; rfl)
    (st.fresh i hi).2.2 (st.fresh i hi).2.1 (BlockStore.poke_data _ _ s)
  nodup := st.nodup.erase _
  fresh k hk := by
    obtain ⟨hkF, hne⟩ := fresh_update st hp hk
    obtain ⟨hz, hlt, hl⟩ := st.fresh k hkF
    rw [BlockStore.poke_data_ne _ s (Ne.symm (hl q hq))]
    exact ⟨hz, hlt, hne⟩
  fresh_free k hk := st.fresh_free k (fresh_update st hp hk).1
  new_free := new_free_update st hi hp
  base_live r hr := Or.inr (st.base_live r hr)
  base_loc := base_update st hp
  frame j := by
    by_cases hj : j = loc q
    · exact Or.inr (Or.inr ⟨q, Or.inr hq, by rw [PtrTree.loc_update hp hq, hj], Or.inl hm⟩)
    · exact frame_update st hp (BlockStore.poke_data_ne _ s hj)

omit hi in
theorem attach_new {q : Pos} {w d : Nat} (hd : s.free.head? = some d) (hs : slotOf p = .cell q w)
    (hq : live q) (hm : q.isMeta = true) (hw : 4 * w + 3 < blockSize) :
    Stage s₀ base loc₀ (s.allocHead.poke (loc q) fun b => b.setWord w d) ino (fun r => r = p ∨
      live r)
      (Function.update loc p d) F := by
  have st' := (st.allocHead hd).attach_cell (List.mem_cons_self ..) hp hs hq hm hw
  rwa [List.erase_cons_head] at st'

end

end Stage

/-! ## The branches of the allocator -/

/-- Only `i_block` may differ. -/
def SameRest (ino ino' : TreeInode) : Prop := ino' = { ino with iBlock := ino'.iBlock }

theorem SameRest.iBlocks {ino ino' : TreeInode} (h : SameRest ino ino') :
    ino'.iBlocks = ino.iBlocks := by
  unfold SameRest at h
  rw [h]

theorem SameRest.with_iBlocks {ino ino' : TreeInode} (h : SameRest ino ino') (m : Nat) :
    { ino' with iBlocks := m } = { ino with iBlock := ino'.iBlock, iBlocks := m } := by
  unfold SameRest at h
  rw [h]

theorem SameRest.setBlock (ino : TreeInode) (j i : Nat) : SameRest ino (ino.setBlock j i) := rfl

/-- What mapping block `bi` as file block `n` comes to: it fails only when no
block is left to allocate. -/
structure MapSpec (s₀ : BlockStore) (n bi : Nat) (loc : Pos →
  Nat) (ino : TreeInode) (s : BlockStore)
    (r : Bool × TreeInode × BlockStore) : Prop where
  rest : SameRest ino r.2.1
  suffix : r.2.2.free <:+ s.free
  fail : r.1 = false → r.2.2.free = []
  done : r.1 = true → ∃ loc', Stage s₀ (Live n) loc r.2.2 r.2.1 (Live (n + 1)) loc' [] ∧
    loc' (.data n) = bi ∧ r.2.2.data bi = some Bytes.zero

theorem free_of_head_none {s : BlockStore} (h : s.free.head? = none) : s.allocHead.free = [] := by
  rw [List.head?_eq_none_iff] at h
  simp [h]

theorem allocHead_suffix (s : BlockStore) : s.allocHead.free <:+ s.free := List.tail_suffix _

theorem MapSpec.of_fail {s₀ s s' : BlockStore} {n bi : Nat} {loc : Pos → Nat} {ino ino' : TreeInode}
    (hr : SameRest ino ino') (hs : s'.free <:+ s.free) (hf : s'.free = []) :
    MapSpec s₀ n bi loc ino s (false, ino', s') :=
  ⟨hr, hs, fun _ => hf, by simp⟩

section
variable {s₀ : BlockStore} {base live : Pos → Prop} {loc₀ loc : Pos → Nat} {F : List Nat}

theorem openRoot_spec {p : Pos} {j : Nat} (hs : slotOf p = .root j) {first : Bool}
    {s s' : BlockStore} {ino ino' : TreeInode} {o : Option (Nat × Block)}
    (hf : first = true ↔ ¬ live p) (st : Stage s₀ base loc₀ s ino live loc F)
    (h : openRoot j first ino s = (o, ino', s')) :
    SameRest ino ino' ∧ s'.free <:+ s.free ∧ (o = none → s'.free = []) ∧
      ∀ i b, o = some (i, b) → ∃ loc', Stage s₀ base loc₀ s' ino' (fun q => q = p ∨ live q) loc' F ∧
        loc' p = i ∧ s'.data i = some b := by
  cases hfirst : first with
  | true =>
    have hp : ¬ live p := hf.mp hfirst
    simp only [openRoot, hfirst, ite_true, BlockStore.allocRaw_eq] at h
    cases hh : s.free.head? with
    | none =>
      simp only [hh, Prod.mk.injEq] at h
      obtain ⟨rfl, rfl, rfl⟩ := h
      exact ⟨rfl, allocHead_suffix s, fun _ => free_of_head_none hh, by simp⟩
    | some i =>
      simp only [hh, Prod.mk.injEq] at h
      obtain ⟨rfl, rfl, rfl⟩ := h
      refine ⟨SameRest.setBlock _ _ _, allocHead_suffix s, by simp, ?_⟩
      intro i' b hib
      simp only [Option.some.injEq, Prod.mk.injEq] at hib
      obtain ⟨rfl, rfl⟩ := hib
      have st1 := st.allocHead hh
      have hi : i ∈ i :: F := List.mem_cons_self ..
      have st2 := st1.attach_root hi hp hs
      rw [List.erase_cons_head] at st2
      exact ⟨_, st2, Function.update_self .., (st1.fresh i hi).1⟩
  | false =>
    have hp : live p := by
      by_contra hp
      have := hf.mpr hp
      rw [hfirst] at this; cases this
    have hroot := st.tree.root_slot p j hp hs
    obtain ⟨b, hb⟩ := Option.isSome_iff_exists.mp (st.tree.alloc p hp)
    simp only [openRoot, hfirst, Bool.false_eq_true, ite_false, BlockStore.getBlock_eq, hroot, hb,
      Prod.mk.injEq] at h
    obtain ⟨rfl, rfl, rfl⟩ := h
    refine ⟨rfl, List.suffix_refl _, by simp, ?_⟩
    intro i' b' hib
    simp only [Option.some.injEq, Prod.mk.injEq] at hib
    obtain ⟨rfl, rfl⟩ := hib
    refine ⟨loc, st.congr_live fun q => ?_, rfl, hb⟩
    constructor
    · rintro (rfl | hq)
      · exact hp
      · exact hq
    · exact Or.inr

end

theorem MapSpec.of_attach {s₀ s s' : BlockStore} {n bi : Nat} {loc loc' : Pos → Nat}
    {ino ino' : TreeInode} {live : Pos → Prop} {q : Pos} {w : Nat}
    (st : Stage s₀ (Live n) loc s' ino' live loc' [bi]) (hr : SameRest ino ino')
    (hsf : s'.free <:+ s.free) (hs : slotOf (.data n) = .cell q w) (hq : live q)
    (hm : q.isMeta = true) (hw : w < 1024) (hd : ¬ live (.data n))
    (hl : ∀ p, Live (n + 1) p ↔ p = .data n ∨ live p) :
    MapSpec s₀ n bi loc ino s (true, ino', s'.poke (loc' q) fun b => b.setWord w bi) := by
  have hbi : bi ∈ [bi] := List.mem_cons_self ..
  have st' := st.attach_cell hbi hd hs hq hm (by simp only [blockSize_eq]; omega)
  rw [List.erase_cons_head] at st'
  refine ⟨hr, hsf, by simp, fun _ => ⟨_, st'.congr_live hl, Function.update_self .., ?_⟩⟩
  obtain ⟨hz, _, hne⟩ := st.fresh bi hbi
  simp only
  rw [BlockStore.poke_data_ne _ s' (Ne.symm (hne q hq))]
  exact hz

section
variable {s₀ s : BlockStore} {n bi : Nat} {loc : Pos → Nat} {ino : TreeInode}
  (st : Stage s₀ (Live n) loc s ino (Live n) loc [bi])
include st

theorem mapDirect_spec (hn : n < 12) : MapSpec s₀ n bi loc ino s (true, ino.setBlock n bi, s) := by
  have hbi : bi ∈ [bi] := List.mem_cons_self ..
  have st' := st.attach_root hbi (p := .data n) (Nat.lt_irrefl n) (slotOf_data_direct hn)
  rw [List.erase_cons_head] at st'
  refine ⟨SameRest.setBlock _ _ _, List.suffix_refl _, by simp,
    fun _ => ⟨_, st'.congr_live fun p => ?_, Function.update_self .., (st.fresh bi hbi).1⟩⟩
  cases p <;> simp [Live] <;> omega

theorem mapInd_spec (hn : 12 ≤ n) (hn' : n < 1036) :
    MapSpec s₀ n bi loc ino s (mapInd n bi ino s) := by
  unfold mapInd
  simp only [indBlock_eq, maxDirBlocks_eq]
  rcases h : openRoot 12 (n == 12) ino s with ⟨_ | ⟨i, b⟩, ino', s'⟩
  · obtain ⟨hr, hs, hf, -⟩ := openRoot_spec (p := .ind) rfl (by simp [Live]; omega) st h
    exact MapSpec.of_fail hr hs (hf rfl)
  · obtain ⟨hr, hs, -, hd⟩ := openRoot_spec (p := .ind) rfl (by simp [Live]; omega) st h
    obtain ⟨loc', st', rfl, -⟩ := hd i b rfl
    refine MapSpec.of_attach st' hr hs (slotOf_data_ind hn hn') (Or.inl rfl) rfl (by omega)
      ?_ fun p => ?_
    · simp [Live]
    · cases p <;> simp [Live] <;> omega

omit st in
theorem dind_inner : n - 12 - 1024 = n - 1036 := Nat.sub_sub n 12 1024

omit st in
theorem dind_count (hn : 1036 ≤ n) : n - 12 - 1 = n - 1036 + 1023 := by omega

theorem mapDind_spec (hn : 1036 ≤ n) (hn' : n < 1049612) :
    MapSpec s₀ n bi loc ino s (mapDind n bi ino s) := by
  unfold mapDind
  rw [dindBlock_eq, maxDirBlocks_eq, maxIndBlocks_eq, numIndirectBlocks_eq, dind_inner,
    dind_count hn]
  have hfirst : (n == 12 + 1024) = true ↔ ¬ Live n .dind := by simp [Live]; omega
  rcases h : openRoot 13 (n == 12 + 1024) ino s with ⟨_ | ⟨i, b⟩, ino', s'⟩
  · obtain ⟨hr, hs, hf, -⟩ := openRoot_spec (p := .dind) rfl hfirst st h
    exact MapSpec.of_fail hr hs (hf rfl)
  obtain ⟨hr, hs, -, hd⟩ := openRoot_spec (p := .dind) rfl hfirst st h
  obtain ⟨loc', st', rfl, hb⟩ := hd i b rfl
  have hslot := slotOf_data_dind hn hn'
  have hcell : slotOf (.dchild ((n - 1036) / 1024)) = .cell .dind ((n - 1036) / 1024) := rfl
  simp only
  split
  · -- a new double indirect block
    rename_i hinner
    have hnum : (n - 1036 + 1023) / 1024 = (n - 1036) / 1024 := by omega
    rw [hnum, BlockStore.allocRaw_eq]
    cases hh : s'.free.head? with
    | none => exact MapSpec.of_fail hr ((allocHead_suffix s').trans hs) (free_of_head_none hh)
    | some d =>
      have hnew : ¬ (.dchild ((n - 1036) / 1024) = Pos.dind ∨
        Live n (.dchild ((n - 1036) / 1024))) := by
        simp [Live]; omega
      have st2 := st'.attach_new hnew hh hcell (Or.inl rfl) rfl (by rw [blockSize_eq]; omega)
      have hd' : Function.update loc' (.dchild ((n - 1036) / 1024)) d
        (.dchild ((n - 1036) / 1024)) = d :=
        Function.update_self ..
      rw [hinner] at hslot
      have hl : ∀ p, Live (n + 1) p ↔ p = .data n ∨ p = .dchild ((n - 1036) / 1024) ∨ p = .dind ∨
        Live n p := by
        intro p; cases p <;> simp [Live] <;> omega
      have := MapSpec.of_attach st2 hr ((allocHead_suffix s').trans hs) hslot (Or.inl rfl) rfl
        (by omega)
        (by simp [Live]) hl
      rwa [hd'] at this
  · -- the last double indirect block has room
    rename_i hinner
    have hnum : (n - 1036 + 1023) / 1024 - 1 = (n - 1036) / 1024 := by omega
    have hlive : Live n (.dchild ((n - 1036) / 1024)) := by simp only [Live]; omega
    obtain ⟨-, b', hb', hbw⟩ := st'.tree.cell_slot _ _ _ (Or.inr hlive) hcell
    have hbb : b' = b := Option.some.inj (hb'.symm.trans hb)
    subst hbb
    obtain ⟨b2, hb2⟩ := Option.isSome_iff_exists.mp (st'.tree.alloc _ (Or.inr hlive))
    rw [hnum, hbw, BlockStore.getBlock_eq, hb2]
    refine MapSpec.of_attach st' hr hs hslot (Or.inr hlive) rfl (by omega) (by simp [Live]) fun p =>
      ?_
    cases p <;> simp [Live] <;> omega

omit st in
theorem tind_inner : n - 12 - 1024 - 1048576 = n - 1049612 := by
  rw [Nat.sub_sub, Nat.sub_sub]

omit st in
theorem tind_count (hn : 1049612 ≤ n) : n - 12 - 1024 - 1 = n - 1049612 + 1048575 := by omega

theorem mapTind_spec (hn : 1049612 ≤ n) (hn' : n < 2 ^ 29) :
    MapSpec s₀ n bi loc ino s (mapTind n bi ino s) := by
  unfold mapTind
  rw [tindBlock_eq, dindBlock_eq, maxDirBlocks_eq, maxIndBlocks_eq, maxDindBlocks_eq, tind_inner,
    tind_count hn]
  have hfirst : (n == 12 + 1024 + 1048576) = true ↔ ¬ Live n .tind := by simp [Live]; omega
  rcases h : openRoot 14 (n == 12 + 1024 + 1048576) ino s with ⟨_ | ⟨i, b⟩, ino', s'⟩
  · obtain ⟨hr, hs, hf, -⟩ := openRoot_spec (p := .tind) rfl hfirst st h
    exact MapSpec.of_fail hr hs (hf rfl)
  obtain ⟨hr, hs, -, hd⟩ := openRoot_spec (p := .tind) rfl hfirst st h
  obtain ⟨loc', st', rfl, hb⟩ := hd i b rfl
  have hslot := slotOf_data_tind hn
  have hlt : (n - 1049612) / 1048576 < 1024 := by omega
  have hmod : (n - 1049612) % 1024 = (n - 1049612) % 1048576 % 1024 := by omega
  rw [hmod] at hslot
  generalize ha : (n - 1049612) / 1048576 = a at hslot hlt
  generalize hm : (n - 1049612) % 1048576 = m at hslot
  have hnm : n = 1049612 + 1048576 * a + m := by omega
  have hm' : m < 1048576 := by omega
  have hnum : (n - 1049612 + 1048575) / 1048576 = if m = 0 then a else a + 1 := by split <;> omega
  rw [hnum]
  clear ha hm hmod hnum hfirst h
  have hl := live_succ_tind hnm hm'
  have hcell : slotOf (.tchild a) = .cell .tind a := rfl
  have hgcell : slotOf (.tgrand a (m / 1024)) = .cell (.tchild a) (m / 1024) := rfl
  have hdata : ¬ Live n (.data n) := Nat.lt_irrefl n
  simp only
  split
  · -- a new double and a new triple indirect block
    rename_i hm0
    rw [hm0, Nat.zero_mod, Nat.zero_div] at hslot
    rw [hm0, Nat.zero_div] at hl hgcell
    rw [BlockStore.allocRaw_eq]
    cases hh : s'.free.head? with
    | none => exact MapSpec.of_fail hr ((allocHead_suffix s').trans hs) (free_of_head_none hh)
    | some d =>
      have hs2 := (allocHead_suffix s').trans hs
      simp only [BlockStore.allocRaw_eq]
      cases hh2 : s'.allocHead.free.head? with
      | none => exact MapSpec.of_fail hr ((allocHead_suffix _).trans hs2) (free_of_head_none hh2)
      | some t =>
        have hnew : ¬ (.tchild a = Pos.tind ∨ Live n (.tchild a)) := by
          simp only [reduceCtorEq, false_or]
          exact not_live_tchild (by omega)
        have hnew' : ¬ (.tgrand a 0 = Pos.tchild a ∨ .tgrand a 0 = Pos.tind ∨
          Live n (.tgrand a 0)) := by
          simp only [reduceCtorEq, false_or]
          exact not_live_tgrand (by omega)
        have st1 := (st'.allocHead hh).allocHead hh2
        have htd : t ≠ d := fun e => (List.nodup_cons.mp st1.nodup).1 (by simp [e])
        have st2 := st1.attach_cell (i := d) (by simp) hnew hcell (Or.inl rfl) rfl
          (by rw [blockSize_eq]; omega)
        rw [List.erase_cons_tail (by simpa using htd), List.erase_cons_head] at st2
        have st3 := st2.attach_cell (i := t) (by simp) hnew' hgcell (Or.inl rfl) rfl
          (by rw [blockSize_eq]; omega)
        rw [List.erase_cons_head] at st3
        have := MapSpec.of_attach st3 hr ((allocHead_suffix _).trans hs2) hslot (Or.inl rfl) rfl
          (by omega)
          (by simpa using hdata) hl
        simpa only [Function.update_self, BlockStore.pokeWord_eq] using this
  · rename_i hm0
    have hlive : Live n (.tchild a) := by simp only [Live]; omega
    obtain ⟨-, b', hb', hbw⟩ := st'.tree.cell_slot _ _ _ (Or.inr hlive) hcell
    have hbb : b' = b := Option.some.inj (hb'.symm.trans hb)
    subst hbb
    obtain ⟨b2, hb2⟩ := Option.isSome_iff_exists.mp (st'.tree.alloc _ (Or.inr hlive))
    rw [Nat.add_sub_cancel, hbw, BlockStore.getBlock_eq, hb2]
    replace hl : ∀ p, Live (n + 1) p ↔ p = .data n ∨ p = .tgrand a (m / 1024) ∨ p = .tind ∨
      Live n p := by
      intro p
      by_cases hp : p = .tchild a
      · simp [hl, hp, hlive]
      · simp [hl, hp]
    simp only
    split
    · -- a new triple indirect block
      rename_i hm1
      rw [show (m + 1024 - 1) / 1024 = m / 1024 by omega, BlockStore.allocRaw_eq]
      rw [hm1] at hslot
      cases hh : s'.free.head? with
      | none => exact MapSpec.of_fail hr ((allocHead_suffix s').trans hs) (free_of_head_none hh)
      | some t =>
        have hnew : ¬ (.tgrand a (m / 1024) = Pos.tind ∨ Live n (.tgrand a (m / 1024))) := by
          simp only [reduceCtorEq, false_or]
          exact not_live_tgrand (by omega)
        have st2 := st'.attach_new hnew hh hgcell (Or.inr hlive) rfl (by rw [blockSize_eq]; omega)
        have := MapSpec.of_attach st2 hr ((allocHead_suffix s').trans hs) hslot (Or.inl rfl) rfl
          (by omega)
          (by simpa using hdata) hl
        simpa only [Function.update_self, BlockStore.pokeWord_eq] using this
    · -- the last triple indirect block has room
      rename_i hm1
      rw [show (m + 1024 - 1) / 1024 - 1 = m / 1024 by omega]
      have hglive : Live n (.tgrand a (m / 1024)) := by simp only [Live]; omega
      obtain ⟨-, b3, hb3, hbw3⟩ := st'.tree.cell_slot _ _ _ (Or.inr hglive) hgcell
      have hbb : b3 = b2 := Option.some.inj (hb3.symm.trans hb2)
      subst hbb
      obtain ⟨b4, hb4⟩ := Option.isSome_iff_exists.mp (st'.tree.alloc _ (Or.inr hglive))
      rw [hbw3, BlockStore.getBlock_eq, hb4]
      refine MapSpec.of_attach st' hr hs hslot (Or.inr hglive) rfl (by omega) (by simpa using hdata)
        fun p => ?_
      rw [hl p]
      by_cases hp : p = .tgrand a (m / 1024)
      · simp [hp, hglive]
      · simp [hp]

theorem mapBlock_spec (hn : n < 2 ^ 29) : MapSpec s₀ n bi loc ino s (mapBlock n bi ino s) := by
  unfold mapBlock
  rw [maxDirBlocks_eq, maxIndBlocks_eq, maxDindBlocks_eq]
  by_cases h1 : n < 12
  · rw [if_pos h1]; exact mapDirect_spec st h1
  rw [if_neg h1]
  by_cases h2 : n < 12 + 1024
  · rw [if_pos h2]; exact mapInd_spec st (Nat.not_lt.mp h1) h2
  rw [if_neg h2]
  by_cases h3 : n < 12 + 1024 + 1048576
  · rw [if_pos h3]; exact mapDind_spec st (Nat.not_lt.mp h2) h3
  rw [if_neg h3]
  exact mapTind_spec st (Nat.not_lt.mp h3) hn

end

/-- What `alloc_block` on an inode of `n` blocks comes to when it returns `i`:
the tree has grown by position `data n` at `i`, and besides its new blocks only
pointer blocks of the tree have changed. -/
structure Grown (s : BlockStore) (ino : TreeInode) (n : Nat) (loc : Pos →
  Nat) (i : Nat) (ino' : TreeInode)
    (s' : BlockStore) (loc' : Pos → Nat) : Prop where
  tree : Tree s' ino' (n + 1) loc'
  inode : ino' = { ino with iBlock := ino'.iBlock, iBlocks := 8 * (n + 1) }
  loc_new : loc' (.data n) = i
  loc_old : ∀ p, Live n p → loc' p = loc p
  zero : s'.data i = some Bytes.zero
  new_free : ∀ p, Live (n + 1) p → ¬ Live n p → s.data (loc' p) = none
  frame : ∀ j, s'.data j = s.data j ∨ ∃ p, Live (n + 1) p ∧ loc' p = j ∧
    (p.isMeta = true ∨ p = .data n)

theorem Grown.iBlocks {s s' : BlockStore} {ino ino' : TreeInode} {n i : Nat} {loc loc' : Pos → Nat}
    (g : Grown s ino n loc i ino' s' loc') : ino'.iBlocks = 8 * (n + 1) := by
  rw [g.inode]

theorem Grown.iSize {s s' : BlockStore} {ino ino' : TreeInode} {n i : Nat} {loc loc' : Pos → Nat}
    (g : Grown s ino n loc i ino' s' loc') : ino'.iSize = ino.iSize := by
  rw [g.inode]

theorem allocBlock_spec {s s' : BlockStore} {ino ino' : TreeInode} {n : Nat} {loc : Pos → Nat}
    {o : Option Nat} (t : Tree s ino n loc) (hb : ino.iBlocks = 8 * n) (hn : n + 1 < 2 ^ 29)
    (h : allocBlock ino s = (o, ino', s')) :
    s'.free <:+ s.free.tail ∧ (o = none → s'.free = []) ∧ ∀ i, o = some i →
      ∃ loc', Grown s ino n loc i ino' s' loc' := by
  unfold allocBlock at h
  rw [numAlignedBlocks_eq, hb, Nat.mul_div_cancel_left n (by omega), BlockStore.allocRaw_eq] at h
  cases hh : s.free.head? with
  | none =>
    simp only [hh, Prod.mk.injEq] at h
    obtain ⟨rfl, rfl, rfl⟩ := h
    exact ⟨List.suffix_refl _, fun _ => free_of_head_none hh, by simp⟩
  | some bi =>
    have spec := mapBlock_spec ((Stage.start t).allocHead hh) (Nat.lt_of_succ_lt hn)
    rcases hm : mapBlock n bi ino s.allocHead with ⟨ok, ino₁, s₁⟩
    simp only [hh, hm] at h
    rw [hm] at spec
    obtain ⟨hrest, hsuf, hfail, hdone⟩ := spec
    cases ok with
    | false =>
      cases h
      exact ⟨hsuf, fun _ => hfail rfl, by simp⟩
    | true =>
      cases h
      refine ⟨hsuf, by simp, fun i hi => ?_⟩
      cases hi
      obtain ⟨loc', st, hnew, hz⟩ := hdone rfl
      refine ⟨loc', st.tree, ?_, hnew, st.base_loc, hz, st.new_free, fun j => ?_⟩
      · have hib : ino₁.iBlocks = 8 * n := hrest.iBlocks.trans hb
        simp only [hib, logBlockSize_eq]
        rw [u32_of_lt (by omega)]
        exact hrest.with_iBlocks _
      · rcases st.frame j with h | h | ⟨p, hp, hpj, hpb⟩
        · exact Or.inl h
        · cases h
        · refine Or.inr ⟨p, hp, hpj, ?_⟩
          cases p with
          | data k =>
            rcases hpb with h | h
            · cases h
            · simp only [Live] at hp h
              exact Or.inr (congrArg Pos.data (by omega))
          | _ => exact Or.inl rfl

end NaiveFS
