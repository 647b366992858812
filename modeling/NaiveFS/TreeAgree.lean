import NaiveFS.TreeSound

/-!
# Allocator, reader and visitor agree

`allocBlock`, `bfSeek` and `visitInodeBlocks` compute the place of file block
`k` with three different formulas. Over a tree that the allocator has built,
`bfSeek k` ends at the block of position `data k` (`bfSeek_spec`), and the
visitor is called on the blocks of `data 0, data 1, …` in turn
(`visitInodeBlocks_spec`).
-/

namespace NaiveFS

open PointerTree BlockReader BlockLayer

/-! ## Seeking -/

/-- The cursor stands on the block of position `data k`, and its indirect blocks
are the ones on the way there. -/
structure SyncedAt (loc : Pos → Nat) (k : Nat) (c : Cursor) : Prop where
  id : c.blockIdInFile = k
  block : c.blockId = loc (.data k)
  ind : 12 ≤ k → k < 1036 → c.ind0 = loc .ind
  dind : 1036 ≤ k → k < 1049612 → c.ind0 = loc .dind ∧ c.ind1 = loc (.dchild ((k - 1036) / 1024))
  tind : 1049612 ≤ k → c.ind0 = loc .tind ∧ c.ind1 = loc (.tchild ((k - 1049612) / 1048576)) ∧
    c.ind2 = loc (.tgrand ((k - 1049612) / 1048576) ((k - 1049612) % 1048576 / 1024))

namespace SyncedAt

variable {loc : Pos → Nat} {k : Nat} {c : Cursor} (hid : c.blockIdInFile = k) (hb : c.blockId =
  loc (.data k))
include hid hb

theorem of_direct (hk : k < 12) : SyncedAt loc k c :=
  ⟨hid, hb, fun h => by omega, fun h => by omega, fun h => by omega⟩

theorem of_ind (hk : 12 ≤ k) (hk' : k < 1036) (h0 : c.ind0 = loc .ind) : SyncedAt loc k c :=
  ⟨hid, hb, fun _ _ => h0, fun h => by omega, fun h => by omega⟩

theorem of_dind (hk : 1036 ≤ k) (hk' : k < 1049612) (h0 : c.ind0 = loc .dind)
    (h1 : c.ind1 = loc (.dchild ((k - 1036) / 1024))) : SyncedAt loc k c :=
  ⟨hid, hb, fun _ h => by omega, fun _ _ => ⟨h0, h1⟩, fun h => by omega⟩

theorem of_tind (hk : 1049612 ≤ k) (h0 : c.ind0 = loc .tind)
    (h1 : c.ind1 = loc (.tchild ((k - 1049612) / 1048576)))
    (h2 : c.ind2 = loc (.tgrand ((k - 1049612) / 1048576) ((k - 1049612) % 1048576 / 1024))) :
    SyncedAt loc k c :=
  ⟨hid, hb, fun _ h => by omega, fun _ h => by omega, fun _ => ⟨h0, h1, h2⟩⟩

end SyncedAt

section
variable {s : BlockStore} {ino : TreeInode} {n : Nat} {loc : Pos → Nat} (t : Tree s ino n loc)
include t

theorem Tree.ptr_eq {p q : Pos} {w : Nat} (hp : Live n p) (hs : slotOf p = .cell q w) :
    s.ptr (loc q) w = some (loc p) := by
  obtain ⟨-, b, hb, hbw⟩ := t.cell_slot p q w hp hs
  unfold BlockStore.ptr
  rw [hb]
  exact congrArg some hbw

theorem bfSeek_spec {k : Nat} (hk : k < n) (hn : n < 2 ^ 29) (c : Cursor) :
    ∃ c', bfSeek ino s c k = (0, c') ∧ SyncedAt loc k c' ∧
      c'.cacheUpdateFlag = c.cacheUpdateFlag := by
  have hd : Live n (.data k) := hk
  unfold bfSeek
  rw [iblock11_eq, iblock12_eq, iblock13_eq, iblock14_eq, blockSize_eq, indBlock_eq, dindBlock_eq,
    tindBlock_eq]
  by_cases h1 : k ≤ 11
  · simp only [h1, ite_true]
    exact ⟨_, rfl, .of_direct rfl (t.root_slot _ _ hd (slotOf_data_direct (by omega))) (by omega),
      rfl⟩
  simp only [h1, ite_false]
  by_cases h2 : k ≤ 1035
  · have hr := t.root_slot .ind 12 (by simp only [Live]; omega) rfl
    have hc := t.ptr_eq hd (slotOf_data_ind (by omega) (by omega))
    simp only [h2, ite_true, Cursor.hop, hr, Nat.sub_sub, Nat.reduceAdd, hc]
    exact ⟨_, rfl, .of_ind rfl rfl (by omega) (by omega) rfl, rfl⟩
  simp only [h2, ite_false]
  by_cases h3 : k ≤ 1049611
  · have hr := t.root_slot .dind 13 (by simp only [Live]; omega) rfl
    have hslot := slotOf_data_dind (k := k) (by omega) (by omega)
    have hc := t.ptr_eq hd hslot
    have hc1 := t.ptr_eq (t.cell_slot _ _ _ hd hslot).1 rfl
    simp only [h3, ite_true, Cursor.hop, Cursor.hop1, hr, Nat.sub_sub, Nat.reduceAdd, Nat.reduceDiv,
      hc1, hc]
    exact ⟨_, rfl, .of_dind rfl rfl (by omega) (by omega) rfl rfl, rfl⟩
  simp only [h3, ite_false]
  have hr := t.root_slot .tind 14 (by simp only [Live]; omega) rfl
  have hslot := slotOf_data_tind (k := k) (by omega)
  have hc := t.ptr_eq hd hslot
  have hg := (t.cell_slot _ _ _ hd hslot).1
  have hc2 := t.ptr_eq hg rfl
  have hc1 := t.ptr_eq (t.cell_slot _ _ _ hg rfl).1 rfl
  simp only [show k ≤ 1074791435 by omega, ite_true, Cursor.hop, Cursor.hop1, Cursor.hop2, hr,
    Nat.sub_sub, Nat.reduceAdd, Nat.reduceDiv, Nat.reduceMul, hc1, hc2, hc]
  exact ⟨_, rfl, .of_tind rfl rfl (by omega) rfl rfl rfl, rfl⟩

end

/-! ## Visiting -/

section
variable {α : Type} {base : Nat}

/-- The visitor called on the blocks `is` in turn. -/
def callAll (v : Visitor BlockStore α) (is : List Nat) (st : α × BlockStore) : α × BlockStore :=
  is.foldl (fun st i => (v i ((st.2.data i).getD Bytes.zero) st).2) st

/-- A visitor that never stops and stores into the block it is called on only. -/
def NeverStops (v : Visitor BlockStore α) : Prop :=
  ∀ i b st, (v i b st).1 = false ∧ (∀ j, j ≠ i → (v i b st).2.2.data j = st.2.data j) ∧
    ∀ j, ((v i b st).2.2.data j).isSome = (st.2.data j).isSome

theorem visitEntries_steps (w : Visitor BlockStore α) (p : Nat) (ind : Block) (num left : Nat)
    (F : Nat → α × BlockStore) :
    ∀ m k, (∀ j, k ≤ j → j < k + m → j < num ∧
        ∃ b, (F j).2.data (ind.word j) = some b ∧ w (ind.word j) b (F j) = (false, F (j + 1))) →
      visitEntries w p ind num (m + left) k (F k) =
      visitEntries w p ind num left (k + m) (F (k + m)) := by
  intro m
  induction m with
  | zero => intro k _; rw [Nat.zero_add, Nat.add_zero]
  | succ m ih =>
    intro k h
    obtain ⟨hk, b, hb, hw⟩ := h k (Nat.le_refl k) (by omega)
    rw [show m + 1 + left = (m + left) + 1 by omega, show k + (m + 1) = k + 1 + m by omega,
      ← ih (k + 1) fun j h1 h2 => h j (by omega) (by omega)]
    simp only [visitEntries, BlockStore.peek_eq, BlockStore.getBlock_eq, if_pos hk, hb, hw]

theorem visitEntries_done (w : Visitor BlockStore α) (p : Nat) (ind : Block) {num left k : Nat}
    (st : α × BlockStore) (h : left = 0 ∨ num ≤ k) :
    visitEntries w p ind num left k st = (true, st) := by
  cases left with
  | zero => rfl
  | succ left =>
    have hk : ¬ k < num := by omega
    simp only [visitEntries, if_neg hk]

theorem visitEntries_idle (w : Visitor BlockStore α) (p : Nat) (ind : Block) (num : Nat)
    (st : α × BlockStore) (h : ∀ i b, w i b st = (false, st)) :
    ∀ left k, (visitEntries w p ind num left k st).2 = st := by
  intro left
  induction left with
  | zero => intro k; rfl
  | succ left ih =>
    intro k
    simp only [visitEntries, BlockStore.peek_eq, BlockStore.getBlock_eq]
    split
    · cases hb : st.2.data (ind.word k) with
      | none => rfl
      | some b =>
        simp only
        rw [h]
        exact ih (k + 1)
    · rfl

/-- The first `m` file blocks visited. -/
@[irreducible] def walk (v : Visitor BlockStore α) (loc : Pos → Nat) (st : α × BlockStore)
    (m : Nat) : α × BlockStore :=
  callAll v ((List.range m).map fun k => loc (.data k)) st

/-! ### Pointer blocks

The walk over the pointer blocks of a file, whatever the visitor does below each
of them: `F m` is the state in which the walk has passed the file blocks below `m`. -/

/-- A walk that passes the data blocks below one pointer block at a time. -/
structure Passes (v : Visitor BlockStore α) (ino : TreeInode) (n : Nat) (loc : Pos → Nat) (F : Nat →
  α × BlockStore) : Prop where
  tree : ∀ m, m ≤ n → Tree (F m).2 ino n loc
  chunk : ∀ base, base ≤ n → base % 1024 = 12 → ∀ (p : Nat) (ind : Block),
    (∀ j, j < 1024 → base + j < n → ind.word j = loc (.data (base + j))) →
    visitIndirectBlocks v p ind (n - base) (F base) = (true, F (min n (base + 1024)))

/-- The state of the nested visitors after `m` blocks: `curr_num` is `m`. -/
def counted (F : Nat → α × BlockStore) (m : Nat) : (Nat × α) × BlockStore := ((m, (F m).1), (F m).2)

theorem Tree.block_words {s : BlockStore} {ino : TreeInode} {n : Nat} {loc : Pos → Nat}
    (t : Tree s ino n loc) {q : Pos} (hq : Live n q) :
    ∃ b, s.data (loc q) = some b ∧ ∀ p w, Live n p → slotOf p = .cell q w → b.word w = loc p := by
  obtain ⟨b, hb⟩ := Option.isSome_iff_exists.mp (t.alloc q hq)
  refine ⟨b, hb, fun p w hp hs => ?_⟩
  obtain ⟨-, b', hb', hbw⟩ := t.cell_slot p q w hp hs
  rw [hb] at hb'
  cases hb'
  exact hbw

theorem slotOf_data_dchild {c j : Nat} (hc : c < 1024) (hj : j < 1024) :
    slotOf (.data (1036 + 1024 * c + j)) = .cell (.dchild c) j := by
  rw [slotOf_data_dind (by omega) (by omega), show 1036 + 1024 * c + j - 1036 =
    1024 * c + j by omega, show (1024 * c + j) / 1024 = c by omega, show (1024 * c + j) % 1024 =
    j by omega]

theorem slotOf_data_tgrand {a b j : Nat} (hb : b < 1024) (hj : j < 1024) :
    slotOf (.data (1049612 + 1048576 * a + 1024 * b + j)) = .cell (.tgrand a b) j := by
  rw [slotOf_data_tind (by omega),
    show 1049612 + 1048576 * a + 1024 * b + j - 1049612 = 1048576 * a + (1024 * b + j) by omega,
    show (1048576 * a + (1024 * b + j)) / 1048576 = a by omega,
    show (1048576 * a + (1024 * b + j)) % 1048576 / 1024 = b by omega,
    show (1048576 * a + (1024 * b + j)) % 1024 = j by omega]

section
variable {v : Visitor BlockStore α} {ino : TreeInode} {n : Nat} {loc : Pos → Nat}
  {F : Nat → α × BlockStore}
  (hp : Passes v ino n loc F) (hn : n < 2 ^ 29)
include hp

theorem indirectVisitor_spec (hb : base ≤ n) (hal : base % 1024 = 12) {ind : Block}
    (hw : ∀ j, j < 1024 → base + j < n → ind.word j = loc (.data (base + j))) (i : Nat) :
    indirectVisitor v n i ind (counted F base) = (false, counted F (min n (base + 1024))) := by
  have h := hp.chunk base hb hal i ind hw
  simp only [indirectVisitor, counted, numIndirectBlocks_eq]
  rw [h, show base + min (n - base) 1024 = min n (base + 1024) by omega]

/-- The walk over the pointer blocks below a double indirect block, `base` the
first file block there. Entries past the last one may be asked for. -/
theorem visitDouble_spec (hbase : base ≤ n) (hal : base % 1024 = 12) (num : Nat)
    (hnum : (n - base + 1023) / 1024 ≤ num) (p : Nat) (dbl : Block) (P : Nat → Pos)
    (hP : ∀ c, c < 1024 → base + 1024 * c < n → dbl.word c = loc (P c) ∧ ∀ j, j < 1024 →
      slotOf (.data (base + 1024 * c + j)) = .cell (P c) j) :
    (visitIndirectBlocks (indirectVisitor v n) p dbl num (counted F base)).2 =
      counted F (min n (base + 1048576)) ∧ (num = (n - base + 1023) / 1024 →
        (visitIndirectBlocks (indirectVisitor v n) p dbl num (counted F base)).1 = true) := by
  unfold visitIndirectBlocks
  rw [numIndirectBlocks_eq]
  generalize hc : min 1024 ((n - base + 1023) / 1024) = cnt
  have hstep := visitEntries_steps (indirectVisitor v n) p dbl num (1024 - cnt)
    (fun c => counted F (min n (base + 1024 * c))) cnt 0 ?_
  · simp only [Nat.mul_zero, Nat.add_zero, Nat.zero_add, Nat.min_eq_right hbase] at hstep
    rw [show cnt + (1024 - cnt) = 1024 by omega, show min n (base + 1024 * cnt) =
      min n (base + 1048576) by omega]
      at hstep
    rw [hstep]
    by_cases hdone : 1024 - cnt = 0 ∨ num ≤ cnt
    · rw [visitEntries_done _ _ _ _ hdone]
      exact ⟨rfl, fun _ => rfl⟩
    · -- all blocks are visited: `curr_num` is `n` and further entries are asked for zero blocks
      have hend : min n (base + 1048576) = n := by omega
      refine ⟨visitEntries_idle _ _ _ _ _ (fun i b => ?_) _ _, fun h => by omega⟩
      rw [hend]
      simp only [indirectVisitor, counted, Nat.sub_self, Nat.zero_min, Nat.add_zero]
      rw [visitIndirectBlocks, visitEntries_done _ _ _ _ (Or.inr (Nat.zero_le 0))]
  · intro c _ hcn
    have hlt : base + 1024 * c < n := by omega
    obtain ⟨hword, hslot⟩ := hP c (by omega) hlt
    rw [Nat.min_eq_right (Nat.le_of_lt hlt)]
    have tm := hp.tree (base + 1024 * c) (Nat.le_of_lt hlt)
    obtain ⟨hq, -⟩ := tm.cell_slot (.data (base + 1024 * c)) (P c) 0 hlt (hslot 0 (by omega))
    obtain ⟨b, hb, hbw⟩ := tm.block_words hq
    refine ⟨by omega, b, by rw [hword]; exact hb, ?_⟩
    rw [indirectVisitor_spec hp (Nat.le_of_lt hlt) (by omega), show base + 1024 * c + 1024 =
      base + 1024 * (c + 1) by omega]
    intro j hj hjn
    exact hbw (.data (base + 1024 * c + j)) j hjn (hslot j hj)

include hn

theorem visitTind_spec (hbase : base = 1049612) (h : base < n) :
    visitTind v ino n base (F base).1 (F base).2 = F n := by
  have hl : Live n .tind := by simp only [Live]; omega
  have t0 := hp.tree base (Nat.le_of_lt h)
  have hr := t0.root_slot .tind 14 hl rfl
  obtain ⟨ind, hind, hword⟩ := t0.block_words hl
  unfold visitTind visitIndirectBlocks
  rw [tindBlock_eq, BlockStore.getBlock_eq, hr, hind, numIndirectBlocks_eq, maxDindBlocks_eq]
  simp only
  generalize hc : (n - base + 1048576 - 1) / 1048576 = cnt
  have hstep := visitEntries_steps (doubleIndirectVisitor v n) (loc .tind) ind cnt (1024 - cnt)
    (fun a => counted F (min n (base + 1048576 * a))) cnt 0 ?_
  · simp only [Nat.mul_zero, Nat.add_zero, Nat.zero_add, Nat.min_eq_right (Nat.le_of_lt h)] at hstep
    rw [show cnt + (1024 - cnt) = 1024 by omega, show min n (base + 1048576 * cnt) = n by omega,
      visitEntries_done _ _ _ _ (Or.inr (Nat.le_refl cnt))] at hstep
    rw [counted] at hstep
    rw [hstep]
    rfl
  · intro a _ ha
    have hlt : base + 1048576 * a < n := by omega
    have hla : Live n (.tchild a) := by simp only [Live]; omega
    rw [Nat.min_eq_right (Nat.le_of_lt hlt)]
    have tm := hp.tree (base + 1048576 * a) (Nat.le_of_lt hlt)
    obtain ⟨dbl, hdbl, hdw⟩ := tm.block_words hla
    have hd := visitDouble_spec hp (Nat.le_of_lt hlt) (by omega) (n - (base + 1048576 * a))
      (by omega)
      (ind.word a) dbl (.tgrand a) fun c hcl hcn =>
        ⟨hdw (.tgrand a c) c (by simp only [Live]; omega) rfl, fun j hj => by
          rw [hbase]; exact slotOf_data_tgrand hcl hj⟩
    refine ⟨by omega, dbl, ?_, ?_⟩
    · rw [hword (.tchild a) a hla rfl]; exact hdbl
    · unfold doubleIndirectVisitor
      rw [show base + 1048576 * (a + 1) = base + 1048576 * a + 1048576 by omega, ← hd.1]
      rfl

theorem visitDind_spec (hbase : base = 1036) (h : base < n) :
    visitDind v ino n base (F base).1 (F base).2 = F n := by
  have hl : Live n .dind := by simp only [Live]; omega
  have t0 := hp.tree base (Nat.le_of_lt h)
  have hr := t0.root_slot .dind 13 hl rfl
  obtain ⟨ind, hind, hword⟩ := t0.block_words hl
  obtain ⟨hd, hok⟩ := visitDouble_spec hp (Nat.le_of_lt h) (by omega) ((n - base + 1023) / 1024)
    (Nat.le_refl _)
    (loc .dind) ind .dchild fun c hcl hcn =>
      ⟨hword (.dchild c) c (by simp only [Live]; omega) rfl, fun j hj => by
        rw [hbase]; exact slotOf_data_dchild hcl hj⟩
  have hd' := Prod.ext (y := (true, counted F (min n (base + 1048576)))) (hok rfl) hd
  unfold visitDind
  rw [dindBlock_eq, BlockStore.getBlock_eq, hr, hind, numIndirectBlocks_eq]
  rw [counted] at hd'
  rw [show n - base + 1024 - 1 = n - base + 1023 by omega]
  simp only [hd', counted]
  by_cases hfin : n ≤ base + 1048576
  · simp only [Nat.min_eq_left hfin, ite_true]
  · simp only [Nat.min_eq_right (Nat.le_of_lt (Nat.not_le.mp hfin)),
      if_neg (Nat.ne_of_lt (Nat.not_le.mp hfin))]
    exact visitTind_spec hp hn (by omega) (by omega)

theorem visitInd_spec (h : 12 < n) : visitInd v ino n 12 (F 12).1 (F 12).2 = F n := by
  have t0 := hp.tree 12 (Nat.le_of_lt h)
  have hr := t0.root_slot .ind 12 h rfl
  obtain ⟨ind, hind, hword⟩ := t0.block_words (q := .ind) h
  have hchunk := hp.chunk 12 (Nat.le_of_lt h) rfl (loc .ind) ind fun j hj hjn =>
    hword (.data (12 + j)) j hjn
      (by rw [slotOf_data_ind (by omega) (by omega), Nat.add_sub_cancel_left])
  unfold visitInd
  rw [indBlock_eq, BlockStore.getBlock_eq, hr, hind, maxIndBlocks_eq]
  simp only [hchunk]
  by_cases hfin : n ≤ 1036
  · rw [if_pos (by omega), Nat.min_eq_left (by omega)]
  · rw [if_neg (by omega), show 12 + min (n - 12) 1024 = 1036 by omega, show min n (12 + 1024) =
      1036 by omega]
    exact visitDind_spec hp hn rfl (by omega)

end

/-! ### Visitors that never stop -/

section
variable {v : Visitor BlockStore α} (hv : NeverStops v) {ino : TreeInode} {n : Nat}
  {loc : Pos → Nat}
  {st : α × BlockStore} (t : Tree st.2 ino n loc) (hn : n < 2 ^ 29)

theorem walk_succ (m : Nat) :
    walk v loc st (m + 1) =
      (v (loc (.data m)) (((walk v loc st m).2.data (loc (.data m))).getD Bytes.zero)
        (walk v loc st m)).2 := by
  simp only [walk, callAll, List.range_succ, List.map_append, List.foldl_append, List.map_cons,
    List.map_nil, List.foldl_cons, List.foldl_nil]

theorem walk_zero : walk v loc st 0 = st := by unfold walk; rfl

include hv t hn

theorem walk_tree : ∀ m ≤ n, Tree (walk v loc st m).2 ino n loc := by
  intro m
  induction m with
  | zero => intro _; rw [walk_zero]; exact t
  | succ m ih =>
    intro hm
    have tm := ih (by omega)
    obtain ⟨-, hne, hs⟩ :=
      hv (loc (.data m)) (((walk v loc st m).2.data (loc (.data m))).getD Bytes.zero)
      (walk v loc st m)
    rw [walk_succ]
    refine tm.store (Nat.le_of_lt hn) (fun i hi => ?_) fun p hp hmeta => ?_
    · rw [hs i]; exact hi
    · refine hne _ fun e => ?_
      have := tm.inj p (.data m) hp (show m < n by omega) e
      rw [this] at hmeta
      cases hmeta

theorem walk_step {m : Nat} (hm : m < n) :
    ∃ b, (walk v loc st m).2.data (loc (.data m)) = some b ∧
      v (loc (.data m)) b (walk v loc st m) = (false, walk v loc st (m + 1)) := by
  have tm := walk_tree hv t hn m (Nat.le_of_lt hm)
  obtain ⟨b, hb⟩ := Option.isSome_iff_exists.mp (tm.alloc (.data m) hm)
  refine ⟨b, hb, ?_⟩
  rw [walk_succ, hb, Option.getD_some]
  exact Prod.ext (hv _ _ _).1 rfl

theorem visitDirect_spec : ∀ left i, i + left = 12 → i < n →
    visitDirect v ino n left i (walk v loc st i) =
      if n ≤ 12 then (true, walk v loc st n) else (false, walk v loc st 12) := by
  intro left
  induction left with
  | zero =>
    intro i hi hin
    have : i = 12 := by omega
    subst this
    rw [if_neg (by omega)]
    rfl
  | succ left ih =>
    intro i hi hin
    obtain ⟨b, hb, hvb⟩ := walk_step hv t hn hin
    have hr := t.root_slot (.data i) i hin (slotOf_data_direct (by omega))
    simp only [visitDirect, BlockStore.getBlock_eq, hr, hb, hvb]
    by_cases he : i + 1 = n
    · rw [if_pos he, if_pos (by omega), he]
    · rw [if_neg he]
      by_cases h12 : i + 1 = 12
      · have : left = 0 := by omega
        subst this
        rw [if_neg (by omega), h12]
        rfl
      · exact ih (i + 1) (by omega) (by omega)

theorem walk_passes : Passes v ino n loc (walk v loc st) := by
  refine ⟨walk_tree hv t hn, fun base hb _ p ind hw => ?_⟩
  unfold visitIndirectBlocks
  rw [numIndirectBlocks_eq]
  have hstep := visitEntries_steps v p ind (n - base) (1024 - min 1024 (n - base))
    (fun j => walk v loc st (base + j))
    (min 1024 (n - base)) 0 ?_
  · simp only [Nat.add_zero, Nat.zero_add] at hstep
    rw [show min 1024 (n - base) + (1024 - min 1024 (n - base)) = 1024 by omega] at hstep
    rw [hstep, visitEntries_done _ _ _ _ (by omega), show base + min 1024 (n - base) =
      min n (base + 1024) by omega]
  · intro j _ hj
    refine ⟨by omega, ?_⟩
    rw [hw j (by omega) (by omega)]
    exact walk_step hv t hn (by omega)

theorem visitInodeBlocks_spec (hb : ino.iBlocks = 8 * n) :
    visitInodeBlocks v ino st.1 st.2 = walk v loc st n := by
  unfold visitInodeBlocks
  rw [numAlignedBlocks_eq, hb, Nat.mul_div_cancel_left n (by omega), ndirBlocks_eq, maxDirBlocks_eq]
  by_cases h0 : n = 0
  · subst h0; exact walk_zero.symm
  have hdir := visitDirect_spec hv t hn 12 0 rfl (Nat.pos_of_ne_zero h0)
  rw [walk_zero] at hdir
  simp only [if_neg h0, hdir]
  by_cases hfin : n ≤ 12
  · rw [if_pos hfin]
  · rw [if_neg hfin]
    exact visitInd_spec (walk_passes hv t hn) hn (by omega)

end

end

/-! ## Runs of the allocator -/

/-- `n` calls of `alloc_block` on one inode and the indices they return; `none`
when one of them fails. -/
def allocBlocks : Nat → TreeInode → BlockStore → Option (List Nat × TreeInode × BlockStore)
  | 0, ino, s => some ([], ino, s)
  | n + 1, ino, s =>
    match allocBlocks n ino s with
    | none => none
    | some (is, ino, s) =>
      match allocBlock ino s with
      | (none, _) => none
      | (some i, ino, s) => some (is ++ [i], ino, s)

theorem allocBlocks_tree {ino : TreeInode} {s : BlockStore} (h0 : ino.iBlocks = 0) :
    ∀ {n is ino' s'}, n < 2 ^ 29 →
    allocBlocks n ino s = some (is, ino', s') →
    ∃ loc, Tree s' ino' n loc ∧ ino'.iBlocks = 8 * n ∧
      is = (List.range n).map fun k => loc (.data k) := by
  intro n
  induction n with
  | zero =>
    intro is ino' s' _ h
    cases h
    exact ⟨fun _ => 0, Tree.empty _ _ _, h0, rfl⟩
  | succ n ih =>
    intro is ino' s' hn h
    unfold allocBlocks at h
    cases hr : allocBlocks n ino s with
    | none => rw [hr] at h; cases h
    | some r =>
      obtain ⟨is₁, ino₁, s₁⟩ := r
      obtain ⟨loc, t, hb, his⟩ := ih (by omega) hr
      rw [hr] at h
      rcases ha : allocBlock ino₁ s₁ with ⟨_ | i, ino₂, s₂⟩
      · simp only [ha, reduceCtorEq] at h
      · simp only [ha, Option.some.injEq, Prod.mk.injEq] at h
        obtain ⟨rfl, rfl, rfl⟩ := h
        obtain ⟨loc', g⟩ := (allocBlock_spec t hb hn ha).2.2 i rfl
        refine ⟨loc', g.tree, g.iBlocks, ?_⟩
        rw [List.range_succ, List.map_append, his, List.map_cons, List.map_nil, g.loc_new]
        congr 1
        exact List.map_congr_left fun k hk => (g.loc_old (.data k) (List.mem_range.mp hk)).symm

theorem allocBlocks_agree {ino ino' : TreeInode} {s s' : BlockStore} {n : Nat} {is : List Nat}
    (h0 : ino.iBlocks = 0) (hn : n < 2 ^ 29) (h : allocBlocks n ino s = some (is, ino', s')) :
    is.length = n ∧
    (∀ k i, is[k]? = some i → ∀ c, ∃ c', bfSeek ino' s' c k = (0, c') ∧ c'.blockId = i) ∧
    (∀ (α : Type) (v : Visitor BlockStore α) (a : α), NeverStops v →
      visitInodeBlocks v ino' a s' = callAll v is (a, s')) ∧
    ∀ j ino'' s'', n + 1 < 2 ^ 29 → allocBlock ino' s' = (some j, ino'', s'') →
      ∀ k i, is[k]? = some i → ∀ c, ∃ c', bfSeek ino'' s'' c k = (0, c') ∧ c'.blockId = i := by
  obtain ⟨loc, t, hb, rfl⟩ := allocBlocks_tree h0 hn h
  have hget : ∀ k i, ((List.range n).map fun k => loc (.data k))[k]? = some i → k < n ∧
    loc (.data k) = i := by
    intro k i hk
    obtain ⟨hlt, he⟩ := List.getElem?_eq_some_iff.mp hk
    simp only [List.length_map, List.length_range, List.getElem_map, List.getElem_range] at hlt he
    exact ⟨hlt, he⟩
  refine ⟨by simp, fun k i hk c => ?_, fun α v a hv => ?_, fun j ino'' s'' hn' ha k i hk c => ?_⟩
  · obtain ⟨hlt, rfl⟩ := hget k i hk
    obtain ⟨c', hc, hsync, -⟩ := bfSeek_spec t hlt hn c
    exact ⟨c', hc, hsync.block⟩
  · have t' : Tree (a, s').2 ino' n loc := t
    have hvisit := visitInodeBlocks_spec hv t' hn hb
    rwa [walk] at hvisit
  · obtain ⟨hlt, rfl⟩ := hget k i hk
    obtain ⟨loc', g⟩ := (allocBlock_spec t hb hn' ha).2.2 j rfl
    obtain ⟨c', hc, hsync, -⟩ := bfSeek_spec g.tree (Nat.lt_succ_of_lt hlt) hn' c
    exact ⟨c', hc, hsync.block.trans (g.loc_old (.data k) hlt)⟩

theorem allocBlocks_agree_two :
    ∃ ino' s', allocBlocks 2 (.init 0) (.blank [7, 9] (by decide) (by decide)) =
      some ([7, 9], ino', s') ∧ visitInodeBlocks (fun i _ st => (false, st.1 ++ [i], st.2)) ino' []
      s' = ([7, 9], s') := by
  obtain ⟨ino', s', h⟩ : ∃ ino' s',
    allocBlocks 2 (.init 0) (.blank [7, 9] (by decide) (by decide)) =
    some ([7, 9], ino', s') := ⟨_, _, rfl⟩
  exact ⟨ino', s', h, (allocBlocks_agree rfl (by decide) h).2.2.1 (List Nat)
    (fun i _ st => (false, st.1 ++ [i], st.2)) [] fun _ _ _ => ⟨rfl, fun _ _ => rfl, fun _ => rfl⟩⟩

/-! ## Room for a run -/

section
variable {s s' : BlockStore}

theorem allocRaw_spends {o : Option Nat} (h : allocRaw s = (o, s')) :
    s.free.length ≤ s'.free.length + 1 := by
  rw [BlockStore.allocRaw_eq, Prod.mk.injEq] at h
  rw [← h.2, BlockStore.allocHead_free, List.length_tail]
  omega

theorem getBlock_spends {i : Nat} {o : Option Block} (h : getBlock i false s = (o, s')) :
    s.free.length = s'.free.length := by
  rw [BlockStore.getBlock_eq, Prod.mk.injEq] at h
  rw [h.2]

theorem openRoot_spends {slot : Nat} {first : Bool} {ino ino' : TreeInode}
    {o : Option (Nat × Block)} (h : openRoot slot first ino s = (o, ino', s')) :
    s.free.length ≤ s'.free.length + 1 := by
  unfold openRoot at h
  split at h
  · split at h <;> rename_i ha <;> cases h <;> exact allocRaw_spends ha
  · split at h <;> rename_i ha <;> cases h <;> have := getBlock_spends ha <;> omega

theorem mapDind_spends (n bi : Nat) (ino : TreeInode) (s : BlockStore) :
    s.free.length ≤ (mapDind n bi ino s).2.2.free.length + 2 := by
  unfold mapDind
  split <;> rename_i he <;> have hroot := openRoot_spends he
  · simp only
    omega
  simp only
  split
  · split <;> rename_i ha <;> have halloc :=
      allocRaw_spends ha <;> simp only [BlockStore.pokeWord_eq, BlockStore.poke_free] <;> omega
  · split <;> rename_i ha <;> have hget := getBlock_spends ha <;>
      simp only [BlockStore.pokeWord_eq, BlockStore.poke_free] <;> omega

theorem mapTind_spends (n bi : Nat) (ino : TreeInode) (s : BlockStore) :
    s.free.length ≤ (mapTind n bi ino s).2.2.free.length + 3 := by
  unfold mapTind
  split <;> rename_i he <;> have hroot := openRoot_spends he
  · simp only
    omega
  simp only
  split
  · split <;> rename_i ha <;> have halloc := allocRaw_spends ha
    · simp only
      omega
    split <;> rename_i ha <;> have halloc :=
      allocRaw_spends ha <;> simp only [BlockStore.pokeWord_eq, BlockStore.poke_free] <;> omega
  · split <;> rename_i ha <;> have hget := getBlock_spends ha
    · simp only
      omega
    split
    · split <;> rename_i ha <;> have halloc :=
        allocRaw_spends ha <;> simp only [BlockStore.pokeWord_eq, BlockStore.poke_free] <;> omega
    · split <;> rename_i ha <;> have hget :=
        getBlock_spends ha <;> simp only [BlockStore.pokeWord_eq, BlockStore.poke_free] <;> omega

theorem allocBlock_spends {ino ino' : TreeInode} {o : Option Nat}
    (h : allocBlock ino s = (o, ino', s')) :
    s.free.length ≤ s'.free.length + 4 := by
  have hmap : ∀ n bi (t : BlockStore), t.free.length ≤
    (mapBlock n bi ino t).2.2.free.length + 3 := by
    intro n bi t
    unfold mapBlock
    split
    · exact Nat.le_add_right _ _
    split
    · unfold mapInd
      split <;> rename_i he <;> have hroot :=
        openRoot_spends he <;> simp only [BlockStore.pokeWord_eq, BlockStore.poke_free] <;> omega
    split
    · have := mapDind_spends n bi ino t
      omega
    · exact mapTind_spends n bi ino t
  unfold allocBlock at h
  split at h <;> rename_i ha <;> have halloc := allocRaw_spends ha
  · cases h
    omega
  · rename_i b t
    have hb := hmap (numAlignedBlocks ino.iBlocks) b t
    split at h <;> rename_i hm <;> rw [hm] at hb <;> cases h <;> simp only at hb <;> omega

end

theorem allocBlocks_some {ino : TreeInode} (h0 : ino.iBlocks = 0) :
    ∀ {n : Nat} {s : BlockStore}, n < 2 ^ 29 →
    4 * n < s.free.length → ∃ is ino' s', allocBlocks n ino s = some (is, ino', s') ∧
      s.free.length ≤ s'.free.length + 4 * n := by
  intro n
  induction n with
  | zero => exact fun {s} _ _ => ⟨[], ino, s, rfl, Nat.le_refl _⟩
  | succ n ih =>
    intro s hn hfree
    obtain ⟨is, ino₁, s₁, hrun, hspent⟩ := ih (s := s) (by omega) (by omega)
    obtain ⟨loc, t, hb, -⟩ := allocBlocks_tree h0 (by omega) hrun
    unfold allocBlocks
    rw [hrun]
    rcases ha : allocBlock ino₁ s₁ with ⟨_ | i, ino₂, s₂⟩ <;> have hspent' := allocBlock_spends ha
    · have hnil := (allocBlock_spec t hb hn ha).2.1 rfl
      rw [hnil, List.length_nil] at hspent'
      omega
    · refine ⟨is ++ [i], ino₂, s₂, ?_, by omega⟩
      simp only [ha]

theorem exists_blank (n : Nat) (h : n < 2 ^ 32) : ∃ s : BlockStore, s.free.length = n := by
  refine ⟨.blank (List.range' 1 n) List.nodup_range' ?_, List.length_range'⟩
  intro i hi
  have := List.mem_range'_1.mp hi
  omega

theorem exists_tree {n : Nat} (hn : n < 2 ^ 29) :
    ∃ ino s loc, Tree s ino n loc ∧ ino.iBlocks = 8 * n := by
  obtain ⟨s, hs⟩ := exists_blank (4 * n + 1) (by omega)
  obtain ⟨is, ino', s', hrun, -⟩ := @allocBlocks_some (.init 0) rfl n s hn (by omega)
  obtain ⟨loc, t, hb, -⟩ := allocBlocks_tree rfl hn hrun
  exact ⟨ino', s', loc, t, hb⟩

end NaiveFS
