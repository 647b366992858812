import NaiveFS.TreeAgree
import NaiveFS.Lib.EarlyExit

/-!
# Stopping the walk over a file's blocks

`visit_inode_blocks` stops when the visitor answers true on a direct block. In
the indirect levels the answer ends the loop over the entries of one pointer
block only: the nested visitors return false themselves, and the walk goes on
with the blocks below the next pointer block.
-/

namespace NaiveFS

open PointerTree BlockLayer EarlyExit

section
variable {α : Type} {base : Nat}

/-- A call of the visitor on a block, as the walk makes it. -/
def callOn (v : Visitor BlockStore α) (i : Nat) (st : α × BlockStore) : Bool × α × BlockStore :=
  v i ((st.2.data i).getD Bytes.zero) st

/-- The visitor with a record of its calls among the captured state. -/
def logged {σ : Type} (v : Visitor σ α) : Visitor σ (List Nat × α) :=
  fun i b st => ((v i b (st.1.2, st.2)).1, (st.1.1 ++ [i], (v i b (st.1.2, st.2)).2.1),
    (v i b (st.1.2, st.2)).2.2)

/-- The blocks `visit_inode_blocks` calls the visitor on. -/
def calls (v : Visitor BlockStore α) (ino : TreeInode) (a : α) (s : BlockStore) : List Nat :=
  (visitInodeBlocks (logged v) ino ([], a) s).1.1

/-- File blocks `base, …` of a file with `n` blocks, at most `len` of them. -/
def stretch (loc : Pos → Nat) (n base len : Nat) : List Nat :=
  (List.range' base (min len (n - base))).map fun k => loc (.data k)

/-- The state after `c` pointer blocks of the indirect levels. -/
def afterChunks (v : Visitor BlockStore α) (loc : Pos → Nat) (n : Nat) (st : α × BlockStore) :
    Nat → α × BlockStore
  | 0 => st
  | c + 1 =>
    (callUntil (callOn v) (stretch loc n (12 + 1024 * c) 1024) (afterChunks v loc n st c)).2

/-- The visitor leaves the block tree of the file alone. -/
def KeepsTree (v : Visitor BlockStore α) (ino : TreeInode) (n : Nat) (loc : Pos → Nat) : Prop :=
  ∀ k b st, k < n → Tree st.2 ino n loc → Tree (v (loc (.data k)) b st).2.2 ino n loc

variable {v : Visitor BlockStore α} {ino : TreeInode} {n : Nat} {loc : Pos → Nat}

theorem stretch_succ (len : Nat) (h : base < n) :
    stretch loc n base (len + 1) = loc (.data base) :: stretch loc n (base + 1) len := by
  unfold stretch
  rw [show min (len + 1) (n - base) = min len (n - (base + 1)) + 1 by omega]
  rfl

theorem stretch_zero (base : Nat) : stretch loc n base 0 = [] := by
  unfold stretch
  rw [Nat.zero_min]
  rfl

theorem stretch_end (len : Nat) (h : n ≤ base) : stretch loc n base len = [] := by
  unfold stretch
  rw [Nat.sub_eq_zero_of_le h, Nat.min_zero]
  rfl

theorem stretch_length (base len : Nat) : (stretch loc n base len).length = min len (n - base) := by
  simp [stretch]

theorem stretch_append (base len len' : Nat) :
    stretch loc n base (len + len') = stretch loc n base len ++ stretch loc n (base + len)
      len' := by
  unfold stretch
  rw [← List.map_append]
  congr 1
  by_cases h : n ≤ base + len
  · rw [show min (len + len') (n - base) = n - base by omega, show min len (n - base) =
      n - base by omega, show min len' (n - (base + len)) = 0 by omega]
    simp
  · rw [show min (len + len') (n - base) = len + min len' (n - (base + len)) by omega,
      show min len (n - base) = len by omega, List.range'_append_1]

section
variable (hv : KeepsTree v ino n loc)
include hv

theorem callUntil_tree : ∀ (len base : Nat) (st : α × BlockStore), Tree st.2 ino n loc →
    Tree (callUntil (callOn v) (stretch loc n base len) st).2.2 ino n loc := by
  intro len
  induction len with
  | zero =>
    intro base st t
    rw [stretch_zero]
    exact t
  | succ len ih =>
    intro base st t
    by_cases h : base < n
    · rw [stretch_succ len h]
      have ht := hv base ((st.2.data (loc (.data base))).getD Bytes.zero) st h t
      simp only [callUntil]
      unfold callOn
      rcases hr : v (loc (.data base)) ((st.2.data (loc (.data base))).getD Bytes.zero)
        st with ⟨_ | _, st'⟩ <;> rw [hr] at ht
      · exact ih (base + 1) st' ht
      · exact ht
    · rw [stretch_end _ (Nat.not_lt.mp h)]
      exact t

theorem visitEntries_until (p : Nat) {ind : Block} (hb : base ≤ n)
    (hw : ∀ j, j < 1024 → base + j < n → ind.word j = loc (.data (base + j))) :
    ∀ (left k : Nat) (st : α × BlockStore), k + left = 1024 → Tree st.2 ino n loc →
      visitEntries v p ind (n - base) left k st =
      (true, (callUntil (callOn v) (stretch loc n (base + k) left) st).2) := by
  intro left
  induction left with
  | zero =>
    intro k st _ _
    rw [stretch_zero]
    rfl
  | succ left ih =>
    intro k st hk t
    by_cases h : base + k < n
    · obtain ⟨b, hb⟩ := Option.isSome_iff_exists.mp (t.alloc (.data (base + k)) h)
      have ht := hv (base + k) b st h t
      rw [stretch_succ left h]
      simp only [visitEntries, if_pos (show k < n - base by omega), hw k (by omega) h,
        BlockStore.peek_eq, BlockStore.getBlock_eq, hb, callUntil, callOn, Option.getD_some]
      rcases hr : v (loc (.data (base + k))) b st with ⟨_ | _, st'⟩
      · rw [hr] at ht
        exact ih (k + 1) st' (by omega) ht
      · rfl
    · rw [stretch_end _ (Nat.not_lt.mp h), visitEntries_done _ _ _ _ (Or.inr (by omega)), callUntil]

theorem visitDirect_until :
    ∀ (left i : Nat) (st : α × BlockStore), i + left = 12 → i < n → Tree st.2 ino n loc →
    visitDirect v ino n left i st =
      ((callUntil (callOn v) (stretch loc n i left) st).1 || decide (n ≤ 12),
        (callUntil (callOn v) (stretch loc n i left) st).2) := by
  intro left
  induction left with
  | zero =>
    intro i st hi hin _
    rw [stretch_zero]
    simp only [visitDirect, callUntil, Bool.false_or, show ¬ n ≤ 12 by omega, decide_false]
  | succ left ih =>
    intro i st hi hin t
    obtain ⟨b, hb⟩ := Option.isSome_iff_exists.mp (t.alloc (.data i) hin)
    have ht := hv i b st hin t
    have hr := t.root_slot (.data i) i hin (slotOf_data_direct (by omega))
    rw [stretch_succ left hin]
    simp only [visitDirect, BlockStore.getBlock_eq, hr, hb, callUntil, callOn, Option.getD_some]
    rcases hcall : v (loc (.data i)) b st with ⟨_ | _, st'⟩ <;> rw [hcall] at ht
    · simp only
      by_cases he : i + 1 = n
      · rw [if_pos he, stretch_end _ (by omega)]
        simp only [callUntil, Bool.false_or, show n ≤ 12 by omega, decide_true]
      · rw [if_neg he]
        by_cases h12 : left = 0
        · subst h12
          rw [stretch_zero]
          simp only [visitDirect, callUntil, Bool.false_or, show ¬ n ≤ 12 by omega, decide_false]
        · exact ih (i + 1) st' (by omega) (by omega) ht
    · simp

theorem afterChunks_tree {st : α × BlockStore} (t : Tree st.2 ino n loc) :
    ∀ c, Tree (afterChunks v loc n st c).2 ino n loc := by
  intro c
  induction c with
  | zero => exact t
  | succ c ih => exact callUntil_tree hv _ _ _ ih

theorem chunks_pass {st : α × BlockStore} (t : Tree st.2 ino n loc) :
    Passes v ino n loc fun m => afterChunks v loc n st ((m - 12 + 1023) / 1024) := by
  refine ⟨fun m _ => afterChunks_tree hv t _, fun base hb hal p ind hw => ?_⟩
  have hentries :=
    visitEntries_until hv p hb hw 1024 0 (afterChunks v loc n st ((base - 12 + 1023) / 1024)) rfl
    (afterChunks_tree hv t _)
  unfold visitIndirectBlocks
  rw [numIndirectBlocks_eq, hentries, Nat.add_zero]
  by_cases hend : base = n
  · rw [stretch_end _ (Nat.le_of_eq hend.symm), Nat.min_eq_left (by omega), hend]
    rfl
  · -- `base` is where chunk number `c` starts
    obtain ⟨c, hc⟩ : ∃ c, base = 12 + 1024 * c := ⟨(base - 12) / 1024, by omega⟩
    rw [show (base - 12 + 1023) / 1024 = c by omega, show (min n (base + 1024) - 12 + 1023) / 1024 =
      c + 1 by omega, hc]
    rfl

theorem visitInodeBlocks_until {st : α × BlockStore} (t : Tree st.2 ino n loc) (hn : n < 2 ^ 29)
    (hb : ino.iBlocks = 8 * n) :
    visitInodeBlocks v ino st.1 st.2 =
      if (callUntil (callOn v) (stretch loc n 0 12) st).1 then
      (callUntil (callOn v) (stretch loc n 0 12) st).2
      else afterChunks v loc n (callUntil (callOn v) (stretch loc n 0 12) st).2
      ((n - 12 + 1023) / 1024) := by
  unfold visitInodeBlocks
  rw [numAlignedBlocks_eq, hb, Nat.mul_div_cancel_left n (by decide), ndirBlocks_eq,
    maxDirBlocks_eq]
  by_cases h0 : n = 0
  · subst h0
    rfl
  have ht := callUntil_tree hv 12 0 st t
  simp only [if_neg h0, visitDirect_until hv 12 0 st rfl (Nat.pos_of_ne_zero h0) t]
  rcases hst : callUntil (callOn v) (stretch loc n 0 12) st with ⟨_ | _, st'⟩ <;> rw [hst] at ht
  · by_cases hfin : n ≤ 12
    · simp [hfin, afterChunks]
    · simp only [hfin, decide_false, Bool.or_false, Bool.false_eq_true, if_false]
      exact visitInd_spec (chunks_pass hv ht) hn (by omega)
  · simp

end

/-! ## The calls -/

theorem KeepsTree.logged (hv : KeepsTree v ino n loc) : KeepsTree (logged v) ino n loc :=
  fun k b st hk t => hv k b (st.1.2, st.2) hk t

theorem callUntil_logged : ∀ (is cs : List Nat) (a : α) (s : BlockStore),
    callUntil (callOn (logged v)) is ((cs, a), s) =
      ((callUntil (callOn v) is (a, s)).1, (cs ++ called (callOn v) is (a, s),
        (callUntil (callOn v) is (a, s)).2.1), (callUntil (callOn v) is (a, s)).2.2) := by
  intro is
  induction is with
  | nil => intro cs a s; simp [callUntil, called_nil]
  | cons i is ih =>
    intro cs a s
    have hstep : callOn (NaiveFS.logged v) i ((cs, a), s) =
        ((callOn v i (a, s)).1, (cs ++ [i], (callOn v i (a, s)).2.1), (callOn v i (a, s)).2.2) :=
        rfl
    rw [called_cons, callUntil_cons, callUntil_cons, hstep]
    by_cases hstop : (callOn v i (a, s)).1 = true <;> simp [hstop, ih]

/-- The calls below `c` pointer blocks of the indirect levels. -/
def chunkCalls (v : Visitor BlockStore α) (loc : Pos → Nat) (n : Nat) (st : α × BlockStore) :
    Nat → List Nat
  | 0 => []
  | c + 1 =>
    chunkCalls v loc n st c ++ called (callOn v) (stretch loc n (12 + 1024 * c) 1024)
      (afterChunks v loc n st c)

theorem afterChunks_logged (cs : List Nat) (st : α × BlockStore) : ∀ c,
    afterChunks (logged v) loc n ((cs, st.1), st.2) c =
      ((cs ++ chunkCalls v loc n st c, (afterChunks v loc n st c).1),
        (afterChunks v loc n st c).2) := by
  intro c
  induction c with
  | zero => simp [afterChunks, chunkCalls]
  | succ c ih =>
    simp only [afterChunks, chunkCalls]
    rw [ih, callUntil_logged]
    simp

theorem calls_eq (hv : KeepsTree v ino n loc) {a : α} {s : BlockStore} (t : Tree s ino n loc)
    (hn : n < 2 ^ 29) (hb : ino.iBlocks = 8 * n) :
    calls v ino a s = called (callOn v) (stretch loc n 0 12) (a, s) ++
      if (callUntil (callOn v) (stretch loc n 0 12) (a, s)).1 then []
      else chunkCalls v loc n (callUntil (callOn v) (stretch loc n 0 12) (a, s)).2
      ((n - 12 + 1023) / 1024) := by
  have hvisit := @visitInodeBlocks_until _ _ _ _ _ hv.logged (([], a), s) t hn hb
  unfold calls
  rw [hvisit, callUntil_logged]
  by_cases hstop : (callUntil (callOn v) (stretch loc n 0 12) (a, s)).1 = true
  · simp [hstop]
  · simp [hstop, afterChunks_logged]

/-- How the calls below the first `c` pointer blocks compare with those up to the
first stop. -/
structure Compared (blocks : List Nat) (stop : Option Nat) (made : List Nat) : Prop where
  all : stop = none → made = blocks
  some : ∀ j, stop = some j → blocks.take (j + 1) <+: made ∧
    (made = blocks.take (j + 1) ↔ blocks.length ≤ 1024 * (j / 1024 + 1))

theorem chunkCalls_compared (st : α × BlockStore) : ∀ c,
    Compared (stretch loc n 12 (1024 * c)) (firstStop (callOn v) (stretch loc n 12 (1024 * c)) st)
      (chunkCalls v loc n st c) ∧ (firstStop (callOn v) (stretch loc n 12 (1024 * c)) st = none →
        afterChunks v loc n st c = (callUntil (callOn v) (stretch loc n 12 (1024 * c)) st).2) := by
  intro c
  induction c with
  | zero =>
    rw [Nat.mul_zero, stretch_zero]
    exact ⟨⟨fun _ => rfl, fun _ h => by cases h⟩, fun _ => rfl⟩
  | succ c ih =>
    obtain ⟨hcmp, hafter⟩ := ih
    have hlen := @stretch_length n loc 12 (1024 * c)
    have hlen' := @stretch_length n loc (12 + 1024 * c) 1024
    rw [show 1024 * (c + 1) = 1024 * c + 1024 by omega, stretch_append]
    simp only [chunkCalls, afterChunks]
    generalize hB : stretch loc n 12 (1024 * c) = B at *
    generalize hC : stretch loc n (12 + 1024 * c) 1024 = C at *
    rw [firstStop_append]
    cases hstop : firstStop (callOn v) B st with
    | some j =>
      -- the stop is in an earlier chunk: any call below this pointer block is one too many
      obtain ⟨hpre, heq⟩ := hcmp.some j hstop
      have hj := firstStop_lt _ hstop
      have htake : (B ++ C).take (j + 1) = B.take (j + 1) := List.take_append_of_le_length hj
      refine ⟨⟨by simp, fun j' hj' => ?_⟩, by simp⟩
      simp only [Option.some_or, Option.some.injEq] at hj'
      subst hj'
      rw [htake, List.length_append]
      refine ⟨hpre.trans (List.prefix_append _ _), ?_⟩
      by_cases hnil : C = []
      · subst hnil
        rw [called_nil, List.append_nil, List.length_nil, Nat.add_zero]
        exact heq
      · have hpos := List.length_pos_iff.mpr hnil
        have hcalled :=
          List.length_pos_iff.mpr (called_ne_nil (callOn v) hnil (afterChunks v loc n st c))
        refine ⟨fun h => ?_, fun h => ?_⟩
        · have := congrArg List.length h
          have hle := hpre.length_le
          rw [List.length_append] at this
          omega
        · omega
    | none =>
      rw [hcmp.all hstop, hafter hstop, Option.none_or]
      cases hstop' : firstStop (callOn v) C (callUntil (callOn v) B st).2 with
      | none =>
        refine ⟨⟨fun _ => ?_, by simp⟩, fun _ => ?_⟩
        · unfold called
          rw [hstop']
        · rw [callUntil_append _ C hstop]
      | some j =>
        have hj := firstStop_lt _ hstop'
        have hmade : B ++ called (callOn v) C (callUntil (callOn v) B st).2 =
          (B ++ C).take (j + B.length + 1) := by
          unfold called
          rw [hstop', show j + B.length + 1 = B.length + (j + 1) by omega,
            List.take_length_add_append]
        refine ⟨⟨by simp, fun j' hj' => ?_⟩, by simp⟩
        simp only [Option.map_some, Option.some.injEq] at hj'
        subst hj'
        rw [hmade, List.length_append]
        exact ⟨List.prefix_rfl, fun _ => by omega, fun _ => rfl⟩

theorem stretch_all :
    stretch loc n 0 n = stretch loc n 0 12 ++ stretch loc n 12
      (1024 * ((n - 12 + 1023) / 1024)) := by
  rw [← Nat.zero_add 12, ← stretch_append, Nat.zero_add]
  unfold stretch
  congr 2
  omega

theorem calls_compared (hv : KeepsTree v ino n loc) {a : α} {s : BlockStore}
    (t : Tree s ino n loc) (hn : n < 2 ^ 29) (hb : ino.iBlocks = 8 * n) :
    (firstStop (callOn v) (stretch loc n 0 n) (a, s) = none → calls v ino a s = stretch loc n 0 n) ∧
      ∀ j, firstStop (callOn v) (stretch loc n 0 n) (a, s) = some j →
        (calls v ino a s = (stretch loc n 0 n).take (j + 1) ↔ j < 12 ∨
          n ≤ 12 + 1024 * ((j - 12) / 1024 + 1)) := by
  obtain ⟨hcmp, -⟩ := @chunkCalls_compared _ v n loc (callUntil (callOn v) (stretch loc n 0 12) (a,
    s)).2 ((n - 12 + 1023) / 1024)
  have hlen := @stretch_length n loc 0 12
  have hlen' := @stretch_length n loc 12 (1024 * ((n - 12 + 1023) / 1024))
  rw [calls_eq hv t hn hb, callUntil_fst]
  unfold called
  rw [stretch_all, firstStop_append]
  generalize stretch loc n 0 12 = D at *
  generalize stretch loc n 12 (1024 * ((n - 12 + 1023) / 1024)) = R at *
  cases hstop : firstStop (callOn v) D (a, s) with
  | some j =>
    have hj := firstStop_lt _ hstop
    simp only [Option.isSome_some, if_true, List.append_nil, Option.some_or, Option.some.injEq,
      forall_eq', reduceCtorEq, false_implies, true_and]
    rw [List.take_append_of_le_length hj]
    exact ⟨fun _ => Or.inl (by omega), fun _ => rfl⟩
  | none =>
    simp only [Option.isSome_none, Bool.false_eq_true, if_false, Option.none_or]
    cases hstop' : firstStop (callOn v) R (callUntil (callOn v) D (a, s)).2 with
    | none => simp [hcmp.all hstop']
    | some j =>
      have hj := firstStop_lt _ hstop'
      obtain ⟨-, heq⟩ := hcmp.some j hstop'
      simp only [Option.map_some, Option.some.injEq, forall_eq', reduceCtorEq, false_implies,
        true_and]
      rw [show j + D.length + 1 = D.length + (j + 1) by omega, List.take_length_add_append,
        List.append_cancel_left_eq, heq, show D.length = 12 by omega]
      omega

end

end NaiveFS
