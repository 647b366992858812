import NaiveFS.GroupLedger
import NaiveFS.Lib.Runs

/-!
# Freshness of allocated blocks

The index of a new block group is computed from the counts of the super block,
which grow by 32768 for each full group but are divided by 33794. With 33 full
groups the quotient falls behind: the group opened is group 32 once more, and its
blocks are handed out a second time.
-/

namespace NaiveFS

namespace Groups

/-- The state in which `alloc_block` looks for a group. -/
def counted (s : Groups) : Groups := s.setCount .block (u32 (s.super.sCount .block + 1))

/-- No group serves the next block, so `alloc_block_group` is called. -/
def opens (s : Groups) : Bool := (scan .block s.counted s.counted.blockGroups.entries).isNone

/-- The `ASSERT` of `alloc_block_group`. -/
def descFits (index : Nat) : Bool := decide (superSize + index * groupDescSize ≤ blockSize)

inductive BlockOp where
  | alloc
  | free (index : Nat)
  deriving DecidableEq, Repr

/-- `alloc_block`, while the assertion holds, and `free_block` on allocated indices. -/
def blockStep (s : Groups) : BlockOp → Option Groups
  | .alloc => if s.opens && !descFits s.counted.allocBlockGroup.1 then none else
    some (s.alloc .block).2
  | .free index => if s.allocated .block index then (s.free .block index).map Prod.snd else none

/-- The next `alloc_block` returns a block that is not allocated, and a group it
opens is new in `block_groups_` and next in the descriptor table. -/
structure Fresh (s : Groups) : Prop where
  block : ∀ i served, (s.alloc .block).1 = some (i, served) → s.allocated .block i = false
  group : s.opens = true → s.blockGroups.find s.counted.allocBlockGroup.1 = none
  table : s.opens = true → s.counted.allocBlockGroup.1 = s.super.descTable.length

def FreshStep (s : Groups) (op : BlockOp) : Prop := op = .alloc → s.Fresh

/-- A group is opened only while there are at most 32. -/
def RoomStep (s : Groups) (op : BlockOp) : Prop :=
  op = .alloc → s.hasFree .block = true ∨ s.super.descTable.length ≤ 32

/-- The books of a file system on which only blocks are allocated and freed. -/
structure BlockLedger (n : Nat) (s : Groups) : Prop where
  ledger : Ledger n s
  le : n ≤ 33
  inodes : s.super.sCount .inode = 1

section
variable {n : Nat} {s s' : Groups}

theorem Ledger.opens_iff (h : Ledger n s) : s.opens = true ↔ s.hasFree .block = false := by
  unfold opens
  cases hscan : scan .block s.counted s.counted.blockGroups.entries with
  | none =>
    have hskip : ∀ e ∈ s.blockGroups.entries, Skipped .block s e.2 :=
      fun e he => scan_none hscan e he
    simpa using h.hasFree_of_skipped hskip
  | some r =>
    obtain ⟨bg, hmem, hfree, -⟩ := scan_some hscan
    have hfind := OrdMap.find_eq_some.mpr hmem
    rw [h.desc _ _ hfind] at hfree
    have hhas := (h.hasFree_iff .block).mpr ⟨r.1, (h.keys _).mp ⟨bg, hfind⟩, hfree⟩
    simp [hhas]

theorem BlockLedger.format : BlockLedger 1 Groups.format :=
  ⟨Ledger.format, by decide, format_count.2⟩

theorem BlockLedger.fresh (h : BlockLedger n s) (hroom : RoomStep s .alloc) : s.Fresh := by
  have hlen : s.super.descTable.length = n := by simp [h.ledger.table]
  have hroom := hroom rfl
  rw [hlen] at hroom
  obtain ⟨index, s', heq, hout, -⟩ := h.ledger.alloc_of_room h.le hroom
  have hnew : s.opens = true → s.counted.allocBlockGroup.1 = n := by
    intro ho
    have hfull := h.ledger.opens_iff.mp ho
    apply h.ledger.newIndex (hroom.resolve_left ?_) hfull
    simp [hfull]
  refine ⟨fun i served hi => ?_, fun ho => ?_, fun ho => ?_⟩
  · rw [heq] at hi
    cases hi
    exact hout.free
  · rw [hnew ho]
    exact h.ledger.find_new
  · rw [hnew ho, hlen]

/-- With 33 full groups the next one gets the index of the last. -/
theorem Ledger.index_again (h : Ledger 33 s) (hfull : s.hasFree .block = false)
    (hinode : s.super.sCount .inode ≤ 32768) :
    s.counted.super.numBlockGroups = 32 := by
  have hsum := (sum_capacity (n := 33) (by decide)).1
  have hcount := h.count_full hfull
  have hbump := h.count_bump (Nat.le_refl 33) .block
  simp only [baseCount] at hcount
  apply numBlockGroups_eq (n := 31) (by decide)
  · intro k
    unfold counted
    rw [hbump]
    cases k <;> simp only [perGroup_block, perGroup_inode, reduceCtorEq, if_true, if_false] <;>
      omega
  · refine Or.inr ⟨.block, ?_⟩
    unfold counted
    rw [hbump, if_pos rfl, perGroup_block]
    omega

theorem Ledger.alloc_full (h : Ledger n s) {k : Kind} (hfull : s.hasFree k = false) :
    (s.alloc k).1 =
      some (u32 ((s.setCount k (u32 (s.super.sCount k + 1))).super.numBlockGroups * perGroup k),
        false) := by
  have hres := alloc_result k s
  generalize s.alloc k = r at hres
  cases hres with
  | @old g bg i hfind hfree hbit =>
    rw [h.desc g bg hfind] at hfree
    rw [(h.hasFree_iff k).mpr ⟨g, (h.keys g).mp ⟨bg, hfind⟩, hfree⟩] at hfull
    cases hfull
  | @new g s₁ hs₁ hg hskip =>
    rw [← hs₁, ← hg, Nat.add_zero]

theorem BlockLedger.not_fresh (h : BlockLedger n s) (hroom : ¬ RoomStep s .alloc) : ¬ s.Fresh := by
  have hlen : s.super.descTable.length = n := by simp [h.ledger.table]
  simp only [RoomStep, hlen, true_imp_iff, not_or, Bool.not_eq_true, Nat.not_le] at hroom
  obtain ⟨hfull, hgt⟩ := hroom
  have hle := h.le
  obtain rfl : n = 33 := by omega
  intro hfresh
  have htable := hfresh.table (h.ledger.opens_iff.mpr hfull)
  rw [hlen] at htable
  have hagain : s.counted.allocBlockGroup.1 = 32 :=
    h.ledger.index_again hfull (by rw [h.inodes]; decide)
  rw [hagain] at htable
  cases htable

theorem BlockLedger.step {op : BlockOp} (h : BlockLedger n s) (hroom : RoomStep s op)
    (hs : blockStep s op = some s') :
    ∃ m, BlockLedger m s' := by
  cases op with
  | alloc =>
    have hlen : s.super.descTable.length = n := by simp [h.ledger.table]
    have hroom := hroom rfl
    rw [hlen] at hroom
    obtain ⟨index, s₁, heq, hout, hled⟩ := h.ledger.alloc_of_room h.le hroom
    simp only [blockStep, heq] at hs
    split at hs
    · cases hs
    · cases hs
      refine ⟨_, hled, ?_, ?_⟩
      · have := h.le
        cases hhas : s.hasFree .block with
        | true => simpa using h.le
        | false =>
          have hle := hroom.resolve_left (by simp [hhas])
          simp
          omega
      · rw [hout.count]
        exact h.inodes
  | free index =>
    simp only [blockStep] at hs
    split at hs
    · rename_i ha
      obtain ⟨bg, hfind, hi, ht⟩ := allocated_iff.mp ha
      rw [free_eq .block index s hfind ht] at hs
      cases hs
      refine ⟨n, h.ledger.release h.le hfind hi ht, h.le, ?_⟩
      exact h.inodes
    · cases hs

end

def Booked (s : Groups) : Prop := ∃ n, BlockLedger n s

theorem Booked.room {s : Groups} {op : BlockOp} (h : Booked s) (hfresh : FreshStep s op) :
    RoomStep s op := by
  obtain ⟨n, h⟩ := h
  intro hop
  subst hop
  by_contra hroom
  exact h.not_fresh (fun hr => hroom (hr rfl)) (hfresh rfl)

theorem Booked.step {s s' : Groups} {op : BlockOp} (h : Booked s) (hroom : RoomStep s op)
    (hs : blockStep s op = some s') : Booked s' := by
  obtain ⟨n, h⟩ := h
  exact h.step hroom hs

theorem room_of_fresh {ops : List BlockOp} (h : Runs.Guarded blockStep FreshStep ops format) :
    Runs.Guarded blockStep RoomStep ops format := by
  refine Runs.Guarded.imp ?_ ?_ ops format (show Booked format from ⟨1, BlockLedger.format⟩) h
  · exact fun s op hb hf => hb.room hf
  · exact fun s op s' hb hf hs => hb.step (hb.room hf) hs

/-- Every allocation of a run is fresh exactly when every group it opens is one of
the first 33. -/
theorem fresh_iff (ops : List BlockOp) :
    Runs.Guarded blockStep FreshStep ops format ↔ Runs.Guarded blockStep RoomStep ops format := by
  refine ⟨room_of_fresh, fun h => ?_⟩
  refine Runs.Guarded.imp ?_ ?_ ops format (show Booked format from ⟨1, BlockLedger.format⟩) h
  · intro s op ⟨n, hb⟩ hroom hop
    subst hop
    exact hb.fresh hroom
  · exact fun s op s' hb hroom hs => hb.step hroom hs

/-! ## The second use of group 32 -/

section
variable {n : Nat} {s : Groups}

theorem BlockLedger.alloc_step (h : BlockLedger n s) (hroom : s.hasFree .block = true ∨ n ≤ 32) :
    blockStep s .alloc = some (s.alloc .block).2 := by
  have hok : (s.opens && !descFits s.counted.allocBlockGroup.1) = false := by
    cases ho : s.opens with
    | false => rfl
    | true =>
      have hfull := h.ledger.opens_iff.mp ho
      have hle : n ≤ 32 := hroom.resolve_left (by simp [hfull])
      have hnew : s.counted.allocBlockGroup.1 = n := h.ledger.newIndex hle hfull
      have hfits : superSize + n * groupDescSize ≤ blockSize := by
        simp only [superSize, groupDescSize, blockSize]
        omega
      simp [hnew, descFits, hfits]
  simp [blockStep, hok]

theorem Ledger.room (h : Ledger n s) (hn : n ≤ 33) (hm : s.super.sCount .block < 3 + 32768 * 33) :
    s.hasFree .block = true ∨ n ≤ 32 := by
  by_contra hno
  obtain ⟨hfull, hlen⟩ := not_or.mp hno
  have hcount := h.count_full (Bool.eq_false_iff.mpr hfull)
  obtain rfl : n = 33 := by omega
  have hsum := (sum_capacity (n := 33) (by decide)).1
  simp only [baseCount] at hcount
  omega

theorem BlockLedger.run_allocs (m : Nat) : ∀ {n : Nat} {s : Groups}, BlockLedger n s →
    s.super.sCount .block + m ≤ 3 + 32768 * 33 →
    ∃ s', Runs.run blockStep (List.replicate m .alloc) s = some s' ∧ Booked s' ∧
      s'.super.sCount .block = s.super.sCount .block + m := by
  induction m with
  | zero => exact fun h _ => ⟨_, rfl, ⟨_, h⟩, rfl⟩
  | succ m ih =>
    intro n s h hm
    have hroom := h.ledger.room h.le (by omega)
    obtain ⟨index, s₁, heq, hout, -⟩ := h.ledger.alloc_of_room h.le hroom
    have hstep : blockStep s .alloc = some s₁ := by rw [h.alloc_step hroom, heq]
    have hlen : s.super.descTable.length = n := by simp [h.ledger.table]
    obtain ⟨n', h'⟩ := h.step (fun _ => by rwa [hlen]) hstep
    have hcount := hout.count .block
    rw [if_pos rfl] at hcount
    obtain ⟨s', hrun, hbooked, hcount'⟩ := ih h' (by omega)
    refine ⟨s', ?_, hbooked, by omega⟩
    rw [List.replicate_succ, Runs.run, hstep]
    exact hrun

theorem Ledger.full (h : Ledger n s) (hcount : s.super.sCount .block = 3 + 32768 * n) :
    s.hasFree .block = false := by
  by_contra hhas
  rw [Bool.not_eq_false, h.hasFree_iff] at hhas
  obtain ⟨g, hg, hne⟩ := hhas
  have hlt : ∑ j ∈ Finset.range n, s.used .block j < ∑ j ∈ Finset.range n, capacity .block j := by
    refine Finset.sum_lt_sum (fun j hj => ?_) ⟨g, Finset.mem_range.mpr hg, ?_⟩
    · have := h.free .block j (Finset.mem_range.mp hj)
      omega
    · have := h.free .block g hg
      omega
  rw [(sum_capacity h.pos).1] at hlt
  have := h.count .block
  simp only [baseCount] at this
  omega

theorem Ledger.test_of_full (h : Ledger n s) (hfull : s.hasFree .block = false) {g i : Nat}
    {bg : BlockGroup} (hfind : s.blockGroups.find g = some bg) (hi : i < bitmapBits)
    (hcap : capacity .block g = bitmapBits) :
    (bg.bitmap .block).test i = true := by
  have hg := (h.keys g).mp ⟨bg, hfind⟩
  have hzero : (s.super.slots g).bgFreeCount .block = 0 := by
    by_contra hne
    rw [(h.hasFree_iff .block).mpr ⟨g, hg, hne⟩] at hfull
    cases hfull
  have hfree := h.free .block g hg
  rw [used_eq hfind] at hfree
  by_contra ht
  have hset := Bitmap.count_set hi (Bool.eq_false_iff.mpr ht)
  have hle := Bitmap.count_le ((bg.bitmap .block).set i) bitmapBits
  omega

end

/-- After 33 * 32768 allocations the next one opens group 32, which is there
already, and returns its first block, which is allocated. -/
theorem block_handed_out_twice :
    ∃ s i, Runs.run blockStep (List.replicate (33 * 32768) .alloc) format = some s ∧
      s.opens = true ∧ s.counted.allocBlockGroup.1 = 32 ∧ descFits 32 = true ∧
      s.super.descTable.length = 33 ∧ (s.blockGroups.find 32).isSome ∧
      (s.alloc .block).1 = some (i, false) ∧ s.allocated .block i = true := by
  obtain ⟨s, hrun, ⟨n, h⟩, hcount⟩ :=
    BlockLedger.format.run_allocs (33 * 32768) (by rw [format_count.1])
  rw [format_count.1] at hcount
  have hle := h.ledger.count_le
  have hn := h.le
  obtain rfl : n = 33 := by omega
  have hfull := h.ledger.full hcount
  have hagain : s.counted.super.numBlockGroups = 32 :=
    h.ledger.index_again hfull (by rw [h.inodes]; decide)
  obtain ⟨bg, hbg⟩ := (h.ledger.keys 32).mpr (by decide)
  refine ⟨s, u32 (32 * perGroup .block), hrun, h.ledger.opens_iff.mpr hfull, hagain, by decide,
    by simp [h.ledger.table], by simp [hbg], ?_, ?_⟩
  · rw [h.ledger.alloc_full hfull, ← hagain]
    rfl
  · have hdiv : u32 (32 * perGroup .block) / perGroup .block = 32 := by decide
    have hmod : u32 (32 * perGroup .block) % perGroup .block = 0 := by decide
    apply allocated_iff.mpr
    rw [hdiv, hmod]
    exact ⟨bg, hbg, by decide, h.ledger.test_of_full hfull hbg (by decide) rfl⟩

end Groups

end NaiveFS
