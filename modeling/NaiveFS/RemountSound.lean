import NaiveFS.GroupLedger
import NaiveFS.Lib.Runs

/-!
# Remounting

The number of groups is not stored on the disk: a mounted file system derives it
from the block and inode counts. While group 0 serves every allocation the
derived number is 1 and right; the allocation that opens the second group leaves
it at 1, so that group is lost by the next mount.
-/

namespace NaiveFS

namespace Groups

/-! ## Runs and recovery -/

inductive Op where
  | alloc (k : Kind)
  | free (k : Kind) (index : Nat)
  deriving DecidableEq, Repr

/-- One call of `alloc_block`, `alloc_inode`, `free_block` or `free_inode`;
only allocated indices are given back. -/
def step (s : Groups) : Op → Option Groups
  | .alloc k => some (s.alloc k).2
  | .free k index => if s.allocated k index then (s.free k index).map Prod.snd else none

/-- A mount of the flushed disk finds, at its own position, the descriptor of
every group with an allocated block or inode, and finds every allocated index. -/
def Recovered (s : Groups) : Prop :=
  ∃ sb s', s.flush.super.initSuperBlock = some sb ∧ mount s.flush = some s' ∧
    (∀ g bg, s.blockGroups.find g = some bg → (∃ k, 0 < (bg.bitmap k).count bitmapBits) →
      sb.getGroupDesc g = some g ∧ sb.slots g = s.super.slots bg.desc) ∧
    ∀ k index, s.allocated k index = true → ∃ s'', s'.isAllocated k index = some (true, s'')

def Served (s : Groups) : Op → Prop
  | .alloc k => s.hasFree k = true
  | .free _ _ => True

theorem Ledger.step_served {n : Nat} {s s' : Groups} {op : Op} (h : Ledger n s) (hn : n ≤ 32)
    (hserved : Served s op) (hs : step s op = some s') : Ledger n s' := by
  cases op with
  | alloc k =>
    obtain ⟨index, s₁, heq, -, h'⟩ := h.alloc hn k
    simp only [step, heq, Option.some.injEq] at hs
    subst hs
    rw [Served] at hserved
    rwa [if_pos hserved] at h'
  | free k index =>
    simp only [step] at hs
    split at hs
    · rename_i ha
      obtain ⟨s₁, heq, h', -⟩ := h.free_allocated (Nat.le_succ_of_le hn) ha
      rw [heq] at hs
      cases hs
      exact h'
    · cases hs

/-! ## The next mount -/

theorem mount_group {image : Image} {sb : SuperBlock} {i : Nat}
    (hinit : image.super.initSuperBlock = some sb) (hdesc : sb.getGroupDesc 0 = some i) :
    ∃ s bg, mount image = some s ∧ s.blockGroups.find 0 = some bg ∧
      ∀ k j, (image.bitmaps ((sb.slots i).bgBitmap k)).test j = true →
      (bg.bitmap k).test j = true := by
  let s₀ : Groups := { super := sb, blockGroups := OrdMap.empty, disk := image.bitmaps }
  unfold mount
  simp only [hinit, hdesc]
  by_cases hroot : ((s₀.load i).bitmap .inode).test rootInode = true
  · refine ⟨_, s₀.load i, rfl, ?_, fun k j h => h⟩
    simp only [s₀] at hroot
    simp only [hroot, if_true]
    exact OrdMap.find_insert_self ..
  · cases hfind : ((s₀.load i).bitmap .inode).find bitmapBits with
    | none => exact absurd (Bitmap.find_none hfind rootInode (by decide)) hroot
    | some r =>
      refine ⟨_, (s₀.load i).setBitmap .inode (((s₀.load i).bitmap .inode).set r), rfl, ?_,
        fun k j h => ?_⟩
      · simp only [s₀] at hroot hfind
        simp only [hroot, allocIn_eq, hfind, Option.map_some, Option.getD_some]
        exact OrdMap.find_insert_self ..
      · cases k with
        | block => exact h
        | inode =>
          rw [setBitmap_self, Bitmap.test_set]
          exact Bool.or_eq_true_iff.mpr (Or.inr h)

theorem initSuperBlock_flush {s : Groups} (h : s.super.sState = SuperBlock.normal) :
    s.flush.super.initSuperBlock =
      some { s.flush.super with descTable := List.range s.super.numBlockGroups } := by
  have hstate : s.flush.super.sState = SuperBlock.normal := h
  unfold SuperBlock.initSuperBlock
  rw [if_neg (by rw [hstate]; decide), if_pos hstate]
  rfl

namespace Ledger

variable {s : Groups}

theorem entries_one (h : Ledger 1 s) : ∃ bg, s.blockGroups.entries = [(0, bg)] ∧ bg.desc = 0 := by
  obtain ⟨bg, hbg⟩ := (h.keys 0).mpr Nat.one_pos
  have hall : ∀ e ∈ s.blockGroups.entries, e = (0, bg) := by
    rintro ⟨g, bg'⟩ he
    have hg := OrdMap.find_eq_some.mpr he
    obtain rfl := Nat.lt_one_iff.mp ((h.keys g).mp ⟨bg', hg⟩)
    rw [hbg] at hg
    cases hg
    rfl
  refine ⟨bg, ?_, h.desc 0 bg hbg⟩
  have hmem := OrdMap.find_eq_some.mp hbg
  have hsorted := s.blockGroups.sorted
  cases hl : s.blockGroups.entries with
  | nil => rw [hl] at hmem; cases hmem
  | cons e rest =>
    rw [hl] at hall hsorted
    rw [hall e List.mem_cons_self]
    cases rest with
    | nil => rfl
    | cons e' rest =>
      -- a second entry would have key 0 again, behind the first
      have hlt := (List.pairwise_cons.mp hsorted).1 e' List.mem_cons_self
      rw [hall e List.mem_cons_self, hall e' (List.mem_cons_of_mem _ List.mem_cons_self)] at hlt
      exact absurd hlt (Nat.lt_irrefl 0)

theorem numBlockGroups_one (h : Ledger 1 s) : s.super.numBlockGroups = 1 := by
  have hle := h.count_le
  refine numBlockGroups_eq (by omega) (fun k => ?_) (Or.inl rfl)
  cases k <;> simp only [perGroup_block, perGroup_inode] <;> omega

theorem flushed (h : Ledger 1 s) {bg : BlockGroup} (hbg : s.blockGroups.find 0 = some bg)
    (k : Kind) :
    s.flush.bitmaps ((s.super.slots 0).bgBitmap k) = bg.bitmap k := by
  obtain ⟨bg', hentries, hdesc⟩ := h.entries_one
  have hsame : bg' = bg := by
    rw [OrdMap.find_eq_some, hentries] at hbg
    cases List.mem_singleton.mp hbg
    rfl
  subst hsame
  have hne : (s.super.slots 0).bgBitmap .block ≠ (s.super.slots 0).bgBitmap .inode := by
    rw [h.slot 0 Nat.one_pos]; decide
  simp only [flush, hentries, List.foldl_cons, List.foldl_nil, flushGroup, hdesc]
  cases k with
  | block => rw [Function.update_of_ne hne, Function.update_self]
  | inode => rw [Function.update_self]

theorem recovered (h : Ledger 1 s) : Recovered s := by
  have hinit := initSuperBlock_flush h.state
  rw [h.numBlockGroups_one] at hinit
  obtain ⟨s', bg', hmount, hfind, hbits⟩ := mount_group hinit (i := 0) rfl
  have hzero : ∀ g bg, s.blockGroups.find g = some bg → g = 0 := fun g bg hg =>
    Nat.lt_one_iff.mp ((h.keys g).mp ⟨bg, hg⟩)
  refine ⟨_, s', hinit, hmount, fun g bg hg _ => ?_, fun k index ha => ?_⟩
  · obtain rfl := hzero g bg hg
    exact ⟨rfl, by rw [h.desc 0 bg hg]; rfl⟩
  · obtain ⟨bg, hg, -, ht⟩ := allocated_iff.mp ha
    have hdiv := hzero _ bg hg
    rw [hdiv] at hg
    refine ⟨s', ?_⟩
    unfold isAllocated findGroup
    rw [hdiv, hfind]
    simp only
    rw [hbits k]
    change (s.flush.bitmaps ((s.super.slots 0).bgBitmap k)).test _ = true
    rw [h.flushed hg k]
    exact ht

/-- The second group is opened as group 1, but the counts still say one group. -/
theorem not_recovered (h : Ledger 1 s) {k : Kind} (hfull : s.hasFree k = false) :
    ¬ Recovered (s.alloc k).2 := by
  obtain ⟨index, s', heq, hout, h'⟩ := h.alloc (by omega) k
  rw [hfull, if_neg Bool.false_ne_true] at h'
  rw [heq]
  rintro ⟨sb, -, hinit, -, hdesc, -⟩
  have hone : s'.super.numBlockGroups = 1 := by
    have hle := h.count_le
    refine numBlockGroups_eq (by omega) (fun k' => ?_) (Or.inl rfl)
    have hc := hout.count k'
    cases k <;> cases k' <;>
      simp only [reduceCtorEq, if_true, if_false, perGroup_block, perGroup_inode] at hc ⊢ <;> omega
  rw [initSuperBlock_flush h'.state, hone] at hinit
  cases hinit
  -- group 0 had given out all it has, so the new item is in group 1
  have hused : 0 < s'.used k 1 := by
    have hbefore := h.count_full hfull
    have hafter := h'.count k
    have hcount := hout.count k
    have hzero := h'.free k 0 (by omega)
    rw [if_pos rfl] at hcount
    rw [Finset.sum_range_succ, Finset.sum_range_one] at hafter
    rw [Finset.sum_range_one] at hbefore
    omega
  obtain ⟨bg, hbg⟩ := (h'.keys 1).mpr (by omega)
  rw [used_eq hbg] at hused
  cases (hdesc 1 bg hbg ⟨k, hused⟩).1

end Ledger

/-! ## Whole runs -/

theorem guarded_of_recovered {ops : List Op} (h : Runs.Along step Recovered ops format) :
    Runs.Guarded step Served ops format := by
  refine Runs.guarded_of_along (fun s op s' hs => hs.step_served (by omega)) ?_ ops format
    Ledger.format h
  intro s op s' h hs hn
  cases op with
  | alloc k =>
    cases hs
    exact h.not_recovered (Bool.eq_false_iff.mpr hn)
  | free k index => exact absurd trivial hn

/-- Every state of a run recovers all its groups exactly when no allocation of
the run opens a block group. -/
theorem remount_iff (ops : List Op) :
    Runs.Along step Recovered ops format ↔ Runs.Guarded step Served ops format :=
  ⟨guarded_of_recovered, Runs.along_of_guarded (fun _ h => h.recovered)
    (fun _ _ _ h => h.step_served (by omega)) ops format Ledger.format⟩

theorem Ledger.guarded_replicate {s : Groups} (h : Ledger 1 s) {m : Nat}
    (hg : Runs.Guarded step Served (List.replicate m (.alloc .block)) s) :
    s.super.sCount .block + m ≤ 32771 := by
  induction m generalizing s with
  | zero => have := h.count_le; omega
  | succ m ih =>
    obtain ⟨hserved, hrest⟩ := hg _ rfl
    have hle := ih (h.step_served (by omega) hserved rfl) hrest
    obtain ⟨index, s', heq, hout, -⟩ := h.alloc (by omega) .block
    rw [heq] at hle
    have hcount := hout.count .block
    rw [if_pos rfl] at hcount
    simp only at hle
    omega

theorem remount_loses_group_one :
    ¬ Runs.Along step Recovered (List.replicate 32769 (.alloc .block)) format := by
  intro h
  have := Ledger.format.guarded_replicate (guarded_of_recovered h)
  rw [format_count.1] at this
  omega

end Groups

end NaiveFS
