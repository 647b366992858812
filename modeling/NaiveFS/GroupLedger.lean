import NaiveFS.GroupsSound
import NaiveFS.LayoutSound
import Mathlib.Algebra.BigOperators.Group.Finset.Basic
import Mathlib.Algebra.Order.BigOperators.Group.Finset

/-!
# The books of the allocator

`Ledger n` is the state of the allocator with groups `0, …, n - 1`: the free
counters and the counts of the super block agree with the bitmaps, and the
descriptor table lists the groups in order. Allocations and frees keep it; the
group an allocation opens is group `n` as long as `n ≤ 32`, because the count of
blocks is divided by 33794 where a group has 32768.
-/

namespace NaiveFS

namespace Groups

/-- What a count starts from. -/
def baseCount : Kind → Nat
  | .block => 3
  | .inode => 0

/-- How many items group `g` hands out. The descriptor of group 0 starts with
the root inode taken off its counter, and the allocation of the root takes it
off again. -/
def capacity : Kind → Nat → Nat
  | .inode, 0 => 32767
  | _, _ => 32768

def used (k : Kind) (s : Groups) (g : Nat) : Nat :=
  match s.blockGroups.find g with
  | some bg => (bg.bitmap k).count bitmapBits
  | none => 0

/-- Some group's descriptor still shows a free block or inode. -/
def hasFree (k : Kind) (s : Groups) : Bool :=
  s.blockGroups.entries.any fun e => (s.super.slots e.2.desc).bgFreeCount k != 0

structure Ledger (n : Nat) (s : Groups) : Prop where
  pos : 0 < n
  keys : ∀ g, (∃ bg, s.blockGroups.find g = some bg) ↔ g < n
  desc : ∀ g bg, s.blockGroups.find g = some bg → bg.desc = g
  table : s.super.descTable = List.range n
  state : s.super.sState = SuperBlock.normal
  slot : ∀ g < n, (s.super.slots g).bgBitmap = (newDesc g).bgBitmap
  tail : ∀ g bg, s.blockGroups.find g = some bg → ∀ k i, bitmapBits ≤ i →
    (bg.bitmap k).test i = false
  free : ∀ k, ∀ g < n, (s.super.slots g).bgFreeCount k + s.used k g = capacity k g
  count : ∀ k, s.super.sCount k = baseCount k + ∑ g ∈ Finset.range n, s.used k g

theorem used_eq {k : Kind} {s : Groups} {g : Nat} {b : BlockGroup}
    (h : s.blockGroups.find g = some b) :
    s.used k g = (b.bitmap k).count bitmapBits := by
  unfold used; rw [h]

theorem capacity_le (k : Kind) (g : Nat) : capacity k g ≤ bitmapBits := by
  rw [bitmapBits_eq]
  cases k with
  | block => exact Nat.le_refl _
  | inode =>
    cases g with
    | zero => exact Nat.le_succ _
    | succ g => exact Nat.le_refl _

theorem sum_capacity {n : Nat} (h : 0 < n) :
    ∑ g ∈ Finset.range n, capacity .block g = 32768 * n ∧
      ∑ g ∈ Finset.range n, capacity .inode g + 1 = 32768 * n := by
  induction n with
  | zero => cases h
  | succ n ih =>
    rw [Finset.sum_range_succ, Finset.sum_range_succ]
    cases n with
    | zero => simp [capacity]
    | succ n =>
      obtain ⟨hb, hi⟩ := ih (Nat.succ_pos n)
      have h1 : capacity .block (n + 1) = 32768 := rfl
      have h2 : capacity .inode (n + 1) = 32768 := rfl
      omega

namespace Ledger

variable {n g : Nat} {s : Groups} {bg : BlockGroup} {k : Kind}

theorem placed (h : Ledger n s) : Placed s where
  zero := (h.keys 0).mpr h.pos
  desc := h.desc
  slot g bg hg := h.slot g ((h.keys g).mp ⟨bg, hg⟩)

theorem sum_le (h : Ledger n s) (k : Kind) :
    ∑ g ∈ Finset.range n, s.used k g ≤ ∑ g ∈ Finset.range n, capacity k g :=
  Finset.sum_le_sum fun g hg => by
    have := h.free k g (Finset.mem_range.mp hg)
    omega

theorem count_le (h : Ledger n s) :
    s.super.sCount .block ≤ 3 + 32768 * n ∧ s.super.sCount .inode + 1 ≤ 32768 * n := by
  obtain ⟨hb, hi⟩ := sum_capacity h.pos
  have h1 := h.count .block
  have h2 := h.count .inode
  have h3 := h.sum_le .block
  have h4 := h.sum_le .inode
  simp only [baseCount] at h1 h2
  omega

theorem update (h : Ledger n s) (hfind : s.blockGroups.find g = some bg) (k : Kind) {b : Bitmap}
    {c f : Nat} {s' : Groups}
    (hgroups : s'.blockGroups = s.blockGroups.insert g (bg.setBitmap k b))
    (hsuper : s'.super = (s.super.setCount k c).setFree g k f)
    (ht : ∀ i, bitmapBits ≤ i → b.test i = false)
    (hc : c + (bg.bitmap k).count bitmapBits = s.super.sCount k + b.count bitmapBits)
    (hf : f + b.count bitmapBits = capacity k g) : Ledger n s' := by
  have hg : g < n := (h.keys g).mp ⟨bg, hfind⟩
  have hself : s'.used k g = b.count bitmapBits := by
    rw [used_eq (b := bg.setBitmap k b) (by rw [hgroups, OrdMap.find_insert_self]), setBitmap_self]
  have hother : ∀ k' j, (k' ≠ k ∨ j ≠ g) → s'.used k' j = s.used k' j := by
    intro k' j hne
    unfold used
    rw [hgroups, OrdMap.find_insert]
    by_cases hj : j = g
    · subst hj
      rw [if_pos rfl, hfind]
      simp only
      rw [setBitmap_ne _ _ (hne.resolve_right fun hn => hn rfl)]
    · rw [if_neg hj]
  have hsum : ∑ j ∈ Finset.range n, s'.used k j + (bg.bitmap k).count bitmapBits =
      ∑ j ∈ Finset.range n, s.used k j + b.count bitmapBits := by
    have hmem := Finset.mem_range.mpr hg
    have hafter := Finset.add_sum_erase (Finset.range n) (s'.used k) hmem
    have hbefore := Finset.add_sum_erase (Finset.range n) (s.used k) hmem
    have hrest : ∑ j ∈ (Finset.range n).erase g, s'.used k j = ∑ j ∈ (Finset.range n).erase g,
      s.used k j :=
      Finset.sum_congr rfl fun j hj => hother k j (Or.inr (Finset.ne_of_mem_erase hj))
    rw [hself] at hafter
    rw [used_eq hfind] at hbefore
    omega
  refine ⟨h.pos, fun j => ?_, fun j bg' hj => ?_, ?_, ?_, fun j hj => ?_,
    fun j bg' hj k' i hi => ?_, fun k' j hj => ?_, fun k' => ?_⟩
  · rw [hgroups, OrdMap.find_insert]
    split
    · rename_i heq
      subst heq
      exact ⟨fun _ => hg, fun _ => ⟨_, rfl⟩⟩
    · exact h.keys j
  · rw [hgroups, OrdMap.find_insert] at hj
    split at hj
    · rename_i heq
      cases hj
      rw [heq]
      exact h.desc g bg hfind
    · exact h.desc j bg' hj
  · rw [hsuper]; exact h.table
  · rw [hsuper]; exact h.state
  · rw [hsuper]
    by_cases hjg : j = g
    · subst hjg
      simpa [SuperBlock.setFree, SuperBlock.setCount] using h.slot j hj
    · simpa [SuperBlock.setFree, SuperBlock.setCount, hjg] using h.slot j hj
  · rw [hgroups, OrdMap.find_insert] at hj
    split at hj
    · cases hj
      by_cases hk : k' = k
      · subst hk
        rw [setBitmap_self]
        exact ht i hi
      · rw [setBitmap_ne _ _ hk]
        exact h.tail g bg hfind k' i hi
    · exact h.tail j bg' hj k' i hi
  · rw [hsuper]
    by_cases hjg : j = g
    · subst hjg
      by_cases hk : k' = k
      · subst hk
        rw [hself]
        simpa [SuperBlock.setFree, SuperBlock.setCount] using hf
      · rw [hother k' j (Or.inl hk)]
        simpa [SuperBlock.setFree, SuperBlock.setCount, hk] using h.free k' j hj
    · rw [hother k' j (Or.inr hjg)]
      simpa [SuperBlock.setFree, SuperBlock.setCount, hjg] using h.free k' j hj
  · rw [hsuper]
    by_cases hk : k' = k
    · subst hk
      have := h.count k'
      simp only [SuperBlock.setFree, SuperBlock.setCount, Function.update_self]
      omega
    · rw [Finset.sum_congr rfl fun j _ => hother k' j (Or.inl hk)]
      simpa [SuperBlock.setFree, SuperBlock.setCount, hk] using h.count k'

/-! ## Allocation in an existing group -/

theorem hasFree_iff (h : Ledger n s) (k : Kind) :
    s.hasFree k = true ↔ ∃ g < n, (s.super.slots g).bgFreeCount k ≠ 0 := by
  unfold hasFree
  simp only [List.any_eq_true, Prod.exists, bne_iff_ne]
  constructor
  · rintro ⟨g, bg, hmem, hne⟩
    have hg := OrdMap.find_eq_some.mpr hmem
    rw [h.desc g bg hg] at hne
    exact ⟨g, (h.keys g).mp ⟨bg, hg⟩, hne⟩
  · rintro ⟨g, hg, hne⟩
    obtain ⟨bg, hbg⟩ := (h.keys g).mpr hg
    refine ⟨g, bg, OrdMap.find_eq_some.mp hbg, ?_⟩
    rw [h.desc g bg hbg]
    exact hne

/-- A group is passed over only when its counter is 0: the counter never claims
an item that the bitmap does not have. -/
theorem skipped (h : Ledger n s) (hfind : s.blockGroups.find g = some bg)
    (hskip : Skipped k s bg) : (s.super.slots g).bgFreeCount k = 0 := by
  rcases hskip with h0 | hnone
  · rw [← h.desc g bg hfind]; exact h0
  · have hfree := h.free k g ((h.keys g).mp ⟨bg, hfind⟩)
    have hcap := capacity_le k g
    have hfull : bitmapBits ≤ (bg.bitmap k).count bitmapBits := by
      by_contra hlt
      obtain ⟨r, hr⟩ := Bitmap.find_of_count_lt (Nat.lt_of_not_le hlt)
      rw [hnone] at hr
      cases hr
    rw [used_eq hfind] at hfree
    omega

theorem hasFree_of_skipped (h : Ledger n s) (hskip : ∀ e ∈ s.blockGroups.entries, Skipped k s e.2) :
    s.hasFree k = false := by
  by_contra hhas
  rw [Bool.not_eq_false, h.hasFree_iff] at hhas
  obtain ⟨g, hg, hne⟩ := hhas
  obtain ⟨bg, hbg⟩ := (h.keys g).mpr hg
  exact hne (h.skipped hbg (hskip _ (OrdMap.find_eq_some.mp hbg)))

theorem take (h : Ledger n s) (hn : n ≤ 33) {i : Nat}
    (hfind : s.blockGroups.find g = some bg) (hfree : (s.super.slots bg.desc).bgFreeCount k ≠ 0)
    (hbit : (bg.bitmap k).find bitmapBits = some i) :
    Ledger n ((s.setCount k (u32 (s.super.sCount k + 1))).take k g bg i) := by
  obtain ⟨hlt, hclear, -⟩ := Bitmap.find_some hbit
  have hdesc := h.desc g bg hfind
  have hcount := Bitmap.count_set hlt hclear
  have hbooks := h.free k g ((h.keys g).mp ⟨bg, hfind⟩)
  have hle := h.count_le
  have hcap := capacity_le k g
  rw [bitmapBits_eq] at hcap
  rw [hdesc] at hfree
  rw [used_eq hfind] at hbooks
  refine h.update hfind k rfl (c := u32 (s.super.sCount k + 1))
    (f := u16 ((s.super.slots g).bgFreeCount k + 65535)) ?_ (fun j hj => ?_) ?_ ?_
  · simp only [Groups.take, hdesc]
    rfl
  · rw [Bitmap.test_set_ne _ (by omega)]
    exact h.tail g bg hfind k j hj
  · rw [hcount, u32_of_lt (by cases k <;> omega)]
    omega
  · rw [hcount]
    unfold u16
    omega

theorem release (h : Ledger n s) (hn : n ≤ 33) {i : Nat} (hfind : s.blockGroups.find g = some bg)
    (hi : i < bitmapBits) (ht : (bg.bitmap k).test i = true) :
    Ledger n ((s.setCount k (sub32 (s.super.sCount k) 1)).release k g bg i) := by
  have hdesc := h.desc g bg hfind
  have hcount := Bitmap.count_clear hi ht
  have hg := (h.keys g).mp ⟨bg, hfind⟩
  have hbooks := h.free k g hg
  have hle := h.count_le
  have hcap := capacity_le k g
  rw [bitmapBits_eq] at hcap
  rw [used_eq hfind] at hbooks
  -- the bit that is cleared is one of those the count has counted
  have hsum : s.used k g ≤ ∑ j ∈ Finset.range n, s.used k j :=
    Finset.single_le_sum (f := s.used k) (fun _ _ => Nat.zero_le _) (Finset.mem_range.mpr hg)
  have hpos := h.count k
  rw [used_eq hfind] at hsum
  refine h.update hfind k rfl (c := sub32 (s.super.sCount k) 1)
    (f := u16 ((s.super.slots g).bgFreeCount k + 1)) ?_ (fun j hj => ?_) ?_ ?_
  · simp only [Groups.release, hdesc]
    rfl
  · rw [Bitmap.test_clear_ne _ (by omega)]
    exact h.tail g bg hfind k j hj
  · rw [sub32_of_le (by omega) (by cases k <;> omega)]
    omega
  · unfold u16
    omega

end Ledger

/-! ## Opening a group -/

theorem ceilGroups_le {k : Kind} {c n : Nat} (hc : c ≤ perGroup k * n) (hn : n ≤ 32) :
    SuperBlock.ceilGroups k c ≤ n := by
  have hbig : perGroup k * n + perGroup k < 2 ^ 32 := by
    have := Nat.mul_le_mul_left (perGroup k) hn
    cases k <;> simp only [perGroup_block, perGroup_inode] at * <;> omega
  have hpos := perGroup_pos k
  unfold SuperBlock.ceilGroups
  rw [u32_of_lt (by omega)]
  refine Nat.le_of_lt_succ ((Nat.div_lt_iff_lt_mul hpos).mpr ?_)
  rw [Nat.succ_mul, Nat.mul_comm n]
  omega

theorem le_ceilGroups {k : Kind} {c n : Nat} (hc : perGroup k * n < c)
    (hlt : c + perGroup k < 2 ^ 32) :
    n + 1 ≤ SuperBlock.ceilGroups k c := by
  have hpos := perGroup_pos k
  unfold SuperBlock.ceilGroups
  rw [u32_of_lt (by omega), Nat.le_div_iff_mul_le hpos, Nat.succ_mul, Nat.mul_comm n]
  omega

theorem numBlockGroups_eq {sb : SuperBlock} {n : Nat} (hn : n + 1 ≤ 32)
    (hle : ∀ k, sb.sCount k ≤ perGroup k * (n + 1))
    (hlt : n = 0 ∨ ∃ k, perGroup k * n < sb.sCount k) :
    sb.numBlockGroups = n + 1 := by
  have hmax : ∀ k, sb.sCount k + perGroup k < 2 ^ 32 := by
    intro k
    have h1 := hle k
    have h2 := Nat.mul_le_mul_left (perGroup k) hn
    cases k <;> simp only [perGroup_block, perGroup_inode] at * <;> omega
  have hi := ceilGroups_le (hle .inode) hn
  have hb := ceilGroups_le (hle .block) hn
  have hge : n = 0 ∨ n + 1 ≤ SuperBlock.ceilGroups .inode (sb.sCount .inode) ∨
      n + 1 ≤ SuperBlock.ceilGroups .block (sb.sCount .block) := by
    rcases hlt with h0 | ⟨k, hk⟩
    · exact Or.inl h0
    · have := le_ceilGroups hk (hmax k)
      cases k with
      | block => exact Or.inr (Or.inr this)
      | inode => exact Or.inr (Or.inl this)
  unfold SuperBlock.numBlockGroups
  simp only
  split <;> omega

namespace Ledger

variable {n : Nat} {s : Groups}

theorem count_full (h : Ledger n s) {k : Kind} (hfull : s.hasFree k = false) :
    s.super.sCount k = baseCount k + ∑ g ∈ Finset.range n, capacity k g := by
  rw [h.count k]
  congr 1
  refine Finset.sum_congr rfl fun g hg => ?_
  have hlt := Finset.mem_range.mp hg
  have hzero : (s.super.slots g).bgFreeCount k = 0 := by
    by_contra hne
    rw [(h.hasFree_iff k).mpr ⟨g, hlt, hne⟩] at hfull
    cases hfull
  have := h.free k g hlt
  omega

theorem count_bump (h : Ledger n s) (hn : n ≤ 33) (k k' : Kind) :
    (s.setCount k (u32 (s.super.sCount k + 1))).super.sCount k' =
      if k' = k then s.super.sCount k + 1 else s.super.sCount k' := by
  have hle := h.count_le
  by_cases hk : k' = k
  · subst hk
    simp only [Groups.setCount, SuperBlock.setCount, Function.update_self, if_true]
    exact u32_of_lt (by cases k' <;> omega)
  · simp [Groups.setCount, SuperBlock.setCount, hk]

theorem newIndex (h : Ledger n s) (hn : n ≤ 32) {k : Kind} (hfull : s.hasFree k = false) :
    (s.setCount k (u32 (s.super.sCount k + 1))).super.numBlockGroups = n := by
  obtain ⟨m, rfl⟩ : ∃ m, n = m + 1 := ⟨n - 1, by have := h.pos; omega⟩
  obtain ⟨hb, hi⟩ := sum_capacity h.pos
  have hle := h.count_le
  have hfullCount := h.count_full hfull
  have hbump := h.count_bump (Nat.le_succ_of_le hn) k
  refine numBlockGroups_eq hn (fun k' => ?_) (Or.inr ⟨k, ?_⟩)
  · rw [hbump]
    cases k' <;> cases k <;>
      simp only [perGroup_block, perGroup_inode, baseCount, reduceCtorEq, if_true,
      if_false] at * <;> omega
  · rw [hbump, if_pos rfl]
    cases k <;> simp only [perGroup_block, perGroup_inode, baseCount] at * <;> omega

theorem openAt (h : Ledger n s) : Ledger (n + 1) (s.openAt n) := by
  have hfind := find_openAt n s
  have hnew : ∀ k, (s.openAt n).used k n = 0 := by
    intro k
    rw [used_eq (b := newGroup n) (by rw [hfind, if_pos rfl])]
    exact Bitmap.count_zero _
  have hold : ∀ k, ∀ g < n, (s.openAt n).used k g = s.used k g := by
    intro k g hg
    unfold used
    rw [hfind, if_neg (Nat.ne_of_lt hg)]
  refine ⟨Nat.succ_pos n, fun g => ?_, fun g bg hg => ?_, ?_, h.state, fun g hg => ?_,
    fun g bg hg k i hi => ?_, fun k g hg => ?_, fun k => ?_⟩
  · rw [hfind]
    split
    · rename_i heq
      subst heq
      exact ⟨fun _ => Nat.lt_succ_self g, fun _ => ⟨_, rfl⟩⟩
    · rename_i hne
      rw [h.keys g]
      omega
  · rw [hfind] at hg
    split at hg
    · rename_i heq
      cases hg
      exact heq.symm
    · exact h.desc g bg hg
  · simp only [Groups.openAt, h.table, List.range_succ]
  · by_cases hgn : g = n
    · subst hgn
      simp [Groups.openAt]
    · simpa [Groups.openAt, hgn] using h.slot g (by omega)
  · rw [hfind] at hg
    split at hg
    · cases hg
      exact Bitmap.test_zero i
    · exact h.tail g bg hg k i hi
  · by_cases hgn : g = n
    · subst hgn
      rw [hnew]
      obtain ⟨m, rfl⟩ : ∃ m, g = m + 1 := ⟨g - 1, by have := h.pos; omega⟩
      simp only [Groups.openAt, Function.update_self, newDesc_free]
      cases k <;> rfl
    · rw [hold k g (by omega)]
      simpa [Groups.openAt, hgn] using h.free k g (by omega)
  · rw [Finset.sum_range_succ, hnew, Finset.sum_congr rfl fun g hg =>
      hold k g (Finset.mem_range.mp hg)]
    exact h.count k

end Ledger

/-! ## What allocation and freeing do to the books -/

/-- `alloc` hands out `index`, which was free, and changes no other bit. -/
structure HandedOut (k : Kind) (index : Nat) (s s' : Groups) : Prop where
  free : s.allocated k index = false
  after : ∀ k' j, s'.allocated k' j = if k' = k ∧ j = index then true else s.allocated k' j
  lt : index < 2 ^ 32
  count : ∀ k', s'.super.sCount k' = if k' = k then s.super.sCount k + 1 else s.super.sCount k'

theorem Ledger.find_new {n : Nat} {s : Groups} (h : Ledger n s) : s.blockGroups.find n = none := by
  cases hf : s.blockGroups.find n with
  | none => rfl
  | some bg => exact absurd ((h.keys n).mp ⟨bg, hf⟩) (Nat.lt_irrefl n)

theorem Ledger.index_lt {n g i : Nat} {k : Kind} (hn : n ≤ 33) (hg : g < n) (hi : i < bitmapBits) :
    g * perGroup k + i < 2 ^ 32 := by
  have h1 : g * perGroup k ≤ 32 * perGroup k := Nat.mul_le_mul_right _ (by omega)
  rw [bitmapBits_eq] at hi
  cases k <;> simp only [perGroup_block, perGroup_inode] at * <;> omega

/-- The last of 33 groups can still be used up; opening one needs its index to be new. -/
theorem Ledger.alloc_of_room {n : Nat} {s : Groups} (h : Ledger n s) (hn : n ≤ 33) {k : Kind}
    (hroom : s.hasFree k = true ∨ n ≤ 32) :
    ∃ index s', s.alloc k = (some (index, s.hasFree k), s') ∧ HandedOut k index s s' ∧
      Ledger (if s.hasFree k then n else n + 1) s' := by
  have hres := alloc_result k s
  generalize s.alloc k = r at hres
  cases hres with
  | @old g bg i hfind hfree hbit =>
    obtain ⟨hlt, hclear, -⟩ := Bitmap.find_some hbit
    have hg := (h.keys g).mp ⟨bg, hfind⟩
    have hhas : s.hasFree k = true := by
      rw [h.hasFree_iff]
      rw [h.desc g bg hfind] at hfree
      exact ⟨g, hg, hfree⟩
    rw [u32_of_lt (index_lt (k := k) hn hg hlt), hhas, if_pos rfl]
    refine ⟨_, _, rfl, ⟨?_, fun k' j => ?_, index_lt hn hg hlt, h.count_bump hn k⟩,
      h.take hn hfind hfree hbit⟩
    · obtain ⟨hdiv, hmod⟩ := (index_eq_iff (k := k) (g := g) hlt).mp rfl
      unfold allocated
      rw [hdiv, hmod, hfind]
      simp [hclear]
    · rw [allocated_setBitmap hfind hlt rfl fun j hj => Bitmap.test_set_ne _ hj]
      simp
  | @new g s₁ hs₁ hg hskip =>
    have hnone : s.hasFree k = false := h.hasFree_of_skipped hskip
    have hn : n ≤ 32 := hroom.resolve_left (by rw [hnone]; exact Bool.false_ne_true)
    subst hs₁
    rw [h.newIndex hn hnone] at hg
    subst hg
    have hopen : (s.setCount k (u32 (s.super.sCount k + 1))).allocBlockGroup.2 =
        (s.openAt g).setCount k (u32 ((s.openAt g).super.sCount k + 1)) := by
      have hidx := h.newIndex hn hnone
      simp only [allocBlockGroup, hidx]
      rfl
    have hfind : (s.openAt g).blockGroups.find g = some (newGroup g) := OrdMap.find_insert_self ..
    have hzero : 0 < bitmapBits := by decide
    rw [u32_of_lt (index_lt (k := k) (n := g + 1) (by omega) (Nat.lt_succ_self g) hzero),
      hnone, hopen]
    have hslot : ((s.openAt g).super.slots (newGroup g).desc).bgFreeCount k ≠ 0 := by
      simp only [Groups.openAt, newGroup, Function.update_self, newDesc_free]
      decide
    refine ⟨_, _, rfl, ⟨?_, fun k' j => ?_,
      index_lt (n := g + 1) (by omega) (Nat.lt_succ_self g) hzero, h.count_bump (by omega) k⟩,
      h.openAt.take (by omega) hfind hslot find_zero⟩
    · obtain ⟨hdiv, -⟩ := (index_eq_iff (k := k) (g := g) hzero).mp rfl
      unfold allocated
      rw [hdiv, h.find_new]
    · rw [← allocated_openAt h.find_new, allocated_setBitmap hfind hzero rfl fun j hj =>
        Bitmap.test_set_ne _ hj]
      simp

theorem Ledger.alloc {n : Nat} {s : Groups} (h : Ledger n s) (hn : n ≤ 32) (k : Kind) :
    ∃ index s', s.alloc k = (some (index, s.hasFree k), s') ∧ HandedOut k index s s' ∧
      Ledger (if s.hasFree k then n else n + 1) s' :=
  h.alloc_of_room (Nat.le_succ_of_le hn) (Or.inr hn)

theorem Ledger.free_allocated {n : Nat} {s : Groups} (h : Ledger n s) (hn : n ≤ 33) {k : Kind}
    {index : Nat} (ha : s.allocated k index = true) :
    ∃ s', s.free k index = some (true, s') ∧ Ledger n s' ∧
      ∀ k' j, s'.allocated k' j = if k' = k ∧ j = index then false else s.allocated k' j := by
  obtain ⟨bg, hfind, hi, ht⟩ := allocated_iff.mp ha
  refine ⟨_, free_eq k index s hfind ht, h.release hn hfind hi ht, fun k' j => ?_⟩
  rw [allocated_setBitmap hfind hi rfl fun j hj => Bitmap.test_clear_ne _ hj,
    ← (index_eq_iff hi).mpr ⟨rfl, rfl⟩]
  simp

/-! ## Room for further blocks -/

/-- The next `m` blocks are served from the first 15 groups, which lie below 2^31. -/
def Room (m : Nat) (s : Groups) : Prop :=
  s.super.descTable.length < 15 ∨
    ∃ g bg, s.blockGroups.find g = some bg ∧ m ≤ (s.super.slots bg.desc).bgFreeCount .block

theorem Room.mono {m m' : Nat} {s : Groups} (h : Room m s) (hm : m' ≤ m) : Room m' s := by
  rcases h with h | ⟨g, bg, hfind, hle⟩
  · exact Or.inl h
  · exact Or.inr ⟨g, bg, hfind, Nat.le_trans hm hle⟩

theorem take_free (k : Kind) (g : Nat) (bg : BlockGroup) (i : Nat) (s : Groups) (j : Nat) :
    ((s.take k g bg i).super.slots j).bgFreeCount k =
      if j = bg.desc then u16 ((s.super.slots bg.desc).bgFreeCount k + 65535) else
      (s.super.slots j).bgFreeCount k := by
  by_cases hj : j = bg.desc
  · subst hj
    simp [take, SuperBlock.setFree]
  · simp [take, SuperBlock.setFree, hj]

theorem Ledger.room_alloc {n m : Nat} {s : Groups} (h : Ledger n s) (hn : n ≤ 15)
    (hroom : Room (m + 1) s) (hm : m ≤ 32767) :
    (if s.hasFree .block then n else n + 1) ≤ 15 ∧ Room m (s.alloc .block).2 := by
  have hlen : s.super.descTable.length = n := by rw [h.table, List.length_range]
  obtain ⟨index, s', heq, -, h'⟩ := h.alloc (by omega) .block
  have hlen' : s'.super.descTable.length = if s.hasFree .block then n else n + 1 := by
    rw [h'.table, List.length_range]
  have hres := alloc_result .block s
  rw [heq] at hres
  rw [heq]
  generalize s.hasFree .block = b at hres hlen' ⊢
  cases hres with
  | @old g bg i hfind hfree hbit =>
    refine ⟨hn, ?_⟩
    rcases hroom with hlt | ⟨g', bg', hfind', hle⟩
    · exact Or.inl (by rw [hlen']; rw [hlen] at hlt; exact hlt)
    · refine Or.inr ?_
      by_cases hg : g' = g
      · subst hg
        rw [hfind] at hfind'
        cases hfind'
        refine ⟨g', _, OrdMap.find_insert_self .., ?_⟩
        rw [setBitmap_desc, take_free, if_pos rfl]
        have hcap := capacity_le .block g'
        have hbooks := h.free .block g' ((h.keys g').mp ⟨bg, hfind⟩)
        rw [h.desc g' bg hfind] at hle ⊢
        rw [bitmapBits_eq] at hcap
        simp only [setCount_slots, u16]
        omega
      · refine ⟨g', bg', (OrdMap.find_insert_ne _ _ hg).trans hfind', ?_⟩
        rw [take_free, if_neg (by rw [h.desc g' bg' hfind', h.desc g bg hfind]; exact hg)]
        exact Nat.le_of_succ_le hle
  | @new g s₁ hs₁ hg hskip =>
    have hlt : n < 15 := by
      rcases hroom with hlt | ⟨g', bg', hfind', hle⟩
      · rwa [hlen] at hlt
      · have hzero := h.skipped hfind' (hskip _ (OrdMap.find_eq_some.mp hfind'))
        rw [h.desc g' bg' hfind'] at hle
        omega
    refine ⟨hlt, Or.inr ⟨g, _, OrdMap.find_insert_self .., ?_⟩⟩
    rw [setBitmap_desc, take_free, if_pos rfl]
    subst hg
    simp only [allocBlockGroup, SuperBlock.putGroupDesc, newGroup, Function.update_self,
      newDesc_free, u16]
    omega

/-! ## The formatted file system -/

theorem rootGroup_block : (rootGroup.bitmap .block).count bitmapBits = 0 := Bitmap.count_zero _

theorem rootGroup_inode : (rootGroup.bitmap .inode).count bitmapBits = 1 := by
  have h : rootGroup.bitmap .inode = Bitmap.zero.set rootInode := rfl
  rw [h, Bitmap.count_set (by decide) (Bitmap.test_zero _), Bitmap.count_zero]

theorem format_find (g : Nat) (bg : BlockGroup) :
    format.blockGroups.find g = some bg ↔ g = 0 ∧ bg = rootGroup := by
  rw [OrdMap.find_eq_some, format_entries]
  simp

theorem format_allocated (i : Nat) : format.allocated .inode i = true ↔ i = rootInode := by
  rw [allocated_iff]
  constructor
  · rintro ⟨bg, hfind, hlt, ht⟩
    obtain ⟨hdiv, rfl⟩ := (format_find _ _).mp hfind
    rw [show rootGroup.bitmap .inode = Bitmap.zero.set rootInode from rfl] at ht
    have hmod : i % perGroup .inode = rootInode := by
      by_contra hne
      rw [Bitmap.test_set_ne _ hne, Bitmap.test_zero] at ht
      cases ht
    rw [← Nat.div_add_mod i (perGroup .inode), hdiv, hmod, Nat.mul_zero]
    rfl
  · rintro rfl
    exact ⟨rootGroup, (format_find _ _).mpr ⟨rfl, rfl⟩, by decide, by decide⟩

theorem format_count : format.super.sCount .block = 3 ∧ format.super.sCount .inode = 1 := ⟨rfl, rfl⟩

theorem format_free :
    (format.super.slots 0).bgFreeCount .block = 32768 ∧ (format.super.slots 0).bgFreeCount .inode =
      32766 :=
  ⟨rfl, rfl⟩

theorem format_used (k : Kind) : format.used k 0 = (rootGroup.bitmap k).count bitmapBits :=
  used_eq ((format_find 0 _).mpr ⟨rfl, rfl⟩)

theorem Ledger.format : Ledger 1 Groups.format where
  pos := Nat.one_pos
  keys g := by simp only [format_find, exists_and_left, exists_eq, and_true, Nat.lt_one_iff]
  desc g bg h := by
    obtain ⟨rfl, rfl⟩ := (format_find g bg).mp h
    rfl
  table := rfl
  state := rfl
  slot g hg := by
    obtain rfl := Nat.lt_one_iff.mp hg
    exact format_slot
  tail g bg h k i hi := by
    obtain ⟨rfl, rfl⟩ := (format_find g bg).mp h
    cases k with
    | block => exact Bitmap.test_zero i
    | inode =>
      have hne : i ≠ rootInode := by
        rintro rfl
        exact absurd hi (by decide)
      exact (Bitmap.test_set_ne _ hne).trans (Bitmap.test_zero i)
  free k g hg := by
    obtain rfl := Nat.lt_one_iff.mp hg
    rw [format_used]
    cases k with
    | block => rw [format_free.1, rootGroup_block]; rfl
    | inode => rw [format_free.2, rootGroup_inode]; rfl
  count k := by
    rw [Finset.sum_range_one, format_used]
    cases k with
    | block => rw [format_count.1, rootGroup_block]; rfl
    | inode => rw [format_count.2, rootGroup_inode]; rfl

end Groups

end NaiveFS
