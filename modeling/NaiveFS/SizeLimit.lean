import NaiveFS.ReadSound
import NaiveFS.SpareBlocks
import NaiveFS.SparseWrite

/-!
# Writes at any 64-bit offset

The gap loop compares a 32-bit expression, at most 2^32 - 4096, with the offset,
and `i_size` is a 32-bit field. A write that extends the file comes back with the
right size exactly when it starts at 2^32 - 4096 or below and ends below 2^32. The file
may lack blocks below its size, as sparse writes leave it, as long as those are mapped in
time that the write goes to.
-/

namespace NaiveFS

open PointerTree BlockReader BlockLayer

/-- The blocks of a file hang in its tree, and the disk has fewer blocks than `i_blocks`
can count. How many bytes the file has is another matter. -/
structure Laid (s : BlockStore) (ino : TreeInode) (n : Nat) (loc : Pos → Nat) : Prop where
  tree : Tree s ino n loc
  blocks : ino.iBlocks = 8 * n
  room : n + s.free.length < 2 ^ 29

/-- A handle between calls stands on a mapped block, or on a missing one whose pointer can
be read. From the double indirect blocks on it is in step unless its flag is up; below, a
seek uses nothing it holds. -/
structure HandleOk (loc : Pos → Nat) (n : Nat) (c : Cursor) : Prop where
  pos : c.blockIdInFile < n ∨ c.blockIdInFile < 12 ∨ 12 < n ∧ c.blockIdInFile < 1036
  sync : c.cacheUpdateFlag = false → 1036 ≤ c.blockIdInFile → SyncedAt loc c.blockIdInFile c

/-- `i_size` when the gap loop of a write at `offset` has ended. In the last block below
2^32 the test starts again from 0. -/
def sizeBefore (size offset : Nat) : Nat :=
  if u32 (nextBound size) < offset then (offset - 1) / 4096 * 4096 else size

/-- The blocks that the gap loop and the test for an aligned size add. -/
def addedBefore (size offset : Nat) : Nat :=
  (if u32 (nextBound size) < offset then (offset - 1) / 4096 + 1 - u32 (nextBound size) / 4096 else
    0) +
    if sizeBefore size offset % 4096 = 0 then 1 else 0

/-- What an extending write at `offset` goes to is mapped in time: its first block, and the
blocks from there to the end of the file. -/
structure Covers (f : File) (offset : Nat) : Prop where
  first : offset / 4096 < numAlignedBlocks f.ino.iBlocks + addedBefore f.ino.iSize offset
  rest : 4096 * (offset / 4096 + 1) < sizeBefore f.ino.iSize offset →
    sizeBefore f.ino.iSize offset ≤
    4096 * (numAlignedBlocks f.ino.iBlocks + addedBefore f.ino.iSize offset)

section
variable (f : File) (h : Nat) (buf : List UInt8) (offset : Nat) (append : Bool)

/-- The write comes back with an error or a short count, and with the file as it was. -/
def Declines : Prop :=
  ∃ r f', write f h buf offset append = some (r, f') ∧ r < buf.length ∧ f'.ino.iSize = f.ino.iSize ∧
    f'.ino.iBlocks = f.ino.iBlocks

/-- What a write should come back with. -/
def Faithful : Prop :=
  Declines f h buf offset append ∨ ∃ f', write f h buf offset append =
    some ((buf.length : Int), f') ∧
    f'.ino.iSize = max f.ino.iSize (f.start offset append + buf.length)

/-- The write goes only to blocks that are mapped: an extending one is covered, and one in
place does not start in the last block below 2^64 and end behind it. -/
structure Sheltered : Prop where
  extending : f.ino.iSize < u64 (f.start offset append + buf.length) →
    f.start offset append ≤ 2 ^ 32 - 4096 →
    Covers f (f.start offset append)
  inPlace : u64 (f.start offset append + buf.length) ≤ f.ino.iSize →
    f.start offset append + buf.length < 2 ^ 64 ∨ f.start offset append < 2 ^ 64 - 4096

/-- The write stays within the file, or it starts at 2^32 - 4096 or below, ends below 2^32,
and its length is an `int`. -/
def SizeSafe : Prop :=
  f.ino.iSize < u64 (f.start offset append + buf.length) →
    f.start offset append ≤ 2 ^ 32 - 4096 ∧ f.start offset append + buf.length < 2 ^ 32 ∧
    buf.length < 2 ^ 31

end

section
variable {s s' : BlockStore} {ino ino' : TreeInode} {n k i : Nat} {loc : Pos → Nat} {c : Cursor}

theorem allocBlock_free_ne (h : allocBlock ino s = (some i, ino', s')) : s.free ≠ [] := by
  intro hnil
  unfold allocBlock at h
  rw [BlockStore.allocRaw_eq, hnil] at h
  cases h

namespace Laid

theorem lt (d : Laid s ino n loc) : n < 2 ^ 29 := Nat.lt_of_le_of_lt (Nat.le_add_right _ _) d.room

theorem alloc_none (d : Laid s ino n loc) (h : allocBlock ino s = (none, ino', s')) :
    s'.free = [] := by
  by_cases hfree : s.free = []
  · unfold allocBlock at h
    rw [BlockStore.allocRaw_eq, hfree] at h
    cases h
    rw [BlockStore.allocHead_free, hfree]
    rfl
  · have hpos := List.length_pos_iff.mpr hfree
    have hroom := d.room
    exact (allocBlock_spec d.tree d.blocks (by omega) h).2.1 rfl

theorem alloc (d : Laid s ino n loc) (h : allocBlock ino s = (some i, ino', s')) (m : Nat) :
    ino'.iSize = ino.iSize ∧
      ∃ loc', Laid s' { ino' with iSize := m } (n + 1) loc' ∧ ∀ p, Live n p → loc' p = loc p := by
  have hpos := List.length_pos_iff.mpr (allocBlock_free_ne h)
  have hroom := d.room
  obtain ⟨hsuf, -, hgrown⟩ := allocBlock_spec d.tree d.blocks (by omega) h
  obtain ⟨loc', g⟩ := hgrown i rfl
  refine ⟨g.iSize, loc', ⟨g.tree, g.iBlocks, ?_⟩, g.loc_old⟩
  have hle := hsuf.length_le
  rw [List.length_tail] at hle
  omega

theorem alloc_if (d : Laid s ino n loc) (p : Prop) [Decidable p] {o : Option Nat}
    (h : (if p then allocBlock ino s else (some 0, ino, s)) = (o, ino', s')) :
    (o = none → s'.free = []) ∧ ∀ i, o = some i → ino'.iSize = ino.iSize ∧
      ∃ loc', Laid s' ino' (if p then n + 1 else n) loc' ∧ ∀ p, Live n p → loc' p = loc p := by
  by_cases hp : p
  · rw [if_pos hp] at h ⊢
    exact ⟨fun ho => d.alloc_none (ho ▸ h), fun i hi => d.alloc (hi ▸ h) ino'.iSize⟩
  · rw [if_neg hp] at h ⊢
    cases h
    exact ⟨by simp, fun _ _ => ⟨rfl, loc, d, fun _ _ => rfl⟩⟩

theorem next (d : Laid s ino n loc) (hc : SyncedAt loc k c) (hk : k + 1 < n) :
    ∃ c', nextBlock ino s c = (0, c') ∧ SyncedAt loc (k + 1) c' := by
  have hlt := d.lt
  have hsync := hc.inSync d.tree hlt (by omega)
  rw [nextBlock_eq hsync (by rw [hc.id, iblock14_eq]; omega), hc.id]
  obtain ⟨c', hs, hsynced, -⟩ := bfSeek_spec d.tree hk hlt c
  exact ⟨c', hs, hsynced⟩

theorem put {f : File} (d : Laid f.store f.ino n loc) (hk : k < n) (off : Nat) (buf : List UInt8)
    (h : off + buf.length ≤ 4096) :
    ∃ t, f.putBytes (loc (.data k)) off buf = some { f with store := t } ∧ Laid t f.ino n loc := by
  obtain ⟨t, hput, hfree, ht, -⟩ := File.putBytes_spec d.tree d.lt hk h
  refine ⟨t, hput, ht, d.blocks, ?_⟩
  rw [hfree]
  exact d.room

end Laid

end

/-! ## The gap loop -/

section
variable {offset n : Nat}

theorem fillGap_endless (ho : 2 ^ 32 - 4096 < offset) :
    ∀ (fuel : Nat) {s : BlockStore} {ino : TreeInode} {n : Nat}
    {loc : Pos → Nat}, Laid s ino n loc →
    fillGap offset fuel ino s = none ∨ ∃ ino' s', fillGap offset fuel ino s =
      some (false, ino', s') ∧ s'.free = [] := by
  intro fuel
  induction fuel with
  | zero => exact fun _ => Or.inl rfl
  | succ fuel ih =>
    intro s ino n loc d
    have htest : u32 (ino.iSize + (4096 - ino.iSize % 4096)) < offset := by
      unfold u32
      omega
    unfold fillGap
    rw [blockSize_eq, gap_round, if_pos htest]
    rcases ha : allocBlock ino s with ⟨_ | i, ino₁, s₁⟩
    · exact Or.inr ⟨ino₁, s₁, rfl, d.alloc_none ha⟩
    · obtain ⟨-, loc', d', -⟩ := d.alloc ha (u32 (ino₁.iSize + (4096 - ino₁.iSize % 4096)))
      exact ih d'

theorem Laid.fillGap_low (ho : offset ≤ 2 ^ 32 - 4096) :
    ∀ (fuel : Nat) {s : BlockStore} {ino : TreeInode} {n : Nat}
    {loc : Pos → Nat}, Laid s ino n loc → ino.iSize < 2 ^ 32 - 4096 →
    offset + ino.iSize % 4096 ≤ ino.iSize + 4096 * fuel →
    0 < fuel → ∃ ok ino' s', fillGap offset fuel ino s = some (ok, ino', s') ∧
      (ok = false → s'.free = []) ∧ (ok = true → ∃ n' loc', Laid s' ino' n' loc' ∧
        (∀ p, Live n p → loc' p = loc p) ∧ GapFilled offset ino.iSize n ino'.iSize n') := by
  intro fuel
  induction fuel with
  | zero =>
    intro s ino n loc _ _ _ h
    cases h
  | succ fuel ih =>
    intro s ino n loc d hs hfuel _
    unfold fillGap
    rw [blockSize_eq, gap_test hs]
    by_cases hgap : nextBound ino.iSize < offset
    · rw [if_pos hgap]
      rcases ha : allocBlock ino s with ⟨_ | i, ino₁, s₁⟩
      · exact ⟨false, ino₁, s₁, rfl, fun _ => d.alloc_none ha, by simp⟩
      · obtain ⟨hsize, loc₁, d₁, hold⟩ := d.alloc ha (nextBound ino.iSize)
        have hnew : u32 (ino₁.iSize + (4096 - ino₁.iSize % 4096)) = nextBound ino.iSize := by
          rw [hsize]
          unfold u32 nextBound
          omega
        simp only [hnew]
        obtain ⟨ok, ino', s', hrec, hfail, hdone⟩ := ih d₁ (by simp only; omega)
          (by simp only [nextBound] at hfuel ⊢; omega) (by unfold nextBound at hgap; omega)
        refine ⟨ok, ino', s', hrec, hfail, fun hok => ?_⟩
        obtain ⟨n', loc', d', hold', hg⟩ := hdone hok
        refine ⟨n', loc', d', fun p hp => (hold' p (hp.mono (Nat.le_succ n))).trans (hold p hp), ?_⟩
        unfold GapFilled nextBound at hg ⊢
        unfold nextBound at hgap
        simp only at hg
        omega
    · rw [if_neg hgap]
      exact ⟨true, ino, s, rfl, by simp, fun _ => ⟨n, loc, d, fun _ _ => rfl,
        Or.inl ⟨Nat.not_lt.mp hgap, rfl, rfl⟩⟩⟩

/-- From a size below the last block the loop ends where `sizeBefore` says. -/
theorem GapFilled.before {size size' n' : Nat} (hs : size < 2 ^ 32 - 4096)
    (h : GapFilled offset size n size' n') :
    size' = sizeBefore size offset ∧ (if size' % 4096 = 0 then n' + 1 else n') =
      n + addedBefore size offset := by
  have hsize : size' = sizeBefore size offset := by
    unfold GapFilled at h
    unfold sizeBefore u32
    unfold nextBound at h ⊢
    split <;> omega
  refine ⟨hsize, ?_⟩
  unfold addedBefore
  rw [← hsize]
  unfold GapFilled at h
  unfold u32
  unfold nextBound at h ⊢
  split <;> split <;> omega

/-- From the last block below 2^32 the test wraps to 0, and the size restarts there. -/
theorem GapFilled.restart {size size' n' : Nat} (hs : size < 2 ^ 32)
    (hlast : 2 ^ 32 - 4096 ≤ size) (ho : 0 < offset) (h : GapFilled offset 0 (n + 1) size' n') :
    size' = sizeBefore size offset ∧ (if size' % 4096 = 0 then n' + 1 else n') =
      n + addedBefore size offset := by
  have hsize : size' = sizeBefore size offset := by
    unfold GapFilled nextBound at h
    unfold sizeBefore u32 nextBound
    split <;> omega
  refine ⟨hsize, ?_⟩
  unfold addedBefore
  rw [← hsize]
  unfold GapFilled nextBound at h
  unfold u32 nextBound
  split <;> split <;> omega

theorem Laid.fillGap (ho : offset ≤ 2 ^ 32 - 4096) {s : BlockStore} {ino : TreeInode}
    {loc : Pos → Nat} (d : Laid s ino n loc) (hs : ino.iSize < 2 ^ 32) :
    ∃ ok ino' s', fillGap offset gapFuel ino s = some (ok, ino', s') ∧ (ok = false → s'.free = []) ∧
      (ok = true → ∃ n' loc', Laid s' ino' n' loc' ∧ (∀ p, Live n p → loc' p = loc p) ∧ n ≤ n' ∧
        ino'.iSize = sizeBefore ino.iSize offset ∧
        (if ino'.iSize % 4096 = 0 then n' + 1 else n') = n + addedBefore ino.iSize offset) := by
  have hmono : ∀ {size m size' m'}, GapFilled offset size m size' m' → m ≤ m' := by
    intro size m size' m' h
    unfold GapFilled nextBound at h
    omega
  by_cases hlow : ino.iSize < 2 ^ 32 - 4096
  · obtain ⟨ok, ino', s', heq, hfail, hdone⟩ :=
      Laid.fillGap_low ho gapFuel d hlow (by unfold gapFuel; omega)
      (by unfold gapFuel; omega)
    refine ⟨ok, ino', s', heq, hfail, fun hok => ?_⟩
    obtain ⟨n', loc', d', hold, hg⟩ := hdone hok
    exact ⟨n', loc', d', hold, hmono hg, hg.before hlow⟩
  · have hround : u32 (ino.iSize + (4096 - ino.iSize % 4096)) = 0 := by
      unfold u32
      omega
    have hfuel : gapFuel = 2 ^ 20 + 1 + 1 := rfl
    rw [hfuel]
    unfold NaiveFS.fillGap
    rw [blockSize_eq, gap_round, hround]
    by_cases hzero : 0 < offset
    · rw [if_pos hzero]
      rcases ha : allocBlock ino s with ⟨_ | i, ino₁, s₁⟩
      · exact ⟨false, ino₁, s₁, rfl, fun _ => d.alloc_none ha, by simp⟩
      · obtain ⟨hsz, loc₁, d₁, hold⟩ := d.alloc ha 0
        simp only [hsz, hround]
        obtain ⟨ok, ino', s', heq, hfail, hdone⟩ :=
          Laid.fillGap_low ho (2 ^ 20 + 1) d₁ (by simp only; omega)
          (by simp only; omega) (by omega)
        refine ⟨ok, ino', s', heq, hfail, fun hok => ?_⟩
        obtain ⟨n', loc', d', hold', hg⟩ := hdone hok
        have hle := hmono hg
        exact ⟨n', loc', d', fun p hp => (hold' p (hp.mono (Nat.le_succ n))).trans
          (hold p hp), by omega, hg.restart hs (Nat.not_lt.mp hlow) hzero⟩
    · rw [if_neg hzero]
      refine ⟨true, ino, s, rfl, by simp, fun _ => ⟨n, loc, d, fun _ _ => rfl, Nat.le_refl n, ?_⟩⟩
      have hskip : ¬ u32 (nextBound ino.iSize) < offset := fun h => hzero (Nat.zero_lt_of_lt h)
      unfold addedBefore sizeBefore
      rw [if_neg hskip, if_neg hskip, Nat.zero_add]
      exact ⟨rfl, by split <;> rfl⟩

end

/-- The state before the first chunk. -/
structure Poised (offset size n size' n' : Nat) : Prop where
  size_eq : size' = sizeBefore size offset
  blocks_eq : n' = n + addedBefore size offset

theorem Poised.change {offset size n size' n' : Nat} (h : Poised offset size n size' n') :
    size % 4096 ≠ 0 ∧ size' = size ∧ n' = n ∨ n < n' ∧ (size' = size ∨ size' < offset) := by
  obtain ⟨hsize, hblocks⟩ := h
  unfold addedBefore at hblocks
  rw [← hsize] at hblocks
  unfold sizeBefore at hsize
  by_cases hgap : u32 (nextBound size) < offset
  · rw [if_pos hgap] at hsize hblocks
    right
    split at hblocks <;> omega
  · rw [if_neg hgap] at hsize hblocks
    split at hblocks <;> omega

theorem Laid.before {offset : Nat} (ho : offset ≤ 2 ^ 32 - 4096) {s : BlockStore}
    {ino : TreeInode} {n : Nat} {loc : Pos → Nat} (d : Laid s ino n loc) (hs : ino.iSize < 2 ^ 32) :
    ∃ ok ino' s', allocBefore offset ino s = some (ok, ino', s') ∧ (ok = false → s'.free = []) ∧
      (ok = true → ∃ n' loc', Laid s' ino' n' loc' ∧ (∀ p, Live n p → loc' p = loc p) ∧
        Poised offset ino.iSize n ino'.iSize n') := by
  obtain ⟨ok, ino₁, s₁, hgap, hfail, hdone⟩ := Laid.fillGap ho d hs
  unfold allocBefore
  rw [hgap]
  cases ok with
  | false => exact ⟨false, ino₁, s₁, rfl, hfail, by simp⟩
  | true =>
    obtain ⟨n₁, loc₁, d₁, hold, hmono, hsize, hblocks⟩ := hdone rfl
    simp only [allocAligned]
    rw [blockSize_eq]
    by_cases hal : ino₁.iSize % 4096 = 0
    · rw [if_pos hal]
      rw [if_pos hal] at hblocks
      rcases ha : allocBlock ino₁ s₁ with ⟨_ | i, ino₂, s₂⟩
      · exact ⟨false, ino₂, s₂, rfl, fun _ => d₁.alloc_none ha, by simp⟩
      · obtain ⟨hsz, loc₂, d₂, hold₂⟩ := d₁.alloc ha ino₂.iSize
        exact ⟨true, ino₂, s₂, rfl, by simp, fun _ => ⟨n₁ + 1, loc₂, d₂,
          fun p hp => (hold₂ p (hp.mono hmono)).trans (hold p hp), hsz.trans hsize, hblocks⟩⟩
    · rw [if_neg hal]
      rw [if_neg hal] at hblocks
      exact ⟨true, ino₁, s₁, rfl, by simp, fun _ => ⟨n₁, loc₁, d₁, hold, hsize, hblocks⟩⟩

/-! ## The chunks -/

/-- The loop of the extending branch on blocks in order: it reports all its bytes,
and when it passes 2^32 it has allocated a block or wrapped the size. -/
structure Extended (size offset len n size' n' : Nat) : Prop where
  le : n ≤ n'
  lt : size' < 2 ^ 32
  cover : offset + len ≤ 4096 * n'
  done : len = 0 → size' = size
  exact : offset ≤ size → offset + len < 2 ^ 32 → size' = max size (offset + len)
  wraps : 0 < len → 2 ^ 32 ≤ offset + len → n < n' ∨ 2 ^ 32 - 4096 < size ∧ size' ≤ 4096

theorem Extended.chunk {size offset len n n₁ size' n' csz : Nat} (hlen : 0 < len)
    (hcsz : min len 4096 = csz) (hal : offset % 4096 = 0) (hs : size < 2 ^ 32)
    (hn₁ : (if size ≤ offset then n + 1 else n) = n₁)
    (h : Extended (u32 (max size (offset + csz))) (offset + csz) (len - csz) n₁ size' n') :
    Extended size offset len n size' n' := by
  have hle := h.le
  have hcover := h.cover
  have hexact := h.exact
  have hwraps := h.wraps
  have hdone := h.done
  unfold u32 at hexact hwraps hdone
  refine ⟨?_, h.lt, by omega, fun hz => by omega, fun ho hend => ?_, fun _ hend => ?_⟩
  · split at hn₁ <;> omega
  · have := hexact (by omega) (by omega)
    omega
  · by_cases halloc : size ≤ offset
    · rw [if_pos halloc] at hn₁
      omega
    · rw [if_neg halloc] at hn₁
      by_cases hlast : len ≤ 4096
      · have := hdone (by omega)
        omega
      · have := hwraps (by omega) (by omega)
        omega

theorem Laid.extendLoop :
    ∀ (fuel : Nat) {f f' : File} {c c' : Cursor} {offset ret n k : Nat} {buf : List UInt8}
      {loc : Pos → Nat}
    {r : Int}, Laid f.store f.ino n loc → f.ino.iSize < 2 ^ 32 → SyncedAt loc k c → k < n →
    offset ≤ 4096 * (k + 1) →
    (buf ≠ [] → offset = 4096 * (k + 1) ∧ (offset < f.ino.iSize → f.ino.iSize ≤ 4096 * n)) →
    buf.length ≤ fuel → extendLoop fuel f c offset ret buf = (r, f', c') →
    f'.store.free ≠ [] → r = toInt32 (ret + buf.length) ∧
      ∃ n', f'.ino.iBlocks = 8 * n' ∧ n' < 2 ^ 29 ∧
      Extended f.ino.iSize offset buf.length n f'.ino.iSize n' := by
  intro fuel
  induction fuel with
  | zero =>
    intro f f' c c' offset ret n k buf loc r d hs hc hk hle _ hfuel h _
    obtain rfl : buf = [] := List.eq_nil_of_length_eq_zero (Nat.le_zero.mp hfuel)
    simp only [NaiveFS.extendLoop, Prod.mk.injEq] at h
    obtain ⟨rfl, rfl, -⟩ := h
    refine ⟨rfl, n, d.blocks, d.lt, ⟨Nat.le_refl n, hs, ?_, fun _ => rfl,
      fun hle _ => (Nat.max_eq_left hle).symm, by simp⟩⟩
    simp only [List.length_nil]
    omega
  | succ fuel ih =>
    intro f f' c c' offset ret n k buf loc r d hs hc hk hle hoff hfuel h hfree
    unfold NaiveFS.extendLoop at h
    by_cases hbuf : buf = []
    · subst hbuf
      simp only [List.length_nil, if_true, Prod.mk.injEq] at h
      obtain ⟨rfl, rfl, -⟩ := h
      refine ⟨rfl, n, d.blocks, d.lt, ⟨Nat.le_refl n, hs, ?_, fun _ => rfl,
        fun hle _ => (Nat.max_eq_left hle).symm, by simp⟩⟩
      simp only [List.length_nil]
      omega
    have hlen : 0 < buf.length := List.length_pos_iff.mpr hbuf
    obtain ⟨ho, hcov⟩ := hoff hbuf
    rw [if_neg (by omega), blockSize_eq] at h
    generalize hcsz : min buf.length 4096 = csz at h
    rcases ha : (if f.ino.iSize ≤ offset then allocBlock f.ino f.store else (some 0, f.ino,
      f.store)) with ⟨_ | i, ino₁, s₁⟩
    · simp only [ha, Prod.mk.injEq] at h
      obtain ⟨-, rfl, -⟩ := h
      exact absurd ((d.alloc_if _ ha).1 rfl) hfree
    obtain ⟨hsz₁, loc₁, d₁, hold⟩ := (d.alloc_if _ ha).2 i rfl
    generalize hn₁ : (if f.ino.iSize ≤ offset then n + 1 else n) = n₁ at d₁
    have hk₁ : k + 1 < n₁ := by split at hn₁ <;> omega
    have hlt₁ := d₁.lt
    obtain ⟨c₂, hnext, hc₂⟩ := d₁.next (hc.grow d.tree hold hk) hk₁
    have htake : (buf.take csz).length = csz := by
      rw [List.length_take]
      omega
    obtain ⟨t, hput, d₂⟩ := @Laid.put n₁ (k + 1) loc₁ { f with ino := ino₁, store := s₁ } d₁ hk₁ 0
      (buf.take csz) (by omega)
    simp only [ha, hnext, ne_eq, not_true_eq_false, if_false, hc₂.block, hput] at h
    rw [u64_of_lt (by omega)] at h
    have d₃ : Laid t { ino₁ with iSize := u32 (max ino₁.iSize (offset + csz)) } n₁ loc₁ :=
      ⟨d₂.tree, d₂.blocks, d₂.room⟩
    have hrest : buf.drop csz ≠ [] → offset + csz = 4096 * (k + 1 + 1) ∧
        (offset + csz < u32 (max ino₁.iSize (offset + csz)) → u32 (max ino₁.iSize (offset + csz)) ≤
        4096 * n₁) := by
      intro hne
      have := List.length_pos_iff.mpr hne
      rw [List.length_drop] at this
      rw [hsz₁]
      unfold u32
      split at hn₁ <;> omega
    obtain ⟨hr, n', hb', hn', hext⟩ :=
      ih (f := File.growTo ⟨ino₁, t, f.fds⟩ (offset + csz)) d₃ (Nat.mod_lt _ (by decide)) hc₂ hk₁
      (by omega) hrest (by rw [List.length_drop]; omega) h hfree
    rw [List.length_drop] at hr hext
    simp only [File.growTo, hsz₁] at hext
    refine ⟨?_, n', hb', hn', hext.chunk hlen hcsz (by omega) hs hn₁⟩
    rw [hr]
    congr 1
    omega

theorem Extended.first {size offset len n size₁ n₁ size' n' csz : Nat} (hlen : 0 < len)
    (hcsz : min len (4096 - offset % 4096) = csz) (ho : offset ≤ 2 ^ 32 - 4096) (hs : size < 2 ^ 32)
    (hp : Poised offset size n size₁ n₁)
    (h : Extended (u32 (max size₁ (offset + csz))) (offset + csz) (len - csz) n₁ size' n') :
    (size < offset + len → offset + len < 2 ^ 32 → size' = offset + len) ∧
      (2 ^ 32 ≤ offset + len → n' ≠ n ∨ size' ≠ size) := by
  have hle := h.le
  have hexact := h.exact
  have hwraps := h.wraps
  have hdone := h.done
  have hchange := hp.change
  unfold u32 at hexact hwraps hdone
  constructor
  · intro hext hend
    have := hexact (by omega) (by omega)
    omega
  · intro hend
    by_cases hlast : len = csz
    · have := hdone (by omega)
      omega
    · have := hwraps (by omega) (by omega)
      omega

/-! ## Handles -/

/-- A seek below the double indirect blocks finds a pointer whether the block is mapped or not. -/
theorem bfSeek_low {s : BlockStore} {ino : TreeInode} {n k : Nat} {loc : Pos → Nat}
    (t : Tree s ino n loc) (hk : k < 12 ∨ 12 < n ∧ k < 1036) (c : Cursor) :
    ∃ c', bfSeek ino s c k = (0, c') ∧ c'.blockIdInFile = k := by
  unfold bfSeek
  rw [iblock11_eq, iblock12_eq, indBlock_eq]
  by_cases hlow : k ≤ 11
  · rw [if_pos hlow]
    exact ⟨_, rfl, rfl⟩
  · obtain ⟨hn, hk⟩ := hk.resolve_left (by omega)
    have hroot := t.root_slot .ind 12 (by simp only [Live]; omega) rfl
    have hptr := t.ptr_eq (p := .data 12) hn (slotOf_data_ind (by omega) (by omega))
    obtain ⟨b, hb, -⟩ := Option.map_eq_some_iff.mp hptr
    rw [if_neg hlow, if_pos (by omega)]
    simp only [Cursor.hop, BlockStore.ptr, hroot, hb, Option.map_some]
    exact ⟨_, rfl, rfl⟩

/-- The handle's cursor after `updCache`. -/
def Steady (loc : Pos → Nat) (n : Nat) (c : Cursor) : Prop :=
  (c.blockIdInFile < n ∨ c.blockIdInFile < 1036) ∧
    (1036 ≤ c.blockIdInFile → SyncedAt loc c.blockIdInFile c)

theorem HandleOk.steady {s : BlockStore} {ino : TreeInode} {n : Nat} {loc : Pos → Nat}
    {c : Cursor} (hc : HandleOk loc n c) (t : Tree s ino n loc) (hn : n < 2 ^ 29) :
    ∃ c', updCache ino s c = (0, c') ∧ Steady loc n c' := by
  have hpos := hc.pos
  unfold updCache
  cases hf : c.cacheUpdateFlag with
  | false => exact ⟨c, rfl, by omega, hc.sync hf⟩
  | true =>
    simp only [ite_true]
    by_cases hk : c.blockIdInFile < n
    · obtain ⟨c', heq, hsync, -⟩ := bfSeek_spec t hk hn { c with cacheUpdateFlag := false }
      exact ⟨c', heq, Or.inl (by rw [hsync.id]; exact hk), fun _ => by rw [hsync.id]; exact hsync⟩
    · obtain ⟨c', heq, hid⟩ :=
        bfSeek_low t (hpos.resolve_left hk) { c with cacheUpdateFlag := false }
      exact ⟨c', heq, by omega, fun h => by omega⟩

theorem Steady.grow {s : BlockStore} {ino : TreeInode} {n n' : Nat} {loc loc' : Pos → Nat}
    {c : Cursor} (t : Tree s ino n loc) (hle : n ≤ n') (hold : ∀ p, Live n p → loc' p = loc p)
    (h : Steady loc n c) : Steady loc' n' c :=
  ⟨h.1.imp_left fun hlt => Nat.lt_of_lt_of_le hlt hle,
    fun hp => (h.2 hp).grow t hold (h.1.resolve_right (Nat.not_lt.mpr hp))⟩

/-! ## The extending branch -/

theorem Laid.writeExtend {f : File} {c : Cursor} {buf : List UInt8} {offset n : Nat}
    {loc : Pos → Nat} (d : Laid f.store f.ino n loc) (hs : f.ino.iSize < 2 ^ 32)
    (hc : Steady loc n c) (hne : buf ≠ []) (ho : offset ≤ 2 ^ 32 - 4096)
    (hext : f.ino.iSize < offset + buf.length) (hcov : Covers f offset) :
    ∃ r f' c', writeExtend f c buf offset = some (r, f', c') ∧ (f'.store.free ≠ [] →
      r = toInt32 buf.length ∧ f'.ino.iSize < 2 ^ 32 ∧
      (offset + buf.length < 2 ^ 32 → f'.ino.iSize = offset + buf.length) ∧
      (2 ^ 32 ≤ offset + buf.length → f'.ino.iBlocks ≠ f.ino.iBlocks ∨
        f'.ino.iSize ≠ f.ino.iSize)) := by
  have hpos : 0 < buf.length := List.length_pos_iff.mpr hne
  obtain ⟨ok, ino₁, s₁, hbefore, hfail, hdone⟩ := Laid.before ho d hs
  unfold NaiveFS.writeExtend
  rw [hbefore]
  cases ok with
  | false => exact ⟨_, _, _, rfl, fun h => absurd (hfail rfl) h⟩
  | true =>
    obtain ⟨n₁, loc₁, d₁, hold, hp⟩ := hdone rfl
    obtain ⟨hT, hrest⟩ := hcov
    rw [d.blocks, numAlignedBlocks_eq, Nat.mul_div_cancel_left n (by decide),
      ← hp.blocks_eq] at hT hrest
    rw [← hp.size_eq] at hrest
    have hle : n ≤ n₁ := by
      have := hp.change
      omega
    have hlt := d.lt
    obtain ⟨c₂, hseek, hc₂, -⟩ :=
      seek_spec (k := offset / 4096) d₁.tree d₁.lt (hc.grow d.tree hle hold).2
      (by have := hc.1; omega) hT (by omega)
    simp only [blockSize_eq, u32_of_lt (show offset / 4096 < 2 ^ 32 by omega), hseek, ne_eq,
      not_true_eq_false, ite_false, hc₂.block]
    generalize hcsz : min buf.length (4096 - offset % 4096) = csz
    have htake : (buf.take csz).length = csz := by rw [List.length_take]; omega
    obtain ⟨t, hput, d₂⟩ := @Laid.put n₁ (offset / 4096) loc₁ { f with ino := ino₁, store := s₁ } d₁
      hT (offset % 4096)
      (buf.take csz) (by omega)
    simp only [hput, u64_of_lt (show offset + csz < 2 ^ 64 by omega)]
    have d₃ : Laid t { ino₁ with iSize := u32 (max ino₁.iSize (offset + csz)) } n₁ loc₁ :=
      ⟨d₂.tree, d₂.blocks, d₂.room⟩
    rcases hloop : NaiveFS.extendLoop buf.length (File.growTo ⟨ino₁, t, f.fds⟩ (offset + csz)) c₂
      (offset + csz) csz (buf.drop csz)
      with ⟨r, f', c'⟩
    refine ⟨r, f', c', rfl, fun hfree => ?_⟩
    obtain ⟨hr, n', hb', hn', hext'⟩ :=
      @Laid.extendLoop buf.length (File.growTo ⟨ino₁, t, f.fds⟩ (offset + csz)) _ _ _ _ _ _ _ _ _ _
      d₃ (Nat.mod_lt _ (by decide)) hc₂ hT (by omega)
      (fun hne => by
        have := List.length_pos_iff.mpr hne
        rw [List.length_drop] at this
        simp only [File.growTo]
        unfold u32
        omega) (by rw [List.length_drop]; omega) hloop hfree
    rw [List.length_drop] at hr hext'
    obtain ⟨hexact, hwraps⟩ := Extended.first hpos hcsz ho hs hp hext'
    refine ⟨?_, hext'.lt, hexact hext, fun hend => ?_⟩
    · rw [hr]
      congr 1
      omega
    · rw [hb', d.blocks]
      exact (hwraps hend).imp_left fun h heq => h (Nat.eq_of_mul_eq_mul_left (by decide) heq)

/-! ## Writes in place -/

theorem overwriteLoop_le (isize : Nat) :
    ∀ (fuel : Nat) (f : File) (c : Cursor) (offset ret : Nat) (buf : List UInt8),
    (overwriteLoop isize fuel f c offset ret buf).1 ≤ (ret + buf.length : Nat) := by
  intro fuel
  induction fuel with
  | zero =>
    intro f c offset ret buf
    have hret := toInt32_le ret
    simp only [overwriteLoop]
    omega
  | succ fuel ih =>
    intro f c offset ret buf
    have hret := toInt32_le ret
    unfold overwriteLoop
    split
    · simp only
      omega
    split
    · simp only
      omega
    have herr := nextBlock_err f.ino f.store c
    simp only
    split
    · exact Int.le_trans herr (Int.natCast_nonneg _)
    split
    · exact Int.le_trans neg_einval_le (Int.natCast_nonneg _)
    · refine Int.le_trans (ih _ _ _ _ _) (Int.ofNat_le.mpr ?_)
      rw [List.length_drop]
      omega

theorem writeInPlace_le (f : File) (c : Cursor) (buf : List UInt8) (offset : Nat) :
    (writeInPlace f c buf offset).1 ≤ buf.length := by
  have herr := seek_err f.ino f.store c (u32 (offset / blockSize))
  unfold writeInPlace
  simp only
  split
  · exact Int.le_trans herr (Int.natCast_nonneg _)
  split
  · exact Int.le_trans neg_einval_le (Int.natCast_nonneg _)
  · refine Int.le_trans (overwriteLoop_le _ _ _ _ _ _ _) (Int.ofNat_le.mpr ?_)
    rw [List.length_drop]
    omega

/-- Where the end wraps, the loop comes to the end of the file first. -/
theorem overwriteLoop_short {isize : Nat} (hs : isize < 2 ^ 32) :
    ∀ (fuel : Nat) (f : File) (c : Cursor) (offset ret : Nat)
    (buf : List UInt8), offset < 2 ^ 64 → 2 ^ 64 ≤ offset + buf.length →
    (overwriteLoop isize fuel f c offset ret buf).1 < (ret + buf.length : Nat) := by
  intro fuel
  induction fuel with
  | zero =>
    intro f c offset ret buf ho hend
    have hret := toInt32_le ret
    simp only [overwriteLoop]
    omega
  | succ fuel ih =>
    intro f c offset ret buf ho hend
    have hret := toInt32_le ret
    unfold overwriteLoop
    rw [if_neg (by omega)]
    split
    · simp only
      omega
    have herr := nextBlock_err f.ino f.store c
    have hcode := neg_einval_le
    simp only
    split
    · omega
    split
    · omega
    · rw [blockSize_eq, u64_of_lt (by omega)]
      refine Int.lt_of_lt_of_le (ih _ _ _ _ _ (by omega) (by rw [List.length_drop]; omega))
        (Int.ofNat_le.mpr ?_)
      rw [List.length_drop]
      omega

theorem writeInPlace_short {f : File} (hs : f.ino.iSize < 2 ^ 32) (c : Cursor) {buf : List UInt8}
    {offset : Nat} (ho : offset < 2 ^ 64 - 4096) (hend : 2 ^ 64 ≤ offset + buf.length) :
    (writeInPlace f c buf offset).1 < buf.length := by
  have herr := seek_err f.ino f.store c (u32 (offset / blockSize))
  have hcode := neg_einval_le
  unfold writeInPlace
  simp only
  split
  · omega
  split
  · omega
  · rename_i g hput
    have hino := putBytes_ino hput
    rw [blockSize_eq, u64_of_lt (by omega)]
    refine Int.lt_of_lt_of_le (overwriteLoop_short (by rw [hino]; exact hs) _ _ _ _ _ _ (by omega)
      (by rw [List.length_drop]; omega))
      (Int.ofNat_le.mpr ?_)
    rw [List.length_drop]
    omega

/-! ## Whole writes -/

section
variable {f : File} {h n o offset : Nat} {loc : Pos → Nat} {c : Cursor} {buf : List UInt8}
  {append : Bool}

theorem write_extends (hupd : updCache f.ino f.store (f.cursor h) = (0, c))
    (hext : f.ino.iSize < u64 (f.start offset append + buf.length)) :
    write f h buf offset append =
      (writeExtend f c buf (f.start offset append)).map fun x =>
      (x.1, x.2.1.setCursor h x.2.2) := by
  unfold write
  simp only [hupd, ne_eq, not_true_eq_false, ite_false]
  rw [show (if append = true then f.ino.iSize else offset) = f.start offset append from rfl,
    if_pos hext]
  cases NaiveFS.writeExtend f c buf (f.start offset append) <;> rfl

theorem write_inPlace (hupd : updCache f.ino f.store (f.cursor h) = (0, c))
    (hin : u64 (f.start offset append + buf.length) ≤ f.ino.iSize) :
    ∃ r f', write f h buf offset append = some (r, f') ∧
      r = (writeInPlace f c buf (f.start offset append)).1 ∧ f'.ino = f.ino := by
  refine ⟨_, (writeInPlace f c buf (f.start offset append)).2.1.setCursor h
    (writeInPlace f c buf (f.start offset append)).2.2, ?_, rfl,
    writeInPlace_ino f c buf (f.start offset append)⟩
  unfold write
  simp only [hupd, ne_eq, not_true_eq_false, ite_false]
  rw [show (if append = true then f.ino.iSize else offset) = f.start offset append from rfl,
    if_neg (Nat.not_lt.mpr hin)]

/-- A write in place changes neither size nor blocks, and one whose end wraps falls short. -/
theorem faithful_inPlace (hs : f.ino.iSize < 2 ^ 32)
    (hupd : updCache f.ino f.store (f.cursor h) = (0, c))
    (hin : u64 (f.start offset append + buf.length) ≤ f.ino.iSize)
    (hend : f.start offset append + buf.length < 2 ^ 64 ∨ f.start offset append < 2 ^ 64 - 4096) :
    Faithful f h buf offset append := by
  obtain ⟨r, f', hw, hr, hino⟩ := write_inPlace hupd hin
  have hle := writeInPlace_le f c buf (f.start offset append)
  by_cases hlt : r < buf.length
  · exact Or.inl ⟨r, f', hw, hlt, by rw [hino], by rw [hino]⟩
  · have hfit : f.start offset append + buf.length < 2 ^ 64 := by
      refine hend.elim id fun ho => Nat.not_le.mp fun hwrap => ?_
      have := writeInPlace_short hs c ho hwrap
      omega
    rw [u64_of_lt hfit] at hin
    have hall : r = buf.length := by omega
    exact Or.inr ⟨f', hall ▸ hw, by rw [hino, Nat.max_eq_left hin]⟩

section
variable (d : Laid f.store f.ino n loc) (hs : f.ino.iSize < 2 ^ 32) (hne : buf ≠ [])
  (hupd : updCache f.ino f.store (f.cursor h) = (0, c)) (hext : f.ino.iSize <
    u64 (f.start offset append + buf.length))
  (hspace : ∀ r f', write f h buf offset append = some (r, f') → f'.store.free ≠ [])
include d hupd hext hspace

theorem Laid.write_none (ho : 2 ^ 32 - 4096 < f.start offset append) :
    write f h buf offset append = none := by
  rw [write_extends hupd hext] at hspace ⊢
  rcases fillGap_endless ho gapFuel d with hnone | ⟨ino', s', hfull, hfree⟩
  · unfold NaiveFS.writeExtend allocBefore
    rw [hnone]
    rfl
  · unfold NaiveFS.writeExtend allocBefore at hspace
    rw [hfull] at hspace
    exact absurd hfree (hspace _ _ rfl)

include hs hne

theorem Laid.faithful_extending (hc : Steady loc n c) (ho : f.start offset append ≤ 2 ^ 32 - 4096)
    (hcov : Covers f (f.start offset append)) :
    Faithful f h buf offset append ↔ f.start offset append + buf.length < 2 ^ 32 ∧
      buf.length < 2 ^ 31 := by
  have hlt : f.ino.iSize < f.start offset append + buf.length :=
    Nat.lt_of_lt_of_le hext (Nat.mod_le _ _)
  obtain ⟨r, f', c', hw, hspec⟩ := d.writeExtend hs hc hne ho hlt hcov
  have hwrite := write_extends hupd hext
  rw [hw, Option.map_some] at hwrite
  have hfree := hspace _ _ hwrite
  obtain ⟨hr, hsz, hexact, hwraps⟩ := hspec hfree
  unfold Faithful Declines
  rw [hwrite]
  simp only [Option.some.injEq, Prod.mk.injEq]
  constructor
  · rintro (⟨r₁, f₁, ⟨rfl, rfl⟩, -, hsize, hblocks⟩ | ⟨f₁, ⟨hlen, rfl⟩, hsize⟩)
    · by_cases hend : f.start offset append + buf.length < 2 ^ 32
      · have := (hexact hend).symm.trans hsize
        omega
      · exact absurd hsize ((hwraps (Nat.not_lt.mp hend)).resolve_left fun hb => hb hblocks)
    · have hbound := toInt32_lt buf.length
      simp only [File.setCursor] at hsize
      omega
  · rintro ⟨hend, hlen⟩
    right
    refine ⟨_, ⟨by rw [hr, toInt32_of_lt hlen], rfl⟩, ?_⟩
    rw [Nat.max_eq_right (Nat.le_of_lt hlt)]
    exact hexact hend

end

end

theorem Laid.create (mode : Nat) {s : BlockStore} (h : s.free.length < 2 ^ 29) :
    Laid (File.create mode s).store (File.create mode s).ino 0 fun _ => 0 :=
  ⟨Tree.empty _ _ _, rfl, by rw [Nat.zero_add]; exact h⟩

theorem HandleOk.init (loc : Pos → Nat) (n : Nat) : HandleOk loc n .init :=
  ⟨Or.inr (Or.inl (by decide)), fun h => by cases h⟩

/-- One block and 4097 bytes, as a byte written at 4096 to an empty file leaves them. -/
def File.stretched (s : BlockStore) : File :=
  ⟨{ (allocBlock (Inode.init 0) s).2.1 with iSize := 4097 }, (allocBlock (Inode.init 0) s).2.2, []⟩

theorem Laid.stretched {s : BlockStore} (h : s.free.length < 2 ^ 29) {i : Nat}
    (hi : (allocBlock (Inode.init 0) s).1 = some i) :
    ∃ loc, Laid (File.stretched s).store (File.stretched s).ino 1 loc := by
  have ha : allocBlock (Inode.init 0) s =
      (some i, (allocBlock (Inode.init 0) s).2.1, (allocBlock (Inode.init 0) s).2.2) :=
      Prod.ext hi rfl
  obtain ⟨-, loc, d, -⟩ := (Laid.create 0 h).alloc ha 4097
  exact ⟨loc, d⟩

theorem fillGap_spends {offset : Nat} :
    ∀ (fuel : Nat) {ino ino' : TreeInode} {s s' : BlockStore} {ok : Bool},
    fillGap offset fuel ino s = some (ok, ino', s') →
      s.free.length ≤ s'.free.length + 4 * fuel := by
  intro fuel
  induction fuel with
  | zero =>
    intro ino ino' s s' ok h
    cases h
  | succ fuel ih =>
    intro ino ino' s s' ok h
    unfold fillGap at h
    split at h
    · rcases ha : allocBlock ino s with ⟨_ | i, ino₁, s₁⟩ <;> have hspent :=
        allocBlock_spends ha <;> rw [ha] at h
      · cases h
        omega
      · have := ih h
        omega
    · cases h
      omega

end NaiveFS
