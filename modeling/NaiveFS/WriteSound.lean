import NaiveFS.FileView

/-!
# What a write does

`FileStatus::write` against the flat contents: the gap-filling loop, the block
that starts at an aligned size and the chunks of the two write loops, each as a
step on the file's view, its size and its number of blocks.
-/

namespace NaiveFS

open PointerTree BlockLayer FlatBytes

/-- Blocks that a file of `size` bytes needs. -/
def ceilBlocks (size : Nat) : Nat := (size + 4095) / 4096

/-- Everything a stretch of a write has done to the file when it did not run
out of blocks. -/
structure Wrote (s : BlockStore) (loc : Pos →
  Nat) (n : Nat) (o : Nat) (buf : List UInt8) (s' : BlockStore)
    (ino' : TreeInode) (loc' : Pos → Nat) (n' : Nat) : Prop where
  data : DataOk s' ino' n' loc'
  view : view s' loc' n' = patch (view s loc n) o buf
  evolves : Evolves s loc n s' loc' n'

theorem Wrote.none {s : BlockStore} {ino : TreeInode} {n : Nat} {loc : Pos → Nat}
    (d : DataOk s ino n loc) (o : Nat) :
    Wrote s loc n o [] s ino loc n :=
  ⟨d, (patch_nil _ _).symm, .refl s loc n⟩

theorem Wrote.trans {s s' s'' : BlockStore} {ino' ino'' : TreeInode} {loc loc' loc'' : Pos → Nat}
    {n n' n'' o c : Nat} {buf : List UInt8} (hc : c ≤ buf.length)
    (h : Wrote s loc n o (buf.take c) s' ino' loc' n')
    (h' : Wrote s' loc' n' (o + c) (buf.drop c) s'' ino'' loc'' n'') :
    Wrote s loc n o buf s'' ino'' loc'' n'' :=
  ⟨h'.data, by rw [h'.view, h.view, patch_split _ _ hc], h.evolves.trans h.data.tree h'.evolves⟩

/-! ## Blocks before the first chunk -/

/-- The end of the block of `size`, or of the next one when `size` is aligned. -/
def nextBound (size : Nat) : Nat := size - size % 4096 + 4096

/-- What `fillGap` comes to on a file of `size` bytes and `n` blocks. -/
def GapFilled (offset size n size' n' : Nat) : Prop :=
  (offset ≤ nextBound size ∧ size' = size ∧ n' = n) ∨
  (nextBound size < offset ∧ size' % 4096 = 0 ∧ nextBound size ≤ size' ∧ size' < offset ∧
    offset ≤ size' + 4096 ∧ 4096 * n' + (size - size % 4096) = 4096 * n + size')

theorem gap_test {size : Nat} (h : size < 2 ^ 32 - 4096) :
    sub32 (u32 (size + 4096)) (size % 4096) = nextBound size := by
  unfold nextBound u32 sub32
  omega

theorem fillGap_spec {offset : Nat} (ho : offset < 2 ^ 32 - 4096) :
    ∀ fuel {s : BlockStore} {ino : TreeInode} {n : Nat}
    {loc : Pos → Nat}, DataOk s ino n loc → ino.iSize < 2 ^ 32 - 4096 →
    n ≤ ino.iSize / 4096 + 2 ^ 22 → offset + ino.iSize % 4096 ≤ ino.iSize + 4096 * fuel → 0 < fuel →
    ∃ ok ino' s', fillGap offset fuel ino s = some (ok, ino', s') ∧ (ok = false → s'.free = []) ∧
      (ok = true → ∃ loc' n', Wrote s loc n 0 [] s' ino' loc' n' ∧
        GapFilled offset ino.iSize n ino'.iSize n') := by
  intro fuel
  induction fuel with
  | zero => intro s ino n loc _ _ _ _ h; cases h
  | succ fuel ih =>
    intro s ino n loc d hs hx hfuel _
    unfold fillGap
    rw [blockSize_eq, gap_test hs]
    by_cases hgap : nextBound ino.iSize < offset
    · rw [if_pos hgap]
      have hn : n + 1 < 2 ^ 29 := by omega
      rcases ha : allocBlock ino s with ⟨_ | i, ino₁, s₁⟩
      · exact ⟨false, ino₁, s₁, rfl, fun _ => (allocBlock_spec d.tree d.blocks hn ha).2.1
          rfl, by simp⟩
      · obtain ⟨loc₁, d₁, hv, hev, hsz⟩ := d.alloc hn ha
        have hnew : u32 (ino₁.iSize + (4096 - ino₁.iSize % 4096)) = nextBound ino.iSize := by
          rw [hsz]; unfold u32 nextBound; omega
        have hle := d.size
        have d₂ := d₁.resize (m := nextBound ino.iSize) (by rw [hsz]; unfold nextBound; omega)
          (by unfold nextBound; omega)
        simp only [hnew]
        obtain ⟨ok, ino', s', hrec, hfail, hdone⟩ := ih d₂ (by simp only; omega)
          (by simp only [nextBound] at hx ⊢; omega) (by simp only [nextBound] at hfuel ⊢; omega)
          (by unfold nextBound at hgap; omega)
        refine ⟨ok, ino', s', hrec, hfail, fun hok => ?_⟩
        obtain ⟨loc', n', hw, hg⟩ := hdone hok
        refine ⟨loc', n', ⟨hw.data, ?_, hev.trans d₁.tree hw.evolves⟩, ?_⟩
        · rw [hw.view, hv]
        · unfold GapFilled nextBound at hg ⊢
          unfold nextBound at hgap
          simp only at hg
          omega
    · rw [if_neg hgap]
      refine ⟨true, ino, s, rfl, by simp, fun _ => ⟨loc, n, .none d 0, Or.inl ⟨by omega, rfl, rfl⟩⟩⟩

theorem alloc_if_spec {s : BlockStore} {ino : TreeInode} {n : Nat} {loc : Pos → Nat}
    (d : DataOk s ino n loc) (hn : n + 1 < 2 ^ 29) (cond : Prop) [Decidable cond] {o : Option Nat}
    {ino' : TreeInode} {s' : BlockStore}
    (h : (if cond then allocBlock ino s else (some 0, ino, s)) = (o, ino', s')) :
    (o = none → s'.free = []) ∧ ∀ i, o = some i →
      ∃ loc', Wrote s loc n 0 [] s' ino' loc' (if cond then n + 1 else n) ∧
      ino'.iSize = ino.iSize := by
  by_cases hc : cond
  · rw [if_pos hc] at h
    refine ⟨(allocBlock_spec d.tree d.blocks hn h).2.1, fun i hi => ?_⟩
    subst hi
    obtain ⟨loc', d', hv, hev, hsz⟩ := d.alloc hn h
    rw [if_pos hc]
    exact ⟨loc', ⟨d', by rw [hv, patch_nil], hev⟩, hsz⟩
  · rw [if_neg hc] at h
    cases h
    rw [if_neg hc]
    exact ⟨by simp, fun _ _ => ⟨loc, .none d 0, rfl⟩⟩

theorem allocAligned_spec {s : BlockStore} {ino : TreeInode} {n : Nat} {loc : Pos → Nat}
    (d : DataOk s ino n loc) (hn : n + 1 < 2 ^ 29) {ok : Bool} {ino' : TreeInode}
    {s' : BlockStore} (h : allocAligned ino s = (ok, ino', s')) :
    (ok = false → s'.free = []) ∧ (ok = true → ∃ loc',
      Wrote s loc n 0 [] s' ino' loc' (if ino.iSize % 4096 = 0 then n + 1 else n) ∧
      ino'.iSize = ino.iSize) := by
  unfold allocAligned at h
  rw [blockSize_eq] at h
  rcases ha : (if ino.iSize % 4096 = 0 then allocBlock ino s else (some 0, ino, s)) with ⟨o,
    ino₁, s₁⟩
  obtain ⟨hfail, hdone⟩ := alloc_if_spec d hn _ ha
  by_cases hc : ino.iSize % 4096 = 0
  · rw [if_pos hc] at h ha
    cases o with
    | none =>
      simp only [ha, Prod.mk.injEq] at h
      obtain ⟨rfl, rfl, rfl⟩ := h
      exact ⟨fun _ => hfail rfl, by simp⟩
    | some i =>
      simp only [ha, Prod.mk.injEq] at h
      obtain ⟨rfl, rfl, rfl⟩ := h
      exact ⟨by simp, fun _ => hdone i rfl⟩
  · rw [if_neg hc] at h ha
    cases h
    cases ha
    exact ⟨by simp, fun _ => hdone 0 rfl⟩

/-- The blocks before the first chunk: from `n` to `n'`, the size set to `size'`. -/
def Prepared (offset size n size' n' : Nat) : Prop :=
  ∃ n₁, GapFilled offset size n size' n₁ ∧ n' = if size' % 4096 = 0 then n₁ + 1 else n₁

theorem allocBefore_spec {offset : Nat} (ho : offset < 2 ^ 32 - 4096) {s : BlockStore}
    {ino : TreeInode} {n : Nat} {loc : Pos → Nat} (d : DataOk s ino n loc)
    (hs : ino.iSize < 2 ^ 32 - 4096) (hx : n ≤ ino.iSize / 4096 + 2 ^ 22) :
    ∃ ok ino' s', allocBefore offset ino s = some (ok, ino', s') ∧ (ok = false → s'.free = []) ∧
      (ok = true → ∃ loc' n', Wrote s loc n 0 [] s' ino' loc' n' ∧
        Prepared offset ino.iSize n ino'.iSize n') := by
  obtain ⟨ok, ino₁, s₁, hgap, hfail, hdone⟩ :=
    fillGap_spec ho gapFuel d hs hx (by unfold gapFuel; omega)
    (by unfold gapFuel; omega)
  unfold allocBefore
  rw [hgap]
  cases ok with
  | false => exact ⟨false, ino₁, s₁, rfl, hfail, by simp⟩
  | true =>
    obtain ⟨loc₁, n₁, w₁, hg⟩ := hdone rfl
    have hn₁ : n₁ + 1 < 2 ^ 29 := by unfold GapFilled nextBound at hg; omega
    rcases ha : allocAligned ino₁ s₁ with ⟨ok₂, ino₂, s₂⟩
    obtain ⟨hfail₂, hdone₂⟩ := allocAligned_spec w₁.data hn₁ ha
    refine ⟨ok₂, ino₂, s₂, by simp only [ha], hfail₂, fun hok => ?_⟩
    obtain ⟨loc₂, w₂, hsz⟩ := hdone₂ hok
    refine ⟨loc₂, _, ⟨w₂.data, ?_, w₁.evolves.trans w₁.data.tree w₂.evolves⟩, n₁,
      hsz ▸ hg, by rw [hsz]⟩
    rw [w₂.view, w₁.view, patch_nil]

/-! ## Chunks -/

theorem putChunk_spec (f : File) {n k : Nat} {loc : Pos → Nat} (off : Nat) (buf : List UInt8)
    (d : DataOk f.store f.ino n loc) (hn : n < 2 ^ 29) (hk : k < n) (h : off + buf.length ≤ 4096) :
    ∃ s', f.putBytes (loc (.data k)) off buf = some { f with store := s' } ∧
      s'.free = f.store.free ∧ Wrote f.store loc n (4096 * k + off) buf s'
        { f.ino with iSize := max f.ino.iSize (4096 * k + off + buf.length) } loc n := by
  obtain ⟨s', hput, hfree, ht, hv, hev⟩ := File.putBytes_spec d.tree hn hk h
  refine ⟨s', hput, hfree, ⟨ht, d.blocks, ?_, fun i hi => ?_⟩, hv, hev⟩
  · have := d.size
    simp only
    omega
  · simp only at hi
    rw [hv, patch_out _ (by omega)]
    exact d.tail i (by omega)

theorem File.growTo_eq (f : File) {o : Nat} (h : max f.ino.iSize o < 2 ^ 32) :
    f.growTo o = { f with ino := { f.ino with iSize := max f.ino.iSize o } } := by
  unfold growTo
  rw [u32_of_lt h]

theorem extendLoop_spec :
    ∀ fuel {f : File} {c : Cursor} {offset ret : Nat} {buf : List UInt8} {n k : Nat}
    {loc : Pos → Nat}, DataOk f.store f.ino n loc → SyncedAt loc k c → k < n →
    (buf ≠ [] → offset = 4096 * (k + 1)) →
    offset ≤ f.ino.iSize → f.ino.iSize ≤ 2 ^ 32 - 4096 → offset + buf.length ≤ 2 ^ 32 - 4096 →
    buf.length ≤ fuel →
    n ≤ ceilBlocks f.ino.iSize + 2 ^ 22 → ∀ {r f' c'}, extendLoop fuel f c offset ret buf =
      (r, f', c') →
    f'.store.free ≠ [] → r = toInt32 (ret + buf.length) ∧
      f'.ino.iSize = max f.ino.iSize (offset + buf.length) ∧ f'.fds = f.updAll.fds ∧
        ∃ loc' n' k', Wrote f.store loc n offset buf f'.store f'.ino loc' n' ∧
        SyncedAt loc' k' c' ∧ k' < n' ∧ n' + ceilBlocks f.ino.iSize =
        n + ceilBlocks f'.ino.iSize := by
  intro fuel
  induction fuel with
  | zero =>
    intro f c offset ret buf n k loc d hc hk _ hle _ _ hfuel _ r f' c' h _
    have hbuf : buf = [] := List.eq_nil_of_length_eq_zero (Nat.le_zero.mp hfuel)
    subst hbuf
    simp only [extendLoop, Prod.mk.injEq] at h
    obtain ⟨rfl, rfl, rfl⟩ := h
    exact ⟨rfl, (Nat.max_eq_left hle).symm, rfl, loc, n, k, .none d _, hc.of_flag true, hk, rfl⟩
  | succ fuel ih =>
    intro f c offset ret buf n k loc d hc hk hoff hle hsz hend hfuel hx r f' c' h hfree
    unfold extendLoop at h
    by_cases hbuf : buf = []
    · subst hbuf
      simp only [List.length_nil, ite_true, Prod.mk.injEq] at h
      obtain ⟨rfl, rfl, rfl⟩ := h
      exact ⟨rfl, (Nat.max_eq_left hle).symm, rfl, loc, n, k, .none d _, hc.of_flag true, hk, rfl⟩
    have hlen : 0 < buf.length := List.length_pos_iff.mpr hbuf
    have ho := hoff hbuf
    rw [if_neg (by omega), blockSize_eq] at h
    have hn : n + 1 < 2 ^ 29 := by unfold ceilBlocks at hx; omega
    rcases ha : (if f.ino.iSize ≤ offset then allocBlock f.ino f.store else (some 0, f.ino,
      f.store)) with ⟨_ | i, ino₁, s₁⟩
    · simp only [ha, Prod.mk.injEq] at h
      obtain ⟨rfl, rfl, rfl⟩ := h
      exact absurd ((alloc_if_spec d hn _ ha).1 rfl) hfree
    obtain ⟨loc₁, w₁, hsz₁⟩ := (alloc_if_spec d hn _ ha).2 i rfl
    generalize hn₁ : (if f.ino.iSize ≤ offset then n + 1 else n) = n₁ at w₁
    have hk₁ : k + 1 < n₁ := by
      have := d.size
      split at hn₁ <;> omega
    have hn₁' : n₁ < 2 ^ 29 := by split at hn₁ <;> omega
    simp only [ha] at h
    have hc₁ := hc.grow d.tree w₁.evolves.old hk
    obtain ⟨c₂, hnext, hc₂, -⟩ := nextBlock_spec w₁.data.tree hc₁ hk₁ (by omega)
    simp only [hnext, ne_eq, not_true_eq_false, ite_false, hc₂.block] at h
    generalize hcsz : min buf.length 4096 = csz at h
    have htake : (buf.take csz).length = csz := by rw [List.length_take]; omega
    obtain ⟨s₂, hput, hfree₂, w₂⟩ :=
      putChunk_spec { f with ino := ino₁, store := s₁ } 0 (buf.take csz) w₁.data hn₁' hk₁
      (by omega)
    simp only [htake, Nat.add_zero, ← ho, hsz₁] at w₂
    simp only [hput, u64_of_lt (show offset + csz < 2 ^ 64 by omega)] at h
    rw [File.growTo_eq _ (by simp only [hsz₁]; omega)] at h
    simp only [hsz₁] at h
    have hceil : n₁ + ceilBlocks f.ino.iSize = n + ceilBlocks (max f.ino.iSize (offset + csz)) := by
      have := d.size
      unfold ceilBlocks
      split at hn₁ <;> omega
    obtain ⟨hr, hsz', hfds, loc', n', k', w₃, hc', hk', hcnt⟩ := ih w₂.data hc₂ hk₁
      (fun hne => by
        have := List.length_pos_iff.mpr hne
        rw [List.length_drop] at this
        omega)
      (Nat.le_max_right _ _) (by simp only; omega) (by rw [List.length_drop]; omega)
        (by rw [List.length_drop]; omega)
      (by simp only; omega) h hfree
    rw [List.length_drop] at hr hsz'
    simp only at hsz' hcnt
    refine ⟨?_, by omega, hfds, loc', n', k', ?_, hc', hk', by omega⟩
    · rw [hr]
      congr 1
      omega
    · have w₁₂ : Wrote f.store loc n offset (buf.take csz) s₂ _ loc₁ n₁ :=
        ⟨w₂.data, by rw [w₂.view, w₁.view, patch_nil], w₁.evolves.trans w₁.data.tree w₂.evolves⟩
      exact w₁₂.trans (by omega) w₃

/-! ## The two branches of a write -/

/-- When the extending branch maps the first block of a write behind the end of
a file of `size` bytes and `n` blocks. -/
def SparseFits (size n offset : Nat) : Prop :=
  offset % 4096 ≠ 0 ∨ ceilBlocks size < n ∨ (size % 4096 ≠ 0 ∧ nextBound size < offset)

theorem Prepared.first_lt {offset size n size' n' : Nat} (h : Prepared offset size n size' n')
    (hs : size ≤ 4096 * n) (hfit : offset ≤ size ∨ SparseFits size n offset) :
    offset / 4096 < n' := by
  obtain ⟨n₁, hg, rfl⟩ := h
  unfold GapFilled nextBound at hg
  unfold SparseFits ceilBlocks nextBound at hfit
  split <;> omega

/-- The handle's cursor after `updCache`. Up to `IBLOCK_12` a seek uses nothing
the cursor holds. -/
def Ready (loc : Pos → Nat) (n : Nat) (c : Cursor) : Prop :=
  (c.blockIdInFile < n ∨ c.blockIdInFile = 0) ∧
    (1036 ≤ c.blockIdInFile → SyncedAt loc c.blockIdInFile c)

theorem Ready.grow {s : BlockStore} {ino : TreeInode} {n n' : Nat} {loc loc' : Pos → Nat}
    {c : Cursor} (t : Tree s ino n loc) (hle : n ≤ n') (hold : ∀ p, Live n p → loc' p = loc p)
    (h : Ready loc n c) : Ready loc' n' c := by
  refine ⟨h.1.imp_left fun hlt => Nat.lt_of_lt_of_le hlt hle, fun hp => ?_⟩
  have hlt : c.blockIdInFile < n := h.1.resolve_right (by omega)
  exact (h.2 hp).grow t hold hlt

theorem CursorOk.ready {s : BlockStore} {ino : TreeInode} {n : Nat} {loc : Pos → Nat} {c : Cursor}
    (hc : CursorOk loc n c) (t : Tree s ino n loc) (hn : n < 2 ^ 29) :
    ∃ c', updCache ino s c = (0, c') ∧ Ready loc n c' ∧ CursorOk loc n c' := by
  obtain ⟨c', hupd, hpos, -, hsync⟩ := updCache_spec t hn hc
  refine ⟨c', hupd, ?_, ?_⟩
  · unfold Ready
    rw [hpos]
    exact ⟨hc.pos, fun hp => hsync (hc.pos.resolve_right (by omega))⟩
  · refine ⟨hpos ▸ hc.pos, fun _ => ?_⟩
    rw [hpos]
    exact hsync

theorem writeExtend_spec {f : File} {c : Cursor} {buf : List UInt8} {offset n : Nat}
    {loc : Pos → Nat} (d : DataOk f.store f.ino n loc) (hx : n ≤ 2 * ceilBlocks f.ino.iSize)
    (hc : Ready loc n c) (hne : buf ≠ []) (hend : offset + buf.length ≤ 2 ^ 32 - 4096)
    (hext : f.ino.iSize < offset + buf.length)
    (hfit : offset ≤ f.ino.iSize ∨ SparseFits f.ino.iSize n offset) :
    ∃ r f' c', writeExtend f c buf offset = some (r, f', c') ∧ (f'.store.free ≠ [] →
      r = toInt32 buf.length ∧ f'.ino.iSize = offset + buf.length ∧ f'.fds = f.updAll.fds ∧
      ∃ loc' n' k', Wrote f.store loc n offset buf f'.store f'.ino loc' n' ∧ SyncedAt loc' k' c' ∧
        k' < n' ∧ n' ≤ 2 * ceilBlocks f'.ino.iSize) := by
  have hlen : 0 < buf.length := List.length_pos_iff.mpr hne
  obtain ⟨ok, ino₁, s₁, hbefore, hfail, hdone⟩ :=
    allocBefore_spec (show offset < 2 ^ 32 - 4096 by omega) d (by omega)
    (by unfold ceilBlocks at hx; omega)
  unfold writeExtend
  rw [hbefore]
  cases ok with
  | false => exact ⟨_, _, _, rfl, fun h => absurd (hfail rfl) h⟩
  | true =>
    obtain ⟨loc₁, n₁, w₁, hprep⟩ := hdone rfl
    have hT := hprep.first_lt d.size hfit
    have hn₁ : n₁ < 2 ^ 29 := by
      obtain ⟨m, hg, rfl⟩ := hprep
      unfold GapFilled nextBound at hg
      unfold ceilBlocks at hx
      split <;> omega
    obtain ⟨c₂, hseek, hc₂, -⟩ := seek_spec (k := offset / 4096) w₁.data.tree hn₁
      (hc.grow d.tree w₁.evolves.le w₁.evolves.old).2
      (by have := hc.1; unfold ceilBlocks at hx; omega) hT (by omega)
    simp only [blockSize_eq, u32_of_lt (show offset / 4096 < 2 ^ 32 by omega), hseek, ne_eq,
      not_true_eq_false, ite_false, hc₂.block]
    generalize hcsz : min buf.length (4096 - offset % 4096) = csz
    have htake : (buf.take csz).length = csz := by rw [List.length_take]; omega
    obtain ⟨s₂, hput, hfree₂, w₂⟩ :=
      putChunk_spec { f with ino := ino₁, store := s₁ } (offset % 4096) (buf.take csz)
      w₁.data hn₁ hT (by omega)
    have hoff : 4096 * (offset / 4096) + offset % 4096 = offset := Nat.div_add_mod offset 4096
    simp only [htake, hoff] at w₂
    simp only [hput, u64_of_lt (show offset + csz < 2 ^ 64 by omega)]
    have hs₁ : ino₁.iSize < 2 ^ 32 - 4096 := by
      obtain ⟨m, hg, -⟩ := hprep
      unfold GapFilled at hg
      omega
    rw [File.growTo_eq _ (by simp only; omega)]
    rcases hloop : extendLoop buf.length _ c₂ (offset + csz) csz (buf.drop csz) with ⟨r, f', c'⟩
    refine ⟨r, f', c', rfl, fun hfree => ?_⟩
    obtain ⟨hr, hsz', hfds, loc', n', k', w₃, hc', hk', hcnt⟩ := extendLoop_spec _ w₂.data hc₂ hT
      (fun h => by
        have := List.length_pos_iff.mpr h
        rw [List.length_drop] at this
        omega)
      (Nat.le_max_right _ _) (by simp only; omega) (by rw [List.length_drop]; omega)
        (by rw [List.length_drop]; omega)
      (by
        obtain ⟨m, hg, rfl⟩ := hprep
        unfold GapFilled nextBound at hg
        unfold ceilBlocks at hx ⊢
        simp only
        split <;> omega)
      hloop hfree
    rw [List.length_drop] at hr hsz'
    simp only at hsz' hcnt
    have hend' : f'.ino.iSize = offset + buf.length := by
      obtain ⟨m, hg, -⟩ := hprep
      unfold GapFilled at hg
      omega
    refine ⟨?_, hend', hfds, loc', n', k', ?_, hc', hk', ?_⟩
    · rw [hr]
      congr 1
      omega
    · have w₁₂ : Wrote f.store loc n offset (buf.take csz) s₂ _ loc₁ n₁ :=
        ⟨w₂.data, by rw [w₂.view, w₁.view, patch_nil], w₁.evolves.trans w₁.data.tree w₂.evolves⟩
      exact w₁₂.trans (by omega) w₃
    · obtain ⟨m, hg, rfl⟩ := hprep
      rw [hend'] at hcnt ⊢
      unfold GapFilled nextBound at hg
      unfold ceilBlocks at hx hcnt ⊢
      have := d.size
      split at hcnt <;> omega

theorem overwriteLoop_spec {n : Nat} {loc : Pos → Nat} (hn : n < 2 ^ 29) :
    ∀ fuel (f : File) (offset ret : Nat)
    (buf : List UInt8) {c : Cursor} {k : Nat}, DataOk f.store f.ino n loc → SyncedAt loc k c →
    k < n → (buf ≠ [] → offset = 4096 * (k + 1)) → offset + buf.length ≤ f.ino.iSize →
    f.ino.iSize ≤ 2 ^ 32 - 4096 →
    buf.length ≤ fuel → ∃ s' c' k', overwriteLoop f.ino.iSize fuel f c offset ret buf =
        (toInt32 (ret + buf.length), { f with store := s' }, c') ∧ s'.free = f.store.free ∧
      Wrote f.store loc n offset buf s' f.ino loc n ∧ SyncedAt loc k' c' ∧ k' < n := by
  intro fuel
  induction fuel with
  | zero =>
    intro f offset ret buf c k d hc hk _ _ _ hfuel
    have hbuf : buf = [] := List.eq_nil_of_length_eq_zero (Nat.le_zero.mp hfuel)
    subst hbuf
    exact ⟨f.store, c, k, rfl, rfl, .none d _, hc, hk⟩
  | succ fuel ih =>
    intro f offset ret buf c k d hc hk hoff hend hsz hfuel
    by_cases hbuf : buf = []
    · subst hbuf
      exact ⟨f.store, c, k, rfl, rfl, .none d _, hc, hk⟩
    have hlen : 0 < buf.length := List.length_pos_iff.mpr hbuf
    have ho := hoff hbuf
    have hk₁ : k + 1 < n := by have := d.size; omega
    unfold overwriteLoop
    rw [if_neg (by omega), if_neg (by omega), blockSize_eq]
    obtain ⟨c₂, hnext, hc₂, -⟩ := nextBlock_spec d.tree hc hk₁ (by omega)
    simp only [hnext, ne_eq, not_true_eq_false, ite_false, hc₂.block]
    generalize hcsz : min buf.length 4096 = csz
    have htake : (buf.take csz).length = csz := by rw [List.length_take]; omega
    obtain ⟨s₂, hput, hfree₂, w₂⟩ := putChunk_spec f 0 (buf.take csz) d hn hk₁ (by omega)
    simp only [htake, Nat.add_zero, ← ho,
      Nat.max_eq_left (show offset + csz ≤ f.ino.iSize by omega)] at w₂
    simp only [hput, u64_of_lt (show offset + csz < 2 ^ 64 by omega)]
    obtain ⟨s', c', k', hrec, hfree', w₃, hc', hk'⟩ := ih { f with store := s₂ } (offset + csz)
      (ret + csz) (buf.drop csz) w₂.data hc₂ hk₁
      (fun hne => by
        have := List.length_pos_iff.mpr hne
        rw [List.length_drop] at this
        omega)
      (by rw [List.length_drop]; simp only; omega) hsz (by rw [List.length_drop]; omega)
    refine ⟨s', c', k', ?_, hfree'.trans hfree₂, w₂.trans (by omega) w₃, hc', hk'⟩
    rw [hrec, List.length_drop, show ret + csz + (buf.length - csz) = ret + buf.length by omega]

theorem writeInPlace_spec {f : File} {c : Cursor} {buf : List UInt8} {offset n : Nat}
    {loc : Pos → Nat} (d : DataOk f.store f.ino n loc) (hn : n < 2 ^ 29) (hc : Ready loc n c)
    (hne : buf ≠ []) (hend : offset + buf.length ≤ f.ino.iSize)
    (hsz : f.ino.iSize ≤ 2 ^ 32 - 4096) :
    ∃ s' c' k', writeInPlace f c buf offset = (toInt32 buf.length, { f with store := s' }, c') ∧
      s'.free = f.store.free ∧ Wrote f.store loc n offset buf s' f.ino loc n ∧ SyncedAt loc k' c' ∧
      k' < n := by
  have hlen : 0 < buf.length := List.length_pos_iff.mpr hne
  have hT : offset / 4096 < n := by have := d.size; omega
  have hp := hc.1
  obtain ⟨c₂, hseek, hc₂, -⟩ :=
    seek_spec (k := offset / 4096) d.tree hn hc.2 (by omega) hT (by omega)
  unfold writeInPlace
  simp only [blockSize_eq, u32_of_lt (show offset / 4096 < 2 ^ 32 by omega), hseek, ne_eq,
    not_true_eq_false, ite_false, hc₂.block]
  generalize hcsz : min buf.length (4096 - offset % 4096) = csz
  have htake : (buf.take csz).length = csz := by rw [List.length_take]; omega
  obtain ⟨s₂, hput, hfree₂, w₂⟩ := putChunk_spec f (offset % 4096) (buf.take csz) d hn hT (by omega)
  have hoff : 4096 * (offset / 4096) + offset % 4096 = offset := Nat.div_add_mod offset 4096
  simp only [htake, hoff, Nat.max_eq_left (show offset + csz ≤ f.ino.iSize by omega)] at w₂
  simp only [hput, u64_of_lt (show offset + csz < 2 ^ 64 by omega)]
  obtain ⟨s', c', k', hrec, hfree', w₃, hc', hk'⟩ :=
    overwriteLoop_spec hn buf.length { f with store := s₂ }
    (offset + csz) csz (buf.drop csz) w₂.data hc₂ hT
    (fun h => by
      have := List.length_pos_iff.mpr h
      rw [List.length_drop] at this
      omega)
    (by rw [List.length_drop]; simp only; omega) hsz (by rw [List.length_drop]; omega)
  refine ⟨s', c', k', ?_, hfree'.trans hfree₂, w₂.trans (by omega) w₃, hc', hk'⟩
  rw [hrec, List.length_drop, show csz + (buf.length - csz) = buf.length by omega]

end NaiveFS
