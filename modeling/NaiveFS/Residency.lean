import NaiveFS.LayerRules
import NaiveFS.PageStore
import NaiveFS.VisitSound

/-!
# Pointer blocks during a walk

`visit_indirect_blocks` reads its entries through a pointer to a block of the
cache, and each block it fetches in between may evict that one. The walk runs
here over a page store that keeps in mind whether every such read found its block
in the cache.
-/

namespace NaiveFS

open PointerTree BlockReader EarlyExit

/-- `ok` until something is read through a pointer to a block that has left the cache. -/
structure WatchedStore where
  pages : PageStore
  ok : Bool

instance : BlockReader WatchedStore where
  getBlock i d s := ((s.pages.getBlock i d).1, { s with pages := (s.pages.getBlock i d).2 })
  peek p s := { s with ok := s.ok && decide (p ∈ s.pages.held) }

namespace WatchedStore

@[simp] theorem getBlock_eq (i : Nat) (d : Bool) (s : WatchedStore) :
    getBlock i d s = ((s.pages.getBlock i d).1, { s with pages := (s.pages.getBlock i d).2 }) := rfl

theorem peek_held {p : Nat} {s : PageStore} {ok : Bool} (h : p ∈ s.held) :
    peek p (⟨s, ok⟩ : WatchedStore) = ⟨s, ok⟩ := by simp [peek, h]

theorem peek_gone {p : Nat} {s : PageStore} {ok : Bool} (h : p ∉ s.held) :
    peek p (⟨s, ok⟩ : WatchedStore) = ⟨s, false⟩ := by simp [peek, h]

end WatchedStore

/-- The visitor does not make good a read that went wrong. -/
def KeepsSpoilt {α : Type} (w : Visitor WatchedStore α) : Prop :=
  ∀ i b st, st.2.ok = false → (w i b st).2.2.ok = false

section
variable {α : Type} {w : Visitor WatchedStore α}

theorem KeepsSpoilt.sim (h : KeepsSpoilt w) : VisitSim (fun _ x y => x = y ∧ x.2.ok = false) w w :=
  .of_inv (P := fun _ (x : α × WatchedStore) => x.2.ok =
    false) (fun _ _ _ hx => hx) (fun _ _ _ hx => hx)
    (fun _ p x _ hx => by simp [peek, hx]) fun _ => h

theorem KeepsSpoilt.indirectVisitor (h : KeepsSpoilt w) (n : Nat) :
    KeepsSpoilt (indirectVisitor w n) := by
  intro i b st hst
  exact ((h.sim.indirectVisitor n).call [] i b (x := st) ⟨rfl, rfl, hst⟩).2.2.2

/-- An entry is read from a block that has left the cache. -/
theorem visitEntries_spoilt (h : KeepsSpoilt w) {p num k : Nat} (ind : Block) (left : Nat) {a : α}
    {s : PageStore} (ok : Bool) (hk : k < num) (hp : p ∉ s.held) :
    (visitEntries w p ind num (left + 1) k (a, ⟨s, ok⟩)).2.2.ok = false := by
  have hsame : visitEntries w p ind num (left + 1) k (a, ⟨s, ok⟩) =
    visitEntries w p ind num (left + 1) k (a, ⟨s, false⟩) := by
    simp only [visitEntries, if_pos hk, WatchedStore.peek_gone hp]
  obtain ⟨done, x, y, hx, -, -, hspoilt⟩ :=
    h.sim.entries [p] p List.mem_cons_self ind num (left + 1) k
    (x := (a, ⟨s, false⟩)) ⟨rfl, rfl⟩
  rw [hsame, hx]
  exact hspoilt

end

/-- The visitor makes no call on the store. -/
def Silent {α : Type} (w : Visitor WatchedStore α) : Prop := ∀ i b st, (w i b st).2.2 = st.2

/-! ## Files of at most 2060 blocks

A pointer block leaves the cache with the 1024th block that is fetched after it, and
the last of its entries is read before that. What the blocks hold does not matter. -/

/-- A cache of 1024 blocks. -/
structure Fixed (s : PageStore) : Prop extends s.Sound where
  size : s.cache.size = blockCacheSize

section
variable {α : Type} {w : Visitor WatchedStore α} {s : PageStore} {ok : Bool} {p : Nat}

theorem Fixed.getBlock (h : Fixed s) (i : Nat) : s.getBlock i false = (none, s) ∨
    ∃ b s', s.getBlock i false = (some b, s') ∧ Fixed s' ∧ Lru.Within 0 s'.held i ∧
      ∀ {m}, m < 1023 → Lru.Within m s.held p → Lru.Within (m + 1) s'.held p := by
  rcases h.toSound.getBlock i with hnone | ⟨b, s', hget, hs', hsize, hheld⟩
  · exact Or.inl hnone
  · have hsize' := h.size
    refine Or.inr ⟨b, s', hget, ⟨hs', hsize.trans h.size⟩, ?_, fun hm hp => ?_⟩
    · rw [hheld]
      exact Lru.within_use h.pos
    · rw [hheld, h.size]
      exact hp.use (show _ < 1024 by omega) i

variable (hw : Silent w)
include hw

theorem visitDirect_fixed (ok : Bool) (ino : TreeInode) (n : Nat) :
    ∀ (left i : Nat) (a : α) (s : PageStore), i < n → Fixed s →
      ∃ done a' s', visitDirect w ino n left i (a, ⟨s, ok⟩) = (done, a', ⟨s', ok⟩) ∧ Fixed s' ∧
        (done = false → i + left < n) := by
  intro left
  induction left with
  | zero => exact fun i a s hi h => ⟨false, a, s, rfl, h, fun _ => hi⟩
  | succ left ih =>
    intro i a s hi h
    unfold visitDirect
    rcases h.getBlock (p := 0) (ino.iBlock i) with hget | ⟨b, s', hget, h', -, -⟩
    · simp only [WatchedStore.getBlock_eq, hget]
      exact ⟨true, a, s, rfl, h, by simp⟩
    · simp only [WatchedStore.getBlock_eq, hget]
      rcases hcall : w (ino.iBlock i) b (a, ⟨s', ok⟩) with ⟨_ | _, a', u⟩
      all_goals
        obtain rfl : u = ⟨s', ok⟩ := by simpa [hcall] using hw (ino.iBlock i) b (a, ⟨s', ok⟩)
      · simp only
        split
        · exact ⟨true, a', s', rfl, h', by simp⟩
        · have hrest := ih (i + 1) a' s' (by omega) h'
          rwa [Nat.add_right_comm, Nat.add_assoc i left 1] at hrest
      · exact ⟨true, a', s', rfl, h', by simp⟩

/-- Entry `k` is read when `k` blocks have been fetched since the pointer block. -/
theorem visitEntries_fixed (ok : Bool) (ind : Block) (num : Nat) :
    ∀ (left k : Nat) (a : α) (s : PageStore), k + left = 1024 → Fixed s → Lru.Within k s.held p →
      ∃ done a' s', visitEntries w p ind num left k (a, ⟨s, ok⟩) = (done, a', ⟨s', ok⟩) ∧
      Fixed s' := by
  intro left
  induction left with
  | zero => exact fun k a s _ h _ => ⟨true, a, s, rfl, h⟩
  | succ left ih =>
    intro k a s hk h hp
    unfold visitEntries
    split
    · rw [WatchedStore.peek_held hp.mem]
      rcases h.getBlock (p := p) (ind.word k) with hget | ⟨b, s', hget, h', -, hnext⟩
      · simp only [WatchedStore.getBlock_eq, hget]
        exact ⟨false, a, s, rfl, h⟩
      · simp only [WatchedStore.getBlock_eq, hget]
        rcases hcall : w (ind.word k) b (a, ⟨s', ok⟩) with ⟨_ | _, a', u⟩
        all_goals
          obtain rfl : u = ⟨s', ok⟩ := by simpa [hcall] using hw (ind.word k) b (a, ⟨s', ok⟩)
        · cases left with
          | zero => exact ⟨true, a', s', rfl, h'⟩
          | succ left => exact ih (k + 1) a' s' (by omega) h' (hnext (by omega) hp)
        · exact ⟨true, a', s', rfl, h'⟩
    · exact ⟨true, a, s, rfl, h⟩

theorem visitDind_fixed (ino : TreeInode) {n : Nat} (h : 1036 < n) (hn : n ≤ 2060) (a : α)
    (hs : Fixed s) :
    (visitDind w ino n 1036 a ⟨s, ok⟩).2.ok = ok := by
  unfold visitDind visitIndirectBlocks
  rw [numIndirectBlocks_eq, show (n - 1036 + 1024 - 1) / 1024 = 1 by omega]
  rcases hs.getBlock (p := 0) (ino.iBlock dindBlock) with hget | ⟨dbl, s₁, hget, hs₁, hdbl, -⟩
  · simp only [WatchedStore.getBlock_eq, hget]
  simp only [WatchedStore.getBlock_eq, hget]
  rw [visitEntries, if_pos (Nat.zero_lt_one), WatchedStore.peek_held hdbl.mem,
    WatchedStore.getBlock_eq]
  rcases hs₁.getBlock (p := 0) (dbl.word 0) with hget₂ | ⟨ind, s₂, hget₂, hs₂, hind, -⟩
  · simp only [hget₂]
  obtain ⟨done, a', s', hloop, -⟩ :=
    visitEntries_fixed hw ok ind (n - 1036) 1024 0 a s₂ rfl hs₂ hind
  simp only [hget₂, indirectVisitor, visitIndirectBlocks, numIndirectBlocks_eq, hloop]
  rw [visitEntries, if_neg (by decide)]
  simp only
  rw [if_pos (by omega)]

/-- A file of at most 2060 blocks is walked without a read from an evicted block. -/
theorem visit_held {ino : TreeInode} {n : Nat} (hs : Fixed s) (hb : ino.iBlocks = 8 * n)
    (hn : n ≤ 2060) (a : α) :
    (visitInodeBlocks w ino a ⟨s, ok⟩).2.ok = ok := by
  unfold visitInodeBlocks
  rw [numAlignedBlocks_eq, hb, Nat.mul_div_cancel_left n (by decide), ndirBlocks_eq,
    maxDirBlocks_eq]
  by_cases h0 : n = 0
  · simp only [if_pos h0]
  obtain ⟨done, a₁, s₁, hdirect, hs₁, h12⟩ :=
    visitDirect_fixed hw ok ino n 12 0 a s (Nat.pos_of_ne_zero h0) hs
  simp only [if_neg h0, hdirect]
  cases done with
  | true => rfl
  | false =>
    have h12 := h12 rfl
    simp only
    unfold visitInd visitIndirectBlocks
    rw [numIndirectBlocks_eq, maxIndBlocks_eq]
    rcases hs₁.getBlock (p := 0) (ino.iBlock indBlock) with hget | ⟨ind, s₂, hget, hs₂, hind, -⟩
    · simp only [WatchedStore.getBlock_eq, hget]
    obtain ⟨more, a₃, s₃, hloop, hs₃⟩ :=
      visitEntries_fixed hw ok ind (n - 12) 1024 0 a₁ s₂ rfl hs₂ hind
    simp only [WatchedStore.getBlock_eq, hget, hloop]
    cases more with
    | false => rfl
    | true =>
      simp only
      split
      · rfl
      · rw [show 12 + min (n - 12) 1024 = 1036 by omega]
        exact visitDind_fixed hw ino (by omega) hn a₃ hs₃

end

/-! ## Longer files -/

/-- The walk has fetched the blocks at `ps`, the last one first. -/
structure Walked (heap : Nat → Option Block) (loc : Pos →
  Nat) (n : Nat) (ps : List Pos) (s : PageStore) : Prop where
  safe : s.Safe
  size : s.cache.size = blockCacheSize
  content : s.content = heap
  live : ∀ p ∈ ps, Live n p
  nodup : ps.Nodup
  recent : Lru.Recent blockCacheSize s.held (ps.map loc)

section
variable {heap : Nat → Option Block} {ino : TreeInode} {n : Nat} {loc : Pos → Nat} {s : PageStore}
  {ps ts : List Pos} {q : Pos}
  (t : PtrTree slotOf ino.iBlock heap (Live n) loc)
include t

theorem Walked.fetch (w : Walked heap loc n ps s) (hq : Live n q) (hnew : q ∉ ps) :
    ∃ b s', heap (loc q) = some b ∧ PageStore.getBlock (loc q) false s = (some b, s') ∧
      Walked heap loc n (q :: ps) s' := by
  obtain ⟨b, hb⟩ := Option.isSome_iff_exists.mp (t.alloc q hq)
  obtain ⟨s', hget, hs', hc, hsize, hheld⟩ :=
    w.safe.getBlock (i := loc q) (b := b) (by rw [w.content]; exact hb)
  refine ⟨b, s', hb, hget, hs', hsize.trans w.size, hc.trans w.content, ?_,
    List.nodup_cons.mpr ⟨hnew, w.nodup⟩, ?_⟩
  · intro p hp
    rcases List.mem_cons.mp hp with rfl | hp
    · exact hq
    · exact w.live p hp
  · rw [hheld, w.size, List.map_cons]
    apply w.recent.use
    intro hmem
    obtain ⟨p, hp, heq⟩ := List.mem_map.mp hmem
    exact hnew (t.inj p q (w.live p hp) hq heq ▸ hp)

/-- A block is in the cache until 1024 others have been fetched. -/
theorem Walked.held_iff {us : List Pos} (w : Walked heap loc n (us ++ q :: ts) s) :
    loc q ∈ s.held ↔ us.length < blockCacheSize := by
  have hinj : ((us ++ q :: ts).map loc).Nodup :=
    w.nodup.map_on fun p hp r hr heq => t.inj p r (w.live p hp) (w.live r hr) heq
  have hrecent := w.recent
  have hlen : s.held.length ≤ blockCacheSize := by
    unfold PageStore.held
    rw [List.length_map, ← w.size]
    exact w.safe.length
  rw [List.map_append, List.map_cons] at hinj hrecent
  rw [hrecent.mem_append_iff hlen hinj, List.length_map]

/-! ### Runs of data blocks -/

omit t in
/-- File blocks `base, …, base + k - 1`, the last one first. -/
def dataRun (base k : Nat) : List Pos := ((List.range' base k).map Pos.data).reverse

omit t in
theorem dataRun_succ (base k : Nat) :
    dataRun base (k + 1) = .data (base + k) :: dataRun base k := by
  unfold dataRun
  rw [List.range'_1_concat, List.map_append, List.reverse_append]
  rfl

omit t in
theorem dataRun_length (base k : Nat) : (dataRun base k).length = k := by simp [dataRun]

omit t in
theorem mem_dataRun {base k j : Nat} : Pos.data j ∈ dataRun base k ↔ base ≤ j ∧ j < base + k := by
  simp [dataRun, List.mem_range'_1]

variable {β : Type} {w : Visitor WatchedStore β} {I : Nat → β → Prop} {ok : Bool} {a : β}

omit t in
/-- On the first 2060 blocks of the file the visitor leaves the store alone, and stops
at most below the indirect block, where the walk goes on with the double indirect one.
`I k` is what it captures before file block `k`. -/
def GoesOn (heap : Nat → Option Block) (loc : Pos → Nat) (w : Visitor WatchedStore β)
    (I : Nat → β → Prop) : Prop :=
  ∀ k b a s, k < 2060 → heap (loc (.data k)) = some b → I k a →
    ∃ stop a', w (loc (.data k)) b (a, s) = (stop, a', s) ∧
      (stop = false ∧ I (k + 1) a' ∨ stop = true ∧ 12 ≤ k ∧ k < 1036 ∧ I 1036 a')

/-! ### The loops -/

variable (hg : GoesOn heap loc w I)
include hg

theorem visitDirect_walked (ok : Bool) (h12 : 12 < n) :
    ∀ (left i : Nat) (a : β) (s : PageStore), i + left = 12 → I i a →
    Walked heap loc n (dataRun 0 i) s →
    ∃ a' s', visitDirect w ino n left i (a, ⟨s, ok⟩) = (false, a', ⟨s', ok⟩) ∧ I 12 a' ∧
      Walked heap loc n (dataRun 0 12) s' := by
  intro left
  induction left with
  | zero =>
    intro i a s hi ha hs
    obtain rfl : i = 12 := by omega
    exact ⟨a, s, rfl, ha, hs⟩
  | succ left ih =>
    intro i a s hi ha hs
    obtain ⟨b, s', hb, hget, hs'⟩ :=
      hs.fetch t (q := .data i) (show i < n by omega) (by rw [mem_dataRun]; omega)
    have hrun := dataRun_succ 0 i
    rw [Nat.zero_add] at hrun
    rw [← hrun] at hs'
    have hr := t.root_slot (.data i) i (show i < n by omega) (slotOf_data_direct (by omega))
    obtain ⟨stop, a', hcall, ⟨rfl, ha'⟩ | ⟨-, h, -, -⟩⟩ := hg i b a ⟨s', ok⟩ (by omega) hb ha
    · simp only [visitDirect, hr, WatchedStore.getBlock_eq, hget, hcall]
      rw [if_neg (show ¬ i + 1 = n by omega)]
      exact ih (i + 1) a' s' (by omega) ha' hs'
    · omega

theorem visitEntries_walked (ok : Bool) {base : Nat} (hbase : base = 12 ∨ base = 1036)
    (hn : base + 1024 ≤ n) {ind : Block} (hts : ∀ j, base ≤ j → Pos.data j ∉ q :: ts)
    (hw : ∀ j, j < 1024 → ind.word j = loc (.data (base + j))) :
    ∀ (left k : Nat) (a : β) (s : PageStore), k + left = 1024 → I (base + k) a →
      Walked heap loc n (dataRun base k ++ q :: ts) s →
      ∃ a' s' k', visitEntries w (loc q) ind (n - base) left k (a, ⟨s, ok⟩) = (true, a', ⟨s', ok⟩) ∧
        I (base + 1024) a' ∧ Walked heap loc n (dataRun base k' ++ q :: ts) s' ∧ k' ≤ 1024 ∧
        (base = 1036 → k' = 1024) := by
  intro left
  induction left with
  | zero =>
    intro k a s hk ha hs
    obtain rfl : k = 1024 := by omega
    exact ⟨a, s, 1024, rfl, ha, hs, Nat.le_refl _, fun _ => rfl⟩
  | succ left ih =>
    intro k a s hk ha hs
    have hheld : loc q ∈ s.held := by
      rw [hs.held_iff t, dataRun_length]
      exact (show k < 1024 by omega)
    have hnew : Pos.data (base + k) ∉ dataRun base k ++ q :: ts := by
      rw [List.mem_append, mem_dataRun]
      rintro (hin | hin)
      · omega
      · exact hts _ (Nat.le_add_right _ _) hin
    obtain ⟨b, s', hb, hget, hs'⟩ :=
      hs.fetch t (show Live n (.data (base + k)) from (by omega : base + k < n)) hnew
    rw [← List.cons_append, ← dataRun_succ] at hs'
    obtain ⟨stop, a', hcall, hnext⟩ := hg (base + k) b a ⟨s', ok⟩ (by omega) hb ha
    simp only [visitEntries, if_pos (show k < n - base by omega), WatchedStore.peek_held hheld,
      WatchedStore.getBlock_eq, hw k (by omega), hget, hcall]
    rcases hnext with ⟨rfl, ha'⟩ | ⟨rfl, -, hlt, ha'⟩
    · exact ih (k + 1) a' s' (by omega) ha' hs'
    · obtain rfl : base = 12 := by omega
      exact ⟨a', s', k + 1, rfl, ha', hs', by omega, by omega⟩

/-! ### The levels -/

variable (hn : 2060 < n)
include hn

theorem visitInd_walked (ok : Bool) (ha : I 12 a) (hs : Walked heap loc n (dataRun 0 12) s) :
    ∃ a' s' k, visitInd w ino n 12 a ⟨s, ok⟩ = visitDind w ino n 1036 a' ⟨s', ok⟩ ∧ I 1036 a' ∧
      Walked heap loc n (dataRun 12 k ++ .ind :: dataRun 0 12) s' ∧ k ≤ 1024 := by
  have hl : Live n .ind := show 12 < n by omega
  have hr := t.root_slot .ind 12 hl rfl
  obtain ⟨ind, s₁, hind, hget, hs₁⟩ := hs.fetch t hl (by simp [dataRun])
  have hword : ∀ j, j < 1024 → ind.word j = loc (.data (12 + j)) := by
    intro j hj
    obtain ⟨-, b, hb, hw⟩ := t.cell_slot (.data (12 + j)) .ind j (show 12 + j < n by omega)
      (by rw [slotOf_data_ind (by omega) (by omega), Nat.add_sub_cancel_left])
    rw [hind] at hb
    cases hb
    exact hw
  have hts : ∀ j, 12 ≤ j → Pos.data j ∉ .ind :: dataRun 0 12 := by
    intro j hj hmem
    rcases List.mem_cons.mp hmem with hmem | hmem
    · cases hmem
    · rw [mem_dataRun] at hmem
      omega
  obtain ⟨a', s', k, hloop, ha', hs', hk, -⟩ :=
    visitEntries_walked t hg ok (Or.inl rfl) (by omega) hts hword 1024 0 a s₁ rfl ha hs₁
  refine ⟨a', s', k, ?_, ha', hs', hk⟩
  unfold visitInd visitIndirectBlocks
  rw [indBlock_eq, hr, WatchedStore.getBlock_eq, hget, numIndirectBlocks_eq, maxIndBlocks_eq]
  simp only [hloop]
  rw [if_neg (by omega), show 12 + min (n - 12) 1024 = 1036 by omega]

/-- After the 1024 blocks below its first entry the double indirect block has left
the cache, and its second entry is read. -/
theorem visitDind_freed (hkeep : KeepsSpoilt w) (ha : I 1036 a)
    (hts : ∀ j, 1036 ≤ j → Pos.data j ∉ ts) (hdind : Pos.dind ∉ ts) (hchild : Pos.dchild 0 ∉ ts)
    (hs : Walked heap loc n ts s) :
    (visitDind w ino n 1036 a ⟨s, ok⟩).2.ok = false := by
  have hl : Live n .dind := by simp only [Live]; omega
  have hlc : Live n (.dchild 0) := by simp only [Live]; omega
  have hr := t.root_slot .dind 13 hl rfl
  obtain ⟨dbl, s₁, hdbl, hget₁, hs₁⟩ := hs.fetch t hl hdind
  have hheld : loc .dind ∈ s₁.held := (@Walked.held_iff _ _ _ _ _ ts .dind t [] hs₁).mpr (by decide)
  obtain ⟨-, b, hb, hw0⟩ := t.cell_slot (.dchild 0) .dind 0 hlc rfl
  rw [hdbl] at hb
  cases hb
  obtain ⟨ind, s₂, hindb, hget₂, hs₂⟩ := hs₁.fetch t hlc (by simpa using hchild)
  have hword : ∀ j, j < 1024 → ind.word j = loc (.data (1036 + j)) := by
    intro j hj
    obtain ⟨-, b, hb, hw⟩ := t.cell_slot (.data (1036 + j)) (.dchild 0) j (show 1036 + j <
      n by omega)
      (@slotOf_data_dchild 0 j (by decide) hj)
    rw [hindb] at hb
    cases hb
    exact hw
  have hts' : ∀ j, 1036 ≤ j → Pos.data j ∉ .dchild 0 :: .dind :: ts := by
    intro j hj hmem
    simp only [List.mem_cons, reduceCtorEq, false_or] at hmem
    exact hts j hj hmem
  obtain ⟨a', s', k, hloop, -, hs', -, hk⟩ :=
    visitEntries_walked t hg ok (Or.inr rfl) (by omega) hts' hword 1024 0 a s₂ rfl ha hs₂
  obtain rfl := hk rfl
  have hgone : loc .dind ∉ s'.held := by
    rw [show dataRun 1036 1024 ++ .dchild 0 :: .dind :: ts =
      (dataRun 1036 1024 ++ [.dchild 0]) ++ .dind :: ts by simp] at hs'
    rw [hs'.held_iff t, List.length_append, dataRun_length]
    decide
  have hspoilt := visitEntries_spoilt (hkeep.indirectVisitor n) dbl 1022
    (a := (1036 + min (n - 1036) 1024, a')) ok
    (show 1 < (n - 1036 + 1024 - 1) / 1024 by omega) hgone
  have hcall : indirectVisitor w n (loc (.dchild 0)) ind ((1036, a), ⟨s₂, ok⟩) =
      (false, (1036 + min (n - 1036) 1024, a'), ⟨s', ok⟩) := by
    unfold indirectVisitor visitIndirectBlocks
    rw [numIndirectBlocks_eq]
    simp only [hloop]
  have hfirst : visitEntries (indirectVisitor w n) (loc .dind) dbl ((n - 1036 + 1024 - 1) / 1024)
    1024 0 ((1036, a), ⟨s₁, ok⟩) =
      visitEntries (indirectVisitor w n) (loc .dind) dbl ((n - 1036 + 1024 - 1) / 1024) 1023 1
        ((1036 + min (n - 1036) 1024, a'), ⟨s', ok⟩) := by
    conv_lhs => unfold visitEntries
    simp only [if_pos (show 0 < (n - 1036 + 1024 - 1) / 1024 by omega),
      WatchedStore.peek_held hheld, WatchedStore.getBlock_eq, hw0, hget₂, hcall]
  unfold visitDind visitIndirectBlocks
  rw [dindBlock_eq, hr, WatchedStore.getBlock_eq, hget₁, numIndirectBlocks_eq]
  simp only
  rw [hfirst]
  rcases hres : visitEntries (indirectVisitor w n) (loc .dind) dbl ((n - 1036 + 1024 - 1) / 1024)
    1023 1
    ((1036 + min (n - 1036) 1024, a'), ⟨s', ok⟩) with ⟨_ | _, ⟨c, a''⟩, u⟩ <;> rw [hres] at hspoilt
  · exact hspoilt
  · simp only
    split
    · exact hspoilt
    · exact (hkeep.sim.visitTind [] ino n c ⟨rfl, hspoilt⟩).2

/-! ### The walk -/

/-- An evicted block is read in a longer file, unless the visitor ends the walk before. -/
theorem visit_freed (hs : s.Safe) (hsize : s.cache.size = blockCacheSize)
    (hheap : s.content = heap) (hb : ino.iBlocks = 8 * n) (hkeep : KeepsSpoilt w) (ha : I 0 a)
    (ok : Bool) : (visitInodeBlocks w ino a ⟨s, ok⟩).2.ok = false := by
  have hstart : Walked heap loc n (dataRun 0 0) s :=
    ⟨hs, hsize, hheap, fun _ h => (by cases h), List.nodup_nil, Lru.Recent.nil⟩
  obtain ⟨a₁, s₁, hdirect, ha₁, hs₁⟩ :=
    visitDirect_walked t hg ok (by omega) 12 0 a s rfl ha hstart
  obtain ⟨a₂, s₂, k, hind, ha₂, hs₂, hk⟩ := visitInd_walked t hg hn ok ha₁ hs₁
  unfold visitInodeBlocks
  rw [numAlignedBlocks_eq, hb, Nat.mul_div_cancel_left n (by decide), ndirBlocks_eq,
    maxDirBlocks_eq]
  simp only [if_neg (show ¬ n = 0 by omega), hdirect, hind]
  refine visitDind_freed t hg hn hkeep ha₂ (fun j hj hmem => ?_) (by simp [dataRun])
    (by simp [dataRun]) hs₂
  simp only [List.mem_append, List.mem_cons, reduceCtorEq, false_or, mem_dataRun] at hmem
  omega

end

/-- A visitor that never stops and leaves the cache alone. -/
def passive {β : Type} (v : Nat → Block → β → β) : Visitor WatchedStore β :=
  fun i b st => (false, v i b st.1, st.2)

/-- Every pointer that the walk reads is read from a block in the cache. -/
def AlwaysHeld {β : Type} (v : Nat → Block → β → β) (ino : TreeInode) (a : β) (s : PageStore) :
    Prop :=
  (visitInodeBlocks (passive v) ino a ⟨s, true⟩).2.ok = true

section
variable {heap : Nat → Option Block} {ino : TreeInode} {n : Nat} {loc : Pos → Nat} {s : PageStore}
  {β : Type}
  (v : Nat → Block → β → β)

theorem passive_goesOn : GoesOn heap loc (passive v) fun _ _ => True :=
  fun _ _ _ _ _ _ _ => ⟨false, _, rfl, Or.inl ⟨rfl, trivial⟩⟩

variable (t : PtrTree slotOf ino.iBlock heap (Live n) loc)
include t

/-- Pointers are always read from a block in the cache exactly when the file has at
most 2060 blocks: 12 direct ones and the data blocks below two pointer blocks. -/
theorem always_held_iff (hs : s.Sound) (hsize : s.cache.size = blockCacheSize)
    (hc : s.content = heap) (hb : ino.iBlocks = 8 * n) (hsafe : 2060 < n → s.Safe) (a : β) :
    AlwaysHeld v ino a s ↔ n ≤ 2060 := by
  constructor
  · intro hheld
    by_contra hlt
    have hn := Nat.not_le.mp hlt
    have hfreed := visit_freed t (passive_goesOn v) hn (hsafe hn) hsize hc hb (fun _ _ _ h => h)
      (a := a) trivial true
    rw [AlwaysHeld, hfreed] at hheld
    cases hheld
  · intro hn
    exact visit_held (fun _ _ _ => rfl) ⟨hs, hsize⟩ hb hn a

end

/-! ## A file of 2061 blocks -/

/-- An empty cache over a disk with the blocks of `s`, each where a flush gets through. -/
def PageStore.cold (s : BlockStore) : PageStore where
  cache := ⟨blockCacheSize, []⟩
  disk off := (s.data (off / 2 ^ 32)).getD Bytes.zero
  place i := (s.data i).map fun _ => 2 ^ 32 * i

theorem PageStore.Safe.cold (s : BlockStore) : (PageStore.cold s).Safe where
  pos := show 0 < blockCacheSize by decide
  length := Nat.zero_le _
  nodup := List.nodup_nil
  placed x hx := absurd hx List.not_mem_nil
  apart i j off hi hj := by
    obtain ⟨-, -, rfl⟩ := Option.map_eq_some_iff.mp hi
    obtain ⟨-, -, heq⟩ := Option.map_eq_some_iff.mp hj
    omega
  clean x hx := absurd hx List.not_mem_nil
  kept := Or.inl fun i off hi => by
    obtain ⟨-, -, rfl⟩ := Option.map_eq_some_iff.mp hi
    exact decide_eq_true (by omega)

theorem PageStore.cold_content (s : BlockStore) : (PageStore.cold s).content = s.data := by
  funext i
  cases hd : s.data i <;> simp [PageStore.content, PageStore.cold, BlockCache.lookup, hd]

theorem always_held_small :
    ∃ ino s, s.Sound ∧ ino.iBlocks = 8 * 2060 ∧ AlwaysHeld (fun _ _ (a : Unit) => a) ino () s := by
  obtain ⟨ino, s, loc, t, hb⟩ := @exists_tree 2060 (by decide)
  have hsafe : (PageStore.cold s).Safe := .cold s
  exact ⟨ino, .cold s, hsafe.toSound, hb,
    (always_held_iff _ t hsafe.toSound rfl (PageStore.cold_content s) hb (fun _ => hsafe) ()).mpr
    (by decide)⟩

/-- One block more, and an empty cache: the double indirect block is evicted while
the blocks below its first entry are fetched, and then its second entry is read. -/
theorem read_after_eviction :
    ∃ ino s, s.Sound ∧ s.cache.size = blockCacheSize ∧ s.held = [] ∧ ino.iBlocks = 8 * 2061 ∧
    ¬ AlwaysHeld (fun _ _ (a : Unit) => a) ino () s := by
  obtain ⟨ino, s, loc, t, hb⟩ := @exists_tree 2061 (by decide)
  have hsafe : (PageStore.cold s).Safe := .cold s
  refine ⟨ino, .cold s, hsafe.toSound, rfl, rfl, hb, fun hheld => ?_⟩
  have hfreed := visit_freed t (passive_goesOn fun _ _ a => a) (by decide) hsafe rfl
    (PageStore.cold_content s) hb
    (fun _ _ _ h => h) (a := ()) trivial true
  rw [AlwaysHeld, hfreed] at hheld
  cases hheld

/-! ## Stopping -/

/-- A visitor that only looks at the blocks it is called on. -/
def looking {σ α : Type} (v : Nat → Block → α → Bool × α) : Visitor σ α :=
  fun i b st => ((v i b st.1).1, (v i b st.1).2, st.2)

namespace PageStore

/-- The visitor on a block of the store. -/
def look {α : Type} (v : Nat → Block → α → Bool × α) (s : PageStore) (i : Nat) (a : α) : Bool × α :=
  v i ((s.content i).getD Bytes.zero) a

/-- The walk calls the visitor on the blocks `is` up to the first on which it asks to
stop, and on no other, and reads from no evicted block. -/
def Stops {α : Type} (v : Nat → Block → α → Bool × α) (ino : TreeInode) (is : List Nat) (a : α)
    (s : PageStore) : Prop :=
  (visitInodeBlocks (logged (looking v)) ino ([], a) (⟨s, true⟩ : WatchedStore)).1.1 =
    called (s.look v) is a ∧
    (visitInodeBlocks (logged (looking v)) ino ([], a) (⟨s, true⟩ : WatchedStore)).2.ok = true

/-- The store without a cache. -/
def flat (s : PageStore) : BlockStore := .full s.content

end PageStore

/-- The page store and the eviction-free store serve the same blocks. -/
theorem looking_sim {β : Type} (w : Nat → Block → β → Bool × β) :
    VisitSim (fun _ (x : β × WatchedStore) (y : β × BlockStore) =>
      x.1 = y.1 ∧ x.2.pages.Safe ∧ x.2.pages.content = y.2.data) (looking w) (looking w) := by
  refine .of_rel (fun i x y h => ?_) (fun p x y h => h) fun i b x y h => ?_
  · obtain ⟨ha, hs, hc⟩ := h
    cases hb : x.2.pages.content i with
    | none => simp [PageStore.getBlock_none hb, ← hc, hb, ha, hs]
    | some b =>
      obtain ⟨s', hget, hs', hc', -, -⟩ := hs.getBlock hb
      simp [hget, ← hc, hb, ha, hs', hc']
  · obtain ⟨ha, hs, hc⟩ := h
    simp only [looking, ha]
    exact ⟨trivial, trivial, hs, hc⟩

theorem looking_silent {α : Type} (v : Nat → Block → α → Bool × α) : Silent (looking v) :=
  fun _ _ _ => rfl

theorem looking_keepsTree {α : Type} (v : Nat → Block → α → Bool × α) (ino : TreeInode) (n : Nat)
    (loc : Pos → Nat) :
    KeepsTree (looking v) ino n loc := fun _ _ _ _ t => t

section
variable {α : Type} {ino : TreeInode} {n : Nat} {loc : Pos → Nat} {s : PageStore} (v : Nat → Block →
  α → Bool × α) (a : α)

theorem firstStop_look (is : List Nat) :
    firstStop (callOn (looking v)) is (a, s.flat) = firstStop (s.look v) is a :=
  firstStop_pair (fun _ _ => rfl) is a

variable (hs : s.Safe) (t : PtrTree slotOf ino.iBlock s.content (Live n) loc) (hb : ino.iBlocks =
  8 * n)
include hs

/-- The cache does not show in the calls. -/
theorem calls_pages :
    (visitInodeBlocks (logged (looking v)) ino ([], a) (⟨s, true⟩ : WatchedStore)).1.1 =
    calls (looking v) ino a s.flat := by
  have hsim := (looking_sim fun i b (st : List Nat × α) => ((v i b st.2).1, st.1 ++ [i],
    (v i b st.2).2)).visitInodeBlocks [] ino
    (a := ([], a)) (b := ([], a)) (s := ⟨s, true⟩) (t := s.flat) ⟨rfl, hs, rfl⟩
  exact congrArg Prod.fst hsim.1

variable (hsize : s.cache.size = blockCacheSize)
include t hb hsize

/-- A stop on a direct block ends the walk. -/
theorem held_of_direct_stop {j : Nat} (hj : firstStop (s.look v) (stretch loc n 0 n) a = some j)
    (hlt : j < 12) :
    (visitInodeBlocks (looking v) ino a (⟨s, true⟩ : WatchedStore)).2.ok = true := by
  have hlen := firstStop_lt _ hj
  rw [stretch_length] at hlen
  obtain ⟨done, a', s', hdirect, -, -⟩ :=
    visitDirect_fixed (looking_silent v) true ino n 12 0 a s (by omega) ⟨hs.toSound, hsize⟩
  -- the walk without a cache ends with the stop
  obtain ⟨done', x, y, hx, hy, -⟩ :=
    (looking_sim v).visitDirect [] ino n 12 0 (x := (a, ⟨s, true⟩)) (y := (a, s.flat)) ⟨rfl,
    hs, rfl⟩
  have huntil := visitDirect_until (looking_keepsTree v ino n loc) 12 0 (a, s.flat) rfl (by omega) t
  rw [hdirect] at hx
  obtain ⟨rfl, -⟩ := Prod.mk.inj hx
  have hdone : done = true := by
    rw [hy] at huntil
    rw [(Prod.mk.inj huntil).1, callUntil_fst, firstStop_look]
    rw [stretch_all, firstStop_append] at hj
    cases hfirst : firstStop (s.look v) (stretch loc n 0 12) a with
    | some i => rfl
    | none =>
      rw [hfirst, Option.none_or] at hj
      obtain ⟨i, hi, rfl⟩ := Option.map_eq_some_iff.mp hj
      rw [stretch_length] at hlt
      simp only [Option.isSome_none, Bool.false_or, decide_eq_true_eq]
      omega
  unfold visitInodeBlocks
  rw [numAlignedBlocks_eq, hb, Nat.mul_div_cancel_left n (by decide), ndirBlocks_eq]
  simp only [if_neg (show ¬ n = 0 by omega), hdirect, hdone]

/-- Without a stop on the first 2060 blocks of a longer file an evicted block is read. -/
theorem freed_of_late_stop (hn : 2060 < n)
    (hlate : ∀ j, firstStop (s.look v) (stretch loc n 0 n) a = some j → 2060 ≤ j) :
    (visitInodeBlocks (looking v) ino a (⟨s, true⟩ : WatchedStore)).2.ok = false := by
  -- before file block `k` the visitor has seen the blocks in front of it
  have hstep : ∀ k, k < 2060 → firstStop (s.look v) (stretch loc n 0 k) a = none ∧
      (s.look v (loc (.data k)) (callUntil (s.look v) (stretch loc n 0 k) a).2).1 = false := by
    intro k hk
    have hsplit : stretch loc n 0 n = stretch loc n 0 k ++ loc (.data k) :: stretch loc n (k + 1)
      (n - k - 1) := by
      have happend := @stretch_append n loc 0 k (n - k)
      rw [Nat.zero_add, show k + (n - k) = n by omega] at happend
      rw [happend, ← stretch_succ _ (by omega), show n - k - 1 + 1 = n - k by omega]
    rw [hsplit] at hlate
    exact goes_on_of_firstStop _ (by rw [stretch_length]; omega) hlate
  have hcall : ∀ k b (a' : α) (u : WatchedStore), k < 2060 → s.content (loc (.data k)) = some b →
      a' = (callUntil (s.look v) (stretch loc n 0 k) a).2 →
      looking v (loc (.data k)) b (a', u) =
      (false, (callUntil (s.look v) (stretch loc n 0 (k + 1)) a).2, u) := by
    intro k b a' u hk hb' ha'
    obtain ⟨hnone, hgo⟩ := hstep k hk
    have hnext : callUntil (s.look v) (stretch loc n 0 (k + 1)) a =
      s.look v (loc (.data k)) a' := by
      rw [← ha'] at hgo
      rw [stretch_append, callUntil_append _ _ hnone, ← ha', Nat.zero_add,
        stretch_succ 0 (by omega), stretch_zero, callUntil_cons, hgo]
      exact Prod.ext hgo.symm rfl
    rw [hnext]
    rw [← ha'] at hgo
    unfold PageStore.look at hgo ⊢
    rw [hb', Option.getD_some] at hgo ⊢
    simp only [looking, hgo]
  refine visit_freed t (I := fun k a' => a' = (callUntil (s.look v) (stretch loc n 0 k) a).2) ?_ hn
    hs hsize rfl hb
    (fun _ _ _ h => h) ?_ true
  · intro k b a' u hk hb' ha'
    exact ⟨false, _, hcall k b a' u hk hb' ha', Or.inl ⟨rfl, rfl⟩⟩
  · rw [stretch_zero]
    rfl

end

/-- Asks to stop on its thirteenth call. -/
def thirteen (_ : Nat) (_ : Block) (k : Nat) : Bool × Nat := (decide (12 ≤ k), k + 1)

theorem firstStop_thirteen (s : PageStore) :
    ∀ (is : List Nat) (k : Nat), k ≤ 12 → 12 - k < is.length →
    firstStop (s.look thirteen) is k = some (12 - k) := by
  intro is
  induction is with
  | nil => intro k _ h; cases h
  | cons i is ih =>
    intro k hk h
    simp only [firstStop, PageStore.look, thirteen]
    by_cases hlast : k = 12
    · simp [hlast]
    · have hrec := ih (k + 1) (by omega) (by simp only [List.length_cons] at h; omega)
      rw [decide_eq_false (by omega)]
      simp only [hrec, Option.map_some, Option.some.injEq]
      omega

end NaiveFS
