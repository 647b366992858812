import NaiveFS.EntrySound
import NaiveFS.Residency

/-!
# The blocks of an inode in the block cache

The namespace gives an inode the list of its blocks and walks through the list.
The code follows pointers, through a cache of 1024 blocks. The two walks call the
visitor on the same blocks (`Paged.visit`), as long as the code reads no pointer
from a block that has left the cache: that is the case for up to 2060 blocks, and
for any walk at all while the blocks in use fit into the cache (`Cacheable`).
-/

namespace NaiveFS

open PointerTree BlockReader EarlyExit

/-! ## The walk through the list -/

section
variable {α : Type} (v : Nat → α → Bool × α)

theorem visitFrom_direct :
    ∀ (bs rest : List Nat) (p : Nat) (a : α), p + bs.length ≤ 12 →
    (rest ≠ [] → p + bs.length = 12) → visitFrom v p false (bs ++ rest) a =
      if (callUntil v bs a).1 then (callUntil v bs a).2 else
      visitFrom v 12 false rest (callUntil v bs a).2 := by
  intro bs
  induction bs with
  | nil =>
    intro rest p a hp hrest
    cases rest with
    | nil => rfl
    | cons b rest =>
      obtain rfl : p = 12 := hrest (List.cons_ne_nil b rest)
      rfl
  | cons b bs ih =>
    intro rest p a hp hrest
    rw [List.length_cons] at hp hrest
    rw [List.cons_append, visitFrom, maxDirBlocks_eq, if_pos (by omega), callUntil_cons]
    rcases hv : v b a with ⟨_ | _, a'⟩
    · simp only [Bool.false_eq_true, if_false]
      exact ih rest (p + 1) a' (by omega) fun hne => by
        have := hrest hne
        omega
    · simp

/-- The rest of a run that has been left. -/
theorem visitFrom_skip :
    ∀ (bs rest : List Nat) (p : Nat) (a : α), 12 ≤ p → (p - 12) % 1024 + bs.length ≤ 1024 →
    (bs ≠ [] → (p - 12) % 1024 ≠ 0) → ∃ skip, visitFrom v p true (bs ++ rest) a =
      visitFrom v (p + bs.length) skip rest a := by
  intro bs
  induction bs with
  | nil => exact fun rest p a _ _ _ => ⟨true, rfl⟩
  | cons b bs ih =>
    intro rest p a hp hlen hne
    rw [List.length_cons] at hlen
    have hnz := hne (List.cons_ne_nil b bs)
    rw [List.cons_append, visitFrom, maxDirBlocks_eq, numIndirectBlocks_eq, if_neg (by omega),
      if_pos (by simpa using hnz)]
    obtain ⟨skip, heq⟩ := ih rest (p + 1) a (by omega) (by omega) (fun hne => by
      have := List.length_pos_iff.mpr hne
      omega)
    refine ⟨skip, ?_⟩
    rw [heq, List.length_cons, show p + 1 + bs.length = p + (bs.length + 1) by omega]

/-- The blocks below one pointer block. -/
theorem visitFrom_chunk :
    ∀ (bs rest : List Nat) (p : Nat) (skip : Bool) (a : α), 12 ≤ p →
    (p - 12) % 1024 + bs.length ≤ 1024 → ((p - 12) % 1024 = 0 ∨ skip = false) →
    ∃ skip', visitFrom v p skip (bs ++ rest) a =
      visitFrom v (p + bs.length) skip' rest (callUntil v bs a).2 := by
  intro bs
  induction bs with
  | nil => exact fun rest p skip a _ _ _ => ⟨skip, rfl⟩
  | cons b bs ih =>
    intro rest p skip a hp hlen hskip
    rw [List.length_cons] at hlen
    have hcall : (skip && (p - 12) % 1024 != 0) = false := by
      rcases hskip with h | h <;> simp [h]
    rw [List.cons_append, visitFrom, maxDirBlocks_eq, numIndirectBlocks_eq, if_neg (by omega),
      hcall, callUntil_cons, List.length_cons, show p + (bs.length + 1) =
      p + 1 + bs.length by omega]
    simp only [Bool.false_eq_true, if_false]
    rcases v b a with ⟨_ | _, a'⟩
    · exact ih rest (p + 1) false a' (by omega) (by omega) (Or.inr rfl)
    · refine visitFrom_skip v bs rest (p + 1) a' (by omega) (by omega) fun hne => ?_
      have := List.length_pos_iff.mpr hne
      omega

end

section
variable {α : Type} (v : Visitor BlockStore α) (loc : Pos → Nat) (n : Nat) (st : α × BlockStore)

theorem visitFrom_chunks :
    ∀ c r, ∃ skip, visitFrom (callOn v) 12 false (stretch loc n 12 (1024 * c + r)) st =
    visitFrom (callOn v) (12 + 1024 * c) skip (stretch loc n (12 + 1024 * c) r)
      (afterChunks v loc n st c) := by
  intro c
  induction c with
  | zero =>
    intro r
    rw [Nat.mul_zero, Nat.zero_add]
    exact ⟨false, rfl⟩
  | succ c ih =>
    intro r
    obtain ⟨skip, heq⟩ := ih (1024 + r)
    have hlen := @stretch_length n loc (12 + 1024 * c) 1024
    obtain ⟨skip', hchunk⟩ := visitFrom_chunk (callOn v) (stretch loc n (12 + 1024 * c) 1024)
      (stretch loc n (12 + 1024 * c + 1024) r) (12 + 1024 * c) skip (afterChunks v loc n st c)
        (by omega) (by omega)
      (Or.inl (by omega))
    rw [stretch_append (12 + 1024 * c) 1024 r, hchunk] at heq
    refine ⟨skip', ?_⟩
    rw [show 1024 * (c + 1) + r = 1024 * c + (1024 + r) by omega, heq, afterChunks,
      show 12 + 1024 * (c + 1) = 12 + 1024 * c + 1024 by omega]
    by_cases hend : n ≤ 12 + 1024 * c + 1024
    · rw [stretch_end _ hend]
      rfl
    · rw [hlen, show min 1024 (n - (12 + 1024 * c)) = 1024 by omega]

/-- The walk through the list calls the visitor on the blocks on which the walk over
the block tree calls it. -/
theorem visitFrom_eq : visitFrom (callOn v) 0 false (stretch loc n 0 n) st =
    if (callUntil (callOn v) (stretch loc n 0 12) st).1 then
      (callUntil (callOn v) (stretch loc n 0 12) st).2
    else afterChunks v loc n (callUntil (callOn v) (stretch loc n 0 12) st).2
      ((n - 12 + 1023) / 1024) := by
  have hlen := @stretch_length n loc 0 12
  rw [stretch_all, visitFrom_direct _ _ _ _ _ (by omega) (fun hne => ?_)]
  · obtain ⟨skip, heq⟩ := visitFrom_chunks v loc n (callUntil (callOn v) (stretch loc n 0 12) st).2
      ((n - 12 + 1023) / 1024) 0
    rw [Nat.add_zero, stretch_zero] at heq
    rw [heq]
    rfl
  · have := List.length_pos_iff.mpr hne
    rw [stretch_length] at this
    omega

end

/-! ## The walk over the block cache -/

namespace FS

variable {s : FS} {d : Nat} {ino : TreeInode} {p : PageStore} {α : Type}

/-- The pointers from `ino` on lead through the page store to the blocks of inode `d`. -/
structure Paged (s : FS) (d : Nat) (ino : TreeInode) (p : PageStore) : Prop where
  safe : p.Safe
  size : p.cache.size = blockCacheSize
  count : ino.iBlocks = 8 * (s.inodes d).iBlock.length
  tree : ∃ loc, PtrTree slotOf ino.iBlock p.content (Live (s.inodes d).iBlock.length) loc ∧
    (s.inodes d).iBlock = stretch loc (s.inodes d).iBlock.length 0 (s.inodes d).iBlock.length

/-- A visitor of the namespace on the blocks of the code. -/
def onPages (v : Nat → α → Bool × α) : Visitor WatchedStore α := looking fun i _ a => v i a

theorem Paged.visit (h : s.Paged d ino p) (hn : (s.inodes d).iBlock.length < 2 ^ 29)
    (v : Nat → α → Bool × α) (a : α) :
    (NaiveFS.visitInodeBlocks (onPages v) ino a ⟨p, true⟩).1 = s.visitInodeBlocks d v a := by
  obtain ⟨loc, t, hblocks⟩ := h.tree
  have hsim :=
    ((looking_sim fun i _ (a : α) => v i a).visitInodeBlocks [] ino (a := a) (b := a)
    (s := ⟨p, true⟩) (t := p.flat)
    ⟨rfl, h.safe, rfl⟩).1
  have hwalk : NaiveFS.visitInodeBlocks (looking fun i _ (a : α) => v i a) ino (a, p.flat).1 (a,
    p.flat).2 = _ :=
    visitInodeBlocks_until (looking_keepsTree (fun i _ (a : α) => v i a) ino _ loc) t hn h.count
  rw [← visitFrom_eq] at hwalk
  have hlist := visitFrom_map (fun a : α => (a, p.flat)) (v := v)
    (w := callOn (looking fun i _ (a : α) => v i a)) (fun _ _ => rfl)
    (stretch loc (s.inodes d).iBlock.length 0 (s.inodes d).iBlock.length) 0 false a
  unfold onPages
  rw [hsim, hwalk, hlist, FS.visitInodeBlocks, ← hblocks]

theorem Paged.held (h : s.Paged d ino p) (hn : (s.inodes d).iBlock.length ≤ 2060)
    (v : Nat → α → Bool × α) (a : α) :
    (NaiveFS.visitInodeBlocks (onPages v) ino a ⟨p, true⟩).2.ok = true :=
  visit_held (fun _ _ _ => rfl) ⟨h.safe.toSound, h.size⟩ h.count hn a

/-- Whatever the block cache holds, the walk over inode `d` reads from a block that has
been evicted. -/
def ReadsFreed (s : FS) (d : Nat) (w : Visitor WatchedStore α) (a : α) : Prop :=
  (∃ ino p, s.Paged d ino p) ∧ ∀ ino p, s.Paged d ino p →
    (NaiveFS.visitInodeBlocks w ino a ⟨p, true⟩).2.ok = false

/-- `inode_lookup` does so. -/
def LookupFreed (s : FS) (path : Path) : Prop :=
  ∃ d name, .walk d name ∈ s.accesses path ∧ s.ReadsFreed d (onPages (s.searchVisitor name)) none

end FS

/-! ## Nothing is evicted -/

namespace PageStore

variable {s : PageStore} {i q : Nat}

/-- There are no more blocks with a place on the disk than the cache can hold. -/
structure Roomy (s : PageStore) : Prop where
  sound : s.Sound
  size : s.cache.size = blockCacheSize
  few : ∀ l : List Nat, l.Nodup → (∀ i ∈ l, (s.place i).isSome) → l.length ≤ blockCacheSize

theorem Roomy.safe (h : s.Roomy) : s.Safe :=
  ⟨h.sound, Or.inr fun l hl hin => h.size.symm ▸ h.few l hl hin⟩

theorem Roomy.use (h : s.Roomy) (hi : (s.place i).isSome) (hq : q = i ∨ q ∈ s.held) :
    q ∈ Lru.use s.cache.size s.held i := by
  have hlen : (i :: s.held.erase i).length ≤ blockCacheSize := by
    refine h.few _ (List.nodup_cons.mpr ⟨h.sound.nodup.not_mem_erase, h.sound.nodup.erase i⟩)
      fun j hj => ?_
    rcases List.mem_cons.mp hj with rfl | hj
    · exact hi
    · obtain ⟨x, hx, rfl⟩ := List.mem_map.mp (List.mem_of_mem_erase hj)
      rw [h.sound.placed x hx]
      rfl
  rw [Lru.use, h.size, List.take_of_length_le hlen, List.mem_cons]
  by_cases hqi : q = i
  · exact Or.inl hqi
  · exact Or.inr ((List.mem_erase_of_ne hqi).mpr (hq.resolve_left hqi))

theorem getBlock_place (i : Nat) (dirty : Bool) (s : PageStore) :
    (s.getBlock i dirty).2.place = s.place := by
  unfold PageStore.getBlock PageStore.fetch
  split
  · rfl
  · split <;> rfl

theorem Roomy.getBlock (h : s.Roomy) (i : Nat) : (s.getBlock i false).2.Roomy ∧
    ∀ q, q ∈ s.held ∨ (q = i ∧ (s.getBlock i false).1.isSome) →
      q ∈ (s.getBlock i false).2.held := by
  cases hb : s.content i with
  | none =>
    rw [getBlock_none hb]
    exact ⟨h, fun q hq => hq.resolve_right fun h => by cases h.2⟩
  | some b =>
    have hi : (s.place i).isSome := by
      unfold content at hb
      cases hl : s.cache.lookup i with
      | some x =>
        obtain ⟨hx, rfl⟩ := BlockCache.lookup_some hl
        rw [h.sound.placed x hx]
        rfl
      | none =>
        rw [hl] at hb
        obtain ⟨off, hoff, -⟩ := Option.map_eq_some_iff.mp hb
        rw [hoff]
        rfl
    have hsame := getBlock_place i false s
    obtain ⟨s', hget, hs', -, hsize', hheld⟩ := h.safe.getBlock hb
    rw [hget] at hsame ⊢
    refine ⟨⟨hs'.toSound, hsize'.trans h.size, fun l hl hin => h.few l hl fun j hj => ?_⟩,
      fun q hq => ?_⟩
    · rw [← hsame]
      exact hin j hj
    · simp only [hheld]
      exact h.use hi (hq.symm.imp_left And.left)

end PageStore

/-- The blocks `ps` are in the cache, and nothing has been read from an evicted one. -/
structure WatchedStore.Keeping (ps : List Nat) (s : WatchedStore) : Prop where
  roomy : s.pages.Roomy
  held : ∀ q ∈ ps, q ∈ s.pages.held
  ok : s.ok = true

/-- A walk that evicts nothing, whatever the visitor fetches in between, as long as the
visitor evicts nothing either. -/
theorem WatchedStore.Keeping.walk {α : Type} {w : Visitor WatchedStore α} {ps : List Nat}
    {s : WatchedStore} (hw : ∀ ps i b x, Keeping (i :: ps) x.2 → Keeping (i :: ps) (w i b x).2.2)
    (h : Keeping ps s) (ino : TreeInode) (a : α) :
    Keeping ps (visitInodeBlocks w ino a s).2 := by
  have hsim := VisitSim.of_inv (v := w) (P := fun ps (x : α × WatchedStore) => Keeping ps x.2)
    (fun p ps x hx => ⟨hx.roomy, fun q hq => hx.held q (List.mem_cons_of_mem p hq), hx.ok⟩)
    (fun ps i x hx => by
      obtain ⟨hroomy, hheld⟩ := hx.roomy.getBlock i
      refine ⟨hroomy, fun q hq => hheld q ?_, hx.ok⟩
      rw [WatchedStore.getBlock_eq] at hq
      split at hq
      · rename_i hsome
        rcases List.mem_cons.mp hq with rfl | hq
        · exact Or.inr ⟨rfl, hsome⟩
        · exact Or.inl (hx.held q hq)
      · exact Or.inl (hx.held q hq))
    (fun ps p x hp hx => by rw [peek_held (hx.held p hp)]; exact hx) hw
  exact (hsim.visitInodeBlocks ps ino (a := a) (b := a) (s := s) (t := s) ⟨rfl, h⟩).2

namespace FS

variable {s : FS} {d : Nat}

/-- All blocks in use can be in `block_cache_` at the same time. -/
def Cacheable (s : FS) : Prop :=
  s.groups.super.sCount .block ≤ Groups.baseCount .block + blockCacheSize

instance (s : FS) : Decidable s.Cacheable := inferInstanceAs (Decidable (_ ≤ _))

theorem Cacheable.length_le (h : s.Cacheable) (hg : s.groups.Books) {l : List Nat} (hl : l.Nodup)
    (ha : ∀ b ∈ l, s.groups.allocated .block b = true) : l.length ≤ blockCacheSize := by
  have := hg.length_le hl ha
  unfold Cacheable at h
  omega

/-- The store holds blocks that are in use in `s`. -/
theorem Cacheable.roomy (h : s.Cacheable) (hg : s.groups.Books) {p : PageStore} (hp : p.Sound)
    (hsize : p.cache.size = blockCacheSize)
    (hplace : ∀ i, (p.place i).isSome → s.groups.allocated .block i = true) : p.Roomy :=
  ⟨hp, hsize, fun _ hl hin => h.length_le hg hl fun b hb => hplace b (hin b hb)⟩

theorem Cacheable.blocks_le (h : s.Cacheable) (hs : s.Clean s.groups)
    (hd : s.groups.allocated .inode d = true) :
    (s.inodes d).iBlock.length ≤ blockCacheSize :=
  h.length_le hs.books (hs.nodup d hd) fun b hb => hs.owned.allocated d b ⟨hd, hb⟩

/-- `num_block_groups` can count the block groups, and `block_cache_` can hold all blocks. -/
structure Modest (s : FS) : Prop where
  groups : s.groups.groupCount ≤ 33
  blocks : s.Cacheable

instance (s : FS) : Decidable s.Modest :=
  decidable_of_iff (s.groups.groupCount ≤ 33 ∧ s.Cacheable) ⟨fun h => ⟨h.1, h.2⟩,
    fun h => ⟨h.1, h.2⟩⟩

/-- What the code does through `block_cache_` is what the namespace does on lists of
blocks: a walk calls its visitor on the same blocks, and nothing leaves the cache, so that
a block is still there when the change of a visitor to it is marked. -/
structure Served (s : FS) : Prop where
  walks : ∀ d, s.groups.allocated .inode d = true → ∀ ino p, s.Paged d ino p →
    ∀ (α : Type) (v : Nat → α → Bool × α) (a : α),
      (NaiveFS.visitInodeBlocks (onPages v) ino a ⟨p, true⟩).1 = s.visitInodeBlocks d v a ∧
        (NaiveFS.visitInodeBlocks (onPages v) ino a ⟨p, true⟩).2.ok = true
  stays : ∀ p : PageStore, p.Sound → p.cache.size = blockCacheSize →
    (∀ i, (p.place i).isSome → s.groups.allocated .block i = true) →
    ∀ (α : Type) (w : Visitor WatchedStore α),
      (∀ ps i b x, WatchedStore.Keeping (i :: ps) x.2 →
      WatchedStore.Keeping (i :: ps) (w i b x).2.2) →
      ∀ ino a, WatchedStore.Keeping p.held (NaiveFS.visitInodeBlocks w ino a ⟨p, true⟩).2

theorem Cacheable.served (h : s.Cacheable) (hs : s.Clean s.groups) : s.Served where
  walks d hd _ _ hp _ v a := by
    have hle := h.blocks_le hs hd
    exact ⟨hp.visit (Nat.lt_of_le_of_lt hle (by decide)) v a,
      hp.held (Nat.le_trans hle (by decide)) v a⟩
  stays p hp hsize hplace _ _ hw ino a := by
    have hkeep : WatchedStore.Keeping p.held ⟨p, true⟩ :=
      ⟨h.roomy hs.books hp hsize hplace, fun _ hq => hq, rfl⟩
    exact hkeep.walk hw ino a

end FS

/-! ## Any list of blocks has its pointers -/

theorem live_cell {n : Nat} {p q : Pos} {w : Nat} (hp : Live n p) (h : slotOf p = .cell q w) :
    Live n q := by
  cases p <;> simp only [slotOf, Live] at h hp <;> (try split_ifs at h) <;>
    simp only [Slot.cell.injEq, reduceCtorEq] at h <;> obtain ⟨rfl, rfl⟩ :=
    h <;> simp only [Live] <;> omega

open Classical in
theorem exists_ptrTree {n : Nat} (hn : n ≤ 2 ^ 29) {loc : Pos → Nat}
    (hinj : ∀ p q, Live n p → Live n q → loc p = loc q → p = q)
    (hlt : ∀ p, Live n p → loc p < 2 ^ 32) :
    ∃ root heap, PtrTree (n := blockSize) slotOf root heap (Live n) loc := by
  let target (s : Slot Pos) : Nat := if h : ∃ p, Live n p ∧ slotOf p = s then loc h.choose else 0
  have htarget : ∀ p, Live n p → target (slotOf p) = loc p := by
    intro p hp
    have h : ∃ q, Live n q ∧ slotOf q = slotOf p := ⟨p, hp, rfl⟩
    simp only [target, dif_pos h]
    rw [slotOf_injective h.choose_spec.2]
  refine ⟨fun j => target (.root j), fun i => if h : ∃ q, Live n q ∧ loc q = i then
    some (Bytes.ofWords fun w => target (.cell h.choose w)) else none,
    ⟨fun p hp => ?_, hinj, fun p j hp hs => ?_, fun p q w hp hs => ?_⟩⟩
  · rw [dif_pos ⟨p, hp, rfl⟩]
    rfl
  · rw [← hs]
    exact htarget p hp
  · have hq := live_cell hp hs
    have h : ∃ q', Live n q' ∧ loc q' = loc q := ⟨q, hq, rfl⟩
    refine ⟨hq, _, dif_pos h, ?_⟩
    rw [Bytes.word_ofWords _ (slotOf_cell hp hn hs).2, hinj _ _ h.choose_spec.1 hq h.choose_spec.2,
      ← hs, htarget p hp, Nat.mod_eq_of_lt (hlt p hp)]

/-- The blocks `L` in file order, and the pointer blocks from `m` on. -/
def layOut (L : List Nat) (m : Nat) : Pos → Nat
  | .data k => L.getD k 0
  | .ind => m
  | .dind => m + 1
  | .dchild c => m + 2 + c
  | _ => 0

theorem layOut_data {L : List Nat} {m : Nat} (hlt : ∀ b ∈ L, b < m) {k : Nat} (hk : k < L.length) :
    layOut L m (.data k) < m := hlt _ (by simp [layOut, hk])

theorem layOut_injective {L : List Nat} {m : Nat} (hnodup : L.Nodup) (hlt : ∀ b ∈ L, b < m)
    (hn : L.length ≤ 1049612) {p q : Pos} (hp : Live L.length p) (hq : Live L.length q)
    (heq : layOut L m p = layOut L m q) : p = q := by
  cases p <;> cases q <;> simp only [Live] at hp hq <;> try omega
  case data.data k k' =>
    simp only [layOut, List.getD_eq_getElem _ _ hp, List.getD_eq_getElem _ _ hq] at heq
    rw [(hnodup.getElem_inj_iff).mp heq]
  all_goals first
    | rfl
    | have := layOut_data hlt hp
      simp only [layOut] at heq this
      omega
    | have := layOut_data hlt hq
      simp only [layOut] at heq this
      omega
    | simp only [layOut] at heq
      simp only [Pos.dchild.injEq]
      omega

namespace FS

variable {s : FS} {d : Nat}

theorem exists_paged {m : Nat} (hnodup : (s.inodes d).iBlock.Nodup)
    (hlt : ∀ b ∈ (s.inodes d).iBlock, b < m) (hm : m + 1026 ≤ 2 ^ 32)
    (hn : (s.inodes d).iBlock.length ≤ 1049612) : ∃ ino p, s.Paged d ino p := by
  generalize hL : (s.inodes d).iBlock = L at *
  have hbound : ∀ p, Live L.length p → layOut L m p < 2 ^ 32 := by
    intro p hp
    cases p with
    | data k => exact Nat.lt_of_lt_of_le (layOut_data hlt hp) (by omega)
    | _ => simp only [Live] at hp; simp only [layOut]; omega
  obtain ⟨root, heap, t⟩ := exists_ptrTree (Nat.le_trans hn (by decide))
    (fun p q => layOut_injective hnodup hlt hn) hbound
  refine ⟨{ Inode.init 0 with iBlocks := 8 * L.length, iBlock := root }, .cold (.full heap),
    .cold (.full heap), rfl, by rw [hL], layOut L m, ?_, ?_⟩
  · rw [hL, PageStore.cold_content]
    exact t
  · rw [hL]
    apply List.ext_getElem
    · rw [stretch_length]
      omega
    · intro k h1 h2
      simp [stretch, layOut, h1]

end FS

end NaiveFS
