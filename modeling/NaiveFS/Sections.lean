import NaiveFS.PageStore
import NaiveFS.Lib.Runs

/-!
# Concurrent calls of get_block

A call of `get_block` has a section under the shared lock, with a lookup and the
copy on a hit, and after a miss one under the exclusive lock, with a second lookup,
the load of the block if it is still missing, and the copy. A run is any
interleaving of the sections of any number of calls.
-/

namespace NaiveFS

open BlockCache

/-- A call; a dirty one copies `buf` into the block. -/
structure BlockCall where
  index : Nat
  dirty : Bool
  offset : Nat
  buf : List UInt8

namespace PageStore

/-- The `memcpy` of a call. -/
def copied (s : PageStore) (c : BlockCall) : PageStore :=
  if c.dirty then { s with cache := s.cache.poke c.index fun b => b.splice c.offset c.buf } else s

/-- The block that the next insertion writes to the disk. -/
def spilled (s : PageStore) : Option Nat :=
  if s.cache.nodes.length < s.cache.size then none
  else
    match s.cache.nodes.getLast? with
    | some y => if y.dirty then some y.index else none
    | none => none

end PageStore

/-- `missed k` is the call of thread `k` between its two sections. The ghost `unsaved`
lists the blocks of completed dirty calls that were not written to the disk since
the copy. -/
structure Threads where
  pages : PageStore
  missed : Nat → Option BlockCall
  unsaved : List Nat

inductive LockSection where
  | shared (k : Nat) (c : BlockCall)
  | exclusive (k : Nat)

namespace Threads

def start (s : PageStore) : Threads := ⟨s, fun _ => none, []⟩

/-- The copy and the return. -/
def finish (t : Threads) (c : BlockCall) (pages : PageStore) : Threads :=
  { t with pages := pages.copied c, unsaved := if c.dirty then c.index :: t.unsaved else t.unsaved }

def shared (t : Threads) (k : Nat) (c : BlockCall) : Threads :=
  match t.pages.cache.get c.index c.dirty with
  | some (_, cache) => t.finish c { t.pages with cache := cache }
  | none => { t with missed := Function.update t.missed k (some c) }

def exclusive (t : Threads) (k : Nat) (c : BlockCall) : Threads :=
  let t := { t with missed := Function.update t.missed k none }
  -- the second lookup is made without `dirty`
  match t.pages.fetch c.index false c.dirty with
  | (none, _) => t
  | (some _, pages) =>
    let unsaved := if (t.pages.cache.lookup c.index).isSome then t.unsaved
      else t.unsaved.filter fun i => some i ≠ t.pages.spilled
    { t with unsaved := unsaved }.finish c pages

def step (t : Threads) : LockSection → Option Threads
  | .shared k c =>
    match t.missed k with
    | some _ => none
    | none => some (t.shared k c)
  | .exclusive k => (t.missed k).map (t.exclusive k)

end Threads

/-! ## Dirty nodes -/

namespace PageStore

def Dirty (s : PageStore) (i : Nat) : Prop := ∃ x, s.cache.lookup i = some x ∧ x.dirty = true

variable {s : PageStore} {i j : Nat} {x : CacheNode} {c : BlockCall}

theorem get_hit (hl : s.cache.lookup i = some x) (dirty : Bool) :
    s.cache.get i dirty = some (x.block, (s.touched x dirty).cache) := by
  obtain ⟨-, rfl⟩ := lookup_some hl
  unfold BlockCache.get
  rw [hl]
  rfl

theorem touched_lookup_self (dirty : Bool) :
    (s.touched x dirty).cache.lookup x.index = some { x with dirty := x.dirty || dirty } := by
  rw [touched_lookup, if_pos rfl]

theorem fetch_hit (hl : s.cache.lookup i = some x) (mark dirty : Bool) :
    s.fetch i mark dirty = (some x.block, s.touched x mark) := by
  unfold fetch
  rw [get_hit hl]
  rfl

theorem fetch_miss (hl : s.cache.lookup i = none) {off : Nat} (hp : s.place i = some off)
    (mark dirty : Bool) :
    s.fetch i mark dirty = (some (s.disk off),
      s.inserted { index := i, offset := off, block := s.disk off, dirty := dirty }) := by
  unfold fetch BlockCache.get
  simp only [hl, hp, load, BlockCache.insert]
  rfl

theorem fetch_none (hl : s.cache.lookup i = none) (hp : s.place i = none) (mark dirty : Bool) :
    s.fetch i mark dirty = (none, s) := by
  unfold fetch BlockCache.get
  simp only [hl, hp]

theorem Dirty.touched (hl : s.cache.lookup x.index = some x) (hj : s.Dirty j) (dirty : Bool) :
    (s.touched x dirty).Dirty j := by
  obtain ⟨y, hy, hd⟩ := hj
  by_cases hjx : j = x.index
  · subst hjx
    cases hl.symm.trans hy
    exact ⟨_, touched_lookup_self dirty, by simp [hd]⟩
  · exact ⟨y, by rw [touched_lookup, if_neg hjx, hy], hd⟩

theorem Dirty.inserted (hs : s.Sound) (hj : s.Dirty j) (hout : s.cache.lookup x.index = none)
    (hspill : some j ≠ s.spilled) :
    (s.inserted x).Dirty j := by
  obtain ⟨y, hy, hd⟩ := hj
  have hjx : ¬ x.index = j := fun h => by simp [h, hy] at hout
  refine ⟨y, ?_, hd⟩
  unfold lookup at hy ⊢
  simp only [PageStore.inserted, List.find?_cons, hjx, decide_false]
  rcases s.makeRoom_cases with ⟨-, heq⟩ | ⟨hfull, ⟨hnil, heq⟩ | ⟨l, z, hl, heq⟩⟩ <;> rw [heq]
  · exact hy
  · rw [hnil] at hy
    exact hy
  · -- the evicted node is clean, or it was spilled
    rw [hl, List.find?_append] at hy
    have hlast : [z].find? (fun w => w.index = j) = none := by
      by_contra hne
      obtain ⟨w, hw⟩ := Option.ne_none_iff_exists'.mp hne
      have hwz : w = z := by simpa using List.mem_of_find?_eq_some hw
      subst hwz
      have hwj : w.index = j := by simpa using List.find?_some hw
      have hy' := lookup_mem hs (x := w) (by simp [hl])
      unfold lookup at hy'
      rw [hl, List.find?_append, hwj, hy] at hy'
      cases hy'
      refine hspill ?_
      unfold spilled
      rw [if_neg (Nat.not_lt.mpr hfull), hl]
      simp [hd, hwj]
    rwa [hlast, Option.or_none] at hy

theorem copied_lookup (s : PageStore) (c : BlockCall) (j : Nat) : (s.copied c).cache.lookup j =
    (s.cache.lookup j).map fun x => if c.dirty = true ∧ x.index = c.index then
      { x with block := x.block.splice c.offset c.buf } else x := by
  unfold copied
  cases hd : c.dirty with
  | false => simp
  | true =>
    simp only [if_true, true_and, lookup, poke, List.find?_map]
    congr 2
    funext x
    by_cases hx : x.index = c.index <;> simp [hx]

theorem copied_dirty : (s.copied c).Dirty j ↔ s.Dirty j := by
  unfold Dirty
  rw [copied_lookup]
  constructor
  · rintro ⟨x, hx, hd⟩
    obtain ⟨y, hy, rfl⟩ := Option.map_eq_some_iff.mp hx
    refine ⟨y, hy, ?_⟩
    split at hd <;> exact hd
  · rintro ⟨x, hx, hd⟩
    refine ⟨_, by rw [hx]; rfl, ?_⟩
    simp only
    split <;> exact hd

theorem Sound.copied (hs : s.Sound) (h : c.dirty = true → s.Dirty c.index) :
    (s.copied c).Sound := by
  unfold PageStore.copied
  by_cases hc : c.dirty = true
  · rw [if_pos hc]
    obtain ⟨x, hl, hd⟩ := h hc
    obtain ⟨hx, hi⟩ := lookup_some hl
    have hsound : (s.altered x { x with block := x.block.splice c.offset c.buf } s.disk).Sound :=
      hs.altered hx (by rfl) (by rfl) (fun _ _ => rfl) fun h => by simp [hd] at h
    have heq : s.altered x { x with block := x.block.splice c.offset c.buf } s.disk =
        { s with cache := s.cache.poke c.index fun b => b.splice c.offset c.buf } := by
      unfold PageStore.altered poke
      simp only [mk.injEq, BlockCache.mk.injEq, and_true, true_and]
      apply List.map_congr_left
      intro z hz
      by_cases hzx : z.index = x.index
      · rw [List.inj_on_of_nodup_map hs.nodup hz hx hzx, ← hi]
      · simp [hzx, ← hi]
    rwa [heq] at hsound
  · rw [if_neg hc]
    exact hs

end PageStore

/-! ## Runs -/

namespace Threads

open PageStore

/-- The blocks of completed dirty calls are dirty in the cache, or on the disk. -/
def Marked (t : Threads) : Prop := ∀ i ∈ t.unsaved, t.pages.Dirty i

/-- A dirty call that finds its block with the second lookup only finds it dirty. -/
def FindsDirty (t : Threads) : LockSection → Prop
  | .shared _ _ => True
  | .exclusive k =>
    ∀ c x, t.missed k = some c → c.dirty = true → t.pages.cache.lookup c.index = some x →
      x.dirty = true

structure Ready (t : Threads) : Prop where
  sound : t.pages.Sound
  marked : t.Marked

variable {t t' : Threads} {s : PageStore} {c : BlockCall} {k : Nat}

theorem ready_finish (hs : s.Sound) (hold : ∀ i ∈ t.unsaved, s.Dirty i)
    (hself : c.dirty = true → s.Dirty c.index) :
    (t.finish c s).Ready := by
  refine ⟨hs.copied hself, fun i hi => copied_dirty.mpr ?_⟩
  unfold finish at hi
  simp only at hi
  split at hi
  · rename_i hc
    rcases List.mem_cons.mp hi with rfl | hi
    · exact hself hc
    · exact hold i hi
  · exact hold i hi

theorem Ready.shared (ht : t.Ready) : (t.shared k c).Ready := by
  unfold Threads.shared
  cases hl : t.pages.cache.lookup c.index with
  | none =>
    have hmiss : t.pages.cache.get c.index c.dirty = none := by
      unfold BlockCache.get
      rw [hl]
    rw [hmiss]
    exact ⟨ht.sound, ht.marked⟩
  | some x =>
    obtain ⟨hx, hi⟩ := lookup_some hl
    rw [get_hit hl]
    refine ready_finish (ht.sound.touched hx c.dirty)
      (fun i hu => (ht.marked i hu).touched (hi ▸ hl) c.dirty) fun hc => ?_
    rw [← hi]
    exact ⟨_, touched_lookup_self c.dirty, by simp [hc]⟩

theorem Ready.exclusive (ht : t.Ready) (hk : t.missed k = some c)
    (hg : t.FindsDirty (.exclusive k)) : (t.exclusive k c).Ready := by
  unfold Threads.exclusive
  cases hl : t.pages.cache.lookup c.index with
  | some x =>
    obtain ⟨hx, hi⟩ := lookup_some hl
    simp only [fetch_hit hl, hl, Option.isSome_some, if_true]
    refine ready_finish (ht.sound.touched hx false)
      (fun i hu => (ht.marked i hu).touched (hi ▸ hl) false) fun hc => ?_
    rw [← hi]
    exact ⟨_, touched_lookup_self false, by simp [hg c x hk hc hl]⟩
  | none =>
    cases hp : t.pages.place c.index with
    | none =>
      simp only [fetch_none hl hp]
      exact ⟨ht.sound, ht.marked⟩
    | some off =>
      simp only [fetch_miss hl hp, hl, Option.isSome_none, Bool.false_eq_true, if_false]
      refine ready_finish (ht.sound.inserted hl hp fun _ => rfl) (fun i hu => ?_) fun hc => ?_
      · obtain ⟨hmem, hspill⟩ := List.mem_filter.mp hu
        exact (ht.marked i hmem).inserted ht.sound hl (by simpa using hspill)
      · exact ⟨_, by simp [PageStore.inserted, lookup]; rfl, hc⟩

theorem Ready.step {e : LockSection} (ht : t.Ready) (hg : t.FindsDirty e)
    (hs : t.step e = some t') : t'.Ready := by
  cases e with
  | shared k c =>
    unfold Threads.step at hs
    cases hk : t.missed k with
    | some c' => simp [hk] at hs
    | none =>
      simp only [hk, Option.some.injEq] at hs
      rw [← hs]
      exact ht.shared
  | exclusive k =>
    obtain ⟨c, hk, rfl⟩ := Option.map_eq_some_iff.mp hs
    exact ht.exclusive hk hg

theorem lost_mark {e : LockSection} (hs : t.step e = some t') (hg : ¬ t.FindsDirty e) :
    ¬ t'.Marked := by
  cases e with
  | shared k c => exact absurd trivial hg
  | exclusive k =>
    unfold FindsDirty at hg
    push Not at hg
    obtain ⟨c, x, hk, hc, hl, hd⟩ := hg
    obtain ⟨-, hi⟩ := lookup_some hl
    simp only [Threads.step, hk, Option.map_some, Option.some.injEq] at hs
    have heq : t.exclusive k c = { t with missed := Function.update t.missed k none }.finish c
      (t.pages.touched x false) := by
      unfold Threads.exclusive
      simp only [fetch_hit hl, hl, Option.isSome_some, if_true]
    rw [← hs, heq]
    intro hm
    have hmem : c.index ∈ ({ t with missed := Function.update t.missed k none }.finish c
      (t.pages.touched x false)).unsaved := by
      simp [finish, hc]
    obtain ⟨y, hy, hyd⟩ := copied_dirty.mp (hm c.index hmem)
    rw [← hi, touched_lookup_self, Option.some.injEq] at hy
    subst hy
    simp [hd] at hyd

/-- No dirty mark is lost in a run exactly when no dirty call finds with its second
lookup a clean node. -/
theorem marked_iff (s : PageStore) (hs : s.Sound) (es : List LockSection) :
    Runs.Along step Marked es (start s) ↔ Runs.Guarded step FindsDirty es (start s) := by
  have hstart : (start s).Ready := ⟨hs, fun i hi => (List.not_mem_nil hi).elim⟩
  constructor
  · exact Runs.guarded_of_along (fun _ _ _ ht hg h => ht.step hg h)
      (fun _ _ _ _ h hg => lost_mark h hg) es _ hstart
  · exact Runs.along_of_guarded (fun _ ht => ht.marked) (fun _ _ _ ht hg h => ht.step hg h)
      es _ hstart

/-- An empty cache over a disk of zeros. -/
def blank : PageStore := ⟨⟨blockCacheSize, []⟩, fun _ => Bytes.zero, some⟩

theorem blank_sound : blank.Sound where
  pos := show 0 < blockCacheSize by decide
  length := Nat.zero_le _
  nodup := List.nodup_nil
  placed x hx := absurd hx List.not_mem_nil
  apart i j off hi hj := Option.some.inj (hi.trans hj.symm)
  clean x hx := absurd hx List.not_mem_nil

def reading : BlockCall := ⟨5, false, 0, []⟩

def writing : BlockCall := ⟨5, true, 0, [1]⟩

/-- The writer loads the block. -/
theorem marked_in_turn :
    Runs.Along step Marked [.shared 0 reading, .shared 1 writing, .exclusive 1,
      .exclusive 0] (start blank) := by
  refine (marked_iff blank blank_sound _).mpr ?_
  intro t₁ h₁
  refine ⟨trivial, fun t₂ h₂ => ⟨trivial, fun t₃ h₃ => ?_⟩⟩
  cases h₁
  cases h₂
  refine ⟨fun c x hk _ hl => ?_, fun t₄ _ => ?_⟩
  · cases hk
    cases hl
  · cases h₃
    refine ⟨fun c x hk hc _ => ?_, trivial⟩
    cases hk
    cases hc

/-- Two calls miss on one block. The reader loads it as clean, the writer finds it with
its second lookup, copies and leaves it clean. -/
theorem reader_first :
    ¬ Runs.Along step Marked [.shared 0 reading, .shared 1 writing, .exclusive 0,
      .exclusive 1] (start blank) := by
  intro h
  have hlast := ((h.2 _ rfl).2 _ rfl).2 _ rfl
  refine lost_mark (t := (((start blank).shared 0 reading).shared 1 writing).exclusive 0 reading)
    (e := .exclusive 1) rfl ?_
    (hlast.2 _ rfl)
  intro hg
  cases hg writing ⟨5, 5, Bytes.zero, false⟩ rfl rfl rfl

end Threads

end NaiveFS
