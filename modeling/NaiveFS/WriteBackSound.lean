import NaiveFS.CacheSound

/-!
# Runs over the write-back cache

`Fresh` says what a reader of an allocated block sees: the bytes last stored in
it since it was allocated. The raw `alloc_block` puts a zeroed block into the
cache without marking it dirty, so a block that is evicted before anything is
stored in it comes back with whatever the disk had there.
-/

namespace NaiveFS

namespace CachedFS

inductive Op where
  | alloc
  | free (i : Nat)
  | read (i : Nat)
  | write (i off : Nat) (buf : List UInt8)
  | allocFor (ino : TreeInode)
  | dentryCreate (last : Option Nat) (parent : TreeInode) (name : List UInt8) (inode mode : Nat)

/-- One call. A copy that leaves the block, or a name that fits into none, is
outside what callers may ask for. -/
def step (s : CachedFS) : Op → Option CachedFS
  | .alloc => some s.allocRaw.2
  | .free i => (s.freeBlock i).map Prod.snd
  | .read i => some (s.getBlock i false).2
  | .write i off buf =>
    if off + buf.length ≤ blockSize then
      match s.getBlock i true with
      | (none, s) => some s
      | (some _, s) => some (s.poke i fun b => b.splice off buf)
    else none
  | .allocFor ino => some (NaiveFS.allocBlock ino s).2.2
  | .dentryCreate last parent name inode mode =>
    if dentrySize + name.length ≤ blockSize then
      some (NaiveFS.dentryCreate last parent name inode mode s).2.2
    else none

/-- A formatted file system over a disk with arbitrary data blocks. -/
def format (disk : Disk) : CachedFS where
  groups := Groups.format
  cache := { size := blockCacheSize, nodes := [] }
  disk := disk
  stored _ := Bytes.zero

/-- `get_block` of an allocated block returns what was last stored in it, and a
clean node agrees with the disk. -/
def Fresh (s : CachedFS) : Prop :=
  (∀ i, s.groups.allocated .block i = true → ∃ s', s.getBlock i false = (some (s.stored i), s')) ∧
    ∀ x ∈ s.cache.nodes, x.dirty = false → s.disk x.offset = x.block

/-- The disk has zeros where the next block to be handed out lies. -/
def ZeroNext (s : CachedFS) : Prop :=
  ∀ i, s.groups.allocBlock.1 = some i → s.disk (blockOffset i) = Bytes.zero

/-- The entry fits into the directory's last block. -/
def Fits (s : CachedFS) (last : Option Nat) (name : List UInt8) : Prop :=
  ∃ i b, last = some i ∧ (s.getBlock i false).1 = some b ∧
    DentryBlock.size b + dentrySize + name.length ≤ blockSize

/-- The condition on a step. A block that the call leaves unwritten is zero on
the disk; `dentry_create` leaves one unwritten when it cannot be mapped. No double
indirect block is added at the triple level; the blocks needed come from the first 15
groups; only allocated blocks are freed. -/
def Tidy (s : CachedFS) : Op → Prop
  | .alloc => s.groups.Room 1 ∧ s.ZeroNext
  | .free i => s.groups.allocated .block i = true
  | .read _ => True
  | .write _ _ _ => True
  | .allocFor ino => s.groups.Room 3 ∧ ¬ NewDouble (numAlignedBlocks ino.iBlocks) ∧ s.ZeroNext
  | .dentryCreate last parent name _ _ =>
    s.Fits last name ∨
      s.groups.Room 3 ∧ ¬ NewDouble (numAlignedBlocks parent.iBlocks) ∧
        (s.WayOpen parent (numAlignedBlocks parent.iBlocks) ∨ s.ZeroNext)

/-! ## One step -/

variable {m : Nat} {s : CachedFS} {disk : Disk} {hot young : List Nat}

theorem Coherent.fresh (h : Coherent [] [] m s) : Fresh s := by
  refine ⟨fun i hi => ?_, fun x hx hd => h.clean x hx hd List.not_mem_nil⟩
  obtain ⟨s', heq, -⟩ := h.getBlock (by decide) false hi
  exact ⟨s', heq⟩

theorem Coherent.settle (h : Coherent [] [] m s) : Coherent [] [] 0 s := h.lessRoom (Nat.zero_le m)

theorem Kept.settle (h : Kept hot [] m s) : Coherent [] [] 0 s := by
  obtain ⟨hot', -, h'⟩ := h
  exact h'.forget.settle

theorem Kept.appendDentry {i : Nat} (h : Kept hot [i] m s) (hi : i ∈ hot) (b : Block)
    (name : List UInt8) (inode mode : Nat) :
    Coherent [] [] 0 (NaiveFS.appendDentry i b name inode mode s) := by
  obtain ⟨hot', hsub, h'⟩ := h
  have hpoke := h'.poke (hsub hi)
    fun c => c.splice (DentryBlock.size b) (DentryBlock.entryBytes name inode mode)
  exact ((hpoke.modify i (l := []) (by simp) (List.nil_subset _)).forget).settle

theorem Coherent.appendNewDentry (h : Coherent hot [] 3 s) (hlt : hot.length + 4 < blockCacheSize)
    {parent : TreeInode} (hn : ¬ NewDouble (numAlignedBlocks parent.iBlocks)) (name : List UInt8)
    (inode mode : Nat) (hz : s.WayOpen parent (numAlignedBlocks parent.iBlocks) ∨ s.ZeroNext) :
    Coherent [] [] 0 (NaiveFS.appendNewDentry parent name inode mode s).2.2 := by
  obtain ⟨i, res, parent', s', hidx, -, heq, hres, hk, hk'⟩ :=
    h.allocBlock (m := 0) hlt (by omega) parent hn
  unfold NaiveFS.appendNewDentry
  rw [heq]
  rcases hres with ⟨rfl, hblocked⟩ | rfl
  · rcases hz with hz | hz
    · exact absurd hz hblocked
    · exact (hk' (hz i hidx)).settle
  · exact hk.appendDentry List.mem_cons_self _ _ _ _

/-- A fetch moves no other block of the disk, so the next free block stays zero. -/
theorem Coherent.zeroNext {s' : CachedFS} (h : Coherent [] [] m s) (hz : s.ZeroNext)
    (hgroups : s'.groups = s.groups)
    (hdisk : ∀ j, s.groups.allocated .block j = false →
      s'.disk (blockOffset j) = s.disk (blockOffset j)) :
    s'.ZeroNext := by
  obtain ⟨n, hn, hled⟩ := h.ledger
  obtain ⟨k, g, halloc, hout, -⟩ := hled.alloc (by omega) .block
  have hk : s.groups.allocBlock.1 = some k := by
    unfold Groups.allocBlock
    rw [halloc]
    rfl
  intro j hj
  rw [hgroups, hk] at hj
  cases hj
  rw [hdisk k hout.free]
  exact hz k hk

theorem Coherent.write (h : Coherent [] [] m s) {i : Nat}
    (hi : s.groups.allocated .block i = true) (f : Block → Block) :
    Coherent [] [] 0 (CachedFS.poke i f (s.getBlock i true).2) := by
  obtain ⟨s', heq, h', -, -, -, hdirty⟩ := h.getBlock (by decide) true hi
  rw [heq]
  have hpoke := h'.poke List.mem_cons_self f
  refine ({ hpoke with clean := fun x hx hd _ => ?_, held := List.nil_subset _ } : Coherent [i] [] m
    _).forget.settle
  refine hpoke.clean x hx hd fun hin => ?_
  obtain ⟨y, hy, rfl⟩ := List.mem_map.mp hx
  simp only [List.mem_singleton] at hin
  have hyi : y.index = i := by
    by_cases hyi : y.index = i
    · exact hyi
    · rwa [if_neg hyi] at hin
  rw [if_pos hyi] at hd
  rw [hdirty y hy hyi rfl] at hd
  cases hd

theorem Coherent.dentryCreate (h : Coherent [] [] m s) {last : Option Nat} {parent : TreeInode}
    {name : List UInt8} {inode mode : Nat}
    (ht : Tidy s (.dentryCreate last parent name inode mode)) :
    Coherent [] [] 0 (NaiveFS.dentryCreate last parent name inode mode s).2.2 := by
  cases last with
  | none =>
    rcases ht with ⟨i, b, hlast, -⟩ | ⟨hroom, hn, hz⟩
    · cases hlast
    · exact (h.withRoom hroom).appendNewDentry (by decide) hn name inode mode hz
  | some i =>
    cases hi : s.groups.allocated .block i with
    | false =>
      have hget : BlockReader.getBlock i false s = (none, s) := h.getBlock_free false hi
      rcases ht with ⟨i', b, hlast, hb, -⟩ | ⟨hroom, hn, hz⟩
      · cases hlast
        rw [h.getBlock_free false hi] at hb
        cases hb
      · simp only [NaiveFS.dentryCreate, hget]
        exact (h.withRoom hroom).appendNewDentry (by decide) hn name inode mode hz
    | true =>
      obtain ⟨s', hget, h', hgroups, hstored, hdisk, -⟩ := h.getBlock (by decide) false hi
      have hget' : BlockReader.getBlock i false s = (some (s.stored i), s') := hget
      by_cases hfull : DentryBlock.size (s.stored i) + dentrySize + name.length > blockSize
      · rcases ht with ⟨i', b, hlast, hb, hfits⟩ | ⟨hroom, hn, hz⟩
        · cases hlast
          rw [hget] at hb
          cases hb
          omega
        · have hroom' : s'.groups.Room 3 := by rw [hgroups]; exact hroom
          have hsame : ∀ j, s.groups.allocated .block j = true →
            s'.groups.allocated .block j = true ∧ s'.stored j = s.stored j := by
            rw [hgroups, hstored]
            exact fun j hj => ⟨hj, rfl⟩
          simp only [NaiveFS.dentryCreate, hget', if_pos hfull]
          exact (h'.withRoom hroom').appendNewDentry (by simp [blockCacheSize]) hn name inode mode
            (hz.imp (WayOpen.mono hsame) fun hz => h.zeroNext hz hgroups hdisk)
      · simp only [NaiveFS.dentryCreate, hget', if_neg hfull]
        have hkept : Kept [i] [i] m s' :=
          ⟨[i], List.Subset.refl _, h'.weaken (List.nil_subset _) (List.Subset.refl _)⟩
        exact hkept.appendDentry List.mem_cons_self _ _ _ _

theorem Coherent.step {s' : CachedFS} {op : Op} (h : Coherent [] [] 0 s) (ht : Tidy s op)
    (hs : CachedFS.step s op = some s') : Coherent [] [] 0 s' := by
  cases op with
  | alloc =>
    obtain ⟨i, s₁, heq, hidx, -, -, hzero, -⟩ :=
      (h.withRoom ht.1).allocRaw (m := 0) (by decide) (by omega)
    simp only [CachedFS.step, heq, Option.some.injEq] at hs
    subst hs
    exact (hzero (ht.2 i hidx)).forget
  | free i =>
    obtain ⟨s₁, heq, h₁⟩ := h.freeBlock ht
    simp only [CachedFS.step, heq, Option.map_some, Option.some.injEq] at hs
    subst hs
    exact h₁
  | read i =>
    cases hs
    rcases h.fetch (by decide) i false with ⟨-, heq⟩ | ⟨s₁, heq, h₁, -⟩
    · have heq' : CachedFS.getBlock i false s = (none, s) := heq
      rw [heq']
      exact h
    · have heq' : CachedFS.getBlock i false s = (some (s.stored i), s₁) := heq
      rw [heq']
      exact h₁.forget
  | write i off buf =>
    simp only [CachedFS.step] at hs
    split at hs
    · cases hi : s.groups.allocated .block i with
      | false =>
        rw [h.getBlock_free true hi] at hs
        cases hs
        exact h
      | true =>
        have hw := h.write hi fun b => b.splice off buf
        obtain ⟨s₁, heq, -⟩ := h.getBlock (by decide) true hi
        rw [heq] at hs hw
        cases hs
        exact hw
    · cases hs
  | allocFor ino =>
    obtain ⟨hroom, hn, hz⟩ := ht
    obtain ⟨i, r, ino', s₁, hidx, -, heq, -, -, hk⟩ :=
      (h.withRoom hroom).allocBlock (m := 0) (by decide) (by omega) ino hn
    simp only [CachedFS.step, heq, Option.some.injEq] at hs
    subst hs
    exact (hk (hz i hidx)).settle
  | dentryCreate last parent name inode mode =>
    simp only [CachedFS.step] at hs
    split at hs
    · cases hs
      exact h.dentryCreate ht
    · cases hs

theorem format_free_block (i : Nat) : Groups.format.allocated .block i = false := by
  cases ha : Groups.format.allocated .block i with
  | false => rfl
  | true =>
    obtain ⟨bg, hfind, -, ht⟩ := Groups.allocated_iff.mp ha
    obtain ⟨-, rfl⟩ := (Groups.format_find _ bg).mp hfind
    exact absurd ht
      (by rw [show Groups.rootGroup.bitmap .block = Bitmap.zero from rfl, Bitmap.test_zero]; decide)

theorem Coherent.format (disk : Disk) : Coherent [] [] 0 (CachedFS.format disk) where
  ledger := ⟨1, by omega, Groups.Ledger.format⟩
  room := room_zero Groups.Ledger.format
  size := rfl
  length := Nat.zero_le _
  nodup := List.nodup_nil
  node x hx := absurd hx List.not_mem_nil
  disk i hi _ := by
    rw [show (CachedFS.format disk).groups = Groups.format from rfl, format_free_block] at hi
    cases hi
  clean x hx := absurd hx List.not_mem_nil
  held := List.Subset.refl _
  recent i hi := absurd hi List.not_mem_nil

/-! ## Whole runs -/

/-- Every state of a run whose steps are all tidy shows what was last stored. -/
theorem fresh_of_tidy (disk : Disk) (ops : List Op)
    (h : Runs.Guarded step Tidy ops (CachedFS.format disk)) :
    Runs.Along step Fresh ops (CachedFS.format disk) :=
  Runs.along_of_guarded (fun _ h => h.fresh) (fun _ _ _ h ht hs => h.step ht hs) ops
    _ (Coherent.format disk) h

theorem fresh_of_tidy_write :
    Runs.Guarded step Tidy [.alloc, .write 0 0 [7]] (CachedFS.format fun _ => Bytes.zero) ∧
      Runs.Along step Fresh [.alloc, .write 0 0 [7]] (CachedFS.format fun _ => Bytes.zero) := by
  have hg : Runs.Guarded step Tidy [.alloc, .write 0 0 [7]] (CachedFS.format fun _ => Bytes.zero) :=
    fun _ _ => ⟨⟨Or.inl (by decide), fun _ _ => rfl⟩, fun _ _ => ⟨trivial, trivial⟩⟩
  exact ⟨hg, fresh_of_tidy _ _ hg⟩

/-! ## A cache full of blocks that were never written -/

/-- After allocations only: the cache holds the youngest blocks, all clean, and
the disk is as it was. -/
structure Untouched (disk : Disk) (young : List Nat) (s : CachedFS) : Prop where
  ledger : s.groups.Ledger 1
  count : s.groups.super.sCount .block = 3 + young.length
  size : s.cache.size = blockCacheSize
  nodes : s.cache.nodes.map CacheNode.index = young.take blockCacheSize
  clean : ∀ x ∈ s.cache.nodes, x.dirty = false
  nodup : young.Nodup
  alloc : ∀ i ∈ young, s.groups.allocated .block i = true
  stored : ∀ i ∈ young, s.stored i = Bytes.zero
  disk : s.disk = disk

theorem release_clean {x : CacheNode} (h : x.dirty = false) (disk : Disk) :
    BlockCache.release x disk = disk := by
  unfold BlockCache.release
  rw [h]
  rfl

theorem Untouched.makeRoom {s : CachedFS} (h : Untouched disk young s) :
    (s.cache.makeRoom s.disk).2 = disk ∧ (s.cache.makeRoom s.disk).1 ⊆ s.cache.nodes ∧
      (s.cache.makeRoom s.disk).1.map CacheNode.index = young.take (blockCacheSize - 1) := by
  have hlen : s.cache.nodes.length = min blockCacheSize young.length := by
    rw [← List.length_map CacheNode.index, h.nodes, List.length_take]
  unfold BlockCache.makeRoom
  by_cases hfull : s.cache.nodes.length < s.cache.size
  · rw [if_pos hfull, h.nodes]
    refine ⟨h.disk, List.Subset.refl _, ?_⟩
    rw [h.size] at hfull
    rw [List.take_of_length_le (by omega), List.take_of_length_le (by omega)]
  · rw [if_neg hfull]
    rw [h.size] at hfull
    have hne : s.cache.nodes ≠ [] := by
      intro h0
      rw [h0] at hfull
      exact hfull (by decide)
    rw [List.getLast?_eq_some_getLast hne]
    refine ⟨?_, List.dropLast_subset _, ?_⟩
    · exact (release_clean (h.clean _ (List.getLast_mem hne)) s.disk).trans h.disk
    · rw [List.map_dropLast, h.nodes, List.dropLast_eq_take, List.take_take, List.length_take]
      congr 1
      omega

theorem Untouched.alloc_step {s : CachedFS} (h : Untouched disk young s)
    (hlt : young.length < 32768) : ∃ i, Untouched disk (i :: young) s.allocRaw.2 := by
  have hfree : s.groups.hasFree .block = true := by
    by_contra hno
    have hfull := h.ledger.count_full (Bool.eq_false_iff.mpr hno)
    rw [h.count, Finset.sum_range_one] at hfull
    simp only [Groups.baseCount, Groups.capacity] at hfull
    omega
  obtain ⟨i, g, heq, hout, hled⟩ := h.ledger.alloc (by omega) .block
  rw [if_pos hfree] at hled
  have hafter : ∀ j, g.allocated .block j = if j = i then true else
    s.groups.allocated .block j := by
    intro j
    rw [hout.after]
    simp
  have hnew : i ∉ young := fun hin => by
    have := h.alloc i hin
    rw [hout.free] at this
    cases this
  have hlookup : s.cache.lookup i = none := by
    cases hl : s.cache.lookup i with
    | none => rfl
    | some x =>
      obtain ⟨hx, rfl⟩ := BlockCache.lookup_some hl
      have hin : x.index ∈ young.take blockCacheSize := h.nodes ▸ List.mem_map_of_mem hx
      exact absurd (List.mem_of_mem_take hin) hnew
  obtain ⟨bg, hfind, -⟩ := Groups.allocated_iff.mp ((hafter i).trans (if_pos rfl))
  have hval : s.groups.allocBlock = (some i, g) := by
    unfold Groups.allocBlock
    rw [heq]
    rfl
  obtain ⟨hdisk, hsub, hmap⟩ := h.makeRoom
  refine ⟨i, ?_⟩
  unfold CachedFS.allocRaw
  rw [hval]
  simp only [hfind, CachedFS.insertNode, BlockCache.insert, hlookup]
  have hcount := hout.count .block
  rw [if_pos rfl, h.count] at hcount
  refine ⟨hled, hcount.trans (by rw [List.length_cons]; omega), h.size, ?_, fun x hx => ?_,
    List.nodup_cons.mpr ⟨hnew, h.nodup⟩, fun j hj => ?_, fun j hj => ?_, hdisk⟩
  · simp only [List.map_cons, hmap]
    rfl
  · rcases List.mem_cons.mp hx with rfl | hx
    · rfl
    · exact h.clean x (hsub hx)
  · rw [hafter]
    rcases List.mem_cons.mp hj with rfl | hj
    · exact if_pos rfl
    · split
      · rfl
      · exact h.alloc j hj
  · simp only [Function.update_apply]
    split
    · rfl
    · rename_i hne
      exact h.stored j ((List.mem_cons.mp hj).resolve_left hne)

theorem Untouched.format (disk : Disk) : Untouched disk [] (CachedFS.format disk) where
  ledger := Groups.Ledger.format
  count := rfl
  size := rfl
  nodes := rfl
  clean _ hx := absurd hx List.not_mem_nil
  nodup := List.nodup_nil
  alloc _ hi := absurd hi List.not_mem_nil
  stored _ hi := absurd hi List.not_mem_nil
  disk := rfl

theorem Untouched.run {s : CachedFS} (h : Untouched disk young s) (n : Nat)
    (hn : young.length + n ≤ 32768) :
    ∃ young' s', Runs.run step (List.replicate n .alloc) s = some s' ∧ Untouched disk young' s' ∧
      young'.length = young.length + n := by
  induction n generalizing young s with
  | zero => exact ⟨young, s, rfl, h, rfl⟩
  | succ n ih =>
    obtain ⟨i, h'⟩ := h.alloc_step (by omega)
    obtain ⟨young', s', hrun, hs', hlen⟩ := ih h' (by rw [List.length_cons]; omega)
    exact ⟨young', s', hrun, hs', by rw [hlen, List.length_cons]; omega⟩

/-- The oldest of 1025 blocks has been evicted, and what the disk had is read back. -/
theorem Untouched.not_fresh {s : CachedFS} (h : Untouched disk young s)
    (hlen : young.length = blockCacheSize + 1) (hdisk : ∀ off, disk off ≠ Bytes.zero) :
    ¬ Fresh s := by
  rintro ⟨hfresh, -⟩
  have hlt : blockCacheSize < young.length := by omega
  have hmem : young[blockCacheSize] ∈ young := List.getElem_mem hlt
  generalize hi : young[blockCacheSize] = i at hmem
  have hout : s.cache.lookup i = none := by
    cases hl : s.cache.lookup i with
    | none => rfl
    | some x =>
      obtain ⟨hx, rfl⟩ := BlockCache.lookup_some hl
      have hin : x.index ∈ young.take blockCacheSize := h.nodes ▸ List.mem_map_of_mem hx
      obtain ⟨j, hj, hjx⟩ := List.mem_take_iff_getElem.mp hin
      have := (h.nodup.getElem_inj_iff (i := j) (j := blockCacheSize)).mp (by rw [hjx, hi])
      omega
  obtain ⟨s', heq⟩ := hfresh i (h.alloc i hmem)
  obtain ⟨bg, hfind, -, ht⟩ := Groups.allocated_iff.mp (h.alloc i hmem)
  unfold CachedFS.getBlock BlockCache.get at heq
  simp only [hout, Groups.findGroup, hfind, ht, if_true] at heq
  rw [h.stored i hmem, h.disk] at heq
  exact hdisk _ (Option.some.inj (congrArg Prod.fst heq))

theorem evicted_block_is_stale :
    ¬ Runs.Along step Fresh (List.replicate 1025 .alloc) (CachedFS.format fun _ => fun _ => 1) := by
  intro h
  obtain ⟨young, s, hrun, hs, hlen⟩ := (Untouched.format fun _ => fun _ => 1).run 1025 (by simp)
  refine hs.not_fresh hlen (fun off h0 => ?_) (h.last hrun)
  exact absurd (congrFun h0 ⟨0, by decide⟩) (by decide)

end CachedFS

end NaiveFS
