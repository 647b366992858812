import NaiveFS.UnmountSound
import NaiveFS.WriteBackSound

/-!
# Blocks across sessions

The ghost of the bytes last stored in each block is carried over a remount. Under the
conditions of `Tidy` on the calls, a read of an allocated block finds these bytes in
every session, through calls, `fsync` and further mounts.
-/

namespace NaiveFS

namespace CachedFS

variable {s : CachedFS}

theorem Coherent.setGroups (h : Coherent [] [] 0 s) {n : Nat} {g : Groups} (hled : g.Ledger n)
    (hn : n ≤ 15) (hsame : ∀ i, g.allocated .block i = s.groups.allocated .block i) :
    Coherent [] [] 0 { s with groups := g } where
  ledger := ⟨n, hn, hled⟩
  room := room_zero hled
  size := h.size
  length := h.length
  nodup := h.nodup
  node x hx := by
    obtain ⟨ha, hrest⟩ := h.node x hx
    exact ⟨(hsame x.index).trans ha, hrest⟩
  disk i hi := h.disk i ((hsame i).symm.trans hi)
  clean := h.clean
  held := h.held
  recent := h.recent

theorem Coherent.flush (h : Coherent [] [] 0 s) (p : CacheNode → Bool) (disk : Disk)
    (hout : ∀ i, s.groups.allocated .block i = true → i ∉ s.cache.nodes.map CacheNode.index →
      disk (blockOffset i) = s.disk (blockOffset i))
    (hin : ∀ x ∈ s.cache.nodes, disk (blockOffset x.index) =
      if p x && x.dirty then x.block else s.disk (blockOffset x.index)) :
    Coherent [] [] 0 { s with
      disk := disk
      cache :=
      { s.cache with
        nodes := s.cache.nodes.map fun x => if p x then { x with dirty := false } else x } } := by
  have hindex : ∀ x, (if p x then { x with dirty := false } else x : CacheNode).index = x.index :=
    fun x => by split <;> rfl
  have hmap : (s.cache.nodes.map fun x => if p x then { x with dirty := false } else x).map
    CacheNode.index =
      s.cache.nodes.map CacheNode.index := by
    rw [List.map_map]
    exact List.map_congr_left fun x _ => hindex x
  refine ⟨h.ledger, h.room, h.size, ?_, ?_, ?_, fun i hi hnot => ?_, ?_, h.held,
    fun i hi => absurd hi List.not_mem_nil⟩
  · rw [List.length_map]
    exact h.length
  · rw [hmap]
    exact h.nodup
  · intro y hy
    obtain ⟨x, hx, rfl⟩ := List.mem_map.mp hy
    have hnode := h.node x hx
    split <;> exact hnode
  · rw [hmap] at hnot
    exact (hout i hi hnot).trans (h.disk i hi hnot)
  · intro y hy hd _
    obtain ⟨x, hx, rfl⟩ := List.mem_map.mp hy
    obtain ⟨-, hoff, -⟩ := h.node x hx
    have hdisk := hin x hx
    have hclean : x.dirty = false → s.disk (blockOffset x.index) = x.block := fun hc => by
      rw [← hoff]
      exact h.clean x hx hc List.not_mem_nil
    cases hp : p x with
    | true =>
      simp only [if_true, hoff]
      rw [hdisk]
      cases hx' : x.dirty with
      | true => simp [hp]
      | false => simpa [hp] using hclean hx'
    | false =>
      simp only [hp, Bool.false_eq_true, if_false] at hd ⊢
      rw [hoff, hdisk, hp]
      simpa using hclean hd

end CachedFS

namespace SyncFS

open CachedFS

variable {s s' : SyncFS} {image : SuperBlock → Block}

/-! ## Calls -/

/-- The ghost goes from one session to the next. -/
def carriedStep (image : SuperBlock → Block) (s : SyncFS) : SessionOp → Option SyncFS
  | .call op => step image s op
  | .remount buf =>
    (mount (s.unmount buf)).map fun s' =>
      { s' with store := { s'.store with stored := s.store.stored } }

/-- Calls on blocks are tidy; the inode table blocks that lie over data blocks are not in
memory when groups are written. -/
def Careful (s : SyncFS) : SessionOp → Prop
  | .call (.allocInode _) => (s.groups.alloc .inode).2.groupCount ≤ 15
  | .call (.addEntry parent last name index mode) =>
    ∀ ino, (s.loadTable (groupOf parent) (tableOf parent)).record parent = some ino →
      Tidy s.store (.dentryCreate last ino name index mode)
  | .call (.allocFor id) => ∀ c, s.opm id = some c → Tidy s.store (.allocFor c)
  | .call (.fsync id) => ∀ g, (s.commit id).tables g (numInodeTableBlocks - 1) = none
  | .call (.freeInode id) => id ≠ rootInode
  | .call _ => True
  | .remount buf => s.Calm (.remount buf)

/-- A file system whose blocks show what was last stored in them. -/
structure Sound (s : SyncFS) : Prop where
  mounted : Mounted s
  coherent : Coherent [] [] 0 s.store

theorem Sound.seated (h : Sound s) : Seated s.store := by
  obtain ⟨n, hn, hled⟩ := h.coherent.ledger
  have hcount := hled.groupCount_eq
  exact h.mounted.synced.seated.resolve_left (by omega)

theorem Careful.call {op : Op} (h : s.Careful (.call op)) : op ≠ .freeInode rootInode := by
  rintro rfl
  exact h rfl

theorem Sound.allocInode (h : Sound s) {mode : Nat}
    (hfew : (s.groups.alloc .inode).2.groupCount ≤ 15) :
    Coherent [] [] 0 (s.allocInode mode).store := by
  obtain ⟨i, heq, hout, hbooks⟩ := h.seated.books.alloc .inode (Nat.le_trans hfew (by decide))
  have hsame : ∀ j, (s.store.groups.alloc .inode).2.allocated .block j =
    s.store.groups.allocated .block j := fun j => by
    rw [hout.after, if_neg (by simp)]
  have hstore : (s.allocInode mode).store =
    { s.store with groups := (s.store.groups.alloc .inode).2 } := by
    unfold SyncFS.allocInode
    rw [show s.groups.alloc .inode = _ from heq]
    simp
  rw [hstore]
  exact h.coherent.setGroups hbooks.ledger hfew hsame

theorem Sound.freeInode (h : Sound s) {id : Nat} (hid : s.groups.allocated .inode id = true)
    {r : Bool × Groups} (hr : s.groups.free .inode id = some r) :
    Coherent [] [] 0 { s.store with groups := r.2 } := by
  obtain ⟨g, hfree, hbooks, hafter⟩ := h.seated.books.free hid
  cases hfree.symm.trans hr
  have hcount : g.groupCount ≤ 15 := by
    obtain ⟨n, hn, hled⟩ := h.coherent.ledger
    rw [(h.seated.books.resident.free hfree).2.1, hled.groupCount_eq]
    exact hn
  refine h.coherent.setGroups hbooks.ledger hcount fun i => ?_
  rw [hafter, if_neg (by simp)]

theorem Sound.fsync (h : Sound s) {id : Nat}
    (htables : ∀ g, (s.commit id).tables g (numInodeTableBlocks - 1) = none) :
    Coherent [] [] 0 (s.fsync image id).store := by
  have hs : Seated (s.commit id).store := by rw [commit_store]; exact h.seated
  have hunder : ∀ i, underneath (s.commit id).tables (s.commit id).store.disk i =
    s.store.disk (blockOffset i) := by
    intro i
    unfold underneath
    rw [htables, commit_store]
    simp
  have hplace : ∀ i, s.groups.allocated .block i = true →
      writeAll ((s.commit id).groupsWrites image) (s.commit id).store.disk (blockOffset i) =
      s.store.disk (blockOffset i) := by
    intro i hi
    rw [groups_disk_block hs image (by unfold SyncFS.groups; rw [commit_store]; exact hi), hunder]
  have hflush := h.coherent.flush (fun x => decide (x.index = id))
    (writeAll ((s.commit id).cacheWrites id) (writeAll ((s.commit id).groupsWrites image)
      (s.commit id).store.disk)) ?_ ?_
  · unfold SyncFS.fsync SyncFS.flush
    simp only [commit_store] at hflush ⊢
    simpa using hflush
  · intro i hi hnot
    refine (writeAll_out _ fun w hw heq => ?_).trans (hplace i hi)
    obtain ⟨y, hy, rfl⟩ := List.mem_map.mp hw
    have hy := List.mem_of_mem_filter hy
    simp only [(hs.node y hy).2] at heq
    obtain rfl := blockOffset_inj heq
    rw [commit_store] at hy
    exact hnot (List.mem_map_of_mem hy)
  · intro x hx
    have hx' : x ∈ (s.commit id).store.cache.nodes := by rwa [commit_store]
    rw [cache_disk hs _ id hx', hplace x.index (h.seated.node x hx).1]
    simp only [Bool.and_eq_true, decide_eq_true_eq]

theorem Sound.call (h : Sound s) (op : Op) (hop : s.Careful (.call op))
    (hstep : step image s op = some s') : Sound s' := by
  refine ⟨h.mounted.step hop.call hstep, ?_⟩
  have hsame : s'.store = s.store → Coherent [] [] 0 s'.store := fun heq => heq ▸ h.coherent
  cases op with
  | allocInode mode => cases hstep; exact h.allocInode hop
  | addEntry parent last name index mode =>
    simp only [SyncFS.step, Option.ite_none_right_eq_some, Option.some.injEq, Bool.and_eq_true,
      decide_eq_true_eq] at hstep
    obtain ⟨⟨-, hfits⟩, rfl⟩ := hstep
    unfold SyncFS.addEntry
    simp only
    cases hrec : (s.loadTable (groupOf parent) (tableOf parent)).record parent with
    | none =>
      simp only [loadTable_store]
      exact h.coherent
    | some ino =>
      simp only [loadTable_store, onRecord_store]
      exact h.coherent.step (hop ino hrec) (by simp [CachedFS.step, hfits])
  | openInode id =>
    simp only [SyncFS.step, Option.ite_none_right_eq_some, Option.some.injEq] at hstep
    obtain ⟨-, rfl⟩ := hstep
    exact hsame (loadTable_store ..)
  | allocFor id =>
    cases hstep
    unfold SyncFS.allocFor
    cases hc : s.opm id with
    | none => exact h.coherent
    | some c =>
      have ht : Tidy s.store (.allocFor c) := hop c hc
      exact h.coherent.step ht rfl
  | setCopy id mode uid gid size => cases hstep; exact h.coherent
  | setRecord id ino =>
    simp only [SyncFS.step, Option.ite_none_right_eq_some, Option.some.injEq] at hstep
    obtain ⟨-, rfl⟩ := hstep
    exact hsame (onRecord_store ..)
  | closeInode id => cases hstep; exact hsame (commit_store ..)
  | freeInode id =>
    simp only [SyncFS.step, Option.ite_none_right_eq_some, Option.map_eq_some_iff] at hstep
    obtain ⟨hid, r, hr, rfl⟩ := hstep
    exact h.freeInode hid hr
  | freeBlock i =>
    simp only [SyncFS.step, Option.ite_none_right_eq_some, Option.map_eq_some_iff] at hstep
    obtain ⟨hi, r, hr, rfl⟩ := hstep
    have ht : Tidy s.store (.free i) := hi
    exact h.coherent.step ht (by simp [CachedFS.step, hr])
  | read i =>
    cases hstep
    have ht : Tidy s.store (.read i) := trivial
    exact h.coherent.step ht rfl
  | write i off buf =>
    simp only [SyncFS.step, Option.ite_none_right_eq_some] at hstep
    obtain ⟨hfits, hstep⟩ := hstep
    have ht : Tidy s.store (.write i off buf) := trivial
    refine h.coherent.step ht ?_
    simp only [CachedFS.step, if_pos hfits]
    generalize CachedFS.getBlock i true s.store = r at hstep ⊢
    obtain ⟨_ | b, store⟩ := r <;> cases hstep <;> rfl
  | fsync id =>
    simp only [SyncFS.step, Option.ite_none_right_eq_some, Option.some.injEq] at hstep
    obtain ⟨-, rfl⟩ := hstep
    exact h.fsync hop

/-! ## Mounts -/

theorem coherent_empty {s : CachedFS} (hled : s.groups.Ledger 1)
    (hcache : s.cache = { size := blockCacheSize, nodes := [] })
    (hdisk : ∀ i, s.groups.allocated .block i = true → s.disk (blockOffset i) = s.stored i) :
    Coherent [] [] 0 s := by
  have hnodes : s.cache.nodes = [] := by rw [hcache]
  have hnode : ∀ {P : CacheNode → Prop}, ∀ x ∈ s.cache.nodes, P x := by
    rw [hnodes]
    exact fun x hx => absurd hx List.not_mem_nil
  refine ⟨⟨1, by decide, hled⟩, room_zero hled, by rw [hcache], ?_,
    (seated_empty hled hnodes).nodup, hnode, fun i hi _ => hdisk i hi, hnode, List.Subset.refl _,
    fun i hi => absurd hi List.not_mem_nil⟩
  rw [hnodes]
  exact Nat.zero_le _

theorem Sound.stored_unmount (h : Sound s) {bg : BlockGroup} (hs : Single s bg) (buf : Block)
    {i : Nat} (hi : s.groups.allocated .block i = true) :
    s.unmount buf (blockOffset i) = s.store.stored i := by
  rw [unmount_block hs buf hi]
  cases hl : s.store.cache.lookup i with
  | none => exact h.coherent.disk i hi (BlockCache.lookup_none hl)
  | some x =>
    obtain ⟨hx, rfl⟩ := BlockCache.lookup_some hl
    obtain ⟨-, hoff, hblock⟩ := h.coherent.node x hx
    simp only
    split
    · exact hblock
    · rename_i hd
      rw [← hoff, h.coherent.clean x hx (Bool.eq_false_iff.mpr hd) List.not_mem_nil]
      exact hblock

theorem Mounted.setStored (h : Mounted s) {stored : Nat → Block}
    (hs : Seated { s.store with stored := stored }) :
    Mounted { s with store := { s.store with stored := stored } } := by
  have hfew : ¬ 32 < s.store.groups.groupCount := Nat.not_lt.mpr hs.few
  refine ⟨⟨Or.inr hs, h.synced.opened⟩, Or.inr ⟨hs, (h.root.resolve_left hfew).2⟩,
    h.last.imp_right fun hlast j hg hk => ?_⟩
  exact Or.inr ⟨hs, ((hlast j hg hk).resolve_left hfew).2⟩

theorem Sound.remount (h : Sound s) {buf : Block} (hcalm : s.Calm (.remount buf))
    (hmount : mount (s.unmount buf) = some s') :
    Sound { s' with store := { s'.store with stored := s.store.stored } } := by
  obtain ⟨hshow, hone, hlast⟩ := hcalm
  have hroot := (h.mounted.root.resolve_left (Nat.not_lt.mpr h.seated.few)).2
  obtain ⟨bg, hsingle⟩ := Single.of_seated h.seated hone hlast
  obtain ⟨s₁, hs₁, r⟩ := mount_unmount hsingle hroot hshow
  obtain ⟨s₂, hs₂, -, hmounted⟩ := h.mounted.recovers hone hlast hshow
  cases hs₁.symm.trans hmount
  cases hs₂.symm.trans hmount
  have hled : s'.store.groups.Ledger 1 := r.ledger hsingle
  have hseated : Seated { s'.store with stored := s.store.stored } :=
    seated_empty hled (by rw [r.cache])
  refine ⟨hmounted.setStored hseated, coherent_empty hled r.cache fun i hi => ?_⟩
  · simp only [r.disk]
    exact h.stored_unmount hsingle buf ((r.allocated hsingle .block i).symm.trans hi)

theorem Sound.carriedStep {op : SessionOp} (h : Sound s) (hop : s.Careful op)
    (hstep : carriedStep image s op = some s') : Sound s' := by
  cases op with
  | call op => exact h.call op hop hstep
  | remount buf =>
    obtain ⟨s₁, hmount, rfl⟩ := Option.map_eq_some_iff.mp hstep
    exact h.remount hop hmount

theorem Sound.blank (hs : mount blankDisk = some s) : Sound s := by
  cases mount_blank.symm.trans hs
  have hgroups : format.store.groups = Groups.format := format_blank.groups
  refine ⟨Mounted.blank, coherent_empty (hgroups ▸ Groups.Ledger.format) format_blank.cache
    fun i hi => ?_⟩
  rw [hgroups, format_free_block] at hi
  cases hi

/-- Every read of an allocated block, in any session, finds the bytes last stored in it. -/
theorem sessions_fresh (image : SuperBlock → Block) (ops : List SessionOp) (s : SyncFS)
    (hs : mount blankDisk = some s) (h : Runs.Guarded (carriedStep image) Careful ops s) :
    Runs.Along (carriedStep image) (fun s => s.store.Fresh) ops s :=
  Runs.along_of_guarded (fun _ h => h.coherent.fresh)
    (fun _ _ _ h hop hstep => h.carriedStep hop hstep) ops s (Sound.blank hs) h

/-- The root inode of a new file system, opened and given a block. -/
def rootBlock (s : SyncFS) : SyncFS := (s.openInode rootInode).allocFor rootInode

theorem blank_evaluates : ((mount blankDisk).bind fun s =>
    ((s.openInode rootInode).opm rootInode).map fun c =>
      (c.iBlocks, s.rootBlock.groups.groupCount,
        (s.rootBlock.tables 0 (numInodeTableBlocks - 1)).isNone)) = some (0, 1, true) := by
  decide +kernel

/-- The root gets a block, and the block is written in the second session. -/
theorem sessions_fresh_root : ∃ s, mount blankDisk = some s ∧
    Runs.Along (carriedStep fun _ => Bytes.zero) (fun s => s.store.Fresh)
      [.call (.openInode rootInode), .call (.allocFor rootInode),
        .remount (SuperBytes.put s.rootBlock.groups.super Bytes.zero),
        .call (.write 0 0 [7])] s := by
  have hs := mount_blank
  have hblank := format_blank
  have hzero := format_disk
  have heval := blank_evaluates
  rw [hs, Option.bind_some] at heval
  generalize format = s at hs hblank hzero heval
  obtain ⟨c, hc, hval⟩ := Option.map_eq_some_iff.mp heval
  simp only [Prod.mk.injEq, Option.isNone_iff_eq_none] at hval
  obtain ⟨hblocks, hcount, hlast⟩ := hval
  have hstore : (s.openInode rootInode).store = s.store := loadTable_store ..
  have hgroups : s.store.groups = Groups.format := hblank.groups
  have htidy : Tidy (s.openInode rootInode).store (.allocFor c) := by
    rw [hstore]
    refine ⟨Or.inl ?_, ?_, fun i _ => hzero i⟩
    · rw [hgroups]
      decide
    · rw [hblocks]
      rintro ⟨hle, -⟩
      exact absurd hle (by decide)
  have hopened : Sound (s.openInode rootInode) :=
    (Sound.blank hs).call (.openInode rootInode) trivial (show step (fun _ => Bytes.zero) s _ = _ by
      simp only [SyncFS.step, hblank.groups, hblank.opm]
      rfl)
  have hgiven : Sound s.rootBlock :=
    hopened.call (.allocFor rootInode) (fun c' hc' => by cases hc.symm.trans hc'; exact htidy)
      (show step (fun _ => Bytes.zero) (s.openInode rootInode) _ = _ from rfl)
  have hstep : ∀ s₁, carriedStep (fun _ => Bytes.zero) s (.call (.openInode rootInode)) = some s₁ →
    s₁ = s.openInode rootInode := by
    intro s₁ h₁
    simp only [SyncFS.carriedStep, SyncFS.step, Option.ite_none_right_eq_some,
      Option.some.injEq] at h₁
    exact h₁.2.symm
  refine ⟨s, hs, sessions_fresh _ _ s hs fun s₁ h₁ => ⟨trivial,
    fun s₂ h₂ => ⟨fun c' hc' => ?_, fun s₃ _ => ⟨?_, fun _ _ => ⟨trivial, trivial⟩⟩⟩⟩⟩
  · obtain rfl := hstep s₁ h₁
    cases hc.symm.trans hc'
    exact htidy
  · obtain rfl := hstep s₁ h₁
    cases h₂
    exact ⟨SuperBytes.shows_put (SuperBytes.narrow_of_ledger hgiven.seated.books.ledger
      hgiven.seated.few) _, hcount, hlast⟩

end SyncFS

end NaiveFS
