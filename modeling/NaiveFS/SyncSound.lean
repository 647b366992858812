import NaiveFS.AllocSound
import NaiveFS.CacheSound
import NaiveFS.LayerRules
import NaiveFS.Unmount

/-!
# What fsync writes

Over every run with at most 32 block groups, each cached block is an allocated
one and knows its place on the disk (`Seated`). From that and the layout of the
disk the block a `fsync` leaves at each place is known (`flush_disk_table`,
`flush_disk_block`), and with it when the file is on the disk (`fsync_durable_iff`):
of the file's blocks only the one whose number is that of the inode is written.
-/

namespace NaiveFS

open BlockLayer PointerTree

/-! ## Cached blocks and their places -/

namespace CachedFS

structure Seated (s : CachedFS) : Prop where
  books : s.groups.Books
  few : s.groups.groupCount ≤ 32
  nodup : (s.cache.nodes.map CacheNode.index).Nodup
  node : ∀ x ∈ s.cache.nodes, s.groups.allocated .block x.index = true ∧
    x.offset = blockOffset x.index

variable {s : CachedFS} {x : CacheNode} {i : Nat}

theorem Seated.offsetOf (h : Seated s) (hi : s.groups.allocated .block i = true) {bg : BlockGroup}
    (hbg : s.groups.blockGroups.find (i / perGroup .block) = some bg) :
    CachedFS.offsetOf s.groups bg i = blockOffset i := by
  obtain ⟨-, -, hbits, -⟩ := Groups.allocated_iff.mp hi
  exact offsetOf_eq h.books.ledger h.few hbg hbits

theorem Seated.sublist (h : Seated s) {l : List CacheNode} {d : Disk}
    (hl : l.Sublist s.cache.nodes) :
    Seated { s with cache := { s.cache with nodes := l }, disk := d } :=
  ⟨h.books, h.few, h.nodup.sublist (hl.map _), fun x hx => h.node x (hl.subset hx)⟩

theorem Seated.cons (h : Seated s) {g : Groups} {f : Nat → Block} (hg : g.Books)
    (hfew : g.groupCount ≤ 32)
    (hkeep : ∀ j, s.groups.allocated .block j = true → g.allocated .block j = true)
    (hnew : x.index ∉ s.cache.nodes.map CacheNode.index) (ha : g.allocated .block x.index = true)
    (hoff : x.offset = blockOffset x.index) :
    Seated
      { s with
        groups := g
        cache := { s.cache with nodes := x :: s.cache.nodes }
        stored := f } := by
  refine ⟨hg, hfew, List.nodup_cons.mpr ⟨hnew, h.nodup⟩, fun y hy => ?_⟩
  rcases List.mem_cons.mp hy with rfl | hy
  · exact ⟨ha, hoff⟩
  · exact ⟨hkeep _ (h.node y hy).1, (h.node y hy).2⟩

theorem Seated.mapNodes (h : Seated s) {q : CacheNode → CacheNode} {f : Nat → Block} {d : Disk}
    (hq : ∀ x, (q x).index = x.index ∧ (q x).offset = x.offset) :
    Seated
      { s with
        cache := { s.cache with nodes := s.cache.nodes.map q }
        stored := f
        disk := d } := by
  refine ⟨h.books, h.few, ?_, fun y hy => ?_⟩
  · simpa [Function.comp_def, hq] using h.nodup
  · obtain ⟨x, hx, rfl⟩ := List.mem_map.mp hy
    rw [(hq x).1, (hq x).2]
    exact h.node x hx

theorem Seated.touch (h : Seated s) (hl : s.cache.lookup i = some x) (dirty : Bool) :
    Seated
      { s with
        cache := { s.cache with nodes := { x with dirty := dirty } :: s.cache.detach i } } := by
  obtain ⟨hx, rfl⟩ := BlockCache.lookup_some hl
  have hrest := h.sublist (d := s.disk) (l := s.cache.detach x.index) List.filter_sublist
  refine hrest.cons (x := { x with dirty := dirty }) h.books h.few (fun _ hj => hj)
    ?_ (h.node x hx).1 (h.node x hx).2
  intro hin
  obtain ⟨y, hy, heq⟩ := List.mem_map.mp hin
  exact (BlockCache.mem_detach.mp hy).2 heq

theorem makeRoom_sublist (c : BlockCache) (d : Disk) : (c.makeRoom d).1.Sublist c.nodes := by
  unfold BlockCache.makeRoom
  split
  · exact List.Sublist.refl _
  · split
    · exact List.Sublist.refl _
    · exact List.dropLast_sublist _

theorem Seated.insertNode (h : Seated s) {g : Groups} {f : Nat → Block} (hg : g.Books)
    (hfew : g.groupCount ≤ 32)
    (hkeep : ∀ j, s.groups.allocated .block j = true → g.allocated .block j = true)
    (ha : g.allocated .block x.index = true) (hoff : x.offset = blockOffset x.index) :
    Seated (CachedFS.insertNode x { s with groups := g, stored := f }) := by
  unfold CachedFS.insertNode BlockCache.insert
  cases hl : s.cache.lookup x.index with
  | none =>
    have hsub := makeRoom_sublist s.cache s.disk
    exact (h.sublist (d := (s.cache.makeRoom s.disk).2) hsub).cons hg hfew hkeep
      (fun hin => BlockCache.lookup_none hl ((hsub.map _).subset hin)) ha hoff
  | some y =>
    have ht := h.touch hl (y.dirty || x.dirty)
    exact ⟨hg, hfew, ht.nodup, fun z hz => ⟨hkeep _ (ht.node z hz).1, (ht.node z hz).2⟩⟩

theorem Seated.getBlock (h : Seated s) (i : Nat) (dirty : Bool) :
    Seated (CachedFS.getBlock i dirty s).2 := by
  unfold CachedFS.getBlock BlockCache.get
  cases hl : s.cache.lookup i with
  | some x => exact h.touch hl _
  | none =>
    simp only [Groups.findGroup]
    cases hfind : s.groups.blockGroups.find (i / perGroup .block) with
    | none =>
      have hdesc : s.groups.super.getGroupDesc (i / perGroup .block) = none := by
        apply List.getElem?_eq_none
        apply Nat.le_of_not_lt
        intro hlt
        obtain ⟨bg, hbg⟩ := (h.books.resident _).mpr hlt
        rw [hfind] at hbg
        cases hbg
      simp only [hdesc]
      exact h
    | some bg =>
      simp only
      split
      · rename_i ht
        have hi : i % perGroup .block < bitmapBits := by
          apply Nat.lt_of_not_le
          intro hge
          rw [h.books.ledger.tail _ bg hfind .block _ hge] at ht
          cases ht
        have ha : s.groups.allocated .block i = true := Groups.allocated_iff.mpr ⟨bg, hfind, hi, ht⟩
        exact h.insertNode h.books h.few (fun _ hj => hj) ha (h.offsetOf ha hfind)
      · exact h

theorem Seated.allocRaw (h : Seated s) (hle : (s.groups.alloc .block).2.groupCount ≤ 32) :
    Seated (CachedFS.allocRaw s).2 := by
  obtain ⟨i, heq, hout, hg⟩ := h.books.alloc .block (Nat.le_succ_of_le hle)
  unfold CachedFS.allocRaw
  rw [FS.allocBlock_eq, heq]
  obtain ⟨bg, hfind, hbits, -⟩ := Groups.allocated_iff.mp hout.taken
  simp only [Option.map_some, hfind]
  have hfew : (s.groups.alloc .block).2.groupCount ≤ 32 := hle
  exact h.insertNode hg hfew (fun _ hj => hout.keep hj) hout.taken
    (offsetOf_eq hg.ledger hfew hfind hbits)

theorem getBlock_groupCount (i : Nat) (dirty : Bool) (s : CachedFS) :
    (CachedFS.getBlock i dirty s).2.groups.groupCount = s.groups.groupCount := by
  unfold CachedFS.getBlock Groups.findGroup
  cases s.cache.get i dirty with
  | some r => rfl
  | none =>
    cases s.groups.blockGroups.find (i / perGroup .block) with
    | some bg => simp only; split <;> rfl
    | none =>
      cases s.groups.super.getGroupDesc (i / perGroup .block) with
      | none => rfl
      | some slot => simp only; split <;> rfl

theorem allocRaw_groups (s : CachedFS) :
    (CachedFS.allocRaw s).2.groups = (s.groups.alloc .block).2 := by
  unfold CachedFS.allocRaw
  rw [FS.allocBlock_eq]
  cases (s.groups.alloc .block).1 with
  | none => rfl
  | some r =>
    simp only [Option.map_some]
    split <;> rfl

/-- Once there are more than 32 groups nothing more is said. -/
def SeatedOrMany (s : CachedFS) : Prop := 32 < s.groups.groupCount ∨ Seated s

theorem seated_inv : LayerInv SeatedOrMany where
  get i d s h := by
    rcases h with h | h
    · left
      show 32 < (CachedFS.getBlock i d s).2.groups.groupCount
      rwa [getBlock_groupCount]
    · exact Or.inr (h.getBlock i d)
  alloc s h := by
    have hgroups : (allocRaw s).2.groups = (s.groups.alloc .block).2 := allocRaw_groups s
    rcases Nat.lt_or_ge 32 (s.groups.alloc .block).2.groupCount with hlt | hle
    · exact Or.inl (hgroups ▸ hlt)
    · rcases h with h | h
      · exact Or.inl (hgroups ▸ Nat.lt_of_lt_of_le h (Groups.alloc_groupCount .block s.groups))
      · exact Or.inr (h.allocRaw hle)
  poke i f s h := by
    refine h.imp id fun h => ?_
    apply h.mapNodes
    intro x
    split <;> exact ⟨rfl, rfl⟩
  modify i s h := by
    refine h.imp id fun h => ?_
    apply h.mapNodes
    intro x
    split <;> exact ⟨rfl, rfl⟩

theorem groupCount_inv (n : Nat) : LayerInv fun s : CachedFS => n ≤ s.groups.groupCount where
  get i d s h := by
    show n ≤ (CachedFS.getBlock i d s).2.groups.groupCount
    rwa [getBlock_groupCount]
  alloc s h := by
    show n ≤ (CachedFS.allocRaw s).2.groups.groupCount
    rw [allocRaw_groups]
    exact Nat.le_trans h (Groups.alloc_groupCount .block s.groups)
  poke _ _ _ h := h
  modify _ _ h := h

theorem Seated.freeBlock (h : Seated s) (hi : s.groups.allocated .block i = true)
    {r : Bool × CachedFS} (heq : CachedFS.freeBlock i s = some r) : Seated r.2 := by
  obtain ⟨g, hfree, hg, hafter⟩ := h.books.free hi
  have hfew : g.groupCount ≤ 32 := by
    rw [(h.books.resident.free hfree).2.1]
    exact h.few
  unfold CachedFS.freeBlock at heq
  rw [hfree] at heq
  cases heq
  unfold BlockCache.remove
  have hkeep : ∀ x ∈ s.cache.nodes, x.index ≠ i → g.allocated .block x.index = true := by
    intro x hx hne
    rw [hafter, if_neg fun hc => hne hc.2]
    exact (h.node x hx).1
  cases hl : s.cache.lookup i with
  | none =>
    refine ⟨hg, hfew, h.nodup, fun x hx => ⟨hkeep x hx ?_, (h.node x hx).2⟩⟩
    rintro rfl
    exact BlockCache.lookup_none hl (List.mem_map_of_mem hx)
  | some y =>
    refine ⟨hg, hfew, h.nodup.sublist (List.filter_sublist.map _), fun x hx => ?_⟩
    obtain ⟨hx, hne⟩ := BlockCache.mem_detach.mp hx
    exact ⟨hkeep x hx hne, (h.node x hx).2⟩

theorem SeatedOrMany.freeBlock (h : SeatedOrMany s) (hi : s.groups.allocated .block i = true)
    {r : Bool × CachedFS} (heq : CachedFS.freeBlock i s = some r) :
    SeatedOrMany r.2 ∧ r.2.groups.groupCount = s.groups.groupCount := by
  obtain ⟨bg, hfind, -, ht⟩ := Groups.allocated_iff.mp hi
  have hcount : r.2.groups.groupCount = s.groups.groupCount := by
    unfold CachedFS.freeBlock at heq
    rw [Groups.free_eq .block i s.groups hfind ht] at heq
    cases heq
    rfl
  refine ⟨?_, hcount⟩
  rcases h with h | h
  · exact Or.inl (hcount ▸ h)
  · exact Or.inr (h.freeBlock hi heq)

end CachedFS

theorem LayerInv.dentryCreate {σ : Type} [BlockLayer σ] {P : σ → Prop} (h : LayerInv P)
    (last : Option Nat) (parent : TreeInode) (name : List UInt8) (inode mode : Nat) {s : σ}
    (hs : P s) :
    P (dentryCreate last parent name inode mode s).2.2 := by
  have happend : ∀ {i b} {s : σ}, P s → P (appendDentry i b name inode mode s) :=
    fun hs => h.modify _ _ (h.poke _ _ _ hs)
  have hnew : ∀ {s : σ}, P s → P (appendNewDentry parent name inode mode s).2.2 := by
    intro s hs
    have ha := h.allocBlock parent hs
    unfold appendNewDentry
    generalize NaiveFS.allocBlock parent s = r at ha ⊢
    obtain ⟨_ | j, ino, s'⟩ := r
    · exact ha
    · exact happend ha
  unfold NaiveFS.dentryCreate
  cases last with
  | none => exact hnew hs
  | some i =>
    have hg := h.get i false s hs
    simp only
    generalize BlockReader.getBlock i false s = r at hg ⊢
    obtain ⟨_ | b, s'⟩ := r
    · exact hnew hg
    · simp only
      split
      · exact hnew hg
      · exact happend hg

/-! ## The invariant over runs -/

namespace SyncFS

open CachedFS

variable {s s' : SyncFS} {bg : BlockGroup} {g i off : Nat}

/-- Open inodes have their group in memory. -/
structure Synced (s : SyncFS) : Prop where
  seated : s.store.SeatedOrMany
  opened : ∀ id c, s.opm id = some c → 32 < s.groups.groupCount ∨ groupOf id < s.groups.groupCount

theorem Synced.of_store (h : Synced s) (hs : s'.store.SeatedOrMany) (hopm : s'.opm = s.opm)
    (hle : s.groups.groupCount ≤ s'.groups.groupCount) : Synced s' := by
  refine ⟨hs, fun id c hc => ?_⟩
  rw [hopm] at hc
  exact (h.opened id c hc).imp (fun hm => Nat.lt_of_lt_of_le hm hle) fun hg =>
    Nat.lt_of_lt_of_le hg hle

theorem Synced.of_tables (h : Synced s) (hs : s'.store = s.store) (hopm : s'.opm = s.opm) :
    Synced s' :=
  h.of_store (hs ▸ h.seated) hopm (Nat.le_of_eq (by unfold SyncFS.groups; rw [hs]))

@[simp] theorem setTable_store (g k : Nat) (b : Option Block) (s : SyncFS) :
    (s.setTable g k b).store = s.store := rfl
@[simp] theorem setTable_opm (g k : Nat) (b : Option Block) (s : SyncFS) :
    (s.setTable g k b).opm = s.opm := rfl

@[simp] theorem loadTable_store (g k : Nat) (s : SyncFS) : (s.loadTable g k).store = s.store := by
  unfold loadTable
  split <;> rfl

@[simp] theorem loadTable_opm (g k : Nat) (s : SyncFS) : (s.loadTable g k).opm = s.opm := by
  unfold loadTable
  split <;> rfl

@[simp] theorem onRecord_store (id : Nat) (f : Block → Block) (s : SyncFS) :
    (s.onRecord id f).store = s.store := by
  simp [onRecord]

@[simp] theorem onRecord_opm (id : Nat) (f : Block → Block) (s : SyncFS) :
    (s.onRecord id f).opm = s.opm := by
  simp [onRecord]

@[simp] theorem commit_store (id : Nat) (s : SyncFS) : (s.commit id).store = s.store := by
  unfold commit
  split
  · rfl
  · split
    · exact onRecord_store ..
    · rfl

@[simp] theorem commit_opm (id : Nat) (s : SyncFS) : (s.commit id).opm = s.opm := by
  unfold commit
  split
  · rfl
  · split
    · exact onRecord_opm ..
    · rfl

theorem Synced.groups_alloc (h : Synced s) (k : Kind) (hk : k = .inode) :
    SeatedOrMany { s.store with groups := (s.groups.alloc k).2 } := by
  subst hk
  rcases Nat.lt_or_ge 32 (s.groups.alloc .inode).2.groupCount with hlt | hle
  · exact Or.inl hlt
  · rcases h.seated with hm | hs
    · exact Or.inl (Nat.lt_of_lt_of_le hm (Groups.alloc_groupCount .inode s.groups))
    · obtain ⟨i, -, hout, hg⟩ := hs.books.alloc .inode (Nat.le_succ_of_le hle)
      refine Or.inr ⟨hg, hle, hs.nodup, fun x hx => ⟨?_, (hs.node x hx).2⟩⟩
      exact hout.keep (hs.node x hx).1

theorem Synced.allocInode (h : Synced s) (mode : Nat) : Synced (s.allocInode mode) := by
  have hs := h.groups_alloc .inode rfl
  have hle : s.groups.groupCount ≤ (s.groups.alloc .inode).2.groupCount :=
    Groups.alloc_groupCount .inode s.groups
  unfold SyncFS.allocInode
  generalize s.groups.alloc .inode = r at hs hle ⊢
  obtain ⟨_ | ⟨i, served⟩, g⟩ := r
  · exact h.of_store hs rfl hle
  · refine h.of_store ?_ (onRecord_opm ..) ?_
    · rw [onRecord_store]
      exact hs
    · unfold SyncFS.groups
      rw [onRecord_store]
      exact hle

theorem Synced.addEntry (h : Synced s) (parent : Nat) (last : Option Nat) (name : List UInt8)
    (index mode : Nat) :
    Synced (s.addEntry parent last name index mode) := by
  unfold SyncFS.addEntry
  simp only
  cases (s.loadTable (groupOf parent) (tableOf parent)).record parent with
  | none => exact h.of_tables (loadTable_store ..) (loadTable_opm ..)
  | some ino =>
    rw [loadTable_store]
    have hs := seated_inv.dentryCreate last ino name index mode h.seated
    have hle := (groupCount_inv s.groups.groupCount).dentryCreate last ino name index mode
      (s := s.store) (Nat.le_refl _)
    refine h.of_store ?_ ?_ ?_
    · simpa using hs
    · simp
    · simpa [SyncFS.groups] using hle

theorem Synced.setOpm (h : Synced s) {id : Nat} {c : Option TreeInode}
    (hc : c.isSome → 32 < s.groups.groupCount ∨ groupOf id < s.groups.groupCount) :
    Synced { s with opm := Function.update s.opm id c } := by
  refine ⟨h.seated, fun j d hd => ?_⟩
  by_cases hj : j = id
  · subst hj
    apply hc
    simp only [Function.update_self] at hd
    rw [hd]
    rfl
  · simp only [Function.update_of_ne hj] at hd
    exact h.opened j d hd

theorem Synced.openInode (h : Synced s) {id : Nat} (hid : s.groups.allocated .inode id = true) :
    Synced (s.openInode id) := by
  have hl : Synced (s.loadTable (groupOf id) (tableOf id)) :=
    h.of_tables (loadTable_store ..) (loadTable_opm ..)
  apply hl.setOpm
  intro _
  unfold SyncFS.groups
  rw [loadTable_store]
  refine h.seated.imp_right fun hs => ?_
  obtain ⟨bg, hfind, -⟩ := Groups.allocated_iff.mp hid
  exact (hs.books.resident _).mp ⟨bg, hfind⟩

theorem Synced.allocFor (h : Synced s) (id : Nat) : Synced (s.allocFor id) := by
  unfold SyncFS.allocFor
  cases hc : s.opm id with
  | none => exact h
  | some c =>
    have hs := seated_inv.allocBlock c h.seated
    have hle := (groupCount_inv s.groups.groupCount).allocBlock c (s := s.store) (Nat.le_refl _)
    have hstore : Synced { s with store := (allocBlock c s.store).2.2 } := h.of_store hs rfl hle
    exact hstore.setOpm fun _ => hstore.opened id c hc

theorem Synced.setCopy (h : Synced s) (id mode uid gid size : Nat) :
    Synced (s.setCopy id mode uid gid size) := by
  apply h.setOpm
  intro hc
  obtain ⟨c, hc⟩ := Option.isSome_iff_exists.mp hc
  obtain ⟨c, hc, -⟩ := Option.map_eq_some_iff.mp hc
  exact h.opened id c hc

theorem seated_fsync (hs : Seated s.store) (image : SuperBlock → Block) (id : Nat) :
    Seated (s.fsync image id).store := by
  have hs' : Seated (s.commit id).store := by rwa [commit_store]
  apply hs'.mapNodes
  intro x
  split <;> exact ⟨rfl, rfl⟩

theorem Synced.fsync (h : Synced s) (image : SuperBlock → Block) (id : Nat) :
    Synced (s.fsync image id) := by
  have hc : Synced (s.commit id) := h.of_tables (commit_store id s) (commit_opm id s)
  exact hc.of_store (h.seated.imp (by simp [SyncFS.fsync, SyncFS.flush]) fun hs =>
    seated_fsync hs image id) rfl (Nat.le_refl _)

theorem Synced.freeInode (h : Synced s) {id : Nat} (hid : s.groups.allocated .inode id = true)
    {r : Bool × Groups} (heq : s.groups.free .inode id = some r) :
    Synced
      { s.loadTable (groupOf id) (tableOf id) with store := { s.store with groups := r.2 } } := by
  obtain ⟨bg, hfind, -, ht⟩ := Groups.allocated_iff.mp hid
  have hcount : r.2.groupCount = s.groups.groupCount := by
    rw [Groups.free_eq .inode id s.groups hfind ht] at heq
    cases heq
    rfl
  refine h.of_store ?_ (loadTable_opm ..) (Nat.le_of_eq hcount.symm)
  refine h.seated.imp (fun hm => hcount ▸ hm) fun hs => ?_
  obtain ⟨g, hfree, hg, hafter⟩ := hs.books.free hid
  cases hfree.symm.trans heq
  refine ⟨hg, Nat.le_trans (Nat.le_of_eq hcount) hs.few, hs.nodup,
    fun x hx => ⟨?_, (hs.node x hx).2⟩⟩
  show g.allocated .block x.index = true
  rw [hafter, if_neg fun hc => absurd hc.1 (by decide)]
  exact (hs.node x hx).1

theorem Synced.getBlock (h : Synced s) (i : Nat) (dirty : Bool) :
    Synced { s with store := (CachedFS.getBlock i dirty s.store).2 } :=
  h.of_store (seated_inv.get i dirty s.store h.seated) rfl
    (Nat.le_of_eq (getBlock_groupCount i dirty s.store).symm)

theorem Synced.step (h : Synced s) {image : SuperBlock → Block} {op : Op}
    (hstep : step image s op = some s') :
    Synced s' := by
  cases op with
  | allocInode mode => cases hstep; exact h.allocInode mode
  | addEntry parent last name index mode =>
    simp only [SyncFS.step, Option.ite_none_right_eq_some, Option.some.injEq] at hstep
    exact hstep.2 ▸ h.addEntry parent last name index mode
  | openInode id =>
    simp only [SyncFS.step, Option.ite_none_right_eq_some, Option.some.injEq,
      Bool.and_eq_true] at hstep
    exact hstep.2 ▸ h.openInode hstep.1.1
  | allocFor id => cases hstep; exact h.allocFor id
  | setCopy id mode uid gid size => cases hstep; exact h.setCopy id mode uid gid size
  | setRecord id ino =>
    simp only [SyncFS.step, Option.ite_none_right_eq_some, Option.some.injEq] at hstep
    exact hstep.2 ▸ h.of_tables (onRecord_store ..) (onRecord_opm ..)
  | closeInode id =>
    cases hstep
    have hc : Synced (s.commit id) := h.of_tables (commit_store id s) (commit_opm id s)
    have ho : Synced { s.commit id with opm := Function.update (s.commit id).opm id none } :=
      hc.setOpm fun hn => absurd hn (by simp)
    rw [commit_opm] at ho
    exact ho
  | freeInode id =>
    simp only [SyncFS.step, Option.ite_none_right_eq_some, Option.map_eq_some_iff] at hstep
    obtain ⟨hid, r, hr, rfl⟩ := hstep
    exact h.freeInode hid hr
  | freeBlock i =>
    simp only [SyncFS.step, Option.ite_none_right_eq_some, Option.map_eq_some_iff] at hstep
    obtain ⟨hi, r, hr, rfl⟩ := hstep
    obtain ⟨hs, hcount⟩ := h.seated.freeBlock hi hr
    exact h.of_store hs rfl (Nat.le_of_eq hcount.symm)
  | read i => cases hstep; exact h.getBlock i false
  | write i off buf =>
    simp only [SyncFS.step, Option.ite_none_right_eq_some] at hstep
    have hg := h.getBlock i true
    obtain ⟨-, hstep⟩ := hstep
    generalize CachedFS.getBlock i true s.store = r at hstep hg
    obtain ⟨_ | b, store⟩ := r
    · cases hstep
      exact hg
    · cases hstep
      exact hg.of_store (seated_inv.poke i _ _ hg.seated) rfl (Nat.le_refl _)
  | fsync id =>
    simp only [SyncFS.step, Option.ite_none_right_eq_some, Option.some.injEq] at hstep
    exact hstep.2 ▸ h.fsync image id

/-! ## The first mount -/

theorem seated_empty {s : CachedFS} (hled : s.groups.Ledger 1) (hnodes : s.cache.nodes = []) :
    Seated s := by
  have hone := hled.groupCount_eq
  refine ⟨hled.books (by rw [hone]; decide), by rw [hone]; decide, ?_, ?_⟩
  · rw [hnodes]
    exact List.nodup_nil
  · rw [hnodes]
    exact fun x hx => absurd hx List.not_mem_nil

theorem get_blank : SuperBytes.get Bytes.zero = Groups.blankImage.super := by
  have hdesc : SuperBytes.getDesc Bytes.zero = fun _ => ⟨fun _ => 0, fun _ => 0⟩ := by
    funext i
    refine GroupDesc.ext (funext fun k => Bytes.word_zero _) (funext fun k => ?_)
    cases k <;> simp only [SuperBytes.getDesc, Bytes.word_zero, Nat.zero_mod, Nat.zero_div]
  simp only [SuperBytes.get, hdesc, Bytes.word_zero]
  rfl

theorem bitmapOf_blank : bitmapOf Bytes.zero = Bitmap.zero := by
  simp only [bitmapOf, Bytes.word_zero]
  rfl

/-- The file system after the first mount. -/
structure Blank (s : SyncFS) : Prop where
  groups : s.groups = Groups.format
  cache : s.store.cache = { size := blockCacheSize, nodes := [] }
  opm : ∀ id, s.opm id = none
  last : s.tables 0 (numInodeTableBlocks - 1) = none

theorem Blank.onRecord (h : Blank s) (f : Block → Block) : Blank (s.onRecord rootInode f) := by
  have hset : ∀ (t : SyncFS) b, (t.setTable 0 0 b).tables 0 (numInodeTableBlocks - 1) =
    t.tables 0 (numInodeTableBlocks - 1) := by
    intro t b
    simp only [setTable, Function.update_self]
    exact Function.update_of_ne (by decide) ..
  have hload : (s.loadTable 0 0).tables 0 (numInodeTableBlocks - 1) = none := by
    unfold loadTable
    split
    · rw [hset, h.last]
    · exact h.last
  refine ⟨?_, ?_, fun id => ?_, (hset _ _).trans hload⟩
  · exact (congrArg CachedFS.groups (onRecord_store ..)).trans h.groups
  · exact (congrArg CachedFS.cache (onRecord_store ..)).trans h.cache
  · rw [onRecord_opm]
    exact h.opm id

theorem Blank.setDisk (h : Blank s) (d : Disk) :
    Blank { s with store := { s.store with disk := d } } :=
  ⟨h.groups, h.cache, h.opm, h.last⟩

/-- What the constructor does to a zeroed disk. -/
theorem format_eq : ∃ (t : SyncFS) (d : Disk), Blank t ∧ (∀ i, d (blockOffset i) = Bytes.zero) ∧
    format =
      { t with
        store := { t.store with disk := writeAll (t.groupWrites 0 Groups.rootGroup) d } } := by
  have hget : SuperBytes.get (blankDisk 0) = Groups.blankImage.super := get_blank
  have himage : (⟨SuperBytes.get (blankDisk 0),
    fun off => bitmapOf (blankDisk off)⟩ : Groups.Image) = Groups.blankImage := by
    rw [hget]
    simp only [blankDisk, bitmapOf_blank]
    rfl
  obtain ⟨d, hopen, hd⟩ : ∃ d, openSuper blankDisk = some d ∧
    ∀ i, d (blockOffset i) = Bytes.zero := by
    unfold openSuper
    rw [hget]
    exact ⟨_, rfl, fun i => Function.update_of_ne (by unfold blockOffset; omega) ..⟩
  have hfind : Groups.format.blockGroups.find 0 = some Groups.rootGroup :=
    (Groups.format_find 0 _).mpr ⟨rfl, rfl⟩
  have htest : ∀ off, (bitmapOf (blankDisk off)).test rootInode = false := by
    intro off
    rw [show bitmapOf (blankDisk off) = Bitmap.zero from bitmapOf_blank]
    exact Bitmap.test_zero _
  have hmount := mount_blank
  unfold mount at hmount
  simp only [hopen, himage, Groups.mount_blank, hfind, htest, Option.bind_eq_bind, Option.bind_some,
    Bool.false_eq_true, if_false, Option.pure_def, Option.some.injEq] at hmount
  exact ⟨_, d, Blank.onRecord ⟨rfl, rfl, fun _ => rfl, rfl⟩ _, hd, hmount.symm⟩

theorem format_blank : Blank format := by
  obtain ⟨t, d, ht, -, heq⟩ := format_eq
  rw [heq]
  exact ht.setDisk _

theorem Blank.ledger (h : Blank s) : s.groups.Ledger 1 := h.groups ▸ Groups.Ledger.format

theorem Synced.format : Synced SyncFS.format where
  seated := Or.inr (seated_empty format_blank.ledger (by rw [format_blank.cache]))
  opened id c hc := by
    rw [format_blank.opm] at hc
    cases hc

/-! ## The disk after a flush -/

theorem recordOf_lt (id : Nat) : recordOf id < inodesPerBlock := Nat.mod_lt _ (by decide)

theorem tableOf_lt (id : Nat) : tableOf id < numInodeTableBlocks := by
  unfold tableOf
  rw [inodesPerGroup_eq, numInodeTableBlocks_eq]
  exact Nat.div_lt_of_lt_mul (Nat.mod_lt _ (by decide))

theorem writeAll_out : ∀ {ws : List (Nat × Block)} (d : Disk), (∀ w ∈ ws, w.1 ≠ off) →
    writeAll ws d off = d off := by
  intro ws
  induction ws with
  | nil => exact fun _ _ => rfl
  | cons w ws ih =>
    intro d h
    rw [writeAll, List.foldl_cons, ← writeAll, ih _ fun v hv => h v (List.mem_cons_of_mem w hv)]
    exact Function.update_of_ne (h w List.mem_cons_self).symm ..

theorem writeAll_at {b : Block} : ∀ {ws : List (Nat × Block)} (d : Disk), (off, b) ∈ ws →
    (∀ w ∈ ws, w.1 = off → w.2 = b) → writeAll ws d off = b := by
  intro ws
  induction ws with
  | nil => exact fun _ hin => by cases hin
  | cons w ws ih =>
    intro d hin h
    have htail := fun v hv => h v (List.mem_cons_of_mem w hv)
    rw [writeAll, List.foldl_cons, ← writeAll]
    by_cases hlater : (off, b) ∈ ws
    · exact ih _ hlater htail
    · obtain rfl := (List.mem_cons.mp hin).resolve_right hlater
      rw [writeAll_out]
      · exact Function.update_self ..
      · rintro ⟨o, c⟩ hv rfl
        obtain rfl := htail _ hv rfl
        exact hlater hv

theorem mem_groupsWrites {image : SuperBlock → Block} {w : Nat × Block}
    (hw : w ∈ s.groupsWrites image) :
    ∃ x, s.groups.offset x = some w.1 ∧ (∀ g i, x ≠ .dataBlock g i) ∧
      ∀ g k, x = .inodeBlock g k → s.tables g k = some w.2 := by
  rcases List.mem_cons.mp hw with rfl | hw
  · exact ⟨.super, rfl, fun _ _ => by simp, fun _ _ => by simp⟩
  obtain ⟨⟨g, bg⟩, he, hw⟩ := List.mem_flatMap.mp hw
  have hfind := OrdMap.find_eq_some.mpr he
  rcases List.mem_cons.mp hw with rfl | hw
  · exact ⟨.bitmap .block g, by simp [Groups.offset, hfind], fun _ _ => by simp, fun _ _ => by simp⟩
  rcases List.mem_cons.mp hw with rfl | hw
  · exact ⟨.bitmap .inode g, by simp [Groups.offset, hfind], fun _ _ => by simp, fun _ _ => by simp⟩
  obtain ⟨k, hk, hw⟩ := List.mem_filterMap.mp hw
  obtain ⟨b, hb, rfl⟩ := Option.map_eq_some_iff.mp hw
  refine ⟨.inodeBlock g k, ?_, fun _ _ => by simp, fun g' k' heq => ?_⟩
  · simp [Groups.offset, hfind, List.mem_range.mp hk]
  · cases heq
    exact hb

theorem table_mem_groupsWrites (image : SuperBlock → Block) {k : Nat} {b : Block}
    (hfind : s.groups.blockGroups.find g = some bg) (hk : k < numInodeTableBlocks)
    (hb : s.tables g k = some b) :
    (s.groups.inodeBlockOffset bg k, b) ∈ s.groupsWrites image := by
  refine List.mem_cons_of_mem _ (List.mem_flatMap.mpr ⟨(g, bg), OrdMap.find_eq_some.mp hfind, ?_⟩)
  refine List.mem_cons_of_mem _ (List.mem_cons_of_mem _ (List.mem_filterMap.mpr ⟨k,
    List.mem_range.mpr hk, ?_⟩))
  rw [hb]
  rfl

section
variable (hs : Seated s.store)
include hs

/-- An object at the place of a super block, bitmap or table block is that object
or, for the last table block, its twin. -/
theorem same_place {x y : Groups.DiskObj} {a : Nat} (hx : s.groups.offset x = some a)
    (hy : s.groups.offset y = some a) (hdata : ∀ g i, x ≠ .dataBlock g i) :
    x = y ∨ Groups.Twins x y := by
  have hlt : ∀ g bg, s.groups.blockGroups.find g = some bg → g < 32 := fun g bg hg =>
    Nat.lt_of_lt_of_le ((hs.books.ledger.keys g).mp ⟨bg, hg⟩) hs.few
  obtain ⟨hax, hwx⟩ := hs.books.ledger.placed.offset_eq hlt hx
  obtain ⟨hay, hwy⟩ := hs.books.ledger.placed.offset_eq hlt hy
  rcases Groups.blockNo_eq hwx hwy (Nat.eq_of_mul_eq_mul_left (by decide)
    (hax.symm.trans hay)) with h | h | h
  · exact Or.inl h
  · exact Or.inr h
  · obtain ⟨g, -, hg⟩ := h
    exact absurd hg (hdata g 0)

omit hs in
theorem offset_table {k : Nat} (hfind : s.groups.blockGroups.find g = some bg)
    (hk : k < numInodeTableBlocks) :
    s.groups.offset (.inodeBlock g k) = some (s.groups.inodeBlockOffset bg k) := by
  simp [Groups.offset, hfind, hk]

theorem offset_block (hi : s.groups.allocated .block i = true) :
    s.groups.offset (.dataBlock (i / perGroup .block) (i % perGroup .block)) =
      some (blockOffset i) := by
  obtain ⟨bg, hfind, hbits, -⟩ := Groups.allocated_iff.mp hi
  rw [← hs.offsetOf hi hfind]
  simp only [Groups.offset, show s.groups.blockGroups.find (i / perGroup .block) =
    some bg from hfind, Option.map_some]
  exact if_pos hbits

theorem groups_disk_table (image : SuperBlock → Block) (d : Disk) {k : Nat}
    (hfind : s.groups.blockGroups.find g = some bg) (hk : k < numInodeTableBlocks) :
    writeAll (s.groupsWrites image) d (s.groups.inodeBlockOffset bg k) =
      (s.tables g k).getD (d (s.groups.inodeBlockOffset bg k)) := by
  have hoff := offset_table hfind hk
  have hsame : ∀ w ∈ s.groupsWrites image, w.1 = s.groups.inodeBlockOffset bg k →
    s.tables g k = some w.2 := by
    intro w hw heq
    obtain ⟨x, hx, hdata, htable⟩ := mem_groupsWrites hw
    rw [heq] at hx
    rcases same_place hs hx hoff hdata with rfl | ⟨_, _, htwin⟩
    · exact htable g k rfl
    · cases htwin
  cases hb : s.tables g k with
  | none =>
    apply writeAll_out
    intro w hw heq
    have := hsame w hw heq
    rw [hb] at this
    cases this
  | some b =>
    apply writeAll_at d (table_mem_groupsWrites image hfind hk hb)
    intro w hw heq
    have := hsame w hw heq
    rw [hb] at this
    cases this
    rfl

/-- What a flush of the table blocks leaves where block `i` lies: the last table block
of a group lies over its first data block. -/
def underneath (tables : Nat → Nat → Option Block) (disk : Disk) (i : Nat) : Block :=
  let onDisk := disk (blockOffset i)
  if i % perGroup .block = 0 then (tables (i / perGroup .block) (numInodeTableBlocks - 1)).getD
    onDisk else onDisk

theorem groups_disk_block (image : SuperBlock → Block) (hi : s.groups.allocated .block i = true) :
    writeAll (s.groupsWrites image) s.store.disk (blockOffset i) =
      underneath s.tables s.store.disk i := by
  obtain ⟨bg, hfind, -⟩ := Groups.allocated_iff.mp hi
  have hoff := offset_block hs hi
  unfold underneath
  by_cases h0 : i % perGroup .block = 0
  · have hplace : s.groups.inodeBlockOffset bg (numInodeTableBlocks - 1) = blockOffset i := by
      rw [← hs.offsetOf hi hfind, CachedFS.offsetOf, h0]
      rfl
    have ht := groups_disk_table hs image s.store.disk hfind (k := numInodeTableBlocks - 1)
      (by decide)
    rw [hplace] at ht
    rw [if_pos h0]
    exact ht
  · rw [if_neg h0]
    apply writeAll_out
    intro w hw heq
    obtain ⟨x, hx, hdata, -⟩ := mem_groupsWrites hw
    rw [heq] at hx
    rcases same_place hs hx hoff hdata with rfl | ⟨_, _, htwin⟩
    · exact hdata _ _ rfl
    · simp only [Groups.DiskObj.dataBlock.injEq] at htwin
      exact h0 htwin.2

theorem cache_disk (d : Disk) (id : Nat) {x : CacheNode} (hx : x ∈ s.store.cache.nodes) :
    writeAll (s.cacheWrites id) d (blockOffset x.index) =
      if x.index = id ∧ x.dirty = true then x.block else d (blockOffset x.index) := by
  have hmem : ∀ w ∈ s.cacheWrites id, w.1 = blockOffset x.index → (x.index = id ∧ x.dirty = true) ∧
    w.2 = x.block := by
    intro w hw heq
    obtain ⟨y, hy, rfl⟩ := List.mem_map.mp hw
    simp only [List.mem_filter, Bool.and_eq_true, decide_eq_true_eq] at hy
    obtain ⟨hy, hid, hd⟩ := hy
    simp only [(hs.node y hy).2] at heq
    obtain rfl := List.inj_on_of_nodup_map hs.nodup hy hx (blockOffset_inj heq)
    exact ⟨⟨hid, hd⟩, rfl⟩
  split
  · rename_i hc
    refine writeAll_at d ?_ fun w hw heq => (hmem w hw heq).2
    refine List.mem_map.mpr ⟨x, ?_, Prod.ext (hs.node x hx).2 rfl⟩
    simpa [List.mem_filter] using ⟨hx, hc⟩
  · rename_i hc
    exact writeAll_out d fun w hw heq => hc (hmem w hw heq).1

/-- The block numbered as an inode never lies over the inode's table block. -/
theorem cache_disk_table (d : Disk) {id : Nat}
    (hfind : s.groups.blockGroups.find (groupOf id) = some bg) :
    writeAll (s.cacheWrites id) d (s.groups.inodeBlockOffset bg (tableOf id)) =
      d (s.groups.inodeBlockOffset bg (tableOf id)) := by
  apply writeAll_out
  intro w hw heq
  obtain ⟨y, hy, rfl⟩ := List.mem_map.mp hw
  simp only [List.mem_filter, Bool.and_eq_true, decide_eq_true_eq] at hy
  obtain ⟨hy, rfl, -⟩ := hy
  obtain ⟨ha, hoff⟩ := hs.node y hy
  have hx := offset_table hfind (tableOf_lt y.index)
  have hy := offset_block hs ha
  rw [← show y.offset = s.groups.inodeBlockOffset bg (tableOf y.index) from heq] at hx
  rw [← hoff] at hy
  have hlt : groupOf y.index < 32 :=
    Nat.lt_of_lt_of_le ((hs.books.ledger.keys _).mp ⟨bg, hfind⟩) hs.few
  rcases same_place hs hx hy (fun _ _ => by simp) with h | ⟨g, h₁, h₂⟩
  · cases h
  · simp only [Groups.DiskObj.inodeBlock.injEq, Groups.DiskObj.dataBlock.injEq] at h₁ h₂
    unfold groupOf tableOf at h₁
    unfold groupOf at hlt
    rw [perGroup_block] at h₂
    rw [inodesPerGroup_eq] at h₁ hlt
    rw [show inodesPerBlock = 32 from rfl] at h₁
    omega

end

/-! ## Durability -/

/-- The table block of an inode in memory, or on the disk if it is not loaded. -/
def tableBlock (s : SyncFS) (id : Nat) (bg : BlockGroup) : Block :=
  (s.tables (groupOf id) (tableOf id)).getD
    (s.store.disk (s.groups.inodeBlockOffset bg (tableOf id)))

/-- The table blocks in memory with the copy of an allocated inode in its record. -/
def committed (s : SyncFS) (id : Nat) (c : TreeInode) (g k : Nat) : Option Block :=
  if s.groups.allocated .inode id = true ∧ g = groupOf id ∧ k = tableOf id then
    ((s.loadTable g k).tables g k).map (InodeTableBlock.put (recordOf id) c)
  else s.tables g k

/-- What `get_block` finds once these table blocks are on the disk. -/
def contentsOver (tables : Nat → Nat → Option Block) (s : SyncFS) (i : Nat) : Option Block :=
  match s.store.cache.lookup i with
  | some x => some x.block
  | none => if s.groups.allocated .block i then some (underneath tables s.store.disk i) else none

/-- The block at a position of the tree of an inode, once these table blocks are on the
disk. -/
def blockOver (tables : Nat → Nat → Option Block) (s : SyncFS) (ino : TreeInode) (p : Pos) :
    Option Nat :=
  follow slotOf ino.iBlock (fun i w => (s.contentsOver tables i).map fun b => b.word w) maxDepth p

/-- When the file with copy `c` is durable after `fsync`: the inode is allocated,
so that it can be committed, or its record is up to date, and every block of the
file in the cache is the one the flush picks or is on the disk already. -/
structure Reaches (s : SyncFS) (id : Nat) (c : TreeInode) : Prop where
  blocks : ∀ p, Live (sizeBlocks c) p → ∀ i x, s.blockOver (s.committed id c) c p = some i →
    s.store.cache.lookup i = some x →
    i = id ∧ x.dirty = true ∨ underneath (s.committed id c) s.store.disk i = x.block
  inode : s.groups.allocated .inode id = true ∨ ∃ bg, s.groups.blockGroups.find (groupOf id) =
    some bg ∧
    InodeTableBlock.Holds (recordOf id) c (s.tableBlock id bg)

theorem fields_nodup (ino : TreeInode) : ((InodeTableBlock.fields ino).map Prod.fst).Nodup := by
  simp only [InodeTableBlock.fields, List.map_cons, List.map_map, Function.comp_def]
  decide

theorem holds_put {r : Nat} (hr : r < inodesPerBlock) (ino : TreeInode) (b : Block) :
    InodeTableBlock.Holds r ino (InodeTableBlock.put r ino b) := by
  have hlt : ∀ e ∈ InodeTableBlock.fields ino, 4 * (InodeTableBlock.recordWords * r + e.1) + 3 <
    blockSize := by
    have hw : ∀ w ∈ (InodeTableBlock.fields ino).map Prod.fst, w < InodeTableBlock.recordWords := by
      simp only [InodeTableBlock.fields, List.map_cons, List.map_map, Function.comp_def]
      decide
    intro e he
    have hwe := hw e.1 (List.mem_map_of_mem he)
    rw [show inodesPerBlock = 32 from rfl] at hr
    rw [show InodeTableBlock.recordWords = 32 from rfl] at hwe ⊢
    rw [blockSize_eq]
    omega
  have hword := Bytes.word_setWords b (fields_nodup ino) hlt
  refine ⟨hword (1, ino.iSize) (by simp [InodeTableBlock.fields]), fun j hj => ?_⟩
  have hmem : (10 + j, ino.iBlock j) ∈ InodeTableBlock.fields ino := by
    simp [InodeTableBlock.fields, hj]
  have := hword _ hmem
  rw [← Nat.add_assoc] at this
  exact this

theorem lookup_fsync (image : SuperBlock → Block) (s : SyncFS) (id i : Nat) :
    ((s.fsync image id).store.cache.lookup i).map CacheNode.block =
      (s.store.cache.lookup i).map CacheNode.block := by
  unfold fsync flush BlockCache.lookup
  simp only [commit_store, List.find?_map, Option.map_map]
  have hp : ((fun x : CacheNode => decide (x.index = i)) ∘ fun x => if x.index = id then
    { x with dirty := false } else x) =
      fun x => decide (x.index = i) := by
    funext x
    simp only [Function.comp_apply]
    split <;> rfl
  rw [hp]
  congr 1
  funext x
  simp only [Function.comp_apply]
  split <;> rfl

theorem contents_fsync (image : SuperBlock → Block) (id : Nat) {x : CacheNode}
    (hx : s.store.cache.lookup i = some x) :
    (s.fsync image id).contents i = some x.block := by
  have hl := lookup_fsync image s id i
  rw [hx] at hl
  obtain ⟨y, hy, hb⟩ := Option.map_eq_some_iff.mp hl
  unfold contents
  rw [hy]
  exact congrArg some hb

theorem contents_allocated (hs : Seated s.store) (hi : s.groups.allocated .block i = true) :
    s.contents i = some (((s.store.cache.lookup i).map CacheNode.block).getD
      (s.store.disk (blockOffset i))) := by
  unfold contents
  cases hl : s.store.cache.lookup i with
  | some x => rfl
  | none =>
    obtain ⟨bg, hfind, -, ht⟩ := Groups.allocated_iff.mp hi
    have hoff := hs.offsetOf hi hfind
    simp only [hfind, ht, if_true]
    exact congrArg (fun off => some (s.store.disk off)) hoff

theorem contents_free (hs : Seated s.store) (hi : s.groups.allocated .block i = false) :
    s.store.cache.lookup i = none ∧ s.contents i = none := by
  have hl : s.store.cache.lookup i = none := by
    cases hl : s.store.cache.lookup i with
    | none => rfl
    | some x =>
      obtain ⟨hx, rfl⟩ := BlockCache.lookup_some hl
      exact absurd ((hs.node x hx).1.symm.trans hi) Bool.true_eq_false_eq_False
  refine ⟨hl, ?_⟩
  unfold contents
  rw [hl]
  simp only
  split
  · rfl
  · rename_i bg hfind
    split
    · rename_i ht
      have hbits : i % perGroup .block < bitmapBits := by
        by_contra hge
        rw [hs.books.ledger.tail _ bg hfind .block _ (Nat.le_of_not_lt hge)] at ht
        cases ht
      rw [Groups.allocated_iff.mpr ⟨bg, hfind, hbits, ht⟩] at hi
      cases hi
    · rfl

theorem fsync_groups (image : SuperBlock → Block) (s : SyncFS) (id : Nat) :
    (s.fsync image id).groups = s.groups :=
  show (s.commit id).store.groups = s.store.groups from congrArg CachedFS.groups (commit_store id s)

section
variable (hs : Seated s.store) {id : Nat} {c : TreeInode} (hc : s.opm id = some c)
include hs

omit hs in
include hc in
theorem commit_holds_iff (hfind : s.groups.blockGroups.find (groupOf id) = some bg) :
    InodeTableBlock.Holds (recordOf id) c ((s.commit id).tableBlock id bg) ↔
      s.groups.allocated .inode id = true ∨
      InodeTableBlock.Holds (recordOf id) c (s.tableBlock id bg) := by
  unfold commit
  rw [hc]
  by_cases ha : s.groups.allocated .inode id = true
  · simp only [ha, if_true, true_or, iff_true]
    have hload : ∃ b, (s.loadTable (groupOf id) (tableOf id)).tables (groupOf id) (tableOf id) =
      some b := by
      unfold loadTable
      rw [hfind]
      cases hb : s.tables (groupOf id) (tableOf id) with
      | none => exact ⟨s.store.disk (s.groups.inodeBlockOffset bg (tableOf id)), by simp [setTable]⟩
      | some b => exact ⟨b, hb⟩
    obtain ⟨b, hb⟩ := hload
    have hrec : (s.onRecord id (InodeTableBlock.put (recordOf id) c)).tableBlock id bg =
        InodeTableBlock.put (recordOf id) c b := by
      simp [tableBlock, onRecord, setTable, hb]
    rw [hrec]
    exact holds_put (recordOf_lt id) c b
  · simp only [ha, Bool.false_eq_true, if_false, false_or]

omit hs in
include hc in
theorem commit_tables : (s.commit id).tables = s.committed id c := by
  funext g k
  unfold commit committed
  rw [hc]
  by_cases ha : s.groups.allocated .inode id = true
  · simp only [ha, if_true, true_and, onRecord, setTable]
    by_cases hg : g = groupOf id
    · subst hg
      by_cases hk : k = tableOf id
      · subst hk
        simp
      · have hload : (s.loadTable (groupOf id) (tableOf id)).tables (groupOf id) k =
          s.tables (groupOf id) k := by
          unfold loadTable
          split <;> simp [setTable, hk]
        simp [hk, hload]
    · have hload : (s.loadTable (groupOf id) (tableOf id)).tables g = s.tables g := by
        unfold loadTable
        split <;> simp [setTable, hg]
      simp [hg, hload]
  · simp [ha]

theorem fsync_disk_table (image : SuperBlock → Block)
    (hfind : s.groups.blockGroups.find (groupOf id) = some bg) :
    (s.fsync image id).store.disk (s.groups.inodeBlockOffset bg (tableOf id)) =
      (s.commit id).tableBlock id bg := by
  have hs' : Seated (s.commit id).store := by rwa [commit_store]
  have hg : (s.commit id).groups = s.groups := congrArg CachedFS.groups (commit_store id s)
  rw [← hg] at hfind ⊢
  refine (cache_disk_table hs' _ hfind).trans ?_
  exact groups_disk_table hs' image _ hfind (tableOf_lt id)

include hc in
theorem flushed_block (image : SuperBlock → Block) (hi : s.groups.allocated .block i = true) :
    writeAll ((s.commit id).groupsWrites image) (s.commit id).store.disk (blockOffset i) =
      underneath (s.committed id c) s.store.disk i := by
  have hs' : Seated (s.commit id).store := by rwa [commit_store]
  have ha : (s.commit id).groups.allocated .block i = true := by
    unfold SyncFS.groups
    rwa [commit_store]
  rw [groups_disk_block hs' image ha, commit_tables hc, commit_store]

include hc in
theorem fsync_disk_block (image : SuperBlock → Block) {x : CacheNode}
    (hx : s.store.cache.lookup i = some x) :
    (s.fsync image id).store.disk (blockOffset i) =
      if i = id ∧ x.dirty = true then x.block else
      underneath (s.committed id c) s.store.disk i := by
  obtain ⟨hmem, rfl⟩ := BlockCache.lookup_some hx
  have hs' : Seated (s.commit id).store := by rwa [commit_store]
  have ha := (hs.node x hmem).1
  rw [← commit_store id s] at hmem
  refine (cache_disk hs' _ id hmem).trans ?_
  rw [flushed_block hs hc image ha]

include hc in
theorem fsync_contents (image : SuperBlock → Block) (i : Nat) :
    (s.fsync image id).contents i = s.contentsOver (s.committed id c) i := by
  unfold contentsOver
  cases hx : s.store.cache.lookup i with
  | some x => exact contents_fsync image id hx
  | none =>
    have hl := lookup_fsync image s id i
    rw [hx, Option.map_none, Option.map_eq_none_iff] at hl
    have hg : (s.fsync image id).groups = s.groups := fsync_groups image s id
    have hs' : Seated (s.fsync image id).store := seated_fsync hs image id
    cases hi : s.groups.allocated .block i with
    | false =>
      rw [← hg] at hi
      simp only [(contents_free hs' hi).2, Bool.false_eq_true, if_false]
    | true =>
      rw [contents_allocated hs' (by rw [hg]; exact hi), hl]
      simp only [Option.map_none, Option.getD_none, if_true, Option.some.injEq]
      refine (writeAll_out _ fun w hw heq => ?_).trans (flushed_block hs hc image hi)
      -- a block that is not cached is not written
      obtain ⟨y, hy, rfl⟩ := List.mem_map.mp hw
      have hy := List.mem_of_mem_filter hy
      rw [commit_store] at hy
      simp only [(hs.node y hy).2] at heq
      obtain rfl := blockOffset_inj heq
      exact BlockCache.lookup_none hx (List.mem_map_of_mem hy)

include hc in
theorem durable_iff (image : SuperBlock → Block) (hopen : groupOf id < s.groups.groupCount) :
    Durable (s.fsync image id) id c ↔ Reaches s id c := by
  have hg : (s.fsync image id).groups = s.groups := fsync_groups image s id
  obtain ⟨bg, hbg⟩ := (hs.books.resident _).mpr hopen
  have hinode : (∃ bg, (s.fsync image id).groups.blockGroups.find (groupOf id) = some bg ∧
    InodeTableBlock.Holds (recordOf id) c
        ((s.fsync image id).store.disk ((s.fsync image id).groups.inodeBlockOffset bg
        (tableOf id)))) ↔
      s.groups.allocated .inode id = true ∨ ∃ bg, s.groups.blockGroups.find (groupOf id) = some bg ∧
        InodeTableBlock.Holds (recordOf id) c (s.tableBlock id bg) := by
    have hfind : s.groups.blockGroups.find (groupOf id) = some bg := hbg
    simp only [hg, hfind, Option.some.injEq, exists_eq_left']
    rw [fsync_disk_table hs image hfind]
    exact commit_holds_iff hc hfind
  have hblock : ∀ i x, s.store.cache.lookup i = some x →
      ((s.fsync image id).store.disk (blockOffset i) = x.block ↔
        i = id ∧ x.dirty = true ∨ underneath (s.committed id c) s.store.disk i = x.block) := by
    intro i x hx
    rw [fsync_disk_block hs hc image hx]
    split
    · rename_i hpick
      simp [hpick]
    · rename_i hpick
      simp [hpick]
  have hat : ∀ p, (s.fsync image id).blockAt c p = s.blockOver (s.committed id c) c p := by
    intro p
    unfold blockAt blockOver
    simp only [fsync_contents hs hc image]
  constructor
  · intro h
    refine ⟨fun p hp i x hi hx => ?_, hinode.mp h.inode⟩
    rw [← hat] at hi
    apply (hblock i x hx).mp
    obtain ⟨hmem, rfl⟩ := BlockCache.lookup_some hx
    have ha := (hs.node x hmem).1
    obtain ⟨bg', hfind, -⟩ := Groups.allocated_iff.mp ha
    have hd := h.blocks p hp x.index x.block bg' hi (contents_fsync image id hx)
      (by rw [hg]; exact hfind)
    rw [hg] at hd
    rwa [← hs.offsetOf ha hfind]
  · intro h
    refine ⟨fun p hp i b bg' hi hb hfind => ?_, hinode.mpr h.inode⟩
    rw [hat] at hi
    cases hx : s.store.cache.lookup i with
    | some x =>
      rw [contents_fsync image id hx] at hb
      cases hb
      obtain ⟨hmem, rfl⟩ := BlockCache.lookup_some hx
      rw [hg] at hfind ⊢
      rw [show offsetOf s.groups bg' x.index = _ from hs.offsetOf (hs.node x hmem).1 hfind]
      exact (hblock _ x hx).mpr (h.blocks p hp _ x hi hx)
    | none =>
      -- what is not cached is read from the disk
      have hl := lookup_fsync image s id i
      rw [hx, Option.map_none, Option.map_eq_none_iff] at hl
      unfold contents at hb
      simp only [hl, hfind] at hb
      split at hb
      · cases hb
        rfl
      · cases hb

end

/-- In every state with at most 32 groups and for every open file. -/
theorem fsync_durable_iff (image : SuperBlock → Block) (ops : List Op) :
    Runs.Along (step image) (fun s => s.groups.groupCount ≤ 32 → ∀ id c, s.opm id = some c →
      (Durable (s.fsync image id) id c ↔ Reaches s id c)) ops SyncFS.format := by
  have hdurable : ∀ s, Synced s → s.groups.groupCount ≤ 32 → ∀ id c, s.opm id = some c →
      (Durable (s.fsync image id) id c ↔ Reaches s id c) := by
    intro s h hle id c hc
    have hs := h.seated.resolve_left (Nat.not_lt.mpr hle)
    exact durable_iff hs hc image ((h.opened id c hc).resolve_left (Nat.not_lt.mpr hle))
  exact Runs.along_of_inv hdurable (fun s op s' h hstep => h.step hstep) ops SyncFS.format
    Synced.format

/-! ## A file whose block has another number -/

/-- The byte a file shows at an offset of its block at `p`, and the one on the disk. -/
def bytesAt (s : SyncFS) (c : TreeInode) (p : Pos) (off : Nat) : Option (UInt8 × UInt8) := do
  let i ← s.blockAt c p
  let b ← s.contents i
  let bg ← s.groups.blockGroups.find (i / perGroup .block)
  return (b.byte off, (s.store.disk (CachedFS.offsetOf s.groups bg i)).byte off)

theorem Durable.bytesAt {id : Nat} {c : TreeInode} (h : Durable s id c) {p : Pos}
    (hp : Live (sizeBlocks c) p) {x y : UInt8} (hb : s.bytesAt c p off = some (x, y)) : x = y := by
  simp only [SyncFS.bytesAt, Option.bind_eq_bind, Option.pure_def, Option.bind_eq_some_iff,
    Option.some.injEq, Prod.mk.injEq] at hb
  obtain ⟨i, hi, b, hb, bg, hfind, rfl, rfl⟩ := hb
  rw [h.blocks p hp i b bg hi hb hfind]

/-- Two files are created in the root, whose entries take block 0, and one byte is
written to the second: its inode has number 2 and its block number 1. -/
def secondFile : List Op :=
  let mode := 33188
  [.allocInode mode, .addEntry rootInode none [97] 1 mode, .allocInode mode,
    .addEntry rootInode (some 0) [98] 2 mode, .openInode 2, .allocFor 2, .write 1 0 [65],
    .setCopy 2 mode 0 0 1]

theorem second_file_bytes :
    ((Runs.run (step fun _ => Bytes.zero) secondFile SyncFS.format).bind fun s =>
      (s.opm 2).bind fun c =>
      ((s.fsync (fun _ => Bytes.zero) 2).bytesAt c (.data 0) 0).map fun b =>
      (s.groups.groupCount, sizeBlocks c, b)) =
      some (1, 1, 65, 0) := by
  decide +kernel

theorem second_file_not_durable :
    ∃ s c, Runs.run (step fun _ => Bytes.zero) secondFile SyncFS.format = some s ∧
    s.groups.groupCount ≤ 32 ∧ s.opm 2 = some c ∧
      ¬ Durable (s.fsync (fun _ => Bytes.zero) 2) 2 c := by
  have h := second_file_bytes
  simp only [Option.bind_eq_some_iff, Option.map_eq_some_iff, Prod.mk.injEq] at h
  obtain ⟨s, hrun, c, hc, b, hb, hcount, hsize, hbytes⟩ := h
  refine ⟨s, c, hrun, Nat.le_of_eq hcount |>.trans (by decide), hc, fun hd => ?_⟩
  have hp : Live (sizeBlocks c) (.data 0) := by
    rw [hsize]
    exact Nat.one_pos
  rw [hbytes] at hb
  exact absurd (hd.bytesAt hp hb) (by decide)

end SyncFS
end NaiveFS
