import NaiveFS.RemountSound
import NaiveFS.SyncSound
import NaiveFS.Unmount

/-!
# What a mount recovers

While there is one block group, the disk an unmount leaves behind is known place by
place (`unmount_super`, `unmount_bitmap`, `unmount_table`, `unmount_block`), and the
next mount builds the same groups from it (`mount_unmount`). So it finds all inodes in
the table and all blocks that were saved, in every run of calls and remounts.
-/

namespace NaiveFS

/-! ## Bytes -/

theorem Bitmap.data_eq_zero {b : Bitmap} (htail : ∀ i, bitmapBits ≤ i → b.test i = false)
    {w : Nat} (hw : 1024 ≤ w) :
    b.data w = 0 := by
  apply BitVec.eq_of_getLsbD_eq
  intro j hj
  have ht := htail (32 * w + j) (by rw [bitmapBits_eq]; omega)
  rw [Bitmap.test_eq, show (32 * w + j) / 32 = w by omega, show (32 * w + j) % 32 =
    j by omega] at ht
  simpa using ht

theorem bitmapOf_ofWords {b : Bitmap} (htail : ∀ i, bitmapBits ≤ i → b.test i = false) :
    bitmapOf (Bytes.ofWords fun w => (b.data w).toNat) = b := by
  obtain ⟨data⟩ := b
  simp only [bitmapOf, Bitmap.mk.injEq]
  funext w
  by_cases hw : w < 1024
  · rw [Bytes.word_ofWords _ (by rw [blockSize_eq]; omega), Nat.mod_eq_of_lt (data w).isLt,
      BitVec.ofNat_toNat]
    exact BitVec.setWidth_eq _
  · rw [Bytes.word_out _ (by rw [blockSize_eq]; omega)]
    exact (Bitmap.data_eq_zero htail (Nat.le_of_not_lt hw)).symm

namespace SuperBytes

/-- The fields of `sb` fit their widths, and its descriptors the buffer. -/
structure Narrow (sb : SuperBlock) : Prop where
  state : sb.sState < 2 ^ 16
  count : ∀ k, sb.sCount k < 2 ^ 32
  desc : ∀ i ∈ sb.descTable, i < descsInBlock
  bitmap : ∀ i ∈ sb.descTable, ∀ k, (sb.slots i).bgBitmap k < 2 ^ 32
  free : ∀ i ∈ sb.descTable, ∀ k, (sb.slots i).bgFreeCount k < 2 ^ 16

variable {sb : SuperBlock} {b : Block}

theorem descWord_eq (i : Nat) : descWord i = 256 + 8 * i := by
  simp only [descWord, superSize, groupDescSize]
  omega

theorem fields_keys (sb : SuperBlock) (b : Block) : (fields sb b).map Prod.fst =
    [0, 1, 8, 10, 14] ++ (List.range 96).flatMap fun i => [256 + 8 * i, 256 + 8 * i + 1,
      256 + 8 * i + 3] := by
  simp only [fields, List.map_cons, List.map_flatMap, descFields, List.map_nil, descWord_eq]
  rfl

theorem word_put (sb : SuperBlock) (b : Block) {e : Nat × Nat} (he : e ∈ fields sb b) :
    (put sb b).word e.1 = e.2 % 2 ^ 32 := by
  have hnodup : ((fields sb b).map Prod.fst).Nodup := by
    rw [fields_keys]
    decide +kernel
  have hlt : ∀ e ∈ fields sb b, 4 * (0 + e.1) + 3 < blockSize := by
    intro e he
    have hall : ∀ w ∈ [0, 1, 8, 10, 14] ++ (List.range 96).flatMap (fun i => [256 + 8 * i,
      256 + 8 * i + 1, 256 + 8 * i + 3]),
        4 * (0 + w) + 3 < blockSize := by decide +kernel
    exact hall e.1 (by rw [← fields_keys sb b]; exact List.mem_map_of_mem he)
  have := Bytes.word_setWords b hnodup hlt e he
  rwa [Nat.zero_add] at this

theorem shows_put (h : Narrow sb) (b : Block) : Shows (put sb b) sb where
  state := by
    have hword :=
      word_put sb b (e := (stateWord, b.word stateWord % 2 ^ 16 + 2 ^ 16 * u16 sb.sState))
      (by simp [fields])
    have hs := h.state
    simp only [u16] at hword
    simp only [get, hword]
    omega
  count := by
    funext k
    have hword := word_put sb b (e := (countWord k, sb.sCount k)) (by cases k <;> simp [fields])
    rwa [Nat.mod_eq_of_lt (h.count k)] at hword
  desc i hi := by
    have hword : ∀ e ∈ descFields sb i, (put sb b).word e.1 = e.2 % 2 ^ 32 := fun e he => by
      refine word_put sb b (List.mem_append_right [_, _, _, _,
        _] (List.mem_flatMap.mpr ⟨i, ?_, he⟩))
      exact List.mem_range.mpr (h.desc i hi)
    refine GroupDesc.ext (funext fun k => ?_) (funext fun k => ?_)
    · have hw := hword (descWord i + bitmapWord k,
        (sb.slots i).bgBitmap k) (by cases k <;> simp [descFields])
      rwa [Nat.mod_eq_of_lt (h.bitmap i hi k)] at hw
    · have hw := hword _ (List.mem_cons_of_mem _ (List.mem_cons_of_mem _ List.mem_cons_self))
      have hblock := h.free i hi .block
      have hinode := h.free i hi .inode
      simp only [u16] at hw
      cases k <;> simp only [getDesc, hw] <;> omega
  sizes k := by
    have hword := word_put sb b (e := (perGroupWord k, perGroup k)) (by cases k <;> simp [fields])
    rwa [Nat.mod_eq_of_lt (by cases k <;> decide)] at hword

theorem narrow_of_ledger {n : Nat} {g : Groups} (h : g.Ledger n) (hn : n ≤ 32) :
    Narrow g.super := by
  have hmem : ∀ i ∈ g.super.descTable, i < n := fun i hi => List.mem_range.mp (h.table ▸ hi)
  refine ⟨by rw [h.state]; decide, fun k => ?_, fun i hi => ?_, fun i hi k => ?_, fun i hi k => ?_⟩
  · obtain ⟨hblock, hinode⟩ := h.count_le
    cases k <;> omega
  · have := hmem i hi
    rw [descsInBlock_eq]
    omega
  · rw [h.slot i (hmem i hi)]
    have hlt := hmem i hi
    obtain ⟨hinode, hblock⟩ := Groups.newDesc_bitmap (g := i) (by omega)
    cases k
    · rw [hblock]
      omega
    · rw [hinode]
      omega
  · have := h.free k i (hmem i hi)
    have hcap := Groups.capacity_le k i
    rw [bitmapBits_eq] at hcap
    omega

end SuperBytes

namespace SyncFS

open CachedFS

variable {s s' : SyncFS} {i id j : Nat} {v : Bool}

/-! ## The disk after an unmount -/

theorem writeAll_same {d : Disk} {ws : List (Nat × Block)} (h : ∀ w ∈ ws, d w.1 = w.2) :
    writeAll ws d = d := by
  induction ws with
  | nil => rfl
  | cons w ws ih =>
    have hw : Function.update d w.1 w.2 = d := by
      rw [← h w List.mem_cons_self, Function.update_eq_self]
    rw [writeAll, List.foldl_cons, hw]
    exact ih fun v hv => h v (List.mem_cons_of_mem w hv)

section
variable (hs : Seated s.store)
include hs

theorem dirty_out {off : Nat} (hoff : off < 4096 * 1026) (d : Disk) :
    writeAll s.dirtyWrites d off = d off := by
  apply writeAll_out
  intro w hw heq
  obtain ⟨x, hx, rfl⟩ := List.mem_map.mp hw
  have := (hs.node x (List.mem_of_mem_filter hx)).2
  unfold blockOffset at this
  simp only at heq
  omega

theorem dirty_block (d : Disk) (i : Nat) : writeAll s.dirtyWrites d (blockOffset i) =
    match s.store.cache.lookup i with
    | some x => if x.dirty then x.block else d (blockOffset i)
    | none => d (blockOffset i) := by
  have hmem : ∀ w ∈ s.dirtyWrites, w.1 = blockOffset i → ∃ x, s.store.cache.lookup i = some x ∧
    x.dirty = true ∧ w.2 = x.block := by
    intro w hw heq
    obtain ⟨y, hy, rfl⟩ := List.mem_map.mp hw
    obtain ⟨hy, hd⟩ := List.mem_filter.mp hy
    simp only [(hs.node y hy).2] at heq
    obtain rfl := blockOffset_inj heq
    cases hl : s.store.cache.lookup y.index with
    | none => exact absurd (List.mem_map_of_mem hy) (BlockCache.lookup_none hl)
    | some x =>
      obtain ⟨hx, hindex⟩ := BlockCache.lookup_some hl
      obtain rfl := List.inj_on_of_nodup_map hs.nodup hx hy hindex
      exact ⟨x, rfl, hd, rfl⟩
  cases hl : s.store.cache.lookup i with
  | none =>
    apply writeAll_out
    intro w hw heq
    obtain ⟨x, hx, -⟩ := hmem w hw heq
    rw [hl] at hx
    cases hx
  | some x =>
    simp only
    split
    · rename_i hd
      obtain ⟨hx, rfl⟩ := BlockCache.lookup_some hl
      refine writeAll_at d ?_ fun w hw heq => ?_
      · exact List.mem_map.mpr ⟨x, List.mem_filter.mpr ⟨hx, hd⟩, Prod.ext (hs.node x hx).2 rfl⟩
      · obtain ⟨y, hy, -, hw⟩ := hmem w hw heq
        rw [hl] at hy
        cases hy
        exact hw
    · rename_i hd
      apply writeAll_out
      intro w hw heq
      obtain ⟨y, hy, hyd, -⟩ := hmem w hw heq
      rw [hl] at hy
      cases hy
      exact hd hyd

end

/-- Group 0 of a file system with one group. -/
structure Single (s : SyncFS) (bg : BlockGroup) : Prop where
  seated : Seated s.store
  ledger : s.groups.Ledger 1
  entries : s.groups.blockGroups.entries = [(0, bg)]
  desc : bg.desc = 0
  last : s.tables 0 (numInodeTableBlocks - 1) = none

theorem Single.of_seated (hs : Seated s.store) (hone : s.groups.groupCount = 1)
    (hlast : s.tables 0 (numInodeTableBlocks - 1) = none) :
    ∃ bg, Single s bg := by
  have hled : s.groups.Ledger 1 := hone ▸ hs.books.ledger
  obtain ⟨bg, hentries, hdesc⟩ := hled.entries_one
  exact ⟨bg, hs, hled, hentries, hdesc, hlast⟩

section
variable {bg : BlockGroup} (h : Single s bg)
include h

theorem Single.find (g : Nat) : s.groups.blockGroups.find g = if g = 0 then some bg else none := by
  unfold OrdMap.find
  rw [h.entries]
  by_cases hg : g = 0
  · simp [hg]
  · rw [if_neg hg]
    simp [Ne.symm hg]

theorem Single.bitmap (k : Kind) :
    (s.groups.super.slots bg.desc).bgBitmap k = match k with | .inode => 4096 | .block => 8192 := by
  rw [h.desc, h.ledger.slot 0 Nat.one_pos]
  cases k <;> rfl

theorem Single.tablePlace {k : Nat} (hk : k < numInodeTableBlocks) :
    s.groups.inodeBlockOffset bg k = 4096 * (k + 3) := by
  rw [numInodeTableBlocks_eq] at hk
  simp only [Groups.inodeBlockOffset, h.bitmap, blockSize_eq, u32]
  omega

theorem Single.writes (super : Block) :
    s.groupsWrites (fun _ => super) = (0, super) :: s.groupWrites 0 bg := by
  simp [groupsWrites, h.entries]

theorem Single.mem_groupWrites {w : Nat × Block} (hw : w ∈ s.groupWrites 0 bg) :
    (∃ k, w = ((s.groups.super.slots bg.desc).bgBitmap k,
      Bytes.ofWords fun i => ((bg.bitmap k).data i).toNat)) ∨ ∃ k < numInodeTableBlocks,
        w.1 = 4096 * (k + 3) ∧ s.tables 0 k = some w.2 := by
  rcases List.mem_cons.mp hw with rfl | hw
  · exact Or.inl ⟨.block, rfl⟩
  rcases List.mem_cons.mp hw with rfl | hw
  · exact Or.inl ⟨.inode, rfl⟩
  obtain ⟨k, hk, hw⟩ := List.mem_filterMap.mp hw
  obtain ⟨b, hb, rfl⟩ := Option.map_eq_some_iff.mp hw
  exact Or.inr ⟨k, List.mem_range.mp hk, h.tablePlace (List.mem_range.mp hk), hb⟩

theorem Single.groupWrites_out (d : Disk) (i : Nat) :
    writeAll (s.groupWrites 0 bg) d (blockOffset i) = d (blockOffset i) := by
  refine writeAll_out d fun w hw heq => ?_
  unfold blockOffset at heq
  rcases h.mem_groupWrites hw with ⟨k, rfl⟩ | ⟨k, hk, hplace, hb⟩
  · rw [h.bitmap] at heq
    cases k <;> simp only at heq <;> omega
  · rw [numInodeTableBlocks_eq] at hk
    have hlast : k = numInodeTableBlocks - 1 := by
      rw [numInodeTableBlocks_eq]
      omega
    rw [hlast, h.last] at hb
    cases hb

theorem unmount_super (super : Block) : s.unmount super 0 = super := by
  unfold unmount
  rw [dirty_out h.seated (by omega), h.writes]
  refine writeAll_at _ List.mem_cons_self fun w hw heq => ?_
  rcases List.mem_cons.mp hw with rfl | hw
  · rfl
  · rcases h.mem_groupWrites hw with ⟨k, rfl⟩ | ⟨k, -, hplace, -⟩
    · rw [h.bitmap] at heq
      cases k <;> simp at heq
    · omega

theorem unmount_bitmap (super : Block) (k : Kind) :
    s.unmount super ((s.groups.super.slots bg.desc).bgBitmap k) =
      Bytes.ofWords fun i => ((bg.bitmap k).data i).toNat := by
  unfold unmount
  rw [dirty_out h.seated (by rw [h.bitmap]; cases k <;> simp), h.writes]
  refine writeAll_at _ ?_ fun w hw heq => ?_
  · cases k <;> simp [groupWrites]
  · rw [h.bitmap] at heq
    rcases List.mem_cons.mp hw with rfl | hw
    · cases k <;> simp at heq
    · rcases h.mem_groupWrites hw with ⟨k', rfl⟩ | ⟨j, -, hplace, -⟩
      · rw [h.bitmap] at heq
        cases k <;> cases k' <;> simp at heq ⊢
      · cases k <;> simp only at heq <;> omega

theorem unmount_table (super : Block) {k : Nat} (hk : k < numInodeTableBlocks)
    (hlast : k ≠ numInodeTableBlocks - 1) :
    s.unmount super (s.groups.inodeBlockOffset bg k) =
      (s.tables 0 k).getD (s.store.disk (s.groups.inodeBlockOffset bg k)) := by
  have hfind : s.groups.blockGroups.find 0 = some bg := (h.find 0).trans (if_pos rfl)
  have hlt : s.groups.inodeBlockOffset bg k < 4096 * 1026 := by
    rw [h.tablePlace hk]
    rw [numInodeTableBlocks_eq] at hk hlast
    omega
  unfold unmount
  rw [dirty_out h.seated hlt]
  exact groups_disk_table h.seated _ _ hfind hk

theorem unmount_block (super : Block) (hi : s.groups.allocated .block i = true) :
    s.unmount super (blockOffset i) =
      match s.store.cache.lookup i with
      | some x => if x.dirty then x.block else s.store.disk (blockOffset i)
      | none => s.store.disk (blockOffset i) := by
  have hunder : underneath s.tables s.store.disk i = s.store.disk (blockOffset i) := by
    obtain ⟨bg', hfind, -⟩ := Groups.allocated_iff.mp hi
    have hg : i / perGroup .block = 0 := Nat.lt_one_iff.mp ((h.ledger.keys _).mp ⟨bg', hfind⟩)
    unfold underneath
    rw [hg, h.last]
    simp
  unfold unmount
  rw [dirty_block h.seated, groups_disk_block h.seated _ hi, hunder]

end

/-! ## The next mount -/

/-- What the constructor builds from the disk that `s` leaves behind. -/
structure Remounted (s : SyncFS) (buf : Block) (bg : BlockGroup) (s' : SyncFS) : Prop where
  shown : SuperBytes.Shows buf s.groups.super
  entries : s'.groups.blockGroups.entries = [(0, bg)]
  super : s'.groups.super = { SuperBytes.get buf with descTable := [0] }
  cache : s'.store.cache = { size := blockCacheSize, nodes := [] }
  disk : s'.store.disk = s.unmount buf
  tables : ∀ k b, s'.tables 0 k = some b → k < numInodeTableBlocks - 1 ∧
    b = s.unmount buf (s.groups.inodeBlockOffset bg k)
  opm : ∀ id, s'.opm id = none

section
variable {bg : BlockGroup} {buf : Block} (h : Single s bg)
include h

theorem openSuper_unmount (hshow : SuperBytes.Shows buf s.groups.super) :
    openSuper (s.unmount buf) = some (s.unmount buf) := by
  unfold openSuper
  rw [unmount_super h]
  simp only [hshow.state, h.ledger.state]
  rw [if_neg (by decide), if_pos fun k _ => hshow.sizes k]

theorem load_unmount (buf : Block) (sb : SuperBlock) (hsb : sb.slots 0 = s.groups.super.slots 0) :
    ({ super := sb, blockGroups := OrdMap.empty, disk := fun off => bitmapOf (s.unmount buf off) } :
      Groups).load 0 = bg := by
  have hfind : s.groups.blockGroups.find 0 = some bg := (h.find 0).trans (if_pos rfl)
  have hbitmap : ∀ k, bitmapOf (s.unmount buf ((sb.slots 0).bgBitmap k)) = bg.bitmap k := by
    intro k
    have hplace := unmount_bitmap h buf k
    rw [h.desc] at hplace
    rw [hsb, hplace]
    exact bitmapOf_ofWords (h.ledger.tail 0 bg hfind k)
  have hdesc := h.desc
  obtain ⟨desc, bitmap⟩ := bg
  simp only at hdesc hbitmap
  simp only [Groups.load, hdesc, hbitmap]

theorem root_test (hroot : s.groups.allocated .inode rootInode = true) :
    (bg.bitmap .inode).test rootInode = true := by
  obtain ⟨bg', hfind, -, ht⟩ := Groups.allocated_iff.mp hroot
  have hsame := (h.find 0).symm.trans hfind
  cases hsame
  exact ht

theorem Single.shown (hshow : SuperBytes.Shows buf s.groups.super) :
    (SuperBytes.get buf).slots 0 = s.groups.super.slots 0 :=
  hshow.desc 0 (by rw [h.ledger.table]; exact List.mem_range.mpr Nat.one_pos)

theorem initSuperBlock_get (hshow : SuperBytes.Shows buf s.groups.super) :
    (SuperBytes.get buf).initSuperBlock = some { SuperBytes.get buf with descTable := [0] } := by
  have hstate : (SuperBytes.get buf).sState = SuperBlock.normal := hshow.state.trans h.ledger.state
  have hnum : (SuperBytes.get buf).numBlockGroups = 1 := by
    refine Eq.trans ?_ h.ledger.numBlockGroups_one
    unfold SuperBlock.numBlockGroups
    rw [hshow.count]
  unfold SuperBlock.initSuperBlock
  rw [if_neg (by rw [hstate]; decide), if_pos hstate, hnum]
  rfl

theorem groups_mount (hroot : s.groups.allocated .inode rootInode = true)
    (hshow : SuperBytes.Shows buf s.groups.super) :
    ∃ g, Groups.mount ⟨SuperBytes.get buf, fun off => bitmapOf (s.unmount buf off)⟩ = some g ∧
      g.super = { SuperBytes.get buf with descTable := [0] } ∧
      g.blockGroups = OrdMap.empty.insert 0 bg := by
  have hload := load_unmount h buf { SuperBytes.get buf with descTable := [0] } (h.shown hshow)
  have hdesc : ({ SuperBytes.get buf with descTable := [0] } : SuperBlock).getGroupDesc 0 =
    some 0 := rfl
  unfold Groups.mount
  simp only [initSuperBlock_get h hshow, hdesc, hload, root_test h hroot, if_true]
  exact ⟨_, rfl, rfl, rfl⟩

theorem mount_unmount (hroot : s.groups.allocated .inode rootInode = true)
    (hshow : SuperBytes.Shows buf s.groups.super) :
    ∃ s', mount (s.unmount buf) = some s' ∧ Remounted s buf bg s' := by
  obtain ⟨g, hmount, hsuper, hgroups⟩ := groups_mount h hroot hshow
  have hfind : g.blockGroups.find 0 = some bg := by rw [hgroups]; exact OrdMap.find_insert_self ..
  have hslot : g.super.slots bg.desc = s.groups.super.slots bg.desc := by
    rw [hsuper, h.desc]
    exact h.shown hshow
  have hplace : ∀ k, g.inodeBlockOffset bg k = s.groups.inodeBlockOffset bg k := by
    intro k
    unfold Groups.inodeBlockOffset
    rw [hslot]
  have hfound : (bitmapOf (s.unmount buf ((g.super.slots bg.desc).bgBitmap .inode))).test
    rootInode = true := by
    rw [hslot, unmount_bitmap h,
      bitmapOf_ofWords (h.ledger.tail 0 bg ((h.find 0).trans (if_pos rfl)) .inode)]
    exact root_test h hroot
  let m : SyncFS := {
    store := { groups := g, cache := { size := blockCacheSize, nodes := [] }, disk := s.unmount buf,
               stored := fun i => s.unmount buf (blockOffset i) }
    tables := fun _ _ => none
    opm := fun _ => none }
  have hload : m.loadTable 0 0 =
    m.setTable 0 0 (some (s.unmount buf (g.inodeBlockOffset bg 0))) := by
    have hf : m.groups.blockGroups.find 0 = some bg := hfind
    unfold loadTable
    rw [hf]
    rfl
  have hloaded : ∀ k b, (m.loadTable 0 0).tables 0 k = some b → k = 0 ∧
    b = s.unmount buf (g.inodeBlockOffset bg 0) := by
    intro k b hb
    rw [hload] at hb
    simp only [setTable, Function.update_self] at hb
    by_cases hk : k = 0
    · subst hk
      rw [Function.update_self] at hb
      cases hb
      exact ⟨rfl, rfl⟩
    · rw [Function.update_of_ne hk] at hb
      cases hb
  -- the group writes back what it has read
  have hback : writeAll ((m.loadTable 0 0).groupWrites 0 bg) (s.unmount buf) = s.unmount buf := by
    apply writeAll_same
    intro w hw
    rw [hload] at hw
    rcases List.mem_cons.mp hw with rfl | hw
    · exact (congrArg (fun d : GroupDesc => s.unmount buf (d.bgBitmap .block)) hslot).trans
        (unmount_bitmap h buf .block)
    rcases List.mem_cons.mp hw with rfl | hw
    · exact (congrArg (fun d : GroupDesc => s.unmount buf (d.bgBitmap .inode)) hslot).trans
        (unmount_bitmap h buf .inode)
    obtain ⟨k, -, hw⟩ := List.mem_filterMap.mp hw
    obtain ⟨b, hb, rfl⟩ := Option.map_eq_some_iff.mp hw
    obtain ⟨rfl, rfl⟩ := hloaded k b (by rw [hload]; exact hb)
    rfl
  refine ⟨{ m.loadTable 0 0 with store := { (m.loadTable 0 0).store with disk := s.unmount buf } },
    ?_, ?_⟩
  · unfold mount
    simp only [openSuper_unmount h hshow, unmount_super h, hmount, hfind, hfound,
      Option.bind_eq_bind, Option.bind_some, if_true]
    exact congrArg (fun d => some
      { m.loadTable 0 0 with store := { (m.loadTable 0 0).store with disk := d } }) hback
  · have hstore : (m.loadTable 0 0).store = m.store := loadTable_store ..
    refine ⟨hshow, ?_, ?_, ?_, rfl, fun k b hb => ?_, fun id => ?_⟩
    · show (m.loadTable 0 0).store.groups.blockGroups.entries = _
      rw [hstore]
      exact congrArg OrdMap.entries hgroups
    · show (m.loadTable 0 0).store.groups.super = _
      rw [hstore]
      exact hsuper
    · show (m.loadTable 0 0).store.cache = _
      rw [hstore]
    · obtain ⟨rfl, rfl⟩ := hloaded k b hb
      exact ⟨by decide, by rw [hplace]⟩
    · show (m.loadTable 0 0).opm id = none
      rw [loadTable_opm]

end

/-! ## What is found again -/

theorem record_loadTable {bg : BlockGroup}
    (hfind : s.groups.blockGroups.find (groupOf id) = some bg) :
    (s.loadTable (groupOf id) (tableOf id)).record id =
      some (InodeTableBlock.get (recordOf id) (s.tableBlock id bg)) := by
  unfold loadTable record tableBlock
  rw [hfind]
  cases hb : s.tables (groupOf id) (tableOf id) with
  | none => simp [setTable]
  | some b => simp [hb]

section
variable {bg : BlockGroup} {buf : Block} (h : Single s bg) (r : Remounted s buf bg s')
include h r

theorem Remounted.find (g : Nat) : s'.groups.blockGroups.find g = s.groups.blockGroups.find g := by
  unfold OrdMap.find
  rw [r.entries, h.entries]

theorem Remounted.slot : s'.groups.super.slots 0 = s.groups.super.slots 0 := by
  rw [r.super]
  exact h.shown r.shown

theorem Remounted.used (k : Kind) (g : Nat) : s'.groups.used k g = s.groups.used k g := by
  unfold Groups.used
  rw [r.find h]

theorem Remounted.ledger : s'.groups.Ledger 1 where
  pos := Nat.one_pos
  keys g := by rw [r.find h]; exact h.ledger.keys g
  desc g bg' hg := h.ledger.desc g bg' (by rwa [r.find h] at hg)
  table := by rw [r.super]; rfl
  state := by rw [r.super]; exact r.shown.state.trans h.ledger.state
  slot g hg := by
    obtain rfl := Nat.lt_one_iff.mp hg
    rw [r.slot h]
    exact h.ledger.slot 0 hg
  tail g bg' hg := h.ledger.tail g bg' (by rwa [r.find h] at hg)
  free k g hg := by
    obtain rfl := Nat.lt_one_iff.mp hg
    rw [r.slot h, r.used h]
    exact h.ledger.free k 0 hg
  count k := by
    have hcount : s'.groups.super.sCount k = s.groups.super.sCount k := by
      rw [r.super]; exact congrFun r.shown.count k
    rw [hcount, h.ledger.count k]
    simp only [r.used h]

theorem Remounted.single : Single s' bg := by
  refine ⟨seated_empty (r.ledger h) (by rw [r.cache]), r.ledger h, r.entries, h.desc, ?_⟩
  cases hb : s'.tables 0 (numInodeTableBlocks - 1) with
  | none => rfl
  | some b => exact absurd (r.tables _ b hb).1 (Nat.lt_irrefl _)

theorem Remounted.allocated (k : Kind) (i : Nat) :
    s'.groups.allocated k i = s.groups.allocated k i :=
  Groups.allocated_of_find (r.find h _)

theorem Remounted.tableBlock (hid : groupOf id = 0) (hlast : tableOf id ≠ numInodeTableBlocks - 1) :
    s'.tableBlock id bg = s.tableBlock id bg := by
  have hplace : s'.groups.inodeBlockOffset bg (tableOf id) =
    s.groups.inodeBlockOffset bg (tableOf id) := by
    unfold Groups.inodeBlockOffset
    rw [h.desc, r.slot h]
  have hdisk : s'.tableBlock id bg = s.unmount buf (s.groups.inodeBlockOffset bg (tableOf id)) := by
    unfold SyncFS.tableBlock
    rw [hid, hplace, r.disk]
    cases hb : s'.tables 0 (tableOf id) with
    | none => rfl
    | some b => exact (r.tables _ b hb).2
  rw [hdisk, unmount_table h buf (tableOf_lt id) hlast]
  unfold SyncFS.tableBlock
  rw [hid]

theorem Remounted.inodeAt
    (hfree : ∀ j, groupOf j = 0 → tableOf j = numInodeTableBlocks - 1 →
      s.groups.allocated .inode j = false)
    (id : Nat) :
    s'.inodeAt id = s.inodeAt id := by
  unfold SyncFS.inodeAt
  rw [r.allocated h]
  split
  · rename_i hid
    obtain ⟨bg', hfind, -⟩ := Groups.allocated_iff.mp hid
    have hg : groupOf id = 0 := Nat.lt_one_iff.mp ((h.ledger.keys _).mp ⟨bg', hfind⟩)
    have hlast : tableOf id ≠ numInodeTableBlocks - 1 := by
      intro hk
      rw [hfree id hg hk] at hid
      cases hid
    have hbg : s.groups.blockGroups.find (groupOf id) = some bg := by rw [hg, h.find, if_pos rfl]
    rw [record_loadTable hbg, record_loadTable ((r.find h _).trans hbg), r.tableBlock h hg hlast]
  · rfl

theorem Remounted.contents (i : Nat) : s'.contents i = s.contents i ↔ s.Saved i := by
  have hs' := (r.single h).seated
  have hempty : s'.store.cache.lookup i = none := by rw [r.cache]; rfl
  cases hi : s.groups.allocated .block i with
  | false =>
    obtain ⟨hl, hnone⟩ := contents_free h.seated hi
    rw [(contents_free hs' ((r.allocated h .block i).trans hi)).2, hnone]
    simp only [true_iff]
    intro x hx
    rw [hl] at hx
    cases hx
  | true =>
    rw [contents_allocated hs' ((r.allocated h .block i).trans hi), contents_allocated h.seated hi,
      hempty, r.disk, unmount_block h buf hi]
    unfold Saved
    cases hl : s.store.cache.lookup i with
    | none => simp
    | some x =>
      obtain ⟨hx, rfl⟩ := BlockCache.lookup_some hl
      rw [← (h.seated.node x hx).2]
      cases hd : x.dirty <;> simp [hd]

theorem Remounted.recovers
    (hfree : ∀ j, groupOf j = 0 → tableOf j = numInodeTableBlocks - 1 →
      s.groups.allocated .inode j = false) :
    Recovers s s' :=
  ⟨r.allocated h, r.inodeAt h hfree, r.contents h⟩

end

/-! ## Runs of calls and remounts -/

theorem getBlock_groups {s : CachedFS} (h : Seated s) (i : Nat) (dirty : Bool) :
    (CachedFS.getBlock i dirty s).2.groups = s.groups := by
  unfold CachedFS.getBlock Groups.findGroup
  cases s.cache.get i dirty with
  | some r => rfl
  | none =>
    cases hfind : s.groups.blockGroups.find (i / perGroup .block) with
    | some bg => simp only; split <;> rfl
    | none =>
      cases hdesc : s.groups.super.getGroupDesc (i / perGroup .block) with
      | none => rfl
      | some slot =>
        obtain ⟨hlt, -⟩ := List.getElem?_eq_some_iff.mp hdesc
        obtain ⟨bg, hbg⟩ := (h.books.resident _).mpr hlt
        rw [hfind] at hbg
        cases hbg

/-- Inode `j` is allocated, or it is not, whatever is done to blocks. -/
def InodeIs (v : Bool) (j : Nat) (s : CachedFS) : Prop :=
  32 < s.groups.groupCount ∨ Seated s ∧ s.groups.allocated .inode j = v

theorem inodeIs_inv (v : Bool) (j : Nat) : LayerInv (InodeIs v j) where
  get i d s h := by
    refine h.imp (fun h => ?_) fun h => ⟨h.1.getBlock i d, ?_⟩
    · show 32 < (CachedFS.getBlock i d s).2.groups.groupCount
      rwa [getBlock_groupCount]
    · show (CachedFS.getBlock i d s).2.groups.allocated .inode j = v
      rw [getBlock_groups h.1]
      exact h.2
  alloc s h := by
    show InodeIs v j (CachedFS.allocRaw s).2
    unfold InodeIs
    rw [allocRaw_groups s]
    rcases Nat.lt_or_ge 32 (s.groups.alloc .block).2.groupCount with hlt | hle
    · exact Or.inl hlt
    · rcases h with h | ⟨h, hj⟩
      · exact Or.inl (Nat.lt_of_lt_of_le h (Groups.alloc_groupCount .block s.groups))
      · obtain ⟨i, -, hout, -⟩ := h.books.alloc .block (Nat.le_succ_of_le hle)
        exact Or.inr ⟨h.allocRaw hle, (hout.other (by simp) j).trans hj⟩
  poke i f s h := by
    refine h.imp id fun h => ⟨?_, h.2⟩
    apply h.1.mapNodes
    intro x
    split <;> exact ⟨rfl, rfl⟩
  modify i s h := by
    refine h.imp id fun h => ⟨?_, h.2⟩
    apply h.1.mapNodes
    intro x
    split <;> exact ⟨rfl, rfl⟩

theorem InodeIs.of_seated {v' : Bool} {s s' : CachedFS} (h : InodeIs v j s) (hs : SeatedOrMany s')
    (hle : s.groups.groupCount ≤ s'.groups.groupCount)
    (hkeep : Seated s → s.groups.allocated .inode j = v → s'.groups.groupCount ≤ 32 →
      s'.groups.allocated .inode j = v') :
    InodeIs v' j s' := by
  rcases Nat.lt_or_ge 32 s'.groups.groupCount with hlt | hge
  · exact Or.inl hlt
  · have hseat := hs.resolve_left (Nat.not_lt.mpr hge)
    have hold := h.resolve_left (Nat.not_lt.mpr (Nat.le_trans hle hge))
    exact Or.inr ⟨hseat, hkeep hold.1 hold.2 hge⟩

/-! ### Calls that change no inode bitmap -/

theorem addEntry_store (parent : Nat) (last : Option Nat) (name : List UInt8) (index mode : Nat)
    (s : SyncFS) :
    (s.addEntry parent last name index mode).store = s.store ∨
      ∃ ino, (s.addEntry parent last name index mode).store =
      (dentryCreate last ino name index mode s.store).2.2 := by
  unfold SyncFS.addEntry
  simp only
  cases (s.loadTable (groupOf parent) (tableOf parent)).record parent with
  | none => exact Or.inl (loadTable_store ..)
  | some ino =>
    right
    refine ⟨ino, ?_⟩
    simp only [loadTable_store, onRecord_store]

theorem allocInode_groups (mode : Nat) (s : SyncFS) :
    (s.allocInode mode).store.groups = (s.groups.alloc .inode).2 := by
  unfold SyncFS.allocInode
  generalize s.groups.alloc .inode = r
  obtain ⟨_ | ⟨i, served⟩, g⟩ := r
  · rfl
  · exact congrArg CachedFS.groups (onRecord_store ..)

theorem freeBlock_groups {s : CachedFS} {r : Bool × CachedFS} (hr : s.freeBlock i = some r) :
    ∃ b, s.groups.free .block i = some (b, r.2.groups) := by
  unfold CachedFS.freeBlock at hr
  cases hfree : s.groups.free .block i with
  | none => rw [hfree] at hr; cases hr
  | some p => obtain ⟨_ | _, g⟩ := p <;> (rw [hfree] at hr; cases hr; exact ⟨_, rfl⟩)

/-- Freeing something else. -/
theorem InodeIs.freed {s : CachedFS} (h : InodeIs v j s) {k : Kind}
    (hi : s.groups.allocated k i = true) (hne : Kind.inode = k → j = i → v = false)
    {r : Bool × Groups} (hr : s.groups.free k i = some r) :
    32 < r.2.groupCount ∨ r.2.allocated .inode j = v := by
  obtain ⟨bg, hfind, -, ht⟩ := Groups.allocated_iff.mp hi
  rcases h with hm | ⟨hs, hj⟩
  · left
    rw [Groups.free_eq k i s.groups hfind ht] at hr
    cases hr
    exact hm
  · right
    obtain ⟨g, hfree, -, hafter⟩ := hs.books.free hi
    cases hfree.symm.trans hr
    rw [hafter]
    split
    · rename_i hc
      exact (hne hc.1 hc.2).symm
    · exact hj

/-- Every call but the allocation of an inode, and the freeing of this one. -/
theorem InodeIs.step {image : SuperBlock → Block} {op : Op} (h : InodeIs v j s.store)
    (hs' : SeatedOrMany s'.store) (halloc : ∀ mode, op ≠ .allocInode mode)
    (hfree : op = .freeInode j → v = false) (hstep : step image s op = some s') :
    InodeIs v j s'.store := by
  have hsame : s'.store = s.store → InodeIs v j s'.store := fun heq => heq ▸ h
  cases op with
  | allocInode mode => exact absurd rfl (halloc mode)
  | addEntry parent last name index mode =>
    simp only [SyncFS.step, Option.ite_none_right_eq_some, Option.some.injEq] at hstep
    obtain ⟨-, rfl⟩ := hstep
    rcases addEntry_store parent last name index mode s with heq | ⟨ino, heq⟩ <;> rw [heq]
    · exact h
    · exact (inodeIs_inv v j).dentryCreate last ino name index mode h
  | openInode id =>
    simp only [SyncFS.step, Option.ite_none_right_eq_some, Option.some.injEq] at hstep
    obtain ⟨-, rfl⟩ := hstep
    exact hsame (loadTable_store ..)
  | allocFor id =>
    cases hstep
    unfold SyncFS.allocFor
    cases s.opm id with
    | none => exact h
    | some c => exact (inodeIs_inv v j).allocBlock c h
  | setCopy id mode uid gid size => cases hstep; exact h
  | setRecord id ino =>
    simp only [SyncFS.step, Option.ite_none_right_eq_some, Option.some.injEq] at hstep
    obtain ⟨-, rfl⟩ := hstep
    exact hsame (onRecord_store ..)
  | closeInode id => cases hstep; exact hsame (commit_store ..)
  | freeInode id =>
    simp only [SyncFS.step, Option.ite_none_right_eq_some, Option.map_eq_some_iff] at hstep
    obtain ⟨hid, r, hr, rfl⟩ := hstep
    rcases h.freed hid (fun _ hj => hfree (by rw [hj])) hr with hm | hv
    · exact Or.inl hm
    · exact hs'.imp_right fun hs => ⟨hs, hv⟩
  | freeBlock i =>
    simp only [SyncFS.step, Option.ite_none_right_eq_some, Option.map_eq_some_iff] at hstep
    obtain ⟨hi, r, hr, rfl⟩ := hstep
    obtain ⟨b, hb⟩ := freeBlock_groups hr
    rcases h.freed hi (fun hk => by cases hk) hb with hm | hv
    · exact Or.inl hm
    · exact hs'.imp_right fun hs => ⟨hs, hv⟩
  | read i => cases hstep; exact (inodeIs_inv v j).get i false s.store h
  | write i off buf =>
    simp only [SyncFS.step, Option.ite_none_right_eq_some] at hstep
    obtain ⟨-, hstep⟩ := hstep
    have hg := (inodeIs_inv v j).get i true s.store h
    change InodeIs v j (CachedFS.getBlock i true s.store).2 at hg
    generalize CachedFS.getBlock i true s.store = r at hstep hg
    obtain ⟨_ | b, store⟩ := r
    · cases hstep
      exact hg
    · cases hstep
      exact (inodeIs_inv v j).poke i _ _ hg
  | fsync id =>
    simp only [SyncFS.step, Option.ite_none_right_eq_some, Option.some.injEq] at hstep
    obtain ⟨-, rfl⟩ := hstep
    have hgroups := fsync_groups image s id
    refine h.of_seated hs' (Nat.le_of_eq (congrArg Groups.groupCount hgroups.symm)) fun _ hv _ => ?_
    show (s.fsync image id).groups.allocated .inode j = v
    rw [hgroups]
    exact hv

/-! ### Table blocks stay in memory -/

theorem setTable_isSome {g k g' k' : Nat} {b : Option Block} (h : (s.tables g k).isSome)
    (hb : g = g' → k = k' → b.isSome) :
    ((s.setTable g' k' b).tables g k).isSome := by
  show (Function.update s.tables g' (Function.update (s.tables g') k' b) g k).isSome
  by_cases hg : g = g'
  · subst hg
    by_cases hk : k = k'
    · subst hk
      rw [Function.update_self, Function.update_self]
      exact hb rfl rfl
    · rwa [Function.update_self, Function.update_of_ne hk]
  · rwa [Function.update_of_ne hg]

theorem loadTable_isSome {g k g' k' : Nat} (h : (s.tables g k).isSome) :
    ((s.loadTable g' k').tables g k).isSome := by
  unfold loadTable
  split
  · exact setTable_isSome h fun _ _ => rfl
  · exact h

theorem onRecord_isSome {g k : Nat} {f : Block → Block} (h : (s.tables g k).isSome) :
    ((s.onRecord id f).tables g k).isSome := by
  have hload : ((s.loadTable (groupOf id) (tableOf id)).tables g k).isSome := loadTable_isSome h
  refine setTable_isSome hload fun hg hk => ?_
  subst hg hk
  rwa [Option.isSome_map]

theorem commit_isSome {g k : Nat} (h : (s.tables g k).isSome) :
    ((s.commit id).tables g k).isSome := by
  unfold commit
  split
  · exact h
  · split
    · exact onRecord_isSome h
    · exact h

theorem step_tables {image : SuperBlock → Block} {op : Op} {g k : Nat} (h : (s.tables g k).isSome)
    (hstep : step image s op = some s') : (s'.tables g k).isSome := by
  cases op <;> simp only [SyncFS.step, Option.ite_none_right_eq_some, Option.some.injEq,
    Option.map_eq_some_iff] at hstep
  case allocInode mode =>
    subst hstep
    unfold SyncFS.allocInode
    split
    · exact h
    · exact onRecord_isSome h
  case addEntry parent last name index mode =>
    obtain ⟨-, rfl⟩ := hstep
    unfold SyncFS.addEntry
    simp only
    split
    · exact loadTable_isSome h
    · exact onRecord_isSome (loadTable_isSome h)
  case openInode id =>
    obtain ⟨-, rfl⟩ := hstep
    exact loadTable_isSome h
  case allocFor id =>
    subst hstep
    unfold SyncFS.allocFor
    split <;> exact h
  case setCopy => exact hstep ▸ h
  case setRecord id ino =>
    obtain ⟨-, rfl⟩ := hstep
    exact onRecord_isSome h
  case closeInode id =>
    subst hstep
    exact commit_isSome h
  case freeInode id =>
    obtain ⟨-, r, -, rfl⟩ := hstep
    exact loadTable_isSome h
  case freeBlock i =>
    obtain ⟨-, r, -, rfl⟩ := hstep
    exact h
  case read i => exact hstep ▸ h
  case write i off buf =>
    obtain ⟨-, hstep⟩ := hstep
    split at hstep <;> cases hstep <;> exact h
  case fsync id =>
    obtain ⟨-, rfl⟩ := hstep
    exact commit_isSome h

/-- The table block of a new inode is in memory. -/
theorem allocInode_loads {mode : Nat} {served : Bool} {g : Groups}
    (ha : s.groups.alloc .inode = (some (i, served), g)) (hi : g.allocated .inode i = true) :
    ((s.allocInode mode).tables (groupOf i) (tableOf i)).isSome := by
  obtain ⟨bg, hfind, -⟩ := Groups.allocated_iff.mp hi
  unfold SyncFS.allocInode
  rw [ha]
  simp only [onRecord, setTable, Function.update_self, Option.isSome_map]
  unfold loadTable
  split
  · simp [setTable]
  · rename_i hloaded
    cases hb : s.tables (groupOf i) (tableOf i) with
    | some b => rfl
    | none => exact absurd hfind (hloaded bg hb)

/-- The root inode stays allocated. The inodes of the table block that lies over data are
not allocated as long as it is not in memory. -/
structure Mounted (s : SyncFS) : Prop where
  synced : Synced s
  root : InodeIs true rootInode s.store
  last : (s.tables 0 (numInodeTableBlocks - 1)).isSome ∨
    ∀ j, groupOf j = 0 → tableOf j = numInodeTableBlocks - 1 → InodeIs false j s.store

theorem Mounted.step {image : SuperBlock → Block} {op : Op} (h : Mounted s)
    (hop : op ≠ .freeInode rootInode) (hstep : step image s op = some s') : Mounted s' := by
  have hsynced := h.synced.step hstep
  by_cases halloc : ∃ mode, op = .allocInode mode
  case neg =>
    have hother : ∀ mode, op ≠ .allocInode mode := fun mode hc => halloc ⟨mode, hc⟩
    refine ⟨hsynced, h.root.step hsynced.seated hother (fun hc => absurd hc hop) hstep, ?_⟩
    refine h.last.imp (fun hsome => step_tables hsome hstep) fun hlast j hg hk => ?_
    exact (hlast j hg hk).step hsynced.seated hother (fun _ => rfl) hstep
  obtain ⟨mode, rfl⟩ := halloc
  cases hstep
  have hcount : s.store.groups.groupCount ≤ (s.allocInode mode).store.groups.groupCount := by
    rw [allocInode_groups]
    exact Groups.alloc_groupCount .inode s.groups
  refine ⟨hsynced, h.root.of_seated hsynced.seated hcount fun hs hroot hle => ?_, ?_⟩
  · rw [allocInode_groups] at hle ⊢
    obtain ⟨i, -, hout, -⟩ := hs.books.alloc .inode (Nat.le_succ_of_le hle)
    exact hout.keep hroot
  · rcases h.last with hsome | hlast
    · have hstep : step image s (.allocInode mode) = some (s.allocInode mode) := rfl
      exact Or.inl (step_tables hsome hstep)
    rcases Nat.lt_or_ge 32 (s.allocInode mode).store.groups.groupCount with hlt | hge
    · exact Or.inr fun _ _ _ => Or.inl hlt
    have hs := h.synced.seated.resolve_left (Nat.not_lt.mpr (Nat.le_trans hcount hge))
    rw [allocInode_groups] at hge
    obtain ⟨i, ha, hout, -⟩ := hs.books.alloc .inode (Nat.le_succ_of_le hge)
    by_cases hi : groupOf i = 0 ∧ tableOf i = numInodeTableBlocks - 1
    · left
      rw [← hi.1, ← hi.2]
      exact allocInode_loads ha hout.taken
    · right
      intro j hg hk
      refine (hlast j hg hk).of_seated hsynced.seated hcount fun _ hj _ => ?_
      rw [allocInode_groups]
      refine (hout.after .inode j).trans ?_
      rw [if_neg fun hc : _ ∧ j = i => hi (hc.2 ▸ ⟨hg, hk⟩)]
      exact hj

theorem Mounted.recovers (h : Mounted s) (hone : s.groups.groupCount = 1)
    (hlast : s.tables 0 (numInodeTableBlocks - 1) = none) {buf : Block}
    (hshow : SuperBytes.Shows buf s.groups.super) :
    ∃ s', mount (s.unmount buf) = some s' ∧ Recovers s s' ∧ Mounted s' := by
  have hfew : ¬ 32 < s.store.groups.groupCount := by
    rw [show s.store.groups.groupCount = 1 from hone]
    decide
  obtain ⟨hs, hroot⟩ := h.root.resolve_left hfew
  have hfree : ∀ j, groupOf j = 0 → tableOf j = numInodeTableBlocks - 1 →
    s.groups.allocated .inode j = false := by
    intro j hg hk
    have hnone := h.last.resolve_left (by rw [hlast]; simp)
    exact ((hnone j hg hk).resolve_left hfew).2
  obtain ⟨bg, hsingle⟩ := Single.of_seated hs hone hlast
  obtain ⟨s', hmount, r⟩ := mount_unmount hsingle hroot hshow
  have hs' := (r.single hsingle).seated
  refine ⟨s', hmount, r.recovers hsingle hfree, ⟨Or.inr hs', fun id c hc => ?_⟩, ?_,
    Or.inr fun j hg hk => ?_⟩
  · rw [r.opm] at hc
    cases hc
  · exact Or.inr ⟨hs', (r.allocated hsingle .inode rootInode).trans hroot⟩
  · exact Or.inr ⟨hs', (r.allocated hsingle .inode j).trans (hfree j hg hk)⟩

theorem Mounted.sessionStep {image : SuperBlock → Block} {op : SessionOp} (h : Mounted s)
    (hcalm : s.Calm op) (hstep : sessionStep image s op = some s') : Mounted s' := by
  cases op with
  | call op => exact h.step hcalm hstep
  | remount buf =>
    obtain ⟨hshow, hone, hlast⟩ := hcalm
    obtain ⟨s₁, hmount, -, h₁⟩ := h.recovers hone hlast hshow
    cases hmount.symm.trans hstep
    exact h₁

/-! ### From the first mount on -/

theorem Blank.single (h : Blank s) : Single s Groups.rootGroup := by
  exact ⟨seated_empty h.ledger (by rw [h.cache]), h.ledger, h.groups ▸ Groups.format_entries,
    rfl, h.last⟩

theorem format_disk (i : Nat) : format.store.disk (blockOffset i) = Bytes.zero := by
  obtain ⟨t, d, ht, hd, heq⟩ := format_eq
  have hdisk : format.store.disk = writeAll (t.groupWrites 0 Groups.rootGroup) d := by rw [heq]
  rw [hdisk, ht.single.groupWrites_out, hd]

theorem Mounted.blank : Mounted format := by
  have hgroups : format.store.groups = Groups.format := format_blank.groups
  have hs := format_blank.single.seated
  refine ⟨Synced.format, Or.inr ⟨hs, ?_⟩, Or.inr fun j _ hk => Or.inr ⟨hs, ?_⟩⟩
  · rw [hgroups]
    decide
  · rw [hgroups]
    cases hj : Groups.format.allocated .inode j with
    | false => rfl
    | true =>
      rw [(Groups.format_allocated j).mp hj] at hk
      exact absurd hk (by decide)

/-- From the first mount on, through calls and further mounts. -/
theorem remount_recovers (image : SuperBlock → Block) (ops : List SessionOp) (s : SyncFS)
    (hs : mount blankDisk = some s) (hcalm : Runs.Guarded (sessionStep image) Calm ops s) :
    Runs.Along (sessionStep image) (fun s => s.groups.groupCount = 1 →
      s.tables 0 (numInodeTableBlocks - 1) = none → (∃ buf, SuperBytes.Shows buf s.groups.super) ∧
        ∀ buf, SuperBytes.Shows buf s.groups.super → ∃ s', mount (s.unmount buf) = some s' ∧
        Recovers s s') ops s := by
  cases mount_blank.symm.trans hs
  refine Runs.along_of_guarded (fun s h hone hlast => ⟨?_, fun buf hshow => ?_⟩)
    (fun s op s' h => h.sessionStep) ops format
    Mounted.blank hcalm
  · have hfew : ¬ 32 < s.groups.groupCount := by rw [hone]; decide
    have hs := (h.root.resolve_left hfew).1
    exact ⟨_, SuperBytes.shows_put (SuperBytes.narrow_of_ledger hs.books.ledger hs.few) Bytes.zero⟩
  · obtain ⟨s', hmount, hrec, -⟩ := h.recovers hone hlast hshow
    exact ⟨s', hmount, hrec⟩

/-- A file in the root, and its first block written. -/
def firstFile : List SessionOp :=
  [.allocInode 33188, .addEntry rootInode none [97] 1 33188, .openInode 1, .allocFor 1,
    .write 1 0 [65], .closeInode 1].map .call

theorem firstFile_calm (image : SuperBlock → Block) (s : SyncFS) :
    Runs.Guarded (sessionStep image) Calm firstFile s :=
  fun _ _ => ⟨nofun, fun _ _ => ⟨nofun,
    fun _ _ => ⟨nofun, fun _ _ => ⟨nofun, fun _ _ => ⟨nofun, fun _ _ => ⟨nofun, trivial⟩⟩⟩⟩⟩⟩

theorem firstFile_evaluates :
    ((Runs.run (sessionStep fun _ => Bytes.zero) firstFile format).map fun s =>
    (s.groups.groupCount, (s.tables 0 (numInodeTableBlocks - 1)).isNone,
      (s.contents 1).map fun b => b ⟨0, by decide⟩)) =
      some (1, true, some 65) := by
  decide +kernel

theorem remount_recovers_file :
    ∃ s, Runs.run (sessionStep fun _ => Bytes.zero) firstFile format = some s ∧
    (s.contents 1).map (fun b => b ⟨0, by decide⟩) = some 65 ∧
    Runs.Along (sessionStep fun _ => Bytes.zero) (fun s => s.groups.groupCount = 1 →
      s.tables 0 (numInodeTableBlocks - 1) = none → (∃ buf, SuperBytes.Shows buf s.groups.super) ∧
        ∀ buf, SuperBytes.Shows buf s.groups.super → ∃ s', mount (s.unmount buf) = some s' ∧
        Recovers s s')
      (firstFile ++ [.remount (SuperBytes.put s.groups.super Bytes.zero),
        .call (.allocInode 33188)]) format := by
  obtain ⟨s, hrun, hval⟩ := Option.map_eq_some_iff.mp firstFile_evaluates
  simp only [Prod.mk.injEq, Option.isNone_iff_eq_none] at hval
  obtain ⟨hone, hlast, hbyte⟩ := hval
  have hm : Runs.Along (sessionStep fun _ => Bytes.zero) Mounted firstFile format :=
    Runs.along_of_guarded (fun _ h => h) (fun _ _ _ h => h.sessionStep) firstFile format
      Mounted.blank (firstFile_calm _ format)
  have hfew : ¬ 32 < s.groups.groupCount := by rw [hone]; decide
  have hs := ((hm.last hrun).root.resolve_left hfew).1
  have hshow := SuperBytes.shows_put (SuperBytes.narrow_of_ledger hs.books.ledger hs.few) Bytes.zero
  refine ⟨s, hrun, hbyte, remount_recovers _ _ format mount_blank ?_⟩
  exact (firstFile_calm _ format).append hrun fun _ _ =>
    ⟨⟨hshow, hone, hlast⟩, fun _ _ => ⟨nofun, trivial⟩⟩

end SyncFS

end NaiveFS
