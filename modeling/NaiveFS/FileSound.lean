import NaiveFS.WriteSound

/-!
# Files behave like flat byte sequences

The invariant of an open file (`FileOk`) and its preservation by opening a
handle, `copyToBuf` and `write`. Contents, block map and ownership are read off
the inode by the code's own `bfSeek`.
-/

namespace NaiveFS

open PointerTree BlockLayer FlatBytes

/-! ## What a file holds -/

/-- The block that file block `k` is mapped to. Index 0 is a block like any
other, so what is mapped is told by `i_blocks`. -/
def File.blockOf (f : File) (k : Nat) : Option Nat :=
  if k < numAlignedBlocks f.ino.iBlocks then
    match bfSeek f.ino f.store .init k with
    | (err, c) => if err = 0 then some c.blockId else none
  else none

def File.byteAt (f : File) (i : Nat) : UInt8 :=
  match f.blockOf (i / blockSize) with
  | none => 0
  | some id => ((f.store.data id).getD Bytes.zero).byte (i % blockSize)

/-- The block at a position of the tree, found by following pointers. -/
def nodeAt (ino : TreeInode) (s : BlockStore) (p : Pos) : Option Nat :=
  match p with
  | .data k =>
    match bfSeek ino s .init k with
    | (err, c) => if err = 0 then some c.blockId else none
  | .ind => some (ino.iBlock indBlock)
  | .dind => some (ino.iBlock dindBlock)
  | .dchild c => s.ptr (ino.iBlock dindBlock) c
  | .tind => some (ino.iBlock tindBlock)
  | .tchild a => s.ptr (ino.iBlock tindBlock) a
  | .tgrand a b => (s.ptr (ino.iBlock tindBlock) a).bind fun i => s.ptr i b

/-- Data and pointer blocks of the file. -/
def File.Owns (f : File) (id : Nat) : Prop :=
  ∃ p, Live (numAlignedBlocks f.ino.iBlocks) p ∧ nodeAt f.ino f.store p = some id

section
variable {f : File} {n : Nat} {loc : Pos → Nat}

theorem Tree.nodeAt_eq {s : BlockStore} {ino : TreeInode} (t : Tree s ino n loc) (hn : n < 2 ^ 29)
    {p : Pos} (hp : Live n p) : nodeAt ino s p = some (loc p) := by
  cases p with
  | data k =>
    obtain ⟨c, hs, hc, -⟩ := bfSeek_spec t hp hn .init
    simp only [nodeAt, hs, ite_true, hc.block]
  | ind => exact congrArg some (t.root_slot _ _ hp rfl)
  | dind => exact congrArg some (t.root_slot _ _ hp rfl)
  | tind => exact congrArg some (t.root_slot _ _ hp rfl)
  | dchild c =>
    have hr := t.root_slot _ _ (t.cell_slot _ _ _ hp rfl).1 rfl
    simp only [nodeAt, dindBlock_eq, hr]
    exact t.ptr_eq hp rfl
  | tchild a =>
    have hr := t.root_slot _ _ (t.cell_slot _ _ _ hp rfl).1 rfl
    simp only [nodeAt, tindBlock_eq, hr]
    exact t.ptr_eq hp rfl
  | tgrand a b =>
    have hq := (t.cell_slot _ _ _ hp rfl).1
    have hr := t.root_slot _ _ (t.cell_slot _ _ _ hq rfl).1 rfl
    simp only [nodeAt, tindBlock_eq, hr, t.ptr_eq hq rfl, Option.bind_some]
    exact t.ptr_eq hp rfl

variable (d : DataOk f.store f.ino n loc) (hn : n < 2 ^ 29)
include d

theorem DataOk.numBlocks : numAlignedBlocks f.ino.iBlocks = n := by
  rw [numAlignedBlocks_eq, d.blocks, Nat.mul_div_cancel_left n (by omega)]

include hn

theorem DataOk.blockOf_eq (k : Nat) :
    f.blockOf k = if k < n then some (loc (.data k)) else none := by
  unfold File.blockOf
  rw [d.numBlocks]
  by_cases hk : k < n
  · obtain ⟨c, hs, hc, -⟩ := bfSeek_spec d.tree hk hn .init
    simp only [if_pos hk, hs, ite_true, hc.block]
  · rw [if_neg hk, if_neg hk]

theorem DataOk.byteAt_eq : f.byteAt = view f.store loc n := by
  funext i
  unfold File.byteAt view flat dataBlocks
  rw [d.blockOf_eq hn]
  by_cases hk : i / blockSize < n
  · simp only [if_pos hk]
  · simp only [if_neg hk, Bytes.byte_zero]

theorem DataOk.owns_iff (id : Nat) : f.Owns id ↔ ∃ p, Live n p ∧ loc p = id := by
  unfold File.Owns
  rw [d.numBlocks]
  constructor
  · rintro ⟨p, hp, hid⟩
    rw [d.tree.nodeAt_eq hn hp] at hid
    exact ⟨p, hp, Option.some.inj hid⟩
  · rintro ⟨p, hp, rfl⟩
    exact ⟨p, hp, d.tree.nodeAt_eq hn hp⟩

end

/-! ## The invariant -/

structure FileOk (f : File) (n : Nat) (loc : Pos → Nat) : Prop where
  data : DataOk f.store f.ino n loc
  size : f.ino.iSize ≤ 2 ^ 32 - 4096
  count : n ≤ 2 * ceilBlocks f.ino.iSize
  cursors : ∀ c ∈ f.fds, CursorOk loc n c

section
variable {f : File} {n : Nat} {loc : Pos → Nat} (ok : FileOk f n loc)
include ok

theorem FileOk.lt : n < 2 ^ 29 := by
  have h := ok.count
  have h' := ok.size
  unfold ceilBlocks at h
  omega

theorem FileOk.cursor (h : Nat) : CursorOk loc n (f.cursor h) := by
  unfold File.cursor
  rw [List.getD_eq_getElem?_getD]
  cases hc : f.fds[h]? with
  | none => exact CursorOk.init loc n
  | some c => exact ok.cursors c (List.mem_of_getElem? hc)

theorem FileOk.setCursor {c : Cursor} (hc : CursorOk loc n c) (h : Nat) :
    FileOk (f.setCursor h c) n loc := by
  refine ⟨ok.data, ok.size, ok.count, fun c' hc' => ?_⟩
  rcases List.mem_or_eq_of_mem_set hc' with hm | rfl
  · exact ok.cursors c' hm
  · exact hc

theorem FileOk.openHandle : FileOk f.openHandle n loc := by
  refine ⟨ok.data, ok.size, ok.count, fun c hc => ?_⟩
  rcases List.mem_append.mp hc with hm | hm
  · exact ok.cursors c hm
  · cases List.mem_singleton.mp hm
    exact CursorOk.init loc n

/-! ## Reading -/

theorem copyLoop_cursor :
    ∀ fuel (offset size : Nat) (out : List UInt8) {c : Cursor} {k : Nat}, SyncedAt loc k c → k < n →
    (size = 0 ∨ f.ino.iSize ≤ offset ∨ offset = 4096 * (k + 1)) →
    ∃ k', SyncedAt loc k' (copyLoop f f.ino.iSize fuel c offset size out).2.2 ∧ k' < n := by
  intro fuel
  induction fuel with
  | zero => intro offset size out c k hc hk _; exact ⟨k, hc, hk⟩
  | succ fuel ih =>
    intro offset size out c k hc hk hoff
    unfold copyLoop
    by_cases hz : size = 0
    · rw [if_pos hz]; exact ⟨k, hc, hk⟩
    by_cases hend : f.ino.iSize ≤ offset
    · rw [if_neg hz, if_pos hend]; exact ⟨k, hc, hk⟩
    rw [if_neg hz, if_neg hend, blockSize_eq]
    have hs := ok.data.size
    have hs' := ok.size
    have hk₁ : k + 1 < n := by omega
    obtain ⟨c₂, hnext, hc₂, -⟩ := nextBlock_spec ok.data.tree hc hk₁ (by omega)
    obtain ⟨b, hb⟩ := Option.isSome_iff_exists.mp (ok.data.tree.alloc (.data (k + 1)) hk₁)
    simp only [hnext, ne_eq, not_true_eq_false, ite_false, hc₂.block, File.getBytes, hb,
      Option.map_some]
    apply ih _ _ _ hc₂ hk₁
    rw [u64_of_lt (by omega)]
    omega

theorem copyToBuf_ok (h offset size : Nat) : FileOk (copyToBuf f h offset size).2.2 n loc := by
  unfold copyToBuf
  by_cases hend : f.ino.iSize ≤ offset
  · simp only [if_pos hend]; exact ok
  have hs := ok.data.size
  have hs' := ok.size
  have hT : offset / 4096 < n := by omega
  obtain ⟨c₁, hupd, hpos, -, hsync⟩ := updCache_spec ok.data.tree ok.lt (ok.cursor h)
  have hp := (ok.cursor h).pos
  have hlt := ok.lt
  obtain ⟨c₂, hseek, hc₂, -⟩ := seek_spec (k := offset / 4096) (c := c₁) ok.data.tree ok.lt
    (fun h1 => by rw [hpos] at h1 ⊢; exact hsync (by omega)) (by omega) hT (by omega)
  obtain ⟨b, hb⟩ := Option.isSome_iff_exists.mp (ok.data.tree.alloc (.data (offset / 4096)) hT)
  simp only [if_neg hend, hupd, ne_eq, not_true_eq_false, ite_false, blockSize_eq,
    u32_of_lt (show offset / 4096 < 2 ^ 32 by omega), hseek, File.getBytes, hc₂.block, hb]
  generalize hcsz : min size (4096 - offset % 4096) = csz
  obtain ⟨k', hc', hk'⟩ := copyLoop_cursor ok size (u64 (offset + csz)) (size - csz)
    ((List.range csz).map fun i => b.byte (offset % 4096 + i)) hc₂ hT
      (by rw [u64_of_lt (by omega)]; omega)
  exact ok.setCursor (hc'.cursorOk hk') h

/-! ## Writing -/

/-- The offset a write starts at. -/
def File.start (f : File) (offset : Nat) (append : Bool) : Nat :=
  if append then f.ino.iSize else offset

theorem updCache_ready (h : Nat) :
    ∃ c, updCache f.ino f.store (f.cursor h) = (0, c) ∧ Ready loc n c ∧ CursorOk loc n c :=
  (ok.cursor h).ready ok.data.tree ok.lt

/-- The section under the exclusive lock, with the cursor the handle is left with. -/
theorem extend_spec (h o : Nat) {c : Cursor} {buf : List UInt8} (hready : Ready loc n c)
    (hne : buf ≠ []) (hend : o + buf.length ≤ 2 ^ 32 - 4096) (hext : f.ino.iSize < o + buf.length)
    (hfit : o ≤ f.ino.iSize ∨ SparseFits f.ino.iSize n o) :
    ∃ r f' c', writeExtend f c buf o = some (r, f', c') ∧ (f'.store.free ≠ [] →
      r = toInt32 buf.length ∧ f'.ino.iSize = o + buf.length ∧ f'.fds = f.updAll.fds ∧
      ∃ loc' n', FileOk (f'.setCursor h c') n' loc' ∧
        (f'.setCursor h c').byteAt = patch f.byteAt o buf ∧
        Evolves f.store loc n f'.store loc' n') := by
  obtain ⟨r, f', c', hw, hspec⟩ := writeExtend_spec ok.data ok.count hready hne hend hext hfit
  refine ⟨r, f', c', hw, fun hfree => ?_⟩
  obtain ⟨hr, hsz, hfds, loc', n', k', w, hc', hk', hcnt⟩ := hspec hfree
  have hok : FileOk f' n' loc' := by
    refine ⟨w.data, by omega, hcnt, fun c hc => ?_⟩
    rw [hfds] at hc
    obtain ⟨c₀, hc₀, rfl⟩ := List.mem_map.mp hc
    refine ⟨(ok.cursors c₀ hc₀).pos.imp_left fun hlt => Nat.lt_of_lt_of_le hlt
      w.evolves.le, by simp⟩
  refine ⟨hr, hsz, hfds, loc', n', hok.setCursor (hc'.cursorOk hk') h, ?_, w.evolves⟩
  rw [ok.data.byteAt_eq ok.lt, ← w.view]
  exact DataOk.byteAt_eq (f := f'.setCursor h c') w.data hok.lt

theorem write_spec (h offset : Nat) (buf : List UInt8) (append : Bool) (hne : buf ≠ [])
    (hend : f.start offset append + buf.length ≤ 2 ^ 32 - 4096)
    (hfit : f.start offset append ≤ f.ino.iSize ∨
      SparseFits f.ino.iSize n (f.start offset append)) :
    ∃ r f', write f h buf offset append = some (r, f') ∧ (f'.store.free ≠ [] →
      r = toInt32 buf.length ∧ f'.ino.iSize = max f.ino.iSize (f.start offset append + buf.length) ∧
      ∃ loc' n', FileOk f' n' loc' ∧ f'.byteAt = patch f.byteAt (f.start offset append) buf ∧
        Evolves f.store loc n f'.store loc' n') := by
  obtain ⟨c₁, hupd, hready, -⟩ := updCache_ready ok h
  unfold write
  simp only [hupd, ne_eq, not_true_eq_false, ite_false]
  rw [show (if append = true then f.ino.iSize else offset) = f.start offset append from rfl,
    u64_of_lt (show f.start offset append + buf.length < 2 ^ 64 by omega)]
  generalize f.start offset append = o at hend hfit ⊢
  by_cases hext : f.ino.iSize < o + buf.length
  · rw [if_pos hext]
    obtain ⟨r, f', c', hw, hspec⟩ := extend_spec ok h o hready hne hend hext hfit
    simp only [hw]
    refine ⟨r, _, rfl, fun hfree => ?_⟩
    obtain ⟨hr, hsz, -, loc', n', hok, hbytes, hev⟩ := hspec hfree
    exact ⟨hr, hsz.trans (Nat.max_eq_right (Nat.le_of_lt hext)).symm, loc', n', hok, hbytes, hev⟩
  · rw [if_neg hext]
    obtain ⟨s', c', k', hw, hfree, w, hc', hk'⟩ :=
      writeInPlace_spec ok.data ok.lt hready hne (Nat.not_lt.mp hext) ok.size
    simp only [hw]
    refine ⟨_, _, rfl, fun _ => ?_⟩
    have hok : FileOk { f with store := s' } n loc := ⟨w.data, ok.size, ok.count, ok.cursors⟩
    refine ⟨rfl, (Nat.max_eq_left (Nat.not_lt.mp hext)).symm, loc, n,
      hok.setCursor (hc'.cursorOk hk') h, ?_, w.evolves⟩
    rw [ok.data.byteAt_eq ok.lt, ← w.view]
    exact DataOk.byteAt_eq (f := File.setCursor { f with store := s' } h c') w.data ok.lt

end

/-! ## Runs -/

def File.create (mode : Nat) (s : BlockStore) : File := ⟨.init mode, s, []⟩

/-- The states of a file: created empty, then handles are opened, reads and
non-empty writes within the size limit are done through them in any order. The
disk is never used up, and a write may start where `allowed` says so. -/
inductive FileRun (allowed : File → Nat → Prop) : File → Prop
  | create (mode : Nat) (s : BlockStore) : FileRun allowed (.create mode s)
  | openHandle {f : File} : FileRun allowed f → FileRun allowed f.openHandle
  | read {f : File} (h offset size : Nat) : FileRun allowed f →
    FileRun allowed (copyToBuf f h offset size).2.2
  | write {f f' : File} {h offset : Nat} {buf : List UInt8} {append : Bool} {r : Int} :
    FileRun allowed f → buf ≠ [] →
      allowed f (f.start offset append) → f.start offset append + buf.length ≤ 2 ^ 32 - 4096 →
      write f h buf offset append = some (r, f') → f'.store.free ≠ [] → FileRun allowed f'

theorem FileOk.create (mode : Nat) (s : BlockStore) : FileOk (.create mode s) 0 fun _ => 0 := by
  refine ⟨⟨Tree.empty _ _ _, rfl, Nat.le_refl 0, fun i _ => ?_⟩, Nat.zero_le _, Nat.zero_le _,
    fun _ h => by cases h⟩
  unfold view flat dataBlocks
  rw [if_neg (Nat.not_lt_zero _), Bytes.byte_zero]

theorem FileRun.ok {allowed : File → Nat → Prop}
    (hal : ∀ f o, allowed f o → o ≤ f.ino.iSize ∨
      SparseFits f.ino.iSize (numAlignedBlocks f.ino.iBlocks) o)
    {f : File} (hr : FileRun allowed f) : ∃ n loc, FileOk f n loc := by
  induction hr with
  | create mode s => exact ⟨0, _, FileOk.create mode s⟩
  | openHandle _ ih =>
    obtain ⟨n, loc, ok⟩ := ih
    exact ⟨n, loc, ok.openHandle⟩
  | read h offset size _ ih =>
    obtain ⟨n, loc, ok⟩ := ih
    exact ⟨n, loc, copyToBuf_ok ok h offset size⟩
  | @write f f' h offset buf append r _ hne hstart hend hw hfree ih =>
    obtain ⟨n, loc, ok⟩ := ih
    have hfit := hal _ _ hstart
    rw [ok.data.numBlocks] at hfit
    obtain ⟨r', f'', hw', hspec⟩ := write_spec ok h offset buf append hne hend hfit
    rw [hw] at hw'
    simp only [Option.some.injEq, Prod.mk.injEq] at hw'
    obtain ⟨rfl, rfl⟩ := hw'
    obtain ⟨-, -, loc', n', ok', -, -⟩ := hspec hfree
    exact ⟨n', loc', ok'⟩

/-! ## Contiguous and in-place writes -/

def Contiguous (f : File) (o : Nat) : Prop := o ≤ f.ino.iSize

theorem FileOk.mapped {f : File} {n : Nat} {loc : Pos → Nat} (ok : FileOk f n loc) {k : Nat}
    (hk : k * 4096 < f.ino.iSize) :
    ∃ id, f.blockOf k = some id ∧ (f.store.data id).isSome ∧ f.Owns id := by
  have hs := ok.data.size
  have hkn : k < n := by omega
  refine ⟨loc (.data k), ?_, ok.data.tree.alloc (.data k) hkn,
    (ok.data.owns_iff ok.lt _).mpr ⟨.data k, hkn, rfl⟩⟩
  rw [ok.data.blockOf_eq ok.lt, if_pos hkn]

theorem FileOk.cursor_block {f : File} {n : Nat} {loc : Pos → Nat} (ok : FileOk f n loc)
    {c : Cursor} (hc : c ∈ f.fds) (hflag : c.cacheUpdateFlag = false) {id : Nat}
    (hid : f.blockOf c.blockIdInFile = some id) : c.blockId = id := by
  rw [ok.data.blockOf_eq ok.lt] at hid
  by_cases hk : c.blockIdInFile < n
  · rw [if_pos hk] at hid
    rw [((ok.cursors c hc).sync hflag hk).block]
    exact Option.some.inj hid
  · rw [if_neg hk] at hid
    cases hid

theorem contiguous_write {f : File} (hr : FileRun Contiguous f) (h offset : Nat)
    (buf : List UInt8) (append : Bool) (hne : buf ≠ [])
    (hstart : f.start offset append ≤ f.ino.iSize)
    (hend : f.start offset append + buf.length ≤ 2 ^ 32 - 4096) :
    ∃ r f', write f h buf offset append = some (r, f') ∧ (f'.store.free ≠ [] →
      r = toInt32 buf.length ∧ (buf.length < 2 ^ 31 → r = buf.length) ∧
      f'.ino.iSize = max f.ino.iSize (f.start offset append + buf.length) ∧
      f'.byteAt = patch f.byteAt (f.start offset append) buf ∧
      (∀ k, k * 4096 < f'.ino.iSize → ∃ id, f'.blockOf k = some id ∧ (f'.store.data id).isSome) ∧
      ∀ c ∈ f'.fds, c.cacheUpdateFlag = false → ∀ id, f'.blockOf c.blockIdInFile = some id →
      c.blockId = id) := by
  obtain ⟨n, loc, ok⟩ := hr.ok fun _ _ => Or.inl
  obtain ⟨r, f', hw, hspec⟩ := write_spec ok h offset buf append hne hend (Or.inl hstart)
  refine ⟨r, f', hw, fun hfree => ?_⟩
  obtain ⟨hret, hsz, loc', n', ok', hbytes, -⟩ := hspec hfree
  refine ⟨hret, fun hlt => hret.trans (toInt32_of_lt hlt), hsz, hbytes, fun k hk => ?_,
    fun c hc hflag id hid => ?_⟩
  · obtain ⟨id, hb, hs, -⟩ := ok'.mapped hk
    exact ⟨id, hb, hs⟩
  · exact ok'.cursor_block hc hflag hid

theorem contiguous_write_one : ∃ f, f = File.create 0 (.blank [5, 6] (by decide) (by decide)) ∧
    ∃ r f', write f 0 [7] 0 false = some (r, f') ∧ r = 1 ∧ f'.ino.iSize = 1 ∧ f'.byteAt 0 = 7 := by
  refine ⟨_, rfl, ?_⟩
  obtain ⟨r, f', hw, hspec⟩ :=
    contiguous_write (.create 0 (.blank [5, 6] (by decide) (by decide))) 0 0 [7] false
    (List.cons_ne_nil _ _) (Nat.le_refl 0) (by decide)
  have hfree : (write (File.create 0 (.blank [5, 6] (by decide) (by decide))) 0 [7] 0 false).map
      (fun r => r.2.store.free) = some [6] := by decide
  rw [hw] at hfree
  obtain ⟨-, hr, hsz, hbytes, -⟩ := hspec fun h => by rw [Option.map_some, h] at hfree; cases hfree
  refine ⟨r, f', hw, hr (by decide), hsz, ?_⟩
  rw [hbytes]
  rfl

/-! ## The result is an `int` -/

theorem toInt32_lt (n : Nat) : toInt32 n < 2 ^ 31 := by
  unfold toInt32
  exact Int.bmod_lt (by decide)

theorem neg_einval_le : -einval ≤ 0 := by decide

theorem neg_eio_le : -eio ≤ 0 := by decide

section
variable (ino : TreeInode) (s : BlockStore) (c : Cursor)

theorem Cursor.hop_err (id off : Nat) : (c.hop s id off).1 ≤ 0 := by
  unfold hop
  split
  · exact neg_einval_le
  · exact Int.le_refl 0

theorem Cursor.hop1_err (id off : Nat) {k : Cursor → Int × Cursor} (hk : ∀ c, (k c).1 ≤ 0) :
    (c.hop1 s id off k).1 ≤ 0 := by
  unfold hop1
  split
  · exact neg_einval_le
  · exact hk _

theorem Cursor.hop2_err (id off : Nat) {k : Cursor → Int × Cursor} (hk : ∀ c, (k c).1 ≤ 0) :
    (c.hop2 s id off k).1 ≤ 0 := by
  unfold hop2
  split
  · exact neg_einval_le
  · exact hk _

theorem bfSeek_err (new : Nat) : (bfSeek ino s c new).1 ≤ 0 := by
  unfold bfSeek
  simp only
  split
  · exact Int.le_refl 0
  split
  · exact Cursor.hop_err ..
  split
  · exact Cursor.hop1_err _ _ _ _ fun c => c.hop_err ..
  split
  · exact Cursor.hop1_err _ _ _ _ fun c => c.hop2_err _ _ _ fun c => c.hop_err ..
  · exact neg_einval_le

theorem nextBlock_err : (nextBlock ino s c).1 ≤ 0 := by
  unfold nextBlock
  simp only
  split
  · split
    · exact Int.le_refl 0
    · exact Cursor.hop_err ..
  split
  · split
    · exact Cursor.hop_err ..
    · exact Cursor.hop1_err _ _ _ _ fun c => c.hop_err ..
  split
  · split
    · split
      · exact Cursor.hop1_err _ _ _ _ fun c => c.hop_err ..
      · exact Cursor.hop_err ..
    · exact Cursor.hop1_err _ _ _ _ fun c => c.hop2_err _ _ _ fun c => c.hop_err ..
  split
  · split
    · split
      · exact Cursor.hop1_err _ _ _ _ fun c => c.hop2_err _ _ _ fun c => c.hop_err ..
      · exact Cursor.hop2_err _ _ _ _ fun c => c.hop_err ..
    · exact Cursor.hop_err ..
  · exact neg_einval_le

theorem seek_err (new : Nat) : (seek ino s c new).1 ≤ 0 := by
  unfold seek
  simp only
  split
  · exact Int.le_refl 0
  split
  · split
    · exact Int.le_refl 0
    split
    · exact Cursor.hop_err ..
    · exact bfSeek_err ..
  split
  · split
    · exact Int.le_refl 0
    split
    · exact Cursor.hop_err ..
    split
    · exact Cursor.hop2_err _ _ _ _ fun c => c.hop_err ..
    · exact bfSeek_err ..
  · exact Int.le_refl 0

theorem updCache_err : (updCache ino s c).1 ≤ 0 := by
  unfold updCache
  split
  · exact bfSeek_err ..
  · exact Int.le_refl 0

end

theorem lt_of_err {e : Int} (h : e ≤ 0) : e < 2 ^ 31 := Int.lt_of_le_of_lt h (by decide)

theorem extendLoop_lt :
    ∀ fuel f c offset ret buf, (extendLoop fuel f c offset ret buf).1 < 2 ^ 31 := by
  intro fuel
  induction fuel with
  | zero =>
    intro f c offset ret buf
    simp only [extendLoop, toInt32_lt]
  | succ fuel ih =>
    intro f c offset ret buf
    simp only [extendLoop]
    split
    · simp only [toInt32_lt]
    split
    · simp only [toInt32_lt]
    split
    · exact lt_of_err neg_eio_le
    split
    · exact lt_of_err neg_eio_le
    · exact ih ..

theorem overwriteLoop_lt (isize : Nat) : ∀ fuel f c offset ret buf,
    (overwriteLoop isize fuel f c offset ret buf).1 < 2 ^ 31 := by
  intro fuel
  induction fuel with
  | zero =>
    intro f c offset ret buf
    simp only [overwriteLoop, toInt32_lt]
  | succ fuel ih =>
    intro f c offset ret buf
    simp only [overwriteLoop]
    split
    · simp only [toInt32_lt]
    split
    · simp only [toInt32_lt]
    split
    · exact lt_of_err (nextBlock_err ..)
    split
    · exact lt_of_err neg_einval_le
    · exact ih ..

theorem writeExtend_lt {f f' : File} {c c' : Cursor} {buf : List UInt8} {offset : Nat} {r : Int}
    (h : writeExtend f c buf offset = some (r, f', c')) : r < 2 ^ 31 := by
  unfold writeExtend at h
  split at h
  · cases h
  · simp only [Option.some.injEq, Prod.mk.injEq] at h
    rw [← h.1]
    decide
  · simp only at h
    split at h
    · simp only [Option.some.injEq, Prod.mk.injEq] at h
      rw [← h.1]
      exact lt_of_err (seek_err ..)
    split at h
    · simp only [Option.some.injEq, Prod.mk.injEq] at h
      rw [← h.1]
      exact lt_of_err neg_einval_le
    · simp only [Option.some.injEq] at h
      have hl : (r, f', c').1 < 2 ^ 31 := by
        rw [← h]
        exact extendLoop_lt ..
      exact hl

theorem write_lt {f f' : File} {h offset : Nat} {buf : List UInt8} {append : Bool} {r : Int}
    (hw : write f h buf offset append = some (r, f')) : r < 2 ^ 31 := by
  unfold write at hw
  simp only at hw
  generalize (if append = true then f.ino.iSize else offset) = o at hw
  split at hw
  · simp only [Option.some.injEq, Prod.mk.injEq] at hw
    rw [← hw.1]
    exact lt_of_err (updCache_err ..)
  split at hw
  · split at hw
    · cases hw
    · rename_i hx
      simp only [Option.some.injEq, Prod.mk.injEq] at hw
      rw [← hw.1]
      exact writeExtend_lt hx
  · simp only [Option.some.injEq, Prod.mk.injEq] at hw
    rw [← hw.1]
    unfold writeInPlace
    simp only
    split
    · exact lt_of_err (seek_err ..)
    split
    · exact lt_of_err neg_einval_le
    · exact overwriteLoop_lt ..

/-- A write of 2^31 bytes to an empty file, on a disk with room for it. -/
theorem contiguous_write_int : ∃ f, FileRun Contiguous f ∧
    ∃ r f', write f 0 (List.replicate (2 ^ 31) 0) 0 false = some (r, f') ∧ r ≠ 2 ^ 31 := by
  have hlen : (List.replicate (2 ^ 31) (0 : UInt8)).length = 2 ^ 31 := List.length_replicate
  have hne : List.replicate (2 ^ 31) (0 : UInt8) ≠ [] := by
    intro h
    rw [h] at hlen
    cases hlen
  have hlt : ∀ i ∈ List.range (2 ^ 20), i < 2 ^ 32 := fun i hi => by
    have := List.mem_range.mp hi
    omega
  refine ⟨.create 0 (.blank (List.range (2 ^ 20)) List.nodup_range hlt), .create _ _, ?_⟩
  obtain ⟨r, f', hw, -⟩ :=
    write_spec (FileOk.create 0 (.blank (List.range (2 ^ 20)) List.nodup_range hlt)) 0 0
    (List.replicate (2 ^ 31) 0) false hne (show 0 + _ ≤
      _ by rw [hlen]; decide) (Or.inl (Nat.le_refl 0))
  exact ⟨r, f', hw, Int.ne_of_lt (write_lt hw)⟩

end NaiveFS
