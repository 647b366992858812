import NaiveFS.FileSound
import NaiveFS.SeekSound

/-!
# Reading up to the end of a file

`copy_to_buf` cuts its first chunk at the end of the block and every later one at
the end of the file. A read that ends in the block it starts in is therefore not
cut at the end of the file.
-/

namespace NaiveFS

open FlatBytes

def File.Mapped (f : File) : Prop :=
  ∀ k, k * 4096 < f.ino.iSize → ∃ id, f.blockOf k = some id ∧ (f.store.data id).isSome

/-- A handle is in sync with the block tree unless its flag is up. -/
def File.Current (f : File) (c : Cursor) : Prop :=
  c.cacheUpdateFlag = false → InSync f.ino f.store c

/-- The caller's buffer after `copy_to_buf`. -/
def readInto (f : File) (h offset size : Nat) (buf : Nat → UInt8) : Nat → UInt8 :=
  patch buf 0 (copyToBuf f h offset size).2.1

/-- What a read is to do: stop at the end of the file. -/
structure ReadsToEnd (f : File) (h offset size : Nat) : Prop where
  result : (copyToBuf f h offset size).1 = (min size (f.ino.iSize - offset) : Nat)
  bytes : ∀ buf i, readInto f h offset size buf i =
    if i < min size (f.ino.iSize - offset) then f.byteAt (offset + i) else buf i

/-- The file bytes from `o` on. -/
def File.bytesAt (f : File) (o n : Nat) : List UInt8 := (List.range n).map fun i => f.byteAt (o + i)

section
variable {f : File} {c : Cursor} {k : Nat}

@[simp] theorem File.bytesAt_length (f : File) (o n : Nat) : (f.bytesAt o n).length = n :=
  by simp [bytesAt]

@[simp] theorem File.bytesAt_zero (f : File) (o : Nat) : f.bytesAt o 0 = [] := rfl

theorem File.bytesAt_append (f : File) (o a b : Nat) :
    f.bytesAt o a ++ f.bytesAt (o + a) b = f.bytesAt o (a + b) := by
  simp [bytesAt, List.range_add, Nat.add_assoc]

theorem patch_bytesAt (buf : Nat → UInt8) (o n i : Nat) :
    patch buf 0 (f.bytesAt o n) i = if i < n then f.byteAt (o + i) else buf i := by
  by_cases hi : i < n
  · rw [patch_in _ (Nat.zero_le i) (by simpa using hi), if_pos hi]
    simp [File.bytesAt, List.getD_eq_getElem?_getD, hi]
  · rw [patch_out _ (Or.inr (by simpa using hi)), if_neg hi]

/-! ## Cursors on a mapped file -/

theorem blockOf_eq_some {id : Nat} (h : f.blockOf k = some id) :
    (bfSeek f.ino f.store .init k).1 = 0 ∧ (bfSeek f.ino f.store .init k).2.blockId = id := by
  unfold File.blockOf at h
  split at h
  · generalize bfSeek f.ino f.store .init k = r at h
    obtain ⟨err, c⟩ := r
    simp only at h
    split at h
    · exact ⟨‹_›, Option.some.inj h⟩
    · cases h
  · cases h

/-- The cursor stands on block `k` of the file. -/
structure Stands (f : File) (k : Nat) (c : Cursor) : Prop where
  sync : InSync f.ino f.store c
  pos : c.blockIdInFile = k
  block : ∀ id, f.blockOf k = some id → c.blockId = id

theorem Stands.of_bfSeek {c₀ : Cursor} (h : bfSeek f.ino f.store c₀ k = (0, c)) : Stands f k c := by
  refine ⟨.of_bfSeek h, (bfSeek_again h).1, fun id hid => ?_⟩
  obtain ⟨hcode, hblock⟩ := blockOf_eq_some hid
  have hstart := (bfSeek_start f.ino f.store k c₀ .init).2 hcode
  rw [h, hblock] at hstart
  exact hstart

section
variable (hm : f.Mapped) (hs : f.ino.iSize < 2 ^ 32)
include hm

theorem Mapped.bfSeek (hk : k * 4096 < f.ino.iSize) (c : Cursor) :
    ∃ c', bfSeek f.ino f.store c k = (0, c') ∧ Stands f k c' := by
  obtain ⟨id, hid, -⟩ := hm k hk
  have hcode : (NaiveFS.bfSeek f.ino f.store c k).1 = 0 :=
    (bfSeek_start f.ino f.store k c .init).1.trans (blockOf_eq_some hid).1
  have heq : NaiveFS.bfSeek f.ino f.store c k = (0, (NaiveFS.bfSeek f.ino f.store c k).2) :=
    Prod.ext hcode rfl
  exact ⟨_, heq, .of_bfSeek heq⟩

theorem Mapped.getBytes {off n : Nat} (hc : Stands f k c) (hk : k * 4096 < f.ino.iSize)
    (hn : off + n ≤ 4096) :
    f.getBytes c.blockId off n = some (f.bytesAt (4096 * k + off) n) := by
  obtain ⟨id, hid, hdata⟩ := hm k hk
  obtain ⟨b, hb⟩ := Option.isSome_iff_exists.mp hdata
  rw [hc.block id hid, File.getBytes, hb, Option.map_some, Option.some.injEq]
  apply List.map_congr_left
  intro i hi
  have hi := List.mem_range.mp hi
  have hdiv : (4096 * k + off + i) / blockSize = k := by
    rw [blockSize_eq]
    omega
  have hmod : (4096 * k + off + i) % blockSize = off + i := by
    rw [blockSize_eq]
    omega
  rw [File.byteAt, hdiv, hmod, hid]
  simp only [hb, Option.getD_some]

include hs

theorem Mapped.seek (hc : InSync f.ino f.store c) (hk : k * 4096 < f.ino.iSize) :
    ∃ c', seek f.ino f.store c k = (0, c') ∧ Stands f k c' := by
  obtain ⟨c', hseek, hstands⟩ := Mapped.bfSeek hm hk c
  refine ⟨c', ?_, hstands⟩
  by_cases hlow : k ≤ 1035
  · rw [seek_low hlow, hseek]
  · rw [seek_dind hc (by omega) (by omega), hseek]

theorem Mapped.nextBlock (hc : Stands f k c) (hk : (k + 1) * 4096 < f.ino.iSize) :
    ∃ c', nextBlock f.ino f.store c = (0, c') ∧ Stands f (k + 1) c' := by
  rw [nextBlock_eq hc.sync (by rw [hc.pos, iblock14_eq]; omega), hc.pos]
  exact Mapped.bfSeek hm hk c

/-! ## The loop -/

theorem copyLoop_read :
    ∀ (fuel : Nat) {c : Cursor} {k : Nat} (offset size : Nat) (out : List UInt8), size ≤ fuel →
    Stands f k c → (size = 0 ∨ f.ino.iSize ≤ offset ∨ offset = 4096 * (k + 1)) →
    ∃ c', copyLoop f f.ino.iSize fuel c offset size out =
      (toInt32 (out.length + min size (f.ino.iSize - offset)),
        out ++ f.bytesAt offset (min size (f.ino.iSize - offset)), c') := by
  intro fuel
  induction fuel with
  | zero =>
    intro c k offset size out hsize _ _
    obtain rfl : size = 0 := Nat.le_zero.mp hsize
    exact ⟨c, by simp [copyLoop]⟩
  | succ fuel ih =>
    intro c k offset size out hsize hc hoff
    unfold copyLoop
    by_cases hz : size = 0
    · exact ⟨c, by simp [hz]⟩
    by_cases hend : f.ino.iSize ≤ offset
    · exact ⟨c, by simp [hz, hend]⟩
    have hoff : offset = 4096 * (k + 1) := (hoff.resolve_left hz).resolve_left hend
    have hk : (k + 1) * 4096 < f.ino.iSize := by omega
    obtain ⟨c', hnext, hc'⟩ := Mapped.nextBlock hm hs hc hk
    generalize hcsz : min size (min (f.ino.iSize - offset) 4096) = csz
    have hget := @Mapped.getBytes f c' (k + 1) hm 0 csz hc' hk (by omega)
    obtain ⟨c'', hrest⟩ := ih (offset + csz) (size - csz) (out ++ f.bytesAt offset csz) (by omega)
      hc' (by omega)
    refine ⟨c'', ?_⟩
    rw [Nat.add_zero, ← hoff] at hget
    simp only [if_neg hz, if_neg hend, hnext, ne_eq, not_true_eq_false, if_false, blockSize_eq,
      hcsz, hget]
    rw [u64_of_lt (by omega), hrest, List.length_append, File.bytesAt_length, List.append_assoc,
      File.bytesAt_append]
    have hsum : csz + min (size - csz) (f.ino.iSize - (offset + csz)) =
      min size (f.ino.iSize - offset) := by omega
    rw [Nat.add_assoc, hsum]

end

/-! ## The whole read -/

theorem updCache_inSync (hc : f.Current c) (h0 : (updCache f.ino f.store c).1 = 0) :
    InSync f.ino f.store (updCache f.ino f.store c).2 := by
  unfold updCache at h0 ⊢
  cases hf : c.cacheUpdateFlag with
  | false =>
    simp only [Bool.false_eq_true, if_false]
    exact hc hf
  | true =>
    simp only [hf, if_true] at h0 ⊢
    exact .of_bfSeek (Prod.ext h0 rfl)

theorem copyToBuf_read {h offset size : Nat} (hm : f.Mapped) (hs : f.ino.iSize < 2 ^ 32)
    (hc : f.Current (f.cursor h)) (hlt : offset < f.ino.iSize)
    (h0 : (updCache f.ino f.store (f.cursor h)).1 = 0) :
    ∃ n f', n = max (min size (4096 - offset % 4096)) (min size (f.ino.iSize - offset)) ∧
      copyToBuf f h offset size = (toInt32 n, f.bytesAt offset n, f') := by
  have hsync := updCache_inSync hc h0
  unfold copyToBuf
  generalize updCache f.ino f.store (f.cursor h) = r at h0 hsync
  obtain ⟨err, c₁⟩ := r
  obtain rfl : err = 0 := h0
  obtain ⟨c₂, hseek, hc₂⟩ := Mapped.seek (k := offset / 4096) hm hs hsync (by omega)
  generalize hcsz : min size (4096 - offset % 4096) = csz
  have hget := @Mapped.getBytes f c₂ (offset / 4096) hm (offset % 4096) csz hc₂ (by omega)
    (by omega)
  rw [Nat.div_add_mod] at hget
  obtain ⟨c₃, hrest⟩ := copyLoop_read hm hs size (offset + csz) (size - csz) (f.bytesAt offset csz)
    (by omega) hc₂ (by omega)
  have hsum : csz + min (size - csz) (f.ino.iSize - (offset + csz)) =
    max csz (min size (f.ino.iSize - offset)) := by omega
  refine ⟨_, f.setCursor h c₃, rfl, ?_⟩
  simp only [if_neg (Nat.not_le.mpr hlt), ne_eq, not_true_eq_false, if_false, blockSize_eq,
    u32_of_lt (show offset / 4096 < 2 ^ 32 by omega), hseek, hcsz, hget]
  rw [u64_of_lt (by omega), hrest, File.bytesAt_length, File.bytesAt_append, hsum]

/-- A read stops at the end of the file exactly when its first chunk does not pass
it and the result fits into an `int`. -/
theorem reads_stop_iff (f : File) (hm : f.Mapped) (hs : f.ino.iSize < 2 ^ 32) (h : Nat)
    (hc : f.Current (f.cursor h)) (offset size : Nat) (hsize : 0 < size) :
    ReadsToEnd f h offset size ↔ f.ino.iSize ≤ offset ∨
      (updCache f.ino f.store (f.cursor h)).1 = 0 ∧ min size (4096 - offset % 4096) ≤
        f.ino.iSize - offset ∧ min size (f.ino.iSize - offset) < 2 ^ 31 := by
  by_cases hend : f.ino.iSize ≤ offset
  · have hread : copyToBuf f h offset size = (0, [], f) := by simp [copyToBuf, hend]
    have hzero : f.ino.iSize - offset = 0 := by omega
    refine ⟨fun _ => Or.inl hend, fun _ => ⟨?_, fun buf i => ?_⟩⟩
    · simp [hread, hzero]
    · simp [readInto, hread, hzero, patch_nil]
  rw [or_iff_right hend]
  by_cases h0 : (updCache f.ino f.store (f.cursor h)).1 = 0
  · obtain ⟨n, f', hn, hread⟩ := @copyToBuf_read f h offset size hm hs hc (Nat.lt_of_not_le hend) h0
    constructor
    · intro hok
      have hres := hok.result
      simp only [hread] at hres
      rcases Nat.lt_or_ge n (2 ^ 31) with hlt | hge
      · rw [toInt32_of_lt hlt] at hres
        omega
      · rw [toInt32_of_ge hge (by omega)] at hres
        omega
    · intro hcond
      obtain ⟨-, hfirst, hint⟩ := hcond
      obtain rfl : n = min size (f.ino.iSize - offset) := by omega
      refine ⟨?_, fun buf i => ?_⟩
      · simp only [hread, toInt32_of_lt hint]
      · rw [readInto, hread]
        exact patch_bytesAt ..
  · refine ⟨fun hok => ?_, fun hcond => absurd hcond.1 h0⟩
    have herr := @updCache_err f.ino f.store (f.cursor h)
    have hres := hok.result
    unfold copyToBuf at hres
    generalize updCache f.ino f.store (f.cursor h) = r at h0 herr hres
    simp only [if_neg hend, ne_eq, h0, not_false_eq_true, if_true] at hres
    omega

end

/-! ## Files that were written -/

section
variable {s : BlockStore} {ino : TreeInode} {n k : Nat} {loc : Pos → Nat} {c : Cursor}

theorem SyncedAt.inSync (t : Tree s ino n loc) (hn : n < 2 ^ 29) (hk : k < n)
    (h : SyncedAt loc k c) : InSync ino s c := by
  have hd : Live n (.data k) := hk
  obtain ⟨flag, b, p, i₀, i₁, i₂⟩ := c
  obtain rfl : p = k := h.id
  obtain rfl : b = loc (.data p) := h.block
  refine ⟨⟨flag, loc (.data p), p, i₀, i₁, i₂⟩, ?_⟩
  by_cases h1 : p ≤ 11
  · rw [bfSeek_direct h1, t.root_slot _ _ hd (slotOf_data_direct (by omega))]
  by_cases h2 : p ≤ 1035
  · have hptr := t.ptr_eq hd (slotOf_data_ind (by omega) (by omega))
    have hroot := t.root_slot _ _ (t.cell_slot _ _ _ hd (slotOf_data_ind (by omega) (by omega))).1
      rfl
    obtain rfl : i₀ = loc .ind := h.ind (by omega) (by omega)
    rw [bfSeek_ind (by omega) h2, Cursor.hop_eq_zero, hroot]
    exact ⟨_, hptr, rfl⟩
  by_cases h3 : p ≤ 1049611
  · have hslot := slotOf_data_dind (k := p) (by omega) (by omega)
    have hchild := (t.cell_slot _ _ _ hd hslot).1
    have hroot := t.root_slot _ _ (t.cell_slot _ _ _ hchild rfl).1 rfl
    obtain ⟨rfl, rfl⟩ : i₀ = loc .dind ∧ i₁ = _ := h.dind (by omega) (by omega)
    rw [bfSeek_dind (by omega) h3, Cursor.hop1_eq_zero, hroot]
    exact ⟨_, t.ptr_eq hchild rfl, Cursor.hop_eq_zero.mpr ⟨_, t.ptr_eq hd hslot, rfl⟩⟩
  · have hslot := slotOf_data_tind (k := p) (by omega)
    have hgrand := (t.cell_slot _ _ _ hd hslot).1
    have hchild := (t.cell_slot _ _ _ hgrand rfl).1
    have hroot := t.root_slot _ _ (t.cell_slot _ _ _ hchild rfl).1 rfl
    obtain ⟨rfl, rfl, rfl⟩ : i₀ = loc .tind ∧ i₁ = _ ∧ i₂ = _ := h.tind (by omega)
    rw [bfSeek_tind (n := p) (by omega) (by omega), Cursor.hop1_eq_zero, hroot]
    exact ⟨_, t.ptr_eq hchild rfl, Cursor.hop2_eq_zero.mpr
      ⟨_, t.ptr_eq hgrand rfl, Cursor.hop_eq_zero.mpr ⟨_, t.ptr_eq hd hslot, rfl⟩⟩⟩

end

section
variable {f : File} {n : Nat} {loc : Pos → Nat} (ok : FileOk f n loc)
include ok

theorem FileOk.mapped_all : f.Mapped := by
  intro k hk
  obtain ⟨id, hid, hdata, -⟩ := ok.mapped hk
  exact ⟨id, hid, hdata⟩

theorem FileOk.current (hpos : 0 < f.ino.iSize) (h : Nat) : f.Current (f.cursor h) := by
  intro hflag
  have hc := ok.cursor h
  have hs := ok.data.size
  have hlt : (f.cursor h).blockIdInFile < n := by
    rcases hc.pos with hlt | hzero
    · exact hlt
    · omega
  exact (hc.sync hflag hlt).inSync ok.data.tree ok.lt hlt

theorem FileOk.updCache_zero (h : Nat) : (updCache f.ino f.store (f.cursor h)).1 = 0 := by
  obtain ⟨c, hupd, -⟩ := updCache_spec ok.data.tree ok.lt (ok.cursor h)
  rw [hupd]

end

theorem one_byte_file : ∃ f n loc, FileOk f n loc ∧ f.ino.iSize = 1 ∧
    write (File.openHandle (.create 0 (.blank [5, 6] (by decide) (by decide)))) 0 [7] 0 false =
      some (1, f) := by
  have hok := (FileOk.create 0 (.blank [5, 6] (by decide) (by decide))).openHandle
  obtain ⟨r, f, hw, hspec⟩ :=
    write_spec hok 0 0 [7] false (List.cons_ne_nil _ _) (by decide) (Or.inl (Nat.le_refl 0))
  have hfree : (write (File.openHandle (.create 0 (.blank [5, 6] (by decide) (by decide)))) 0 [7] 0
    false).map
      (fun r => r.2.store.free) = some [6] := by decide
  rw [hw] at hfree
  obtain ⟨rfl, hsz, loc, n, hok', -⟩ := hspec fun h => by
    rw [Option.map_some, h] at hfree; cases hfree
  exact ⟨f, n, loc, hok', hsz, hw⟩

theorem reads_stop_one : ∃ f, f.ino.iSize = 1 ∧ ReadsToEnd f 0 0 1 := by
  obtain ⟨f, n, loc, hok, hsz, -⟩ := one_byte_file
  refine ⟨f, hsz, (reads_stop_iff f hok.mapped_all ?_ 0 (hok.current ?_ 0) 0 1 Nat.one_pos).mpr
    (Or.inr ?_)⟩
  · rw [hsz]
    decide
  · rw [hsz]
    decide
  · refine ⟨hok.updCache_zero 0, ?_⟩
    rw [hsz]
    decide

/-- Two bytes are asked of a file of one byte, and two are returned. -/
theorem read_past_end : ∃ f, f.ino.iSize = 1 ∧ f.Mapped ∧ f.Current (f.cursor 0) ∧
    write (File.openHandle (.create 0 (.blank [5, 6] (by decide) (by decide)))) 0 [7] 0 false =
      some (1, f) ∧
    (copyToBuf f 0 0 2).1 = 2 ∧ (copyToBuf f 0 0 2).2.1.length = 2 ∧ ¬ ReadsToEnd f 0 0 2 := by
  obtain ⟨f, n, loc, hok, hsz, hw⟩ := one_byte_file
  have hcur := hok.current (by rw [hsz]; decide) 0
  obtain ⟨m, f', hm, hread⟩ := @copyToBuf_read f 0 0 2 hok.mapped_all (by rw [hsz]; decide) hcur
    (by rw [hsz]; decide) (hok.updCache_zero 0)
  rw [hsz] at hm
  obtain rfl : m = 2 := hm
  refine ⟨f, hsz, hok.mapped_all, hcur, hw, ?_, ?_, fun hr => ?_⟩
  · rw [hread]
    rfl
  · rw [hread]
    exact f.bytesAt_length 0 2
  · have hres := hr.result
    simp only [hread, hsz] at hres
    exact absurd hres (by decide)

end NaiveFS
