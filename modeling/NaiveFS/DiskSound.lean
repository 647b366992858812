import NaiveFS.BlockCache
import NaiveFS.Lib.FlatBytes

/-!
# The disk

`__disk_write` seeks and writes, `__disk_read` uses `pread`. The result of `lseek`
is stored in an `int`, so a position that narrows to a negative number is taken for
an error and the block is not written.
-/

namespace NaiveFS

open FlatBytes

/-- The file behind `disk_fd`: its bytes, the offset of the descriptor and `errno`.
The disk is large enough, so no call fails. -/
structure DiskFile where
  bytes : Nat → UInt8
  pos : Nat
  errno : Nat

namespace DiskFile

variable {o o' : Nat} {b : Block} {f : DiskFile}

def lseek (offset : Nat) (f : DiskFile) : Nat × DiskFile := (offset, { f with pos := offset })

def write (buf : Block) (f : DiskFile) : DiskFile :=
  { f with bytes := patch f.bytes f.pos (List.ofFn buf), pos := f.pos + blockSize }

def pread (offset : Nat) (f : DiskFile) : Block := fun i => f.bytes (offset + i.val)

/-- The conversion from `off_t` to `int`. -/
def toInt (n : Nat) : Int := (BitVec.ofNat 32 n).toInt

/-- `__disk_write` of a block, which is `Block::flush`. -/
def diskWrite (offset : Nat) (buf : Block) (f : DiskFile) : Int × DiskFile :=
  match f.lseek offset with
  | (ret, f) => if toInt ret < 0 then (-f.errno, f) else (0, f.write buf)

/-- `__disk_read` of a block, by the constructor of `Block`. -/
def diskRead (offset : Nat) (f : DiskFile) : Block := f.pread offset

theorem toInt_neg_iff (n : Nat) : toInt n < 0 ↔ 2 ^ 31 ≤ n % 2 ^ 32 := by
  unfold toInt
  rw [BitVec.toInt_eq_toNat_cond, BitVec.toNat_ofNat]
  split <;> omega

theorem pread_write_self (buf : Block) (f : DiskFile) : (f.write buf).pread f.pos = buf := by
  funext i
  have hi := i.isLt
  show patch f.bytes f.pos (List.ofFn buf) (f.pos + i.val) = buf i
  rw [patch_in _ (by omega) (by rw [List.length_ofFn]; omega), Nat.add_sub_cancel_left]
  simp [List.getD_eq_getElem?_getD]

theorem pread_write_ne (buf : Block) (f : DiskFile) (hpos : blockSize ∣ f.pos)
    (ho : blockSize ∣ o) (hne : o ≠ f.pos) :
    (f.write buf).pread o = f.pread o := by
  funext ⟨i, hi⟩
  show patch f.bytes f.pos (List.ofFn buf) (o + i) = f.bytes (o + i)
  apply patch_out
  rw [List.length_ofFn]
  obtain ⟨a, ha⟩ := hpos
  obtain ⟨c, hc⟩ := ho
  rw [blockSize_eq] at ha hc hi ⊢
  omega

/-- A flushed block is read back exactly if its offset narrows to a non-negative
`int`, or the disk held it before. -/
theorem diskRead_diskWrite_self (o : Nat) (b : Block) (f : DiskFile) :
    diskRead o (diskWrite o b f).2 = b ↔ o % 2 ^ 32 < 2 ^ 31 ∨ diskRead o f = b := by
  unfold diskWrite lseek
  simp only
  by_cases hneg : toInt o < 0
  · rw [if_pos hneg]
    have := (toInt_neg_iff o).mp hneg
    constructor
    · intro h
      exact Or.inr h
    · rintro (h | h)
      · omega
      · exact h
  · rw [if_neg hneg]
    have := mt (toInt_neg_iff o).mpr hneg
    constructor
    · intro _
      exact Or.inl (by omega)
    · intro _
      exact pread_write_self b { f with pos := o }

/-- On whole blocks it is `Disk.flush`. -/
theorem diskRead_diskWrite (b : Block) (f : DiskFile) (ho : blockSize ∣ o) (ho' : blockSize ∣ o') :
    diskRead o' (diskWrite o b f).2 = Disk.flush (fun o => diskRead o f) o b o' := by
  have hlands := toInt_neg_iff o
  unfold diskWrite lseek Disk.flush Disk.lands
  simp only [decide_eq_true_eq]
  by_cases hneg : toInt o < 0
  · rw [if_pos hneg, if_neg (by omega)]
    rfl
  · rw [if_neg hneg, if_pos (by omega)]
    by_cases h : o' = o
    · rw [h, Function.update_self]
      exact pread_write_self b { f with pos := o }
    · rw [Function.update_of_ne h]
      exact pread_write_ne b { f with pos := o } ho ho' h

theorem diskRead_diskWrite_ne (b : Block) (f : DiskFile) (ho : blockSize ∣ o)
    (ho' : blockSize ∣ o') (hne : o' ≠ o) :
    diskRead o' (diskWrite o b f).2 = diskRead o' f := by
  rw [diskRead_diskWrite b f ho ho', Disk.flush_ne hne]

end DiskFile

namespace Groups

/-- The offsets of the inode table and data blocks of groups that have their
descriptor in the super block. -/
def BlockOffset (o : Nat) : Prop :=
  ∃ (s : Groups) (bg : BlockGroup) (g i : Nat), g < descsInBlock ∧
    (s.super.slots bg.desc).bgBitmap = (newDesc g).bgBitmap ∧
    (o = s.inodeBlockOffset bg i ∨ o = s.dataBlockOffset bg i)

theorem dvd_u32 {n : Nat} (h : blockSize ∣ n) : blockSize ∣ u32 n :=
  (Nat.dvd_mod_iff (by decide)).mpr h

theorem dvd_bitmap (g : Nat) : blockSize ∣ (newDesc g).bgBitmap .block := by
  apply dvd_u32
  apply Nat.dvd_add _ (Nat.dvd_refl _)
  apply dvd_u32
  apply Nat.dvd_add _ (Nat.dvd_refl _)
  exact Nat.dvd_mul_left_of_dvd (Nat.dvd_mul_left ..) _

theorem BlockOffset.aligned {o : Nat} (h : BlockOffset o) : blockSize ∣ o := by
  obtain ⟨s, bg, g, i, -, hdesc, ho⟩ := h
  have hbitmap : blockSize ∣ (s.super.slots bg.desc).bgBitmap .block := by
    rw [hdesc]
    exact dvd_bitmap g
  rcases ho with rfl | rfl
  · apply Nat.dvd_add hbitmap
    exact dvd_u32 (Nat.dvd_mul_left ..)
  · apply Nat.dvd_add (Nat.dvd_add hbitmap (Nat.dvd_mul_left ..))
    exact dvd_u32 (Nat.dvd_mul_left ..)

end Groups

namespace DiskFile

open Groups

/-- A flushed block is there again exactly if its offset, modulo `2 ^ 32`, is below
`2 ^ 31` or it was there before; blocks at other offsets are never disturbed. -/
theorem flush_read_back_iff {o : Nat} (ho : BlockOffset o) (b : Block) (f : DiskFile) :
    (diskRead o (diskWrite o b f).2 = b ↔ o % 2 ^ 32 < 2 ^ 31 ∨ diskRead o f = b) ∧
      ∀ o', BlockOffset o' → o' ≠ o → diskRead o' (diskWrite o b f).2 = diskRead o' f :=
  ⟨diskRead_diskWrite_self o b f, fun _ ho' hne => diskRead_diskWrite_ne b f ho.aligned
    ho'.aligned hne⟩

/-- The first data block of group `g`. -/
def firstData (g : Nat) : Nat := (newDesc g).bgBitmap .block + numInodeTableBlocks * blockSize

theorem firstData_offset {g : Nat} (hg : g < descsInBlock) : BlockOffset (firstData g) := by
  refine ⟨{ Groups.format with super := { Groups.format.super with slots := newDesc } },
    ⟨g, fun _ => Bitmap.zero⟩, g, 0, hg, rfl, ?_⟩
  simp [dataBlockOffset, firstData, u32]

def blank : DiskFile := { bytes := fun _ => 0, pos := 0, errno := 0 }

theorem first_group_read_back :
    (diskRead (firstData 0) (diskWrite (firstData 0) (fun _ => 1) blank).2 = (fun _ => 1) ↔
      firstData 0 % 2 ^ 32 < 2 ^ 31 ∨ diskRead (firstData 0) blank = fun _ => 1) ∧
    ∀ o', BlockOffset o' → o' ≠ firstData 0 →
      diskRead o' (diskWrite (firstData 0) (fun _ => 1) blank).2 = diskRead o' blank :=
  flush_read_back_iff (firstData_offset (by decide)) (fun _ => 1) blank

/-- A block of group 16 that is flushed to a zeroed disk is still zero there. -/
theorem lost_in_group_16 : BlockOffset (firstData 16) ∧ diskRead (firstData 16)
    (diskWrite (firstData 16) (fun _ => 1) blank).2 ≠ fun _ => 1 := by
  refine ⟨firstData_offset (by decide), fun h => ?_⟩
  rcases (diskRead_diskWrite_self _ _ _).mp h with hlow | hzero
  · revert hlow
    decide
  · have := congrFun hzero ⟨0, by decide⟩
    revert this
    simp [diskRead, pread, blank]

end DiskFile

end NaiveFS
