import NaiveFS.BlockGroups

/-!
# What the allocator does

One inversion for `alloc` and one for `free`: every later result about
allocation goes through `alloc_result` and `free_result` and never unfolds the
scan over the groups.
-/

namespace NaiveFS

namespace Groups

/-! ## State updates -/

def take (k : Kind) (g : Nat) (bg : BlockGroup) (i : Nat) (s : Groups) : Groups :=
  { s.putGroup g (bg.setBitmap k ((bg.bitmap k).set i)) with
    super := s.super.setFree bg.desc k (u16 ((s.super.slots bg.desc).bgFreeCount k + 65535)) }

def release (k : Kind) (g : Nat) (bg : BlockGroup) (i : Nat) (s : Groups) : Groups :=
  { s.putGroup g (bg.setBitmap k ((bg.bitmap k).clear i)) with
    super := s.super.setFree bg.desc k (u16 ((s.super.slots bg.desc).bgFreeCount k + 1)) }

def newGroup (g : Nat) : BlockGroup := { desc := g, bitmap := fun _ => Bitmap.zero }

/-- Group `g` is added with the descriptor and bitmaps of a new group. -/
def openAt (g : Nat) (s : Groups) : Groups :=
  { s with
    super :=
    { s.super with
      slots := Function.update s.super.slots g (newDesc g)
      descTable := s.super.descTable ++ [g] }
    blockGroups := s.blockGroups.insert g (newGroup g) }

@[simp] theorem setCount_blockGroups (k : Kind) (n : Nat) (s : Groups) :
    (s.setCount k n).blockGroups = s.blockGroups := rfl

@[simp] theorem setCount_slots (k : Kind) (n : Nat) (s : Groups) :
    (s.setCount k n).super.slots = s.super.slots := rfl

@[simp] theorem take_blockGroups (k : Kind) (g : Nat) (bg : BlockGroup) (i : Nat) (s : Groups) :
    (s.take k g bg i).blockGroups = s.blockGroups.insert g (bg.setBitmap k ((bg.bitmap k).set i)) :=
  rfl

@[simp] theorem release_blockGroups (k : Kind) (g : Nat) (bg : BlockGroup) (i : Nat) (s : Groups) :
    (s.release k g bg i).blockGroups =
      s.blockGroups.insert g (bg.setBitmap k ((bg.bitmap k).clear i)) := rfl

@[simp] theorem allocBlockGroup_blockGroups (s : Groups) :
    s.allocBlockGroup.2.blockGroups =
      s.blockGroups.insert s.super.numBlockGroups (newGroup s.super.numBlockGroups) := rfl

@[simp] theorem setBitmap_self (bg : BlockGroup) (k : Kind) (b : Bitmap) :
    (bg.setBitmap k b).bitmap k = b :=
  Function.update_self ..

theorem setBitmap_ne (bg : BlockGroup) {k k' : Kind} (b : Bitmap) (h : k' ≠ k) :
    (bg.setBitmap k b).bitmap k' = bg.bitmap k' := Function.update_of_ne h ..

@[simp] theorem setBitmap_desc (bg : BlockGroup) (k : Kind) (b : Bitmap) :
    (bg.setBitmap k b).desc = bg.desc := rfl

theorem find_openAt (g : Nat) (s : Groups) (j : Nat) :
    (s.openAt g).blockGroups.find j = if j = g then some (newGroup g) else s.blockGroups.find j :=
  OrdMap.find_insert ..

theorem newDesc_free (g : Nat) (k : Kind) : (newDesc g).bgFreeCount k = 32768 := by cases k <;> rfl

/-! ## Inversion -/

theorem allocIn_eq (k : Kind) (g : Nat) (bg : BlockGroup) (s : Groups) :
    s.allocIn k g bg = ((bg.bitmap k).find bitmapBits).map fun i => (i, s.take k g bg i) := by
  unfold allocIn Bitmap.allocNew
  cases (bg.bitmap k).find bitmapBits <;> rfl

/-- A group the scan passes over. -/
def Skipped (k : Kind) (s : Groups) (bg : BlockGroup) : Prop :=
  (s.super.slots bg.desc).bgFreeCount k = 0 ∨ (bg.bitmap k).find bitmapBits = none

theorem scan_cons (k : Kind) (s : Groups) (g : Nat) (bg : BlockGroup)
    (rest : List (Nat × BlockGroup)) :
    Skipped k s bg ∧ scan k s ((g, bg) :: rest) = scan k s rest ∨
      (s.super.slots bg.desc).bgFreeCount k ≠ 0 ∧ ∃ i, (bg.bitmap k).find bitmapBits = some i ∧
        scan k s ((g, bg) :: rest) = some (g, i, s.take k g bg i) := by
  simp only [scan, allocIn_eq]
  by_cases hfree : (s.super.slots bg.desc).bgFreeCount k = 0
  · exact Or.inl ⟨Or.inl hfree, if_neg (not_not_intro hfree)⟩
  · rw [if_pos hfree]
    cases hf : (bg.bitmap k).find bitmapBits with
    | none => exact Or.inl ⟨Or.inr hf, rfl⟩
    | some i => exact Or.inr ⟨hfree, i, rfl, rfl⟩

theorem scan_some {k : Kind} {s s' : Groups} {g i : Nat} :
    ∀ {l : List (Nat × BlockGroup)}, scan k s l = some (g, i, s') →
      ∃ bg, (g, bg) ∈ l ∧ (s.super.slots bg.desc).bgFreeCount k ≠ 0 ∧
        (bg.bitmap k).find bitmapBits = some i ∧ s' = s.take k g bg i := by
  intro l
  induction l with
  | nil => intro h; cases h
  | cons e rest ih =>
    intro h
    rcases scan_cons k s e.1 e.2 rest with ⟨-, heq⟩ | ⟨hfree, j, hbit, heq⟩
    · rw [heq] at h
      obtain ⟨bg, hmem, hrest⟩ := ih h
      exact ⟨bg, List.mem_cons_of_mem _ hmem, hrest⟩
    · rw [heq] at h
      cases h
      exact ⟨e.2, List.mem_cons_self, hfree, hbit, rfl⟩

theorem scan_none {k : Kind} {s : Groups} :
    ∀ {l : List (Nat × BlockGroup)}, scan k s l = none → ∀ e ∈ l, Skipped k s e.2 := by
  intro l
  induction l with
  | nil => intro _ e he; cases he
  | cons e rest ih =>
    intro h
    rcases scan_cons k s e.1 e.2 rest with ⟨hskip, heq⟩ | ⟨-, j, -, heq⟩
    · rw [heq] at h
      intro e' he'
      rcases List.mem_cons.mp he' with rfl | he'
      · exact hskip
      · exact ih h e' he'
    · rw [heq] at h
      cases h

theorem find_zero : Bitmap.zero.find bitmapBits = some 0 := rfl

/-- The two ways an allocation goes: a group with a non-zero counter serves it,
or every group is passed over and a new one is opened. -/
inductive AllocResult (k : Kind) (s : Groups) : Option (Nat × Bool) × Groups → Prop where
  | old {g : Nat} {bg : BlockGroup} {i : Nat} (hfind : s.blockGroups.find g = some bg)
      (hfree : (s.super.slots bg.desc).bgFreeCount k ≠ 0) (hbit : (bg.bitmap k).find bitmapBits =
        some i) :
      AllocResult k s (some (u32 (g * perGroup k + i), true),
        (s.setCount k (u32 (s.super.sCount k + 1))).take k g bg i)
  | new {g : Nat} {s₁ : Groups} (hs₁ : s₁ = s.setCount k (u32 (s.super.sCount k + 1)))
      (hg : g = s₁.super.numBlockGroups) (hskip : ∀ e ∈ s.blockGroups.entries, Skipped k s e.2) :
      AllocResult k s (some (u32 (g * perGroup k + 0), false),
      s₁.allocBlockGroup.2.take k g (newGroup g) 0)

theorem allocInNew_eq (k : Kind) (s : Groups) {g : Nat} (hg : g = s.super.numBlockGroups) :
    s.allocInNew k = (some (u32 (g * perGroup k + 0), false),
      s.allocBlockGroup.2.take k g (newGroup g) 0) := by
  have hfind : s.allocBlockGroup.2.blockGroups.find g = some (newGroup g) := by
    rw [allocBlockGroup_blockGroups, ← hg, OrdMap.find_insert_self]
  have hbit : ((newGroup g).bitmap k).find bitmapBits = some 0 := find_zero
  have hnumber : s.allocBlockGroup.1 = g := hg.symm
  unfold allocInNew
  simp only [hnumber, hfind, allocIn_eq, hbit, Option.map_some]

theorem alloc_result (k : Kind) (s : Groups) : AllocResult k s (s.alloc k) := by
  unfold alloc
  simp only
  cases hscan : scan k (s.setCount k (u32 (s.super.sCount k + 1))) s.blockGroups.entries with
  | none =>
    rw [setCount_blockGroups, hscan]
    simp only
    rw [allocInNew_eq k _ rfl]
    exact AllocResult.new rfl rfl fun e he => scan_none hscan e he
  | some r =>
    obtain ⟨g, i, s'⟩ := r
    obtain ⟨bg, hmem, hfree, hbit, rfl⟩ := scan_some hscan
    rw [setCount_blockGroups, hscan]
    exact AllocResult.old (OrdMap.find_eq_some.mpr hmem) hfree hbit

theorem alloc_sCount (k : Kind) (s : Groups) :
    (s.alloc k).1.isSome ∧ (s.alloc k).2.super.sCount =
      Function.update s.super.sCount k (u32 (s.super.sCount k + 1)) := by
  have hres := alloc_result k s
  generalize s.alloc k = r at hres
  cases hres with
  | old hfind hfree hbit => exact ⟨rfl, rfl⟩
  | new hs₁ hg hskip =>
    subst hs₁
    exact ⟨rfl, rfl⟩

theorem free_eq (k : Kind) (index : Nat) (s : Groups) {bg : BlockGroup}
    (h : s.blockGroups.find (index / perGroup k) = some bg)
    (ht : (bg.bitmap k).test (index % perGroup k) = true) :
    s.free k index = some (true,
      (s.setCount k (sub32 (s.super.sCount k) 1)).release k (index / perGroup k) bg
      (index % perGroup k)) := by
  simp only [free, findGroup, setCount_blockGroups, h, ht, if_true]
  rfl

/-! ## Allocated indices -/

/-- Is `index` the index of an allocated block or inode? -/
def allocated (k : Kind) (index : Nat) (s : Groups) : Bool :=
  match s.blockGroups.find (index / perGroup k) with
  | some bg => decide (index % perGroup k < bitmapBits) && (bg.bitmap k).test (index % perGroup k)
  | none => false

theorem allocated_iff {k : Kind} {index : Nat} {s : Groups} :
    s.allocated k index = true ↔ ∃ bg, s.blockGroups.find (index / perGroup k) = some bg ∧
      index % perGroup k < bitmapBits ∧ (bg.bitmap k).test (index % perGroup k) = true := by
  unfold allocated
  cases s.blockGroups.find (index / perGroup k) <;> simp

theorem index_eq_iff {k : Kind} {g i index : Nat} (hi : i < bitmapBits) :
    index = g * perGroup k + i ↔ index / perGroup k = g ∧ index % perGroup k = i := by
  have hlt : i < perGroup k := Nat.lt_of_lt_of_le hi (bitmapBits_le_perGroup k)
  constructor
  · rintro rfl
    rw [Nat.mul_comm, Nat.mul_add_div (perGroup_pos k), Nat.div_eq_of_lt hlt, Nat.mul_add_mod,
      Nat.mod_eq_of_lt hlt]
    exact ⟨Nat.add_zero g, rfl⟩
  · rintro ⟨rfl, rfl⟩
    rw [Nat.mul_comm]
    exact (Nat.div_add_mod index (perGroup k)).symm

theorem allocated_openAt {g : Nat} {s : Groups} (h : s.blockGroups.find g = none) (k : Kind)
    (index : Nat) :
    (s.openAt g).allocated k index = s.allocated k index := by
  unfold allocated
  rw [find_openAt]
  by_cases hg : index / perGroup k = g
  · rw [if_pos hg, hg, h]
    simp [newGroup]
  · rw [if_neg hg]

theorem allocated_setBitmap {s s' : Groups} {k : Kind} {g i : Nat} {bg : BlockGroup} {b : Bitmap}
    (hfind : s.blockGroups.find g = some bg) (hi : i < bitmapBits)
    (hgroups : s'.blockGroups = s.blockGroups.insert g (bg.setBitmap k b))
    (hb : ∀ j, j ≠ i → b.test j = (bg.bitmap k).test j) (k' : Kind) (index : Nat) :
    s'.allocated k' index =
      if k' = k ∧ index = g * perGroup k + i then b.test i else s.allocated k' index := by
  unfold allocated
  rw [hgroups, OrdMap.find_insert]
  by_cases hg : index / perGroup k' = g
  · rw [if_pos hg, hg, hfind]
    by_cases hk : k' = k
    · subst hk
      simp only [setBitmap_self, true_and, index_eq_iff hi, hg]
      split
      · rename_i heq; simp [heq, hi]
      · rename_i hne; rw [hb _ hne]
    · simp [hk, setBitmap_ne _ _ hk]
  · rw [if_neg hg, if_neg]
    rintro ⟨rfl, heq⟩
    exact hg ((index_eq_iff hi).mp heq).1

/-! ## The formatted file system -/

/-- Group 0 of a formatted disk: only the root inode is allocated. -/
def rootGroup : BlockGroup := (newGroup 0).setBitmap .inode (Bitmap.zero.set rootInode)

theorem format_entries : format.blockGroups.entries = [(0, rootGroup)] := rfl

end Groups

end NaiveFS
