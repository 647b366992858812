import NaiveFS.RemountSound

/-!
# Free counters and bitmaps

`init_super_block` takes the root inode off the free counter of group 0, and the
constructor of `FileSystem` takes it off again when it allocates the root. The
counter and the bitmap of group 0 then go in step for good, one apart.
-/

namespace NaiveFS

/-- The clear bits of a bitmap block. -/
def Bitmap.clearBits (b : Bitmap) : Nat := Nat.count (fun i => b.test i = false) bitmapBits

theorem Bitmap.clearBits_add_count (b : Bitmap) :
    b.clearBits + b.count bitmapBits = bitmapBits := by
  unfold clearBits count
  generalize bitmapBits = n
  induction n with
  | zero => rfl
  | succ n ih =>
    rw [Nat.count_succ, Nat.count_succ]
    cases b.test n <;> simp <;> omega

namespace Groups

/-- One call, whether it succeeds or fails; `none` is the null pointer that the
constructor of `BlockGroup` follows. -/
def callStep (s : Groups) : Op → Option Groups
  | .alloc k => some (s.alloc k).2
  | .free k index => (s.free k index).map Prod.snd

def totalSet (k : Kind) (s : Groups) : Nat :=
  (s.blockGroups.entries.map fun e => (e.2.bitmap k).count bitmapBits).sum

structure CountersMatch (s : Groups) : Prop where
  free : ∀ g bg k, s.blockGroups.find g = some bg → (s.super.slots bg.desc).bgFreeCount k =
    (bg.bitmap k).clearBits
  blocks : s.super.sCount .block = 3 + s.totalSet .block
  inodes : s.super.sCount .inode = s.totalSet .inode

/-- The books of group 0: its inode counter is one short of its clear bits, as far
as 16 bits can tell. No other group uses its descriptor. -/
structure Short (s : Groups) (bg : BlockGroup) : Prop where
  find : s.blockGroups.find 0 = some bg
  desc : bg.desc = 0
  own : ∀ g bg', s.blockGroups.find g = some bg' → bg'.desc = 0 → g = 0
  table : ∀ g : Nat, s.super.descTable[g]? = some 0 → g = 0
  short : ((s.super.slots 0).bgFreeCount .inode + 1 + (bg.bitmap .inode).count bitmapBits) % 65536 =
    32768

section
variable {s s' : Groups} {bg bg' : BlockGroup} {g : Nat} {k : Kind}

theorem Short.not_match (h : Short s bg) : ¬ s.CountersMatch := by
  intro hm
  have hfree := hm.free 0 bg .inode h.find
  have hsum := (bg.bitmap .inode).clearBits_add_count
  have hshort := h.short
  rw [h.desc] at hfree
  rw [bitmapBits_eq] at hsum hshort
  omega

theorem Short.put (h : Short s bg) (hg : s.blockGroups.find g = some bg' ∨ g ≠ 0 ∧ bg'.desc ≠ 0)
    {b : Bitmap} {f : Nat} (hgroups : s'.blockGroups = s.blockGroups.insert g (bg'.setBitmap k b))
    (hslots : s'.super.slots = (s.super.setFree bg'.desc k f).slots)
    (htable : s'.super.descTable = s.super.descTable)
    (hstep : k = .inode → (f + b.count bitmapBits) % 65536 =
      ((s.super.slots bg'.desc).bgFreeCount k + (bg'.bitmap k).count bitmapBits) % 65536) :
    ∃ bg₁, Short s' bg₁ := by
  have hown : ∀ j bg₂, s'.blockGroups.find j = some bg₂ → bg₂.desc = 0 → j = 0 := by
    intro j bg₂ hj hd
    rw [hgroups, OrdMap.find_insert] at hj
    split at hj
    · rename_i hjg
      cases hj
      rcases hg with hg | ⟨-, hne⟩
      · rw [hjg]
        exact h.own g bg' hg hd
      · exact absurd hd hne
    · exact h.own j bg₂ hj hd
  have htab : ∀ j : Nat, s'.super.descTable[j]? = some 0 → j = 0 := by
    rw [htable]
    exact h.table
  by_cases hzero : g = 0
  · -- the group is group 0
    subst hzero
    have hsame : bg' = bg := by
      rcases hg with hg | ⟨hne, -⟩
      · exact Option.some.inj (hg.symm.trans h.find)
      · exact absurd rfl hne
    subst hsame
    refine ⟨bg'.setBitmap k b, ?_, h.desc, hown, htab, ?_⟩
    · rw [hgroups, OrdMap.find_insert_self]
    · have hshort := h.short
      rw [hslots, h.desc]
      cases k with
      | inode =>
        have hstep := hstep rfl
        rw [h.desc] at hstep
        simp only [SuperBlock.setFree, Function.update_self, setBitmap_self]
        omega
      | block =>
        rw [setBitmap_ne _ _ (by decide)]
        simpa [SuperBlock.setFree] using hshort
  · refine ⟨bg, ?_, h.desc, hown, htab, ?_⟩
    · rw [hgroups, OrdMap.find_insert, if_neg (Ne.symm hzero)]
      exact h.find
    · have hdesc : (0 : Nat) ≠ bg'.desc := by
        rcases hg with hg | ⟨-, hne⟩
        · exact fun h0 => hzero (h.own g bg' hg h0.symm)
        · exact Ne.symm hne
      have hkeep : s'.super.slots 0 = s.super.slots 0 := by
        rw [hslots]
        exact Function.update_of_ne hdesc ..
      rw [hkeep]
      exact h.short

theorem Short.setCount (h : Short s bg) (k : Kind) (n : Nat) : Short (s.setCount k n) bg :=
  ⟨h.find, h.desc, h.own, h.table, h.short⟩

theorem numBlockGroups_pos (sb : SuperBlock) : 0 < sb.numBlockGroups := by
  unfold SuperBlock.numBlockGroups
  simp only
  split <;> omega

theorem Short.opened (h : Short s bg) : Short s.allocBlockGroup.2 bg := by
  have hpos : (0 : Nat) ≠ s.super.numBlockGroups := Nat.ne_of_lt (numBlockGroups_pos s.super)
  refine ⟨?_, h.desc, fun g bg' hg hd => ?_, fun g hg => ?_, ?_⟩
  · rw [allocBlockGroup_blockGroups, OrdMap.find_insert, if_neg hpos]
    exact h.find
  · rw [allocBlockGroup_blockGroups, OrdMap.find_insert] at hg
    split at hg
    · cases hg
      exact absurd hd.symm hpos
    · exact h.own g bg' hg hd
  · change (s.super.descTable ++ [s.super.numBlockGroups])[g]? = some 0 at hg
    rw [List.getElem?_append] at hg
    split at hg
    · exact h.table g hg
    · rw [List.getElem?_singleton] at hg
      split at hg
      · exact absurd (Option.some.inj hg).symm hpos
      · cases hg
  · show ((Function.update s.super.slots s.super.numBlockGroups _ 0).bgFreeCount .inode + 1 + _) %
      65536 = 32768
    rw [Function.update_of_ne hpos]
    exact h.short

theorem Short.taken (h : Short s bg) {i : Nat} (hg : s.blockGroups.find g = some bg')
    (hi : i < bitmapBits) (hbit : (bg'.bitmap k).test i = false) :
    ∃ bg₁, Short (s.take k g bg' i) bg₁ := by
  refine h.put (Or.inl hg) rfl rfl rfl fun _ => ?_
  rw [Bitmap.count_set hi hbit]
  unfold u16
  omega

theorem Short.alloc (h : Short s bg) (k : Kind) : ∃ bg₁, Short (s.alloc k).2 bg₁ := by
  have hres := alloc_result k s
  generalize s.alloc k = r at hres
  cases hres with
  | @old g bg' i hfind hfree hbit =>
    obtain ⟨hi, hclear, -⟩ := Bitmap.find_some hbit
    exact (h.setCount k _).taken hfind hi hclear
  | @new g s₁ hs₁ hg hskip =>
    have hopen := (h.setCount k (u32 (s.super.sCount k + 1))).opened
    rw [← hs₁] at hopen
    refine hopen.taken ?_ (show 0 < bitmapBits by decide) ?_
    · rw [allocBlockGroup_blockGroups, ← hg, OrdMap.find_insert_self]
    · exact Bitmap.find_some find_zero |>.2.1

theorem Short.free (h : Short s bg) {index : Nat} {ok : Bool}
    (hs : s.free k index = some (ok, s')) : ∃ bg₁, Short s' bg₁ := by
  have hcount := h.setCount k (sub32 (s.super.sCount k) 1)
  unfold Groups.free at hs
  simp only at hs
  generalize s.setCount k (sub32 (s.super.sCount k) 1) = t at hs hcount
  -- the group is in memory, or it is read from the disk and is not group 0
  obtain ⟨bg', t', hfind, ht⟩ : ∃ bg' t', t.findGroup (index / perGroup k) = some (bg', t') ∧
      (t'.blockGroups.find (index / perGroup k) = some bg' ∧ Short t' bg) := by
    unfold findGroup at hs ⊢
    cases hf : t.blockGroups.find (index / perGroup k) with
    | some bg' => exact ⟨bg', t, rfl, hf, hcount⟩
    | none =>
      simp only [hf] at hs ⊢
      cases hd : t.super.getGroupDesc (index / perGroup k) with
      | none => simp [hd] at hs
      | some slot =>
        have hg0 : (0 : Nat) ≠ index / perGroup k := fun h0 => by
          rw [← h0, hcount.find] at hf
          cases hf
        have hslot : slot ≠ 0 := fun h0 => hg0 (hcount.table _ (h0 ▸ hd)).symm
        refine ⟨t.load slot, t.putGroup _ (t.load slot), rfl, OrdMap.find_insert_self .., ?_,
          hcount.desc, fun g bg₂ hg hd₂ => ?_, hcount.table, hcount.short⟩
        · show (t.blockGroups.insert _ _).find 0 = _
          rw [OrdMap.find_insert, if_neg hg0]
          exact hcount.find
        · change (t.blockGroups.insert _ _).find g = some bg₂ at hg
          rw [OrdMap.find_insert] at hg
          split at hg
          · cases hg
            exact absurd hd₂ hslot
          · exact hcount.own g bg₂ hg hd₂
  rw [hfind] at hs
  simp only at hs
  split at hs
  · rename_i hbit
    cases hs
    refine ht.2.put (Or.inl ht.1) rfl rfl rfl ?_
    rintro rfl
    have hi : index % perGroup .inode < bitmapBits := Nat.mod_lt _ (perGroup_pos .inode)
    have := Bitmap.count_clear hi hbit
    unfold u16
    omega
  · cases hs
    exact ⟨bg, ht.2⟩

theorem Short.format : Short Groups.format rootGroup where
  find := rfl
  desc := rfl
  own g bg' hg _ := ((format_find g bg').mp hg).1
  table g hg := by
    cases g with
    | zero => rfl
    | succ g => cases hg
  short := by
    rw [rootGroup_inode, format_free.2]

end

theorem Short.step {s s' : Groups} {op : Op} (h : ∃ bg, Short s bg) (hs : s.callStep op = some s') :
    ∃ bg, Short s' bg := by
  obtain ⟨bg, h⟩ := h
  cases op with
  | alloc k =>
    cases hs
    exact h.alloc k
  | free k index =>
    obtain ⟨⟨ok, t⟩, hfree, rfl⟩ := Option.map_eq_some_iff.mp hs
    exact h.free hfree

/-- In no state of a run do the counters match the bitmaps. -/
theorem counters_never_match (ops : List Op) :
    Runs.Along callStep (fun s => ¬ s.CountersMatch) ops format := by
  have hP : ∀ s, (∃ bg, Short s bg) → ¬ s.CountersMatch := by
    intro s ⟨bg, h⟩
    exact h.not_match
  exact Runs.along_of_inv hP (fun _ _ _ h hs => Short.step h hs) ops format ⟨rootGroup,
    Short.format⟩

/-- 32766 free inodes are counted, 32767 bits are clear. -/
theorem formatted_counter_short : ¬ format.CountersMatch := Short.format.not_match

end Groups

end NaiveFS
