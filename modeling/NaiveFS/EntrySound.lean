import NaiveFS.DeleteSound

/-!
# Directory entries under the namespace operations

What a visitor sees of an inode's blocks, what a lookup returns, and how
`dentry_create` and the removal of a name change the entries of directories.
-/

namespace NaiveFS

/-! ## Visiting -/

section
variable {α : Type} {visitor : Nat → α → Bool × α}

theorem visitFrom_inv {P : α → Prop} : ∀ (bs : List Nat) (p : Nat) (skip : Bool) (a : α),
    (∀ b ∈ bs, ∀ a, P a → P (visitor b a).2) → P a → P (visitFrom visitor p skip bs a) := by
  intro bs
  induction bs with
  | nil => intro p skip a _ ha; exact ha
  | cons b rest ih =>
    intro p skip a hv ha
    have hrest : ∀ b ∈ rest, ∀ a, P a → P (visitor b a).2 :=
      fun c hc => hv c (List.mem_cons_of_mem _ hc)
    have hb := hv b List.mem_cons_self a ha
    unfold visitFrom
    split
    · cases hr : visitor b a with
      | mk stop a' =>
        rw [hr] at hb
        cases stop with
        | true => exact hb
        | false => exact ih _ _ _ hrest hb
    · split
      · exact ih _ _ _ hrest ha
      · exact ih _ _ _ hrest hb

theorem visitFrom_foldl (hv : ∀ b a, (visitor b a).1 = false) : ∀ (bs : List Nat) (p : Nat) (a : α),
    visitFrom visitor p false bs a = bs.foldl (fun a b => (visitor b a).2) a := by
  intro bs
  induction bs with
  | nil => intro p a; rfl
  | cons b rest ih =>
    intro p a
    have hb : visitor b a = (false, (visitor b a).2) := Prod.ext (hv b a) rfl
    unfold visitFrom
    rw [List.foldl_cons, ← ih (p + 1), hb]
    simp

theorem visitFrom_map {β : Type} {v : Nat → α → Bool × α} {w : Nat → β → Bool × β} (f : α → β)
    (h : ∀ b a, w b (f a) = ((v b a).1, f (v b a).2)) :
    ∀ (bs : List Nat) (p : Nat) (skip : Bool) (a : α), visitFrom w p skip bs (f a) =
      f (visitFrom v p skip bs a) := by
  intro bs
  induction bs with
  | nil => exact fun _ _ _ => rfl
  | cons b bs ih =>
    intro p skip a
    unfold visitFrom
    rw [h]
    rcases v b a with ⟨stop, a'⟩
    split
    · cases stop with
      | true => rfl
      | false => exact ih ..
    · split
      · exact ih ..
      · exact ih ..

/-- A visitor that stops only where it finds something, and else changes nothing:
if nothing is found it has passed over every block. -/
theorem visitFrom_passed (Found : α → Prop) {a : α} :
    ∀ {bs : List Nat}, (∀ b ∈ bs, ∀ a, Found a → Found (visitor b a).2) →
    (∀ b ∈ bs, (visitor b a).1 = true → Found (visitor b a).2) →
    (∀ b ∈ bs, (visitor b a).1 = false → (visitor b a).2 = a) →
    ∀ p, ¬ Found (visitFrom visitor p false bs a) → ∀ b ∈ bs, (visitor b a).1 = false := by
  intro bs
  induction bs with
  | nil => exact fun _ _ _ _ _ _ hb => by cases hb
  | cons b rest ih =>
    intro hkeep hstop hpass p hnot
    have hrest : ∀ {c}, c ∈ rest → c ∈ b :: rest := fun hc => List.mem_cons_of_mem _ hc
    rcases hv : visitor b a with ⟨_ | _, a'⟩
    · have ha' : a' = a := by
        have := hpass b List.mem_cons_self (by rw [hv])
        rwa [hv] at this
      subst ha'
      have hvisit : visitFrom visitor p false (b :: rest) a' =
        visitFrom visitor (p + 1) false rest a' := by
        rw [visitFrom]
        simp [hv]
      rw [hvisit] at hnot
      have ih := ih (fun c hc => hkeep c (hrest hc)) (fun c hc => hstop c (hrest hc))
        (fun c hc => hpass c (hrest hc)) (p + 1) hnot
      intro c hc
      rcases List.mem_cons.mp hc with rfl | hc
      · rw [hv]
      · exact ih c hc
    · have hfound : Found a' := by
        have := hstop b List.mem_cons_self (by rw [hv])
        rwa [hv] at this
      refine absurd ?_ hnot
      rw [visitFrom]
      simp only [hv, Bool.false_and, Bool.false_eq_true, if_false]
      split
      · exact hfound
      · exact visitFrom_inv rest _ _ _ (fun c hc => hkeep c (hrest hc)) hfound

end

/-! ## Names in a block -/

namespace Dentry

/-- Live entries in the list that name inode `i`. -/
def naming (i : Nat) (l : List Dentry) : Nat := l.countP fun e => e.live && e.inode == i

/-- `e'` is `e`, or `e` after it has lost the name `name`. -/
def Weaker (name : Name) (e e' : Dentry) : Prop := e' = e ∨ e.hasName name = true ∧ e' = e.kill

theorem live_of_hasName {name : Name} (hname : name ≠ []) {e : Dentry} (h : e.hasName name = true) :
    e.live = true := by
  have hpos := List.length_pos_iff.mpr hname
  simp only [hasName, Bool.and_eq_true, beq_iff_eq] at h
  simp only [live, bne_iff_ne]
  omega

theorem hasName_kill {name : Name} (hname : name ≠ []) (e : Dentry) :
    e.kill.hasName name = false := by
  rw [Bool.eq_false_iff]
  intro h
  have := live_of_hasName hname h
  simp [live, kill] at this

theorem Weaker.trans {name : Name} (hname : name ≠ []) {e e' e'' : Dentry} (h : Weaker name e e')
    (h' : Weaker name e' e'') :
    Weaker name e e'' := by
  rcases h with rfl | ⟨hn, rfl⟩
  · exact h'
  · rcases h' with rfl | ⟨hc, -⟩
    · exact Or.inr ⟨hn, rfl⟩
    · rw [hasName_kill hname] at hc
      cases hc

theorem weaker_trans {name : Name} (hname : name ≠ []) {l l' l'' : List Dentry}
    (h : List.Forall₂ (Weaker name) l l') (h' : List.Forall₂ (Weaker name) l' l'') :
    List.Forall₂ (Weaker name) l l'' := by
  induction h generalizing l'' with
  | nil => exact h'
  | cons hw _ ih =>
    cases h' with
    | cons hw' hrest => exact List.Forall₂.cons (hw.trans hname hw') (ih hrest)

theorem Weaker.of_live {name : Name} {e e' : Dentry} (h : Weaker name e e') (hl : e'.live = true) :
    e' = e := by
  rcases h with rfl | ⟨-, rfl⟩
  · rfl
  · simp [live, kill] at hl

theorem killFirst_weaker (name : Name) (l : List Dentry) :
    List.Forall₂ (Weaker name) l (killFirst name l) := by
  induction l with
  | nil => exact List.Forall₂.nil
  | cons e rest ih =>
    unfold killFirst
    split
    · rename_i h
      exact List.Forall₂.cons (Or.inr ⟨h, rfl⟩) (List.forall₂_same.mpr fun _ _ => Or.inl rfl)
    · exact List.Forall₂.cons (Or.inl rfl) ih

theorem naming_cons (i : Nat) (e : Dentry) (l : List Dentry) :
    naming i (e :: l) = naming i l + if e.live && e.inode == i then 1 else 0 := List.countP_cons ..

theorem naming_weaker {name : Name} {l l' : List Dentry} (h : List.Forall₂ (Weaker name) l l')
    (i : Nat) :
    naming i l' ≤ naming i l := by
  induction h with
  | nil => exact Nat.le_refl _
  | cons hw _ ih =>
    rw [naming_cons, naming_cons]
    refine Nat.add_le_add ih ?_
    rcases hw with rfl | ⟨-, rfl⟩
    · exact Nat.le_refl _
    · simp [live, kill]

theorem naming_killFirst {name : Name} (hname : name ≠ []) {l : List Dentry} {e : Dentry}
    (h : l.find? (hasName name) = some e) :
    naming e.inode (killFirst name l) < naming e.inode l := by
  induction l with
  | nil => cases h
  | cons d rest ih =>
    unfold killFirst
    rw [List.find?_cons] at h
    split at h
    · rename_i hd
      cases h
      rw [if_pos hd, naming_cons, naming_cons, live_of_hasName hname hd]
      simp [live, kill]
    · rename_i hd
      rw [if_neg (by rw [hd]; exact Bool.false_ne_true), naming_cons, naming_cons]
      exact Nat.add_lt_add_right (ih h) _

theorem mem_of_weaker {name : Name} {l l' : List Dentry} (h : List.Forall₂ (Weaker name) l l')
    {e : Dentry} (he : e ∈ l') (hl : e.live = true) : e ∈ l := by
  induction h with
  | nil => exact he
  | cons hw _ ih =>
    rcases List.mem_cons.mp he with rfl | he
    · rw [hw.of_live hl]
      exact List.mem_cons_self
    · exact List.mem_cons_of_mem _ (ih he)

end Dentry

/-! ## The calls over any layer -/

namespace Calls

open FS

variable {σ : Type} {view : σ → FS} {P : σ → Prop} {R : Nat → σ → Prop} {s s' : σ}

/-- What a new block keeps is kept by the choice of a block. -/
theorem blockForDentry_keeps {allocBlock : Nat → σ → Option Nat × σ} {parent : Nat} (hs : P s)
    (hblock : ∀ s, P s → P (allocBlock parent s).2) (last : Option Nat) (name : Name) :
    P (blockForDentry view allocBlock last parent name s).2 := by
  unfold blockForDentry
  cases last with
  | some b =>
    simp only
    split
    · exact hblock s hs
    · exact hs
  | none =>
    have hfirst := hblock s hs
    simp only
    generalize allocBlock parent s = st at hfirst
    obtain ⟨_ | b, t⟩ := st
    · exact hfirst
    · simp only
      split
      · exact hblock t hfirst
      · exact hfirst

variable {inodeLookup : Path → σ → Except RetCode Nat × σ}
  {dentryCreate : Option Nat → Nat → Name → Nat → Nat → σ → Option (RetCode × σ)} (hs : P s)
include hs

/-- What lookups, new inodes and new entries keep is kept by `inode_create`; of the
directory it is known what the lookup finds. -/
theorem inodeCreate_keeps {allocInode : Nat → σ → Option Nat × σ} {path : Path} {mode : Nat}
    {r : Except RetCode Nat}
    (hc : inodeCreate view inodeLookup dentryCreate allocInode path mode s = some (r, s'))
    (hlook : ∀ s, P s → P (inodeLookup path.parent s).2 ∧ ∀ p, (inodeLookup path.parent s).1 =
      .ok p → R (deref p) (inodeLookup path.parent s).2)
    (hinode : ∀ s p, P s → R p s → P (allocInode mode s).2 ∧ R p (allocInode mode s).2)
    (hentry : ∀ s last parent name index r s', P s → R parent s →
      dentryCreate last parent name index mode s = some (r, s') → P s') :
    P s' := by
  have hlooked := hlook s hs
  unfold inodeCreate at hc
  split at hc
  · cases hc
    exact hs
  split at hc
  · cases hc
    exact hs
  generalize inodeLookup path.parent s = st at hc hlooked
  obtain ⟨_ | parent, t⟩ := st
  · cases hc
    exact hlooked.1
  obtain ⟨hlooked, hfound⟩ := hlooked
  simp only at hc hlooked hfound
  split at hc
  · cases hc
    exact hlooked
  generalize (view t).inodeLookupIn (deref parent) path.back = scan at hc
  obtain ⟨_ | i, last⟩ := scan
  · obtain ⟨hnew, hparent⟩ := hinode t _ hlooked (hfound parent rfl)
    simp only at hc
    generalize allocInode mode t = new at hc hnew hparent
    obtain ⟨_ | i, u⟩ := new
    · cases hc
      exact hnew
    · simp only at hc
      split at hc
      · cases hc
      all_goals
        rename_i hd
        cases hc
        exact hentry _ _ _ _ _ _ _ hnew hparent hd
  · simp only at hc
    split at hc
    · cases hc
      exact hlooked
    · cases hc

theorem inodeLink_keeps {setLinks : Nat → Nat → σ → σ} {src dst : Path} {r : RetCode}
    (hl : inodeLink view inodeLookup dentryCreate setLinks src dst s = some (r, s'))
    (hsrc : ∀ s, P s → P (inodeLookup src s).2)
    (hdst : ∀ s, P s → P (inodeLookup dst.parent s).2 ∧ ∀ p, (inodeLookup dst.parent s).1 = .ok p →
      R (deref p) (inodeLookup dst.parent s).2)
    (hentry : ∀ s last parent name index mode r s', P s → R parent s →
      dentryCreate last parent name index mode s = some (r, s') → P s')
    (hlinks : ∀ s i n, P s → P (setLinks i n s)) : P s' := by
  have hlooked := hsrc s hs
  unfold inodeLink at hl
  split at hl
  · cases hl
    exact hs
  split at hl
  · cases hl
    exact hs
  generalize inodeLookup src s = st at hl hlooked
  obtain ⟨_ | index, t⟩ := st
  · cases hl
    exact hlooked
  simp only at hl hlooked
  split at hl
  · cases hl
    exact hlooked
  have hlooked' := hdst t hlooked
  generalize inodeLookup dst.parent t = st at hl hlooked'
  obtain ⟨_ | parent, u⟩ := st
  · cases hl
    exact hlooked'.1
  obtain ⟨hlooked', hfound⟩ := hlooked'
  simp only at hl hlooked' hfound
  split at hl
  · cases hl
    exact hlooked'
  generalize (view u).inodeLookupIn (deref parent) dst.back = scan at hl
  obtain ⟨_ | i, last⟩ := scan
  · simp only at hl
    split at hl
    · cases hl
    · rename_i hd
      cases hl
      exact hlinks _ _ _ (hentry _ _ _ _ _ _ _ _ hlooked' (hfound parent rfl) hd)
    · rename_i hd
      cases hl
      exact hentry _ _ _ _ _ _ _ _ hlooked' (hfound parent rfl) hd
  · cases hl
    exact hlooked'

end Calls

namespace FS

open Groups

variable {s s' : FS} {b i index mode parent : Nat} {dst path src : Path} {name : Name}

/-! ## Lookup -/

theorem lookupFrom_frame : ∀ (names link : List Name) (index inode : Nat) (hit : Bool) (s : FS),
    ∃ c, (lookupFrom link index inode hit names s).2 = { s with dcache := c } := by
  intro names
  induction names with
  | nil => intro link index inode hit s; exact ⟨s.dcache, rfl⟩
  | cons elem rest ih =>
    intro link index inode hit s
    unfold lookupFrom
    cases s.dcache.lookup link elem with
    | some i =>
      simp only
      split
      · exact ⟨_, rfl⟩
      · exact ih _ _ _ _ { s with dcache := s.dcache.enter link elem }
    | none =>
      simp only
      cases (if hit = true then s.groups.getInode index else some inode) with
      | none => exact ⟨_, rfl⟩
      | some inode =>
        simp only
        split
        · exact ⟨_, rfl⟩
        · cases s.search inode elem with
          | none => exact ⟨_, rfl⟩
          | some i =>
            obtain ⟨c, hc⟩ := ih (link ++ [elem]) i ((s.groups.getInode i).getD inode) false
              { s with dcache := (s.dcache.enter link elem).insert link elem i }
            exact ⟨c, hc⟩

theorem inodeLookup_root (path : Path) (hv : path.valid = true) (hn : path.names = []) :
    s.inodeLookup path = (.ok rootInode, s) := by
  simp [inodeLookup, hv, hn, lookupFrom]

theorem inodeLookup_frame (path : Path) (s : FS) :
    ∃ c, (s.inodeLookup path).2 = { s with dcache := c } := by
  unfold inodeLookup
  split
  · exact ⟨s.dcache, rfl⟩
  · exact lookupFrom_frame ..

theorem lookupFrom_error :
    ∀ {names link : List Name} {index inode : Nat} {hit : Bool} {s s' : FS} {r : RetCode},
    lookupFrom link index inode hit names s = (.error r, s') → r ≠ .success := by
  intro names
  induction names with
  | nil => intro link index inode hit s s' r h; cases h
  | cons elem rest ih =>
    intro link index inode hit s s' r h
    unfold lookupFrom at h
    cases hl : s.dcache.lookup link elem with
    | some i =>
      simp only [hl] at h
      split at h
      · cases h; decide
      · exact ih h
    | none =>
      simp only [hl] at h
      cases hd : (if hit = true then s.groups.getInode index else some inode) with
      | none => rw [hd] at h; cases h; decide
      | some inode =>
        simp only [hd] at h
        split at h
        · cases h; decide
        · cases hs : s.search inode elem with
          | none => rw [hs] at h; cases h; decide
          | some i => simp only [hs] at h; exact ih h

theorem inodeLookup_error {r : RetCode} (h : s.inodeLookup path = (.error r, s')) :
    r ≠ .success := by
  unfold inodeLookup at h
  split at h
  · cases h; decide
  · exact lookupFrom_error h

theorem search_some {inode : Nat} (h : s.search inode name = some i) :
    (s.groups.getInode i).isSome = true := by
  have hinv : ∀ i, s.search inode name = some i → (s.groups.getInode i).isSome = true := by
    refine visitFrom_inv (P := fun r => ∀ i, r = some i → (s.groups.getInode i).isSome = true)
      (s.inodes inode).iBlock 0 false none ?_ ?_
    rotate_left
    · intro i hi
      cases hi
    intro b _ r hr i hi
    unfold searchVisitor at hi
    cases hf : (s.dents b).find? (Dentry.hasName name) with
    | none =>
      rw [hf] at hi
      exact hr i hi
    | some e =>
      simp only [hf] at hi
      obtain ⟨j, hj, rfl⟩ := Option.map_eq_some_iff.mp hi
      rw [hj]
      rfl
  exact hinv i h

theorem lookupFrom_ok :
    ∀ {names link : List Name} {index inode : Nat} {hit : Bool} {s s' : FS} {i : Nat},
    lookupFrom link index inode hit names s = (.ok i, s') →
      names = [] ∧ i = index ∨ (s.groups.getInode i).isSome = true := by
  intro names
  induction names with
  | nil => intro link index inode hit s s' i h; cases h; exact Or.inl ⟨rfl, rfl⟩
  | cons elem rest ih =>
    intro link index inode hit s s' i h
    unfold lookupFrom at h
    refine Or.inr ?_
    cases hl : s.dcache.lookup link elem with
    | some j =>
      simp only [hl] at h
      split at h
      · cases h
      · rename_i hcond
        rcases ih h with ⟨rfl, rfl⟩ | hi
        · simpa [Option.isSome_iff_ne_none] using hcond
        · exact hi
    | none =>
      simp only [hl] at h
      cases hd : (if hit = true then s.groups.getInode index else some inode) with
      | none => rw [hd] at h; cases h
      | some inode =>
        simp only [hd] at h
        split at h
        · cases h
        · cases hs : s.search inode elem with
          | none => rw [hs] at h; cases h
          | some j =>
            simp only [hs] at h
            rcases ih h with ⟨-, rfl⟩ | hi
            · exact search_some hs
            · exact hi

theorem inodeLookup_ok (hroot : s.groups.allocated .inode rootInode = true)
    (h : s.inodeLookup path = (.ok i, s')) : s.groups.getInode i = some (deref i) := by
  unfold inodeLookup at h
  split at h
  · cases h
  · have hsome : (s.groups.getInode i).isSome = true := by
      rcases lookupFrom_ok h with ⟨-, rfl⟩ | hi
      · rw [Groups.getInode, if_neg (by decide), if_pos hroot]
        rfl
      · exact hi
    obtain ⟨j, hj⟩ := Option.isSome_iff_exists.mp hsome
    rw [hj, getInode_deref hj]

theorem inodeLookup_parent (hroot : s.groups.allocated .inode rootInode = true)
    (h : s.inodeLookup path = (.ok i, s')) :
    (∃ c, s' = { s with dcache := c }) ∧ s.groups.allocated .inode (deref i) = true := by
  obtain ⟨c, hc⟩ := inodeLookup_frame path s
  rw [h] at hc
  refine ⟨⟨c, hc⟩, ?_⟩
  rcases getInode_cases (inodeLookup_ok hroot h) with ⟨-, hi⟩ | ⟨-, hi⟩
  · rw [hi]
    exact hroot
  · exact hi

/-- `c` is the dentry cache after some lookups. -/
inductive Looked (s : FS) : DentryCache → Prop where
  | start : Looked s s.dcache
  | lookup {c : DentryCache} (h : Looked s c) (path : Path) :
    Looked s (({ s with dcache := c } : FS).inodeLookup path).2.dcache

theorem Looked.of_eq {c c' : DentryCache} {r : Except RetCode Nat} (h : s.Looked c)
    (hl : ({ s with dcache := c } : FS).inodeLookup path = (r, { s with dcache := c' })) :
    s.Looked c' := by
  have := h.lookup path
  rwa [hl] at this

/-! ## The scan of a directory -/

theorem inodeLookupIn_eq (s : FS) (parent : Nat) (name : Name) :
    s.inodeLookupIn parent name = (s.inodes parent).iBlock.foldl (fun st b =>
      (((s.dents b).filter (Dentry.hasName name)).foldl (fun _ e => some e.inode) st.1, some b))
        (none, none) :=
  visitFrom_foldl (fun _ _ => rfl) _ _ _

theorem foldl_some_eq {β : Type} (f : β → Nat) (l : List β) (a : Option Nat) :
    l.foldl (fun _ e => some (f e)) a = (l.getLast?.map f).or a := by
  induction l using List.reverseRecOn with
  | nil => rfl
  | append_singleton l e _ => simp

theorem inodeLookupIn_last (s : FS) (parent : Nat) (name : Name) :
    (s.inodeLookupIn parent name).2 = (s.inodes parent).iBlock.getLast? := by
  rw [inodeLookupIn_eq]
  induction (s.inodes parent).iBlock using List.reverseRecOn with
  | nil => rfl
  | append_singleton l b _ => simp

theorem inodeLookupIn_index (s : FS) (parent : Nat) (name : Name) :
    (s.inodeLookupIn parent name).1 =
      (((s.entries parent).filter (Dentry.hasName name)).getLast?).map Dentry.inode := by
  rw [inodeLookupIn_eq]
  unfold entries
  induction (s.inodes parent).iBlock using List.reverseRecOn with
  | nil => rfl
  | append_singleton l b ih =>
    rw [List.foldl_append, List.foldl_cons, List.foldl_nil, foldl_some_eq, ih, List.flatMap_append,
      List.filter_append, List.getLast?_append]
    cases h : ((s.dents b).filter (Dentry.hasName name)).getLast? <;> simp [h]

theorem inodeLookupIn_none (h : (s.inodeLookupIn parent name).1 = none) :
    ∀ e ∈ s.entries parent, e.hasName name = false := by
  rw [inodeLookupIn_index, Option.map_eq_none_iff, List.getLast?_eq_none_iff,
    List.filter_eq_nil_iff] at h
  exact fun e he => Bool.eq_false_iff.mpr (h e he)

theorem inodeLookupIn_new {d : Nat} (hnew : ∀ e ∈ s.entries d, e.hasName name = false) :
    s.inodeLookupIn d name = (none, (s.inodes d).iBlock.getLast?) := by
  refine Prod.ext ?_ (inodeLookupIn_last s d name)
  rw [inodeLookupIn_index, List.filter_eq_nil_iff.mpr fun e he => by simp [hnew e he]]
  rfl

/-! ## A new entry -/

/-- The inode table is the same up to the blocks of one directory. -/
structure SameInode (ino ino' : ListInode) : Prop where
  mode : ino'.iMode = ino.iMode
  links : ino'.iLinksCount = ino.iLinksCount
  uid : ino'.iUid = ino.iUid
  gid : ino'.iGid = ino.iGid
  size : ino'.iSize = ino.iSize

/-- Entry `e` is the new last entry of `parent`, and nothing else has changed. -/
structure Added (parent : Nat) (e : Dentry) (s s' : FS) : Prop where
  clean : s'.Clean s'.groups
  allocated : ∀ j, s'.groups.allocated .inode j = s.groups.allocated .inode j
  entries : s'.entries parent = s.entries parent ++ [e]
  others : ∀ j, s.groups.allocated .inode j = true → j ≠ parent → s'.entries j = s.entries j
  inodes : ∀ j, j ≠ parent → s'.inodes j = s.inodes j
  same : SameInode (s.inodes parent) (s'.inodes parent)
  dcache : s'.dcache = s.dcache

theorem flatMap_update_of_not_mem {dents : Nat → List Dentry} {es : List Dentry} {l : List Nat}
    (h : b ∉ l) :
    l.flatMap (Function.update dents b es) = l.flatMap dents := by
  rw [List.flatMap_def, List.flatMap_def]
  congr 1
  apply List.map_congr_left
  intro c hc
  rw [Function.update_of_ne]
  rintro rfl
  exact h hc

theorem Added.old (e : Dentry) (hs : s.Clean s.groups)
    (hp : s.groups.allocated .inode parent = true)
    (hb : (s.inodes parent).iBlock.getLast? = some b) :
    Added parent e s { s with dents := Function.update s.dents b (s.dents b ++ [e]) } := by
  obtain ⟨l, hl⟩ := List.getLast?_eq_some_iff.mp hb
  have hnd := hs.nodup parent hp
  rw [hl, List.nodup_append] at hnd
  have hnot : b ∉ l := fun hc => hnd.2.2 b hc b List.mem_cons_self rfl
  refine ⟨⟨hs.books, hs.owned, hs.nodup⟩, fun _ => rfl, ?_, fun j hj hne => ?_, fun _ _ => rfl,
    ⟨rfl, rfl, rfl, rfl, rfl⟩, rfl⟩
  · simp [FS.entries, hl, flatMap_update_of_not_mem hnot]
  · refine flatMap_update_of_not_mem fun hc => hne ?_
    refine hs.owned.unique j parent b ⟨hj, hc⟩ ⟨hp, ?_⟩
    rw [hl]
    exact List.mem_append_right _ List.mem_cons_self

theorem Added.new {g : Groups} (e : Dentry) (hs : s.Clean s.groups)
    (hp : s.groups.allocated .inode parent = true) (hout : BlockOut b s.groups g) :
    Added parent e s { s with
      groups := g
      inodes := Function.update s.inodes parent (addBlock (s.inodes parent) b)
      dents := Function.update (Function.update s.dents b []) b [e] } := by
  have hnew : ∀ j, s.groups.allocated .inode j = true → b ∉ (s.inodes j).iBlock := by
    intro j hj hc
    have := hs.owned.allocated j b ⟨hj, hc⟩
    rw [hout.fresh] at this
    cases this
  rw [Function.update_idem]
  refine ⟨⟨hout.books, ?_, fun i hi => ?_⟩, hout.inode, ?_, fun j hj hne => ?_,
    fun j hj => Function.update_of_ne hj .., ?_, rfl⟩
  · refine hs.owned.grow parent hout ?_
    rintro i c ⟨hi, hc⟩
    rw [hout.inode] at hi
    by_cases h : i = parent
    · subst h
      simp only [Function.update_self, addBlock_iBlock, List.mem_append, List.mem_singleton] at hc
      exact hc.imp (fun hc => ⟨hi, hc⟩) fun hc => ⟨rfl, hc⟩
    · simp only [Function.update_of_ne h] at hc
      exact Or.inl ⟨hi, hc⟩
  · rw [hout.inode] at hi
    by_cases h : i = parent
    · subst h
      simp only [Function.update_self, addBlock_iBlock]
      rw [List.nodup_append]
      refine ⟨hs.nodup i hi, List.nodup_singleton b, ?_⟩
      intro c hc c' hc'
      rw [List.mem_singleton.mp hc']
      rintro rfl
      exact hnew i hi hc
    · simp only [Function.update_of_ne h]
      exact hs.nodup i hi
  · simp [FS.entries, flatMap_update_of_not_mem (hnew parent hp)]
  · simp only [FS.entries, Function.update_of_ne hne]
    exact flatMap_update_of_not_mem (hnew j hj)
  · simp only [Function.update_self]
    exact ⟨rfl, rfl, rfl, rfl, rfl⟩

theorem allocBlock_some (inode : Nat) (s : FS) :
    ∃ b served, (s.groups.alloc .block).1 = some (b, served) ∧
      s.allocBlock inode = (some b, { s with
      groups := takenFor (s.inodes inode) s.groups
      inodes := Function.update s.inodes inode (addBlock (s.inodes inode) b)
      dents := Function.update s.dents b [] }) := by
  obtain ⟨b, served, hr, heq⟩ := allocBlockFor_eq (s.inodes inode) s
  refine ⟨b, served, hr, ?_⟩
  unfold allocBlock
  rw [heq]

theorem allocBlock_spec (inode : Nat) (h : s.groups.Books)
    (hle : (s.allocBlock inode).2.groups.groupCount ≤ 33) :
    ∃ b g, s.allocBlock inode = (some b, { s with
        groups := g
        inodes := Function.update s.inodes inode (addBlock (s.inodes inode) b)
        dents := Function.update s.dents b [] }) ∧ BlockOut b s.groups g := by
  obtain ⟨b, g, heq, hout⟩ := allocBlockFor_spec (s.inodes inode) h hle
  refine ⟨b, g, ?_, hout⟩
  unfold allocBlock
  rw [heq]

theorem allocBlock_groupCount (inode : Nat) (s : FS) :
    s.groups.groupCount ≤ (s.allocBlock inode).2.groups.groupCount :=
  allocBlockFor_groupCount ..

theorem allocBlock_dents {t : FS} (h : s.allocBlock i = (some b, t)) : t.dents b = [] := by
  obtain ⟨b', served, -, heq⟩ := allocBlock_some i s
  rw [heq] at h
  cases h
  exact Function.update_self ..

/-- The block for an entry is the last one or a new one. Only a name that fits into no
block at all makes `dentry_create` allocate twice. -/
theorem blockForDentry_cases (last : Option Nat) (parent : Nat) (name : Name) (s : FS) :
    (∃ b, last = some b ∧ s.blockBytes b + dentrySize + name.length ≤ blockSize ∧
        s.blockForDentry last parent name = (some b, s)) ∨
      s.blockForDentry last parent name = s.allocBlock parent ∨
      dentrySize + name.length > blockSize ∧
        s.blockForDentry last parent name = (s.allocBlock parent).2.allocBlock parent := by
  unfold blockForDentry Calls.blockForDentry
  cases last with
  | some b =>
    simp only
    split
    · exact Or.inr (Or.inl rfl)
    · rename_i hroom
      exact Or.inl ⟨b, rfl, Nat.le_of_not_gt hroom, rfl⟩
  | none =>
    obtain ⟨b, served, -, heq⟩ := allocBlock_some parent s
    simp only [heq]
    split
    · rename_i hfull
      exact Or.inr (Or.inr ⟨by simpa [blockBytes] using hfull, rfl⟩)
    · exact Or.inr (Or.inl rfl)

theorem dentryCreate_inv {last : Option Nat} {r : RetCode}
    (h : s.dentryCreate last parent name index mode = some (r, s')) :
    r = .success ∧ ∃ b t, (last = some b ∧ t = s ∧ s.blockBytes b + dentrySize + name.length ≤
        blockSize ∨ s.allocBlock parent = (some b, t)) ∧
      s' = { t with
        dents := Function.update t.dents b (t.dents b ++ [Dentry.make name index mode]) } := by
  unfold dentryCreate Calls.dentryCreate at h
  rcases blockForDentry_cases last parent name s with ⟨b, hlast, hroom, heq⟩ | heq | ⟨hlong, heq⟩
  · simp only [heq] at h
    split at h
    · cases h
    · cases h
      exact ⟨rfl, b, s, Or.inl ⟨hlast, rfl, hroom⟩, rfl⟩
  · obtain ⟨b, served, -, hb⟩ := allocBlock_some parent s
    rw [heq, hb] at h
    simp only at h
    split at h
    · cases h
    · cases h
      exact ⟨rfl, b, _, Or.inr hb, rfl⟩
  · obtain ⟨b, served, -, hb⟩ := allocBlock_some parent (s.allocBlock parent).2
    rw [heq, hb] at h
    simp only [if_pos hlong] at h
    cases h

theorem dentryCreate_fits (hfit : dentrySize + name.length ≤ blockSize) (last : Option Nat)
    (parent index mode : Nat) (s : FS) :
    ∃ t, s.dentryCreate last parent name index mode = some (.success, t) := by
  have hsome : ∃ r t, s.dentryCreate last parent name index mode = some (r, t) := by
    unfold dentryCreate Calls.dentryCreate
    split
    · exact ⟨_, _, rfl⟩
    · rw [if_neg (Nat.not_lt.mpr hfit)]
      exact ⟨_, _, rfl⟩
  obtain ⟨r, t, hr⟩ := hsome
  obtain ⟨rfl, -⟩ := dentryCreate_inv hr
  exact ⟨t, hr⟩

theorem entry_fits (hlen : name.length ≤ 255) : dentrySize + name.length ≤ blockSize := by
  unfold dentrySize
  rw [blockSize_eq]
  omega

theorem dentryCreate_groupCount {last : Option Nat} {r : RetCode}
    (h : s.dentryCreate last parent name index mode = some (r, s')) :
    s.groups.groupCount ≤ s'.groups.groupCount := by
  obtain ⟨-, b, t, hblock, rfl⟩ := dentryCreate_inv h
  rcases hblock with ⟨-, rfl, -⟩ | hb
  · exact Nat.le_refl _
  · have := allocBlock_groupCount parent s
    rw [hb] at this
    exact this

theorem dentryCreate_spec {r : RetCode} (hs : s.Clean s.groups)
    (hp : s.groups.allocated .inode parent = true)
    (h : s.dentryCreate (s.inodes parent).iBlock.getLast? parent name index mode = some (r, s'))
    (hle : s'.groups.groupCount ≤ 33) :
    r = .success ∧ Added parent (Dentry.make name index mode) s s' := by
  obtain ⟨hr, b, t, hblock, rfl⟩ := dentryCreate_inv h
  refine ⟨hr, ?_⟩
  rcases hblock with ⟨hlast, rfl, -⟩ | hb
  · exact Added.old _ hs hp hlast
  · -- the directory gets a block for this entry alone
    obtain ⟨b', g, heq, hout⟩ := allocBlock_spec parent hs.books (by rw [hb]; exact hle)
    rw [hb] at heq
    cases heq
    simpa using Added.new (Dentry.make name index mode) hs hp hout

/-! ## Removing a name -/

/-- What clearing `name` in the blocks `bs` comes to: the blocks and the inode
of the entry cleared last. -/
structure Killed (name : Name) (bs : List Nat) (dents : Nat → List Dentry)
    (st : (Nat → List Dentry) × Option Nat) : Prop where
  weaker : ∀ b, List.Forall₂ (Dentry.Weaker name) (dents b) (st.1 b)
  outside : ∀ b, b ∉ bs → st.1 b = dents b
  idle : st.2 = none → st.1 = dents
  found : ∀ i, st.2 = some i → ∃ b ∈ bs, ∃ e ∈ dents b, e.hasName name = true ∧ e.inode = i ∧
    Dentry.naming i (st.1 b) < Dentry.naming i (dents b)

theorem Killed.start (name : Name) (bs : List Nat) (dents : Nat → List Dentry) :
    Killed name bs dents (dents, none) where
  weaker _ := List.forall₂_same.mpr fun _ _ => Or.inl rfl
  outside _ _ := rfl
  idle _ := rfl
  found _ h := by cases h

theorem Killed.step (hname : name ≠ []) {bs : List Nat} {dents : Nat → List Dentry}
    {st : (Nat → List Dentry) × Option Nat} (h : Killed name bs dents st) (hb : b ∈ bs) :
    Killed name bs dents (killVisitor name b st).2 := by
  unfold killVisitor
  cases hf : (st.1 b).find? (Dentry.hasName name) with
  | none => exact h
  | some e =>
    have hn : e.hasName name = true := List.find?_some hf
    have hmem : e ∈ dents b :=
      Dentry.mem_of_weaker (h.weaker b) (List.mem_of_find?_eq_some hf)
        (Dentry.live_of_hasName hname hn)
    refine ⟨fun c => ?_, fun c hc => ?_, fun hc => (by cases hc), fun i hi => ?_⟩
    · by_cases hcb : c = b
      · subst hcb
        simp only [Function.update_self]
        exact Dentry.weaker_trans hname (h.weaker c) (Dentry.killFirst_weaker name (st.1 c))
      · simp only [Function.update_of_ne hcb]
        exact h.weaker c
    · have hcb : c ≠ b := fun hcb => hc (hcb ▸ hb)
      simp only [Function.update_of_ne hcb]
      exact h.outside c hc
    · cases hi
      refine ⟨b, hb, e, hmem, hn, rfl, ?_⟩
      simp only [Function.update_self]
      exact Nat.lt_of_lt_of_le (Dentry.naming_killFirst hname hf)
        (Dentry.naming_weaker (h.weaker b) e.inode)

theorem killName_killed (hname : name ≠ []) (s : FS) (parent : Nat) :
    Killed name (s.inodes parent).iBlock s.dents
      (s.visitInodeBlocks parent (killVisitor name) (s.dents, none)) :=
  visitFrom_inv _ 0 false _ (fun _ hb _ hst => hst.step hname hb) (Killed.start name _ s.dents)

/-! ## The operations -/

theorem Path.back_ne_nil (hv : path.valid = true) (hne : path.names ≠ []) : path.back ≠ [] := by
  unfold Path.back
  rw [List.getLast?_eq_getLast_of_ne_nil hne, Option.getD_some]
  intro hc
  exact path.nonempty hv (hc ▸ List.getLast_mem hne)

theorem Clean.newInode {ino : ListInode} {g : Groups} (h : s.Clean s.groups)
    (hout : HandedOut .inode i s.groups g) (hbooks : g.Books) (hempty : ino.iBlock = [])
    (c : DentryCache) :
    ({ s with groups := g, inodes := Function.update s.inodes i ino, dcache := c } : FS).Clean
      g := by
  have hold : ∀ {j b},
    ({ s with groups := g, inodes := Function.update s.inodes i ino, dcache := c } : FS).Holds
    g j b →
      s.Holds s.groups j b := by
    rintro j b ⟨hj, hb⟩
    by_cases hji : j = i
    · subst hji
      simp [hempty] at hb
    · simp only [Function.update_of_ne hji] at hb
      rw [hout.after, if_neg fun hc => hji hc.2] at hj
      exact ⟨hj, hb⟩
  refine ⟨hbooks, h.owned.mono (fun b hb => hout.keep hb) fun j b hb => hold hb, fun j hj => ?_⟩
  by_cases hji : j = i
  · subst hji
    simp [hempty]
  · simp only [Function.update_of_ne hji]
    rw [hout.after, if_neg fun hc => hji hc.2] at hj
    exact h.nodup j hj

/-- The record of a new inode. -/
def newInode (s : FS) (mode : Nat) : ListInode :=
  if s.groups.hasFree .inode then inodeInit (blankInode mode) else blankInode mode

theorem newInode_iBlock (s : FS) (mode : Nat) : (s.newInode mode).iBlock = [] :=
  by unfold newInode; split <;> rfl

theorem newInode_iMode (s : FS) (mode : Nat) : (s.newInode mode).iMode = u16 mode :=
  by unfold newInode; split <;> rfl

/-- How far `inode_create` gets: to the end of a lookup, or past both allocations,
which do not fail. -/
theorem inodeCreate_inv {r : Except RetCode Nat} (h : s.inodeCreate path mode = some (r, s')) :
    (∃ c e, s.Looked c ∧ s' = { s with dcache := c } ∧ r = .error e ∧ e ≠ .success) ∨
      ∃ parent c i t, s.inodeLookup path.parent = (.ok parent, { s with dcache := c }) ∧
        isDir (s.inodes (deref parent)).iMode = true ∧ path.valid = true ∧ path.names ≠ [] ∧
        (∀ e ∈ s.entries (deref parent), e.hasName path.back = false) ∧ r = .ok i ∧
        ({ s with dcache := c } : FS).allocInode mode = (some i, t) ∧
        t.dentryCreate (s.inodes (deref parent)).iBlock.getLast? (deref parent) path.back i mode =
        some (.success, s') := by
  unfold inodeCreate Calls.inodeCreate at h
  by_cases hv : path.valid = true
  case neg => simp only [hv] at h; cases h; exact Or.inl ⟨s.dcache, _, .start, rfl, rfl, by decide⟩
  by_cases hne : path.names = []
  case pos =>
    simp only [hv, hne] at h
    cases h
    exact Or.inl ⟨s.dcache, _, .start, rfl, rfl, by decide⟩
  simp only [hv, Bool.not_true, Bool.false_eq_true, if_false, List.isEmpty_iff, hne] at h
  obtain ⟨c, hc⟩ := inodeLookup_frame path.parent s
  cases hl : s.inodeLookup path.parent with
  | mk res u =>
    rw [hl] at hc h
    simp only at hc
    subst hc
    have hlooked := Looked.start.of_eq hl
    cases res with
    | error e => cases h; exact Or.inl ⟨c, _, hlooked, rfl, rfl, inodeLookup_error hl⟩
    | ok parent =>
      simp only at h
      by_cases hd : isDir (s.inodes (deref parent)).iMode = true
      case neg => simp only [hd] at h; cases h; exact Or.inl ⟨c, _, hlooked, rfl, rfl, by decide⟩
      simp only [hd, Bool.not_true, Bool.false_eq_true, if_false] at h
      have hlast := inodeLookupIn_last { s with dcache := c } (deref parent) path.back
      cases hscan : ({ s with dcache := c } : FS).inodeLookupIn (deref parent) path.back with
      | mk found last =>
        rw [hscan] at h hlast
        cases found with
        | some i =>
          simp only at h
          split at h
          · cases h
            exact Or.inl ⟨c, _, hlooked, rfl, rfl, by split <;> decide⟩
          · cases h
        | none =>
          have hnone := inodeLookupIn_none (by rw [hscan] :
            (({ s with dcache := c } : FS).inodeLookupIn (deref parent) path.back).1 = none)
          obtain ⟨i, served, -, halloc⟩ := allocInode_some mode { s with dcache := c }
          rw [halloc] at h
          simp only at h hlast
          split at h
          · cases h
          · rename_i hdc
            cases h
            rw [hlast] at hdc
            exact Or.inr ⟨parent, c, i, _, rfl, hd, hv, hne, hnone, rfl, halloc, hdc⟩
          · rename_i hrc hdc
            exact absurd (dentryCreate_inv hdc).1 hrc

theorem inodeCreate_groupCount {r : Except RetCode Nat}
    (h : s.inodeCreate path mode = some (r, s')) :
    s.groups.groupCount ≤ s'.groups.groupCount := by
  rcases inodeCreate_inv h with ⟨c, e, -, rfl, -⟩ | ⟨parent, c, i, t, -, -, -, -, -, -, ha, hdc⟩
  · exact Nat.le_refl _
  · have hle : s.groups.groupCount ≤ t.groups.groupCount := by
      have := alloc_groupCount .inode s.groups
      have ht := congrArg (fun r => r.2.groups.groupCount) ha
      unfold allocInode at ht
      split at ht <;> simp_all
    exact Nat.le_trans hle (dentryCreate_groupCount hdc)

theorem inodeCreate_error {r : RetCode} (h : s.inodeCreate path mode = some (.error r, s')) :
    r ≠ .success := by
  rcases inodeCreate_inv h with ⟨c, e, -, -, hr, he⟩ | ⟨-, -, i, -, -, -, -, -, -, hr, -⟩
  · cases hr
    exact he
  · cases hr

theorem inodeCreate_cases {r : Except RetCode Nat} (hs : s.Clean s.groups)
    (hroot : s.groups.allocated .inode rootInode = true)
    (h : s.inodeCreate path mode = some (r, s')) (hle : s'.groups.groupCount ≤ 33) :
    (∃ c e, s.Looked c ∧ s' = { s with dcache := c } ∧ r = .error e) ∨
      ∃ parent c i g, s.inodeLookup path.parent = (.ok parent, { s with dcache := c }) ∧
        s.groups.allocated .inode (deref parent) = true ∧
        isDir (s.inodes (deref parent)).iMode = true ∧ path.valid = true ∧ path.names ≠ [] ∧
        (∀ e ∈ s.entries (deref parent), e.hasName path.back = false) ∧
        r = .ok i ∧ HandedOut .inode i s.groups g ∧ g.Books ∧
        Added (deref parent) (Dentry.make path.back i mode)
          { s with
            groups := g
            inodes := Function.update s.inodes i (s.newInode mode)
            dcache := c } s' := by
  rcases inodeCreate_inv h with ⟨c, e, hlooked, hs', hr, -⟩ | ⟨parent, c, i, t, hl, hd, hv, hne,
    hnone, hr, ha, hdc⟩
  · exact Or.inl ⟨c, e, hlooked, hs', hr⟩
  · have halloc := (inodeLookup_parent hroot hl).2
    obtain ⟨i', g, heq, hout, hbooks⟩ := allocInode_spec mode (s := { s with dcache := c }) hs.books
      (by rw [ha]; exact Nat.le_trans (dentryCreate_groupCount hdc) hle)
    rw [ha] at heq
    cases heq
    have hipar : deref parent ≠ i := by
      intro hc
      rw [← hc] at hout
      have := hout.free
      rw [halloc] at this
      cases this
    have hlast : (s.inodes (deref parent)).iBlock.getLast? =
        ((Function.update s.inodes i (s.newInode mode)) (deref parent)).iBlock.getLast? := by
      rw [Function.update_of_ne hipar]
    rw [hlast] at hdc
    obtain ⟨-, hadd⟩ := dentryCreate_spec (hs.newInode hout hbooks (newInode_iBlock s mode) c)
      (hout.keep halloc) hdc hle
    exact Or.inr ⟨parent, c, i, g, hl, halloc, hd, hv, hne, hnone, hr, hout, hbooks, hadd⟩

theorem inodeLink_inv {r : RetCode} (h : s.inodeLink src dst = some (r, s')) :
    (∃ c, s.Looked c ∧ s' = { s with dcache := c } ∧ r ≠ .success) ∨
      ∃ index parent c c' t, s.inodeLookup src = (.ok index, { s with dcache := c }) ∧
        isDir (s.inodes (deref index)).iMode = false ∧
        ({ s with dcache := c } : FS).inodeLookup dst.parent =
        (.ok parent, { s with dcache := c' }) ∧ isDir (s.inodes (deref parent)).iMode = true ∧
        dst.valid = true ∧ dst.names ≠ [] ∧ src.names ≠ [] ∧
        (∀ e ∈ s.entries (deref parent), e.hasName dst.back = false) ∧ r = .success ∧
        ({ s with dcache := c' } : FS).dentryCreate (s.inodes (deref parent)).iBlock.getLast?
        (deref parent) dst.back index
          (s.inodes (deref index)).iMode = some (.success, t) ∧
        s' = t.setLinks (deref index) (u16 ((t.inodes (deref index)).iLinksCount + 1)) := by
  unfold inodeLink Calls.inodeLink at h
  by_cases hv : (!src.valid || !dst.valid) = true
  case pos => rw [if_pos hv] at h; cases h; exact Or.inl ⟨s.dcache, .start, rfl, by decide⟩
  by_cases hne : (src.names.isEmpty || dst.names.isEmpty) = true
  case pos =>
    rw [if_neg hv, if_pos hne] at h
    cases h
    exact Or.inl ⟨s.dcache, .start, rfl, by decide⟩
  rw [if_neg hv, if_neg hne] at h
  simp only [Bool.or_eq_true, Bool.not_eq_true', not_or, Bool.not_eq_false,
    List.isEmpty_iff] at hv hne
  cases hl : s.inodeLookup src with
  | mk res t =>
    obtain ⟨c, hc⟩ := inodeLookup_frame src s
    rw [hl] at hc h
    simp only at hc
    subst hc
    have hlooked := Looked.start.of_eq hl
    cases res with
    | error e =>
      simp only at h
      cases h
      exact Or.inl ⟨c, hlooked, rfl, inodeLookup_error hl⟩
    | ok index =>
      simp only at h
      by_cases hd : isDir (s.inodes (deref index)).iMode = true
      case pos => rw [if_pos hd] at h; cases h; exact Or.inl ⟨c, hlooked, rfl, by decide⟩
      rw [if_neg hd] at h
      cases hl' : ({ s with dcache := c } : FS).inodeLookup dst.parent with
      | mk res t =>
        obtain ⟨c', hc'⟩ := inodeLookup_frame dst.parent { s with dcache := c }
        rw [hl'] at hc' h
        simp only at hc'
        subst hc'
        have hlooked' := hlooked.of_eq hl'
        cases res with
        | error e =>
          simp only at h
          cases h
          exact Or.inl ⟨c', hlooked', rfl, inodeLookup_error hl'⟩
        | ok parent =>
          simp only at h
          by_cases hp : isDir (s.inodes (deref parent)).iMode = true
          case neg => simp only [hp] at h; cases h; exact Or.inl ⟨c', hlooked', rfl, by decide⟩
          simp only [hp, Bool.not_true, Bool.false_eq_true, if_false] at h
          have hlast := inodeLookupIn_last { s with dcache := c' } (deref parent) dst.back
          cases hscan : ({ s with dcache := c' } : FS).inodeLookupIn (deref parent) dst.back with
          | mk found last =>
            rw [hscan] at h hlast
            cases found with
            | some i => cases h; exact Or.inl ⟨c', hlooked', rfl, by decide⟩
            | none =>
              simp only at h hlast
              have hnone := inodeLookupIn_none (by rw [hscan] :
                (({ s with dcache := c' } : FS).inodeLookupIn (deref parent) dst.back).1 = none)
              split at h
              · cases h
              · rename_i hdc
                cases h
                rw [hlast] at hdc
                exact Or.inr ⟨index, parent, c, c', _, rfl, Bool.eq_false_iff.mpr hd, hl', hp, hv.2,
                  hne.2, hne.1, hnone, rfl, hdc, rfl⟩
              · rename_i hrc hdc
                exact absurd (dentryCreate_inv hdc).1 hrc

theorem inodeLink_cases {r : RetCode} (hs : s.Clean s.groups)
    (hroot : s.groups.allocated .inode rootInode = true) (h : s.inodeLink src dst = some (r, s'))
    (hle : s'.groups.groupCount ≤ 33) :
    (∃ c, s.Looked c ∧ s' = { s with dcache := c } ∧ r ≠ .success) ∨
      ∃ index parent c c' t, s.inodeLookup src = (.ok index, { s with dcache := c }) ∧
        isDir (s.inodes (deref index)).iMode = false ∧
        ({ s with dcache := c } : FS).inodeLookup dst.parent =
        (.ok parent, { s with dcache := c' }) ∧ s.groups.allocated .inode (deref parent) = true ∧
        isDir (s.inodes (deref parent)).iMode = true ∧ dst.valid = true ∧ dst.names ≠ [] ∧
        src.names ≠ [] ∧ (∀ e ∈ s.entries (deref parent), e.hasName dst.back = false) ∧
        r = .success ∧
        Added (deref parent) (Dentry.make dst.back index (s.inodes (deref index)).iMode)
        { s with dcache := c' } t ∧
        s' = t.setLinks (deref index) (u16 ((t.inodes (deref index)).iLinksCount + 1)) := by
  rcases inodeLink_inv h with hfail | ⟨index, parent, c, c', t, hl, hd, hl', hp, hv, hne, hne',
    hnone, hr, hdc, rfl⟩
  · exact Or.inl hfail
  · have halloc := (inodeLookup_parent (s := { s with dcache := c }) hroot hl').2
    obtain ⟨-, hadd⟩ := dentryCreate_spec (s := { s with dcache := c' }) ⟨hs.books, hs.owned,
      hs.nodup⟩ halloc hdc hle
    exact Or.inr ⟨index, parent, c, c', t, hl, hd, hl', halloc, hp, hv, hne, hne', hnone, hr,
      hadd, rfl⟩

theorem inodeLink_groupCount {r : RetCode} (h : s.inodeLink src dst = some (r, s')) :
    s.groups.groupCount ≤ s'.groups.groupCount := by
  rcases inodeLink_inv h with ⟨c, -, rfl, -⟩ | ⟨index, parent, c, c', t, -, -, -, -, -, -, -, -,
    -, hdc, rfl⟩
  · exact Nat.le_refl _
  · have hle := dentryCreate_groupCount hdc
    exact hle

/-- `inode_unlink` has no directory to look into, or looks in vain. -/
def Unfound (path : Path) (s : FS) : Prop :=
  path.valid = false ∨ path.names = [] ∨ ∀ parent t, s.inodeLookup path.parent = (.ok parent, t) →
    isDir (s.inodes (deref parent)).iMode = true →
      (s.visitInodeBlocks (deref parent) (killVisitor path.back) (s.dents, none)).2 = none

/-- `inode_unlink` either fails before it finds the name, or clears the name and
drops one link of the inode. -/
theorem inodeUnlink_cases {fuel : Nat} {r : RetCode}
    (hroot : s.groups.allocated .inode rootInode = true)
    (h : s.inodeUnlink fuel path = some (r, s')) :
    (∃ c, s.Looked c ∧ s' = { s with dcache := c } ∧ r ≠ .success ∧ s.Unfound path) ∨
      ∃ parent c st i, s.inodeLookup path.parent = (.ok parent, { s with dcache := c }) ∧
        s.groups.allocated .inode (deref parent) = true ∧
        isDir (s.inodes (deref parent)).iMode = true ∧ path.valid = true ∧ path.names ≠ [] ∧
        st = s.visitInodeBlocks (deref parent) (killVisitor path.back) (s.dents, none) ∧
        Killed path.back (s.inodes (deref parent)).iBlock s.dents st ∧ st.2 = some i ∧
        dropLink fuel i
        { s with dents := st.1, dcache := DentryCache.drop c path.parent.names path.back } =
        some (r, s') := by
  unfold inodeUnlink at h
  by_cases hv : path.valid = true
  case neg =>
    simp only [hv] at h
    cases h
    exact Or.inl ⟨s.dcache, .start, rfl, by decide, Or.inl (Bool.eq_false_iff.mpr hv)⟩
  by_cases hne : path.names = []
  case pos =>
    simp only [hv, hne] at h
    cases h
    exact Or.inl ⟨s.dcache, .start, rfl, by decide, Or.inr (Or.inl hne)⟩
  simp only [hv, Bool.not_true, Bool.false_eq_true, if_false, List.isEmpty_iff, hne] at h
  cases hl : s.inodeLookup path.parent with
  | mk res t =>
    obtain ⟨c, hc⟩ := inodeLookup_frame path.parent s
    rw [hl] at hc h
    simp only at hc
    subst hc
    have hlooked := Looked.start.of_eq hl
    cases res with
    | error e =>
      simp only at h
      cases h
      refine Or.inl ⟨c, hlooked, rfl, inodeLookup_error hl, Or.inr (Or.inr fun p t hp => ?_)⟩
      cases hl.symm.trans hp
    | ok parent =>
      simp only at h
      by_cases hd : isDir (s.inodes (deref parent)).iMode = true
      case neg =>
        simp only [hd] at h
        cases h
        refine Or.inl ⟨c, hlooked, rfl, by decide, Or.inr (Or.inr fun p t hp hpd => ?_)⟩
        cases hl.symm.trans hp
        exact absurd hpd hd
      simp only [hd, Bool.not_true, Bool.false_eq_true, if_false] at h
      have hkilled := killName_killed (Path.back_ne_nil hv hne) s (deref parent)
      generalize hst : s.visitInodeBlocks (deref parent) (killVisitor path.back) (s.dents, none) =
        st at hkilled
      have hkill : ({ s with dcache := c } : FS).killName (deref parent) path.back =
        ({ s with dents := st.1, dcache := c }, st.2) := by
        rw [← hst]
        rfl
      rw [hkill] at h
      cases hm : st.2 with
      | none =>
        rw [hm] at h
        cases h
        refine Or.inl ⟨c, hlooked, by rw [hkilled.idle hm], by decide,
          Or.inr (Or.inr fun p t hp _ => ?_)⟩
        cases hl.symm.trans hp
        rw [hst]
        exact hm
      | some i =>
        rw [hm] at h
        exact Or.inr ⟨parent, c, st, i, rfl, (inodeLookup_parent hroot hl).2, hd, hv, hne, hst.symm,
          hkilled, hm, h⟩

end FS

end NaiveFS
