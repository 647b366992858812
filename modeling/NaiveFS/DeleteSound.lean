import NaiveFS.AllocSound
import Mathlib.Logic.Relation

/-!
# What recursive deletion does

`inode_delete` walks the live entries below an inode and frees everything it
meets. The inodes freed are reachable from the first one, and where an inode is
freed so is everything its entries name. Nothing is assumed about the shape of
the directory graph: on a cycle the recursion does not come to an end.
-/

namespace NaiveFS

namespace FS

open Groups

/-- Directory `d`, which is not the root, has a live entry that names `c`. -/
def Edge (s : FS) (g : Groups) (d c : Nat) : Prop :=
  g.allocated .inode d = true ∧ d ≠ rootInode ∧ isDir (s.inodes d).iMode = true ∧
    ∃ e ∈ s.entries d, e.live = true ∧ e.inode = c

/-- `c` is `d` or lies below it: deletion that starts at `d` can get to `c`. -/
def Reach (s : FS) (g : Groups) : Nat → Nat → Prop := Relation.ReflTransGen (s.Edge g)

theorem Reach.mono {s : FS} {g g' : Groups}
    (hg : ∀ j, g.allocated .inode j = true → g'.allocated .inode j = true) {d c : Nat}
    (h : s.Reach g d c) : s.Reach g' d c := by
  induction h with
  | refl => exact Relation.ReflTransGen.refl
  | tail _ he ih => exact ih.tail ⟨hg _ he.1, he.2⟩

/-- The ways a call of `inode_delete` ends: it refuses the inode, or it deals
with the contents first and frees the inode at the end. -/
theorem inodeDelete_some {s : FS} {fuel index : Nat} {g g' : Groups} {r : RetCode}
    (h : s.inodeDelete (fuel + 1) index g = some (r, g')) :
    g' = g ∧ (index = rootInode ∨ g.getInode index = none ∨
        ∃ i, g.getInode index = some i ∧ isReg (s.inodes i).iMode = false ∧
        isDir (s.inodes i).iMode = false) ∨
      ∃ i g₁ b, index ≠ rootInode ∧ g.getInode index = some i ∧ r = .success ∧
        (isDir (s.inodes i).iMode = true ∧ deleteAll (s.inodeDelete fuel) (s.entries i) g =
          some g₁ ∨ isReg (s.inodes i).iMode = true ∧ freeBlocks (s.inodes i).iBlock g = some g₁) ∧
        g₁.free .inode index = some (b, g') := by
  unfold inodeDelete at h
  by_cases hroot : index = rootInode
  · rw [if_pos hroot] at h
    cases h
    exact Or.inl ⟨rfl, Or.inl hroot⟩
  · rw [if_neg hroot] at h
    cases hi : g.getInode index with
    | none =>
      simp only [hi] at h
      split at h
      · cases h
        exact Or.inl ⟨rfl, Or.inr (Or.inl rfl)⟩
      · cases h
    | some i =>
      simp only [hi] at h
      have hend : ∀ g₁ : Groups, (g₁.free .inode index).map (fun r => (RetCode.success, r.2)) =
        some (r, g') →
          r = .success ∧ ∃ b, g₁.free .inode index = some (b, g') := by
        intro g₁ hg₁
        obtain ⟨⟨b, g₂⟩, hfree, heq⟩ := Option.map_eq_some_iff.mp hg₁
        cases heq
        exact ⟨rfl, b, hfree⟩
      cases hreg : isReg (s.inodes i).iMode <;> cases hdir : isDir (s.inodes i).iMode <;>
        simp only [hreg, hdir] at h
      · cases h
        exact Or.inl ⟨rfl, Or.inr (Or.inr ⟨i, rfl, hreg, hdir⟩)⟩
      · cases hall : deleteAll (s.inodeDelete fuel) (s.entries i) g with
        | none => simp [hall] at h
        | some g₁ =>
          simp only [hall] at h
          obtain ⟨hr, b, hfree⟩ := hend g₁ h
          exact Or.inr ⟨i, g₁, b, hroot, rfl, hr, Or.inl ⟨hdir, hall⟩, hfree⟩
      · cases hall : freeBlocks (s.inodes i).iBlock g with
        | none => simp [hall] at h
        | some g₁ =>
          simp only [hall] at h
          obtain ⟨hr, b, hfree⟩ := hend g₁ h
          exact Or.inr ⟨i, g₁, b, hroot, rfl, hr, Or.inr ⟨hreg, hall⟩, hfree⟩
      · cases hall : deleteAll (s.inodeDelete fuel) (s.entries i) g with
        | none => simp [hall] at h
        | some g₁ =>
          simp only [hall] at h
          obtain ⟨hr, b, hfree⟩ := hend g₁ h
          exact Or.inr ⟨i, g₁, b, hroot, rfl, hr, Or.inl ⟨hdir, hall⟩, hfree⟩

theorem freeBlocks_resident :
    ∀ {bs : List Nat} {g g' : Groups}, g.Resident → freeBlocks bs g = some g' →
    g'.Resident ∧ g'.groupCount = g.groupCount ∧ ∀ j, g'.allocated .inode j =
      g.allocated .inode j := by
  intro bs
  induction bs with
  | nil => intro g g' h heq; cases heq; exact ⟨h, rfl, fun _ => rfl⟩
  | cons b rest ih =>
    intro g g' h heq
    unfold freeBlocks at heq
    cases hfree : g.free .block b with
    | none => rw [hfree] at heq; cases heq
    | some r =>
      rw [hfree] at heq
      obtain ⟨hres, hcount, hkeep⟩ := h.free hfree
      obtain ⟨hres', hcount', hkeep'⟩ := ih hres heq
      exact ⟨hres', hcount'.trans hcount,
        fun j => (hkeep' j).trans (hkeep .inode j fun hc => by cases hc.1)⟩

/-! ## Cycles -/

/-- The inodes of `C` are still there. -/
def Keeps (C : Set Nat) (g : Groups) : Prop := g.Resident ∧ ∀ x ∈ C, g.allocated .inode x = true

/-- What a recursive call does to a set that is closed under taking one entry of
each inode: it does not return if it is made on the set, and spares it if it does. -/
def Spares (C : Set Nat) (del : Nat → Groups → Option (RetCode × Groups)) : Prop :=
  ∀ i g, Keeps C g → (i ∈ C → del i g = none) ∧ ∀ r g', del i g = some (r, g') → Keeps C g'

theorem deleteAll_spares {C : Set Nat} {del : Nat → Groups → Option (RetCode × Groups)}
    (hdel : Spares C del) :
    ∀ (es : List Dentry) {g : Groups}, Keeps C g →
      ((∃ e ∈ es, e.live = true ∧ e.inode ∈ C) → deleteAll del es g = none) ∧
        ∀ g', deleteAll del es g = some g' → Keeps C g' := by
  intro es
  induction es with
  | nil =>
    intro g hg
    refine ⟨?_, fun g' h => ?_⟩
    · rintro ⟨e, he, -⟩
      cases he
    · cases h
      exact hg
  | cons e rest ih =>
    intro g hg
    unfold deleteAll
    by_cases hlive : e.live = true
    · simp only [hlive, if_true]
      cases hd : del e.inode g with
      | none => exact ⟨fun _ => rfl, fun g' h => by cases h⟩
      | some r =>
        have hkeeps := (hdel e.inode g hg).2 r.1 r.2 hd
        obtain ⟨hnone, hsome⟩ := ih hkeeps
        refine ⟨?_, hsome⟩
        rintro ⟨e', he', hl', hc'⟩
        rcases List.mem_cons.mp he' with rfl | he'
        · rw [(hdel e'.inode g hg).1 hc'] at hd
          cases hd
        · exact hnone ⟨e', he', hl', hc'⟩
    · rw [if_neg hlive]
      obtain ⟨hnone, hsome⟩ := ih hg
      refine ⟨?_, hsome⟩
      rintro ⟨e', he', hl', hc'⟩
      rcases List.mem_cons.mp he' with rfl | he'
      · exact absurd hl' hlive
      · exact hnone ⟨e', he', hl', hc'⟩

/-- The recursion never leaves a set of directories each of which names another. -/
theorem inodeDelete_spares {s : FS} {C : Set Nat} (hroot : rootInode ∉ C)
    (hne : ∀ x ∈ C, x ≠ 2 ^ 32 - 1) (hdir : ∀ x ∈ C, isDir (s.inodes x).iMode = true)
    (hnext : ∀ x ∈ C, ∃ e ∈ s.entries x, e.live = true ∧ e.inode ∈ C) :
    ∀ fuel, Spares C (s.inodeDelete fuel) := by
  intro fuel
  induction fuel with
  | zero => exact fun i g _ => ⟨fun _ => rfl, fun r g' h => by cases h⟩
  | succ fuel ih =>
    intro i g hg
    have hall := fun x => deleteAll_spares ih (s.entries x) hg
    have hfirst : i ∈ C → s.inodeDelete (fuel + 1) i g = none := by
      intro hi
      have hget : g.getInode i = some i := by rw [getInode, if_neg (hne i hi), if_pos (hg.2 i hi)]
      cases hres : s.inodeDelete (fuel + 1) i g with
      | none => rfl
      | some r =>
        rcases inodeDelete_some hres with ⟨-, hc⟩ | ⟨j, g₁, b, -, hj, -, hwork, -⟩
        · rw [hget] at hc
          rcases hc with rfl | hc | ⟨j, hj, -, hno⟩
          · exact absurd hi hroot
          · cases hc
          · cases hj
            rw [hdir i hi] at hno
            cases hno
        · rw [hget] at hj
          cases hj
          rcases hwork with ⟨-, hwork⟩ | ⟨hreg, -⟩
          · rw [(hall i).1 (hnext i hi)] at hwork
            cases hwork
          · have := hdir i hi
            simp_all [isReg, isDir]
    refine ⟨hfirst, fun r g' hres => ?_⟩
    rcases inodeDelete_some hres with ⟨rfl, -⟩ | ⟨j, g₁, b, hi0, hj, -, hwork, hfree⟩
    · exact hg
    · have hkeep₁ : Keeps C g₁ := by
        rcases hwork with ⟨-, hwork⟩ | ⟨-, hwork⟩
        · exact (hall j).2 g₁ hwork
        · obtain ⟨hres₁, -, hsame⟩ := freeBlocks_resident hg.1 hwork
          exact ⟨hres₁, fun x hx => (hsame x).trans (hg.2 x hx)⟩
      obtain ⟨hres', -, hsame⟩ := hkeep₁.1.free hfree
      refine ⟨hres', fun x hx => ?_⟩
      have hxi : x ≠ i := by
        rintro rfl
        rw [hfirst hx] at hres
        cases hres
      rw [hsame .inode x fun hc => hxi hc.2]
      exact hkeep₁.2 x hx

/-! ## What is freed -/

/-- Inode `i` is allocated and has block `b`. -/
def Holds (s : FS) (g : Groups) (i b : Nat) : Prop :=
  g.allocated .inode i = true ∧ b ∈ (s.inodes i).iBlock

/-- The blocks in the inode table are in order. -/
structure Clean (s : FS) (g : Groups) : Prop where
  books : g.Books
  owned : Owned g (s.Holds g)
  nodup : ∀ i, g.allocated .inode i = true → (s.inodes i).iBlock.Nodup

/-- `inode_delete` does not refuse this inode if it is allocated. -/
def Mortal (s : FS) (i : Nat) : Prop :=
  i ≠ rootInode ∧ (isReg (s.inodes i).iMode = true ∨ isDir (s.inodes i).iMode = true)

/-- The inodes of `F` are freed, and the blocks of the regular files among them. -/
structure Purged (s : FS) (F : Set Nat) (g g' : Groups) : Prop where
  books : g'.Books
  sub : ∀ j ∈ F, g.allocated .inode j = true
  mortal : ∀ j ∈ F, s.Mortal j
  inode : ∀ j, g'.allocated .inode j = true ↔ g.allocated .inode j = true ∧ j ∉ F
  block : ∀ b, g'.allocated .block b = true ↔
    g.allocated .block b = true ∧ ∀ j ∈ F, isReg (s.inodes j).iMode = true → b ∉ (s.inodes j).iBlock

variable {s : FS} {g g' g'' : Groups} {F F' : Set Nat}

theorem Clean.purge (h : s.Clean g) (hp : s.Purged F g g') : s.Clean g' where
  books := hp.books
  owned := by
    constructor
    · rintro i b ⟨hi, hb⟩
      obtain ⟨hi, hF⟩ := (hp.inode i).mp hi
      refine (hp.block b).mpr ⟨h.owned.allocated i b ⟨hi, hb⟩, fun j hj _ hbj => hF ?_⟩
      rw [h.owned.unique i j b ⟨hi, hb⟩ ⟨hp.sub j hj, hbj⟩]
      exact hj
    · rintro i j b ⟨hi, hbi⟩ ⟨hj, hbj⟩
      exact h.owned.unique i j b ⟨((hp.inode i).mp hi).1, hbi⟩ ⟨((hp.inode j).mp hj).1, hbj⟩
  nodup i hi := h.nodup i ((hp.inode i).mp hi).1

theorem Purged.refl (h : g.Books) : s.Purged ∅ g g where
  books := h
  sub := fun _ hj => hj.elim
  mortal := fun _ hj => hj.elim
  inode _ := ⟨fun hj => ⟨hj, fun hc => hc.elim⟩, And.left⟩
  block _ := ⟨fun hb => ⟨hb, fun _ hj => hj.elim⟩, And.left⟩

theorem Purged.trans (h : s.Purged F g g') (h' : s.Purged F' g' g'') : s.Purged (F ∪ F') g g'' where
  books := h'.books
  sub := by
    rintro j (hj | hj)
    · exact h.sub j hj
    · exact ((h.inode j).mp (h'.sub j hj)).1
  mortal := by
    rintro j (hj | hj)
    · exact h.mortal j hj
    · exact h'.mortal j hj
  inode j := by
    rw [h'.inode, h.inode, Set.mem_union]
    tauto
  block b := by
    rw [h'.block, h.block, and_assoc]
    simp only [Set.mem_union, or_imp, forall_and]

theorem Purged.still (h : s.Purged F g g') {j : Nat} (hj : g.allocated .inode j = false) :
    g'.allocated .inode j = false := by
  rw [Bool.eq_false_iff] at hj ⊢
  exact fun hc => hj ((h.inode j).mp hc).1

theorem freeBlocks_spec : ∀ {bs : List Nat} {g : Groups}, g.Books → bs.Nodup →
    (∀ b ∈ bs, g.allocated .block b = true) → ∃ g', freeBlocks bs g = some g' ∧ g'.Books ∧
      (∀ j, g'.allocated .inode j = g.allocated .inode j) ∧
      ∀ b, g'.allocated .block b = true ↔ g.allocated .block b = true ∧ b ∉ bs := by
  intro bs
  induction bs with
  | nil =>
    exact fun hg _ _ => ⟨_, rfl, hg, fun _ => rfl,
      fun _ => ⟨fun hb => ⟨hb, List.not_mem_nil⟩, And.left⟩⟩
  | cons b rest ih =>
    intro g hg hnd hall
    rw [List.nodup_cons] at hnd
    obtain ⟨g₁, hfree, hbooks, hafter⟩ := hg.free (hall b List.mem_cons_self)
    have hrest : ∀ c ∈ rest, g₁.allocated .block c = true := by
      intro c hc
      rw [hafter, if_neg]
      · exact hall c (List.mem_cons_of_mem _ hc)
      · rintro ⟨-, rfl⟩
        exact hnd.1 hc
    obtain ⟨g', heq, hbooks', hinode, hblock⟩ := ih hbooks hnd.2 hrest
    refine ⟨g', by rw [freeBlocks, hfree]; exact heq, hbooks', fun j => ?_, fun c => ?_⟩
    · rw [hinode, hafter, if_neg fun hc => by cases hc.1]
    · rw [hblock, hafter, List.mem_cons]
      by_cases hcb : c = b
      · simp [hcb]
      · simp [hcb]

/-- Whatever the entries of a freed directory name is gone too. -/
def Swept (s : FS) (F : Set Nat) (g' : Groups) : Prop :=
  ∀ j ∈ F, isDir (s.inodes j).iMode = true → ∀ e ∈ s.entries j, e.live = true → s.Mortal e.inode →
    g'.allocated .inode e.inode = false

/-- The effect of one call on `index`: the set `F` of inodes freed. -/
structure Deleted (s : FS) (index : Nat) (F : Set Nat) (g g' : Groups) : Prop where
  purged : s.Purged F g g'
  reach : ∀ j ∈ F, s.Reach g index j
  swept : s.Swept F g'
  gone : s.Mortal index → g'.allocated .inode index = false

theorem Swept.union (h : s.Swept F g') (hp : s.Purged F' g' g'') (h' : s.Swept F' g'') :
    s.Swept (F ∪ F') g'' := by
  rintro j (hj | hj) hdir e he hl hm
  · exact hp.still (h j hj hdir e he hl hm)
  · exact h' j hj hdir e he hl hm

theorem deleteAll_spec {del : Nat → Groups → Option (RetCode × Groups)}
    (hdel : ∀ i g r g', s.Clean g → del i g = some (r, g') → ∃ F, s.Deleted i F g g') :
    ∀ {es : List Dentry} {g g' : Groups}, s.Clean g → deleteAll del es g = some g' →
      ∃ F, s.Purged F g g' ∧ s.Swept F g' ∧ (∀ j ∈ F, ∃ e ∈ es, e.live = true ∧
        s.Reach g e.inode j) ∧ ∀ e ∈ es, e.live = true → s.Mortal e.inode →
          g'.allocated .inode e.inode = false := by
  intro es
  induction es with
  | nil =>
    intro g g' hg h
    cases h
    exact ⟨∅, Purged.refl hg.books, fun j hj => hj.elim, fun j hj => hj.elim,
      fun e he => by cases he⟩
  | cons e rest ih =>
    intro g g' hg h
    unfold deleteAll at h
    by_cases hlive : e.live = true
    · simp only [hlive, if_true] at h
      cases hd : del e.inode g with
      | none => rw [hd] at h; cases h
      | some r =>
        rw [hd] at h
        obtain ⟨F, hF⟩ := hdel e.inode g r.1 r.2 hg hd
        obtain ⟨F', hp', hs', hr', hgone'⟩ := ih (hg.purge hF.purged) h
        refine ⟨F ∪ F', hF.purged.trans hp', hF.swept.union hp' hs', ?_, ?_⟩
        · rintro j (hj | hj)
          · exact ⟨e, List.mem_cons_self, hlive, hF.reach j hj⟩
          · obtain ⟨e', he', hl', hreach⟩ := hr' j hj
            exact ⟨e', List.mem_cons_of_mem _ he', hl',
              hreach.mono fun i hi => ((hF.purged.inode i).mp hi).1⟩
        · intro e' he' hl' hm'
          rcases List.mem_cons.mp he' with rfl | he'
          · exact hp'.still (hF.gone hm')
          · exact hgone' e' he' hl' hm'
    · rw [if_neg hlive] at h
      obtain ⟨F, hp, hs, hr, hgone⟩ := ih hg h
      refine ⟨F, hp, hs, fun j hj => ?_, fun e' he' hl' => ?_⟩
      · obtain ⟨e', he', hrest⟩ := hr j hj
        exact ⟨e', List.mem_cons_of_mem _ he', hrest⟩
      · rcases List.mem_cons.mp he' with rfl | he'
        · exact absurd hl' hlive
        · exact hgone e' he' hl'

theorem not_freed_below {fuel index : Nat} (hg : g.Books) (hroot : index ≠ rootInode)
    (ha : g.allocated .inode index = true) (hdir : isDir (s.inodes index).iMode = true)
    (hall : deleteAll (s.inodeDelete fuel) (s.entries index) g = some g')
    {e : Dentry} (he : e ∈ s.entries index) (hl : e.live = true) : ¬ s.Reach g e.inode index := by
  intro hback
  -- the directories on a way from `index` back to it: each names another of them
  let C : Set Nat := { x | s.Reach g index x ∧ s.Reach g x index }
  have hedge : ∀ x ∈ C, ∃ y ∈ C, s.Edge g x y := by
    rintro x ⟨hto, hfrom⟩
    rcases Relation.ReflTransGen.cases_head hfrom with rfl | ⟨y, hxy, hy⟩
    · have hstep : s.Edge g x e.inode := ⟨ha, hroot, hdir, e, he, hl, rfl⟩
      exact ⟨e.inode, ⟨Relation.ReflTransGen.single hstep, hback⟩, hstep⟩
    · exact ⟨y, ⟨hto.tail hxy, hy⟩, hxy⟩
  have hne : ∀ x ∈ C, x ≠ 2 ^ 32 - 1 := by
    intro x hx
    obtain ⟨y, -, hxy⟩ := hedge x hx
    have := hg.index_lt hxy.1
    rw [perGroup_inode] at this
    omega
  have hspares := inodeDelete_spares (s := s) (C := C)
    (fun hc => by obtain ⟨y, -, hxy⟩ := hedge _ hc; exact hxy.2.1 rfl) hne
    (fun x hx => by obtain ⟨y, -, hxy⟩ := hedge x hx; exact hxy.2.2.1)
    (fun x hx => by
      obtain ⟨y, hy, -, -, -, e', he', hl', rfl⟩ := hedge x hx
      exact ⟨e', he', hl', hy⟩) fuel
  have hkeeps : Keeps C g :=
    ⟨hg.resident, fun x hx => by obtain ⟨y, -, hxy⟩ := hedge x hx; exact hxy.1⟩
  have hstep : s.Edge g index e.inode := ⟨ha, hroot, hdir, e, he, hl, rfl⟩
  rw [(deleteAll_spares hspares _ hkeeps).1 ⟨e, he, hl, Relation.ReflTransGen.single hstep,
    hback⟩] at hall
  cases hall

theorem Deleted.finish {index : Nat} {b : Bool} (hp : s.Purged F g g') (hs : s.Swept F g')
    (hr : ∀ j ∈ F, s.Reach g index j) (ha : g'.allocated .inode index = true)
    (hroot : index ≠ rootInode) (hdir : isDir (s.inodes index).iMode = true)
    (hown : ∀ e ∈ s.entries index, e.live = true → s.Mortal e.inode →
      g'.allocated .inode e.inode = false)
    (hfree : g'.free .inode index = some (b, g'')) : s.Deleted index (F ∪ {index}) g g'' := by
  obtain ⟨g₂, heq, hbooks, hafter⟩ := hp.books.free ha
  rw [heq] at hfree
  cases hfree
  have hlast : s.Purged {index} g' g'' := by
    refine ⟨hbooks, fun j hj => ?_, fun j hj => ?_, fun j => ?_, fun c => ?_⟩
    · rw [Set.mem_singleton_iff.mp hj]
      exact ha
    · rw [Set.mem_singleton_iff.mp hj]
      exact ⟨hroot, Or.inr hdir⟩
    · rw [hafter, Set.mem_singleton_iff]
      by_cases hj : j = index
      · simp [hj]
      · simp [hj]
    · rw [hafter, if_neg fun hcb => by cases hcb.1]
      refine ⟨fun hc => ⟨hc, fun j hj hreg => ?_⟩, And.left⟩
      rw [Set.mem_singleton_iff.mp hj] at hreg
      simp_all [isReg, isDir]
  refine ⟨hp.trans hlast, ?_, hs.union hlast ?_, fun _ => ?_⟩
  · rintro j (hj | hj)
    · exact hr j hj
    · rw [Set.mem_singleton_iff.mp hj]
      exact Relation.ReflTransGen.refl
  · intro j hj _ e he hl hm
    rw [Set.mem_singleton_iff.mp hj] at he
    exact hlast.still (hown e he hl hm)
  · rw [hafter, if_pos ⟨rfl, rfl⟩]

theorem inodeDelete_spec :
    ∀ fuel index g r g', s.Clean g → s.inodeDelete fuel index g = some (r, g') →
    ∃ F, s.Deleted index F g g' := by
  intro fuel
  induction fuel with
  | zero => intro index g r g' _ h; cases h
  | succ fuel ih =>
    intro index g r g' hg h
    rcases inodeDelete_some h with ⟨rfl, hrefused⟩ | ⟨i, g₁, b, hroot, hi, -, hwork, hfree⟩
    · refine ⟨∅, Purged.refl hg.books, fun j hj => hj.elim, fun j hj => hj.elim, fun hm => ?_⟩
      rw [Bool.eq_false_iff]
      intro ha
      rw [getInode_of_allocated hg.books ha] at hrefused
      rcases hrefused with hc | hc | ⟨i, hi, hreg, hdir⟩
      · exact hm.1 hc
      · cases hc
      · cases hi
        rcases hm.2 with hc | hc
        · rw [hreg] at hc; cases hc
        · rw [hdir] at hc; cases hc
    · rcases getInode_cases hi with ⟨rfl, rfl⟩ | ⟨rfl, ha⟩
      · -- the index -1 shows the root, but there is no such bit to clear
        have hend : g₁.Resident ∧ g₁.groupCount ≤ 33 := by
          rcases hwork with ⟨-, hwork⟩ | ⟨-, hwork⟩
          · obtain ⟨F, hp, -⟩ := deleteAll_spec ih hg hwork
            exact ⟨hp.books.resident, hp.books.le⟩
          · obtain ⟨hres, hcount, -⟩ := freeBlocks_resident hg.books.resident hwork
            exact ⟨hres, by rw [hcount]; exact hg.books.le⟩
        rw [hend.1.free_none (by rw [perGroup_inode]; omega)] at hfree
        cases hfree
      · rcases hwork with ⟨hdir, hwork⟩ | ⟨hreg, hwork⟩
        · obtain ⟨F, hp, hs, hr, hgone⟩ := deleteAll_spec ih hg hwork
          have hstill : g₁.allocated .inode index = true := by
            refine (hp.inode index).mpr ⟨ha, fun hF => ?_⟩
            obtain ⟨e, he, hl, hback⟩ := hr index hF
            exact not_freed_below hg.books hroot ha hdir hwork he hl hback
          refine ⟨_, Deleted.finish hp hs (fun j hj => ?_) hstill hroot hdir hgone hfree⟩
          obtain ⟨e, he, hl, hreach⟩ := hr j hj
          exact Relation.ReflTransGen.head ⟨ha, hroot, hdir, e, he, hl, rfl⟩ hreach
        · obtain ⟨g₂, heq, hbooks, hinode, hblock⟩ := freeBlocks_spec hg.books (hg.nodup index ha)
            fun b hb => hg.owned.allocated index b ⟨ha, hb⟩
          rw [heq] at hwork
          cases hwork
          obtain ⟨g₃, heq₃, hbooks₃, hafter⟩ := hbooks.free ((hinode index).trans ha)
          rw [heq₃] at hfree
          cases hfree
          refine ⟨{index}, ⟨hbooks₃, fun j hj => ?_, fun j hj => ?_, fun j => ?_, fun c => ?_⟩,
            fun j hj => ?_, ?_, fun _ => ?_⟩
          · rw [Set.mem_singleton_iff.mp hj]
            exact ha
          · rw [Set.mem_singleton_iff.mp hj]
            exact ⟨hroot, Or.inl hreg⟩
          · rw [hafter, Set.mem_singleton_iff, hinode]
            by_cases hj : j = index
            · simp [hj]
            · simp [hj]
          · rw [hafter, if_neg (fun hcb => by cases hcb.1), hblock]
            simp [hreg]
          · rw [Set.mem_singleton_iff.mp hj]
            exact Relation.ReflTransGen.refl
          · intro j hj hdir
            rw [Set.mem_singleton_iff.mp hj] at hdir
            simp_all [isReg, isDir]
          · rw [hafter, if_pos ⟨rfl, rfl⟩]

end FS

end NaiveFS
