import NaiveFS.BlockTree

/-!
# Rules for the tree code over any block layer

What every operation of a layer keeps, `allocBlock` keeps (`LayerInv`), and two
layers whose operations agree give the same result (`LayerSim`). The second rule
has a way out: once the first layer is in a state of `Out`, nothing more is said.
Visitors that stay in step on two layers see the same walk (`VisitSim`).
-/

namespace NaiveFS

open BlockReader BlockLayer

variable {σ τ α β : Type} [BlockLayer σ] [BlockLayer τ] {P : σ → Prop} {R : σ → τ → Prop}
  {s : σ} {t : τ}

structure LayerInv (P : σ → Prop) : Prop where
  get : ∀ i d s, P s → P (getBlock i d s).2
  alloc : ∀ s, P s → P (allocRaw s).2
  poke : ∀ i f s, P s → P (poke i f s)
  modify : ∀ i s, P s → P (modify i s)

namespace LayerInv

theorem pokeWord (h : LayerInv P) (i k v mark : Nat) (hs : P s) : P (pokeWord i k v mark s) :=
  h.modify _ _ (h.poke _ _ _ hs)

theorem openRoot (h : LayerInv P) (slot : Nat) (first : Bool) (ino : TreeInode) (hs : P s) :
    P (openRoot slot first ino s).2.2 := by
  unfold NaiveFS.openRoot
  cases first with
  | true =>
    have ha := h.alloc s hs
    simp only [if_true]
    generalize allocRaw s = r at ha ⊢
    obtain ⟨_ | i, s'⟩ := r <;> exact ha
  | false =>
    have hg := h.get (ino.iBlock slot) false s hs
    simp only [Bool.false_eq_true, if_false]
    generalize getBlock (ino.iBlock slot) false s = r at hg ⊢
    obtain ⟨_ | i, s'⟩ := r <;> exact hg

/-! Each branch keeps what holds after its root has been opened. -/

theorem mapInd (h : LayerInv P) (n b : Nat) (ino : TreeInode)
    (ho : P (NaiveFS.openRoot indBlock (n == maxDirBlocks) ino s).2.2) :
    P (mapInd n b ino s).2.2 := by
  unfold NaiveFS.mapInd
  generalize NaiveFS.openRoot indBlock (n == maxDirBlocks) ino s = r at ho ⊢
  obtain ⟨_ | ⟨i, bytes⟩, ino', s'⟩ := r
  · exact ho
  · exact h.pokeWord _ _ _ _ ho

theorem mapDind (h : LayerInv P) (n b : Nat) (ino : TreeInode)
    (ho : P (NaiveFS.openRoot dindBlock (n == maxDirBlocks + maxIndBlocks) ino s).2.2) :
    P (mapDind n b ino s).2.2 := by
  unfold NaiveFS.mapDind
  generalize NaiveFS.openRoot dindBlock (n == maxDirBlocks + maxIndBlocks) ino s = r at ho ⊢
  obtain ⟨_ | ⟨i, bytes⟩, ino', s₁⟩ := r
  · exact ho
  simp only
  split
  · have ha := h.alloc s₁ ho
    generalize allocRaw s₁ = r at ha ⊢
    obtain ⟨_ | d, s₂⟩ := r
    · exact ha
    · exact h.pokeWord _ _ _ _ (h.pokeWord _ _ _ _ ha)
  · have hg := h.get (bytes.word ((n - maxDirBlocks - 1) / numIndirectBlocks - 1)) false s₁ ho
    generalize getBlock _ false s₁ = r at hg ⊢
    obtain ⟨_ | _, s₂⟩ := r
    · exact hg
    · exact h.pokeWord _ _ _ _ hg

theorem mapTind (h : LayerInv P) (n b : Nat) (ino : TreeInode)
    (ho : P (NaiveFS.openRoot tindBlock (n == maxDirBlocks + maxIndBlocks + maxDindBlocks)
      ino s).2.2) :
    P (mapTind n b ino s).2.2 := by
  unfold NaiveFS.mapTind
  generalize NaiveFS.openRoot tindBlock (n == maxDirBlocks + maxIndBlocks + maxDindBlocks) ino s =
    r at ho ⊢
  obtain ⟨_ | ⟨i, bytes⟩, ino', s₁⟩ := r
  · exact ho
  simp only
  split
  · have ha := h.alloc s₁ ho
    generalize allocRaw s₁ = r at ha ⊢
    obtain ⟨_ | d, s₂⟩ := r
    · exact ha
    have ha₂ := h.alloc s₂ ha
    simp only
    generalize allocRaw s₂ = r at ha₂ ⊢
    obtain ⟨_ | e, s₃⟩ := r
    · exact ha₂
    · exact h.pokeWord _ _ _ _ (h.pokeWord _ _ _ _ (h.pokeWord _ _ _ _ ha₂))
  · generalize bytes.word ((n - maxDirBlocks - maxIndBlocks - 1) / maxDindBlocks - 1) = dbl
    have hg := h.get dbl false s₁ ho
    generalize getBlock dbl false s₁ = r at hg ⊢
    obtain ⟨_ | dblBytes, s₂⟩ := r
    · exact hg
    simp only
    split
    · have ha := h.alloc s₂ hg
      generalize allocRaw s₂ = r at ha ⊢
      obtain ⟨_ | e, s₃⟩ := r
      · exact ha
      · exact h.pokeWord _ _ _ _ (h.pokeWord _ _ _ _ ha)
    · generalize dblBytes.word _ = tpl
      have hg₂ := h.get tpl false s₂ hg
      generalize getBlock tpl false s₂ = r at hg₂ ⊢
      obtain ⟨_ | _, s₃⟩ := r
      · exact hg₂
      · exact h.pokeWord _ _ _ _ hg₂

theorem mapBlock (h : LayerInv P) (n b : Nat) (ino : TreeInode) (hs : P s) :
    P (mapBlock n b ino s).2.2 := by
  unfold NaiveFS.mapBlock
  split
  · exact hs
  split
  · exact h.mapInd n b ino (h.openRoot _ _ ino hs)
  split
  · exact h.mapDind n b ino (h.openRoot _ _ ino hs)
  · exact h.mapTind n b ino (h.openRoot _ _ ino hs)

theorem allocBlock_of_raw (h : LayerInv P) (ino : TreeInode) (ha : P (allocRaw s).2) :
    P (allocBlock ino s).2.2 := by
  unfold NaiveFS.allocBlock
  generalize allocRaw s = r at ha ⊢
  obtain ⟨_ | b, s₁⟩ := r
  · exact ha
  have hm := h.mapBlock (numAlignedBlocks ino.iBlocks) b ino ha
  simp only
  generalize NaiveFS.mapBlock (numAlignedBlocks ino.iBlocks) b ino s₁ = r at hm ⊢
  obtain ⟨_ | _, ino', s₂⟩ := r <;> exact hm

theorem allocBlock (h : LayerInv P) (ino : TreeInode) (hs : P s) : P (allocBlock ino s).2.2 :=
  h.allocBlock_of_raw ino (h.alloc s hs)

end LayerInv

/-! ## Two layers -/

structure LayerSim (Out : σ → Prop) (R : σ → τ → Prop) : Prop where
  out : LayerInv Out
  get : ∀ i d s t, R s t → (getBlock i d s).1 = (getBlock i d t).1 ∧
    R (getBlock i d s).2 (getBlock i d t).2
  alloc : ∀ s t, R s t → Out (allocRaw s).2 ∨ (allocRaw s).1 = (allocRaw t).1 ∧
    R (allocRaw s).2 (allocRaw t).2
  poke : ∀ i f s t, R s t → R (poke i f s) (poke i f t)
  modify : ∀ i s t, R s t → R (modify i s) (modify i t)

/-- The first layer is out, or both have the same result and are in related states. -/
def InStep (Out : σ → Prop) (R : σ → τ → Prop) (x : α × β × σ) (y : α × β × τ) : Prop :=
  Out x.2.2 ∨ ∃ a b s t, x = (a, b, s) ∧ y = (a, b, t) ∧ R s t

omit [BlockLayer σ] [BlockLayer τ] in
theorem InStep.same {Out : σ → Prop} (a : α) (b : β) (h : R s t) :
    InStep Out R (a, b, s) (a, b, t) :=
  Or.inr ⟨a, b, s, t, rfl, rfl, h⟩

namespace LayerSim

variable {Out : σ → Prop}

theorem pokeWord (h : LayerSim Out R) (i k v mark : Nat) (hr : R s t) :
    R (pokeWord i k v mark s) (pokeWord i k v mark t) := h.modify _ _ _ (h.poke _ _ _ _ hr)

theorem alloc_cases (h : LayerSim Out R) (hr : R s t) :
    Out (allocRaw s).2 ∨ ∃ o s' t', allocRaw s = (o, s') ∧ allocRaw t = (o, t') ∧ R s' t' := by
  rcases h.alloc s t hr with hout | ⟨ho, hr'⟩
  · exact Or.inl hout
  · exact Or.inr ⟨_, _, _, rfl, Prod.ext ho.symm rfl, hr'⟩

theorem get_cases (h : LayerSim Out R) (i : Nat) (d : Bool) (hr : R s t) :
    ∃ o s' t', getBlock i d s = (o, s') ∧ getBlock i d t = (o, t') ∧ R s' t' := by
  obtain ⟨ho, hr'⟩ := h.get i d s t hr
  exact ⟨_, _, _, rfl, Prod.ext ho.symm rfl, hr'⟩

theorem openRoot (h : LayerSim Out R) (slot : Nat) (first : Bool) (ino : TreeInode) (hr : R s t) :
    InStep Out R (openRoot slot first ino s) (openRoot slot first ino t) := by
  unfold NaiveFS.openRoot
  cases first with
  | true =>
    simp only [if_true]
    rcases h.alloc_cases hr with hout | ⟨o, s', t', hs, ht, hr'⟩
    · left
      generalize allocRaw s = r at hout ⊢
      obtain ⟨_ | i, s'⟩ := r <;> exact hout
    · rw [hs, ht]
      cases o <;> exact .same _ _ hr'
  | false =>
    obtain ⟨o, s', t', hs, ht, hr'⟩ := h.get_cases (ino.iBlock slot) false hr
    simp only [Bool.false_eq_true, if_false, hs, ht]
    cases o <;> exact .same _ _ hr'

theorem mapInd (h : LayerSim Out R) (n b : Nat) (ino : TreeInode) (hr : R s t) :
    InStep Out R (mapInd n b ino s) (mapInd n b ino t) := by
  rcases h.openRoot indBlock (n == maxDirBlocks) ino hr with hout | ⟨o, ino', s', t', hs, ht, hr'⟩
  · exact Or.inl (h.out.mapInd n b ino hout)
  unfold NaiveFS.mapInd
  simp only [hs, ht]
  rcases o with _ | ⟨i, bytes⟩
  · exact .same _ _ hr'
  · exact .same _ _ (h.pokeWord _ _ _ _ hr')

theorem mapDind (h : LayerSim Out R) (n b : Nat) (ino : TreeInode) (hr : R s t) :
    InStep Out R (mapDind n b ino s) (mapDind n b ino t) := by
  rcases h.openRoot dindBlock (n == maxDirBlocks + maxIndBlocks) ino hr with hout | ⟨o, ino', s₁,
    t₁, hs, ht, hr₁⟩
  · exact Or.inl (h.out.mapDind n b ino hout)
  unfold NaiveFS.mapDind
  simp only [hs, ht]
  rcases o with _ | ⟨i, bytes⟩
  · exact .same _ _ hr₁
  simp only
  split
  · rcases h.alloc_cases hr₁ with hout | ⟨o, s₂, t₂, hs₂, ht₂, hr₂⟩
    · left
      generalize allocRaw s₁ = r at hout ⊢
      obtain ⟨_ | d, s₂⟩ := r
      · exact hout
      · exact h.out.pokeWord _ _ _ _ (h.out.pokeWord _ _ _ _ hout)
    · rw [hs₂, ht₂]
      cases o with
      | none => exact .same _ _ hr₂
      | some d => exact .same _ _ (h.pokeWord _ _ _ _ (h.pokeWord _ _ _ _ hr₂))
  · obtain ⟨o, s₂, t₂, hs₂, ht₂, hr₂⟩ :=
      h.get_cases (bytes.word ((n - maxDirBlocks - 1) / numIndirectBlocks - 1)) false hr₁
    rw [hs₂, ht₂]
    cases o with
    | none => exact .same _ _ hr₂
    | some _ => exact .same _ _ (h.pokeWord _ _ _ _ hr₂)

theorem mapTind (h : LayerSim Out R) (n b : Nat) (ino : TreeInode) (hr : R s t) :
    InStep Out R (mapTind n b ino s) (mapTind n b ino t) := by
  rcases h.openRoot tindBlock (n == maxDirBlocks + maxIndBlocks + maxDindBlocks) ino hr with
    hout | ⟨o, ino', s₁, t₁, hs, ht, hr₁⟩
  · exact Or.inl (h.out.mapTind n b ino hout)
  unfold NaiveFS.mapTind
  simp only [hs, ht]
  rcases o with _ | ⟨i, bytes⟩
  · exact .same _ _ hr₁
  simp only
  split
  · rcases h.alloc_cases hr₁ with hout | ⟨o, s₂, t₂, hs₂, ht₂, hr₂⟩
    · left
      generalize allocRaw s₁ = r at hout ⊢
      obtain ⟨_ | d, s₂⟩ := r
      · exact hout
      have hout₂ := h.out.alloc s₂ hout
      simp only
      generalize allocRaw s₂ = r at hout₂ ⊢
      obtain ⟨_ | e, s₃⟩ := r
      · exact hout₂
      · exact h.out.pokeWord _ _ _ _ (h.out.pokeWord _ _ _ _ (h.out.pokeWord _ _ _ _ hout₂))
    rw [hs₂, ht₂]
    cases o with
    | none => exact .same _ _ hr₂
    | some d =>
      simp only
      rcases h.alloc_cases hr₂ with hout | ⟨o, s₃, t₃, hs₃, ht₃, hr₃⟩
      · left
        generalize allocRaw s₂ = r at hout ⊢
        obtain ⟨_ | e, s₃⟩ := r
        · exact hout
        · exact h.out.pokeWord _ _ _ _ (h.out.pokeWord _ _ _ _ (h.out.pokeWord _ _ _ _ hout))
      rw [hs₃, ht₃]
      cases o with
      | none => exact .same _ _ hr₃
      | some e => exact .same _ _ (h.pokeWord _ _ _ _ (h.pokeWord _ _ _ _ (h.pokeWord _ _ _ _ hr₃)))
  · generalize bytes.word ((n - maxDirBlocks - maxIndBlocks - 1) / maxDindBlocks - 1) = dbl
    obtain ⟨o, s₂, t₂, hs₂, ht₂, hr₂⟩ := h.get_cases dbl false hr₁
    rw [hs₂, ht₂]
    cases o with
    | none => exact .same _ _ hr₂
    | some dblBytes =>
      simp only
      split
      · rcases h.alloc_cases hr₂ with hout | ⟨o, s₃, t₃, hs₃, ht₃, hr₃⟩
        · left
          generalize allocRaw s₂ = r at hout ⊢
          obtain ⟨_ | e, s₃⟩ := r
          · exact hout
          · exact h.out.pokeWord _ _ _ _ (h.out.pokeWord _ _ _ _ hout)
        rw [hs₃, ht₃]
        cases o with
        | none => exact .same _ _ hr₃
        | some e => exact .same _ _ (h.pokeWord _ _ _ _ (h.pokeWord _ _ _ _ hr₃))
      · generalize dblBytes.word _ = tpl
        obtain ⟨o, s₃, t₃, hs₃, ht₃, hr₃⟩ := h.get_cases tpl false hr₂
        rw [hs₃, ht₃]
        cases o with
        | none => exact .same _ _ hr₃
        | some _ => exact .same _ _ (h.pokeWord _ _ _ _ hr₃)

theorem mapBlock (h : LayerSim Out R) (n b : Nat) (ino : TreeInode) (hr : R s t) :
    InStep Out R (mapBlock n b ino s) (mapBlock n b ino t) := by
  unfold NaiveFS.mapBlock
  split
  · exact .same _ _ hr
  split
  · exact h.mapInd n b ino hr
  split
  · exact h.mapDind n b ino hr
  · exact h.mapTind n b ino hr

theorem allocBlock (h : LayerSim Out R) (ino : TreeInode) (hr : R s t) :
    InStep Out R (allocBlock ino s) (allocBlock ino t) := by
  rcases h.alloc_cases hr with hout | ⟨o, s₁, t₁, hs, ht, hr₁⟩
  · exact Or.inl (h.out.allocBlock_of_raw ino hout)
  unfold NaiveFS.allocBlock
  rw [hs, ht]
  cases o with
  | none => exact .same _ _ hr₁
  | some b =>
    simp only
    rcases h.mapBlock (numAlignedBlocks ino.iBlocks) b ino hr₁ with hout | ⟨ok, ino', s₂, t₂, hs₂,
      ht₂, hr₂⟩
    · left
      generalize NaiveFS.mapBlock (numAlignedBlocks ino.iBlocks) b ino s₁ = r at hout ⊢
      obtain ⟨_ | _, ino', s₂⟩ := r <;> exact hout
    · rw [hs₂, ht₂]
      cases ok <;> exact .same _ _ hr₂

end LayerSim

/-! ## Two walks -/

section Visit

variable {σ τ α β : Type} [BlockReader σ] [BlockReader τ] {R : List Nat → α × σ → β × τ → Prop}
  {v : Visitor σ α}
  {w : Visitor τ β} {x : α × σ} {y : β × τ}

/-- The layers serve the same blocks, and the visitors give the same answers. `R ps`
relates states in which the walk has pointers to the blocks `ps`. -/
structure VisitSim (R : List Nat → α × σ → β × τ → Prop) (v : Visitor σ α) (w : Visitor τ β) :
  Prop where
  drop : ∀ {p ps x y}, R (p :: ps) x y → R ps x y
  get : ∀ ps {x y} i, R ps x y → (getBlock i false x.2).1 = (getBlock i false y.2).1 ∧
    R (if (getBlock i false x.2).1.isSome then i :: ps else ps) (x.1,
    (getBlock i false x.2).2) (y.1, (getBlock i false y.2).2)
  peek : ∀ ps {x y} p, p ∈ ps → R ps x y → R ps (x.1, peek p x.2) (y.1, peek p y.2)
  call : ∀ ps {x y} i b, R (i :: ps) x y → (v i b x).1 = (w i b y).1 ∧
    R (i :: ps) (v i b x).2 (w i b y).2

/-- The relation under the nested visitors: `curr_num` is the same. -/
def Counting (R : List Nat → α × σ → β × τ → Prop) (ps : List Nat) (x : (Nat × α) × σ)
    (y : (Nat × β) × τ) : Prop :=
  x.1.1 = y.1.1 ∧ R ps (x.1.2, x.2) (y.1.2, y.2)

namespace VisitSim

theorem get_cases (h : VisitSim R v w) (ps : List Nat) (i : Nat) (hr : R ps x y) :
    ∃ o s t, getBlock i false x.2 = (o, s) ∧ getBlock i false y.2 = (o, t) ∧
      R (if o.isSome then i :: ps else ps) (x.1, s) (y.1, t) := by
  obtain ⟨ho, hr'⟩ := h.get ps i hr
  exact ⟨_, _, _, rfl, Prod.ext ho.symm rfl, hr'⟩

theorem call_cases (h : VisitSim R v w) (ps : List Nat) (i : Nat) (b : Block)
    (hr : R (i :: ps) x y) :
    ∃ stop x' y', v i b x = (stop, x') ∧ w i b y = (stop, y') ∧ R ps x' y' := by
  obtain ⟨ho, hr'⟩ := h.call ps i b hr
  exact ⟨_, _, _, rfl, Prod.ext ho.symm rfl, h.drop hr'⟩

theorem entries (h : VisitSim R v w) (ps : List Nat) (p : Nat) (hp : p ∈ ps) (ind : Block)
    (num : Nat) :
    ∀ (left k : Nat) {x : α × σ} {y : β × τ}, R ps x y →
    ∃ done x' y', visitEntries v p ind num left k x = (done, x') ∧
      visitEntries w p ind num left k y = (done, y') ∧ R ps x' y' := by
  intro left
  induction left with
  | zero => exact fun k x y hr => ⟨true, x, y, rfl, rfl, hr⟩
  | succ left ih =>
    intro k x y hr
    unfold visitEntries
    by_cases hk : k < num
    · obtain ⟨o, s, t, hs, ht, hr'⟩ := h.get_cases ps (ind.word k) (h.peek ps p hp hr)
      simp only [if_pos hk, hs, ht]
      cases o with
      | none => exact ⟨false, _, _, rfl, rfl, hr'⟩
      | some b =>
        obtain ⟨stop, x', y', hx, hy, hr''⟩ := h.call_cases ps (ind.word k) b hr'
        simp only [hx, hy]
        cases stop with
        | true => exact ⟨true, x', y', rfl, rfl, hr''⟩
        | false => exact ih (k + 1) hr''
    · simp only [if_neg hk]
      exact ⟨true, x, y, rfl, rfl, hr⟩

theorem indirectVisitor (h : VisitSim R v w) (n : Nat) :
    VisitSim (Counting R) (indirectVisitor v n) (indirectVisitor w n) where
  drop hr := ⟨hr.1, h.drop hr.2⟩
  get ps _ _ i hr := ⟨(h.get ps i hr.2).1, hr.1, (h.get ps i hr.2).2⟩
  peek ps _ _ p hp hr := ⟨hr.1, h.peek ps p hp hr.2⟩
  call ps x y i b hr := by
    obtain ⟨done, x', y', hx, hy, hr'⟩ :=
      h.entries (i :: ps) i List.mem_cons_self b (n - x.1.1) numIndirectBlocks 0 hr.2
    unfold NaiveFS.indirectVisitor visitIndirectBlocks
    simp only [← hr.1, hx, hy, true_and]
    exact ⟨rfl, hr'⟩

theorem doubleIndirectVisitor (h : VisitSim R v w) (n : Nat) :
    VisitSim (Counting R) (doubleIndirectVisitor v n) (doubleIndirectVisitor w n) where
  drop := (h.indirectVisitor n).drop
  get := (h.indirectVisitor n).get
  peek := (h.indirectVisitor n).peek
  call ps x y i b hr := by
    obtain ⟨⟨c, a⟩, s⟩ := x
    obtain ⟨⟨c', a'⟩, t⟩ := y
    obtain ⟨rfl, hr⟩ : c = c' ∧ R (i :: ps) (a, s) (a', t) := hr
    obtain ⟨done, x', y', hx, hy, hr'⟩ :=
      (h.indirectVisitor n).entries (i :: ps) i List.mem_cons_self b (n - c) numIndirectBlocks 0
      (x := ((c, a), s)) (y := ((c, a'), t)) ⟨rfl, hr⟩
    unfold NaiveFS.doubleIndirectVisitor visitIndirectBlocks
    simp only [hx, hy, true_and]
    exact hr'

theorem visitDirect (h : VisitSim R v w) (ps : List Nat) (ino : TreeInode) (n : Nat) :
    ∀ (left i : Nat) {x : α × σ} {y : β × τ}, R ps x y →
    ∃ done x' y', visitDirect v ino n left i x = (done, x') ∧ visitDirect w ino n left i y =
      (done, y') ∧ R ps x' y' := by
  intro left
  induction left with
  | zero => exact fun i x y hr => ⟨false, x, y, rfl, rfl, hr⟩
  | succ left ih =>
    intro i x y hr
    unfold NaiveFS.visitDirect
    obtain ⟨o, s, t, hs, ht, hr'⟩ := h.get_cases ps (ino.iBlock i) hr
    simp only [hs, ht]
    cases o with
    | none => exact ⟨true, _, _, rfl, rfl, hr'⟩
    | some b =>
      obtain ⟨stop, x', y', hx, hy, hr''⟩ := h.call_cases ps (ino.iBlock i) b hr'
      simp only [hx, hy]
      cases stop with
      | true => exact ⟨true, x', y', rfl, rfl, hr''⟩
      | false =>
        simp only
        split
        · exact ⟨true, x', y', rfl, rfl, hr''⟩
        · exact ih (i + 1) hr''

variable {a : α} {b : β} {s : σ} {t : τ}

theorem visitTind (h : VisitSim R v w) (ps : List Nat) (ino : TreeInode) (n c : Nat)
    (hr : R ps (a, s) (b, t)) :
    R ps (visitTind v ino n c a s) (visitTind w ino n c b t) := by
  unfold NaiveFS.visitTind visitIndirectBlocks
  obtain ⟨o, s', t', hs, ht, hr'⟩ := h.get_cases ps (ino.iBlock tindBlock) hr
  simp only [hs, ht]
  cases o with
  | none => exact hr'
  | some ind =>
    obtain ⟨done, x', y', hx, hy, hr''⟩ :=
      (h.doubleIndirectVisitor n).entries (ino.iBlock tindBlock :: ps) (ino.iBlock tindBlock)
      List.mem_cons_self ind
      ((n - c + maxDindBlocks - 1) / maxDindBlocks) numIndirectBlocks 0 (x := ((c, a), s'))
        (y := ((c, b), t')) ⟨rfl, hr'⟩
    simp only [hx, hy]
    exact h.drop hr''.2

theorem visitDind (h : VisitSim R v w) (ps : List Nat) (ino : TreeInode) (n c : Nat)
    (hr : R ps (a, s) (b, t)) :
    R ps (visitDind v ino n c a s) (visitDind w ino n c b t) := by
  unfold NaiveFS.visitDind visitIndirectBlocks
  obtain ⟨o, s', t', hs, ht, hr'⟩ := h.get_cases ps (ino.iBlock dindBlock) hr
  simp only [hs, ht]
  cases o with
  | none => exact hr'
  | some ind =>
    obtain ⟨done, ⟨⟨c', a'⟩, s''⟩, ⟨⟨c'', b'⟩, t''⟩, hx, hy, hc, hr''⟩ :=
      (h.indirectVisitor n).entries (ino.iBlock dindBlock :: ps)
      (ino.iBlock dindBlock) List.mem_cons_self ind
        ((n - c + numIndirectBlocks - 1) / numIndirectBlocks) numIndirectBlocks 0
      (x := ((c, a), s')) (y := ((c, b), t')) ⟨rfl, hr'⟩
    simp only at hc
    simp only [hx, hy, ← hc]
    cases done with
    | false => exact h.drop hr''
    | true =>
      simp only
      split
      · exact h.drop hr''
      · exact h.visitTind ps ino n c' (h.drop hr'')

theorem visitInd (h : VisitSim R v w) (ps : List Nat) (ino : TreeInode) (n c : Nat)
    (hr : R ps (a, s) (b, t)) :
    R ps (visitInd v ino n c a s) (visitInd w ino n c b t) := by
  unfold NaiveFS.visitInd visitIndirectBlocks
  obtain ⟨o, s', t', hs, ht, hr'⟩ := h.get_cases ps (ino.iBlock indBlock) hr
  simp only [hs, ht]
  cases o with
  | none => exact hr'
  | some ind =>
    obtain ⟨done, x', y', hx, hy, hr''⟩ :=
      h.entries (ino.iBlock indBlock :: ps) (ino.iBlock indBlock) List.mem_cons_self ind (n - c)
      numIndirectBlocks 0 hr'
    simp only [hx, hy]
    cases done with
    | false => exact h.drop hr''
    | true =>
      simp only
      split
      · exact h.drop hr''
      · exact h.visitDind ps ino n _ (h.drop hr'')

theorem visitInodeBlocks (h : VisitSim R v w) (ps : List Nat) (ino : TreeInode)
    (hr : R ps (a, s) (b, t)) :
    R ps (visitInodeBlocks v ino a s) (visitInodeBlocks w ino b t) := by
  unfold NaiveFS.visitInodeBlocks
  simp only
  split
  · exact hr
  · obtain ⟨done, x', y', hx, hy, hr'⟩ :=
      h.visitDirect ps ino (numAlignedBlocks ino.iBlocks) ndirBlocks 0 hr
    simp only [hx, hy]
    cases done with
    | true => exact hr'
    | false => exact h.visitInd ps ino _ maxDirBlocks hr'

/-- A relation that does not depend on the pointers. -/
theorem of_rel {R : α × σ → β × τ → Prop}
    (get : ∀ i x y, R x y → (getBlock i false x.2).1 = (getBlock i false y.2).1 ∧
      R (x.1, (getBlock i false x.2).2) (y.1, (getBlock i false y.2).2))
    (peek : ∀ p x y, R x y → R (x.1, BlockReader.peek p x.2) (y.1, BlockReader.peek p y.2))
    (call : ∀ i b x y, R x y → (v i b x).1 = (w i b y).1 ∧ R (v i b x).2 (w i b y).2) :
    VisitSim (fun _ => R) v w where
  drop hr := hr
  get _ _ _ i hr := get i _ _ hr
  peek _ _ _ p _ hr := peek p _ _ hr
  call _ _ _ i b hr := call i b _ _ hr

/-- What the layer and the visitor keep, the walk keeps. -/
theorem of_inv {P : List Nat → α × σ → Prop} (drop : ∀ p ps x, P (p :: ps) x → P ps x)
    (get : ∀ ps i x, P ps x → P (if (getBlock i false x.2).1.isSome then i :: ps else ps) (x.1,
      (getBlock i false x.2).2))
    (peek : ∀ ps p x, p ∈ ps → P ps x → P ps (x.1, BlockReader.peek p x.2))
    (call : ∀ ps i b x, P (i :: ps) x → P (i :: ps) (v i b x).2) :
    VisitSim (fun ps x y => x = y ∧ P ps x) v v where
  drop hr := ⟨hr.1, drop _ _ _ hr.2⟩
  get ps _ _ i hr := hr.1 ▸ ⟨rfl, rfl, get ps i _ hr.2⟩
  peek ps _ _ p hp hr := hr.1 ▸ ⟨rfl, peek ps p _ hp hr.2⟩
  call ps _ _ i b hr := hr.1 ▸ ⟨rfl, rfl, call ps i b _ hr.2⟩

end VisitSim

end Visit

end NaiveFS
