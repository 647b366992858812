import Mathlib.Data.Nat.Basic

/-!
# Runs of a partial step function

A step that returns `none` is not taken and ends the run. `Along P` says that
every state of a run satisfies `P`, `Guarded G` that every step of it is taken
under `G`. Invariant proofs go through `along_of_guarded`; `guarded_of_along`
is its converse for a guard whose failure is seen in the next state. `Leads`
composes runs that are too long to be written down.
-/

namespace Runs

variable {σ ι : Type} (step : σ → ι → Option σ)

/-- `P` holds in every state of the run of `is` from `s`. -/
def Along (P : σ → Prop) : List ι → σ → Prop
  | [], s => P s
  | i :: is, s => P s ∧ ∀ s', step s i = some s' → Along P is s'

/-- Every step of the run of `is` from `s` is taken in a state where `G` allows it. -/
def Guarded (G : σ → ι → Prop) : List ι → σ → Prop
  | [], _ => True
  | i :: is, s => ∀ s', step s i = some s' → G s i ∧ Guarded G is s'

def run : List ι → σ → Option σ
  | [], s => some s
  | i :: is, s => (step s i).bind (run is)

/-- Where the step is taken it leads to a state with `P`. -/
def Leaves (P : σ → Prop) (s : σ) (i : ι) : Prop := ∀ s', step s i = some s' → P s'

/-- Some run from `s` ends in `s'`, every step of it under `G`. -/
def Leads (G : σ → ι → Prop) (s s' : σ) : Prop :=
  ∃ is, run step is s = some s' ∧ Guarded step G is s

variable {step} {P Inv : σ → Prop} {G : σ → ι → Prop}

instance decidableLeaves [DecidablePred P] (s : σ) (i : ι) : Decidable (Leaves step P s i) :=
  decidable_of_iff ((step s i).all (fun s' => decide (P s')) = true)
    ((Option.all_eq_true _ _).trans (forall₂_congr fun _ _ => decide_eq_true_iff))

theorem along_of_inv (hP : ∀ s, Inv s → P s)
    (hstep : ∀ s i s', Inv s → step s i = some s' → Inv s') :
    ∀ (is : List ι) (s : σ), Inv s → Along step P is s := by
  intro is
  induction is with
  | nil => exact hP
  | cons i is ih =>
    intro s hs
    exact ⟨hP s hs, fun s' h => ih s' (hstep s i s' hs h)⟩

/-- What a run computes beside its states. -/
theorem run_foldl {α : Type} {R : σ → α → Prop} {f : α → ι → α}
    (hstep : ∀ {s a i s'}, R s a → step s i = some s' → R s' (f a i)) :
    ∀ (is : List ι) {s : σ} {a : α} {s' : σ}, R s a → run step is s = some s' →
      R s' (is.foldl f a) := by
  intro is
  induction is with
  | nil =>
    intro s a s' h hrun
    cases hrun
    exact h
  | cons i is ih =>
    intro s a s' h hrun
    obtain ⟨t, ht, hrest⟩ := Option.bind_eq_some_iff.mp hrun
    exact ih (hstep h ht) hrest

theorem along_of_guarded (hP : ∀ s, Inv s → P s)
    (hstep : ∀ s i s', Inv s → G s i → step s i = some s' → Inv s') :
    ∀ (is : List ι) (s : σ), Inv s → Guarded step G is s → Along step P is s := by
  intro is
  induction is with
  | nil => intro s hs _; exact hP s hs
  | cons i is ih =>
    intro s hs hg
    refine ⟨hP s hs, fun s' h => ?_⟩
    obtain ⟨hi, hrest⟩ := hg s' h
    exact ih s' (hstep s i s' hs hi h) hrest

theorem guarded_cons {i : ι} {is : List ι} {s : σ} (h : (step s i).isSome) (hi : G s i)
    (hrest : Guarded step G is ((step s i).get h)) : Guarded step G (i :: is) s := by
  intro s' hs'
  refine ⟨hi, ?_⟩
  rwa [Option.get_of_eq_some h hs'] at hrest

theorem Guarded.imp {Q : σ → ι → Prop} (hQ : ∀ s i, Inv s → G s i → Q s i)
    (hstep : ∀ s i s', Inv s → G s i → step s i = some s' → Inv s') :
    ∀ (is : List ι) (s : σ), Inv s → Guarded step G is s → Guarded step Q is s := by
  intro is
  induction is with
  | nil => intro s _ _; trivial
  | cons i is ih =>
    intro s hs hg s' h
    obtain ⟨hi, hrest⟩ := hg s' h
    exact ⟨hQ s i hs hi, ih s' (hstep s i s' hs hi h) hrest⟩

/-- Two properties that agree on the invariant, which the second one keeps up. -/
theorem along_congr {Q : σ → Prop} (hiff : ∀ s, Inv s → (P s ↔ Q s))
    (hstep : ∀ s i s', Inv s → Q s → step s i = some s' → Inv s') :
    ∀ (is : List ι) (s : σ), Inv s → (Along step P is s ↔ Along step Q is s) := by
  intro is
  induction is with
  | nil => exact hiff
  | cons i is ih =>
    intro s hs
    constructor
    · intro h
      have hq := (hiff s hs).mp h.1
      exact ⟨hq, fun s' h' => (ih s' (hstep s i s' hs hq h')).mp (h.2 s' h')⟩
    · intro h
      exact ⟨(hiff s hs).mpr h.1, fun s' h' => (ih s' (hstep s i s' hs h.1 h')).mpr (h.2 s' h')⟩

theorem Along.head {is : List ι} {s : σ} (h : Along step P is s) : P s := by
  cases is with
  | nil => exact h
  | cons => exact h.1

theorem Along.append {is js : List ι} {s : σ} (h : Along step P (is ++ js) s) :
    Along step P is s ∧ ∀ s', run step is s = some s' → Along step P js s' := by
  induction is generalizing s with
  | nil =>
    refine ⟨h.head, fun s' hs' => ?_⟩
    cases hs'
    exact h
  | cons i is ih =>
    refine ⟨⟨h.1, fun s' hs' => (ih (h.2 s' hs')).1⟩, fun s' hs' => ?_⟩
    obtain ⟨t, ht, hrun⟩ := Option.bind_eq_some_iff.mp hs'
    exact (ih (h.2 t ht)).2 s' hrun

instance decidableAlong [DecidablePred P] : ∀ (is : List ι) (s : σ), Decidable (Along step P is s)
  | [], s => inferInstanceAs (Decidable (P s))
  | i :: is, s =>
    match h : step s i with
    | none => decidable_of_iff (P s) ⟨fun hp => ⟨hp, fun s' hs' => by simp [h] at hs'⟩, And.left⟩
    | some t =>
      have := decidableAlong is t
      decidable_of_iff (P s ∧ Along step P is t)
        ⟨fun hp => ⟨hp.1, fun s' hs' => by cases h.symm.trans hs'; exact hp.2⟩,
          fun hp => ⟨hp.1, hp.2 t h⟩⟩

theorem guarded_of_along (hstep : ∀ s i s', Inv s → G s i → step s i = some s' → Inv s')
    (hbad : ∀ s i s', Inv s → step s i = some s' → ¬ G s i → ¬ P s') :
    ∀ (is : List ι) (s : σ), Inv s → Along step P is s → Guarded step G is s := by
  intro is
  induction is with
  | nil => intro s _ _; trivial
  | cons i is ih =>
    intro s hs hp s' h
    have hi : G s i := by
      by_contra hn
      exact hbad s i s' hs h hn (hp.2 s' h).head
    exact ⟨hi, ih s' (hstep s i s' hs hi h) (hp.2 s' h)⟩

theorem Along.last {is : List ι} {s s' : σ} (h : Along step P is s) (hr : run step is s = some s') :
    P s' := by
  induction is generalizing s with
  | nil => cases hr; exact h
  | cons i is ih =>
    obtain ⟨t, ht, hr⟩ := Option.bind_eq_some_iff.mp hr
    exact ih (h.2 t ht) hr

theorem run_append {is js : List ι} {s t : σ} (h : run step is s = some t) :
    run step (is ++ js) s = run step js t := by
  induction is generalizing s with
  | nil => cases h; rfl
  | cons i is ih =>
    obtain ⟨u, hu, h⟩ := Option.bind_eq_some_iff.mp h
    rw [List.cons_append, run, hu]
    exact ih h

theorem Guarded.append {is js : List ι} {s t : σ} (h : Guarded step G is s)
    (hr : run step is s = some t) (h' : Guarded step G js t) : Guarded step G (is ++ js) s := by
  induction is generalizing s with
  | nil => cases hr; exact h'
  | cons i is ih =>
    obtain ⟨u, hu, hr⟩ := Option.bind_eq_some_iff.mp hr
    intro s' hs'
    cases hu.symm.trans hs'
    exact ⟨(h u hu).1, ih (h u hu).2 hr⟩

namespace Leads

variable {s t u : σ}

theorem refl (s : σ) : Leads step G s s := ⟨[], rfl, trivial⟩

theorem single {i : ι} (h : step s i = some t) (hi : G s i) : Leads step G s t := by
  refine ⟨[i], ?_, fun s' _ => ⟨hi, trivial⟩⟩
  rw [run, h]
  rfl

theorem trans (h : Leads step G s t) (h' : Leads step G t u) : Leads step G s u := by
  obtain ⟨is, hr, hg⟩ := h
  obtain ⟨js, hr', hg'⟩ := h'
  exact ⟨is ++ js, (run_append hr).trans hr', hg.append hr hg'⟩

/-- A simulation: every step is a run of steps of another system. -/
theorem simulate {τ κ : Type} {step' : τ → κ → Option τ} {G' : τ → κ → Prop} {R : σ → τ → Prop}
    (hstep : ∀ s i t s', R s s' → G s i → step s i = some t → ∃ t', Leads step' G' s' t' ∧ R t t')
    (h : Leads step G s t) :
    ∀ s', R s s' → ∃ t', Leads step' G' s' t' ∧ R t t' := by
  obtain ⟨is, hr, hg⟩ := h
  induction is generalizing s with
  | nil =>
    intro s' hs
    cases hr
    exact ⟨s', refl s', hs⟩
  | cons i is ih =>
    intro s' hs
    obtain ⟨u, hu, hr⟩ := Option.bind_eq_some_iff.mp hr
    obtain ⟨hi, hg⟩ := hg u hu
    obtain ⟨u', hlead, hu'⟩ := hstep s i u s' hs hi hu
    obtain ⟨t', hlead', ht'⟩ := ih hr hg u' hu'
    exact ⟨t', hlead.trans hlead', ht'⟩

theorem sim {κ : Type} {step' : σ → κ → Option σ} {G' : σ → κ → Prop}
    (hstep : ∀ s i t, G s i → step s i = some t → Leads step' G' s t) (h : Leads step G s t) :
    Leads step' G' s t := by
  obtain ⟨t', hlead, rfl⟩ :=
    h.simulate (R := Eq) (fun s i t s' hs hi ht => ⟨t, hs ▸ hstep s i t hi ht, rfl⟩) s rfl
  exact hlead

theorem map {κ : Type} {step' : σ → κ → Option σ} {G' : σ → κ → Prop} (f : ι → κ)
    (hstep : ∀ s i, step' s (f i) = step s i) (hG : ∀ s i, G s i → G' s (f i))
    (h : Leads step G s t) : Leads step' G' s t :=
  h.sim fun s i _ hi hs => single ((hstep s i).trans hs) (hG s i hi)

end Leads

end Runs
