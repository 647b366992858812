import Mathlib.Data.List.Basic

/-!
# What the clients of a state machine see

A machine takes requests and replies to each. A request whose step is `none` is
not answered and ends the run. A specification that leaves a choice open is a relation;
the replies are to be some that it allows. `conforms` reduces that to one step, for an
implementation that is used within bounds.
-/

namespace Replies

variable {σ τ ι ρ : Type} (step : σ → ι → Option (ρ × σ))

def replies : List ι → σ → Option (List ρ)
  | [], _ => some []
  | i :: is, s =>
    match step s i with
    | none => none
    | some (r, s') => (replies is s').map fun rs => r :: rs

/-- Every request is made in a state where `G` allows it. -/
def Within (G : σ → ι → Prop) : List ι → σ → Prop
  | [], _ => True
  | i :: is, s => G s i ∧ ∀ r s', step s i = some (r, s') → Within G is s'

variable {step} {R : σ → τ → Prop} {G : σ → ι → Prop}

/-- The replies to a list of requests are ones that `spec` allows. -/
def Conforms (spec : τ → ι → ρ → τ → Prop) : List ι → List ρ → τ → Prop
  | [], [], _ => True
  | i :: is, r :: rs, t => ∃ t', spec t i r t' ∧ Conforms spec is rs t'
  | _, _, _ => False

theorem conforms {spec : τ → ι → ρ → τ → Prop}
    (h : ∀ s t i, R s t → G s i → ∃ r s' t', step s i = some (r, s') ∧ spec t i r t' ∧ R s' t') :
    ∀ (is : List ι) (s : σ) (t : τ), R s t → Within step G is s →
      ∃ rs, replies step is s = some rs ∧ Conforms spec is rs t := by
  intro is
  induction is with
  | nil => intro s t _ _; exact ⟨[], rfl, trivial⟩
  | cons i is ih =>
    intro s t hR hG
    obtain ⟨r, s', t', hs, ht, hR'⟩ := h s t i hR hG.1
    obtain ⟨rs, hrs, hconf⟩ := ih s' t' hR' (hG.2 r s' hs)
    refine ⟨r :: rs, ?_, t', ht, hconf⟩
    simp [replies, hs, hrs]

/-- What an invariant and the bounds imply holds wherever a request is made. -/
theorem Within.imp {Inv : σ → Prop} {Q : σ → ι → Prop} (hQ : ∀ s i, Inv s → G s i → Q s i)
    (hstep : ∀ s i r s', Inv s → G s i → step s i = some (r, s') → Inv s') :
    ∀ (is : List ι) (s : σ), Inv s → Within step G is s → Within step Q is s := by
  intro is
  induction is with
  | nil => intro s _ _; trivial
  | cons i is ih =>
    intro s hs hG
    exact ⟨hQ s i hs hG.1, fun r s' h => ih s' (hstep s i r s' hs hG.1 h) (hG.2 r s' h)⟩

theorem Within.cons {i : ι} {is : List ι} {s s' : σ} {r : ρ} (hs : step s i = some (r, s'))
    (hi : G s i) (h : Within step G is s') : Within step G (i :: is) s := by
  refine ⟨hi, fun r' t ht => ?_⟩
  cases hs.symm.trans ht
  exact h

end Replies
