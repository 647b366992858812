import Mathlib.Data.List.Basic

/-!
# Calling a function on a list until it says stop
-/

namespace EarlyExit

variable {ι σ : Type}

/-- `f` on the elements in turn, up to the first call that answers `true`. -/
def callUntil (f : ι → σ → Bool × σ) : List ι → σ → Bool × σ
  | [], st => (false, st)
  | i :: is, st =>
    match f i st with
    | (true, st) => (true, st)
    | (false, st) => callUntil f is st

/-- The position of the first call that answers `true`. -/
def firstStop (f : ι → σ → Bool × σ) : List ι → σ → Option Nat
  | [], _ => none
  | i :: is, st =>
    match f i st with
    | (true, _) => some 0
    | (false, st) => (firstStop f is st).map (· + 1)

/-- The elements up to the first on which the call answers `true`. -/
def called (f : ι → σ → Bool × σ) (is : List ι) (st : σ) : List ι :=
  match firstStop f is st with
  | none => is
  | some j => is.take (j + 1)

variable (f : ι → σ → Bool × σ)

theorem callUntil_cons (i : ι) (is : List ι) (st : σ) :
    callUntil f (i :: is) st = if (f i st).1 then (true, (f i st).2) else
      callUntil f is (f i st).2 := by
  rcases hf : f i st with ⟨_ | _, st'⟩ <;> simp [callUntil, hf]

theorem called_nil (st : σ) : called f [] st = [] := rfl

theorem called_cons (i : ι) (is : List ι) (st : σ) :
    called f (i :: is) st = i :: if (f i st).1 then [] else called f is (f i st).2 := by
  unfold called
  rcases hf : f i st with ⟨_ | _, st'⟩
  · simp only [firstStop, hf]
    cases firstStop f is st' <;> simp
  · simp [firstStop, hf]

theorem called_ne_nil {is : List ι} (h : is ≠ []) (st : σ) : called f is st ≠ [] := by
  cases is with
  | nil => exact absurd rfl h
  | cons i is => simp [called_cons]

theorem firstStop_lt :
    ∀ {is : List ι} {st : σ} {j : Nat}, firstStop f is st = some j → j < is.length := by
  intro is
  induction is with
  | nil => intro st j h; cases h
  | cons i is ih =>
    intro st j h
    simp only [firstStop] at h
    split at h
    · cases h
      simp
    · obtain ⟨j', hj', rfl⟩ := Option.map_eq_some_iff.mp h
      simpa using ih hj'

theorem callUntil_fst :
    ∀ (is : List ι) (st : σ), (callUntil f is st).1 = (firstStop f is st).isSome := by
  intro is
  induction is with
  | nil => exact fun _ => rfl
  | cons i is ih =>
    intro st
    simp only [callUntil, firstStop]
    split
    · simp_all
    · simp [ih]

theorem firstStop_append (is js : List ι) (st : σ) :
    firstStop f (is ++ js) st =
      (firstStop f is st).or ((firstStop f js (callUntil f is st).2).map (· + is.length)) := by
  induction is generalizing st with
  | nil => simp [firstStop, callUntil]
  | cons i is ih =>
    simp only [List.cons_append, firstStop, callUntil]
    rcases f i st with ⟨_ | _, st'⟩
    · simp only [ih]
      cases firstStop f is st' with
      | none =>
        cases firstStop f js (callUntil f is st').2 with
        | none => rfl
        | some j => simp [Nat.add_assoc]
      | some j => simp
    · simp

theorem callUntil_append {is : List ι} {st : σ} (js : List ι) (h : firstStop f is st = none) :
    callUntil f (is ++ js) st = callUntil f js (callUntil f is st).2 := by
  induction is generalizing st with
  | nil => rfl
  | cons i is ih =>
    simp only [firstStop] at h
    simp only [List.cons_append, callUntil]
    rcases hf : f i st with ⟨_ | _, st'⟩ <;> rw [hf] at h
    · exact ih (Option.map_eq_none_iff.mp h)
    · cases h

/-- A call that is not behind the first stop answers `false`. -/
theorem goes_on_of_firstStop {is js : List ι} {i : ι} {st : σ} {n : Nat} (hn : is.length < n)
    (h : ∀ j, firstStop f (is ++ i :: js) st = some j → n ≤ j) :
    firstStop f is st = none ∧ (f i (callUntil f is st).2).1 = false := by
  have hnone : firstStop f is st = none := by
    cases hs : firstStop f is st with
    | none => rfl
    | some j =>
      have hj := firstStop_lt f hs
      have := h j (by rw [firstStop_append, hs, Option.some_or])
      omega
  refine ⟨hnone, ?_⟩
  rcases hf : f i (callUntil f is st).2 with ⟨_ | _, st'⟩
  · rfl
  · have := h is.length (by simp [firstStop_append, hnone, firstStop, hf])
    omega

/-- A call that leaves a second component alone. -/
theorem firstStop_pair {τ : Type} {f : ι → σ → Bool × σ} {g : ι → σ × τ → Bool × σ × τ} {u : τ}
    (h : ∀ i a, g i (a, u) = ((f i a).1, (f i a).2, u)) :
    ∀ (is : List ι) (a : σ), firstStop g is (a, u) = firstStop f is a := by
  intro is
  induction is with
  | nil => exact fun _ => rfl
  | cons i is ih =>
    intro a
    simp only [firstStop, h]
    rcases f i a with ⟨_ | _, a'⟩
    · simp only [ih]
    · rfl

end EarlyExit
