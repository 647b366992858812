import Mathlib.Logic.Function.Basic
import Mathlib.Data.List.Nodup

/-!
# Doubly linked lists between two sentinels

`Links next prev a l t` says that the cells `l` lie between `a` and `t`, each one
linked with its neighbours in both directions. With a sentinel at either end a cell
is put in behind the first one, and taken out anywhere, without a test for null.
-/

namespace Sentinels

variable {α : Type} {next next' prev prev' : α → α} {a t x : α} {l l₁ l₂ : List α}

def Links (next prev : α → α) : α → List α → α → Prop
  | a, [], t => next a = t ∧ prev t = a
  | a, x :: l, t => next a = x ∧ prev x = a ∧ Links next prev x l t

theorem links_append :
    Links next prev a (l₁ ++ x :: l₂) t ↔ Links next prev a l₁ x ∧ Links next prev x l₂ t := by
  induction l₁ generalizing a with
  | nil => simp [Links, and_assoc]
  | cons y l₁ ih => simp [Links, ih, and_assoc]

theorem Links.congr :
    ∀ {l : List α} {a : α}, Links next prev a l t → (∀ x ∈ a :: l, next' x = next x) →
    (∀ x ∈ l ++ [t], prev' x = prev x) → Links next' prev' a l t
  | [], a, ⟨h₁, h₂⟩, hn, hp => by
    simp only [List.mem_singleton, forall_eq, List.nil_append] at hn hp
    exact ⟨hn.trans h₁, hp.trans h₂⟩
  | x :: l, a, ⟨h₁, h₂, h⟩, hn, hp => by
    refine ⟨(hn a List.mem_cons_self).trans h₁, (hp x List.mem_cons_self).trans h₂, h.congr ?_ ?_⟩
    · exact fun y hy => hn y (List.mem_cons_of_mem _ hy)
    · exact fun y hy => hp y (List.mem_cons_of_mem _ hy)

theorem Links.prev_mem : ∀ {l : List α} {a : α}, Links next prev a l t → prev t ∈ a :: l
  | [], a, ⟨_, h⟩ => by simp [h]
  | _ :: _, _, ⟨_, _, h⟩ => List.mem_cons_of_mem _ h.prev_mem

theorem Links.next_mem (h : Links next prev a l t) : next a ∈ l ++ [t] := by
  cases l with
  | nil => simp [h.1]
  | cons y l => simp [h.1]

theorem Links.prev_end (h : Links next prev a (l ++ [x]) t) : prev t = x := (links_append.mp h).2.2

section
variable [DecidableEq α]

theorem Links.detach :
    ∀ {l₁ : List α} {a : α}, Links next prev a (l₁ ++ x :: l₂) t →
    (a :: (l₁ ++ x :: l₂) ++ [t]).Nodup →
    Links (Function.update next (prev x) (next x)) (Function.update prev (next x) (prev x)) a
      (l₁ ++ l₂) t
  | [], a, ⟨h₁, h₂, h⟩, hnd => by
    rw [h₂]
    cases l₂ with
    | nil =>
      obtain ⟨h₃, -⟩ := h
      rw [h₃]
      exact ⟨Function.update_self .., Function.update_self ..⟩
    | cons y l₂ =>
      obtain ⟨h₃, -, h⟩ := h
      simp only [List.nil_append, List.cons_append, List.nodup_cons, List.mem_cons, not_or] at hnd
      rw [h₃]
      refine ⟨Function.update_self .., Function.update_self .., h.congr ?_ ?_⟩
      · intro z hz
        refine Function.update_of_ne ?_ ..
        rintro rfl
        rcases List.mem_cons.mp hz with rfl | hz
        · exact hnd.1.2.1 rfl
        · exact hnd.1.2.2 (List.mem_append_left _ hz)
      · intro z hz
        refine Function.update_of_ne ?_ ..
        rintro rfl
        exact hnd.2.2.1 hz
  | y :: l₁, a, ⟨h₁, h₂, h⟩, hnd => by
    obtain ⟨hl, hr⟩ := links_append.mp h
    have hp := hl.prev_mem
    have hn := hr.next_mem
    simp only [List.cons_append, List.append_assoc, List.nodup_cons, List.mem_cons, List.mem_append,
      not_or] at hnd
    refine ⟨(Function.update_of_ne ?_ ..).trans h₁, (Function.update_of_ne ?_ ..).trans h₂,
      h.detach ?_⟩
    · intro heq
      rw [← heq] at hp
      rcases List.mem_cons.mp hp with rfl | hp
      · exact hnd.1.1 rfl
      · exact hnd.1.2.1 hp
    · intro heq
      rw [← heq] at hn
      rcases List.mem_append.mp hn with hn | hn
      · exact hnd.2.1.2.2.1 hn
      · exact hnd.2.1.2.2.2.1 (by simpa using hn)
    · simp only [List.cons_append, List.append_assoc, List.nodup_cons, List.mem_cons,
        List.mem_append, not_or]
      exact hnd.2

theorem Links.attach (h : Links next prev a l t) (hx : x ∉ a :: l ++ [t])
    (hnd : (a :: l ++ [t]).Nodup) :
    Links (Function.update (Function.update next x (next a)) a x)
      (Function.update (Function.update prev x a) (next a) x) a (x :: l) t := by
  have hxa : x ≠ a := fun heq => hx (by simp [heq])
  have hn := h.next_mem
  have hxn : x ≠ next a :=
    fun heq => hx (by simp only [heq, List.cons_append, List.mem_cons]; exact Or.inr hn)
  refine ⟨Function.update_self .., ?_, ?_⟩
  · rw [Function.update_of_ne hxn, Function.update_self]
  · cases l with
    | nil =>
      obtain ⟨h₁, -⟩ := h
      rw [h₁]
      refine ⟨?_, Function.update_self ..⟩
      rw [Function.update_of_ne hxa, Function.update_self]
    | cons y l =>
      obtain ⟨h₁, -, h⟩ := h
      rw [h₁]
      simp only [List.cons_append, List.nodup_cons, List.mem_cons, not_or] at hnd hx
      refine ⟨?_, Function.update_self .., h.congr ?_ ?_⟩
      · rw [Function.update_of_ne hxa, Function.update_self]
      · intro z hz
        have hza : z ≠ a := by
          rintro rfl
          rcases List.mem_cons.mp hz with rfl | hz
          · exact hnd.1.1 rfl
          · exact hnd.1.2 (List.mem_append_left _ hz)
        have hzx : z ≠ x := by
          rintro rfl
          rcases List.mem_cons.mp hz with rfl | hz
          · exact hx.2.1 rfl
          · exact hx.2.2 (List.mem_append_left _ hz)
        rw [Function.update_of_ne hza, Function.update_of_ne hzx]
      · intro z hz
        have hzy : z ≠ y := by
          rintro rfl
          exact hnd.2.1 hz
        have hzx : z ≠ x := by
          rintro rfl
          exact hx.2.2 hz
        rw [Function.update_of_ne hzy, Function.update_of_ne hzx]

end

end Sentinels
