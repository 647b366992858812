import Mathlib.Data.List.Basic
import Mathlib.Tactic.Common

/-!
# Ordered maps

A finite map with natural keys as the list of its entries in ascending order,
the order in which a loop over an ordered map visits them. The order is a field,
so a key has at most one entry and `find` says exactly which entries there are.
-/

structure OrdMap (β : Type) where
  entries : List (Nat × β)
  sorted : entries.Pairwise fun a b => a.1 < b.1

namespace OrdMap

variable {β : Type} {k : Nat}

def find (m : OrdMap β) (k : Nat) : Option β := (m.entries.find? fun e => e.1 = k).map Prod.snd

def insertEntry (k : Nat) (v : β) : List (Nat × β) → List (Nat × β)
  | [] => [(k, v)]
  | e :: rest =>
    if k < e.1 then (k, v) :: e :: rest
    else if k = e.1 then (k, v) :: rest
    else e :: insertEntry k v rest

theorem mem_insertEntry {v : β} {e : Nat × β} :
    ∀ {l : List (Nat × β)}, l.Pairwise (fun a b => a.1 < b.1) →
      (e ∈ insertEntry k v l ↔ e = (k, v) ∨ e ∈ l ∧ e.1 ≠ k) := by
  intro l
  induction l with
  | nil => simp [insertEntry]
  | cons a rest ih =>
    intro hs
    rw [List.pairwise_cons] at hs
    have hrest : ∀ x ∈ rest, a.1 < x.1 := hs.1
    unfold insertEntry
    split
    · rename_i hlt
      have hne : ∀ x ∈ a :: rest, x.1 ≠ k := by
        intro x hx
        rcases List.mem_cons.mp hx with rfl | hx
        · omega
        · have := hrest x hx; omega
      rw [List.mem_cons (b := (k, v))]
      exact or_congr_right ⟨fun h => ⟨h, hne e h⟩, And.left⟩
    · split
      · rename_i heq
        have hne : ∀ x ∈ rest, x.1 ≠ k := fun x hx => by have := hrest x hx; omega
        rw [List.mem_cons, List.mem_cons]
        refine or_congr_right ⟨fun h => ⟨Or.inr h, hne e h⟩, ?_⟩
        rintro ⟨rfl | h, hk⟩
        · exact absurd heq.symm hk
        · exact h
      · rename_i hne
        rw [List.mem_cons, List.mem_cons, ih hs.2]
        constructor
        · rintro (rfl | rfl | ⟨h, hk⟩)
          · exact Or.inr ⟨Or.inl rfl, fun h => hne h.symm⟩
          · exact Or.inl rfl
          · exact Or.inr ⟨Or.inr h, hk⟩
        · rintro (rfl | ⟨rfl | h, hk⟩)
          · exact Or.inr (Or.inl rfl)
          · exact Or.inl rfl
          · exact Or.inr (Or.inr ⟨h, hk⟩)

theorem insertEntry_sorted (k : Nat) (v : β) :
    ∀ {l : List (Nat × β)}, l.Pairwise (fun a b => a.1 < b.1) →
      (insertEntry k v l).Pairwise fun a b => a.1 < b.1 := by
  intro l
  induction l with
  | nil => intro _; exact List.pairwise_singleton _ _
  | cons a rest ih =>
    intro hs
    have hs' := List.pairwise_cons.mp hs
    unfold insertEntry
    split
    · rename_i hlt
      refine List.pairwise_cons.mpr ⟨fun x hx => ?_, hs⟩
      rcases List.mem_cons.mp hx with rfl | hx
      · exact hlt
      · exact Nat.lt_trans hlt (hs'.1 x hx)
    · split
      · rename_i heq
        exact List.pairwise_cons.mpr ⟨fun x hx => by rw [heq]; exact hs'.1 x hx, hs'.2⟩
      · refine List.pairwise_cons.mpr ⟨fun x hx => ?_, ih hs'.2⟩
        rcases (mem_insertEntry hs'.2).mp hx with rfl | ⟨hx, -⟩
        · exact Nat.lt_of_le_of_ne (by omega) (by simp; omega)
        · exact hs'.1 x hx

def empty : OrdMap β := ⟨[], List.Pairwise.nil⟩

def insert (m : OrdMap β) (k : Nat) (v : β) : OrdMap β :=
  ⟨insertEntry k v m.entries, insertEntry_sorted k v m.sorted⟩

theorem mem_insert {m : OrdMap β} {v : β} {e : Nat × β} :
    e ∈ (m.insert k v).entries ↔ e = (k, v) ∨ e ∈ m.entries ∧ e.1 ≠ k := mem_insertEntry m.sorted

theorem find_eq_some {m : OrdMap β} {v : β} : m.find k = some v ↔ (k, v) ∈ m.entries := by
  unfold find
  rw [Option.map_eq_some_iff]
  constructor
  · rintro ⟨⟨k', v'⟩, h, rfl⟩
    have hk := List.find?_some h
    simp only [decide_eq_true_eq] at hk
    subst hk
    exact List.mem_of_find?_eq_some h
  · intro h
    refine ⟨(k, v), ?_, rfl⟩
    have hsorted := m.sorted
    generalize m.entries = l at h hsorted
    induction l with
    | nil => cases h
    | cons a rest ih =>
      rw [List.pairwise_cons] at hsorted
      rcases List.mem_cons.mp h with rfl | h
      · simp
      · have hlt := hsorted.1 _ h
        rw [List.find?_cons_of_neg (by simp; exact Nat.ne_of_lt hlt)]
        exact ih h hsorted.2

theorem find_insert (m : OrdMap β) (k : Nat) (v : β) (j : Nat) :
    (m.insert k v).find j = if j = k then some v else m.find j := by
  have hiff : ∀ w, (m.insert k v).find j = some w ↔ (if j = k then some v else m.find j) =
    some w := by
    intro w
    rw [find_eq_some, mem_insert]
    by_cases hj : j = k
    · subst hj; simp [eq_comm]
    · simp [hj, find_eq_some]
  exact Option.ext hiff

@[simp] theorem find_insert_self (m : OrdMap β) (k : Nat) (v : β) :
    (m.insert k v).find k = some v := by
  simp [find_insert]

theorem find_insert_ne (m : OrdMap β) {j : Nat} (v : β) (h : j ≠ k) :
    (m.insert k v).find j = m.find j := by
  simp [find_insert, h]

@[simp] theorem find_empty (k : Nat) : (empty : OrdMap β).find k = none := rfl

end OrdMap
