import Mathlib.Logic.Function.Basic
import Mathlib.Data.List.Nodup

/-!
# Circular singly linked lists

`next` gives the successor of a cell, if it has one. `Seg next a l b` says that
the cells from `a` up to `b`, not counting `b`, are `l`; a circle is a segment that
comes back to where it starts. A circle may be entered at any of its cells, grows
behind any of them and closes again around a cell that is taken out.
-/

namespace Circle

variable {α : Type} {next next' : α → Option α} {a b c x : α} {l l₁ l₂ : List α}

def Seg (next : α → Option α) : α → List α → α → Prop
  | a, [], b => a = b
  | a, x :: l, b => a = x ∧ ∃ m, next x = some m ∧ Seg next m l b

/-- The cells of the circle through `c`, beginning with `c`. -/
structure Ring (next : α → Option α) (c : α) (l : List α) : Prop where
  ne_nil : l ≠ []
  seg : Seg next c l c

theorem seg_append : Seg next a (l₁ ++ l₂) b ↔ ∃ m, Seg next a l₁ m ∧ Seg next m l₂ b := by
  induction l₁ generalizing a with
  | nil => simp [Seg]
  | cons x l₁ ih =>
    simp only [List.cons_append, Seg, ih]
    constructor
    · rintro ⟨rfl, m, hm, n, h₁, h₂⟩
      exact ⟨n, ⟨rfl, m, hm, h₁⟩, h₂⟩
    · rintro ⟨n, ⟨rfl, m, hm, h₁⟩, h₂⟩
      exact ⟨rfl, m, hm, n, h₁, h₂⟩

theorem Seg.congr :
    ∀ {l : List α} {a : α}, Seg next a l b → (∀ x ∈ l, next' x = next x) → Seg next' a l b
  | [], _, h, _ => h
  | x :: l, a, ⟨ha, m, hm, h⟩, hl => by
    refine ⟨ha, m, ?_, h.congr fun y hy => hl y (List.mem_cons_of_mem x hy)⟩
    rw [hl x List.mem_cons_self]
    exact hm

theorem Seg.head (h : Seg next a (x :: l) b) : a = x := h.1

theorem Ring.head (h : Ring next c (x :: l)) : c = x := h.seg.head

theorem Ring.congr (h : Ring next c l) (hl : ∀ x ∈ l, next' x = next x) : Ring next' c l :=
  ⟨h.ne_nil, h.seg.congr hl⟩

theorem Ring.rotate (h : Ring next c (l₁ ++ x :: l₂)) : Ring next x (x :: (l₂ ++ l₁)) := by
  obtain ⟨m, h₁, h₂⟩ := seg_append.mp h.seg
  cases h₂.head
  refine ⟨by simp, ?_⟩
  rw [← List.cons_append]
  exact seg_append.mpr ⟨c, h₂, h₁⟩

theorem Ring.mem_succ (h : Ring next c l) (hx : x ∈ l) : ∃ m ∈ l, next x = some m := by
  obtain ⟨l₁, l₂, rfl⟩ := List.append_of_mem hx
  obtain ⟨-, m, hm, hseg⟩ := h.rotate.seg
  refine ⟨m, ?_, hm⟩
  cases hl : l₂ ++ l₁ with
  | nil =>
    rw [hl] at hseg
    rw [show m = x from hseg]
    exact hx
  | cons y l =>
    rw [hl] at hseg
    have hy : y ∈ l₂ ++ l₁ := by rw [hl]; exact List.mem_cons_self
    cases hseg.head
    simp only [List.mem_append, List.mem_cons] at hy ⊢
    exact hy.elim (fun h => Or.inr (Or.inr h)) Or.inl

section
variable [DecidableEq α]

theorem Ring.single (c : α) : Ring (Function.update next c (some c)) c [c] :=
  ⟨by simp, rfl, c, Function.update_self .., rfl⟩

theorem Ring.insert {new m : α} (h : Ring next c (c :: l)) (hm : next c = some m)
    (hnew : new ∉ c :: l) (hnd : (c :: l).Nodup) :
    Ring (Function.update (Function.update next new (some m)) c (some new)) new
      (new :: (l ++ [c])) := by
  have hne : new ≠ c := fun h => hnew (h ▸ List.mem_cons_self)
  obtain ⟨-, m', hm', hseg⟩ := h.seg
  rw [hm] at hm'
  cases hm'
  have hold : Seg (Function.update (Function.update next new (some m)) c (some new)) m l c := by
    apply hseg.congr
    intro x hx
    have hxc : x ≠ c := by rintro rfl; exact (List.nodup_cons.mp hnd).1 hx
    have hxn : x ≠ new := by rintro rfl; exact hnew (List.mem_cons_of_mem c hx)
    rw [Function.update_of_ne hxc, Function.update_of_ne hxn]
  refine ⟨by simp, rfl, m, ?_, seg_append.mpr ⟨c, hold, rfl, new, Function.update_self .., rfl⟩⟩
  rw [Function.update_of_ne hne, Function.update_self]

/-- The circle without the cell behind its last one: the last cell is linked to
the successor of the cell taken out. -/
theorem Ring.erase {v p m : α} (h : Ring next v (v :: (l ++ [p]))) (hm : next v = some m)
    (hnd : (v :: (l ++ [p])).Nodup) :
    Ring (Function.update next p (some m)) m (l ++ [p]) := by
  obtain ⟨-, m', hm', hseg⟩ := h.seg
  rw [hm] at hm'
  cases hm'
  obtain ⟨q, h₁, hq⟩ := seg_append.mp hseg
  cases hq.head
  have hp : p ∉ l := by
    have hnd' := (List.nodup_cons.mp hnd).2
    rw [List.nodup_append] at hnd'
    exact fun hp => hnd'.2.2 p hp p List.mem_cons_self rfl
  refine ⟨by simp, seg_append.mpr ⟨p, h₁.congr fun x hx => ?_, rfl, m, Function.update_self ..,
    rfl⟩⟩
  have hxp : x ≠ p := by rintro rfl; exact hp hx
  exact Function.update_of_ne hxp ..

end

/-! ## The circle as a set -/

/-- The circle entered at `c`, if there is one, has exactly the cells in `S`. -/
def Holds (next : α → Option α) (S : α → Prop) : Option α → Prop
  | none => ∀ x, ¬ S x
  | some c => ∃ l, Ring next c l ∧ l.Nodup ∧ ∀ x, x ∈ l ↔ S x

variable {S S' : α → Prop} {e : Option α}

theorem Holds.congr (h : Holds next S e) (hS : ∀ x, S' x ↔ S x) (hn : ∀ x, S x → next' x = next x) :
    Holds next' S' e := by
  cases e with
  | none => exact fun x hx => h x ((hS x).mp hx)
  | some c =>
    obtain ⟨l, hr, hnd, hl⟩ := h
    exact ⟨l, hr.congr fun x hx => hn x ((hl x).mp hx), hnd, fun x => (hl x).trans (hS x).symm⟩

theorem Holds.enter (h : Holds next S (some c)) (hx : S x) : Holds next S (some x) := by
  obtain ⟨l, hr, hnd, hl⟩ := h
  obtain ⟨l₁, l₂, rfl⟩ := List.append_of_mem ((hl x).mpr hx)
  have hperm : (x :: (l₂ ++ l₁)).Perm (l₁ ++ x :: l₂) := @List.perm_append_comm _ (x :: l₂) l₁
  exact ⟨_, hr.rotate, hperm.nodup_iff.mpr hnd, fun y => hperm.mem_iff.trans (hl y)⟩

theorem Holds.entry (h : Holds next S (some c)) : S c := by
  obtain ⟨l, hr, hnd, hl⟩ := h
  cases l with
  | nil => exact absurd rfl hr.ne_nil
  | cons x l =>
    cases hr.head
    exact (hl c).mp List.mem_cons_self

theorem Holds.succ (h : Holds next S (some c)) (hx : S x) : ∃ m, S m ∧ next x = some m := by
  obtain ⟨l, hr, hnd, hl⟩ := h
  obtain ⟨m, hm, hx⟩ := hr.mem_succ ((hl x).mpr hx)
  exact ⟨m, (hl m).mp hm, hx⟩

theorem Holds.walk (h : Holds next S (some c)) :
    ∃ l, Seg next c (c :: l) c ∧ c ∉ l ∧ (c :: l).Nodup ∧ ∀ x, x ∈ c :: l ↔ S x := by
  obtain ⟨l, hr, hnd, hl⟩ := h
  cases l with
  | nil => exact absurd rfl hr.ne_nil
  | cons x l =>
    cases hr.head
    exact ⟨l, hr.seg, (List.nodup_cons.mp hnd).1, hnd, hl⟩

section
variable [DecidableEq α]

theorem Holds.add_first (h : Holds next S none) (new : α) :
    Holds (Function.update next new (some new)) (fun x => x = new ∨ S x) (some new) := by
  refine ⟨[new], Ring.single new, List.nodup_singleton new, fun x => ?_⟩
  simp [h x]

theorem Holds.add {new m : α} (h : Holds next S (some c)) (hm : next c = some m) (hnew : ¬ S new) :
    Holds (Function.update (Function.update next new (some m)) c (some new)) (fun x => x = new ∨
      S x) (some new) := by
  obtain ⟨l, hseg, hc, hnd, hl⟩ := h.walk
  have hn : new ∉ c :: l := fun hx => hnew ((hl new).mp hx)
  have hperm : (new :: (l ++ [c])).Perm (new :: c :: l) := (@List.perm_append_comm _ l [c]).cons new
  refine ⟨_, Ring.insert ⟨by simp, hseg⟩ hm hn hnd,
    hperm.nodup_iff.mpr (List.nodup_cons.mpr ⟨hn, hnd⟩), fun x => ?_⟩
  rw [hperm.mem_iff, List.mem_cons, hl]

theorem Ring.remove {v p m : α} (h : Ring next c (l₁ ++ p :: v :: l₂))
    (hnd : (l₁ ++ p :: v :: l₂).Nodup) (hm : next v = some m) :
    Holds (Function.update next p (some m)) (fun x => x ≠ v ∧ x ∈ l₁ ++ p :: v :: l₂) (some m) := by
  have hperm : (v :: ((l₂ ++ l₁) ++ [p])).Perm (l₁ ++ p :: v :: l₂) := by
    rw [show l₁ ++ p :: v :: l₂ = (l₁ ++ [p]) ++ v :: l₂ by simp, List.append_assoc]
    exact @List.perm_append_comm _ (v :: l₂) (l₁ ++ [p])
  have hring : Ring next v (v :: ((l₂ ++ l₁) ++ [p])) := by
    rw [List.append_assoc]
    apply Ring.rotate (c := c)
    simpa using h
  have hnd' := hperm.nodup_iff.mpr hnd
  refine ⟨_, hring.erase hm hnd', (List.nodup_cons.mp hnd').2, fun x => ?_⟩
  show x ∈ l₂ ++ l₁ ++ [p] ↔ x ≠ v ∧ x ∈ l₁ ++ p :: v :: l₂
  rw [← hperm.mem_iff, List.mem_cons]
  have hv := (List.nodup_cons.mp hnd').1
  constructor
  · intro hx
    exact ⟨fun h => hv (h ▸ hx), Or.inr hx⟩
  · rintro ⟨hne, hx⟩
    exact hx.resolve_left hne

end

end Circle
