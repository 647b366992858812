import Mathlib.Logic.Function.Basic
import Mathlib.Data.List.Nodup

/-!
# Doubly linked lists behind a sentinel

A heap maps addresses to cells. `Chain h p c l` says that from `c` on the cells are
`l`, each with its value and pointing back to the one before it, the first one to
`p`; `Listed h head l` that `l` hangs behind the sentinel at `head`. A cell is put
in right behind the sentinel and taken out anywhere by relinking its neighbours.
-/

namespace Linked

structure Cell (α β : Type) where
  value : β
  prev : Option α
  next : Option α

variable {α β : Type} {h h' : α → Option (Cell α β)} {p q a head new : α} {c : Option α} {v : β}
  {l l₁ l₂ : List (α × β)}

def Chain (h : α → Option (Cell α β)) : α → Option α → List (α × β) → Prop
  | _, c, [] => c = none
  | p, c, (a, v) :: l => c = some a ∧ ∃ next, h a = some ⟨v, some p, next⟩ ∧ Chain h a next l

/-- The cells behind `head`, all different. -/
structure Listed (h : α → Option (Cell α β)) (head : α) (l : List (α × β)) : Prop where
  chain : ∃ n, h head = some n ∧ Chain h head n.next l
  nodup : (head :: l.map Prod.fst).Nodup

theorem Chain.congr :
    ∀ {l : List (α × β)} {p : α} {c : Option α}, Chain h p c l →
    (∀ a ∈ l.map Prod.fst, h' a = h a) → Chain h' p c l
  | [], _, _, hc, _ => hc
  | (a, v) :: l, p, c, ⟨hc, next, ha, hl⟩, hh => by
    refine ⟨hc, next, ?_, hl.congr fun b hb => hh b (List.mem_cons_of_mem a hb)⟩
    rw [hh a List.mem_cons_self]
    exact ha

theorem Listed.congr (hl : Listed h head l) (hh : ∀ a ∈ head :: l.map Prod.fst, h' a = h a) :
    Listed h' head l := by
  obtain ⟨n, hn, hc⟩ := hl.chain
  refine ⟨⟨n, ?_, hc.congr fun a ha => hh a (List.mem_cons_of_mem head ha)⟩, hl.nodup⟩
  rw [hh head List.mem_cons_self]
  exact hn

theorem Chain.entry (hc : Chain h p c l) (ha : c = some a) : a ∈ l.map Prod.fst := by
  cases l with
  | nil => simp [show c = none from hc] at ha
  | cons e l =>
    obtain ⟨hc, -⟩ := hc
    rw [hc] at ha
    cases ha
    exact List.mem_cons_self

theorem Chain.mem {e : α × β} : ∀ {l : List (α × β)} {p : α} {c : Option α}, Chain h p c l → e ∈ l →
    ∃ q next, h e.1 = some ⟨e.2, some q, next⟩
  | (a, v) :: l, p, c, ⟨_, next, ha, hl⟩, he => by
    rcases List.mem_cons.mp he with rfl | he
    · exact ⟨p, next, ha⟩
    · exact hl.mem he

theorem Chain.next_mem {n : Cell α β} {b : α} (ha : h a = some n) (hb : n.next = some b) :
    ∀ {l₁ : List (α × β)} {p : α} {c : Option α}, Chain h p c (l₁ ++ (a, v) :: l₂) →
      b ∈ l₂.map Prod.fst
  | [], p, c, ⟨_, next, ha', hl⟩ => by
    cases ha.symm.trans ha'
    exact hl.entry hb
  | (_, _) :: _, _, _, ⟨_, _, _, hl⟩ => hl.next_mem ha hb

section
variable [DecidableEq α]

def setNext (h : α → Option (Cell α β)) (a : α) (c : Option α) : α → Option (Cell α β) :=
  Function.update h a ((h a).map fun n => { n with next := c })

/-- The cell at `c`, if there is one, points back to `p`. -/
def setPrev (h : α → Option (Cell α β)) (c : Option α) (p : Option α) : α → Option (Cell α β) :=
  match c with
  | none => h
  | some a => Function.update h a ((h a).map fun n => { n with prev := p })

theorem setNext_of_ne {b : α} (hb : b ≠ a) : setNext h a c b = h b := Function.update_of_ne hb ..

theorem setNext_self : setNext h a c a = (h a).map fun n => { n with next := c } :=
  Function.update_self ..

theorem setPrev_of_ne {b : α} {p : Option α} (hb : c ≠ some b) : setPrev h c p b = h b := by
  cases c with
  | none => rfl
  | some a => exact Function.update_of_ne (fun h => hb (by rw [h])) ..

theorem Chain.setPrev (hc : Chain h p c l) (hnd : (l.map Prod.fst).Nodup) (q : α) :
    Chain (setPrev h c (some q)) q c l := by
  cases l with
  | nil => exact hc
  | cons e l =>
    obtain ⟨hc, next, ha, hl⟩ := hc
    subst hc
    rw [List.map_cons, List.nodup_cons] at hnd
    refine ⟨rfl, next, by simp [Linked.setPrev, ha], hl.congr fun b hb => setPrev_of_ne ?_⟩
    rintro ⟨⟩
    exact hnd.1 hb

/-! ## Putting a cell in -/

def insert (h : α → Option (Cell α β)) (head new : α) (v : β) (first : Option α) :
    α → Option (Cell α β) :=
  setPrev (setNext (Function.update h new (some ⟨v, some head, first⟩)) head (some new)) first
    (some new)

theorem insert_of_ne {b : α} {first : Option α} (h₁ : b ≠ new) (h₂ : b ≠ head)
    (h₃ : first ≠ some b) :
    insert h head new v first b = h b := by
  rw [insert, setPrev_of_ne h₃, setNext_of_ne h₂, Function.update_of_ne h₁]

theorem Listed.insert {n : Cell α β} (hl : Listed h head l) (hn : h head = some n)
    (hnew : new ∉ head :: l.map Prod.fst) (v : β) :
    Listed (insert h head new v n.next) head ((new, v) :: l) := by
  obtain ⟨n', hn', hc⟩ := hl.chain
  cases hn.symm.trans hn'
  rw [List.mem_cons, not_or] at hnew
  obtain ⟨hhead, hnd⟩ := List.nodup_cons.mp hl.nodup
  have hentry : ∀ b, b ∉ l.map Prod.fst → n.next ≠ some b := fun b hb h => hb (hc.entry h)
  have hsentinel : Linked.insert h head new v n.next head = some { n with next := some new } := by
    rw [Linked.insert, setPrev_of_ne (hentry head hhead), setNext_self,
      Function.update_of_ne (Ne.symm hnew.1), hn]
    rfl
  have hcell : Linked.insert h head new v n.next new = some ⟨v, some head, n.next⟩ := by
    rw [Linked.insert, setPrev_of_ne (hentry new hnew.2), setNext_of_ne hnew.1,
      Function.update_self]
  refine ⟨⟨_, hsentinel, rfl, n.next, hcell, ?_⟩, ?_⟩
  · have hkept : Chain (setNext (Function.update h new (some ⟨v, some head, n.next⟩)) head
      (some new)) head n.next l := by
      apply hc.congr
      intro b hb
      have hb₁ : b ≠ head := by rintro rfl; exact hhead hb
      have hb₂ : b ≠ new := by rintro rfl; exact hnew.2 hb
      rw [setNext_of_ne hb₁, Function.update_of_ne hb₂]
    exact hkept.setPrev hnd new
  · rw [List.map_cons, List.nodup_cons, List.nodup_cons, List.mem_cons, not_or]
    exact ⟨⟨Ne.symm hnew.1, hhead⟩, hnew.2, hnd⟩

/-! ## Taking a cell out -/

/-- The neighbours of `a` are linked to each other and `a` is freed. -/
def erase (h : α → Option (Cell α β)) (a : α) (n : Cell α β) (q : α) : α → Option (Cell α β) :=
  Function.update (setNext (setPrev h n.next n.prev) q n.next) a none

theorem erase_self {n : Cell α β} : erase h a n q a = none := Function.update_self ..

theorem erase_of_ne {n : Cell α β} {b : α} (h₁ : b ≠ a) (h₂ : b ≠ q) (h₃ : n.next ≠ some b) :
    erase h a n q b = h b := by
  rw [erase, Function.update_of_ne h₁, setNext_of_ne h₂, setPrev_of_ne h₃]

/-- Taking out `a` from the cells behind `p`, which itself keeps value and back link. -/
theorem Chain.erase {n : Cell α β} (ha : h a = some n) (hq : n.prev = some q) :
    ∀ {l₁ : List (α × β)} {p : α} {m : Cell α β}, h p = some m →
      Chain h p m.next (l₁ ++ (a, v) :: l₂) → (p :: (l₁ ++ (a, v) :: l₂).map Prod.fst).Nodup →
      q ∈ p :: l₁.map Prod.fst ∧ ∃ m', erase h a n q p = some m' ∧ m'.value = m.value ∧
        m'.prev = m.prev ∧ Chain (erase h a n q) p m'.next (l₁ ++ l₂)
  | [], p, m, hp, hc, hnd => by
    obtain ⟨-, next, ha', hl⟩ := hc
    cases ha.symm.trans ha'
    cases hq
    simp only [List.nil_append, List.map_cons, List.nodup_cons, List.mem_cons, not_or] at hnd
    obtain ⟨⟨hpa, hpl⟩, hal, hnd⟩ := hnd
    have hfirst : next ≠ some q := fun h => hpl (hl.entry h)
    refine ⟨List.mem_cons_self, { m with next := next }, ?_, rfl, rfl, ?_⟩
    · rw [Linked.erase, Function.update_of_ne hpa, setNext_self, setPrev_of_ne hfirst, hp]
      rfl
    · apply (hl.setPrev hnd q).congr
      intro b hb
      have hba : b ≠ a := by rintro rfl; exact hal hb
      have hbp : b ≠ q := by rintro rfl; exact hpl hb
      rw [Linked.erase, Function.update_of_ne hba, setNext_of_ne hbp]
  | (b, w) :: l₁, p, m, hp, hc, hnd => by
    obtain ⟨hm, next, hb, hl⟩ := hc
    rw [List.cons_append, List.map_cons, List.nodup_cons] at hnd
    obtain ⟨hpl, hnd⟩ := hnd
    obtain ⟨hq', m', hm', hval, hprev, hl'⟩ := Chain.erase ha hq hb hl hnd
    have hqmem : q ∈ b :: (l₁ ++ (a, v) :: l₂).map Prod.fst := by
      rw [List.map_append]
      exact (List.mem_cons.mp hq').elim (fun h => h ▸ List.mem_cons_self)
        fun h => List.mem_cons_of_mem b (List.mem_append_left _ h)
    have hpq : p ≠ q := by rintro rfl; exact hpl hqmem
    have hpa : p ≠ a := by rintro rfl; exact hpl (by simp)
    have hnext : n.next ≠ some p := by
      intro h
      apply hpl
      have := hl.next_mem ha h
      simp [this]
    refine ⟨List.mem_cons_of_mem p hq', m, ?_, rfl, rfl, hm, m'.next, ?_, hl'⟩
    · rw [erase_of_ne hpa hpq hnext, hp]
    · rw [hm']
      cases m'
      simp only at hval hprev
      rw [hval, hprev]

theorem Listed.erase (hl : Listed h head (l₁ ++ (a, v) :: l₂)) :
    ∃ n q, h a = some n ∧ n.prev = some q ∧ q ∈ head :: l₁.map Prod.fst ∧
      (∀ b, n.next = some b → b ∈ l₂.map Prod.fst) ∧ Listed (erase h a n q) head (l₁ ++ l₂) := by
  obtain ⟨s, hs, hc⟩ := hl.chain
  obtain ⟨q, next, ha⟩ := hc.mem (show (a, v) ∈ l₁ ++ (a, v) :: l₂ by simp)
  obtain ⟨hq, m, hm, -, -, hc'⟩ := hc.erase ha rfl hs hl.nodup
  refine ⟨_, q, ha, rfl, hq, fun b hb => hc.next_mem ha hb, ⟨m, hm, hc'⟩, hl.nodup.sublist ?_⟩
  exact (((List.sublist_cons_self (a, v) l₂).append_left l₁).map Prod.fst).cons_cons head

end

theorem Listed.live (hl : Listed h head l) {b : α} (hb : b ∈ head :: l.map Prod.fst) :
    ∃ n, h b = some n := by
  obtain ⟨s, hs, hc⟩ := hl.chain
  rcases List.mem_cons.mp hb with rfl | hb
  · exact ⟨s, hs⟩
  · obtain ⟨e, he, rfl⟩ := List.mem_map.mp hb
    obtain ⟨q, next, hn⟩ := hc.mem he
    exact ⟨_, hn⟩

end Linked
