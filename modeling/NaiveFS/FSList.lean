import NaiveFS.Lib.Linked

/-!
# The list of the handles of a file

`FSList` of `include/operation.h`. `vec` of an `InodeCache` lists the `FileStatus`
objects open on the inode behind a sentinel; a handle keeps the address of its own
cell. Following a null pointer or one to a deleted cell has no result.
-/

namespace NaiveFS

open Linked

/-- `FSListPtr` objects; the value of a sentinel is the null pointer. -/
abbrev FSHeap := Nat → Option (Cell Nat Nat)

namespace FSList

/-- The pointer is null or can be followed. -/
def valid (h : FSHeap) (c : Option Nat) : Bool := c.all fun a => (h a).isSome

/-- The constructor, with the address of `head_`. -/
def make (head : Nat) (h : FSHeap) : FSHeap := Function.update h head (some ⟨0, none, none⟩)

def ins (head nw value : Nat) (h : FSHeap) : Option FSHeap :=
  match h head with
  | none => none
  | some s => if valid h s.next then some (insert h head nw value s.next) else none

def del (ptr : Nat) (h : FSHeap) : Option FSHeap :=
  match h ptr with
  | none => none
  | some n =>
    match n.prev with
    | none => none
    | some q => if valid h n.next && (h q).isSome then some (erase h ptr n q) else none

/-- The values from a cell on; at most `bound` cells. -/
def valuesFrom (h : FSHeap) : Nat → Option Nat → Option (List Nat)
  | _, none => some []
  | 0, some _ => none
  | bound + 1, some a =>
    match h a with
    | none => none
    | some n => (valuesFrom h bound n.next).map (n.value :: ·)

/-- The values `iter` calls its argument on. -/
def iter (bound head : Nat) (h : FSHeap) : Option (List Nat) :=
  (h head).bind fun s => valuesFrom h bound s.next

def deleteFrom : Nat → Option Nat → FSHeap → Option FSHeap
  | _, none, h => some h
  | 0, some _, _ => none
  | bound + 1, some a, h =>
    match h a with
    | none => none
    | some n => deleteFrom bound n.next (Function.update h a none)

def delete (bound head : Nat) (h : FSHeap) : Option FSHeap := deleteFrom bound (some head) h

/-! ## What the operations do -/

variable {h : FSHeap} {head : Nat} {l l₁ l₂ : List (Nat × Nat)}

theorem make_listed (head : Nat) (h : FSHeap) : Listed (make head h) head [] :=
  ⟨⟨_, Function.update_self .., rfl⟩, by simp⟩

theorem valid_of_listed (hl : Listed h head l) {c : Option Nat}
    (hc : ∀ a, c = some a → a ∈ head :: l.map Prod.fst) :
    valid h c = true := by
  cases c with
  | none => rfl
  | some a =>
    obtain ⟨n, hn⟩ := hl.live (hc a rfl)
    simp [valid, hn]

theorem ins_spec (hl : Listed h head l) {nw : Nat} (hnw : nw ∉ head :: l.map Prod.fst)
    (value : Nat) :
    ∃ h', ins head nw value h = some h' ∧ Listed h' head ((nw, value) :: l) ∧
      ∀ b, b ≠ nw → b ∉ head :: l.map Prod.fst → h' b = h b := by
  obtain ⟨s, hs, hc⟩ := hl.chain
  have hvalid := valid_of_listed hl fun a ha => List.mem_cons_of_mem head (hc.entry ha)
  refine ⟨_, by simp only [ins, hs, if_pos hvalid], hl.insert hs hnw value, fun b hb hout => ?_⟩
  rw [List.mem_cons, not_or] at hout
  exact insert_of_ne hb hout.1 fun h => hout.2 (hc.entry h)

theorem del_spec {a v : Nat} (hl : Listed h head (l₁ ++ (a, v) :: l₂)) :
    ∃ h', del a h = some h' ∧ Listed h' head (l₁ ++ l₂) ∧ h' a = none ∧
      ∀ b, b ∉ head :: (l₁ ++ (a, v) :: l₂).map Prod.fst → h' b = h b := by
  obtain ⟨n, q, ha, hprev, hq, hnext, hl'⟩ := hl.erase
  have hqmem : q ∈ head :: (l₁ ++ (a, v) :: l₂).map Prod.fst := by
    rw [List.map_append]
    exact (List.mem_cons.mp hq).elim (fun h => h ▸ List.mem_cons_self)
      fun h => List.mem_cons_of_mem head (List.mem_append_left _ h)
  have hnmem : ∀ b, n.next = some b → b ∈ head :: (l₁ ++ (a, v) :: l₂).map Prod.fst := by
    intro b hb
    have := hnext b hb
    simp [this]
  obtain ⟨m, hm⟩ := hl.live hqmem
  have hvalid := valid_of_listed hl hnmem
  refine ⟨_, ?_, hl', erase_self, fun b hb => ?_⟩
  · simp only [del, ha, hprev, hvalid, hm, Option.isSome_some, Bool.and_self, if_true]
  · have hba : b ≠ a := by rintro rfl; exact hb (by simp)
    have hbq : b ≠ q := by rintro rfl; exact hb hqmem
    exact erase_of_ne hba hbq fun h => hb (hnmem b h)

theorem valuesFrom_eq :
    ∀ {l : List (Nat × Nat)} {p : Nat} {c : Option Nat} {bound : Nat}, Chain h p c l →
    l.length ≤ bound → valuesFrom h bound c = some (l.map Prod.snd)
  | [], p, c, bound, hc, _ => by
    cases (show c = none from hc)
    cases bound <;> rfl
  | (a, v) :: l, p, c, bound + 1, ⟨hc, next, ha, hl⟩, hb => by
    cases hc
    simp only [valuesFrom, ha, valuesFrom_eq hl (Nat.le_of_succ_le_succ hb), Option.map_some,
      List.map_cons]

theorem iter_eq (hl : Listed h head l) {bound : Nat} (hb : l.length ≤ bound) :
    iter bound head h = some (l.map Prod.snd) := by
  obtain ⟨s, hs, hc⟩ := hl.chain
  simp only [iter, hs, Option.bind_some, valuesFrom_eq hc hb]

theorem delete_nil (hl : Listed h head []) {bound : Nat} (hb : 0 < bound) :
    delete bound head h = some (Function.update h head none) := by
  obtain ⟨s, hs, hc⟩ := hl.chain
  have hnext : s.next = none := hc
  cases bound with
  | zero => cases hb
  | succ bound => cases bound <;> simp only [delete, deleteFrom, hs, hnext]

end FSList

end NaiveFS
