import Mathlib.Data.List.Nodup

/-!
# Lists in the order of last use

A cache of `k` entries that evicts the least recently used one is the list of its
keys, the last used first. `rs` is a list of distinct keys used so far, the last
one first: the cache starts with the first `k` of them.
-/

namespace Lru

variable {α : Type} {k : Nat} {L rs : List α} {p : α}

/-- The cache starts with what was used last. -/
def Recent (k : Nat) (L rs : List α) : Prop := rs.take k <+: L

theorem Recent.nil : Recent k L [] := by simp [Recent]

section
variable [DecidableEq α]

/-- The cache after a use of `p`. -/
def use (k : Nat) (L : List α) (p : α) : List α := (p :: L.erase p).take k

theorem prefix_erase {l : List α} (h : l <+: L) (hp : p ∉ l) : l <+: L.erase p := by
  obtain ⟨t, rfl⟩ := h
  rw [List.erase_append_right _ hp]
  exact List.prefix_append _ _

theorem use_length : (use k L p).length ≤ k := by
  unfold use
  rw [List.length_take]
  exact Nat.min_le_left _ _

theorem use_nodup (h : L.Nodup) : (use k L p).Nodup := by
  have hcons : (p :: L.erase p).Nodup := List.nodup_cons.mpr ⟨h.not_mem_erase, h.erase p⟩
  exact hcons.sublist (List.take_sublist _ _)

theorem Recent.use (h : Recent k L rs) (hp : p ∉ rs) : Recent k (use k L p) (p :: rs) := by
  unfold Recent Lru.use
  have hpre : p :: rs.take k <+: p :: L.erase p :=
    List.cons_prefix_cons.mpr ⟨rfl, prefix_erase h fun hmem => hp (List.mem_of_mem_take hmem)⟩
  have htake : (p :: rs).take k = (p :: rs.take k).take k := by
    cases k with
    | zero => rfl
    | succ k => simp [List.take_take]
  obtain ⟨t, ht⟩ := hpre
  rw [htake, ← ht, List.take_append]
  exact List.prefix_append _ _

/-- At most `m` keys have been used since `p`. -/
def Within (m : Nat) (L : List α) (p : α) : Prop := ∃ us vs, L = us ++ p :: vs ∧ us.length ≤ m

omit [DecidableEq α] in
theorem Within.mem {m : Nat} (h : Within m L p) : p ∈ L := by
  obtain ⟨us, vs, rfl, -⟩ := h
  simp

theorem within_use (hk : 0 < k) : Within 0 (use k L p) p := by
  obtain ⟨j, rfl⟩ : ∃ j, k = j + 1 := ⟨k - 1, by omega⟩
  exact ⟨[], (L.erase p).take j, rfl, Nat.le_refl _⟩

theorem Within.use {m : Nat} (h : Within m L p) (hm : m + 1 < k) (q : α) :
    Within (m + 1) (use k L q) p := by
  by_cases hpq : p = q
  · subst hpq
    obtain ⟨us, vs, heq, hlen⟩ := @within_use _ k L p _ (by omega)
    exact ⟨us, vs, heq, by omega⟩
  obtain ⟨us, vs, rfl, hlen⟩ := h
  -- what is before `p` does not grow when `q` is taken out
  obtain ⟨us', vs', herase, hle⟩ : ∃ us' vs', (us ++ p :: vs).erase q = us' ++ p :: vs' ∧
    us'.length ≤ m := by
    by_cases hq : q ∈ us
    · refine ⟨us.erase q, vs, List.erase_append_left _ hq, ?_⟩
      exact Nat.le_trans List.length_erase_le hlen
    · refine ⟨us, vs.erase q, ?_, hlen⟩
      rw [List.erase_append_right _ hq, List.erase_cons_tail (by simpa using hpq)]
  refine ⟨q :: us', vs'.take (k - (us'.length + 2)), ?_, by simpa using hle⟩
  obtain ⟨j, rfl⟩ : ∃ j, k = us'.length + 2 + j := ⟨k - (us'.length + 2), by omega⟩
  unfold Lru.use
  rw [herase, ← List.cons_append, List.take_append, List.take_of_length_le (by simp; omega)]
  simp [show us'.length + 2 + j - (us'.length + 1) = j + 1 by omega]

end

/-- Of the keys used so far the cache holds the `k` last ones. -/
theorem Recent.mem_iff (h : Recent k L rs) (hlen : L.length ≤ k) (hp : p ∈ rs) :
    p ∈ L ↔ p ∈ rs.take k := by
  constructor
  · intro hL
    by_cases hk : k ≤ rs.length
    · have heq : rs.take k = L :=
        h.eq_of_length_le (by rw [List.length_take, Nat.min_eq_left hk]; exact hlen)
      rw [heq]
      exact hL
    · rw [List.take_of_length_le (Nat.le_of_lt (Nat.not_le.mp hk))]
      exact hp
  · exact fun hmem => h.subset hmem

theorem Recent.mem_append_iff {us ts : List α} (h : Recent k L (us ++ p :: ts))
    (hlen : L.length ≤ k) (hn : (us ++ p :: ts).Nodup) : p ∈ L ↔ us.length < k := by
  rw [h.mem_iff hlen (by simp)]
  have hus : p ∉ us := fun hmem => (List.nodup_append.mp hn).2.2 p hmem p (by simp) rfl
  constructor
  · intro hmem
    by_contra hge
    rw [List.take_append_of_le_length (Nat.not_lt.mp hge)] at hmem
    exact hus (List.mem_of_mem_take hmem)
  · intro hlt
    rw [List.take_append, List.mem_append]
    right
    obtain ⟨j, hj⟩ : ∃ j, k - us.length = j + 1 := ⟨k - us.length - 1, by omega⟩
    rw [hj]
    simp

end Lru
