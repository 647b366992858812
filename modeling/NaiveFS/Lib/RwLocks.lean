import Mathlib.Algebra.BigOperators.Group.Finset.Basic
import Mathlib.Computability.RegularExpressions
import NaiveFS.Lib.Runs

/-!
# Threads that share reader-writer locks

A thread takes locks, shared or exclusive, gives them back and touches objects in
between. `Follows` is the discipline of one thread: it enters through one lock, takes
the others in the order of their ranks and touches an object only under its guard. If
all threads follow it, no interleaving is stuck and, where guards exclude each other,
no two threads touch an object at the same time.

The events of a piece of code are a regular expression; `Takes` is the triple for it.
-/

namespace RwLocks

inductive Hold where
  | shared
  | exclusive
  deriving DecidableEq

inductive Mode where
  | read
  | write
  deriving DecidableEq

inductive Event (L O : Type) where
  | acquire (l : L) (h : Hold)
  | release (l : L)
  | access (o : O) (m : Mode)
  deriving DecidableEq

abbrev Held (L : Type) := List (L × Hold)

/-- The locks a thread holds, and what it is going to do. -/
structure Thread (L O : Type) where
  held : Held L
  todo : List (Event L O)

variable {T L O : Type}

/-- The thread after its next event. -/
def Thread.next [DecidableEq L] (th : Thread L O) : Thread L O :=
  match th.todo with
  | [] => th
  | .acquire l h :: rest => ⟨(l, h) :: th.held, rest⟩
  | .release l :: rest => ⟨th.held.filter fun e => e.1 ≠ l, rest⟩
  | .access _ _ :: rest => ⟨th.held, rest⟩

/-- No thread holds the lock, except that readers let readers in. -/
def Open (s : T → Thread L O) (l : L) (h : Hold) : Prop :=
  ∀ t h', (l, h') ∈ (s t).held → h = .shared ∧ h' = .shared

def Enabled (s : T → Thread L O) (t : T) : Prop :=
  match (s t).todo with
  | [] => False
  | .acquire l h :: _ => Open s l h
  | _ => True

/-- The same under locks that keep readers out while a writer waits. -/
def Ready (s : T → Thread L O) (t : T) : Prop :=
  Enabled s t ∧ ∀ l rest, (s t).todo = .acquire l .shared :: rest →
    ∀ t' rest', (s t').todo ≠ .acquire l .exclusive :: rest'

open Classical in
noncomputable def step [DecidableEq T] [DecidableEq L] (s : T → Thread L O) (t : T) :
    Option (T → Thread L O) :=
  if Enabled s t then some (Function.update s t (s t).next) else none

def start (todo : T → List (Event L O)) : T → Thread L O := fun t => ⟨[], todo t⟩

/-- Two threads are about to touch the object, and one of them to change it. -/
def Race (s : T → Thread L O) (o : O) : Prop :=
  ∃ t t' m m' rest rest', t ≠ t' ∧ (s t).todo = .access o m :: rest ∧
    (s t').todo = .access o m' :: rest' ∧
    (m = .write ∨ m' = .write)

/-! ## The discipline of a thread -/

structure Discipline (L O : Type) where
  rank : L → Nat
  /-- The lock through which a thread enters. -/
  gate : L
  guard : O → Mode → Held L → Prop

section
variable (D : Discipline L O)

def Follows [DecidableEq L] : Held L → List (Event L O) → Prop
  | held, [] => held = []
  | held, .acquire l h :: rest =>
    (∀ e ∈ held, D.rank e.1 < D.rank l) ∧ (held = [] → l = D.gate) ∧ Follows ((l, h) :: held) rest
  | held, .release l :: rest =>
    (l = D.gate → ∀ e ∈ held, e.1 = l) ∧ Follows (held.filter fun e => e.1 ≠ l) rest
  | held, .access o m :: rest => D.guard o m held ∧ Follows held rest

/-- What holds in every state of threads that follow the discipline. -/
structure Orderly [DecidableEq L] (s : T → Thread L O) : Prop where
  follows : ∀ t, Follows D (s t).held (s t).todo
  alone : ∀ t t' l h h', t ≠ t' → (l, h) ∈ (s t).held → (l, h') ∈ (s t').held → h = .shared ∧
    h' = .shared
  gate : ∀ t, (s t).held ≠ [] → ∃ h, (D.gate, h) ∈ (s t).held

variable {D} {s s' : T → Thread L O} {t : T}

theorem not_open {l : L} {m : Hold} (h : ¬ Open s l m) : ∃ t h', (l, h') ∈ (s t).held := by
  unfold Open at h
  push Not at h
  obtain ⟨t, h', hl, -⟩ := h
  exact ⟨t, h', hl⟩

theorem waits_of_not_ready (hready : ∀ t, ¬ Ready s t) (hne : (s t).todo ≠ []) :
    ∃ l m rest, (s t).todo = .acquire l m :: rest ∧ ∃ t' h', (l, h') ∈ (s t').held := by
  have hnot := hready t
  unfold Ready Enabled at hnot
  cases htodo : (s t).todo with
  | nil => exact absurd htodo hne
  | cons e rest =>
    rw [htodo] at hnot
    cases e with
    | access o m => exact absurd ⟨trivial, fun _ _ hc => by cases hc⟩ hnot
    | release l => exact absurd ⟨trivial, fun _ _ hc => by cases hc⟩ hnot
    | acquire l m =>
      refine ⟨l, m, rest, rfl, ?_⟩
      by_cases hopen : Open s l m
      · -- a writer waits for the lock, so somebody holds it
        simp only [hopen, true_and] at hnot
        push Not at hnot
        obtain ⟨l', rest', hc, t', rest'', hw⟩ := hnot
        cases hc
        have hblocked := hready t'
        unfold Ready Enabled at hblocked
        rw [hw] at hblocked
        by_contra hno
        push Not at hno
        refine hblocked ⟨fun u h' hl => absurd hl (hno u h'), fun _ _ hc => by cases hc⟩
      · exact not_open hopen

variable [DecidableEq L]

theorem orderly_start {todo : T → List (Event L O)} (h : ∀ t, Follows D [] (todo t)) :
    Orderly D (start todo) where
  follows := h
  alone _ _ _ _ _ _ hl _ := by cases hl
  gate _ hne := absurd rfl hne

theorem Orderly.todo_ne_nil (h : Orderly D s) (hheld : (s t).held ≠ []) : (s t).todo ≠ [] := by
  intro hnil
  have hf := h.follows t
  rw [hnil] at hf
  exact hheld hf

/-! ## No thread waits for ever -/

/-- The holder of a lock somebody waits for is itself waiting, for a lock of higher rank. -/
theorem Orderly.waits_higher (h : Orderly D s) (hready : ∀ t, ¬ Ready s t) {l : L} {h' : Hold}
    (hl : (l, h') ∈ (s t).held) :
    ∃ l' m rest, (s t).todo = .acquire l' m :: rest ∧ D.rank l < D.rank l' := by
  obtain ⟨l', m, rest, htodo, -⟩ :=
    waits_of_not_ready hready (h.todo_ne_nil (List.ne_nil_of_mem hl))
  have hf := h.follows t
  rw [htodo] at hf
  exact ⟨l', m, rest, htodo, hf.1 _ hl⟩

theorem Orderly.exists_ready (h : Orderly D s) {top : Nat} (htop : ∀ l, D.rank l ≤ top)
    (hne : (s t).todo ≠ []) : ∃ t, Ready s t := by
  by_contra hno
  push Not at hno
  -- climb from lock to lock: the rank of the lock waited for has no bound
  have climb : ∀ n, ∃ t l m rest, (s t).todo = .acquire l m :: rest ∧ n ≤ D.rank l := by
    intro n
    induction n with
    | zero =>
      obtain ⟨l, m, rest, htodo, -⟩ := waits_of_not_ready hno hne
      exact ⟨t, l, m, rest, htodo, Nat.zero_le _⟩
    | succ n ih =>
      obtain ⟨u, l, m, rest, htodo, hn⟩ := ih
      obtain ⟨l', m', rest', htodo', t', h', hl⟩ :=
        waits_of_not_ready hno (t := u) (by rw [htodo]; exact List.cons_ne_nil _ _)
      cases htodo.symm.trans htodo'
      obtain ⟨l'', m'', rest'', hw, hlt⟩ := h.waits_higher hno hl
      exact ⟨t', l'', m'', rest'', hw, by omega⟩
  obtain ⟨-, l, -, -, -, hl⟩ := climb (top + 1)
  have := htop l
  omega

/-! ## What the guards exclude -/

/-- Guards of conflicting accesses never hold in two threads at once. -/
def Protects (D : Discipline L O) (o : O) : Prop :=
  ∀ m m' H H', (m = .write ∨ m' = .write) → D.guard o m H → D.guard o m' H' →
    ∃ l h h', (l, h) ∈ H ∧ (l, h') ∈ H' ∧ ¬ (h = .shared ∧ h' = .shared)

theorem Orderly.no_race (h : Orderly D s) {o : O} (hp : Protects D o) : ¬ Race s o := by
  rintro ⟨t, t', m, m', rest, rest', hne, ht, ht', hw⟩
  have hf := h.follows t
  have hf' := h.follows t'
  rw [ht] at hf
  rw [ht'] at hf'
  obtain ⟨l, x, x', hl, hl', hc⟩ := hp m m' _ _ hw hf.1 hf'.1
  exact hc (h.alone t t' l x x' hne hl hl')

/-- Behind a gate held exclusively there is nobody else. -/
theorem Orderly.sole (h : Orderly D s) {t' : T} (hg : (D.gate, .exclusive) ∈ (s t).held)
    (hne : t' ≠ t) : (s t').held = [] := by
  by_contra hheld
  obtain ⟨m, hm⟩ := h.gate t' hheld
  cases (h.alone t t' D.gate .exclusive m hne.symm hg hm).1

/-! ## Steps -/

theorem Follows.next {th : Thread L O} (h : Follows D th.held th.todo) :
    Follows D th.next.held th.next.todo := by
  unfold Thread.next
  split
  · exact h
  · rename_i l m rest heq
    rw [heq] at h
    exact h.2.2
  · rename_i l rest heq
    rw [heq] at h
    exact h.2
  · rename_i o m rest heq
    rw [heq] at h
    exact h.2

theorem Thread.held_next {th : Thread L O} {e : L × Hold} (he : e ∈ th.next.held) :
    e ∈ th.held ∨ ∃ rest, th.todo = .acquire e.1 e.2 :: rest := by
  unfold Thread.next at he
  split at he
  · exact Or.inl he
  · rename_i l h rest heq
    rcases List.mem_cons.mp he with rfl | he
    · exact Or.inr ⟨rest, heq⟩
    · exact Or.inl he
  · exact Or.inl (List.mem_of_mem_filter he)
  · exact Or.inl he

theorem Thread.gate_next {th : Thread L O} (hf : Follows D th.held th.todo)
    (hg : th.held ≠ [] → ∃ h, (D.gate, h) ∈ th.held) (hne : th.next.held ≠ []) :
    ∃ h, (D.gate, h) ∈ th.next.held := by
  unfold Thread.next at hne ⊢
  split at hne
  · exact hg hne
  · rename_i l h rest heq
    rw [heq] at hf
    by_cases hnil : th.held = []
    · exact ⟨h, List.mem_cons.mpr (Or.inl (by rw [hf.2.1 hnil]))⟩
    · obtain ⟨h', hh⟩ := hg hnil
      exact ⟨h', List.mem_cons_of_mem _ hh⟩
  · rename_i l rest heq
    rw [heq] at hf
    -- something is left, so it is not the gate that was given back
    obtain ⟨e, he⟩ := List.exists_mem_of_ne_nil _ hne
    obtain ⟨he, hel⟩ := List.mem_filter.mp he
    obtain ⟨h', hh⟩ := hg (List.ne_nil_of_mem he)
    refine ⟨h', List.mem_filter.mpr ⟨hh, decide_eq_true fun hl => ?_⟩⟩
    exact of_decide_eq_true hel (hf.1 hl.symm e he)
  · exact hg hne

variable [DecidableEq T]

theorem step_eq (hs : step s t = some s') : Enabled s t ∧ s' = Function.update s t (s t).next := by
  unfold step at hs
  split at hs
  · rename_i he
    exact ⟨he, (Option.some.inj hs).symm⟩
  · cases hs

theorem step_acquire {H : Held L} {l : L} {m : Hold} {rest : List (Event L O)}
    (hown : ∀ m', (l, m') ∉ H) (hopen : ∀ u m', (l, m') ∈ (s u).held → m = .shared ∧ m' = .shared) :
    RwLocks.step (Function.update s t ⟨H, .acquire l m :: rest⟩) t =
      some (Function.update s t ⟨(l, m) :: H, rest⟩) := by
  have he : Enabled (Function.update s t ⟨H, .acquire l m :: rest⟩) t := by
    unfold Enabled
    rw [Function.update_self]
    intro u m' hu
    by_cases hut : u = t
    · subst hut
      rw [Function.update_self] at hu
      exact absurd hu (hown m')
    · rw [Function.update_of_ne hut] at hu
      exact hopen u m' hu
  unfold RwLocks.step
  rw [if_pos he, Function.update_idem, Function.update_self]
  rfl

theorem step_access {H : Held L} {o : O} {m : Mode} {rest : List (Event L O)} :
    RwLocks.step (Function.update s t ⟨H, .access o m :: rest⟩) t =
      some (Function.update s t ⟨H, rest⟩) := by
  have he : Enabled (Function.update s t ⟨H, .access o m :: rest⟩) t := by
    unfold Enabled
    rw [Function.update_self]
    trivial
  unfold RwLocks.step
  rw [if_pos he, Function.update_idem, Function.update_self]
  rfl

theorem Orderly.step (h : Orderly D s) (hs : step s t = some s') : Orderly D s' := by
  obtain ⟨he, rfl⟩ := step_eq hs
  -- a lock taken now was open to all others
  have hnew : ∀ l m, (l, m) ∈ (s t).next.held → ∀ t' m', t' ≠ t → (l, m') ∈ (s t').held →
    m = .shared ∧ m' = .shared := by
    intro l m hl t' m' hne hl'
    rcases Thread.held_next hl with hold | ⟨rest, htodo⟩
    · exact h.alone t t' l m m' hne.symm hold hl'
    · unfold Enabled at he
      rw [htodo] at he
      exact he t' m' hl'
  refine ⟨fun u => ?_, fun u v l m m' hne hl hl' => ?_, fun u hu => ?_⟩
  · by_cases hu : u = t
    · subst hu
      rw [Function.update_self]
      exact (h.follows u).next
    · rw [Function.update_of_ne hu]
      exact h.follows u
  · by_cases hu : u = t
    · subst hu
      rw [Function.update_self] at hl
      rw [Function.update_of_ne hne.symm] at hl'
      exact hnew l m hl v m' hne.symm hl'
    · rw [Function.update_of_ne hu] at hl
      by_cases hv : v = t
      · subst hv
        rw [Function.update_self] at hl'
        exact (hnew l m' hl' u m hne hl).symm
      · rw [Function.update_of_ne hv] at hl'
        exact h.alone u v l m m' hne hl hl'
  · by_cases hut : u = t
    · subst hut
      rw [Function.update_self] at hu ⊢
      exact Thread.gate_next (h.follows u) (h.gate u) hu
    · rw [Function.update_of_ne hut] at hu ⊢
      exact h.gate u hu

def remaining [Fintype T] (s : T → Thread L O) : Nat := ∑ t, (s t).todo.length

theorem remaining_step [Fintype T] (hs : step s t = some s') : remaining s' + 1 = remaining s := by
  obtain ⟨he, rfl⟩ := step_eq hs
  have hlen : (s t).next.todo.length + 1 = (s t).todo.length := by
    unfold Enabled at he
    unfold Thread.next
    split at he
    · exact he.elim
    · rename_i heq
      simp only [heq, List.length_cons]
    · rename_i hnil hacq
      cases htodo : (s t).todo with
      | nil => exact absurd htodo hnil
      | cons e rest =>
        cases e with
        | acquire l m => exact absurd htodo (hacq l m rest)
        | release l => simp only [List.length_cons]
        | access o m => simp only [List.length_cons]
  have hrest : ∑ u ∈ Finset.univ.erase t, (Function.update s t (s t).next u).todo.length =
      ∑ u ∈ Finset.univ.erase t, (s u).todo.length :=
    Finset.sum_congr rfl fun u hu => by rw [Function.update_of_ne (Finset.ne_of_mem_erase hu)]
  unfold remaining
  rw [← Finset.add_sum_erase _ _ (Finset.mem_univ t),
    ← Finset.add_sum_erase Finset.univ (fun u => (s u).todo.length) (Finset.mem_univ t),
    hrest, Function.update_self]
  omega

/-- From every orderly state all threads can run to their end. -/
theorem Orderly.completes [Fintype T] {top : Nat} (htop : ∀ l, D.rank l ≤ top) :
    ∀ (n : Nat) {s : T → Thread L O}, Orderly D s →
    remaining s = n → ∃ schedule s', Runs.run RwLocks.step schedule s = some s' ∧
      ∀ t, (s' t).todo = [] := by
  intro n
  induction n with
  | zero =>
    intro s _ hz
    refine ⟨[], s, rfl, fun t => ?_⟩
    rw [← List.length_eq_zero_iff]
    exact Finset.sum_eq_zero_iff.mp hz t (Finset.mem_univ t)
  | succ n ih =>
    intro s h hn
    have hne : ∃ t, (s t).todo ≠ [] := by
      by_contra hno
      push Not at hno
      unfold remaining at hn
      rw [Finset.sum_eq_zero fun t _ => by rw [hno t, List.length_nil]] at hn
      omega
    obtain ⟨t, ht⟩ := hne
    obtain ⟨u, hu, -⟩ := h.exists_ready htop ht
    have hs : RwLocks.step s u = some (Function.update s u (s u).next) := if_pos hu
    obtain ⟨schedule, s', hrun, hdone⟩ := ih (h.step hs) (by have := remaining_step hs; omega)
    refine ⟨u :: schedule, s', ?_, hdone⟩
    rw [Runs.run, hs]
    exact hrun

end

/-! ## Triples -/

section

open RegularExpression

/-- Whatever events the code makes, a thread that holds `H` before it holds `H'` after it. -/
def Takes [DecidableEq L] (D : Discipline L O) (H : Held L) (r : RegularExpression (Event L O))
    (H' : Held L) : Prop :=
  ∀ w ∈ r.matches', ∀ rest, Follows D H' rest → Follows D H (w ++ rest)

variable [DecidableEq L] {D : Discipline L O} {H H₁ H₂ : Held L}
  {p q : RegularExpression (Event L O)} {l : L} {o : O} {m : Mode}

theorem takes_one : Takes D H 1 H := by
  intro w hw rest h
  rw [matches'_epsilon, Language.mem_one] at hw
  subst hw
  exact h

theorem takes_mul (hp : Takes D H p H₁) (hq : Takes D H₁ q H₂) : Takes D H (p * q) H₂ := by
  intro w hw rest h
  rw [matches'_mul, Language.mem_mul] at hw
  obtain ⟨a, ha, b, hb, rfl⟩ := hw
  rw [List.append_assoc]
  exact hp a ha _ (hq b hb rest h)

theorem takes_add (hp : Takes D H p H₁) (hq : Takes D H q H₁) : Takes D H (p + q) H₁ := by
  intro w hw
  rw [matches'_add, Language.mem_add] at hw
  rcases hw with hw | hw
  · exact hp w hw
  · exact hq w hw

theorem takes_star (hp : Takes D H p H) : Takes D H p.star H := by
  intro w hw rest h
  rw [matches'_star, Language.mem_kstar] at hw
  obtain ⟨ws, rfl, hws⟩ := hw
  induction ws with
  | nil => exact h
  | cons a ws ih =>
    rw [List.flatten_cons, List.append_assoc]
    exact hp a (hws a List.mem_cons_self) _ (ih fun y hy => hws y (List.mem_cons_of_mem _ hy))

theorem takes_access (hg : D.guard o m H) : Takes D H (char (.access o m)) H := by
  intro w hw rest h
  cases hw
  exact ⟨hg, h⟩

/-- A scoped lock: taken, and given back when the scope is left. -/
def locked (l : L) (h : Hold) (r : RegularExpression (Event L O)) : RegularExpression (Event L O) :=
  char (.acquire l h) * r * char (.release l)

omit [DecidableEq L] in
theorem mem_locked {x : Hold} {r : RegularExpression (Event L O)} {w : List (Event L O)}
    (hw : w ∈ r.matches') :
    .acquire l x :: w ++ [.release l] ∈ (locked l x r).matches' :=
  Language.append_mem_mul (Language.append_mem_mul (Set.mem_singleton _) hw) (Set.mem_singleton _)

theorem takes_acquire {x : Hold} (hrank : ∀ e ∈ H, D.rank e.1 < D.rank l)
    (hgate : H = [] → l = D.gate) :
    Takes D H (char (.acquire l x)) ((l, x) :: H) := by
  intro w hw rest h
  cases hw
  exact ⟨hrank, hgate, h⟩

theorem takes_release {x : Hold} (hrank : ∀ e ∈ H, D.rank e.1 < D.rank l)
    (hgate : l = D.gate → H = []) :
    Takes D ((l, x) :: H) (char (.release l)) H := by
  intro w hw rest h
  cases hw
  have hkeep : H.filter (fun e => e.1 ≠ l) = H := by
    refine List.filter_eq_self.mpr fun e he => decide_eq_true fun hel => ?_
    have := hrank e he
    rw [hel] at this
    exact Nat.lt_irrefl _ this
  refine ⟨fun hl e he => ?_, ?_⟩
  · rw [hgate hl, List.mem_singleton] at he
    rw [he]
  · have hdrop : List.filter (fun e : L × Hold => e.1 ≠ l) ((l, x) :: H) = H := by
      rw [List.filter_cons_of_neg (by simp), hkeep]
    change Follows D (List.filter _ _) rest
    rw [hdrop]
    exact h

theorem takes_locked {x : Hold} (hrank : ∀ e ∈ H, D.rank e.1 < D.rank l)
    (hgate : H = [] ↔ l = D.gate) (hp : Takes D ((l, x) :: H) p ((l, x) :: H)) :
    Takes D H (locked l x p) H :=
  takes_mul (takes_mul (takes_acquire hrank hgate.mp) hp) (takes_release hrank hgate.mpr)

theorem takes_prod {ps : List (RegularExpression (Event L O))} (h : ∀ p ∈ ps, Takes D H p H) :
    Takes D H ps.prod H := by
  induction ps with
  | nil => exact takes_one
  | cons p ps ih =>
    rw [List.prod_cons]
    exact takes_mul (h p List.mem_cons_self) (ih fun q hq => h q (List.mem_cons_of_mem _ hq))

theorem Takes.follows (hp : Takes D [] p []) {w : List (Event L O)} (hw : w ∈ p.matches') :
    Follows D [] w := by
  have := hp w hw [] rfl
  rwa [List.append_nil] at this

end

end RwLocks
