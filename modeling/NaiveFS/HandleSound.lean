import NaiveFS.Operation
import NaiveFS.Lib.Runs

/-!
# The open files of `OpManager`

An inode has an entry exactly while handles are open on it, the entry's counter is
their number and its list holds them. Operations on attributes take a reference
for a moment; the accounts are kept with at most one such reference outstanding.
The counter is a `uint32_t`.
-/

namespace NaiveFS

open Linked

namespace Mount

def openOn (m : Mount) (i : Nat) : List Nat :=
  (m.handles.filter fun e => e.2.inode = i).map Prod.fst

def cells (m : Mount) (i : Nat) : List (Nat × Nat) :=
  (m.handles.filter fun e => e.2.inode = i).map fun e => (e.2.fslistPtr, e.1)

def addrs (m : Mount) (i : Nat) (c : InodeCache) : List Nat := c.vec :: (m.cells i).map Prod.fst

/-- The users of an inode: its handles and a reference held for a moment. -/
def users (m : Mount) (held : Option Nat) (i : Nat) : Nat :=
  (m.cells i).length + if held = some i then 1 else 0

structure Accounts (held : Option Nat) (m : Mount) : Prop where
  fhs : (m.handles.map Prod.fst).Nodup
  unused : ∀ e ∈ m.handles, e.1 < m.nextHandle
  idle : ∀ {i}, m.opm i = none → m.users held i = 0
  busy : ∀ {i c}, m.opm i = some c → 0 < m.users held i ∧ m.users held i ≤ 2 ^ 32 ∧
    c.cnts = u32 (m.users held i)
  listed : ∀ {i c}, m.opm i = some c → ∃ l, Listed m.lists c.vec l ∧ l.Perm (m.cells i)
  own : ∀ e ∈ m.handles, ∀ {c}, m.opm e.2.inode = some c → c.vec = e.2.inodeCache
  below : ∀ {i c}, m.opm i = some c → ∀ a ∈ m.addrs i c, a < m.nextCell
  apart : ∀ {i j c d}, i ≠ j → m.opm i = some c → m.opm j = some d →
    ∀ a ∈ m.addrs i c, a ∉ m.addrs j d

/-! ## The parts of an operation -/

variable {m m' : Mount} {held : Option Nat} {id fh i mode : Nat} {c : InodeCache} {ctx : Context}
  {fs : FS} {path : Path}

theorem Accounts.withFs (h : Accounts held m) (fs : FS) : Accounts held { m with fs := fs } :=
  ⟨h.fhs, h.unused, h.idle, h.busy, h.listed, h.own, h.below, h.apart⟩

theorem commit_eq (id : Nat) (ino : ListInode) (m : Mount) :
    ∃ fs, m.commit id ino = { m with fs := fs } := by
  unfold commit
  cases m.fs.groups.getInode id with
  | none => exact ⟨m.fs, rfl⟩
  | some i => exact ⟨_, rfl⟩

theorem Accounts.withOpm (h : Accounts held m) {opm : Nat → Option InodeCache}
    (hopm : ∀ i, (opm i).map (fun c => (c.cnts, c.vec)) = (m.opm i).map fun c => (c.cnts, c.vec)) :
    Accounts held { m with opm := opm } := by
  have hnone : ∀ {i}, opm i = none → m.opm i = none := by
    intro i hi
    have := hopm i
    rw [hi] at this
    simpa [eq_comm] using this
  have hsome : ∀ {i c}, opm i = some c → ∃ d, m.opm i = some d ∧ d.cnts = c.cnts ∧
    d.vec = c.vec := by
    intro i c hi
    have := hopm i
    rw [hi] at this
    simpa [eq_comm] using this
  refine ⟨h.fhs, h.unused, fun hi => h.idle (hnone hi), fun hi => ?_, fun hi => ?_,
    fun e he c hi => ?_, fun hi => ?_, fun hij hi hj => ?_⟩
  · obtain ⟨d, hd, hc, -⟩ := hsome hi
    rw [← hc]
    exact h.busy hd
  · obtain ⟨d, hd, -, hv⟩ := hsome hi
    rw [← hv]
    exact h.listed hd
  · obtain ⟨d, hd, -, hv⟩ := hsome hi
    rw [← hv]
    exact h.own e he hd
  · obtain ⟨d, hd, -, hv⟩ := hsome hi
    unfold addrs
    rw [← hv]
    exact h.below hd
  · obtain ⟨d, hd, -, hv⟩ := hsome hi
    obtain ⟨d', hd', -, hv'⟩ := hsome hj
    unfold addrs
    rw [← hv, ← hv']
    exact h.apart hij hd hd'

theorem Accounts.updateCache (h : Accounts held m) (hc : m.opm id = some c)
    (f : ListInode → ListInode) :
    Accounts held (m.updateCache id c f) := by
  unfold Mount.updateCache
  obtain ⟨fs, hfs⟩ :=
    commit_eq id (f c.cache)
    { m with opm := Function.update m.opm id (some { c with cache := f c.cache }) }
  simp only [hfs]
  have hopm : Accounts held
    { m with opm := Function.update m.opm id (some { c with cache := f c.cache }) } := by
    apply h.withOpm
    intro i
    by_cases hi : i = id
    · subst hi
      simp [hc]
    · rw [Function.update_of_ne hi]
  exact hopm.withFs fs

theorem users_none (m : Mount) (i : Nat) : m.users none i = (m.cells i).length := by simp [users]

theorem users_held (m : Mount) (i : Nat) : m.users (some i) i = (m.cells i).length + 1 :=
  by simp [users]

/-- What a change around inode `id` has to respect. -/
structure Around (id : Nat) (m m' : Mount) : Prop where
  opm : ∀ i, i ≠ id → m'.opm i = m.opm i
  cells : ∀ i, i ≠ id → m'.cells i = m.cells i
  handles : ∀ e ∈ m'.handles, e.2.inode ≠ id → e ∈ m.handles
  lists : ∀ i c, i ≠ id → m.opm i = some c → ∀ a ∈ m.addrs i c, m'.lists a = m.lists a
  cell : m.nextCell ≤ m'.nextCell

/-- The accounts of `id` itself after the change. -/
structure Settled (held : Option Nat) (id : Nat) (m m' : Mount) (c : InodeCache) : Prop where
  opm : m'.opm id = some c
  pos : 0 < m'.users held id
  le : m'.users held id ≤ 2 ^ 32
  cnts : c.cnts = u32 (m'.users held id)
  listed : ∃ l, Listed m'.lists c.vec l ∧ l.Perm (m'.cells id)
  own : ∀ e ∈ m'.handles, e.2.inode = id → c.vec = e.2.inodeCache
  below : ∀ a ∈ m'.addrs id c, a < m'.nextCell
  source : ∀ a ∈ m'.addrs id c, m.nextCell ≤ a ∨ ∃ d, m.opm id = some d ∧ a ∈ m.addrs id d

theorem Accounts.change {held' : Option Nat} (h : Accounts held m) (har : Around id m m')
    (hheld : ∀ i, i ≠ id → (held' = some i ↔ held = some i))
    (hfhs : (m'.handles.map Prod.fst).Nodup) (hunused : ∀ e ∈ m'.handles, e.1 < m'.nextHandle)
    (hid : m'.opm id = none ∧ m'.users held' id = 0 ∨ ∃ c, Settled held' id m m' c) :
    Accounts held' m' := by
  have husers : ∀ {i}, i ≠ id → m'.users held' i = m.users held i := by
    intro i hi
    simp only [users, har.cells i hi, hheld i hi]
  have haddrs : ∀ {i d}, i ≠ id → m'.addrs i d = m.addrs i d := by
    intro i d hi
    simp only [addrs, har.cells i hi]
  -- what is known of `id` when it has an entry
  have hset : ∀ {c}, m'.opm id = some c → Settled held' id m m' c := by
    intro c hc
    rcases hid with ⟨hnone, -⟩ | ⟨d, hd⟩
    · simp [hnone] at hc
    · cases hc.symm.trans hd.opm
      exact hd
  have hapart : ∀ {i c d}, i ≠ id → m'.opm i = some c → m'.opm id = some d →
    ∀ a ∈ m'.addrs i c, a ∉ m'.addrs id d := by
    intro i c d hi hc hd a ha hmem
    rw [har.opm i hi] at hc
    rw [haddrs hi] at ha
    rcases (hset hd).source a hmem with hge | ⟨d', hd', hmem'⟩
    · exact absurd (h.below hc a ha) (Nat.not_lt.mpr hge)
    · exact h.apart hi hc hd' a ha hmem'
  refine ⟨hfhs, hunused, fun {i} hi => ?_, fun {i c} hi => ?_, fun {i c} hi => ?_,
    fun e he {c} hc => ?_, fun {i c} hi a ha => ?_, fun {i j c d} hij hi hj a ha => ?_⟩
  · by_cases hii : i = id
    · subst hii
      rcases hid with ⟨-, hz⟩ | ⟨d, hd⟩
      · exact hz
      · simp [hd.opm] at hi
    · rw [har.opm i hii] at hi
      rw [husers hii]
      exact h.idle hi
  · by_cases hii : i = id
    · subst hii
      have hs := hset hi
      exact ⟨hs.pos, hs.le, hs.cnts⟩
    · rw [har.opm i hii] at hi
      rw [husers hii]
      exact h.busy hi
  · by_cases hii : i = id
    · subst hii
      exact (hset hi).listed
    · rw [har.opm i hii] at hi
      obtain ⟨l, hl, hperm⟩ := h.listed hi
      refine ⟨l, hl.congr fun a ha => har.lists i c hii hi a ?_, by rwa [har.cells i hii]⟩
      exact ((hperm.map Prod.fst).cons c.vec).mem_iff.mp ha
  · by_cases hei : e.2.inode = id
    · rw [hei] at hc
      exact (hset hc).own e he hei
    · rw [har.opm _ hei] at hc
      exact h.own e (har.handles e he hei) hc
  · by_cases hii : i = id
    · subst hii
      exact (hset hi).below a ha
    · rw [har.opm i hii] at hi
      rw [haddrs hii] at ha
      exact Nat.lt_of_lt_of_le (h.below hi a ha) har.cell
  · by_cases hii : i = id
    · subst hii
      exact fun hmem => hapart (Ne.symm hij) hj hi a hmem ha
    · by_cases hji : j = id
      · subst hji
        exact hapart hii hi hj a ha
      · rw [har.opm i hii] at hi
        rw [har.opm j hji] at hj
        rw [haddrs hii] at ha
        rw [haddrs hji]
        exact h.apart hij hi hj a ha

theorem u32_succ (n : Nat) : u32 (u32 n + 1) = u32 (n + 1) := by
  unfold u32
  omega

theorem held_other (i : Nat) (hi : i ≠ id) : (some id = some i ↔ (none : Option Nat) = some i) :=
  by simp [Ne.symm hi]

theorem Accounts.getCache (h : Accounts none m) (hfew : (m.cells id).length < 2 ^ 32)
    (hget : m.getCache id = some (c, m')) :
    Accounts (some id) m' ∧ m'.opm id = some c := by
  unfold Mount.getCache at hget
  cases hid : m.opm id with
  | some d =>
    simp only [hid, Option.some.injEq, Prod.mk.injEq] at hget
    obtain ⟨hc, rfl⟩ := hget
    obtain ⟨-, -, hcnt⟩ := h.busy hid
    rw [users_none] at hcnt
    have hvec : c.vec = d.vec := by rw [← hc]
    have hopm : Function.update m.opm id (some { d with cnts := u32 (d.cnts + 1) }) id =
      some c := by
      rw [Function.update_self, hc]
    refine ⟨h.change ?_ held_other h.fhs h.unused (Or.inr ⟨c, hopm, ?_, ?_, ?_, ?_, ?_, ?_, ?_⟩),
      hopm⟩
    · exact ⟨fun i hi => Function.update_of_ne hi .., fun _ _ => rfl, fun _ he _ => he,
        fun _ _ _ _ _ _ => rfl, Nat.le_refl _⟩
    · rw [users_held]
      exact Nat.succ_pos _
    · rw [users_held]
      exact hfew
    · rw [users_held, ← hc]
      show u32 (d.cnts + 1) = _
      rw [hcnt]
      exact u32_succ _
    · rw [hvec]
      exact h.listed hid
    · intro e he hei
      rw [hvec]
      exact h.own e he (by rw [hei]; exact hid)
    · unfold addrs
      rw [hvec]
      exact h.below hid
    · intro a ha
      unfold addrs at ha
      rw [hvec] at ha
      exact Or.inr ⟨d, hid, ha⟩
  | none =>
    have hz := h.idle hid
    rw [users_none, List.length_eq_zero_iff] at hz
    cases hg : m.fs.groups.getInode id with
    | none => simp [hid, hg] at hget
    | some i =>
      simp only [hid, hg, Option.some.injEq, Prod.mk.injEq] at hget
      obtain ⟨hc, rfl⟩ := hget
      have hvec : c.vec = m.nextCell := by rw [← hc]
      have hopm : Function.update m.opm id
        (some { cnts := 1, cache := m.fs.inodes i, vec := m.nextCell }) id = some c := by
        rw [Function.update_self, hc]
      have hnone : ∀ e ∈ m.handles, e.2.inode ≠ id := by
        intro e he hei
        have : (e.2.fslistPtr, e.1) ∈ m.cells id :=
          List.mem_map.mpr ⟨e, by simpa using ⟨he, hei⟩, rfl⟩
        simp [hz] at this
      have haddrs : ∀ a ∈ c.vec :: (m.cells id).map Prod.fst, a = m.nextCell := by
        intro a ha
        simpa [hz, hvec] using ha
      refine ⟨h.change ?_ held_other h.fhs h.unused (Or.inr ⟨c, hopm, ?_, ?_, ?_, ?_, ?_, ?_, ?_⟩),
        hopm⟩
      · refine ⟨fun i hi => Function.update_of_ne hi .., fun _ _ => rfl, fun _ he _ => he,
          fun i c hi hc a ha => ?_, Nat.le_succ _⟩
        apply Function.update_of_ne
        exact Nat.ne_of_lt (h.below hc a ha)
      · rw [users_held]
        exact Nat.succ_pos _
      · rw [users_held]
        exact hfew
      · rw [users_held, ← hc]
        show 1 = u32 ((m.cells id).length + 1)
        rw [hz]
        rfl
      · refine ⟨[], ?_, ?_⟩
        · rw [hvec]
          exact FSList.make_listed ..
        · show List.Perm [] (m.cells id)
          rw [hz]
      · exact fun e he hei => absurd hei (hnone e he)
      · intro a ha
        rw [haddrs a ha]
        exact Nat.lt_succ_self _
      · intro a ha
        rw [haddrs a ha]
        exact Or.inl (Nat.le_refl _)

theorem Accounts.relCache (h : Accounts (some id) m) :
    ∃ m', m.relCache id = some m' ∧ Accounts none m' ∧ m'.handles = m.handles := by
  unfold Mount.relCache
  cases hid : m.opm id with
  | none =>
    have hz := h.idle hid
    rw [users_held] at hz
    exact absurd hz (Nat.succ_ne_zero _)
  | some c =>
    obtain ⟨-, hle, hcnt⟩ := h.busy hid
    rw [users_held] at hle hcnt
    have hdec : sub32 c.cnts 1 = (m.cells id).length := by
      rw [hcnt]
      unfold sub32 u32
      omega
    have hheld : ∀ i, i ≠ id → ((none : Option Nat) = some i ↔ some id = some i) :=
      fun i hi => (held_other i hi).symm
    simp only [hdec]
    by_cases hlast : (m.cells id).length = 0
    · -- the last user: the list is empty
      rw [if_pos hlast]
      obtain ⟨l, hl, hperm⟩ := h.listed hid
      have hnil : l = [] := by
        rw [List.length_eq_zero_iff.mp hlast] at hperm
        exact hperm.eq_nil
      subst hnil
      have hpos : 0 < m.nextCell :=
        Nat.lt_of_le_of_lt (Nat.zero_le _) (h.below hid c.vec List.mem_cons_self)
      obtain ⟨fs, hfs⟩ := commit_eq id c.cache m
      simp only [hfs, FSList.delete_nil hl hpos, Option.map_some]
      refine ⟨_, rfl, h.change ?_ hheld h.fhs h.unused (Or.inl ⟨Function.update_self .., ?_⟩), rfl⟩
      · refine ⟨fun i hi => Function.update_of_ne hi .., fun _ _ => rfl, fun _ he _ => he,
          fun i d hi hd a ha => ?_, Nat.le_refl _⟩
        apply Function.update_of_ne
        rintro rfl
        exact h.apart (Ne.symm hi) hid hd _ List.mem_cons_self ha
      · rw [users_none]
        exact hlast
    · rw [if_neg hlast]
      have hlisted := h.listed hid
      have hbelow := h.below hid
      refine ⟨_, rfl, h.change ?_ hheld h.fhs h.unused (Or.inr ⟨_, Function.update_self .., ?_, ?_,
        ?_, hlisted, ?_, hbelow, ?_⟩), rfl⟩
      · exact ⟨fun i hi => Function.update_of_ne hi .., fun _ _ => rfl, fun _ he _ => he,
          fun _ _ _ _ _ _ => rfl, Nat.le_refl _⟩
      · rw [users_none]
        exact Nat.pos_of_ne_zero hlast
      · rw [users_none]
        show (m.cells id).length ≤ _
        omega
      · rw [users_none]
        exact (u32_of_lt (show (m.cells id).length < 2 ^ 32 by omega)).symm
      · intro e he hei
        exact h.own e he (c := c) (by rw [hei]; exact hid)
      · exact fun a ha => Or.inr ⟨c, hid, ha⟩

theorem cells_cons_self (m : Mount) (fh : Nat) (fd : Handle) (n k : Nat) (lists : FSHeap) :
    ({ m with handles := (fh, fd) :: m.handles, nextHandle := n, lists := lists, nextCell := k } :
      Mount).cells fd.inode =
      (fd.fslistPtr, fh) :: m.cells fd.inode := by
  simp [cells]

theorem cells_cons_ne (m : Mount) (fh : Nat) (fd : Handle) (n k : Nat) (lists : FSHeap)
    (hi : i ≠ fd.inode) :
    ({ m with handles := (fh, fd) :: m.handles, nextHandle := n, lists := lists, nextCell := k } :
      Mount).cells i = m.cells i := by
  simp [cells, Ne.symm hi]

theorem Accounts.addHandle (h : Accounts (some id) m) (hid : m.opm id = some c) :
    ∃ m', m.addHandle id c = some m' ∧ Accounts none m' ∧ m'.opm = m.opm := by
  obtain ⟨l, hl, hperm⟩ := h.listed hid
  have hmem : ∀ a, a ∈ c.vec :: l.map Prod.fst ↔ a ∈ m.addrs id c :=
    fun a => ((hperm.map Prod.fst).cons c.vec).mem_iff
  have hnew : m.nextCell ∉ c.vec :: l.map Prod.fst := by
    intro ha
    exact Nat.lt_irrefl _ (h.below hid _ ((hmem _).mp ha))
  obtain ⟨lists, hins, hl', hframe⟩ := FSList.ins_spec hl hnew m.nextHandle
  unfold Mount.addHandle
  simp only [hins, Option.map_some]
  have hself := cells_cons_self m m.nextHandle ⟨id, c.vec, m.nextCell,
    true⟩ (m.nextHandle + 1) (m.nextCell + 1) lists
  have hother := fun {i} => @cells_cons_ne i m m.nextHandle ⟨id, c.vec, m.nextCell,
    true⟩ (m.nextHandle + 1) (m.nextCell + 1) lists
  obtain ⟨hpos, hle, hcnt⟩ := h.busy hid
  have husers : m.users (some id) id = (m.cells id).length + 1 := users_held m id
  rw [husers] at hle hcnt
  refine ⟨_, rfl, h.change ?_ (fun i hi => (held_other i hi).symm) ?_ ?_ (Or.inr ⟨c, hid, ?_, ?_,
    ?_, ?_, ?_, ?_, ?_⟩), rfl⟩
  · refine ⟨fun _ _ => rfl, fun i hi => hother hi, fun e he hei => ?_, fun i d hi hd a ha => ?_,
      Nat.le_succ _⟩
    · rcases List.mem_cons.mp he with rfl | he
      · exact absurd rfl hei
      · exact he
    · apply hframe
      · exact Nat.ne_of_lt (h.below hd a ha)
      · intro hmem'
        exact h.apart hi hd hid a ha ((hmem a).mp hmem')
  · rw [List.map_cons, List.nodup_cons]
    refine ⟨fun hm => ?_, h.fhs⟩
    obtain ⟨e, he, heq⟩ := List.mem_map.mp hm
    exact Nat.ne_of_lt (h.unused e he) heq
  · intro e he
    rcases List.mem_cons.mp he with rfl | he
    · exact Nat.lt_succ_self _
    · exact Nat.lt_succ_of_lt (h.unused e he)
  · rw [users_none, hself]
    exact Nat.succ_pos _
  · rw [users_none, hself]
    exact hle
  · rw [users_none, hself]
    exact hcnt
  · refine ⟨_, hl', ?_⟩
    rw [hself]
    exact hperm.cons _
  · intro e he hei
    rcases List.mem_cons.mp he with rfl | he
    · rfl
    · exact h.own e he (by rw [hei]; exact hid)
  · intro a ha
    unfold addrs at ha
    rw [hself, List.map_cons] at ha
    rcases List.mem_cons.mp ha with rfl | ha
    · exact Nat.lt_succ_of_lt (h.below hid _ List.mem_cons_self)
    · rcases List.mem_cons.mp ha with rfl | ha
      · exact Nat.lt_succ_self _
      · exact Nat.lt_succ_of_lt (h.below hid _ (List.mem_cons_of_mem _ ha))
  · intro a ha
    unfold addrs at ha
    rw [hself, List.map_cons] at ha
    rcases List.mem_cons.mp ha with rfl | ha
    · exact Or.inr ⟨c, hid, List.mem_cons_self⟩
    · rcases List.mem_cons.mp ha with rfl | ha
      · exact Or.inl (Nat.le_refl _)
      · exact Or.inr ⟨c, hid, List.mem_cons_of_mem _ ha⟩

theorem handles_split {fd : Handle} (hfh : m.handles.lookup fh = some fd) :
    ∃ l₁ l₂, m.handles = l₁ ++ (fh, fd) :: l₂ ∧ (m.handles.eraseP fun e => e.1 = fh) =
      l₁ ++ l₂ := by
  obtain ⟨l₁, l₂, hsplit, hno⟩ := List.lookup_eq_some_iff.mp hfh
  refine ⟨l₁, l₂, hsplit, ?_⟩
  rw [hsplit, List.eraseP_append_right]
  · simp
  · intro e he heq
    have := hno e he
    simp [of_decide_eq_true heq] at this

/-- The destructor of a handle: its reference stays for the `rel_cache` that follows. -/
theorem Accounts.dropHandle (h : Accounts none m) {fd : Handle}
    (hfh : m.handles.lookup fh = some fd) :
    ∃ c lists, m.cacheOf fd = some c ∧ FSList.del fd.fslistPtr m.lists = some lists ∧
      Accounts (some fd.inode)
      { m with handles := m.handles.eraseP fun e => e.1 = fh, lists := lists } := by
  obtain ⟨l₁, l₂, hsplit, herase⟩ := handles_split hfh
  have hfd : (fh, fd) ∈ m.handles := by simp [hsplit]
  -- the cells of the inode before and after
  obtain ⟨A, hA⟩ : ∃ A, A = (l₁.filter fun e => e.2.inode = fd.inode).map fun e =>
    (e.2.fslistPtr, e.1) := ⟨_, rfl⟩
  obtain ⟨B, hB⟩ : ∃ B, B = (l₂.filter fun e => e.2.inode = fd.inode).map fun e =>
    (e.2.fslistPtr, e.1) := ⟨_, rfl⟩
  have hcells : m.cells fd.inode = A ++ (fd.fslistPtr, fh) :: B := by simp [cells, hsplit, hA, hB]
  have hcells' : ∀ lists,
    ({ m with handles := m.handles.eraseP fun e => e.1 = fh, lists := lists } : Mount).cells
    fd.inode =
      A ++ B := by
    intro lists
    simp [cells, herase, hA, hB]
  have hother : ∀ lists i, i ≠ fd.inode →
      ({ m with handles := m.handles.eraseP fun e => e.1 = fh, lists := lists } : Mount).cells i =
      m.cells i := by
    intro lists i hi
    simp only [cells, herase]
    simp [hsplit, Ne.symm hi]
  have hsub : ∀ e ∈ m.handles.eraseP (fun e => e.1 = fh), e ∈ m.handles :=
    fun e he => List.mem_of_mem_eraseP he
  cases hid : m.opm fd.inode with
  | none =>
    have hz := h.idle hid
    rw [users_none, hcells] at hz
    simp at hz
  | some c =>
    obtain ⟨l, hl, hperm⟩ := h.listed hid
    rw [hcells] at hperm
    have hmem : ∀ a, a ∈ c.vec :: l.map Prod.fst ↔ a ∈ m.addrs fd.inode c := by
      intro a
      rw [addrs, hcells]
      exact ((hperm.map Prod.fst).cons c.vec).mem_iff
    obtain ⟨k₁, k₂, rfl⟩ :=
      List.append_of_mem (hperm.mem_iff.mpr (show (fd.fslistPtr, fh) ∈ _ by simp))
    obtain ⟨lists, hdel, hl', -, hframe⟩ := FSList.del_spec hl
    have hperm' : (k₁ ++ k₂).Perm (A ++ B) :=
      (List.perm_middle.symm.trans (hperm.trans List.perm_middle)).cons_inv
    have haddrs : ∀ a ∈ c.vec :: (A ++ B).map Prod.fst, a ∈ m.addrs fd.inode c := by
      intro a ha
      rw [addrs, hcells]
      rcases List.mem_cons.mp ha with rfl | ha
      · exact List.mem_cons_self
      · apply List.mem_cons_of_mem
        simp only [List.map_append, List.map_cons, List.mem_append, List.mem_cons] at ha ⊢
        exact ha.imp_right Or.inr
    obtain ⟨hpos, hle, hcnt⟩ := h.busy hid
    have hlen : m.users none fd.inode = (A ++ B).length + 1 := by
      rw [users_none, hcells]
      simp only [List.length_append, List.length_cons]
      omega
    rw [hlen] at hle hcnt
    refine ⟨c, lists, by simp [cacheOf, hid, h.own _ hfd hid], hdel,
      h.change ?_ (fun i hi => held_other i hi) ?_ ?_ (Or.inr ⟨c, hid, ?_, ?_, ?_, ⟨_, hl', ?_⟩,
      ?_, ?_, ?_⟩)⟩
    · refine ⟨fun _ _ => rfl, hother lists, fun e he _ => hsub e he, fun i d hi hd a ha => ?_,
        Nat.le_refl _⟩
      apply hframe
      intro ha'
      exact h.apart hi hd hid a ha ((hmem a).mp ha')
    · exact h.fhs.sublist (List.eraseP_sublist.map _)
    · exact fun e he => h.unused e (hsub e he)
    · rw [users_held]
      exact Nat.succ_pos _
    · rw [users_held, hcells']
      exact hle
    · rw [users_held, hcells']
      exact hcnt
    · rw [hcells']
      exact hperm'
    · exact fun e he hei => h.own e (hsub e he) (by rw [hei]; exact hid)
    · intro a ha
      rw [addrs, hcells'] at ha
      exact h.below hid a (haddrs a ha)
    · intro a ha
      rw [addrs, hcells'] at ha
      exact Or.inr ⟨c, hid, haddrs a ha⟩

/-! ## Operations -/

/-- Fewer handles on each inode than the counter can tell apart. -/
def Few (m : Mount) : Prop := ∀ i, (m.openOn i).length < 2 ^ 32

theorem cells_snd (m : Mount) (i : Nat) : (m.cells i).map Prod.snd = m.openOn i :=
  by simp [cells, openOn, Function.comp_def]

theorem cells_length (m : Mount) (i : Nat) : (m.cells i).length = (m.openOn i).length := by
  rw [← cells_snd, List.length_map]

theorem Few.cells (h : m.Few) (i : Nat) : (m.cells i).length < 2 ^ 32 := by
  rw [cells_length]
  exact h i

variable {fuel : Nat} {r : Int × Mount}

theorem Accounts.relDone (h : Accounts (some id) m) (hrel : m.relCache id = some m') :
    Accounts none m' := by
  obtain ⟨m₁, hrel₁, h₁, -⟩ := h.relCache
  cases hrel.symm.trans hrel₁
  exact h₁

theorem Accounts.modify (h : Accounts none m) (hfew : m.Few)
    (hget : Mount.getCache id { m with fs := fs } = some (c, m')) {f : ListInode → ListInode}
    (hr : ((m'.updateCache id c f).relCache id).map (fun m => ((0 : Int), m)) = some r) :
    Accounts none r.2 := by
  obtain ⟨m₂, hrel, rfl⟩ := Option.map_eq_some_iff.mp hr
  obtain ⟨h₁, hc⟩ := (h.withFs fs).getCache (hfew.cells id) hget
  exact (h₁.updateCache hc f).relDone hrel

theorem Accounts.ended (h : Accounts none m) {e : Int}
    (hr : some (e, { m with fs := fs }) = some r) : Accounts none r.2 := by
  cases hr
  exact h.withFs fs

theorem Accounts.finish (h : Accounts none m) {q : Except Int (List NameCall) × FS}
    (hr : finish fuel m q = some r) :
    Accounts none r.2 := by
  obtain ⟨e | calls, fs⟩ := q
  · exact h.ended hr
  · obtain ⟨q, -, rfl⟩ := Option.map_eq_some_iff.mp hr
    exact h.withFs q.2

theorem Accounts.fuseCreate (h : Accounts none m) (hfew : m.Few)
    (hr : m.fuseCreate ctx path mode = some r) : Accounts none r.2 := by
  unfold Mount.fuseCreate at hr
  split at hr
  · cases hr
  · exact h.ended hr
  · rename_i id fs _
    split at hr
    · exact h.ended hr
    · rename_i hget
      obtain ⟨h₁, hc⟩ := (h.withFs fs).getCache (hfew.cells id) hget
      obtain ⟨m₂, hadd, h₂, hopm⟩ := h₁.addHandle hc
      rw [hadd, Option.map_some] at hr
      cases hr
      exact h₂.updateCache (hopm ▸ hc) _

theorem Accounts.fuseOpen (h : Accounts none m) (hfew : m.Few) {flags : Nat}
    (hr : m.fuseOpen ctx path flags = some r) : Accounts none r.2 := by
  unfold Mount.fuseOpen at hr
  split at hr
  · exact h.ended hr
  · rename_i id fs _
    split at hr
    · exact h.ended hr
    split at hr
    · cases hr
    · rename_i hget
      obtain ⟨h₁, hc⟩ := (h.withFs fs).getCache (hfew.cells id) hget
      obtain ⟨m₂, hadd, h₂, -⟩ := h₁.addHandle hc
      rw [hadd, Option.map_some] at hr
      cases hr
      exact h₂

theorem Accounts.fuseRelease (h : Accounts none m) (hr : m.fuseRelease fh = some r) :
    Accounts none r.2 := by
  unfold Mount.fuseRelease at hr
  split at hr
  · cases hr
    exact h
  · rename_i hfh
    obtain ⟨c, lists, hc, hdel, h₁⟩ := h.dropHandle hfh
    obtain ⟨m₂, hrel, h₂, -⟩ := h₁.relCache
    simp only [hc, hdel, hrel, Option.map_some] at hr
    cases hr
    exact h₂

theorem Accounts.fuseFsync (h : Accounts none m) {datasync : Bool}
    (hr : m.fuseFsync fh datasync = some r) :
    Accounts none r.2 := by
  unfold Mount.fuseFsync at hr
  split at hr
  · cases hr
    exact h
  · rename_i fd _
    split at hr
    · cases hr
      exact h
    · obtain ⟨c, -, rfl⟩ := Option.map_eq_some_iff.mp hr
      obtain ⟨fs, hfs⟩ := commit_eq fd.inode c.cache m
      rw [hfs]
      exact h.withFs fs

theorem Accounts.fuseGetattr (h : Accounts none m) (hfew : m.Few) {q : Int × Option Stat × Mount}
    (hr : m.fuseGetattr path = some q) : Accounts none q.2.2 := by
  unfold Mount.fuseGetattr at hr
  split at hr
  · cases hr
    exact h.withFs _
  · rename_i id fs _
    split at hr
    · cases hr
      exact h.withFs fs
    · rename_i hget
      obtain ⟨m₂, hrel, rfl⟩ := Option.map_eq_some_iff.mp hr
      exact ((h.withFs fs).getCache (hfew.cells id) hget).1.relDone hrel

theorem Accounts.updAll (h : Accounts held m) (hup : m.updAll c = some m') : Accounts held m' := by
  obtain ⟨fds, -, rfl⟩ := Option.map_eq_some_iff.mp hup
  obtain ⟨g, hg⟩ : ∃ g : Nat × Handle → Nat × Handle,
      g = fun e => if e.1 ∈ fds then (e.1, { e.2 with cacheUpdateFlag := true }) else e := ⟨_, rfl⟩
  have hkeep : ∀ e, (g e).1 = e.1 ∧ (g e).2.inode = e.2.inode ∧
    (g e).2.inodeCache = e.2.inodeCache ∧
      (g e).2.fslistPtr = e.2.fslistPtr := by
    intro e
    by_cases he : e.1 ∈ fds <;> simp [hg, he]
  have hcells : ∀ i, ({ m with handles := m.handles.map g } : Mount).cells i = m.cells i := by
    intro i
    simp only [cells, List.filter_map, List.map_map, Function.comp_def, hkeep]
  rw [← hg]
  have hback : ∀ e ∈ m.handles.map g, ∃ e' ∈ m.handles, e = g e' := by
    intro e he
    obtain ⟨e', he', rfl⟩ := List.mem_map.mp he
    exact ⟨e', he', rfl⟩
  refine ⟨?_, fun e he => ?_, fun hi => ?_, fun hi => ?_, fun hi => ?_, fun e he {c} hc => ?_,
    fun hi => ?_, fun hij hi hj => ?_⟩
  · simpa only [List.map_map, Function.comp_def, hkeep] using h.fhs
  · obtain ⟨e', he', rfl⟩ := hback e he
    rw [(hkeep e').1]
    exact h.unused e' he'
  · simpa only [users, hcells] using h.idle hi
  · simpa only [users, hcells] using h.busy hi
  · simpa only [hcells] using h.listed hi
  · obtain ⟨e', he', rfl⟩ := hback e he
    rw [(hkeep e').2.1] at hc
    rw [(hkeep e').2.2.1]
    exact h.own e' he' hc
  · simpa only [addrs, hcells] using h.below hi
  · simpa only [addrs, hcells] using h.apart hij hi hj

theorem Accounts.fuseWrite (h : Accounts none m) {grow size : Nat} {grows : Bool}
    {dents : Nat → List Dentry} (hr : m.fuseWrite fh grow size grows dents = some r) :
    Accounts none r.2 := by
  unfold Mount.fuseWrite at hr
  split at hr
  · cases hr
    exact h
  · rename_i fd _
    split at hr
    · cases hr
    · rename_i c hc
      have hopm : m.opm fd.inode = some c := (Option.filter_eq_some_iff.mp hc).1
      generalize fuseWrite.growBy grow c.cache m.fs = q at hr
      have h₁ : Accounts none
        { m with
          opm :=
            Function.update m.opm fd.inode
            (some { c with cache := { q.1 with iSize := size } }) } := by
        apply h.withOpm
        intro i
        by_cases hi : i = fd.inode
        · subst hi
          simp [hopm]
        · rw [Function.update_of_ne hi]
      have h₂ := h₁.withFs { q.2 with dents := dents }
      cases grows with
      | true =>
        obtain ⟨m₂, hup, rfl⟩ := Option.map_eq_some_iff.mp hr
        exact h₂.updAll hup
      | false =>
        cases hr
        exact h₂

theorem Accounts.fuseUnlink (h : Accounts none m) (hfew : m.Few)
    (hr : m.fuseUnlink fuel ctx path = some r) : Accounts none r.2 := by
  unfold Mount.fuseUnlink at hr
  split at hr
  · exact h.ended hr
  · rename_i id fs _
    split at hr
    · cases hr
    · rename_i hget
      obtain ⟨h₁, -⟩ := (h.withFs fs).getCache (hfew.cells id) hget
      obtain ⟨m₂, hrel, h₂, -⟩ := h₁.relCache
      simp only [hrel] at hr
      split at hr
      · cases hr
        exact h₂
      · exact h₂.finish hr

theorem Accounts.fuseMkdir (h : Accounts none m) (hfew : m.Few)
    (hr : m.fuseMkdir ctx path mode = some r) : Accounts none r.2 := by
  unfold Mount.fuseMkdir at hr
  dsimp only at hr
  split at hr
  · cases hr
  · exact h.ended hr
  · split at hr
    · exact h.ended hr
    split at hr
    · exact h.ended hr
    · rename_i hget
      exact h.modify hfew hget hr

theorem Accounts.fuseSymlink (h : Accounts none m) {src : List UInt8} {dst : Path}
    (hr : m.fuseSymlink src dst = some r) :
    Accounts none r.2 := by
  unfold Mount.fuseSymlink at hr
  split at hr
  · exact h.ended hr
  · split at hr
    · cases hr
    · exact h.ended hr
    · split at hr
      · exact h.ended hr
      split at hr
      · exact h.ended hr
      split at hr
      · cases hr
      · exact h.ended hr

theorem Accounts.fuseChmod (h : Accounts none m) (hfew : m.Few)
    (hr : m.fuseChmod ctx path mode = some r) : Accounts none r.2 := by
  unfold Mount.fuseChmod at hr
  split at hr
  · exact h.ended hr
  · split at hr
    · exact h.ended hr
    split at hr
    · exact h.ended hr
    · rename_i hget
      exact h.modify hfew hget hr

theorem Accounts.fuseChown (h : Accounts none m) (hfew : m.Few) {user group : Nat}
    (hr : m.fuseChown path user group = some r) : Accounts none r.2 := by
  unfold Mount.fuseChown at hr
  split at hr
  · exact h.ended hr
  · split at hr
    · cases hr
    · rename_i hget
      exact h.modify hfew hget hr

theorem Accounts.fuseUtimens (h : Accounts none m) (hfew : m.Few)
    (hr : m.fuseUtimens ctx path = some r) : Accounts none r.2 := by
  unfold Mount.fuseUtimens at hr
  split at hr
  · exact h.ended hr
  · split at hr
    · exact h.ended hr
    split at hr
    · cases hr
    · rename_i hget
      exact h.modify hfew hget hr

theorem Accounts.step (h : Accounts none m) (hfew : m.Few) {op : FuseOp}
    (hs : m.step fuel op = some m') : Accounts none m' := by
  obtain ⟨r, hr, rfl⟩ := Option.map_eq_some_iff.mp hs
  cases op with
  | create ctx path mode => exact h.fuseCreate hfew hr
  | «open» ctx path flags => exact h.fuseOpen hfew hr
  | release fh => exact h.fuseRelease hr
  | fsync fh datasync => exact h.fuseFsync hr
  | getattr path =>
    obtain ⟨q, hq, rfl⟩ := Option.map_eq_some_iff.mp hr
    exact h.fuseGetattr hfew hq
  | write fh grow size grows dents => exact h.fuseWrite hr
  | link src dst =>
    exact h.finish (show Mount.finish fuel m (.ok [.link src dst], m.fs) = some r from hr)
  | unlink ctx path => exact h.fuseUnlink hfew hr
  | mkdir ctx path mode => exact h.fuseMkdir hfew hr
  | rmdir ctx path => exact h.finish (show Mount.finish fuel m _ = some r from hr)
  | rename ctx old new flags => exact h.finish (show Mount.finish fuel m _ = some r from hr)
  | symlink src dst => exact h.fuseSymlink hr
  | chmod ctx path mode => exact h.fuseChmod hfew hr
  | chown path user group => exact h.fuseChown hfew hr
  | utimens ctx path => exact h.fuseUtimens hfew hr

/-! ## The books of `OpManager` -/

/-- What the entries say about the open handles. -/
structure Accounted (m : Mount) : Prop where
  entry : ∀ i, (m.opm i).isSome ↔ m.openOn i ≠ []
  cnts : ∀ i c, m.opm i = some c → c.cnts = (m.openOn i).length
  vec : ∀ i c, m.opm i = some c → ∃ l, FSList.iter m.nextCell c.vec m.lists = some l ∧ l.Nodup ∧
    l.Perm (m.openOn i)
  /-- `upd_all` flags the handles of the inode and no others. -/
  updAll : ∀ i c, m.opm i = some c → m.updAll c = some { m with
    handles := m.handles.map fun e => if e.2.inode = i then
    (e.1, { e.2 with cacheUpdateFlag := true }) else e }
  /-- `rel_cache` drops the entry with the last handle. -/
  release : ∀ fh fd, m.handles.lookup fh = some fd →
    ∃ m', m.fuseRelease fh = some (0, m') ∧ (m'.opm fd.inode = none ↔ m.openOn fd.inode = [fh])

theorem Accounts.format : Accounts none Mount.format :=
  ⟨List.nodup_nil, by simp [Mount.format],
    fun _ => rfl, by simp [Mount.format], by simp [Mount.format], by simp [Mount.format],
    by simp [Mount.format], by simp [Mount.format]⟩

theorem Accounts.opm_none (h : Accounts none m) (i : Nat) : m.opm i = none ↔ m.openOn i = [] := by
  rw [← List.length_eq_zero_iff, ← cells_length, ← users_none]
  refine ⟨fun hi => h.idle hi, fun hz => ?_⟩
  cases hi : m.opm i with
  | none => rfl
  | some c => exact absurd hz (Nat.ne_of_gt (h.busy hi).1)

theorem Accounts.openOn_nodup (h : Accounts held m) (i : Nat) : (m.openOn i).Nodup :=
  h.fhs.sublist (List.filter_sublist.map _)

theorem Accounts.iter (h : Accounts held m) (hi : m.opm i = some c) :
    ∃ l, FSList.iter m.nextCell c.vec m.lists = some l ∧ l.Perm (m.openOn i) := by
  obtain ⟨l, hl, hperm⟩ := h.listed hi
  have hsub : l.map Prod.fst ⊆ List.range m.nextCell := by
    intro a ha
    apply List.mem_range.mpr
    apply h.below hi
    exact List.mem_cons_of_mem _ ((hperm.map Prod.fst).mem_iff.mp ha)
  have hlen := (List.subperm_of_subset (List.nodup_cons.mp hl.nodup).2 hsub).length_le
  rw [List.length_map, List.length_range] at hlen
  refine ⟨_, FSList.iter_eq hl hlen, ?_⟩
  rw [← cells_snd]
  exact hperm.map Prod.snd

theorem Accounts.mem_openOn (h : Accounts held m) {e : Nat × Handle} (he : e ∈ m.handles)
    (i : Nat) :
    e.1 ∈ m.openOn i ↔ e.2.inode = i := by
  refine ⟨fun hmem => ?_, fun hi => List.mem_map.mpr ⟨e, by simpa using ⟨he, hi⟩, rfl⟩⟩
  obtain ⟨e', he', heq⟩ := List.mem_map.mp hmem
  obtain ⟨hin, hi⟩ := List.mem_filter.mp he'
  rw [← List.inj_on_of_nodup_map h.fhs hin he heq]
  exact of_decide_eq_true hi

theorem Accounts.updAll_eq (h : Accounts held m) (hi : m.opm i = some c) :
    m.updAll c = some { m with
    handles := m.handles.map fun e => if e.2.inode = i then
      (e.1, { e.2 with cacheUpdateFlag := true }) else e } := by
  obtain ⟨l, hl, hperm⟩ := h.iter hi
  have hmap : m.handles.map (fun e => if e.1 ∈ l then
    (e.1, { e.2 with cacheUpdateFlag := true }) else e) =
      m.handles.map fun e => if e.2.inode = i then (e.1, { e.2 with cacheUpdateFlag := true }) else
      e := by
    apply List.map_congr_left
    intro e he
    simp only [hperm.mem_iff, h.mem_openOn he]
  simp only [Mount.updAll, hl, Option.map_some, hmap]

theorem Accounts.release_eq (h : Accounts none m) {fd : Handle}
    (hfh : m.handles.lookup fh = some fd) :
    ∃ m', m.fuseRelease fh = some (0, m') ∧
      (m'.opm fd.inode = none ↔ m.openOn fd.inode = [fh]) := by
  obtain ⟨c, lists, hc, hdel, hdrop⟩ := h.dropHandle hfh
  obtain ⟨m', hrel, h', hhandles⟩ := hdrop.relCache
  refine ⟨m', by simp only [Mount.fuseRelease, hfh, hc, hdel, hrel, Option.map_some], ?_⟩
  obtain ⟨l₁, l₂, hsplit, herase⟩ := handles_split hfh
  rw [h'.opm_none]
  unfold openOn
  rw [hhandles, herase, hsplit, List.filter_append, List.filter_append,
    List.filter_cons_of_pos (by simp)]
  generalize l₁.filter (fun e => e.2.inode = fd.inode) = k₁
  generalize l₂.filter (fun e => e.2.inode = fd.inode) = k₂
  cases k₁ <;> simp

theorem Accounts.accounted_iff (h : Accounts none m) : m.Accounted ↔ m.Few := by
  refine ⟨fun ha i => ?_, fun hfew => ⟨fun i => ?_, fun i c hi => ?_, fun i c hi => ?_,
    fun i c hi => h.updAll_eq hi, fun fh fd hfh => h.release_eq hfh⟩⟩
  · cases hi : m.opm i with
    | none =>
      rw [(h.opm_none i).mp hi]
      exact Nat.two_pow_pos 32
    | some c =>
      rw [← ha.cnts i c hi, (h.busy hi).2.2]
      exact Nat.mod_lt _ (Nat.two_pow_pos 32)
  · rw [Option.isSome_iff_ne_none, ne_eq, h.opm_none]
  · rw [(h.busy hi).2.2, users_none, cells_length]
    exact u32_of_lt (hfew i)
  · obtain ⟨l, hl, hperm⟩ := h.iter hi
    exact ⟨l, hl, hperm.nodup_iff.mpr (h.openOn_nodup i), hperm⟩

/-- The books are right in every state of a run as long as the counters can tell
the handles apart. -/
theorem handles_accounted_iff (fuel : Nat) (ops : List FuseOp) :
    Runs.Along (step fuel) Accounted ops Mount.format ↔
      Runs.Along (step fuel) Few ops Mount.format :=
  Runs.along_congr (fun _ h => h.accounted_iff) (fun _ _ _ h hfew hs => h.step hfew hs) ops
    Mount.format Accounts.format

/-! ## A counter that wraps around -/

variable (fuel) in
theorem Accounts.open_again (h : Accounts none m) (hl : m.fs.inodeLookup path = (.ok id, fs))
    (hc : m.opm id = some c) (hfew : (m.openOn id).length < 2 ^ 32) :
    ∃ m', m.step fuel (.open ⟨0, 0⟩ path 0) = some m' ∧ Accounts none m' ∧ m'.fs = fs ∧
      (m'.opm id).isSome ∧ (m'.openOn id).length = (m.openOn id).length + 1 := by
  obtain ⟨m₁, hget⟩ : ∃ m₁, ({ m with fs := fs } : Mount).getCache id =
    some ({ c with cnts := u32 (c.cnts + 1) }, m₁) := by
    simp [Mount.getCache, hc]
  obtain ⟨h₁, hc₁⟩ := (h.withFs fs).getCache (by rw [cells_length]; exact hfew) hget
  obtain ⟨m₂, hadd, h₂, hopm⟩ := h₁.addHandle hc₁
  have hm₁ : m₁.fs = fs ∧ m₁.handles = m.handles := by
    simp only [Mount.getCache, hc, Option.some.injEq, Prod.mk.injEq, true_and] at hget
    rw [← hget]
    exact ⟨rfl, rfl⟩
  have hm₂ : m₂.fs = m₁.fs ∧ (m₂.openOn id).length = (m₁.openOn id).length + 1 := by
    obtain ⟨lists, -, rfl⟩ := Option.map_eq_some_iff.mp hadd
    exact ⟨rfl, by simp [openOn]⟩
  refine ⟨m₂, ?_, h₂, hm₂.1.trans hm₁.1, by rw [hopm, hc₁]; rfl, ?_⟩
  · simp only [Mount.step, exec, Mount.fuseOpen, hl, checkPermission, if_true, Bool.not_true,
      Bool.false_eq_true, if_false, hget, hadd, Option.map_some]
  · rw [hm₂.2]
    unfold openOn
    rw [hm₁.2]

/-- The file `/name` is in the dentry cache. -/
def Cached (name : Name) (id : Nat) (s : FS) : Prop :=
  s.dcache [name] = some id ∧ (s.groups.getInode id).isNone = false

theorem Cached.lookup {s : FS} {name : Name} (hc : Cached name id s) (hname : name ≠ []) :
    ∃ s', s.inodeLookup (.of [name]) = (.ok id, s') ∧ Cached name id s' := by
  have hlen : name.length ≠ 0 := fun h => hname (List.length_eq_zero_iff.mp h)
  refine ⟨{ s with dcache := s.dcache.enter [] name }, ?_, hc⟩
  simp [FS.inodeLookup, FS.lookupFrom, Path.of, DentryCache.lookup, hlen, hc.1, hc.2, Ne.symm hname]

variable (fuel) in
theorem Accounts.open_often {name : Name} (hname : name ≠ []) :
    ∀ (n : Nat) (m : Mount), Accounts none m → Cached name id m.fs →
    (m.opm id).isSome → (m.openOn id).length + n ≤ 2 ^ 32 →
    ∃ m' c, Runs.run (Mount.step fuel) (List.replicate n (FuseOp.open ⟨0, 0⟩ (.of [name]) 0)) m =
      some m' ∧ Accounts none m' ∧ m'.opm id = some c ∧
      (m'.openOn id).length = (m.openOn id).length + n := by
  intro n
  induction n with
  | zero =>
    intro m h _ hc _
    obtain ⟨c, hc⟩ := Option.isSome_iff_exists.mp hc
    exact ⟨m, c, rfl, h, hc, rfl⟩
  | succ n ih =>
    intro m h hl hc hle
    obtain ⟨c, hc⟩ := Option.isSome_iff_exists.mp hc
    obtain ⟨fs, hlook, hcached⟩ := hl.lookup hname
    obtain ⟨m₁, hs, h₁, hfs, hc₁, hlen⟩ := h.open_again fuel hlook hc (by omega)
    obtain ⟨m₂, c₂, hrun, h₂, hc₂, hlen₂⟩ := ih m₁ h₁ (by rwa [hfs]) hc₁ (by omega)
    refine ⟨m₂, c₂, ?_, h₂, hc₂, by omega⟩
    rw [List.replicate_succ, Runs.run, hs]
    exact hrun

theorem few_of_handles (h : m.handles.length < 2 ^ 32) : m.Few := by
  intro i
  unfold openOn
  rw [List.length_map]
  exact Nat.lt_of_le_of_lt (List.length_filter_le ..) h

/-- A file of the root, created and opened once more. -/
def openedTwice : Option Mount :=
  (Mount.format.step 0 (.create ⟨0, 0⟩ (.of [[102]]) 0x81a4)).bind fun m =>
    m.step 0 (.open ⟨0, 0⟩ (.of [[102]]) 0)

theorem openedTwice_spec : ∃ m, openedTwice = some m ∧ Accounts none m ∧
    Cached [102] 1 m.fs ∧ (m.opm 1).isSome ∧ (m.openOn 1).length = 2 := by
  have hfirst : (Mount.format.step 0 (.create ⟨0, 0⟩ (.of [[102]]) 0x81a4)).any fun m =>
    m.handles.length = 1 := by decide +kernel
  have hboth : openedTwice.any fun m => m.fs.dcache [[102]] = some 1 ∧
    (m.fs.groups.getInode 1).isNone = false ∧
      (m.opm 1).isSome ∧ (m.openOn 1).length = 2 := by decide +kernel
  obtain ⟨m₁, hs₁⟩ : ∃ m, Mount.format.step 0 (.create ⟨0, 0⟩ (.of [[102]]) 0x81a4) = some m :=
    ⟨_, rfl⟩
  obtain ⟨m₂, hs₂⟩ : ∃ m, openedTwice = some m := ⟨_, rfl⟩
  rw [hs₁, Option.any_some] at hfirst
  rw [hs₂, Option.any_some] at hboth
  obtain ⟨hcache, hget, hopm, hlen⟩ := of_decide_eq_true hboth
  have h₁ : Accounts none m₁ := Accounts.format.step (few_of_handles (by decide)) hs₁
  have hfew : m₁.Few := by
    apply few_of_handles
    rw [of_decide_eq_true hfirst]
    decide
  have hs₂' : m₁.step 0 (.open ⟨0, 0⟩ (.of [[102]]) 0) = some m₂ := by
    rwa [openedTwice, hs₁, Option.bind_some] at hs₂
  exact ⟨m₂, hs₂, h₁.step hfew hs₂', ⟨hcache, hget⟩, hopm, hlen⟩

theorem run_openedTwice (h : openedTwice = some m) (ops : List FuseOp) :
    Runs.run (step fuel) (.create ⟨0, 0⟩ (.of [[102]]) 0x81a4 ::
    .open ⟨0, 0⟩ (.of [[102]]) 0 :: ops) Mount.format = Runs.run (step fuel) ops m := by
  obtain ⟨m₁, hs₁, hs₂⟩ := Option.bind_eq_some_iff.mp h
  have hs₁' : Mount.format.step fuel (.create ⟨0, 0⟩ (.of [[102]]) 0x81a4) = some m₁ := hs₁
  have hs₂' : m₁.step fuel (.open ⟨0, 0⟩ (.of [[102]]) 0) = some m := hs₂
  simp only [Runs.run, hs₁', hs₂', Option.bind_some]

/-- With `2 ^ 32` handles on a file its entry counts none. -/
theorem counter_wraps : ∃ m c, Runs.run (step 0) (.create ⟨0, 0⟩ (.of [[102]]) 0x81a4 ::
      .open ⟨0, 0⟩ (.of [[102]]) 0 :: List.replicate (2 ^ 32 - 2) (.open ⟨0, 0⟩ (.of [[102]]) 0))
        Mount.format = some m ∧
    (m.openOn 1).length = 2 ^ 32 ∧ m.opm 1 = some c ∧ c.cnts = 0 ∧ ¬ m.Accounted := by
  obtain ⟨m₂, hm₂, h₂, hl, hopm, hlen⟩ := openedTwice_spec
  obtain ⟨m, c, hrun, h, hc, hlen'⟩ :=
    Accounts.open_often 0 (by decide) (2 ^ 32 - 2) m₂ h₂ hl hopm (by omega)
  have hcnt : c.cnts = 0 := by
    rw [(h.busy hc).2.2, users_none, cells_length, hlen', hlen]
    decide
  refine ⟨m, c, (run_openedTwice hm₂ _).trans hrun, by omega, hc, hcnt, fun ha => ?_⟩
  · have := ha.cnts 1 c hc
    omega

end Mount

end NaiveFS
