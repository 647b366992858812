import NaiveFS.LockScripts

/-!
# Threads of FUSE operations

The locks have an order in which all operations take them, so no interleaving of any
number of threads is stuck. Every object has its guard, except the block groups and the
block cache: `get_block` changes the cache under a shared lock and `alloc_block` under
another one.
-/

namespace NaiveFS

open RwLocks

namespace Lock

def rank : Lock → Nat
  | .big => 0
  | .opManager => 1
  | .fileStatus _ => 2
  | .inodeCache _ => 3
  | .allocBlock => 4
  | .getBlock => 5

theorem rank_le (l : Lock) : l.rank ≤ 5 := by
  unfold rank
  split <;> omega

end Lock

namespace SharedData

/-- The sets of locks of which one has to be held. -/
def guards : SharedData → Mode → List (Held Lock)
  | .names, _ => [[(.big, .exclusive)]]
  | .caches, _ => [[(.opManager, .exclusive)]]
  | .cnts _, _ => [[(.big, .exclusive)]]
  | .vec i, _ => [[(.inodeCache i, .exclusive)]]
  | .copy i, .write => [[(.big, .exclusive)], [(.big, .shared), (.inodeCache i, .exclusive)]]
  | .copy i, .read =>
    [[(.big, .exclusive)], [(.big, .shared), (.inodeCache i, .exclusive)],
      [(.big, .shared), (.inodeCache i, .shared)]]
  | .updateFlag fd, _ =>
    [[(.big, .exclusive)], [(.big, .shared), (.inodeCache fd.inode, .exclusive)],
      [(.big, .shared), (.fileStatus fd, .exclusive), (.inodeCache fd.inode, .shared)]]
  | .cursor fd, _ => [[(.big, .exclusive)], [(.big, .shared), (.fileStatus fd, .exclusive)]]
  | .blocks, _ => [[]]

end SharedData

def lockDiscipline : Discipline Lock SharedData where
  rank := Lock.rank
  gate := .big
  guard o m H := ∃ A ∈ o.guards m, A ⊆ H

/-! ## Guards -/

/-- Two sets of locks that cannot be held by two threads at once. -/
def Clash (A B : Held Lock) : Prop :=
  ∃ l h h', (l, h) ∈ A ∧ (l, h') ∈ B ∧ ¬ (h = .shared ∧ h' = .shared)

theorem clash_big {x y : Hold} {A B : Held Lock} (h : ¬ (x = .shared ∧ y = .shared)) :
    Clash ((.big, x) :: A) ((.big, y) :: B) :=
  ⟨.big, x, y, List.mem_cons_self, List.mem_cons_self, h⟩

theorem clash_second {l : Lock} {x y : Hold} {e f : Lock × Hold} {A B : Held Lock}
    (h : ¬ (x = .shared ∧ y = .shared)) :
    Clash (e :: (l, x) :: A) (f :: (l, y) :: B) :=
  ⟨l, x, y, List.mem_cons_of_mem _ List.mem_cons_self, List.mem_cons_of_mem _ List.mem_cons_self, h⟩

theorem guards_clash {o : SharedData} (ho : o ≠ .blocks) {m m' : Mode}
    (hw : m = .write ∨ m' = .write) :
    ∀ A ∈ o.guards m, ∀ B ∈ o.guards m', Clash A B := by
  intro A hA B hB
  cases o with
  | blocks => exact absurd rfl ho
  | names | cnts i =>
    simp only [SharedData.guards, List.mem_singleton] at hA hB
    subst hA hB
    exact clash_big (by decide)
  | caches =>
    simp only [SharedData.guards, List.mem_singleton] at hA hB
    subst hA hB
    exact ⟨.opManager, _, _, List.mem_cons_self, List.mem_cons_self, by decide⟩
  | vec i =>
    simp only [SharedData.guards, List.mem_singleton] at hA hB
    subst hA hB
    exact ⟨.inodeCache i, _, _, List.mem_cons_self, List.mem_cons_self, by decide⟩
  | copy i =>
    -- behind the shared big lock, one of the two has the inode lock for itself
    cases m <;> cases m' <;> simp only [SharedData.guards, List.mem_cons, List.not_mem_nil,
      or_false] at hA hB
    · cases hw with
      | inl h => cases h
      | inr h => cases h
    · rcases hA with rfl | rfl | rfl <;> rcases hB with rfl | rfl <;>
        first | exact clash_big (by decide) | exact clash_second (by decide)
    · rcases hA with rfl | rfl <;> rcases hB with rfl | rfl | rfl <;>
        first | exact clash_big (by decide) | exact clash_second (by decide)
    · rcases hA with rfl | rfl <;> rcases hB with rfl | rfl <;>
        first | exact clash_big (by decide) | exact clash_second (by decide)
  | updateFlag fd =>
    simp only [SharedData.guards, List.mem_cons, List.not_mem_nil, or_false] at hA hB
    have hinode : ∀ {x : Lock × Hold} {y : Hold}, Clash [x, (.inodeCache fd.inode, .exclusive)]
        [(.big, .shared), (.fileStatus fd, .exclusive), (.inodeCache fd.inode, y)] := fun {x y} =>
      ⟨.inodeCache fd.inode, .exclusive, y, by simp, by simp, by simp⟩
    have hinode' : ∀ {x : Lock × Hold} {y : Hold},
        Clash [(.big, .shared), (.fileStatus fd, .exclusive), (.inodeCache fd.inode, y)] [x,
        (.inodeCache fd.inode, .exclusive)] := fun {x y} =>
      ⟨.inodeCache fd.inode, y, .exclusive, by simp, by simp, by simp⟩
    rcases hA with rfl | rfl | rfl <;> rcases hB with rfl | rfl | rfl <;>
      first
        | exact clash_big (by decide) | exact clash_second (by decide)
        | exact hinode | exact hinode'
  | cursor fd =>
    simp only [SharedData.guards, List.mem_cons, List.not_mem_nil, or_false] at hA hB
    rcases hA with rfl | rfl <;> rcases hB with rfl | rfl <;>
      first | exact clash_big (by decide) | exact clash_second (by decide)

theorem lockDiscipline_protects {o : SharedData} (ho : o ≠ .blocks) :
    Protects lockDiscipline o := by
  rintro m m' H H' hw ⟨A, hA, hAH⟩ ⟨B, hB, hBH⟩
  obtain ⟨l, h, h', hl, hl', hc⟩ := guards_clash ho hw A hA B hB
  exact ⟨l, h, h', hAH hl, hBH hl', hc⟩

/-! ## Triples for the scripts -/

namespace Script

/-- The code leaves a thread with the locks it had. -/
abbrev Keeps (H : Held Lock) (r : Script) : Prop := Takes lockDiscipline H r H

variable {H : Held Lock} {i : Nat} {fd : OpenFile}

/-- The thread is behind the big lock, and holds locks of rank below `n` only. -/
structure Below (n : Nat) (H : Held Lock) : Prop where
  rank : ∀ e ∈ H, e.1.rank < n
  ne : H ≠ []

theorem keeps_access {o : SharedData} {m : Mode} {A : Held Lock} (hA : A ∈ o.guards m)
    (hAH : A ⊆ H) :
    Keeps H (.char (.access o m)) := takes_access ⟨A, hA, hAH⟩

theorem keeps_blocks : Keeps H (writes .blocks) :=
  keeps_access (List.mem_singleton.mpr rfl) (List.nil_subset H)

theorem keeps_locked {l : Lock} {x : Hold} {r : Script} (h : Below l.rank H)
    (hr : Keeps ((l, x) :: H) r) : Keeps H (locked l x r) := by
  refine takes_locked h.rank ⟨fun hnil => absurd hnil h.ne, fun hl => ?_⟩ hr
  obtain ⟨e, he⟩ := List.exists_mem_of_ne_nil H h.ne
  have := h.rank e he
  rw [show l = Lock.big from hl] at this
  exact absurd this (Nat.not_lt_zero _)

theorem keeps_getBlock (h : Below 5 H) : Keeps H getBlock :=
  takes_mul (keeps_locked h keeps_blocks) (takes_add takes_one (keeps_locked h keeps_blocks))

theorem Below.mono {n n' : Nat} (h : Below n H) (hn : n ≤ n') : Below n' H :=
  ⟨fun e he => Nat.lt_of_lt_of_le (h.rank e he) hn, h.ne⟩

theorem Below.cons {n : Nat} (h : Below n H) {l : Lock} (hl : l.rank < n) (x : Hold) :
    Below n ((l, x) :: H) := by
  refine ⟨fun e he => ?_, List.cons_ne_nil _ _⟩
  rcases List.mem_cons.mp he with rfl | he
  · exact hl
  · exact h.rank e he

theorem keeps_allocBlock {o : SharedData} (h : Below 4 H) (ho : ∀ x, Keeps (x :: H) (writes o)) :
    Keeps H (allocBlock o) :=
  keeps_locked h
    (takes_star (takes_add (takes_add keeps_blocks
    (keeps_getBlock ((h.mono (Nat.le_succ 4)).cons (by decide) _))) (ho _)))

theorem keeps_caches {m : Mode} :
    Keeps ((.opManager, .exclusive) :: H) (.char (.access .caches m)) :=
  keeps_access (List.mem_singleton.mpr rfl) (List.cons_subset.mpr ⟨List.mem_cons_self,
    List.nil_subset _⟩)

theorem keeps_vec {m : Mode} :
    Keeps ((.inodeCache i, .exclusive) :: H) (.char (.access (.vec i) m)) :=
  keeps_access (List.mem_singleton.mpr rfl) (List.cons_subset.mpr ⟨List.mem_cons_self,
    List.nil_subset _⟩)

/-! ### Behind the exclusive big lock -/

section
variable (hbig : (Lock.big, Hold.exclusive) ∈ H)
include hbig

theorem keeps_alone {o : SharedData} {m : Mode} (ho : [(Lock.big, Hold.exclusive)] ∈ o.guards m) :
    Keeps H (.char (.access o m)) :=
  keeps_access ho (List.cons_subset.mpr ⟨hbig, List.nil_subset H⟩)

theorem keeps_nameCalls (h : Below 4 H) : Keeps H nameCalls := by
  have hnames : ∀ {H'}, H ⊆ H' → Keeps H' (writes .names) :=
    fun hsub => keeps_alone (hsub hbig) (List.mem_singleton.mpr rfl)
  refine takes_star (takes_add (takes_add (takes_add (hnames (List.Subset.refl H)) keeps_blocks)
    (keeps_getBlock (h.mono (Nat.le_succ 4)))) ?_)
  exact keeps_allocBlock h fun x => hnames (List.subset_cons_self x H)

theorem keeps_copy : Keeps H (copy i) :=
  takes_mul (takes_mul keeps_blocks (keeps_alone hbig (List.mem_singleton.mpr rfl)))
    (keeps_alone hbig List.mem_cons_self)

theorem keeps_commit : Keeps H (commit i) :=
  takes_mul (takes_mul keeps_blocks (keeps_alone hbig List.mem_cons_self))
    (keeps_alone hbig (List.mem_singleton.mpr rfl))

theorem keeps_getCache (h : Below 1 H) : Keeps H (getCache i) := by
  have hbig' : (Lock.big, Hold.exclusive) ∈ (Lock.opManager, Hold.exclusive) :: H :=
    List.mem_cons_of_mem _ hbig
  refine keeps_locked h (takes_mul keeps_caches
    (takes_add keeps_blocks (takes_mul (takes_add takes_one ?_) ?_)))
  · exact takes_mul (keeps_copy hbig') keeps_caches
  · exact keeps_alone hbig' (List.mem_singleton.mpr rfl)

theorem keeps_updCache (h : Below 1 H) : Keeps H (updCache fd) := by
  have hopm : Below 3 ((.opManager, .exclusive) :: H) := (h.mono (by decide)).cons (by decide) _
  refine keeps_locked h (takes_mul keeps_caches (takes_add takes_one (keeps_locked hopm ?_)))
  have hbig' := List.mem_cons_of_mem (Lock.inodeCache fd.inode,
    Hold.exclusive) (List.mem_cons_of_mem (Lock.opManager, Hold.exclusive) hbig)
  exact takes_mul keeps_vec (keeps_alone hbig' List.mem_cons_self)

theorem keeps_relCache (h : Below 1 H) : Keeps H (relCache i) := by
  have hopm : Below 3 ((.opManager, .exclusive) :: H) := (h.mono (by decide)).cons (by decide) _
  have hbig' := List.mem_cons_of_mem (Lock.inodeCache i,
    Hold.exclusive) (List.mem_cons_of_mem (Lock.opManager, Hold.exclusive) hbig)
  refine keeps_locked h (takes_mul keeps_caches
    (takes_add takes_one (takes_mul (keeps_locked hopm ?_) (takes_add takes_one keeps_caches))))
  exact takes_mul (keeps_alone hbig' (List.mem_singleton.mpr rfl))
    (takes_add takes_one (keeps_commit hbig'))

end

/-! ### Reading and writing a file -/

/-- The locks under which a handle reads or writes, with its inode lock held as `x`. -/
def atFile (fd : OpenFile) (x : Hold) : Held Lock :=
  [(.inodeCache fd.inode, x), (.fileStatus fd, .exclusive), (.big, .shared)]

theorem below_atFile (fd : OpenFile) (x : Hold) : Below 4 (atFile fd x) := by
  refine ⟨fun e he => ?_, List.cons_ne_nil _ _⟩
  simp only [atFile, List.mem_cons, List.not_mem_nil, or_false] at he
  rcases he with rfl | rfl | rfl <;> simp [Lock.rank]

theorem keeps_readCopy (x : Hold) : Keeps (atFile fd x) (reads (.copy fd.inode)) := by
  refine keeps_access (A := [(.big, .shared), (.inodeCache fd.inode, x)]) ?_ ?_
  · cases x <;> simp [SharedData.guards]
  · simp [atFile]

theorem keeps_moves (x : Hold) : Keeps (atFile fd x) (moves fd) := by
  refine takes_star (takes_add (takes_add (keeps_readCopy x) ?_)
    (keeps_getBlock ((below_atFile fd x).mono (Nat.le_succ 4))))
  exact keeps_access (A := [(.big, .shared), (.fileStatus fd, .exclusive)])
    (by simp [SharedData.guards]) (by simp [atFile])

theorem keeps_refresh : Keeps (atFile fd .shared) (refresh fd) := by
  refine takes_mul ?_ (takes_add takes_one (keeps_moves .shared))
  exact keeps_access (A := [(.big, .shared), (.fileStatus fd, .exclusive),
    (.inodeCache fd.inode, .shared)])
    (by simp [SharedData.guards]) (by simp [atFile])

theorem keeps_updAll (vec : List Nat) : Keeps (atFile fd .exclusive) (updAll fd.inode vec) := by
  refine takes_mul keeps_vec (takes_prod fun p hp => ?_)
  obtain ⟨id, -, rfl⟩ := List.mem_map.mp hp
  exact keeps_access (A := [(.big, .shared), (.inodeCache fd.inode, .exclusive)])
    (by simp [SharedData.guards]) (by simp)

theorem keeps_extend (vec : List Nat) :
    Keeps [(.fileStatus fd, .exclusive), (.big, .shared)] (extend fd vec) := by
  have hcopy : ∀ {H'}, atFile fd .exclusive ⊆ H' → Keeps H' (writes (.copy fd.inode)) := fun hsub =>
    keeps_access (A := [(.big, .shared), (.inodeCache fd.inode, .exclusive)])
      (by simp [SharedData.guards])
      (List.Subset.trans (by simp [atFile]) hsub)
  refine keeps_locked ⟨by simp [Lock.rank], List.cons_ne_nil _ _⟩
    (takes_mul (takes_star ?_) (takes_add takes_one (keeps_updAll vec)))
  refine takes_add (takes_add (hcopy (List.Subset.refl _)) ?_) (keeps_moves .exclusive)
  exact keeps_allocBlock (below_atFile fd .exclusive) fun x => hcopy (List.subset_cons_self x _)

theorem keeps_inodeShared {r : Script} (hr : Keeps (atFile fd .shared) r) :
    Keeps [(.fileStatus fd, .exclusive), (.big, .shared)]
      (locked (.inodeCache fd.inode) .shared r) :=
  keeps_locked ⟨by simp [Lock.rank], List.cons_ne_nil _ _⟩ hr

theorem keeps_copyToBuf : Keeps [(.big, .shared)] (copyToBuf fd) := by
  refine keeps_locked ⟨by simp [Lock.rank], List.cons_ne_nil _ _⟩
    (keeps_inodeShared (takes_mul (keeps_readCopy .shared) ?_))
  exact takes_add takes_one (takes_mul keeps_refresh (keeps_moves .shared))

theorem keeps_write (vec : List Nat) : Keeps [(.big, .shared)] (Script.write fd vec) := by
  refine keeps_locked ⟨by simp [Lock.rank], List.cons_ne_nil _ _⟩
    (takes_add (takes_mul ?_ (keeps_extend vec)) ?_)
  · exact keeps_inodeShared (takes_mul (keeps_readCopy .shared) keeps_refresh)
  · exact keeps_inodeShared (takes_mul (takes_mul (keeps_readCopy .shared) keeps_refresh)
      (keeps_moves .shared))

/-! ### The operations -/

theorem keeps_big {x : Hold} {r : Script} (hr : Keeps [(.big, x)] r) : Keeps [] (locked .big x r) :=
  takes_locked (fun _ he => by cases he) ⟨fun _ => rfl, fun _ => rfl⟩ hr

theorem keeps_attributes (i : Nat) : Keeps [] (attributes i) := by
  have hbig : (Lock.big, Hold.exclusive) ∈ [(Lock.big, Hold.exclusive)] := List.mem_cons_self
  have hlow : Below 1 [(Lock.big, Hold.exclusive)] := ⟨by simp [Lock.rank], List.cons_ne_nil _ _⟩
  have hinode := List.mem_cons_of_mem (Lock.inodeCache i, Hold.exclusive) hbig
  refine keeps_big (takes_mul (keeps_nameCalls hbig (hlow.mono (by decide)))
    (takes_add takes_one ?_))
  refine takes_mul (keeps_getCache hbig hlow)
    (takes_add takes_one (takes_mul ?_ (keeps_relCache hbig hlow)))
  exact keeps_locked (hlow.mono (by simp [Lock.rank]))
    (takes_mul (keeps_alone hinode List.mem_cons_self) (keeps_commit hinode))

end Script

open Script in
/-- On every path an operation follows the order of the locks, touches nothing without
its guard, and has given back all locks when it returns. -/
theorem FuseCall.keeps (c : FuseCall) : Script.Keeps [] c.script := by
  have hbig : (Lock.big, Hold.exclusive) ∈ [(Lock.big, Hold.exclusive)] := List.mem_cons_self
  have hlow : Below 1 [(Lock.big, Hold.exclusive)] := ⟨by simp [Lock.rank], List.cons_ne_nil _ _⟩
  have hthree : Below 3 [(Lock.big, Hold.exclusive)] := hlow.mono (by decide)
  have hnames : Script.Keeps [(.big, .exclusive)] nameCalls :=
    keeps_nameCalls hbig (hlow.mono (by decide))
  have hinode : ∀ i x, (Lock.big, Hold.exclusive) ∈
    [(Lock.inodeCache i, x), (Lock.big, Hold.exclusive)] := fun i x =>
    List.mem_cons_of_mem _ hbig
  have hflag : ∀ {fd}, Script.Keeps [(.big, .exclusive)] (writes (.updateFlag fd)) :=
    keeps_alone hbig List.mem_cons_self
  have hcursor : ∀ {fd}, Script.Keeps [(.big, .exclusive)] (writes (.cursor fd)) :=
    keeps_alone hbig List.mem_cons_self
  cases c with
  | create fd =>
    refine keeps_big (takes_mul hnames (takes_add takes_one
      (takes_mul (takes_mul (takes_mul hflag hcursor) (keeps_getCache hbig hlow)) ?_)))
    · refine takes_add takes_one (takes_mul (takes_mul (keeps_updCache hbig hlow) hflag) ?_)
      exact keeps_locked hthree (takes_mul (keeps_alone (hinode _ _) List.mem_cons_self)
        (keeps_commit (hinode _ _)))
  | «open» fd =>
    refine keeps_big (takes_mul hnames (takes_add takes_one
      (takes_mul (takes_mul (takes_mul (takes_mul (takes_mul hflag hcursor)
      (keeps_getCache hbig hlow)) (keeps_updCache hbig hlow)) hflag) ?_)))
    exact keeps_locked hthree (keeps_alone (hinode _ _) List.mem_cons_self)
  | release fd =>
    refine keeps_big (takes_add takes_one (takes_mul (takes_mul ?_ hcursor)
      (keeps_relCache hbig hlow)))
    exact keeps_locked hthree keeps_vec
  | fsync fd =>
    refine keeps_big (takes_add takes_one (takes_mul (takes_mul (takes_add takes_one ?_) ?_)
      keeps_blocks))
    · exact keeps_locked hthree (keeps_commit (hinode _ _))
    · exact keeps_alone hbig (List.mem_singleton.mpr rfl)
  | read fd => exact keeps_big (takes_add takes_one keeps_copyToBuf)
  | write fd vec => exact keeps_big (takes_add takes_one (keeps_write vec))
  | getattr i =>
    refine keeps_big (takes_mul hnames (takes_add takes_one
      (takes_mul (keeps_getCache hbig hlow) (takes_add takes_one ?_))))
    exact takes_mul (keeps_locked hthree (keeps_alone (hinode _ _) List.mem_cons_self))
      (keeps_relCache hbig hlow)
  | chmod i => exact keeps_attributes i
  | chown i => exact keeps_attributes i
  | utimens i => exact keeps_attributes i
  | mkdir i => exact keeps_attributes i
  | unlink i =>
    refine keeps_big (takes_mul hnames (takes_add takes_one
      (takes_mul (takes_mul (takes_mul (keeps_getCache hbig hlow) ?_)
      (keeps_relCache hbig hlow)) (takes_add takes_one hnames))))
    exact keeps_locked hthree (takes_mul (keeps_alone (hinode _ _) (List.mem_singleton.mpr rfl))
      (keeps_alone (hinode _ _) List.mem_cons_self))
  | truncate => exact keeps_big takes_one
  | rmdir => exact keeps_big hnames
  | link => exact keeps_big hnames
  | rename => exact keeps_big hnames
  | symlink => exact keeps_big hnames
  | readlink => exact keeps_big hnames
  | access => exact keeps_big hnames
  | readdir => exact keeps_big hnames

/-! ## A reader -/

namespace Script

/-- The locks of a reader inside `get_block`. -/
def inGetBlock (fd : OpenFile) : Held Lock := (.getBlock, .shared) :: atFile fd .shared

/-- A read of one block through a handle that has not moved yet. -/
def readerPath (fd : OpenFile) : List (Event Lock SharedData) :=
  [.acquire .big .shared, .acquire (.fileStatus fd) .exclusive,
    .acquire (.inodeCache fd.inode) .shared, .access (.copy fd.inode) .read,
    .access (.updateFlag fd) .write, .acquire .getBlock .shared, .access .blocks .write,
    .release .getBlock, .release (.inodeCache fd.inode), .release (.fileStatus fd), .release .big]

theorem mem_right {p q : Script} {w : List (Event Lock SharedData)} (h : w ∈ q.matches') :
    w ∈ (p + q).matches' := Or.inr h

theorem mem_then {p q : Script} {v w : List (Event Lock SharedData)} (hv : v ∈ p.matches')
    (hw : w ∈ q.matches') :
    v ++ w ∈ (p * q).matches' := Language.append_mem_mul hv hw

theorem mem_skip {p : Script} : [] ∈ (1 + p).matches' := Or.inl (Set.mem_singleton _)

theorem mem_access (o : SharedData) (m : Mode) :
    [Event.access o m] ∈ (RegularExpression.char (Event.access (L := Lock) o m)).matches' :=
  Set.mem_singleton _

theorem readerPath_mem (fd : OpenFile) : readerPath fd ∈ (FuseCall.read fd).script.matches' := by
  have hblock := mem_then (mem_locked (l := .getBlock) (x := .shared) (mem_access .blocks .write))
    (mem_skip (p := locked .getBlock .exclusive (writes .blocks)))
  have hmoves : [_].flatten ∈ (moves fd).matches' :=
    Language.join_mem_kstar (List.forall_mem_singleton.mpr (mem_right hblock))
  have hrefresh : _ ∈ (refresh fd).matches' :=
    mem_then (mem_access (.updateFlag fd) .write) mem_skip
  have hread := mem_then (mem_access (.copy fd.inode) .read)
    (mem_right (p := 1) (q := refresh fd * moves fd) (mem_then hrefresh hmoves))
  exact mem_locked (mem_right (mem_locked (mem_locked hread)))

def reader (fd : OpenFile) : Server where
  calls := [.read fd]
  events := readerPath fd ++ []
  path := mem_then (readerPath_mem fd) (Set.mem_singleton _)

end Script

/-! ## All interleavings -/

section
variable {T : Type} [DecidableEq T] (servers : T → Server)

open Script

omit [DecidableEq T] in
theorem orderly_serving : Orderly lockDiscipline (serving servers) := by
  refine orderly_start fun t => ?_
  have hkeeps : Script.Keeps [] ((servers t).calls.map FuseCall.script).prod := by
    refine takes_prod fun p hp => ?_
    obtain ⟨c, -, rfl⟩ := List.mem_map.mp hp
    exact c.keeps
  exact hkeeps.follows (servers t).path

/-- In every interleaving of the calls of any number of threads, as long as one of them
has something left to do some thread can go on, also under locks that keep readers out
while a writer waits; and all of them can come to their end. -/
theorem servers_never_stuck [Fintype T] (schedule : List T) :
    Runs.Along RwLocks.step (fun s => ((∃ t, (s t).todo ≠ []) → ∃ t, Ready s t) ∧
      ∃ rest s', Runs.run RwLocks.step rest s = some s' ∧
      ∀ t, (s' t).todo = []) schedule (serving servers) := by
  refine Runs.along_of_inv (fun s hs => ⟨?_, ?_⟩) (fun s t s' hs h => hs.step h) schedule
    _ (orderly_serving servers)
  · rintro ⟨t, ht⟩
    exact hs.exists_ready Lock.rank_le ht
  · exact hs.completes Lock.rank_le (remaining s) rfl

theorem races_only_on_blocks (schedule : List T) :
    Runs.Along RwLocks.step (fun s => ∀ o, Race s o → o = .blocks) schedule (serving servers) := by
  refine Runs.along_of_inv (fun s hs o hrace => ?_) (fun s t s' hs h => hs.step h) schedule
    _ (orderly_serving servers)
  by_contra ho
  exact hs.no_race (lockDiscipline_protects ho) hrace

/-! ### Two readers -/

/-- No thread keeps a new reader on handle `fd` out. -/
def Admits (s : T → Thread Lock SharedData) (fd : OpenFile) : Prop :=
  ∀ t l h, (l, h) ∈ (s t).held → l ≠ .fileStatus fd ∧ ((∀ fd', l ≠ .fileStatus fd') → h = .shared)

theorem reader_enters {s : T → Thread Lock SharedData} {t : T} (fd : OpenFile)
    (hs : s t = ⟨[], readerPath fd⟩) (hfree : Admits s fd) :
    Runs.run RwLocks.step (List.replicate 6 t) s =
      some (Function.update s t ⟨inGetBlock fd, (readerPath fd).drop 6⟩) := by
  have hshared : ∀ {l : Lock}, (∀ fd', l ≠ .fileStatus fd') → ∀ u m', (l, m') ∈ (s u).held →
    Hold.shared = .shared ∧ m' = .shared :=
    fun hl u m' hu => ⟨rfl, (hfree u _ m' hu).2 hl⟩
  have hfile : ∀ u m', (Lock.fileStatus fd, m') ∈ (s u).held → Hold.exclusive = .shared ∧
    m' = .shared := fun u m' hu =>
    absurd rfl (hfree u _ m' hu).1
  rw [← Function.update_eq_self t s, hs, Function.update_idem]
  simp only [List.replicate, Runs.run, readerPath, List.drop]
  rw [step_acquire (by simp) (hshared (by simp)), Option.bind_some, step_acquire (by simp) hfile,
    Option.bind_some, step_acquire (by simp) (hshared (by simp)), Option.bind_some, step_access,
    Option.bind_some, step_access, Option.bind_some, step_acquire (by simp) (hshared (by simp)),
    Option.bind_some]
  rfl

theorem readers_race {t t' : T} (hne : t ≠ t') (fd fd' : OpenFile) (hfd : fd ≠ fd')
    (hservers : servers t = reader fd) (hservers' : servers t' = reader fd') :
    ∃ s, Runs.run RwLocks.step (List.replicate 6 t ++ List.replicate 6 t') (serving servers) =
      some s ∧ Race s .blocks := by
  have hfirst := reader_enters (s := serving servers) (t := t) fd
    (by simp [serving, start, hservers, reader])
    (fun u l h hu => absurd hu List.not_mem_nil)
  have hsecond := reader_enters (s := Function.update (serving servers) t ⟨inGetBlock fd,
    (readerPath fd).drop 6⟩) (t := t') fd'
    (by rw [Function.update_of_ne hne.symm]; simp [serving, start, hservers', reader]) ?_
  · refine ⟨_, (Runs.run_append hfirst).trans hsecond, t, t', .write, .write,
      (readerPath fd).drop 7, (readerPath fd').drop 7, hne, ?_, ?_, Or.inl rfl⟩
    · rw [Function.update_of_ne hne, Function.update_self]
      rfl
    · rw [Function.update_self]
      rfl
  · intro u l h hu
    by_cases hut : u = t
    · subst hut
      rw [Function.update_self] at hu
      simp only [inGetBlock, atFile, List.mem_cons, List.not_mem_nil, or_false, Prod.mk.injEq] at hu
      rcases hu with ⟨rfl, rfl⟩ | ⟨rfl, rfl⟩ | ⟨rfl, rfl⟩ | ⟨rfl, rfl⟩ <;> simp [hfd]
    · rw [Function.update_of_ne hut] at hu
      exact absurd hu List.not_mem_nil

/-- The only object on which two threads can collide is the block layer, and there
two readers do. -/
theorem raced_iff_blocks [Nontrivial T] (o : SharedData) :
    (∃ (servers : T → Server) (schedule : List T) (s : T → Thread Lock SharedData),
      Runs.run RwLocks.step schedule (serving servers) = some s ∧ Race s o) ↔ o = .blocks := by
  constructor
  · rintro ⟨servers, schedule, s, hrun, hrace⟩
    exact (races_only_on_blocks servers schedule).last hrun o hrace
  · rintro rfl
    obtain ⟨t, t', hne⟩ := exists_pair_ne T
    obtain ⟨s, hrun, hrace⟩ :=
      readers_race (Function.update (fun _ => reader ⟨0, 1⟩) t' (reader ⟨1, 1⟩)) hne
      ⟨0, 1⟩ ⟨1, 1⟩ (by decide) (Function.update_of_ne hne _ _) (Function.update_self _ _ _)
    exact ⟨_, _, s, hrun, hrace⟩

theorem two_readers_race :
    ∃ (servers : Bool → Server) (schedule : List Bool) (s : Bool → Thread Lock SharedData),
    Runs.run RwLocks.step schedule (serving servers) = some s ∧ Race s .blocks :=
  (raced_iff_blocks .blocks).mpr rfl

/-- While a thread holds the big lock exclusively, no other thread holds any lock. -/
theorem exclusive_calls_alone (schedule : List T) :
    Runs.Along RwLocks.step (fun s => ∀ t t', (Lock.big, Hold.exclusive) ∈ (s t).held → t' ≠ t →
      (s t').held = []) schedule
      (serving servers) := by
  refine Runs.along_of_inv (fun s hs t t' hbig hne => ?_) (fun s t s' hs h => hs.step h) schedule
    _ (orderly_serving servers)
  exact hs.sole hbig hne

end

end NaiveFS
