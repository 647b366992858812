import NaiveFS.DeleteSound
import NaiveFS.EntrySound
import NaiveFS.Lib.Runs
import NaiveFS.TreeFS

/-!
# Every block has one owner

In every state with at most 32 block groups the data and indirect blocks of the
allocated inodes are allocated and pairwise different. Deletion frees blocks of
the inodes it frees, allocation hands out blocks nobody has, and nothing else
moves a block.
-/

namespace NaiveFS

open PointerTree Groups

/-! ## The blocks of a file -/

section
variable {s : GroupStore} {ino : TreeInode} {n : Nat} {loc : Pos → Nat}
  (t : PtrTree slotOf ino.iBlock s.data (Live n) loc)
include t

theorem blockAt_eq {p : Pos} (hp : Live n p) : s.blockAt ino p = some (loc p) :=
  t.follow_eq depth_pos depth_slot (fun _ _ => rfl) maxDepth p (depth_le p) hp

theorem fileBlocks_eq (hb : ino.iBlocks = 8 * n) :
    s.fileBlocks ino = (List.range n).map fun k => loc (.data k) := by
  unfold GroupStore.fileBlocks
  rw [numAlignedBlocks_eq, hb, Nat.mul_div_cancel_left n (by decide), ← List.filterMap_eq_map]
  apply List.filterMap_congr
  intro k hk
  exact blockAt_eq t (List.mem_range.mp hk)

theorem mem_fileBlocks (hb : ino.iBlocks = 8 * n) {b : Nat} :
    b ∈ s.fileBlocks ino ↔ ∃ k < n, loc (.data k) = b := by
  simp [fileBlocks_eq t hb]

end

namespace TreeFS

/-! ## The invariant -/

/-- Where the blocks of the allocated inodes are: inode `i` has `n i` blocks, and
the block of its position `p` is `loc i p`. -/
structure Placed (s : TreeFS) (n : Nat → Nat) (loc : Nat → Pos → Nat) : Prop where
  books : s.groups.Books
  root : s.groups.allocated .inode rootInode = true
  size : ∀ i, s.groups.allocated .inode i = true → (s.inodes i).iBlocks = 8 * n i
  tree : ∀ i, s.groups.allocated .inode i = true →
    PtrTree slotOf (s.inodes i).iBlock s.store.data (Live (n i)) (loc i)
  apart : ∀ i j, s.groups.allocated .inode i = true → s.groups.allocated .inode j = true → i ≠ j →
    ∀ p q, Live (n i) p → Live (n j) q → loc i p ≠ loc j q

variable {s s' : TreeFS} {n : Nat → Nat} {loc : Nat → Pos → Nat} {i : Nat}

theorem Placed.allocated (h : s.Placed n loc) (hi : s.groups.allocated .inode i = true) {p : Pos}
    (hp : Live (n i) p) :
    s.groups.allocated .block (loc i p) = true :=
  GroupStore.data_isSome.mp ((h.tree i hi).alloc p hp)

theorem Placed.congr (h : s.Placed n loc) (hstore : s'.store = s.store)
    (hino : ∀ i, (s'.inodes i).iBlocks = (s.inodes i).iBlocks ∧
      (s'.inodes i).iBlock = (s.inodes i).iBlock) :
    s'.Placed n loc := by
  have hg : s'.groups = s.groups := congrArg GroupStore.groups hstore
  refine ⟨hg ▸ h.books, hg ▸ h.root, fun i hi => ?_, fun i hi => ?_, hg ▸ h.apart⟩
  · rw [(hino i).1]
    exact h.size i (hg ▸ hi)
  · rw [(hino i).2, hstore]
    exact h.tree i (hg ▸ hi)

theorem Placed.clean (h : s.Placed n loc) : s.view.Clean s.groups := by
  have hmem : ∀ {i b}, s.groups.allocated .inode i = true → b ∈ (s.view.inodes i).iBlock →
    ∃ k < n i, loc i (.data k) = b :=
    fun {i b} hi hb => (mem_fileBlocks (h.tree i hi) (h.size i hi)).mp hb
  refine ⟨h.books, ⟨?_, ?_⟩, fun i hi => ?_⟩
  · rintro i b ⟨hi, hb⟩
    obtain ⟨k, hk, rfl⟩ := hmem hi hb
    exact h.allocated hi hk
  · rintro i j b ⟨hi, hbi⟩ ⟨hj, hbj⟩
    obtain ⟨k, hk, hbk⟩ := hmem hi hbi
    obtain ⟨k', hk', hbk'⟩ := hmem hj hbj
    by_contra hij
    exact h.apart i j hi hj hij (.data k) (.data k') hk hk' (hbk.trans hbk'.symm)
  · show (s.store.fileBlocks (s.inodes i)).Nodup
    rw [fileBlocks_eq (h.tree i hi) (h.size i hi)]
    apply List.Nodup.map_on _ List.nodup_range
    intro k hk k' hk' heq
    have := (h.tree i hi).inj (.data k) (.data k') (List.mem_range.mp hk)
      (List.mem_range.mp hk') heq
    cases this
    rfl

/-! ## A new block -/

theorem allocBlock_fields (s : TreeFS) (i : Nat) :
    (s.allocBlock i).1 = (NaiveFS.allocBlock (s.inodes i) s.store).1 ∧
      (s.allocBlock i).2.store = (NaiveFS.allocBlock (s.inodes i) s.store).2.2 ∧
      (s.allocBlock i).2.inodes =
      Function.update s.inodes i (NaiveFS.allocBlock (s.inodes i) s.store).2.1 := by
  unfold allocBlock
  rcases NaiveFS.allocBlock (s.inodes i) s.store with ⟨_ | b, ino, store⟩ <;> exact ⟨rfl, rfl, rfl⟩

theorem Placed.allocBlock (h : s.Placed n loc) (hi : s.groups.allocated .inode i = true)
    (hle : (s.allocBlock i).2.groups.groupCount ≤ 32) :
    (s.allocBlock i).1.isSome ∧ (∀ j, (s.allocBlock i).2.groups.allocated .inode j =
      s.groups.allocated .inode j) ∧ ∃ n' loc', (s.allocBlock i).2.Placed n' loc' := by
  obtain ⟨hres, hstore, hinodes⟩ := allocBlock_fields s i
  unfold groups at hle
  rw [hstore] at hle
  obtain ⟨b, ino, store, loc', t, t', heq, hbooks, hsame, htdata, ht'data, hg⟩ :=
    GroupStore.allocBlock_grown h.books (h.tree i hi) (h.size i hi) hle
  rw [heq] at hres hstore hinodes
  have hgroups : (s.allocBlock i).2.groups = store.groups := congrArg GroupStore.groups hstore
  -- no block of another inode is touched
  have haway : ∀ j, s.groups.allocated .inode j = true → i ≠ j → ∀ p q, Live (n i + 1) p →
    Live (n j) q → loc' p ≠ loc j q := by
    intro j hj hij p q hp hq
    by_cases hold : Live (n i) p
    · rw [hg.loc_old p hold]
      exact h.apart i j hi hj hij p q hold hq
    · intro heq
      have hnew := hg.new_free p hp hold
      have hthere := (h.tree j hj).alloc q hq
      rw [htdata, heq] at hnew
      rw [hnew] at hthere
      cases hthere
  have hkeep : ∀ b, (s.store.data b).isSome → (store.data b).isSome := by
    intro b hb
    rw [← ht'data]
    rcases hg.frame b with heq | ⟨p, hp, rfl, -⟩
    · rwa [heq, htdata]
    · exact hg.tree.alloc p hp
  refine ⟨by rw [hres]; rfl, fun j => by rw [hgroups]; exact hsame j, Function.update n i (n i + 1),
    Function.update loc i loc', by rw [hgroups]; exact hbooks, by rw [hgroups, hsame]; exact h.root,
    fun j hj => ?_, fun j hj => ?_, fun j k hj hk hjk p q hp hq => ?_⟩
  · rw [hinodes]
    rw [hgroups, hsame] at hj
    by_cases hji : j = i
    · subst hji
      rw [Function.update_self, Function.update_self]
      exact hg.iBlocks
    · rw [Function.update_of_ne hji, Function.update_of_ne hji]
      exact h.size j hj
  · rw [hinodes, hstore]
    rw [hgroups, hsame] at hj
    by_cases hji : j = i
    · subst hji
      rw [Function.update_self, Function.update_self, Function.update_self, ← ht'data]
      exact hg.tree
    · rw [Function.update_of_ne hji, Function.update_of_ne hji, Function.update_of_ne hji]
      apply (h.tree j hj).frame hkeep
      intro p q w hp hs
      rw [← ht'data, ← htdata]
      rcases hg.frame (loc j q) with heq | ⟨p', hp', heq, -⟩
      · exact heq
      · exact absurd heq (haway j hj (Ne.symm hji) p' q hp' ((h.tree j hj).cell_slot p q w hp hs).1)
  · rw [hgroups, hsame] at hj hk
    by_cases hji : j = i
    · subst hji
      rw [Function.update_self] at hp ⊢
      rw [Function.update_of_ne (Ne.symm hjk)] at hq ⊢
      exact haway k hk hjk p q hp hq
    · rw [Function.update_of_ne hji] at hp ⊢
      by_cases hki : k = i
      · subst hki
        rw [Function.update_self] at hq ⊢
        exact fun heq => haway j hj (Ne.symm hji) q p hq hp heq.symm
      · rw [Function.update_of_ne hki] at hq ⊢
        exact h.apart j k hj hk hjk p q hp hq

/-! ## A new inode -/

theorem Placed.newInode {g : Groups} (h : s.Placed n loc) (hout : HandedOut .inode i s.groups g)
    (hg : g.Books) (ino : ListInode) (hempty : ino.iBlocks = 0) :
    ({ s with
      store := { s.store with groups := g }
      inodes := Function.update s.inodes i (emptyTree ino) } : TreeFS).Placed
      (Function.update n i 0) loc := by
  have hdata : ({ s.store with groups := g } : GroupStore).data = s.store.data := by
    funext b
    show (if g.allocated .block b then _ else _) = if s.groups.allocated .block b then _ else _
    rw [hout.other (by decide)]
  have hold : ∀ {j}, j ≠ i → g.allocated .inode j = true → s.groups.allocated .inode j = true := by
    intro j hj ha
    rwa [hout.after, if_neg fun hc => hj hc.2] at ha
  refine ⟨hg, hout.keep h.root, fun j hj => ?_, fun j hj => ?_, fun j k hj hk hjk p q hp hq => ?_⟩
  · by_cases hji : j = i
    · subst hji
      simp [emptyTree, hempty]
    · simp only [Function.update_of_ne hji]
      exact h.size j (hold hji hj)
  · by_cases hji : j = i
    · subst hji
      rw [Function.update_self]
      exact PtrTree.of_none not_live_zero
    · simp only [Function.update_of_ne hji, hdata]
      exact h.tree j (hold hji hj)
  · by_cases hji : j = i
    · subst hji
      rw [Function.update_self] at hp
      exact absurd hp (not_live_zero p)
    · by_cases hki : k = i
      · subst hki
        rw [Function.update_self] at hq
        exact absurd hq (not_live_zero q)
      · rw [Function.update_of_ne hji] at hp
        rw [Function.update_of_ne hki] at hq
        exact h.apart j k (hold hji hj) (hold hki hk) hjk p q hp hq

/-! ## Deletion -/

theorem Placed.purged {F : Set Nat} {g : Groups} (h : s.Placed n loc)
    (hp : s.view.Purged F s.groups g) (hroot : rootInode ∉ F) :
    ({ s with store := { s.store with groups := g } } : TreeFS).Placed n loc := by
  have hold : ∀ {j}, g.allocated .inode j = true → s.groups.allocated .inode j = true ∧ j ∉ F :=
    fun {j} hj => (hp.inode j).mp hj
  -- a block of an inode that stays is not among the blocks freed
  have hkept : ∀ {j p}, g.allocated .inode j = true → Live (n j) p →
    g.allocated .block (loc j p) = true := by
    intro j p hj hlive
    obtain ⟨ha, hjF⟩ := hold hj
    refine (hp.block _).mpr ⟨h.allocated ha hlive, fun k hk _ hmem => ?_⟩
    have hak := hp.sub k hk
    obtain ⟨m, hm, heq⟩ := (mem_fileBlocks (h.tree k hak) (h.size k hak)).mp hmem
    refine h.apart k j hak ha ?_ (.data m) p hm hlive heq
    rintro rfl
    exact hjF hk
  have hdata : ∀ {b}, g.allocated .block b = true → s.groups.allocated .block b = true →
      ({ s.store with groups := g } : GroupStore).data b = s.store.data b := by
    intro b hb hb'
    show (if g.allocated .block b then _ else _) = if s.groups.allocated .block b then _ else _
    rw [if_pos hb, if_pos hb']
  refine ⟨hp.books, (hp.inode rootInode).mpr ⟨h.root, hroot⟩, fun j hj => h.size j (hold hj).1,
    fun j hj => ?_, fun j k hj hk => h.apart j k (hold hj).1 (hold hk).1⟩
  have t := h.tree j (hold hj).1
  refine ⟨fun p hlive => GroupStore.data_isSome.mpr (hkept hj hlive), t.inj, t.root_slot,
    fun p q w hlive hs => ?_⟩
  obtain ⟨hq, b, hb, hw⟩ := t.cell_slot p q w hlive hs
  refine ⟨hq, b, ?_, hw⟩
  rw [hdata (hkept hj hq) (h.allocated (hold hj).1 hq)]
  exact hb

end TreeFS

/-! ## What deletion keeps -/

theorem Groups.free_groupCount {g g' : Groups} {k : Kind} {i : Nat} {b : Bool}
    (h : g.free k i = some (b, g')) :
    g'.groupCount = g.groupCount := by
  have hcount : (g.setCount k (sub32 (g.super.sCount k) 1)).groupCount = g.groupCount := rfl
  unfold Groups.free at h
  simp only at h
  generalize g.setCount k (sub32 (g.super.sCount k) 1) = g₁ at h hcount
  unfold findGroup at h
  rw [← hcount]
  cases hfind : g₁.blockGroups.find (i / perGroup k) with
  | some bg =>
    simp only [hfind] at h
    split at h <;> cases h <;> rfl
  | none =>
    simp only [hfind] at h
    cases hdesc : g₁.super.getGroupDesc (i / perGroup k) with
    | none => simp [hdesc] at h
    | some slot =>
      simp only [hdesc] at h
      split at h <;> cases h <;> rfl

namespace FS

variable {s s' : FS} {P : Groups → Prop} {fuel : Nat} {path : Path} {r : RetCode}

section
variable (hblock : ∀ b g ok g', P g → g.free .block b = some (ok, g') → P g')
  (hinode : ∀ i g ok g', i ≠ rootInode → P g → g.free .inode i = some (ok, g') → P g')

include hblock in
theorem freeBlocks_inv :
    ∀ {bs : List Nat} {g g' : Groups}, P g → freeBlocks bs g = some g' → P g' := by
  intro bs
  induction bs with
  | nil =>
    intro g g' hg h
    cases h
    exact hg
  | cons b rest ih =>
    intro g g' hg h
    unfold freeBlocks at h
    rcases hf : g.free .block b with _ | ⟨ok, g₁⟩
    · simp [hf] at h
    · rw [hf] at h
      exact ih (hblock b g ok g₁ hg hf) h

theorem deleteAll_inv {del : Nat → Groups → Option (RetCode × Groups)}
    (hdel : ∀ i g r g', P g → del i g = some (r, g') → P g') :
    ∀ {es : List Dentry} {g g' : Groups}, P g → deleteAll del es g = some g' → P g' := by
  intro es
  induction es with
  | nil =>
    intro g g' hg h
    cases h
    exact hg
  | cons e rest ih =>
    intro g g' hg h
    unfold deleteAll at h
    split at h
    · rcases hd : del e.inode g with _ | ⟨r, g₁⟩
      · simp [hd] at h
      · rw [hd] at h
        exact ih (hdel _ _ _ _ hg hd) h
    · exact ih hg h

include hblock hinode in
/-- What is kept by freeing one block or one inode other than the root is kept by
a whole deletion. -/
theorem inodeDelete_inv :
    ∀ fuel index g r g', P g → s.inodeDelete fuel index g = some (r, g') → P g' := by
  intro fuel
  induction fuel with
  | zero =>
    intro index g r g' _ h
    cases h
  | succ fuel ih =>
    intro index g r g' hg h
    rcases inodeDelete_some h with ⟨rfl, -⟩ | ⟨i, g₁, b, hroot, -, -, hbody, hfree⟩
    · exact hg
    · refine hinode index g₁ b g' hroot ?_ hfree
      rcases hbody with ⟨-, hall⟩ | ⟨-, hall⟩
      · exact deleteAll_inv ih hg hall
      · exact freeBlocks_inv hblock hg hall

end

theorem inodeDelete_groupCount {index : Nat} {g g' : Groups}
    (h : s.inodeDelete fuel index g = some (r, g')) :
    g'.groupCount = g.groupCount :=
  inodeDelete_inv (P := fun x => x.groupCount =
    g.groupCount) (fun _ _ _ _ hg hf => (free_groupCount hf).trans hg)
    (fun _ _ _ _ _ hg hf => (free_groupCount hf).trans hg) fuel index g r g' rfl h

theorem dropLink_groups {index : Nat} (h : s.dropLink fuel index = some (r, s')) :
    s'.groups = s.groups ∨ ∃ t r', (∀ j, (t.inodes j).iBlock = (s.inodes j).iBlock ∧
      (t.inodes j).iMode = (s.inodes j).iMode) ∧ FS.inodeDelete t fuel index s.groups =
        some (r', s'.groups) := by
  unfold dropLink at h
  cases hget : s.groups.getInode index with
  | none =>
    simp only [hget] at h
    split at h
    · cases h
      exact Or.inl rfl
    · cases h
  | some j =>
    simp only [hget] at h
    split at h
    · obtain ⟨⟨r', g'⟩, hdel, heq⟩ := Option.map_eq_some_iff.mp h
      cases heq
      refine Or.inr ⟨_, r', fun k => ?_, hdel⟩
      by_cases hk : k = j
      · subst hk
        simp [setLinks]
      · simp [setLinks, hk]
    · cases h
      exact Or.inl rfl

theorem inodeUnlink_groups (h : s.inodeUnlink fuel path = some (r, s')) :
    s'.groups = s.groups ∨ ∃ t i r', (∀ j, (t.inodes j).iBlock = (s.inodes j).iBlock ∧
      (t.inodes j).iMode = (s.inodes j).iMode) ∧ FS.inodeDelete t fuel i s.groups =
        some (r', s'.groups) := by
  unfold inodeUnlink at h
  split at h
  · cases h
    exact Or.inl rfl
  split at h
  · cases h
    exact Or.inl rfl
  obtain ⟨c, hc⟩ := inodeLookup_frame path.parent s
  rcases hl : s.inodeLookup path.parent with ⟨e | parent, t⟩
  · rw [hl] at hc h
    cases h
    rw [show s' = _ from hc]
    exact Or.inl rfl
  rw [hl] at hc h
  cases (show t = _ from hc)
  simp only at h
  split at h
  · cases h
    exact Or.inl rfl
  rcases hk : ({ s with dcache := c } : FS).killName (deref parent) path.back with ⟨t, _ | i⟩
  · have ht : t.groups = s.groups := by
      rw [← show _ = t from congrArg Prod.fst hk]
      rfl
    simp only [hk] at h
    cases h
    exact Or.inl ht
  · have ht : t = { s with dents := t.dents, dcache := c } := by
      rw [← show _ = t from congrArg Prod.fst hk]
      rfl
    simp only [hk] at h
    rcases dropLink_groups h with hg | ⟨u, r', hu, hdel⟩
    · rw [hg, ht]
      exact Or.inl rfl
    · rw [ht] at hu hdel
      exact Or.inr ⟨u, i, r', hu, hdel⟩

theorem inodeUnlink_groupCount (h : s.inodeUnlink fuel path = some (r, s')) :
    s'.groups.groupCount = s.groups.groupCount := by
  rcases inodeUnlink_groups h with hg | ⟨t, i, r', -, hdel⟩
  · rw [hg]
  · exact inodeDelete_groupCount hdel

theorem inodeUnlink_purged (hs : s.Clean s.groups)
    (h : s.inodeUnlink fuel path = some (r, s')) :
    ∃ F, s.Purged F s.groups s'.groups ∧ rootInode ∉ F := by
  rcases inodeUnlink_groups h with hg | ⟨t, i, r', hsame, hdel⟩
  · rw [hg]
    exact ⟨∅, Purged.refl hs.books, fun hc => hc⟩
  · have ht : t.Clean s.groups := by
      refine ⟨hs.books, hs.owned.mono (fun _ hb => hb) ?_,
        fun j hj => by rw [(hsame j).1]; exact hs.nodup j hj⟩
      rintro j b ⟨hj, hb⟩
      exact ⟨hj, (hsame j).1 ▸ hb⟩
    obtain ⟨F, hF⟩ := inodeDelete_spec _ _ _ _ _ ht hdel
    have hp := hF.purged
    refine ⟨F, ⟨hp.books, hp.sub, fun j hj => ?_, hp.inode, fun b => ?_⟩,
      fun hmem => (hp.mortal _ hmem).1 rfl⟩
    · have hm := hp.mortal j hj
      unfold Mortal at hm ⊢
      rwa [(hsame j).2] at hm
    · rw [hp.block]
      simp only [fun j => (hsame j).1, fun j => (hsame j).2]

end FS

namespace TreeFS

variable {s s' : TreeFS} {n : Nat → Nat} {loc : Nat → Pos → Nat} {i index mode parent : Nat}
  {last : Option Nat} {name : Name} {r : RetCode}

/-! ## The operations open groups and close none -/

theorem allocBlock_groupCount (s : TreeFS) (i : Nat) :
    s.groups.groupCount ≤ (s.allocBlock i).2.groups.groupCount := by
  unfold groups
  rw [(allocBlock_fields s i).2.1]
  have hinv : LayerInv fun x : GroupStore => s.store.groups.groupCount ≤ x.groups.groupCount := by
    refine ⟨fun _ _ _ h => h, fun x h => ?_, fun _ _ _ h => h, fun _ _ h => h⟩
    show _ ≤ x.allocRaw.2.groups.groupCount
    rw [GroupStore.allocRaw_groups]
    exact Nat.le_trans h (alloc_groupCount .block x.groups)
  exact hinv.allocBlock (s.inodes i) (Nat.le_refl _)

theorem allocInode_groupCount (s : TreeFS) (mode : Nat) :
    s.groups.groupCount ≤ (s.allocInode mode).2.groups.groupCount := by
  have h := alloc_groupCount .inode s.groups
  unfold allocInode
  generalize s.groups.alloc .inode = a at h
  obtain ⟨_ | ⟨i, served⟩, g⟩ := a <;> exact h

theorem dentryCreate_cases
    (h : s.dentryCreate last parent name index mode = some (r, s')) :
    ∃ dents, s' = { (s.blockForDentry last parent name).2 with dents := dents } := by
  unfold dentryCreate Calls.dentryCreate at h
  generalize s.blockForDentry last parent name = q at h
  obtain ⟨_ | b, t⟩ := q
  · cases h
    exact ⟨_, rfl⟩
  · simp only at h
    split at h
    · cases h
    · cases h
      exact ⟨_, rfl⟩

theorem dentryCreate_groupCount (h : s.dentryCreate last parent name index mode = some (r, s')) :
    s.groups.groupCount ≤ s'.groups.groupCount := by
  obtain ⟨dents, rfl⟩ := dentryCreate_cases h
  exact Calls.blockForDentry_keeps (P := fun t => s.groups.groupCount ≤
    t.groups.groupCount) (Nat.le_refl _)
    (fun t ht => Nat.le_trans ht (allocBlock_groupCount t parent)) last name

theorem step_groupCount {fuel : Nat} {op : Op} (h : s.step fuel op = some s') :
    s.groups.groupCount ≤ s'.groups.groupCount := by
  cases op with
  | create path mode =>
    obtain ⟨⟨r, t⟩, hc, rfl⟩ := Option.map_eq_some_iff.mp h
    exact Calls.inodeCreate_keeps (P := fun t => s.groups.groupCount ≤
      t.groups.groupCount) (R := fun _ _ => True) (Nat.le_refl _)
      hc (fun _ ht => ⟨ht, fun _ _ => trivial⟩)
        (fun t _ ht _ => ⟨Nat.le_trans ht (allocInode_groupCount t mode.1), trivial⟩)
      (fun _ _ _ _ _ _ _ ht _ hd => Nat.le_trans ht (dentryCreate_groupCount hd))
  | link src dst =>
    obtain ⟨⟨r, t⟩, hl, rfl⟩ := Option.map_eq_some_iff.mp h
    exact Calls.inodeLink_keeps (P := fun t => s.groups.groupCount ≤
      t.groups.groupCount) (R := fun _ _ => True) (Nat.le_refl _)
      hl (fun _ ht => ht) (fun _ ht => ⟨ht, fun _ _ => trivial⟩)
      (fun _ _ _ _ _ _ _ _ ht _ hd => Nat.le_trans ht (dentryCreate_groupCount hd))
        (fun _ _ _ ht => ht)
  | unlink path =>
    obtain ⟨⟨r, t⟩, hu, rfl⟩ := Option.map_eq_some_iff.mp h
    unfold inodeUnlink at hu
    rcases hv : s.view.inodeUnlink fuel path with _ | ⟨r', fs⟩
    · simp [hv] at hu
    · simp only [hv, Option.some.injEq, Prod.mk.injEq] at hu
      rw [← hu.2]
      exact Nat.le_of_eq (FS.inodeUnlink_groupCount hv).symm
  | alloc inode =>
    simp only [step] at h
    split at h
    · cases h
      exact allocBlock_groupCount s inode
    · cases h

/-! ## One step -/

/-- The blocks of the allocated inodes have their places. -/
def Sound (s : TreeFS) : Prop := ∃ n loc, s.Placed n loc

theorem Sound.congr (h : s.Sound) (hstore : s'.store = s.store)
    (hino : ∀ i, (s'.inodes i).iBlocks = (s.inodes i).iBlocks ∧
      (s'.inodes i).iBlock = (s.inodes i).iBlock) :
    s'.Sound := by
  obtain ⟨n, loc, h⟩ := h
  exact ⟨n, loc, h.congr hstore hino⟩

theorem Sound.setLinks (h : s.Sound) (i n : Nat) : (s.setLinks i n).Sound := by
  refine h.congr (show (s.setLinks i n).store = s.store from rfl) fun j => ?_
  by_cases hj : j = i
  · subst hj
    simp [TreeFS.setLinks]
  · simp [TreeFS.setLinks, hj]

theorem Sound.allocBlock (h : s.Sound) (hi : s.groups.allocated .inode i = true)
    (hle : (s.allocBlock i).2.groups.groupCount ≤ 32) :
    (s.allocBlock i).2.Sound ∧ (s.allocBlock i).2.groups.allocated .inode i = true := by
  obtain ⟨n, loc, h⟩ := h
  obtain ⟨-, hsame, n', loc', h'⟩ := h.allocBlock hi hle
  exact ⟨⟨n', loc', h'⟩, (hsame i).trans hi⟩

theorem Sound.dentryCreate (h : s.Sound) (hp : s.groups.allocated .inode parent = true)
    (hd : s.dentryCreate last parent name index mode = some (r, s'))
    (hle : s'.groups.groupCount ≤ 32) : s'.Sound := by
  obtain ⟨dents, rfl⟩ := dentryCreate_cases hd
  let P (t : TreeFS) : Prop := t.groups.groupCount ≤ 32 → t.Sound ∧
    t.groups.allocated .inode parent = true
  have hblock : P (s.blockForDentry last parent name).2 :=
    Calls.blockForDentry_keeps (fun _ => ⟨h, hp⟩) (fun t ht hle => by
      obtain ⟨ht, hp⟩ := ht (Nat.le_trans (allocBlock_groupCount t parent) hle)
      exact ht.allocBlock hp hle) last name
  exact (hblock hle).1.congr rfl fun _ => ⟨rfl, rfl⟩

theorem Sound.allocInode (h : s.Sound) (mode : Nat)
    (hle : (s.allocInode mode).2.groups.groupCount ≤ 32) :
    (s.allocInode mode).2.Sound ∧ ∀ j, s.groups.allocated .inode j = true →
      (s.allocInode mode).2.groups.allocated .inode j = true := by
  obtain ⟨n, loc, h⟩ := h
  have hle' : (s.groups.alloc .inode).2.groupCount ≤ 32 := by
    unfold TreeFS.allocInode at hle
    generalize s.groups.alloc .inode = a at hle
    obtain ⟨_ | ⟨i, served⟩, g⟩ := a <;> exact hle
  obtain ⟨i, heq, hout, hbooks⟩ := h.books.alloc .inode (Nat.le_succ_of_le hle')
  unfold TreeFS.allocInode
  rw [heq]
  refine ⟨⟨_, _, h.newInode hout hbooks _ ?_⟩, fun j hj => hout.keep hj⟩
  split <;> rfl

theorem Sound.step {fuel : Nat} {op : Op} (h : s.Sound) (hs : s.step fuel op = some s')
    (hle : s'.groups.groupCount ≤ 32) :
    s'.Sound := by
  have hsound : s.groups.groupCount ≤ 32 → s.Sound := fun _ => h
  have hlook : ∀ (path : Path) (t : TreeFS), (t.groups.groupCount ≤ 32 → t.Sound) →
      ((t.inodeLookup path).2.groups.groupCount ≤ 32 → (t.inodeLookup path).2.Sound) ∧
      ∀ p, (t.inodeLookup path).1 = .ok p → (t.inodeLookup path).2.groups.groupCount ≤ 32 →
        (t.inodeLookup path).2.groups.allocated .inode (FS.deref p) = true := by
    intro path t ht
    refine ⟨fun hle => (ht hle).congr rfl fun _ => ⟨rfl, rfl⟩, fun p hok hle => ?_⟩
    obtain ⟨n, loc, hp⟩ := ht hle
    exact (FS.inodeLookup_parent (s := t.view) hp.root (Prod.ext hok rfl)).2
  have hentry : ∀ {mode : Nat} (t : TreeFS) last parent name index r t',
    (t.groups.groupCount ≤ 32 → t.Sound) →
      (t.groups.groupCount ≤ 32 → t.groups.allocated .inode parent = true) →
      t.dentryCreate last parent name index mode = some (r, t') → t'.groups.groupCount ≤ 32 →
      t'.Sound := by
    intro mode t last parent name index r t' ht hp hd hle
    have hle' := Nat.le_trans (dentryCreate_groupCount hd) hle
    exact (ht hle').dentryCreate (hp hle') hd hle
  cases op with
  | create path mode =>
    obtain ⟨⟨r, t⟩, hc, rfl⟩ := Option.map_eq_some_iff.mp hs
    refine Calls.inodeCreate_keeps hsound hc (hlook path.parent) (fun t p ht hp => ?_) hentry hle
    have hino := allocInode_groupCount t mode.1
    exact ⟨fun hle => ((ht (Nat.le_trans hino hle)).allocInode mode.1 hle).1,
      fun hle => ((ht (Nat.le_trans hino hle)).allocInode mode.1 hle).2 p
      (hp (Nat.le_trans hino hle))⟩
  | link src dst =>
    obtain ⟨⟨r, t⟩, hl, rfl⟩ := Option.map_eq_some_iff.mp hs
    exact Calls.inodeLink_keeps hsound hl (fun t ht => (hlook src t ht).1) (hlook dst.parent)
      (fun t last parent name index mode => hentry t last parent name index)
        (fun t i n ht hle => (ht hle).setLinks i n) hle
  | unlink path =>
    obtain ⟨⟨r, t⟩, hu, rfl⟩ := Option.map_eq_some_iff.mp hs
    obtain ⟨n, loc, hp⟩ := h
    unfold inodeUnlink at hu
    rcases hv : s.view.inodeUnlink fuel path with _ | ⟨r', fs⟩
    · simp [hv] at hu
    · simp only [hv, Option.some.injEq, Prod.mk.injEq] at hu
      rw [← hu.2]
      obtain ⟨F, hF, hrootF⟩ := FS.inodeUnlink_purged hp.clean hv
      exact ⟨n, loc, (hp.purged hF hrootF).congr rfl fun _ => ⟨rfl, rfl⟩⟩
  | alloc inode =>
    simp only [TreeFS.step] at hs
    split at hs
    · rename_i ha
      cases hs
      exact (h.allocBlock ha hle).1
    · cases hs

theorem Sound.format : TreeFS.format.Sound := by
  refine ⟨fun _ => 0, fun _ _ => 0, Books.format, by decide, fun i _ => ?_, fun i _ => ?_,
    fun i j _ _ _ p q hp => ?_⟩
  · show (FS.format.inodes i).iBlocks = 0
    by_cases hi : i = rootInode
    · subst hi; rfl
    · simp [FS.format, hi, FS.blankInode]
  · exact PtrTree.of_none not_live_zero
  · exact absurd hp (not_live_zero p)

/-! ## Whole runs -/

/-- Every data and indirect block of an allocated inode can be reached and is
marked in the block bitmap, and no block is at two positions. -/
structure OwnedOnce (s : TreeFS) : Prop where
  marked : ∀ i, s.groups.allocated .inode i = true →
    ∀ p, Live (numAlignedBlocks (s.inodes i).iBlocks) p →
    ∃ b, s.store.blockAt (s.inodes i) p = some b ∧ s.groups.allocated .block b = true
  once : ∀ i j b, s.groups.allocated .inode i = true → s.groups.allocated .inode j = true →
    ∀ p q, Live (numAlignedBlocks (s.inodes i).iBlocks) p →
    Live (numAlignedBlocks (s.inodes j).iBlocks) q →
      s.store.blockAt (s.inodes i) p = some b → s.store.blockAt (s.inodes j) q = some b →
      i = j ∧ p = q

theorem Sound.ownedOnce (h : s.Sound) : s.OwnedOnce := by
  obtain ⟨n, loc, h⟩ := h
  have hsize : ∀ {i}, s.groups.allocated .inode i = true → numAlignedBlocks (s.inodes i).iBlocks =
    n i := by
    intro i hi
    rw [numAlignedBlocks_eq, h.size i hi, Nat.mul_div_cancel_left _ (by decide)]
  refine ⟨fun i hi p hp => ?_, fun i j b hi hj p q hp hq hbp hbq => ?_⟩
  · rw [hsize hi] at hp
    exact ⟨loc i p, blockAt_eq (h.tree i hi) hp, h.allocated hi hp⟩
  · rw [hsize hi] at hp
    rw [hsize hj] at hq
    rw [blockAt_eq (h.tree i hi) hp] at hbp
    rw [blockAt_eq (h.tree j hj) hq] at hbq
    have heq : loc i p = loc j q := Option.some.inj (hbp.trans hbq.symm)
    by_cases hij : i = j
    · subst hij
      exact ⟨rfl, (h.tree i hi).inj p q hp hq heq⟩
    · exact absurd heq (h.apart i j hi hj hij p q hp hq)

/-- In every state of a run that has at most 32 block groups, every block has one owner. -/
theorem blocks_owned_once (fuel : Nat) (ops : List Op) :
    Runs.Along (step fuel) (fun s => s.groups.groupCount ≤ 32 → s.OwnedOnce) ops TreeFS.format := by
  have howned : ∀ s : TreeFS, (s.groups.groupCount ≤ 32 → s.Sound) → s.groups.groupCount ≤ 32 →
    s.OwnedOnce :=
    fun s hs hle => (hs hle).ownedOnce
  apply Runs.along_of_inv howned
  · intro s op s' hs hstep hle
    exact (hs (Nat.le_trans (step_groupCount hstep) hle)).step hstep hle
  · exact fun _ => Sound.format

end TreeFS

end NaiveFS
