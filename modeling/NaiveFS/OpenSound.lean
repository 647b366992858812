import NaiveFS.RenameSound

/-!
# Open inodes are not freed

An inode that `OpManager` holds for an open handle stays allocated as long as no
operation takes its last name away. `fuse_unlink` asks `OpManager` before it does
that, `fuse_rename` does not. Nothing is assumed about the shape of the directories:
a write may leave anything in any block.
-/

namespace NaiveFS

namespace FS

open Groups

variable {s s' : FS} {opm : Nat → Option InodeCache} {i b p id : Nat} {path : Path} {r : RetCode}
  {g : Groups}

/-! ## Blocks and copies -/

/-- Inode `i` has block `b`, in the inode table or in the copy of `OpManager`. -/
def Owns (s : FS) (opm : Nat → Option InodeCache) (i b : Nat) : Prop :=
  s.groups.allocated .inode i = true ∧ (b ∈ (s.inodes i).iBlock ∨ ∃ c, opm i = some c ∧
    b ∈ c.cache.iBlock)

/-- The inodes that have a copy are allocated, and no block belongs to two inodes. -/
structure Secured (s : FS) (opm : Nat → Option InodeCache) : Prop where
  books : s.groups.Books
  root : s.groups.allocated .inode rootInode = true
  opened : ∀ i c, opm i = some c → s.groups.allocated .inode i = true
  owned : Owned s.groups (s.Owns opm)
  nodup : ∀ i, s.groups.allocated .inode i = true → (s.inodes i).iBlock.Nodup
  copies : ∀ i c, opm i = some c → c.cache.iBlock.Nodup

theorem newInode_empty (s : FS) (mode : Nat) :
    (s.newInode mode).iSize = 0 ∧ (s.newInode mode).iBlocks = 0 := by
  unfold newInode
  split <;> exact ⟨rfl, rfl⟩

namespace Secured

variable (h : s.Secured opm)
include h

theorem clean : s.Clean s.groups where
  books := h.books
  owned := h.owned.mono (fun _ hb => hb) fun _ _ hb => ⟨hb.1, Or.inl hb.2⟩
  nodup := h.nodup

theorem closed (hi : s.groups.allocated .inode i = false) : opm i = none := by
  cases hc : opm i with
  | none => rfl
  | some c =>
    rw [h.opened i c hc] at hi
    cases hi

theorem congr (hg : s'.groups = s.groups) (hb : ∀ j, (s'.inodes j).iBlock = (s.inodes j).iBlock) :
    s'.Secured opm := by
  have howns : s'.Owns opm = s.Owns opm := by
    unfold Owns
    simp only [hg, hb]
  refine ⟨?_, ?_, ?_, ?_, ?_, h.copies⟩
  · rw [hg]
    exact h.books
  · rw [hg]
    exact h.root
  · rw [hg]
    exact h.opened
  · rw [hg, howns]
    exact h.owned
  · simp only [hg, hb]
    exact h.nodup

theorem addBlock {dents : Nat → List Dentry} (hp : s.groups.allocated .inode p = true)
    (hout : BlockOut b s.groups g) :
    ({ s with
      groups := g
      inodes := Function.update s.inodes p (FS.addBlock (s.inodes p) b)
      dents := dents } : FS).Secured opm := by
  have hfresh : b ∉ (s.inodes p).iBlock := by
    intro hb
    have := h.owned.allocated p b ⟨hp, Or.inl hb⟩
    rw [hout.fresh] at this
    cases this
  refine ⟨hout.books, (hout.inode _).trans h.root,
    fun j c hc => (hout.inode j).trans (h.opened j c hc), ?_, fun j hj => ?_, h.copies⟩
  · refine h.owned.grow p hout fun j x hx => ?_
    have ha : s.groups.allocated .inode j = true := (hout.inode j).symm.trans hx.1
    rcases hx.2 with hx | hx
    · by_cases hjp : j = p
      · subst hjp
        simp only [Function.update_self, addBlock_iBlock, List.mem_append, List.mem_singleton] at hx
        exact hx.imp (fun hx => ⟨ha, Or.inl hx⟩) fun hx => ⟨rfl, hx⟩
      · simp only [Function.update_of_ne hjp] at hx
        exact Or.inl ⟨ha, Or.inl hx⟩
    · exact Or.inl ⟨ha, Or.inr hx⟩
  · have ha : s.groups.allocated .inode j = true := (hout.inode j).symm.trans hj
    by_cases hjp : j = p
    · subst hjp
      simp only [Function.update_self, addBlock_iBlock]
      exact (h.nodup j ha).append (List.nodup_singleton b) (by simpa using hfresh)
    · simp only [Function.update_of_ne hjp]
      exact h.nodup j ha

theorem newInode {ino : ListInode} (hout : HandedOut .inode i s.groups g) (hbooks : g.Books)
    (hempty : ino.iBlock = []) :
    ({ s with groups := g, inodes := Function.update s.inodes i ino } : FS).Secured opm := by
  have hnone := h.closed hout.free
  have hold : ∀ {j}, j ≠ i → g.allocated .inode j = true → s.groups.allocated .inode j = true := by
    intro j hji hj
    rwa [hout.after, if_neg fun hc => hji hc.2] at hj
  refine ⟨hbooks, hout.keep h.root, fun j c hc => hout.keep (h.opened j c hc), ?_, fun j hj => ?_,
    h.copies⟩
  · refine h.owned.mono (fun x hx => hout.keep hx) fun j x hx => ?_
    obtain ⟨ha, hx⟩ := hx
    by_cases hji : j = i
    · subst hji
      simp [hempty, hnone] at hx
    · simp only [Function.update_of_ne hji] at hx
      exact ⟨hold hji ha, hx⟩
  · by_cases hji : j = i
    · subst hji
      simp [hempty]
    · simp only [Function.update_of_ne hji]
      exact h.nodup j (hold hji hj)

theorem dentryCreate {last : Option Nat} {index mode : Nat} {name : Name}
    (hp : s.groups.allocated .inode p = true)
    (hd : s.dentryCreate last p name index mode = some (r, s')) (hle : s'.groups.groupCount ≤ 33) :
    s'.Secured opm ∧ (∀ j, s'.groups.allocated .inode j = s.groups.allocated .inode j) ∧
      ∀ j, j ≠ p → s'.inodes j = s.inodes j := by
  obtain ⟨-, b, t, hblock, rfl⟩ := dentryCreate_inv hd
  rcases hblock with ⟨-, rfl, -⟩ | hb
  · exact ⟨h.congr rfl fun _ => rfl, fun _ => rfl, fun _ _ => rfl⟩
  · obtain ⟨b', g, heq, hout⟩ := allocBlock_spec p h.books (by rw [hb]; exact hle)
    rw [hb] at heq
    cases heq
    refine ⟨(h.addBlock hp hout).congr rfl fun _ => rfl, hout.inode, fun j hj => ?_⟩
    exact Function.update_of_ne hj ..

theorem created {mode : Nat} {result : Except RetCode Nat}
    (hc : s.inodeCreate path mode = some (result, s')) (hle : s'.groups.groupCount ≤ 33) :
    s'.Secured opm ∧ ∀ i, result = .ok i → opm i = none ∧ s'.groups.allocated .inode i = true ∧
      (s'.inodes i).iSize = 0 ∧ (s'.inodes i).iBlocks = 0 := by
  rcases inodeCreate_inv hc with ⟨c, e, -, rfl, rfl, -⟩ | ⟨parent, c, i, t, hl, -, -, -, -,
    rfl, ha, hdc⟩
  · exact ⟨h.congr rfl fun _ => rfl, fun i hi => by cases hi⟩
  · have hpa := (inodeLookup_parent h.root hl).2
    have h₀ : ({ s with dcache := c } : FS).Secured opm := h.congr rfl fun _ => rfl
    obtain ⟨i', g, heq, hout, hbooks⟩ := allocInode_spec mode h₀.books
      (by rw [ha]; exact Nat.le_trans (dentryCreate_groupCount hdc) hle)
    rw [ha] at heq
    cases heq
    have hne : i ≠ deref parent := by
      rintro rfl
      have := hout.free
      rw [hpa] at this
      cases this
    obtain ⟨hkept, halloc, hinodes⟩ :=
      (h₀.newInode hout hbooks (newInode_iBlock s mode)).dentryCreate (hout.keep hpa) hdc hle
    refine ⟨hkept, fun j hj => ?_⟩
    cases hj
    refine ⟨h.closed hout.free, ?_, ?_, ?_⟩
    · rw [halloc]
      exact hout.taken
    · rw [hinodes i hne]
      simp only [Function.update_self]
      exact (newInode_empty s mode).1
    · rw [hinodes i hne]
      simp only [Function.update_self]
      exact (newInode_empty s mode).2

theorem linked {src dst : Path} (hl : s.inodeLink src dst = some (r, s'))
    (hle : s'.groups.groupCount ≤ 33) : s'.Secured opm := by
  rcases inodeLink_inv hl with ⟨c, -, rfl, -⟩ | ⟨index, parent, c, c', t, -, -, hlook, -, -, -, -,
    -, -, hdc, rfl⟩
  · exact h.congr rfl fun _ => rfl
  · have hpa := (inodeLookup_parent (s := { s with dcache := c }) h.root hlook).2
    have h₀ : ({ s with dcache := c' } : FS).Secured opm := h.congr rfl fun _ => rfl
    exact (h₀.dentryCreate hpa hdc hle).1.congr rfl fun _ => setLinks_iBlock ..

theorem purged {F : Set Nat} (hp : s.Purged F s.groups g) (hF : ∀ j ∈ F, opm j = none) :
    ({ s with groups := g } : FS).Secured opm := by
  refine ⟨hp.books, (hp.inode _).mpr ⟨h.root, fun hc => (hp.mortal _ hc).1 rfl⟩, fun j c hc => ?_,
    ?_, fun j hj => ?_, h.copies⟩
  · refine (hp.inode j).mpr ⟨h.opened j c hc, fun hj => ?_⟩
    rw [hF j hj] at hc
    cases hc
  · have hback : ∀ {j x}, ({ s with groups := g } : FS).Owns opm j x → s.Owns opm j x :=
      fun hx => ⟨((hp.inode _).mp hx.1).1, hx.2⟩
    refine ⟨fun j x hx => (hp.block x).mpr ⟨h.owned.allocated j x (hback hx), fun k hk _ hxk => ?_⟩,
      fun j k x hj hk => h.owned.unique j k x (hback hj) (hback hk)⟩
    -- a freed block belonged to a deleted inode, so `j` would be that inode
    have heq := h.owned.unique j k x (hback hx) ⟨hp.sub k hk, Or.inl hxk⟩
    exact ((hp.inode j).mp hx.1).2 (heq ▸ hk)
  · exact h.nodup j ((hp.inode j).mp hj).1

theorem withCopy {c : InodeCache} (hc : ∀ x ∈ c.cache.iBlock, s.Owns opm id x)
    (hnd : c.cache.iBlock.Nodup) (hid : s.groups.allocated .inode id = true) :
    s.Secured (Function.update opm id (some c)) := by
  refine ⟨h.books, h.root, fun j d hd => ?_, h.owned.mono (fun _ hx => hx) fun j x hx => ?_,
    h.nodup, fun j d hd => ?_⟩
  · by_cases hj : j = id
    · rw [hj]
      exact hid
    · rw [Function.update_of_ne hj] at hd
      exact h.opened j d hd
  · by_cases hj : j = id
    · subst hj
      obtain ⟨ha, hx | ⟨d, hd, hx⟩⟩ := hx
      · exact ⟨ha, Or.inl hx⟩
      · rw [Function.update_self] at hd
        cases hd
        exact hc x hx
    · unfold Owns at hx
      rwa [Function.update_of_ne hj] at hx
  · by_cases hj : j = id
    · subst hj
      rw [Function.update_self] at hd
      cases hd
      exact hnd
    · rw [Function.update_of_ne hj] at hd
      exact h.copies j d hd

theorem withoutCopy (id : Nat) : s.Secured (Function.update opm id none) := by
  have hold : ∀ {j d}, Function.update opm id none j = some d → opm j = some d := by
    intro j d hd
    by_cases hj : j = id
    · rw [hj, Function.update_self] at hd
      cases hd
    · rwa [Function.update_of_ne hj] at hd
  refine ⟨h.books, h.root, fun j d hd => h.opened j d (hold hd),
    h.owned.mono (fun _ hx => hx) fun j x hx => ?_, h.nodup, fun j d hd => h.copies j d (hold hd)⟩
  exact ⟨hx.1, hx.2.imp_right fun ⟨d, hd, hx⟩ => ⟨d, hold hd, hx⟩⟩

theorem written {ino : ListInode} (hino : ∀ x ∈ ino.iBlock, s.Owns opm id x)
    (hnd : ino.iBlock.Nodup) :
    ({ s with inodes := Function.update s.inodes id ino } : FS).Secured opm := by
  refine ⟨h.books, h.root, h.opened, h.owned.mono (fun _ hx => hx) fun j x hx => ?_, fun j hj => ?_,
    h.copies⟩
  · by_cases hj : j = id
    · subst hj
      obtain ⟨ha, hx | hx⟩ := hx
      · simp only [Function.update_self] at hx
        exact hino x hx
      · exact ⟨ha, Or.inr hx⟩
    · unfold Owns at hx
      simp only [Function.update_of_ne hj] at hx
      exact hx
  · by_cases hji : j = id
    · subst hji
      simp only [Function.update_self]
      exact hnd
    · simp only [Function.update_of_ne hji]
      exact h.nodup j hj

theorem growCopy {c : InodeCache} {dents : Nat → List Dentry} (hc : opm id = some c)
    (hout : BlockOut b s.groups g) : ({ s with groups := g, dents := dents } : FS).Secured
      (Function.update opm id (some { c with cache := FS.addBlock c.cache b })) := by
  have hid := h.opened id c hc
  have hfresh : b ∉ c.cache.iBlock := by
    intro hb
    have := h.owned.allocated id b ⟨hid, Or.inr ⟨c, hc, hb⟩⟩
    rw [hout.fresh] at this
    cases this
  refine ⟨hout.books, (hout.inode _).trans h.root, fun j d hd => (hout.inode j).trans ?_, ?_,
    fun j hj => h.nodup j ((hout.inode j).symm.trans hj), fun j d hd => ?_⟩
  · by_cases hj : j = id
    · rw [hj]
      exact hid
    · rw [Function.update_of_ne hj] at hd
      exact h.opened j d hd
  · refine h.owned.grow id hout fun j x hx => ?_
    have ha : s.groups.allocated .inode j = true := (hout.inode j).symm.trans hx.1
    rcases hx.2 with hx | ⟨d, hd, hx⟩
    · exact Or.inl ⟨ha, Or.inl hx⟩
    · by_cases hj : j = id
      · subst hj
        rw [Function.update_self] at hd
        cases hd
        rw [addBlock_iBlock, List.mem_append, List.mem_singleton] at hx
        exact hx.imp (fun hx => ⟨ha, Or.inr ⟨c, hc, hx⟩⟩) fun hx => ⟨rfl, hx⟩
      · rw [Function.update_of_ne hj] at hd
        exact Or.inl ⟨ha, Or.inr ⟨d, hd, hx⟩⟩
  · by_cases hj : j = id
    · subst hj
      rw [Function.update_self] at hd
      cases hd
      rw [addBlock_iBlock]
      exact (h.copies j c hc).append (List.nodup_singleton b) (by simpa using hfresh)
    · rw [Function.update_of_ne hj] at hd
      exact h.copies j d hd

end Secured

/-! ## Taking names away -/

/-- `inode_unlink` takes the last link of an inode only if neither it nor anything
below it has a copy. -/
def SparesOpen (s : FS) (opm : Nat → Option InodeCache) (path : Path) : Prop :=
  ∀ i, s.target path = some i → u16 ((s.inodes (deref i)).iLinksCount + 65535) = 0 →
    ∀ j, s.Reach s.groups i j → opm j = none

theorem Secured.unlinked {fuel : Nat} (h : s.Secured opm) (hsp : s.SparesOpen opm path)
    (hu : s.inodeUnlink fuel path = some (r, s')) :
    s'.Secured opm := by
  rcases inodeUnlink_cases h.root hu with ⟨c, -, rfl, -⟩ | ⟨parent, c, st, i, hlook, hpa, hpd, hv,
    hne, hst, hk, hm, hdrop⟩
  · exact h.congr rfl fun _ => rfl
  · have htarget : s.target path = some i := by rw [target_eq hlook hpd hne, ← hst, hm]
    generalize DentryCache.drop c path.parent.names path.back = c' at hdrop
    unfold dropLink at hdrop
    cases hget : s.groups.getInode i with
    | none =>
      simp only [hget] at hdrop
      split at hdrop
      · cases hdrop
        exact h.congr rfl fun _ => rfl
      · cases hdrop
    | some k =>
      have hderef : k = deref i := by
        rcases getInode_cases hget with ⟨rfl, rfl⟩ | ⟨rfl, hk⟩
        · rfl
        · exact (deref_allocated h.books hk).symm
      simp only [hget] at hdrop
      split at hdrop
      · rename_i hlast
        obtain ⟨⟨rc, g'⟩, hdelete, heq⟩ := Option.map_eq_some_iff.mp hdrop
        cases heq
        have ht : (({ s with dents := st.1, dcache := c' } : FS).setLinks k
            (u16 ((s.inodes k).iLinksCount + 65535))).Secured opm := h.congr rfl fun _ =>
            setLinks_iBlock ..
        obtain ⟨F, hdel⟩ := inodeDelete_spec _ _ _ _ _ ht.clean hdelete
        refine ht.purged hdel.purged fun j hj => ?_
        exact hsp i htarget (hderef ▸ hlast) j (hk.reach (hdel.reach j hj))
      · cases hdrop
        exact h.congr rfl fun _ => setLinks_iBlock ..

end FS

namespace Mount

open FS Groups

variable {m m' : Mount} {fuel id : Nat} {c : InodeCache} {ctx : Context} {path : Path}
  {q : Int × Mount} {r : RetCode} {s s' : FS}

/-! ## `OpManager` -/

/-- The accounts of `OpManager` are in order, and what it holds is allocated. -/
structure Secure (m : Mount) : Prop where
  accounts : Accounts none m
  secured : m.fs.Secured m.opm

section
variable (h : m.fs.Secured m.opm)
include h

theorem Secured.getCache (hid : id ≠ 2 ^ 32 - 1) (hget : m.getCache id = some (c, m')) :
    m'.fs.Secured m'.opm ∧ m'.opm id = some c ∧ m.fs.groups.allocated .inode id = true ∧
      (m.opm id = none → c.cache = m.fs.inodes id ∧ c.cnts = 1) := by
  unfold Mount.getCache at hget
  cases hd : m.opm id with
  | some d =>
    simp only [hd, Option.some.injEq, Prod.mk.injEq] at hget
    obtain ⟨rfl, rfl⟩ := hget
    have ha := h.opened id d hd
    exact ⟨h.withCopy (fun x hx => ⟨ha, Or.inr ⟨d, hd, hx⟩⟩) (h.copies id d hd) ha,
      Function.update_self .., ha, fun hno => by cases hno⟩
  | none =>
    cases hg : m.fs.groups.getInode id with
    | none => simp [hd, hg] at hget
    | some i =>
      obtain ⟨rfl, ha⟩ := (getInode_cases hg).resolve_left fun hc => hid hc.1
      simp only [hd, hg, Option.some.injEq, Prod.mk.injEq] at hget
      obtain ⟨rfl, rfl⟩ := hget
      exact ⟨h.withCopy (fun x hx => ⟨ha, Or.inl hx⟩) (h.nodup id ha) ha, Function.update_self ..,
        ha, fun _ => ⟨rfl, rfl⟩⟩

theorem Secured.commit (hc : m.opm id = some c) : (m.commit id c.cache).fs.Secured m.opm := by
  have ha := h.opened id c hc
  simp only [Mount.commit, getInode_of_allocated h.books ha]
  exact h.written (fun x hx => ⟨ha, Or.inr ⟨c, hc, hx⟩⟩) (h.copies id c hc)

theorem Secured.relCache (hrel : m.relCache id = some m') : m'.fs.Secured m'.opm := by
  unfold Mount.relCache at hrel
  cases hc : m.opm id with
  | none =>
    simp only [hc, Option.some.injEq] at hrel
    subst hrel
    exact h
  | some c =>
    simp only [hc] at hrel
    split at hrel
    · obtain ⟨lists, -, rfl⟩ := Option.map_eq_some_iff.mp hrel
      obtain ⟨fs, hfs⟩ := commit_eq id c.cache m
      have hkept := (Secured.commit h hc).withoutCopy id
      rw [hfs] at hkept ⊢
      exact hkept
    · cases hrel
      have ha := h.opened id c hc
      exact h.withCopy (fun x hx => ⟨ha, Or.inr ⟨c, hc, hx⟩⟩) (h.copies id c hc) ha

theorem Secured.updateCache (hc : m.opm id = some c) {f : ListInode → ListInode}
    (hf : (f c.cache).iBlock = c.cache.iBlock) :
    (m.updateCache id c f).fs.Secured (m.updateCache id c f).opm ∧
      (m.updateCache id c f).opm = Function.update m.opm id (some { c with cache := f c.cache }) ∧
      (m.updateCache id c f).fs.inodes id = f c.cache := by
  have ha := h.opened id c hc
  have hopm : m.fs.Secured (Function.update m.opm id (some { c with cache := f c.cache })) := by
    refine h.withCopy (fun x hx => ⟨ha, Or.inr ⟨c, hc, ?_⟩⟩) ?_ ha
    · exact hf ▸ hx
    · show (f c.cache).iBlock.Nodup
      rw [hf]
      exact h.copies id c hc
  have hcommit :=
    Secured.commit
    (m := { m with opm := Function.update m.opm id (some { c with cache := f c.cache }) }) hopm
    (Function.update_self ..)
  unfold Mount.updateCache
  simp only [Mount.commit, getInode_of_allocated h.books ha] at hcommit ⊢
  exact ⟨hcommit, trivial, Function.update_self ..⟩

end

/-- A reference taken for a moment changes nothing. It is the only one exactly if the
inode is not open. -/
theorem Accounts.consult (h : Accounts none m) (hfew : (m.openOn id).length + 1 < 2 ^ 32)
    {m₁ : Mount} (hget : m.getCache id = some (c, m₁)) (hrel : m₁.relCache id = some m') :
    m'.fs = m.fs ∧ m'.opm = m.opm ∧ m'.handles = m.handles ∧ (c.cnts < 2 → m.opm id = none) := by
  unfold Mount.getCache at hget
  cases hd : m.opm id with
  | some d =>
    obtain ⟨hpos, -, hcnt⟩ := h.busy hd
    rw [users_none, cells_length] at hpos hcnt
    rw [u32_of_lt (Nat.lt_of_succ_lt hfew)] at hcnt
    simp only [hd, Option.some.injEq, Prod.mk.injEq] at hget
    obtain ⟨rfl, rfl⟩ := hget
    have hup : u32 (d.cnts + 1) = d.cnts + 1 := by
      apply u32_of_lt
      omega
    have hdown : sub32 (d.cnts + 1) 1 = d.cnts := by
      unfold sub32
      omega
    simp only [Mount.relCache, Function.update_self, hup, hdown] at hrel
    rw [if_neg (by omega)] at hrel
    cases hrel
    refine ⟨rfl, ?_, rfl, fun hlt => ?_⟩
    · rw [Function.update_idem]
      exact Function.update_eq_self_iff.mpr hd.symm
    · simp only [hup] at hlt
      omega
  | none =>
    cases hg : m.fs.groups.getInode id with
    | none => simp [hd, hg] at hget
    | some i =>
      simp only [hd, hg, Option.some.injEq, Prod.mk.injEq] at hget
      obtain ⟨rfl, rfl⟩ := hget
      simp only [Mount.relCache, Function.update_self, Mount.commit, hg] at hrel
      rw [if_pos (by decide)] at hrel
      obtain ⟨lists, -, rfl⟩ := Option.map_eq_some_iff.mp hrel
      refine ⟨?_, ?_, rfl, fun _ => rfl⟩
      · simp only [Function.update_eq_self]
      · simp only [Function.update_idem]
        exact Function.update_eq_self_iff.mpr hd.symm

/-! ## Writing -/

theorem growBy_groupCount :
    ∀ (n : Nat) (ino : ListInode) (s : FS), s.groups.groupCount ≤
      (fuseWrite.growBy n ino s).2.groups.groupCount := by
  intro n
  induction n with
  | zero => exact fun _ _ => Nat.le_refl _
  | succ n ih =>
    intro ino s
    obtain ⟨b, served, -, heq⟩ := allocBlockFor_eq ino s
    simp only [fuseWrite.growBy, heq]
    exact Nat.le_trans (takenFor_groupCount ino s.groups)
      (ih _ { s with groups := takenFor ino s.groups, dents := Function.update s.dents b [] })

theorem growBy_secured :
    ∀ (n : Nat) {c : InodeCache} {s : FS} {opm : Nat → Option InodeCache}, s.Secured opm →
    opm id = some c → (fuseWrite.growBy n c.cache s).2.groups.groupCount ≤ 33 →
      (fuseWrite.growBy n c.cache s).2.Secured
      (Function.update opm id (some { c with cache := (fuseWrite.growBy n c.cache s).1 })) := by
  intro n
  induction n with
  | zero =>
    intro c s opm h hc _
    rw [Function.update_eq_self_iff.mpr hc.symm]
    exact h
  | succ n ih =>
    intro c s opm h hc hle
    obtain ⟨b, served, -, heq⟩ := allocBlockFor_eq c.cache s
    have hstep : fuseWrite.growBy (n + 1) c.cache s = fuseWrite.growBy n (FS.addBlock c.cache b)
        { s with groups := takenFor c.cache s.groups, dents := Function.update s.dents b [] } := by
      simp only [fuseWrite.growBy, heq]
    rw [hstep] at hle ⊢
    obtain ⟨b', g, heq', hout⟩ := allocBlockFor_spec c.cache h.books
      (by rw [heq]; exact Nat.le_trans (growBy_groupCount n _ _) hle)
    rw [heq] at heq'
    cases heq'
    have hcopy :
      ({ s with groups := takenFor c.cache s.groups, dents := Function.update s.dents b [] } :
      FS).Secured
        (Function.update opm id (some { c with cache := FS.addBlock c.cache b })) :=
          h.growCopy hc hout
    have hgrown := ih hcopy (Function.update_self ..) hle
    rwa [Function.update_idem] at hgrown

theorem Secured.fuseWrite {fh grow size : Nat} {grows : Bool} {dents : Nat → List Dentry}
    (h : m.fs.Secured m.opm) (hr : m.fuseWrite fh grow size grows dents = some q)
    (hle : q.2.fs.groups.groupCount ≤ 33) : q.2.fs.Secured q.2.opm := by
  unfold Mount.fuseWrite at hr
  split at hr
  · cases hr
    exact h
  · rename_i fd _
    split at hr
    · cases hr
    · rename_i c hcache
      have hc : m.opm fd.inode = some c := (Option.filter_eq_some_iff.mp hcache).1
      have hkept : (fuseWrite.growBy grow c.cache m.fs).2.groups.groupCount ≤ 33 →
          ({ (fuseWrite.growBy grow c.cache m.fs).2 with dents := dents } : FS).Secured
          (Function.update m.opm fd.inode
            (some { c with
              cache := { (fuseWrite.growBy grow c.cache m.fs).1 with iSize := size } })) := by
        intro hcount
        have hgrown := growBy_secured grow h hc hcount
        have ha := hgrown.opened fd.inode _ (Function.update_self ..)
        have hnd := hgrown.copies fd.inode _ (Function.update_self ..)
        have hsized := hgrown.withCopy
          (c := { c with cache := { (fuseWrite.growBy grow c.cache m.fs).1 with iSize := size } })
          (fun x hx => ⟨ha, Or.inr ⟨_, Function.update_self .., hx⟩⟩) hnd ha
        rw [Function.update_idem] at hsized
        exact hsized.congr rfl fun _ => rfl
      simp only at hr
      split at hr
      · obtain ⟨m', hup, rfl⟩ := Option.map_eq_some_iff.mp hr
        obtain ⟨fds, -, rfl⟩ := Option.map_eq_some_iff.mp hup
        exact hkept hle
      · cases hr
        exact hkept hle

/-! ## Calls that change names -/

/-- No call of `inode_unlink` among `calls` takes the last link of an inode that is
open or above an open one. -/
def SparedBy (fuel : Nat) (opm : Nat → Option InodeCache) : List NameCall → FS → Prop
  | [], _ => True
  | call :: rest, fs => (∀ path, call = .unlink path → fs.SparesOpen opm path) ∧
      ∀ fs', call.run fuel fs = some (.success, fs') → SparedBy fuel opm rest fs'

theorem run_groupCount {call : NameCall} (h : call.run fuel s = some (r, s')) :
    s.groups.groupCount ≤ s'.groups.groupCount := by
  cases call with
  | link src dst => exact inodeLink_groupCount h
  | unlink path => exact Nat.le_of_eq (inodeUnlink_groupCount h).symm

theorem runCalls_groupCount : ∀ (calls : List NameCall) {s : FS},
    runCalls fuel calls s = some (r, s') → s.groups.groupCount ≤ s'.groups.groupCount := by
  intro calls
  induction calls with
  | nil =>
    intro s hr
    cases hr
    exact Nat.le_refl _
  | cons call rest ih =>
    intro s hr
    rcases runCalls_cons hr with ⟨-, hrun⟩ | ⟨t, hrun, hrest⟩
    · exact run_groupCount hrun
    · exact Nat.le_trans (run_groupCount hrun) (ih hrest)

theorem run_secured {opm : Nat → Option InodeCache} {call : NameCall} (h : s.Secured opm)
    (hsp : ∀ path, call = .unlink path → s.SparesOpen opm path)
    (hrun : call.run fuel s = some (r, s')) (hle : s'.groups.groupCount ≤ 33) : s'.Secured opm := by
  cases call with
  | link src dst => exact h.linked hrun hle
  | unlink path => exact h.unlinked (hsp path rfl) hrun

theorem runCalls_secured {opm : Nat → Option InodeCache} : ∀ (calls : List NameCall) {s : FS},
    s.Secured opm → SparedBy fuel opm calls s → runCalls fuel calls s = some (r, s') →
      s'.groups.groupCount ≤ 33 → s'.Secured opm := by
  intro calls
  induction calls with
  | nil =>
    intro s h _ hr _
    cases hr
    exact h
  | cons call rest ih =>
    intro s h hsp hr hle
    rcases runCalls_cons hr with ⟨-, hrun⟩ | ⟨t, hrun, hrest⟩
    · exact run_secured h hsp.1 hrun hle
    · exact ih (run_secured h hsp.1 hrun (Nat.le_trans (runCalls_groupCount rest hrest) hle))
        (hsp.2 t hrun) hrest hle

theorem Secured.finish {res : Except Int (List NameCall)} {fs : FS} (h : fs.Secured m.opm)
    (hsp : ∀ calls, res = .ok calls → SparedBy fuel m.opm calls fs)
    (hr : Mount.finish fuel m (res, fs) = some q) (hle : q.2.fs.groups.groupCount ≤ 33) :
    q.2.fs.Secured q.2.opm := by
  cases res with
  | error e =>
    cases hr
    exact h
  | ok calls =>
    obtain ⟨⟨r, fs'⟩, hrun, rfl⟩ := Option.map_eq_some_iff.mp hr
    exact runCalls_secured calls h (hsp calls rfl) hrun hle

/-! ## The other operations -/

theorem addHandle_handles (hadd : m.addHandle id c = some m') :
    m'.handles = (m.nextHandle, ⟨id, c.vec, m.nextCell, true⟩) :: m.handles := by
  obtain ⟨lists, -, rfl⟩ := Option.map_eq_some_iff.mp hadd
  rfl

theorem getCache_nextHandle (hget : m.getCache id = some (c, m')) :
    m'.nextHandle = m.nextHandle := by
  unfold Mount.getCache at hget
  split at hget
  · cases hget
    rfl
  · split at hget <;> cases hget
    rfl

theorem updateCache_frame (id : Nat) (c : InodeCache) (f : ListInode → ListInode) (m : Mount) :
    (m.updateCache id c f).handles = m.handles ∧ (m.updateCache id c f).fs.groups =
      m.fs.groups := by
  unfold Mount.updateCache
  obtain ⟨fs, hfs⟩ :=
    commit_eq id (f c.cache)
    { m with opm := Function.update m.opm id (some { c with cache := f c.cache }) }
  refine ⟨by rw [hfs], commit_groups ..⟩

/-- The handle that `fuse_create` returns is the only one on its inode, which is empty. -/
def NewFile (fh : Nat) (m : Mount) : Prop :=
  ∃ id c, m.openOn id = [fh] ∧ m.opm id = some c ∧ c.cnts = 1 ∧ c.cache.iSize = 0 ∧
    c.cache.iBlocks = 0 ∧ m.fs.inodes id = c.cache

/-- `inode_unlink` would find the inode that the lookup has found. -/
def Agrees (m : Mount) (path : Path) : Prop :=
  ∀ i, (m.fs.inodeLookup path).2.target path = some i → (m.fs.inodeLookup path).1 = .ok i

namespace Secure

variable (h : m.Secure)
include h

theorem fuseCreate {mode : Nat} (hr : m.fuseCreate ctx path mode = some q)
    (hle : q.2.fs.groups.groupCount ≤ 33) :
    q.2.fs.Secured q.2.opm ∧ (q.1 = 0 → q.2.NewFile m.nextHandle) := by
  unfold Mount.fuseCreate at hr
  rcases hcr : m.fs.inodeCreate path mode with _ | ⟨e | id, fs⟩
  · simp [hcr] at hr
  · simp only [hcr, Option.some.injEq] at hr
    subst hr
    exact ⟨(h.secured.created hcr hle).1,
      fun hz => absurd (code2Errno_eq_zero hz) (inodeCreate_error hcr)⟩
  · simp only [hcr] at hr
    rcases hget : Mount.getCache id { m with fs := fs } with _ | ⟨c, m₁⟩
    · simp only [hget, Option.some.injEq] at hr
      subst hr
      exact ⟨(h.secured.created hcr hle).1, fun hz => absurd hz (show -eio ≠ 0 by decide)⟩
    · simp only [hget] at hr
      obtain ⟨m₂, hadd, rfl⟩ := Option.map_eq_some_iff.mp hr
      obtain ⟨hfs₁, hh₁⟩ := getCache_frame hget
      obtain ⟨hfs₂, hopm₂, -⟩ := addHandle_frame hadd
      obtain ⟨hh₃, hgroups₃⟩ := updateCache_frame id c (claim ctx mode) m₂
      have hcount : fs.groups.groupCount ≤ 33 := by
        rw [hgroups₃, hfs₂, hfs₁] at hle
        exact hle
      obtain ⟨hkept, hnew⟩ := h.secured.created hcr hcount
      obtain ⟨hnone, ha, -, hblocks⟩ := hnew id rfl
      obtain ⟨hkept₁, hopm₁, -, hcopy⟩ :=
        Secured.getCache (m := { m with fs := fs }) hkept (hkept.books.ne_root_alias ha) hget
      obtain ⟨hcache, hcnts⟩ := hcopy hnone
      rw [← hfs₂, ← hopm₂] at hkept₁
      rw [← hopm₂] at hopm₁
      obtain ⟨hkept₃, hopm₃, hino₃⟩ := Secured.updateCache hkept₁ hopm₁ (f := claim ctx mode) rfl
      refine ⟨hkept₃, fun _ => ⟨id, { c with cache := claim ctx mode c.cache }, ?_, ?_, hcnts, rfl,
        ?_, hino₃⟩⟩
      · have hold := (h.accounts.opm_none id).mp hnone
        unfold openOn at hold ⊢
        rw [hh₃, addHandle_handles hadd, hh₁, getCache_nextHandle hget,
          List.filter_cons_of_pos (by simp), List.map_cons, hold]
      · rw [hopm₃, Function.update_self]
      · show c.cache.iBlocks = 0
        rw [hcache]
        exact hblocks

theorem withLookup (path : Path) : ({ m with fs := (m.fs.inodeLookup path).2 } : Mount).Secure := by
  obtain ⟨c, hc⟩ := inodeLookup_frame path m.fs
  rw [hc]
  exact ⟨h.accounts.withFs _, h.secured.congr rfl fun _ => rfl⟩

theorem fuseOpen {flags : Nat} (hid : (m.fs.inodeLookup path).1 ≠ .ok (2 ^ 32 - 1))
    (hr : m.fuseOpen ctx path flags = some q) :
    q.2.fs.Secured q.2.opm := by
  have hlook := (h.withLookup path).secured
  unfold Mount.fuseOpen at hr
  rcases hl : m.fs.inodeLookup path with ⟨e | id, fs⟩
  · simp only [hl, Option.some.injEq] at hr hlook
    subst hr
    exact hlook
  · simp only [hl] at hr hlook
    split at hr
    · cases hr
      exact hlook
    · split at hr
      · cases hr
      · rename_i c m₁ hget
        obtain ⟨m₂, hadd, rfl⟩ := Option.map_eq_some_iff.mp hr
        obtain ⟨hfs₂, hopm₂, -⟩ := addHandle_frame hadd
        have hne : id ≠ 2 ^ 32 - 1 := by
          intro hc
          rw [hl, hc] at hid
          exact hid rfl
        rw [hfs₂, hopm₂]
        exact (Secured.getCache (m := { m with fs := fs }) hlook hne hget).1

theorem fuseRelease {fh : Nat} (hr : m.fuseRelease fh = some q) : q.2.fs.Secured q.2.opm := by
  unfold Mount.fuseRelease at hr
  split at hr
  · cases hr
    exact h.secured
  · split at hr
    · rename_i lists _ _
      obtain ⟨m', hrel, rfl⟩ := Option.map_eq_some_iff.mp hr
      exact Secured.relCache (m := { m with handles := _, lists := lists }) h.secured hrel
    · cases hr

theorem fuseMkdir {mode : Nat} (hr : m.fuseMkdir ctx path mode = some q)
    (hle : q.2.fs.groups.groupCount ≤ 33) :
    q.2.fs.Secured q.2.opm := by
  unfold Mount.fuseMkdir at hr
  simp only at hr
  generalize mode ||| sIfdir = mode at hr
  rcases hcr : m.fs.inodeCreate path mode with _ | ⟨e | id, fs⟩
  · simp [hcr] at hr
  · simp only [hcr, Option.some.injEq] at hr
    subst hr
    exact (h.secured.created hcr hle).1
  · simp only [hcr] at hr
    split at hr
    · cases hr
      exact (h.secured.created hcr hle).1
    · split at hr
      · cases hr
        exact (h.secured.created hcr hle).1
      · rename_i c m₁ hget
        obtain ⟨m₂, hrel, rfl⟩ := Option.map_eq_some_iff.mp hr
        have hcount : fs.groups.groupCount ≤ 33 := by
          rw [relCache_groups hrel, (updateCache_frame ..).2, (getCache_frame hget).1] at hle
          exact hle
        obtain ⟨hkept, hnew⟩ := h.secured.created hcr hcount
        have hne := hkept.books.ne_root_alias (hnew id rfl).2.1
        obtain ⟨hkept₁, hopm₁, -⟩ := Secured.getCache (m := { m with fs := fs }) hkept hne hget
        exact Secured.relCache (Secured.updateCache hkept₁ hopm₁ (f := claim ctx mode) rfl).1 hrel

theorem fuseLink {src dst : Path} (hr : m.fuseLink fuel src dst = some q)
    (hle : q.2.fs.groups.groupCount ≤ 33) :
    q.2.fs.Secured q.2.opm := by
  refine Secured.finish h.secured (fun calls hcalls => ?_) hr hle
  cases hcalls
  exact ⟨fun path hp => (by cases hp), fun _ _ => trivial⟩

/-- The check of `fuse_unlink` is enough for a file. -/
theorem fuseUnlink (hfew : ∀ i, (m.openOn i).length + 1 < 2 ^ 32) (hagree : m.Agrees path)
    (hfile : ∀ i, (m.fs.inodeLookup path).1 = .ok i → isDir (m.fs.inodes i).iMode = false)
    (hr : m.fuseUnlink fuel ctx path = some q) : q.2.fs.Secured q.2.opm := by
  have hlook := h.withLookup path
  obtain ⟨c₀, hc₀⟩ := inodeLookup_frame path m.fs
  unfold Agrees at hagree
  unfold Mount.fuseUnlink at hr
  rcases hl : m.fs.inodeLookup path with ⟨e | id, fs⟩
  · simp only [hl, Option.some.injEq] at hr hlook
    subst hr
    exact hlook.secured
  · simp only [hl] at hr hlook hc₀ hagree hfile
    split at hr
    · cases hr
    · rename_i c m₁ hget
      split at hr
      · cases hr
      · rename_i m₂ hrel
        obtain ⟨hfs, hopm, -, hcnts⟩ := hlook.accounts.consult (hfew id) hget hrel
        have hkept : m₂.fs.Secured m₂.opm := by
          rw [hfs, hopm]
          exact hlook.secured
        split at hr
        · cases hr
          exact hkept
        · rename_i hcond
          obtain ⟨r, fs', hrun, rfl⟩ := finish_single hr
          refine hkept.unlinked (fun i htarget _ j hreach => ?_) hrun
          rw [hfs] at htarget hreach
          cases hagree i htarget
          have hclosed : m.opm id = none := by
            apply hcnts
            by_contra hge
            simp [Nat.le_of_not_lt hge] at hcond
          -- nothing lies below a file
          rcases Relation.ReflTransGen.cases_head hreach with rfl | ⟨x, ⟨-, -, hdir, -⟩, -⟩
          · rw [hopm]
            exact hclosed
          · change isDir (fs.inodes id).iMode = true at hdir
            rw [hc₀] at hdir
            rw [hfile id rfl] at hdir
            cases hdir

/-- Nothing lies below a directory that `fuse_rmdir` removes. -/
theorem fuseRmdir (hagree : m.Agrees path)
    (hclosed : ∀ i, (m.fs.inodeLookup path).1 = .ok i → m.openOn i = [])
    (hr : m.fuseRmdir fuel ctx path = some q) (hle : q.2.fs.groups.groupCount ≤ 33) :
    q.2.fs.Secured q.2.opm := by
  have hlook := (h.withLookup path).secured
  unfold Agrees at hagree
  have hr' : Mount.finish fuel m ((rmdirCalls ctx path m.fs).1, (rmdirCalls ctx path m.fs).2) =
    some q := hr
  refine Secured.finish ?_ (fun calls hcalls => ?_) hr' hle
  · unfold rmdirCalls
    rcases hl : m.fs.inodeLookup path with ⟨e | id, fs⟩
    · simp only [hl] at hlook ⊢
      exact hlook
    · simp only [hl] at hlook ⊢
      split
      · exact hlook
      split
      · exact hlook
      split <;> exact hlook
  · unfold rmdirCalls at hcalls ⊢
    rcases hl : m.fs.inodeLookup path with ⟨e | id, fs⟩
    · simp [hl] at hcalls
    · simp only [hl] at hcalls hagree hlook hclosed ⊢
      split at hcalls
      · cases hcalls
      split at hcalls
      · cases hcalls
      split at hcalls
      · cases hcalls
      rename_i hdir hperm hlive
      rw [if_neg hdir, if_neg hperm, if_neg hlive]
      cases hcalls
      refine ⟨fun p hp i htarget _ j hreach => ?_, fun _ _ => trivial⟩
      cases hp
      cases hagree i htarget
      rcases Relation.ReflTransGen.cases_head hreach with rfl | ⟨x, ⟨ha, -, -, e, he, hl, -⟩, -⟩
      · exact (h.accounts.opm_none id).mpr (hclosed id rfl)
      · rw [deref_allocated hlook.books ha] at hlive
        exact absurd (List.any_eq_true.mpr ⟨e, he, hl⟩) hlive

theorem fuseRename {old new : Path} {flags : Nat}
    (hsp : ∀ calls fs, renameCalls ctx old new flags m.fs = (.ok calls, fs) →
      SparedBy fuel m.opm calls fs)
    (hr : m.fuseRename fuel ctx old new flags = some q) (hle : q.2.fs.groups.groupCount ≤ 33) :
    q.2.fs.Secured q.2.opm := by
  rcases hres : renameCalls ctx old new flags m.fs with ⟨res, t⟩
  obtain ⟨c, rfl, -⟩ := renameCalls_looked hres
  unfold Mount.fuseRename at hr
  rw [hres] at hr
  have hkept : ({ m.fs with dcache := c } : FS).Secured m.opm := h.secured.congr rfl fun _ => rfl
  exact Secured.finish hkept (fun calls hcalls => hsp calls _ (hcalls ▸ hres)) hr hle

end Secure

/-! ## Runs -/

/-- What holds of the open inodes: they are allocated, they are not issued again, and a
file that is created is new. -/
structure OpenKept (m : Mount) : Prop where
  entry : ∀ i, (m.opm i).isSome ↔ m.openOn i ≠ []
  allocated : ∀ i, m.openOn i ≠ [] → m.fs.groups.allocated .inode i = true
  unissued : ∀ mode i s, m.fs.allocInode mode = (some i, s) → s.groups.groupCount ≤ 33 →
    m.openOn i = []
  created : ∀ ctx path mode m', m.fuseCreate ctx path mode = some (0, m') →
    m'.fs.groups.groupCount ≤ 33 →
    m'.NewFile m.nextHandle

theorem Secure.openKept (h : m.Secure) : m.OpenKept := by
  have hentry : ∀ i, (m.opm i).isSome ↔ m.openOn i ≠ [] := by
    intro i
    rw [Option.isSome_iff_ne_none, ne_eq, h.accounts.opm_none]
  refine ⟨hentry, fun i hi => ?_, fun mode i s ha hle => ?_,
    fun ctx path mode m' hr hle => (h.fuseCreate hr hle).2 rfl⟩
  · obtain ⟨c, hc⟩ := Option.isSome_iff_exists.mp ((hentry i).mpr hi)
    exact h.secured.opened i c hc
  · obtain ⟨i', g, heq, hout, -⟩ := allocInode_spec mode h.secured.books (by rw [ha]; exact hle)
    rw [ha] at heq
    cases heq
    exact (h.accounts.opm_none i).mp (h.secured.closed hout.free)

/-- The operation takes no last name of an open inode away: a path that is unlinked or
removed as a directory is found where the lookup found it, files are unlinked and closed
directories removed, and a rename spares what is open. Index 2³² − 1 stands for the root
directory and is not opened. -/
def Careful (fuel : Nat) (m : Mount) : FuseOp → Prop
  | .create _ _ _ => True
  | .open _ path _ => (m.fs.inodeLookup path).1 ≠ .ok (2 ^ 32 - 1)
  | .release _ => True
  | .write _ _ _ _ _ => True
  | .mkdir _ _ _ => True
  | .link _ _ => True
  | .unlink _ path =>
    m.Agrees path ∧ ∀ i, (m.fs.inodeLookup path).1 = .ok i → isDir (m.fs.inodes i).iMode = false
  | .rmdir _ path => m.Agrees path ∧ ∀ i, (m.fs.inodeLookup path).1 = .ok i → m.openOn i = []
  | .rename ctx old new flags =>
    ∀ calls fs, renameCalls ctx old new flags m.fs = (.ok calls, fs) → SparedBy fuel m.opm calls fs
  | _ => False

/-- The operation is careful, users of an inode can be counted, and at most 33 block
groups are there afterwards. -/
def CarefulStep (fuel : Nat) (m : Mount) (op : FuseOp) : Prop :=
  m.Careful fuel op ∧ (∀ i, (m.openOn i).length + 1 < 2 ^ 32) ∧ ∀ m', m.step fuel op = some m' →
    m'.fs.groups.groupCount ≤ 33

theorem Secure.step (h : m.Secure) {op : FuseOp} (hop : CarefulStep fuel m op)
    (hs : m.step fuel op = some m') : m'.Secure := by
  obtain ⟨hcare, hfew, hgroups⟩ := hop
  have hle := hgroups m' hs
  refine ⟨h.accounts.step (fun i => Nat.lt_of_succ_lt (hfew i)) hs, ?_⟩
  obtain ⟨q, hq, rfl⟩ := Option.map_eq_some_iff.mp hs
  cases op with
  | create ctx path mode => exact (h.fuseCreate hq hle).1
  | «open» ctx path flags => exact h.fuseOpen hcare hq
  | release fh => exact h.fuseRelease hq
  | write fh grow size grows dents => exact Secured.fuseWrite h.secured hq hle
  | mkdir ctx path mode => exact h.fuseMkdir hq hle
  | link src dst => exact h.fuseLink hq hle
  | unlink ctx path => exact h.fuseUnlink hfew hcare.1 hcare.2 hq
  | rmdir ctx path => exact h.fuseRmdir hcare.1 hcare.2 hq hle
  | rename ctx old new flags => exact h.fuseRename hcare hq hle
  | _ => cases hcare

theorem Secure.format : Mount.format.Secure where
  accounts := Accounts.format
  secured := by
    have hclean := FS.Clean.format
    have hempty : ∀ {i x}, ¬ FS.format.Owns (fun _ => none) i x := by
      intro i x hx
      obtain ⟨-, hx | ⟨c, hc, -⟩⟩ := hx
      · simp [format_iBlock] at hx
      · cases hc
    refine ⟨hclean.books, (format_allocated _).mpr rfl, fun _ _ hc => (by cases hc), ?_,
      hclean.nodup, fun _ _ hc => (by cases hc)⟩
    exact ⟨fun i x hx => absurd hx hempty, fun i j x hx => absurd hx hempty⟩

theorem replaceCalls_absent {fs : FS} {old new : Path} {calls : List NameCall}
    (habsent : ((renameLookup ctx old s).2.inodeLookup new).1.toOption = none)
    (hr : replaceCalls ctx old new s = (.ok calls, fs)) :
    calls = [.link old new, .unlink old] := by
  unfold replaceCalls at hr
  split at hr
  · cases hr
  · rename_i hl
    rw [hl] at habsent
    split at hr
    · cases hr
      rfl
    · rename_i hl'
      simp [hl', Except.toOption] at habsent

/-- In every run of careful steps, open inodes are kept. -/
theorem open_inodes_kept (fuel : Nat) (ops : List FuseOp)
    (h : Runs.Guarded (step fuel) (CarefulStep fuel) ops Mount.format) :
    Runs.Along (step fuel) OpenKept ops Mount.format :=
  Runs.along_of_guarded (fun _ hm => hm.openKept) (fun _ _ _ hm hop hs => hm.step hop hs) ops
    _ Secure.format h

/-- An open file is written to and renamed, another one is closed and unlinked. -/
theorem open_inodes_kept_files : Runs.Along (step 1) OpenKept
    [.create ⟨0, 0⟩ (.of [[102]]) 0x81a4,
      .write 1 1 4096 true (Function.update (fun _ => []) 0 [Dentry.make [102] 1 0x81a4]),
      .rename ⟨0, 0⟩ (.of [[102]]) (.of [[104]]) 0, .create ⟨0, 0⟩ (.of [[103]]) 0x81a4, .release 2,
      .unlink ⟨0, 0⟩ (.of [[103]])] Mount.format := by
  have hrun : (Mount.format.step 1 (.create ⟨0, 0⟩ (.of [[102]]) 0x81a4)).all fun m₁ =>
      (m₁.fs.groups.groupCount ≤ 33 ∧ m₁.handles.length ≤ 2) ∧
      (m₁.step 1 (.write 1 1 4096 true (Function.update (fun _ => []) 0
      [Dentry.make [102] 1 0x81a4]))).all fun m₂ =>
        (m₂.fs.groups.groupCount ≤ 33 ∧ m₂.handles.length ≤ 2) ∧
        ((renameCalls ⟨0, 0⟩ (.of [[102]]) (.of [[104]]) 0 m₂.fs).2.inodeLink (.of [[102]])
        (.of [[104]])).all (fun r =>
          (r.2.target (.of [[102]])).all fun i => u16 ((r.2.inodes (deref i)).iLinksCount + 65535) ≠
            0) ∧
        ((renameLookup ⟨0, 0⟩ (.of [[102]]) m₂.fs).2.inodeLookup (.of [[104]])).1.toOption = none ∧
        (m₂.step 1 (.rename ⟨0, 0⟩ (.of [[102]]) (.of [[104]]) 0)).all fun m₃ =>
          (m₃.fs.groups.groupCount ≤ 33 ∧ m₃.handles.length ≤ 2) ∧
          (m₃.step 1 (.create ⟨0, 0⟩ (.of [[103]]) 0x81a4)).all fun m₄ =>
            (m₄.fs.groups.groupCount ≤ 33 ∧ m₄.handles.length ≤ 2) ∧
            (m₄.step 1 (.release 2)).all fun m₅ =>
              (m₅.fs.groups.groupCount ≤ 33 ∧ m₅.handles.length ≤ 2) ∧
              (m₅.fs.inodeLookup (.of [[103]])).1.toOption = some 2 ∧
              (m₅.fs.inodeLookup (.of [[103]])).2.target (.of [[103]]) = some 2 ∧
              isDir (m₅.fs.inodes 2).iMode = false ∧
              (m₅.step 1 (.unlink ⟨0, 0⟩ (.of [[103]]))).all fun m₆ => m₆.fs.groups.groupCount ≤
              33 := by
    decide +kernel
  have hfew : ∀ {m : Mount}, m.handles.length ≤ 2 → ∀ i, (m.openOn i).length + 1 < 2 ^ 32 := by
    intro m hm i
    have hle := List.length_filter_le (fun e : Nat × Handle => e.2.inode = i) m.handles
    rw [openOn, List.length_map]
    omega
  have hgroups : ∀ {m m₁ : Mount} {op : FuseOp}, m.step 1 op = some m₁ →
    m₁.fs.groups.groupCount ≤ 33 →
      ∀ m', m.step 1 op = some m' → m'.fs.groups.groupCount ≤ 33 := by
    intro m m₁ op hs hg m' hs'
    cases hs.symm.trans hs'
    exact hg
  apply open_inodes_kept
  intro m₁ hs₁
  rw [hs₁, Option.all_some] at hrun
  obtain ⟨⟨hg₁, hh₁⟩, hrun⟩ := of_decide_eq_true hrun
  refine ⟨⟨trivial, hfew (by decide), hgroups hs₁ hg₁⟩, fun m₂ hs₂ => ?_⟩
  rw [hs₂, Option.all_some] at hrun
  obtain ⟨⟨hg₂, hh₂⟩, hlinks, habsent, hrun⟩ := of_decide_eq_true hrun
  refine ⟨⟨trivial, hfew hh₁, hgroups hs₂ hg₂⟩, fun m₃ hs₃ => ?_⟩
  rw [hs₃, Option.all_some] at hrun
  obtain ⟨⟨hg₃, hh₃⟩, hrun⟩ := of_decide_eq_true hrun
  refine ⟨⟨fun calls fs hcalls => ?_, hfew hh₂, hgroups hs₃ hg₃⟩, fun m₄ hs₄ => ?_⟩
  · -- the file has two links when the old name goes
    rw [hcalls] at hlinks
    cases replaceCalls_absent habsent hcalls
    refine ⟨fun path hp => (by cases hp), fun fs' hlink => ⟨fun path hp i htarget hlast => ?_,
      fun _ _ => trivial⟩⟩
    cases hp
    rw [show fs.inodeLink _ _ = _ from hlink, Option.all_some, htarget, Option.all_some] at hlinks
    exact absurd hlast (of_decide_eq_true hlinks)
  rw [hs₄, Option.all_some] at hrun
  obtain ⟨⟨hg₄, hh₄⟩, hrun⟩ := of_decide_eq_true hrun
  refine ⟨⟨trivial, hfew hh₃, hgroups hs₄ hg₄⟩, fun m₅ hs₅ => ?_⟩
  rw [hs₅, Option.all_some] at hrun
  obtain ⟨⟨hg₅, hh₅⟩, hfound, htarget, hfile, hrun⟩ := of_decide_eq_true hrun
  refine ⟨⟨trivial, hfew hh₄, hgroups hs₅ hg₅⟩,
    fun m₆ hs₆ => ⟨⟨⟨fun i hi => ?_, fun i hi => ?_⟩, hfew hh₅, hgroups hs₆ ?_⟩, trivial⟩⟩
  · rw [htarget] at hi
    cases hi
    cases hl : (m₅.fs.inodeLookup (.of [[103]])).1 with
    | error e => simp [hl, Except.toOption] at hfound
    | ok k =>
      rw [hl] at hfound
      cases hfound
      rfl
  · rw [hi] at hfound
    cases hfound
    exact hfile
  · rw [hs₆, Option.all_some] at hrun
    exact of_decide_eq_true hrun

/-- `fuse_rename` replaces a file that is open: its inode is freed and the next file
gets it, with the blocks of the copy that is still there. -/
theorem rename_frees_open :
    ∃ m₁ m₂ m₃, Mount.format.step 1 (.create ⟨0, 0⟩ (.of [[102]]) 0x81a4) = some m₁ ∧
    Runs.run (step 1) [.write 1 1 4096 true m₁.fs.dents, .create ⟨0, 0⟩ (.of [[103]]) 0x81a4,
      .release 2, .rename ⟨0, 0⟩ (.of [[103]]) (.of [[102]]) 0] m₁ = some m₂ ∧
    m₂.openOn 1 = [1] ∧ (m₂.opm 1).isSome ∧ m₂.fs.groups.allocated .inode 1 = false ∧
    m₂.fuseCreate ⟨0, 0⟩ (.of [[104]]) 0x81a4 = some (0, m₃) ∧ m₃.openOn 1 = [3, 1] ∧
    ∃ c, m₃.opm 1 = some c ∧ c.cnts = 2 ∧ c.cache.iBlocks = 8 := by
  have hrun : (Mount.format.step 1 (.create ⟨0, 0⟩ (.of [[102]]) 0x81a4)).any fun m₁ =>
      (Runs.run (step 1) [.write 1 1 4096 true m₁.fs.dents, .create ⟨0, 0⟩ (.of [[103]]) 0x81a4,
        .release 2, .rename ⟨0, 0⟩ (.of [[103]]) (.of [[102]]) 0] m₁).any fun m₂ =>
        m₂.openOn 1 = [1] ∧ (m₂.opm 1).isSome ∧ m₂.fs.groups.allocated .inode 1 = false ∧
          (m₂.fuseCreate ⟨0, 0⟩ (.of [[104]]) 0x81a4).any fun q => q.1 = 0 ∧ q.2.openOn 1 = [3, 1] ∧
            (q.2.opm 1).any fun c => c.cnts = 2 ∧ c.cache.iBlocks = 8 := by
    decide +kernel
  obtain ⟨m₁, hm₁, hrun⟩ := (Option.any_eq_true _ _).mp hrun
  obtain ⟨m₂, hm₂, hrun⟩ := (Option.any_eq_true _ _).mp hrun
  obtain ⟨hopen, hcopy, hfree, hrun⟩ := of_decide_eq_true hrun
  obtain ⟨⟨code, m₃⟩, hm₃, hrun⟩ := (Option.any_eq_true _ _).mp hrun
  obtain ⟨hcode, hshared, hrun⟩ := of_decide_eq_true hrun
  cases hcode
  obtain ⟨c, hc, hfacts⟩ := (Option.any_eq_true _ _).mp hrun
  exact ⟨m₁, m₂, m₃, hm₁, hm₂, hopen, hcopy, hfree, hm₃, hshared, c, hc, of_decide_eq_true hfacts⟩

end Mount

end NaiveFS
