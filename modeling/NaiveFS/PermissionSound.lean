import NaiveFS.HandleSound
import NaiveFS.EntrySound

/-!
# Permission checks of the FUSE operations

`fuse_open` takes the access mode of its flags for a mask: `O_RDONLY` is 0 and asks
for nothing. `fuse_mkdir` checks the directory it has just made, which still
belongs to user and group 0.
-/

namespace NaiveFS

open Linked

namespace Mount

variable {m m' : Mount} {ctx : Context} {path : Path} {id flags mode : Nat} {fs : FS}
  {c : InodeCache}

/-! ## Opening -/

theorem Accounts.addHandle_isSome (h : Accounts none m) (hget : m.getCache id = some (c, m')) :
    (m'.addHandle id c).isSome := by
  have hlisted : ∃ l, Listed m'.lists c.vec l ∧ m'.nextCell ∉ c.vec :: l.map Prod.fst := by
    unfold Mount.getCache at hget
    cases hid : m.opm id with
    | some d =>
      simp only [hid, Option.some.injEq, Prod.mk.injEq] at hget
      obtain ⟨rfl, rfl⟩ := hget
      obtain ⟨l, hl, hperm⟩ := h.listed hid
      refine ⟨l, hl, fun ha => ?_⟩
      have hmem := (((hperm.map Prod.fst).cons d.vec).mem_iff).mp ha
      exact Nat.lt_irrefl _ (h.below hid _ hmem)
    | none =>
      cases hg : m.fs.groups.getInode id with
      | none => simp [hid, hg] at hget
      | some i =>
        simp only [hid, hg, Option.some.injEq, Prod.mk.injEq] at hget
        obtain ⟨rfl, rfl⟩ := hget
        refine ⟨[], FSList.make_listed .., ?_⟩
        simp
  obtain ⟨l, hl, hnew⟩ := hlisted
  obtain ⟨lists, hins, -, -⟩ := FSList.ins_spec hl hnew m'.nextHandle
  unfold Mount.addHandle
  rw [hins]
  rfl

theorem getCache_isSome_iff (m : Mount) :
    (m.getCache id).isSome ↔ (m.opm id).isSome ∨ (m.fs.groups.getInode id).isSome := by
  unfold getCache
  cases m.opm id with
  | some d => simp
  | none => cases m.fs.groups.getInode id <;> simp

theorem Accounts.fuseOpen_iff (h : Accounts none m) (hl : m.fs.inodeLookup path = (.ok id, fs))
    (hid : (fs.groups.getInode id).isSome) : (∃ m', m.fuseOpen ctx path flags = some (0, m')) ↔
      checkPermission ctx (fs.inodes (FS.deref id)) (flags.testBit 1)
      (flags.testBit 0 || flags.testBit 1) false = true := by
  unfold Mount.fuseOpen
  simp only [hl]
  cases hperm : checkPermission ctx (fs.inodes (FS.deref id)) (flags.testBit 1)
    (flags.testBit 0 || flags.testBit 1) false with
  | false => simp [eacces]
  | true =>
    obtain ⟨⟨c, m₁⟩, hget⟩ :=
      Option.isSome_iff_exists.mp ((getCache_isSome_iff { m with fs := fs }).mpr (Or.inr hid))
    obtain ⟨m₂, hadd⟩ := Option.isSome_iff_exists.mp ((h.withFs fs).addHandle_isSome hget)
    simp [hget, hadd]

theorem fuseAccess_iff (hl : m.fs.inodeLookup path = (.ok id, fs)) {mask : Nat} (hmask : mask ≠ 0) :
    (m.fuseAccess ctx path mask).1 = 0 ↔
      checkPermission ctx (fs.inodes (FS.deref id)) (mask.testBit 2) (mask.testBit 1)
      (mask.testBit 0) = true := by
  unfold fuseAccess
  simp only [hl, hmask, if_false]
  cases checkPermission ctx (fs.inodes (FS.deref id)) (mask.testBit 2) (mask.testBit 1)
    (mask.testBit 0) with
  | false => simp [eacces]
  | true => simp

/-- `O_ACCMODE`, `O_RDONLY`, `O_WRONLY` and `O_RDWR`. -/
def accMode (flags : Nat) : Nat := flags % 4
def oRdonly : Nat := 0
def oWronly : Nat := 1
def oRdwr : Nat := 2

/-- The mask of `access` for an access mode of `open`. -/
def accessMask (acc : Nat) : Nat := if acc = oRdonly then 4 else if acc = oWronly then 2 else 6

theorem testBit_accMode :
    flags.testBit 0 = (accMode flags).testBit 0 ∧ flags.testBit 1 = (accMode flags).testBit 1 := by
  unfold accMode
  rw [show (4 : Nat) = 2 ^ 2 from rfl, Nat.testBit_mod_two_pow, Nat.testBit_mod_two_pow]
  simp

/-- `fuse_open` and `fuse_access` agree on an existing file exactly if the file is
not opened for reading alone, or may be read. -/
theorem open_agrees_iff (h : Accounts none m) (hl : m.fs.inodeLookup path = (.ok id, fs))
    (hid : (fs.groups.getInode id).isSome)
    (hacc : accMode flags = oRdonly ∨ accMode flags = oWronly ∨ accMode flags = oRdwr) :
    ((∃ m', m.fuseOpen ctx path flags = some (0, m')) ↔
      (m.fuseAccess ctx path (accessMask (accMode flags))).1 = 0) ↔
      (accMode flags = oRdonly → checkPermission ctx (fs.inodes (FS.deref id)) true false false =
        true) := by
  rw [h.fuseOpen_iff hl hid, testBit_accMode.1, testBit_accMode.2]
  rcases hacc with hacc | hacc | hacc
  · rw [hacc, fuseAccess_iff hl (by decide)]
    have hall : checkPermission ctx (fs.inodes (FS.deref id)) (Nat.testBit oRdonly 1)
      (Nat.testBit oRdonly 0 || Nat.testBit oRdonly 1) false = true := by
      simp [checkPermission, grants, oRdonly]
    rw [hall]
    simp [accessMask, oRdonly, Nat.testBit]
  · rw [hacc, fuseAccess_iff hl (by decide)]
    simp [accessMask, oRdonly, oWronly, Nat.testBit]
  · rw [hacc, fuseAccess_iff hl (by decide)]
    simp [accessMask, oRdonly, oWronly, oRdwr, Nat.testBit]

/-- A file that everybody may read. -/
def sharedFile : Mount := (Mount.format.step 0 (.create ⟨0, 0⟩ (.of [[102]]) 0x81a4)).get (by rfl)

theorem shared_agrees :
    (∃ m', sharedFile.fuseOpen ⟨1000, 1000⟩ (.of [[102]]) oRdonly = some (0, m')) ∧
    (sharedFile.fuseAccess ⟨1000, 1000⟩ (.of [[102]]) (accessMask (accMode oRdonly))).1 = 0 := by
  have hstep : Mount.format.step 0 (.create ⟨0, 0⟩ (.of [[102]]) 0x81a4) = some sharedFile := rfl
  have haccounts : Accounts none sharedFile :=
    Accounts.format.step (few_of_handles (by decide)) hstep
  have hlook : sharedFile.fs.inodeLookup (.of [[102]]) =
    (.ok 1, (sharedFile.fs.inodeLookup (.of [[102]])).2) := rfl
  have haccess : (sharedFile.fuseAccess ⟨1000,
    1000⟩ (.of [[102]]) (accessMask (accMode oRdonly))).1 = 0 := by
    decide +kernel
  have hagree : (∃ m', sharedFile.fuseOpen ⟨1000, 1000⟩ (.of [[102]]) oRdonly = some (0, m')) ↔ _ :=
    (open_agrees_iff haccounts hlook (by decide) (Or.inl rfl)).mpr fun _ => by decide
  exact ⟨hagree.mpr haccess, haccess⟩

/-- A file of the root that only its owner's class may touch, and that gives no rights
to it either. -/
def closedFile : Option Mount := Mount.format.step 0 (.create ⟨0, 0⟩ (.of [[102]]) 0x8000)

theorem opened_unreadable :
    ∃ m, closedFile = some m ∧ (∃ m', m.fuseOpen ⟨1000, 1000⟩ (.of [[102]]) oRdonly =
      some (0, m')) ∧
    (m.fuseAccess ⟨1000, 1000⟩ (.of [[102]]) (accessMask oRdonly)).1 = -eacces := by
  have hboth : closedFile.any fun m =>
    ((m.fuseOpen ⟨1000, 1000⟩ (.of [[102]]) oRdonly).any fun r => r.1 = 0) ∧
      (m.fuseAccess ⟨1000, 1000⟩ (.of [[102]]) (accessMask oRdonly)).1 = -eacces := by
      decide +kernel
  obtain ⟨m, hm⟩ : ∃ m, closedFile = some m := ⟨_, rfl⟩
  rw [hm, Option.any_some] at hboth
  obtain ⟨hopen, haccess⟩ := of_decide_eq_true hboth
  cases hr : m.fuseOpen ⟨1000, 1000⟩ (.of [[102]]) oRdonly with
  | none => simp [hr] at hopen
  | some r =>
    obtain ⟨code, m'⟩ := r
    rw [hr, Option.any_some] at hopen
    cases of_decide_eq_true hopen
    exact ⟨m, hm, ⟨m', hr⟩, haccess⟩

end Mount

/-! ## Making a directory -/

namespace FS

variable {s s' t : FS} {path : Path} {parent index mode : Nat} {name : Name}

/-- Blocks may have been taken: the attributes of the inodes and the number of inodes
are as before. -/
structure BlocksTaken (s t : FS) : Prop where
  attrs : ∀ j, (t.inodes j).iMode = (s.inodes j).iMode ∧ (t.inodes j).iUid = (s.inodes j).iUid ∧
    (t.inodes j).iGid = (s.inodes j).iGid
  count : t.groups.super.sCount .inode = s.groups.super.sCount .inode

theorem allocIndirects_count : ∀ (n : Nat) (g : Groups),
    (allocIndirects n g).2.super.sCount .inode = g.super.sCount .inode := by
  intro n
  induction n with
  | zero => exact fun g => rfl
  | succ n ih =>
    intro g
    rw [allocIndirects_succ, ih, (g.alloc_sCount .block).2]
    simp

theorem allocBlock_taken {b : Nat} (h : s.allocBlock parent = (some b, t)) : s.BlocksTaken t := by
  obtain ⟨b', served, -, heq⟩ := allocBlock_some parent s
  rw [heq] at h
  cases h
  refine ⟨fun j => ?_, ?_⟩
  · simp only [Function.update_apply]
    split
    · rename_i hj
      rw [hj]
      exact ⟨rfl, rfl, rfl⟩
    · exact ⟨rfl, rfl, rfl⟩
  · refine (allocIndirects_count _ _).trans ?_
    rw [(s.groups.alloc_sCount .block).2]
    simp

theorem dentryCreate_taken {last : Option Nat} {r : RetCode}
    (h : s.dentryCreate last parent name index mode = some (r, t)) :
    s.BlocksTaken t := by
  obtain ⟨-, b, s', hblock, rfl⟩ := dentryCreate_inv h
  rcases hblock with ⟨-, rfl, -⟩ | hb
  · exact ⟨fun _ => ⟨rfl, rfl, rfl⟩, rfl⟩
  · exact ⟨(allocBlock_taken hb).attrs, (allocBlock_taken hb).count⟩

/-- A failed `inode_create` leaves everything but the dentry cache alone; a successful
one counts the inode, which belongs to user and group 0. -/
theorem inodeCreate_outcome {r : Except RetCode Nat} (h : s.inodeCreate path mode = some (r, t)) :
    (∃ e c, r = .error e ∧ t = { s with dcache := c }) ∨
      ∃ i, r = .ok i ∧ (t.inodes i).iMode = u16 mode ∧ (t.inodes i).iUid = 0 ∧
        (t.inodes i).iGid = 0 ∧ t.groups.super.sCount .inode =
        u32 (s.groups.super.sCount .inode + 1) := by
  rcases inodeCreate_inv h with ⟨c, e, -, ht, hr, -⟩ | ⟨p, c, i, u, -, -, -, -, -, hr, ha, hdc⟩
  · exact Or.inl ⟨e, c, hr, ht⟩
  · have htaken := dentryCreate_taken hdc
    obtain ⟨hmode, huid, hgid⟩ := htaken.attrs i
    obtain ⟨i', served, -, heq⟩ := allocInode_some mode { s with dcache := c }
    rw [ha] at heq
    cases heq
    simp only [Function.update_self] at hmode huid hgid
    refine Or.inr ⟨i, hr, ?_, ?_, ?_, ?_⟩
    · rw [hmode]
      cases served <;> simp [inodeInit, blankInode]
    · rw [huid]
      cases served <;> simp [inodeInit, blankInode]
    · rw [hgid]
      cases served <;> simp [inodeInit, blankInode]
    · refine htaken.count.trans ?_
      show (s.groups.alloc .inode).2.super.sCount .inode = _
      rw [(s.groups.alloc_sCount .inode).2, Function.update_self]

/-- `inode_create` gets to make the entry: the parent is found and is a directory, it has
no entry with the name, and the name fits into a block. -/
def Enters (s : FS) (path : Path) : Prop :=
  path.valid = true ∧ path.names ≠ [] ∧ dentrySize + path.back.length ≤ blockSize ∧
    ∃ parent, (s.inodeLookup path.parent).1 = .ok parent ∧
    isDir (s.inodes (deref parent)).iMode = true ∧
      ∀ e ∈ s.entries (deref parent), e.hasName path.back = false

/-- The state when the new inode has been allocated and its entry has got a block. -/
def seated (s : FS) (path : Path) (parent mode : Nat) : FS :=
  ((s.allocInode mode).2.blockForDentry (s.inodes (deref parent)).iBlock.getLast? (deref parent)
    path.back).2

theorem dentryCreate_groups {last : Option Nat} {r : RetCode}
    (h : s.dentryCreate last parent name index mode = some (r, t)) :
    t.groups = (s.blockForDentry last parent name).2.groups := by
  unfold dentryCreate Calls.dentryCreate at h
  split at h
  · rename_i hblock
    cases h
    rw [hblock]
  · rename_i hblock
    split at h
    · cases h
    · cases h
      rw [hblock]

/-- A successful `inode_create`, from the state before it. -/
theorem inodeCreate_ok_iff {i : Nat} : s.inodeCreate path mode = some (.ok i, t) ↔ s.Enters path ∧
    ∃ parent u, s.inodeLookup path.parent = (.ok parent, u) ∧ (u.allocInode mode).1 = some i ∧
      (u.allocInode mode).2.dentryCreate (u.inodes (deref parent)).iBlock.getLast? (deref parent)
        path.back i mode =
        some (.success, t) := by
  constructor
  · intro h
    rcases inodeCreate_inv h with ⟨c, e, -, -, hr, -⟩ | ⟨parent, c, j, u, hl, hd, hv, hne, hnew,
      hr, ha, hdc⟩
    · cases hr
    · cases hr
      have hfit : dentrySize + path.back.length ≤ blockSize := by
        unfold dentryCreate Calls.dentryCreate at hdc
        split at hdc
        · cases hdc
        · split at hdc
          · cases hdc
          · rename_i hle
            exact Nat.not_lt.mp hle
      refine ⟨⟨hv, hne, hfit, parent, by rw [hl], hd, hnew⟩, parent, _, hl, ?_, ?_⟩
      · rw [ha]
      · rw [ha]
        exact hdc
  · rintro ⟨⟨hv, hne, -, parent', hparent, hd, hnew⟩, parent, u, hl, ha, hdc⟩
    obtain ⟨c, hc⟩ := inodeLookup_frame path.parent s
    rw [hl] at hparent hc
    cases hparent
    simp only at hc
    subst hc
    have hscan := inodeLookupIn_new (s := { s with dcache := c }) hnew
    have halloc : ({ s with dcache := c } : FS).allocInode mode = (some i, _) := Prod.ext ha rfl
    unfold inodeCreate Calls.inodeCreate
    simp only [hv, hne, hl, hd, List.isEmpty_iff, Bool.not_true, Bool.false_eq_true,
      if_false, hscan]
    rw [halloc]
    simp only [hdc]

end FS

namespace Mount

variable {m m' : Mount} {ctx : Context} {path : Path} {id mode : Nat} {fs : FS}

/-- The directory entries, the inode bitmaps and the inode counters are those of `m`. -/
structure NamesKept (m m' : Mount) : Prop where
  entries : m'.fs.dents = m.fs.dents
  bitmap : ∀ j, m'.fs.groups.allocated .inode j = m.fs.groups.allocated .inode j
  free : ∀ slot, (m'.fs.groups.super.slots slot).bgFreeCount .inode =
    (m.fs.groups.super.slots slot).bgFreeCount .inode
  count : m'.fs.groups.super.sCount .inode = m.fs.groups.super.sCount .inode

/-- The caller is the superuser, or the mode opens the directory to the caller as
someone who is not its owner. -/
def MayUse (ctx : Context) (mode : Nat) : Prop :=
  ctx.uid = 0 ∨ (ctx.gid = 0 ∧ mode.testBit 5 = true ∧ mode.testBit 4 = true) ∨
    (mode.testBit 2 = true ∧ mode.testBit 1 = true)

theorem checkPermission_new (ctx : Context) {ino : ListInode}
    (hmode : ino.iMode = u16 (mode ||| sIfdir)) (huid : ino.iUid = 0) (hgid : ino.iGid = 0) :
    checkPermission ctx ino true true false = true ↔ MayUse ctx mode := by
  have hbit : ∀ k < 14, ino.iMode.testBit k = mode.testBit k := by
    intro k hk
    have hdir : sIfdir.testBit k = false := by
      unfold sIfdir
      rw [show 0x4000 = 2 ^ 14 from rfl, Nat.testBit_two_pow]
      simp
      omega
    rw [hmode, u16, Nat.testBit_mod_two_pow, Nat.testBit_or, hdir]
    simp
    omega
  unfold checkPermission MayUse grants
  rw [huid, hgid]
  by_cases hroot : ctx.uid = 0
  · simp [hroot]
  · simp [hroot, hbit]

theorem mkdir_atomic_iff_create (ctx : Context) (path : Path) (mode : Nat) (m : Mount) :
    (∀ code m', m.fuseMkdir ctx path mode = some (code, m') → code ≠ 0 → m.NamesKept m') ↔
      ∀ id fs, m.fs.inodeCreate path (mode ||| sIfdir) = some (.ok id, fs) →
        MayUse ctx mode ∧ ((m.opm id).isSome ∨ (fs.groups.getInode id).isSome) := by
  unfold fuseMkdir
  simp only
  cases hcreate : m.fs.inodeCreate path (mode ||| sIfdir) with
  | none => simp
  | some q =>
    obtain ⟨r, fs⟩ := q
    rcases FS.inodeCreate_outcome hcreate with ⟨e, c, rfl, rfl⟩ | ⟨i, rfl, hmode, huid,
      hgid, hcount⟩
    · constructor
      · intro _ id fs h
        cases h
      · intro _ code m' h _
        cases h
        exact ⟨rfl, fun _ => rfl, fun _ => rfl, rfl⟩
    · -- a directory has been made, which the count of inodes shows
      have hmade : ∀ {m'}, m'.fs = fs → ¬ m.NamesKept m' := by
        rintro m' rfl hkept
        have := hkept.count
        rw [hcount] at this
        unfold u32 at this
        omega
      have hcheck := checkPermission_new ctx hmode huid hgid
      simp only
      cases hperm : checkPermission ctx (fs.inodes i) true true false with
      | false =>
        rw [hperm] at hcheck
        constructor
        · intro h
          exact absurd (h _ _ rfl (by decide)) (hmade rfl)
        · intro h
          have := hcheck.mpr (h i fs rfl).1
          cases this
      | true =>
        have hmay := hcheck.mp hperm
        cases hget : getCache i { m with fs := fs } with
        | none =>
          simp only [Bool.not_true, Bool.false_eq_true, if_false]
          constructor
          · intro h
            exact absurd (h _ _ rfl (by decide)) (hmade rfl)
          · intro h
            have hsome := (getCache_isSome_iff { m with fs := fs }).mpr (h i fs rfl).2
            rw [hget] at hsome
            cases hsome
        | some q =>
          have hfound := (getCache_isSome_iff { m with fs := fs }).mp (by rw [hget]; rfl)
          simp only [Bool.not_true, Bool.false_eq_true, if_false]
          constructor
          · rintro - id fs' h
            cases h
            exact ⟨hmay, hfound⟩
          · intro _ code m' h hcode
            obtain ⟨m₁, -, hm₁⟩ := Option.map_eq_some_iff.mp h
            cases hm₁
            exact absurd rfl hcode

/-- The inode of the new directory is found: it is open already, or its group is still
the one it was allocated in when the entry has got its block. -/
def Seats (m : Mount) (path : Path) (mode : Nat) : Prop :=
  ∀ parent u i, m.fs.inodeLookup path.parent = (.ok parent, u) → (u.allocInode mode).1 = some i →
    (m.opm i).isSome ∨ ((u.seated path parent mode).groups.getInode i).isSome

/-- With at most 33 block groups the inode is always found. -/
theorem seats_of_books (h : m.fs.groups.Books)
    (hle : ∀ parent u, m.fs.inodeLookup path.parent = (.ok parent, u) →
      (u.seated path parent mode).groups.groupCount ≤ 33)
    (hfit : dentrySize + path.back.length ≤ blockSize) : m.Seats path mode := by
  intro parent u i hl ha
  right
  obtain ⟨c, hc⟩ := FS.inodeLookup_frame path.parent m.fs
  rw [hl] at hc
  simp only at hc
  subst hc
  have hle := hle _ _ hl
  unfold FS.seated at hle ⊢
  generalize (({ m.fs with dcache := c } : FS).inodes (FS.deref parent)).iBlock.getLast? =
    last at hle ⊢
  have hbooks : ({ m.fs with dcache := c } : FS).groups.Books := h
  obtain ⟨i', served, -, halloc⟩ := FS.allocInode_some mode { m.fs with dcache := c }
  rcases FS.blockForDentry_cases last (FS.deref parent) path.back
    (({ m.fs with dcache := c } : FS).allocInode mode).2 with ⟨b, -, -, heq⟩ | heq | ⟨hlong, -⟩
  · rw [heq] at hle ⊢
    obtain ⟨j, g, hout, hhanded, hg⟩ := FS.allocInode_spec mode hbooks hle
    rw [hout] at ha ⊢
    cases ha
    rw [Groups.getInode_of_allocated hg hhanded.taken]
    rfl
  · rw [heq] at hle ⊢
    obtain ⟨j, g, hout, hhanded, hg⟩ :=
      FS.allocInode_spec mode hbooks (Nat.le_trans (FS.allocBlock_groupCount _ _) hle)
    obtain ⟨b, g', hblock, hblockOut⟩ :=
      FS.allocBlock_spec (FS.deref parent) (by rw [hout]; exact hg) hle
    rw [hblock]
    rw [hout] at ha hblockOut
    cases ha
    rw [Groups.getInode_of_allocated hblockOut.books ((hblockOut.inode i).trans hhanded.taken)]
    rfl
  · omega

/-- A failed `fuse_mkdir` leaves no trace exactly if, when it gets to make the
directory, the caller may use it and its inode is found. -/
theorem mkdir_atomic_iff (ctx : Context) (path : Path) (mode : Nat) (m : Mount) :
    (∀ code m', m.fuseMkdir ctx path mode = some (code, m') → code ≠ 0 → m.NamesKept m') ↔
      (m.fs.Enters path → MayUse ctx mode ∧ m.Seats path (mode ||| sIfdir)) := by
  rw [mkdir_atomic_iff_create]
  constructor
  · intro h henters
    have hmade : ∀ {parent u i}, m.fs.inodeLookup path.parent = (.ok parent, u) →
        (u.allocInode (mode ||| sIfdir)).1 = some i →
        MayUse ctx mode ∧ ((m.opm i).isSome ∨
        ((u.seated path parent (mode ||| sIfdir)).groups.getInode i).isSome) := by
      intro parent u i hl ha
      obtain ⟨t, hdc⟩ := FS.dentryCreate_fits henters.2.2.1 _ _ _ _ _
      have hfound := h i t (FS.inodeCreate_ok_iff.mpr ⟨henters, parent, u, hl, ha, hdc⟩)
      rwa [FS.dentryCreate_groups hdc] at hfound
    refine ⟨?_, fun parent u i hl ha => (hmade hl ha).2⟩
    obtain ⟨-, -, -, parent, hparent, -⟩ := henters
    obtain ⟨i, served, -, ha⟩ :=
      FS.allocInode_some (mode ||| sIfdir) (m.fs.inodeLookup path.parent).2
    exact (hmade (Prod.ext hparent rfl) (congrArg Prod.fst ha)).1
  · intro h i fs hcreate
    obtain ⟨henters, parent, u, hl, ha, hdc⟩ := FS.inodeCreate_ok_iff.mp hcreate
    obtain ⟨hmay, hseats⟩ := h henters
    refine ⟨hmay, ?_⟩
    rw [FS.dentryCreate_groups hdc]
    exact hseats parent u i hl ha

/-- A directory with the usual mode, made by an ordinary user: the call fails and the
directory is there. -/
theorem mkdir_leaves_directory :
    ∃ m', Mount.format.fuseMkdir ⟨1000, 1000⟩ (.of [[100]]) 0o755 = some (-eacces, m') ∧
    ¬ Mount.format.NamesKept m' := by
  have hrun : (Mount.format.fuseMkdir ⟨1000, 1000⟩ (.of [[100]]) 0o755).any fun r => r.1 = -eacces ∧
      r.2.fs.groups.allocated .inode 1 = true ∧ Mount.format.fs.groups.allocated .inode 1 =
      false := by decide +kernel
  cases hr : Mount.format.fuseMkdir ⟨1000, 1000⟩ (.of [[100]]) 0o755 with
  | none => simp [hr] at hrun
  | some r =>
    obtain ⟨code, m'⟩ := r
    rw [hr, Option.any_some] at hrun
    obtain ⟨hcode, htaken, hclear⟩ := of_decide_eq_true hrun
    simp only at hcode
    subst hcode
    refine ⟨m', rfl, fun hkept => ?_⟩
    have := hkept.bitmap 1
    rw [htaken, hclear] at this
    cases this

end Mount

end NaiveFS
