import NaiveFS.IntegritySound
import NaiveFS.Operation

/-!
# Unlinking that fails

`inode_unlink` clears the entry and takes the link off the inode before it calls
`inode_delete`, which refuses whatever is neither a regular file nor a directory.
-/

namespace NaiveFS

namespace FS

open Groups

variable {s s' t t' : FS} {path : Path} {fuel i : Nat} {r : RetCode}

/-- Every live entry of a directory names an allocated inode. -/
def AllNamed (s : FS) : Prop :=
  ∀ d, ∀ e ∈ s.dirEntries d, e.live = true → s.groups.allocated .inode e.inode = true

/-- The entries, the link counts and the bitmaps are those of `s`. -/
structure Untouched (s s' : FS) : Prop where
  entries : s'.dents = s.dents
  links : ∀ i, (s'.inodes i).iLinksCount = (s.inodes i).iLinksCount
  bitmaps : ∀ k i, s'.groups.allocated k i = s.groups.allocated k i

/-- `inode_unlink` gets to clear the name, in an entry of inode `i`. -/
def Clears (s : FS) (path : Path) (i : Nat) : Prop :=
  path.valid = true ∧ path.names ≠ [] ∧ ∃ parent t, s.inodeLookup path.parent = (.ok parent, t) ∧
    isDir (s.inodes (deref parent)).iMode = true ∧
    (s.visitInodeBlocks (deref parent) (killVisitor path.back) (s.dents, none)).2 = some i

theorem Killed.changed {name : Name} {bs : List Nat} {dents : Nat → List Dentry}
    {st : (Nat → List Dentry) × Option Nat} (h : Killed name bs dents st) (hi : st.2 = some i) :
    st.1 ≠ dents := by
  obtain ⟨b, -, e, -, -, -, hlt⟩ := h.found i hi
  intro heq
  rw [heq] at hlt
  exact Nat.lt_irrefl _ hlt

theorem Clears.allocated (h : s.Clears path i)
    (hroot : s.groups.allocated .inode rootInode = true) (hall : s.AllNamed) :
    s.groups.allocated .inode i = true := by
  obtain ⟨hv, hne, parent, t, hl, hd, hi⟩ := h
  have hback := Path.back_ne_nil hv hne
  obtain ⟨b, hb, e, he, hname, rfl, -⟩ := (killName_killed hback s (deref parent)).found i hi
  have hp := (inodeLookup_parent hroot hl).2
  refine hall (deref parent) e ?_ (Dentry.live_of_hasName hback hname)
  rw [dirEntries, isDirectory, hp, hd]
  exact List.mem_flatMap.mpr ⟨b, hb, he⟩

theorem Clears.inodeUnlink (h : s.Clears path i) :
    ∃ t : FS, (∀ fuel, s.inodeUnlink fuel path = t.dropLink fuel i) ∧
    t.groups = s.groups ∧ t.inodes = s.inodes ∧ t.dents ≠ s.dents ∧
    (∀ b, ∀ e ∈ t.dents b, e.live = true → e ∈ s.dents b) ∧
    ∀ q v, t.dcache q = some v → (s.inodeLookup path.parent).2.dcache q = some v := by
  obtain ⟨hv, hne, parent, t, hl, hd, hi⟩ := h
  have hkilled := killName_killed (Path.back_ne_nil hv hne) s (deref parent)
  obtain ⟨c, hc⟩ := inodeLookup_frame path.parent s
  rw [hl] at hc
  simp only at hc
  subst hc
  generalize hst : s.visitInodeBlocks (deref parent) (killVisitor path.back) (s.dents, none) =
    st at hkilled hi
  have hkill : ({ s with dcache := c } : FS).killName (deref parent) path.back =
    ({ s with dents := st.1, dcache := c }, st.2) := by
    rw [← hst]
    rfl
  refine ⟨{ s with dents := st.1, dcache := DentryCache.drop c path.parent.names path.back },
    fun fuel => ?_, rfl, rfl, hkilled.changed hi,
    fun b e he hlive => Dentry.mem_of_weaker (hkilled.weaker b) he hlive, fun q v hq => ?_⟩
  · unfold FS.inodeUnlink
    simp only [hv, Bool.not_true, Bool.false_eq_true, if_false, List.isEmpty_iff, hne, hl, hd,
      hkill, hi]
  · rw [hl]
    simp only [DentryCache.drop_map, NodeMap.remove] at hq
    split at hq
    · cases hq
    · exact hq

/-- The last link of an inode that `inode_delete` refuses. -/
def Stuck (s : FS) (i : Nat) : Prop :=
  u16 ((s.inodes (deref i)).iLinksCount + 65535) = 0 ∧
    (i = rootInode ∨ isReg (s.inodes (deref i)).iMode = false ∧
    isDir (s.inodes (deref i)).iMode = false)

theorem dropLink_stuck (hget : t.groups.getInode i = some (deref i)) (h : t.Stuck i) :
    ∃ r t', t.dropLink 1 i = some (r, t') ∧ r ≠ .success ∧ t'.dents = t.dents := by
  obtain ⟨hlast, hkind⟩ := h
  unfold dropLink
  simp only [hget, hlast, if_true]
  unfold inodeDelete
  by_cases hroot : i = rootInode
  · rw [if_pos hroot]
    exact ⟨.invalid, _, rfl, by decide, rfl⟩
  · obtain ⟨hreg, hdir⟩ := hkind.resolve_left hroot
    have hmode : ((t.setLinks (deref i) 0).inodes (deref i)).iMode =
      (t.inodes (deref i)).iMode := by simp [setLinks]
    rw [if_neg hroot]
    simp only [show (t.setLinks (deref i) 0).groups = t.groups from rfl, hget, hmode, hreg, hdir]
    exact ⟨.notFound, _, rfl, by decide, rfl⟩

theorem dropLink_success (hget : t.groups.getInode i = some (deref i)) (h : ¬ t.Stuck i)
    (hd : t.dropLink fuel i = some (r, t')) :
    r = .success := by
  unfold dropLink at hd
  simp only [hget] at hd
  split at hd
  · rename_i hlast
    obtain ⟨⟨r', g⟩, hdel, heq⟩ := Option.map_eq_some_iff.mp hd
    cases heq
    cases fuel with
    | zero => cases hdel
    | succ fuel =>
      have hmode : ((t.setLinks (deref i) (u16 ((t.inodes (deref i)).iLinksCount + 65535))).inodes
        (deref i)).iMode =
          (t.inodes (deref i)).iMode := by simp [setLinks]
      rcases inodeDelete_some hdel with ⟨-, hroot | hnone | ⟨j, hj, hreg, hdir⟩⟩ | ⟨_, _, _,
        -, -, hr, -⟩
      · exact absurd ⟨hlast, Or.inl hroot⟩ h
      · cases hget.symm.trans hnone
      · cases hget.symm.trans hj
        rw [hmode] at hreg hdir
        exact absurd ⟨hlast, Or.inr ⟨hreg, hdir⟩⟩ h
      · exact hr
  · cases hd
    rfl

theorem getInode_of_bit (hi : s.groups.allocated .inode i = true) :
    s.groups.getInode i = some (deref i) := by
  unfold Groups.getInode deref
  rw [if_pos hi]
  split <;> rfl

/-- A failing `inode_unlink` leaves everything as it was exactly if the entry it clears
is not the last link of an inode that cannot be deleted. -/
theorem unlink_atomic_iff (hroot : s.groups.allocated .inode rootInode = true) (hall : s.AllNamed)
    (path : Path) :
    (∀ fuel r s', s.inodeUnlink fuel path = some (r, s') → r ≠ .success → s.Untouched s') ↔
      ∀ i, s.Clears path i → ¬ s.Stuck i := by
  constructor
  · intro h i hclears hstuck
    have hget := getInode_of_bit (hclears.allocated hroot hall)
    obtain ⟨t, heq, hgroups, hinodes, hdents, -⟩ := hclears.inodeUnlink
    obtain ⟨r, t', hdrop, hr, hkeep⟩ :=
      dropLink_stuck (t := t) (by rw [hgroups]; exact hget) (by rw [Stuck, hinodes]; exact hstuck)
    have hsame := (h 1 r t' ((heq 1).trans hdrop) hr).entries
    exact hdents (hkeep.symm.trans hsame)
  · intro h fuel r s' hunlink hr
    rcases inodeUnlink_cases hroot hunlink with ⟨c, -, rfl, -, -⟩ | ⟨parent, c, st, i, hl, -, hd,
      hv, hne, hst, hkilled, hi, hdrop⟩
    · exact ⟨rfl, fun _ => rfl, fun _ _ => rfl⟩
    · have hclears : s.Clears path i := ⟨hv, hne, parent, _, hl, hd, by rw [← hst]; exact hi⟩
      have hget := getInode_of_bit (hclears.allocated hroot hall)
      exact absurd (dropLink_success (t := { s with dents := st.1, dcache := _ }) hget (h i hclears)
        hdrop) hr

/-- The root with a file `f`. -/
def rootFile : FS :=
  (namespaceStep 1 format (.create (.of [[102]]) ⟨sIfreg, Or.inl rfl⟩)).get (by rfl)

theorem rootFile_allNamed : rootFile.AllNamed := by
  have hstep : namespaceStep 1 format (.create (.of [[102]]) ⟨sIfreg, Or.inl rfl⟩) =
    some rootFile := rfl
  have hlinked : rootFile.Linked := Linked.format.step ⟨by decide, by decide⟩ hstep
  exact fun d e he hl => (hlinked.graph.named d e he hl).1

theorem unlink_file : (rootFile.dirEntries rootInode).any Dentry.live = true ∧
    ∀ fuel r s', rootFile.inodeUnlink fuel (.of [[102]]) = some (r, s') → r ≠ .success →
      rootFile.Untouched s' := by
  refine ⟨by decide, (unlink_atomic_iff (by decide) rootFile_allNamed (.of [[102]])).mpr ?_⟩
  intro i hclears
  obtain ⟨-, -, parent, t, hl, -, hi⟩ := hclears
  cases (show (Except.ok rootInode, rootFile) = (Except.ok parent, t) from hl)
  cases (show some 1 = some i from hi)
  unfold Stuck
  decide

/-- The root with a symbolic link to it. -/
def withSymlink : FS := ((Mount.format.fuseSymlink [47] (.of [[108]])).get (by rfl)).2.fs

theorem symlink_lost :
    withSymlink.AllNamed ∧ ∃ s', withSymlink.inodeUnlink 1 (.of [[108]]) = some (.notFound, s') ∧
    ¬ withSymlink.Untouched s' := by
  refine ⟨?_, ?_⟩
  · intro d e he hl
    match d with
    | 0 => 
      have h : ∀ e ∈ withSymlink.dirEntries 0, e.live = true →
        withSymlink.groups.allocated .inode e.inode = true := by decide
      exact h e he hl
    | 1 => 
      have h : withSymlink.dirEntries 1 = [] := by decide
      rw [h] at he
      cases he
    | d + 2 =>
      have hinodes : ∃ new root, withSymlink.inodes =
        Function.update (Function.update format.inodes 1 new) 0 root := ⟨_, _, rfl⟩
      obtain ⟨new, root, hinodes⟩ := hinodes
      have h : isDir (withSymlink.inodes (d + 2)).iMode = false := by
        rw [hinodes, Function.update_of_ne (by omega), Function.update_of_ne (by omega)]
        simp [format, rootInode, blankInode, isDir, fileType, u16]
      rw [dirEntries, isDirectory, h, Bool.and_false] at he
      cases he
  · have hrun : (withSymlink.inodeUnlink 1 (.of [[108]])).any fun r => r.1 = .notFound ∧
        (r.2.dents 0).any Dentry.live = false ∧ (withSymlink.dents 0).any Dentry.live = true := by
        decide
    cases hr : withSymlink.inodeUnlink 1 (.of [[108]]) with
    | none => simp [hr] at hrun
    | some q =>
      obtain ⟨r, s'⟩ := q
      rw [hr, Option.any_some] at hrun
      obtain ⟨hcode, hgone, hlive⟩ := of_decide_eq_true hrun
      simp only at hcode
      subst hcode
      refine ⟨s', rfl, fun h => ?_⟩
      rw [← h.entries, hgone] at hlive
      cases hlive

end FS

end NaiveFS
