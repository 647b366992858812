import NaiveFS.OutlineSound

/-!
# Renaming that fails

`fuse_rename` is made of up to five calls, and when one of them fails the earlier ones
are not taken back. A first call that fails leaves the namespace as it was, and a link
that has succeeded lets the old name be removed. What remains is the replacement of a
name by a directory or of the last name of a symbolic link, and every exchange that gets
past its first call.
-/

namespace NaiveFS

namespace Mount

open FS Groups

variable {s s' t : FS} {m m' : Mount} {fuel flags i j k : Nat} {ctx : Context} {old new p : Path}
  {r : RetCode}
  {a : NameCall} {rest : List NameCall}

/-! ## A rename that fails -/

/-- The path leads to inode `i`, and the caller may write to it. -/
def Granted (ctx : Context) (s : FS) (p : Path) (i : Nat) : Prop :=
  (s.inodeLookup p).1 = .ok i ∧ checkPermission ctx (s.inodes (deref i)) false true false = true

/-- Every path leads where it leads in `s`; link counts and inodes are those of `s`. -/
structure Unmoved (s s' : FS) : Prop where
  paths : ∀ p : Path, (s'.inodeLookup p).1 = (s.inodeLookup p).1
  links : ∀ j, (s'.inodes j).iLinksCount = (s.inodes j).iLinksCount
  allocated : ∀ j, s'.groups.allocated .inode j = s.groups.allocated .inode j

/-- If the rename fails, everything is as before. -/
def RenameAtomic (ctx : Context) (old new : Path) (flags : Nat) (m : Mount) : Prop :=
  ∀ fuel e m', m.fuseRename fuel ctx old new flags = some (e, m') → e ≠ 0 → Unmoved m.fs m'.fs

/-- What the kernel makes sure of before it passes a path: the last component is in a
directory, to which it has come through directories, and has at most 255 bytes. -/
structure VfsPath (s : FS) (p : Path) : Prop where
  valid : p.valid = true
  short : p.back.length ≤ 255
  dirs : ∀ n < p.names.length, ∃ d, (s.inodeLookup (Path.upTo p n)).1 = .ok d ∧
    isDir (s.inodes (deref d)).iMode = true

/-- A directory is renamed to a directory, what is none to what is none, or either to a
new name. -/
structure VfsPair (s : FS) (old new : Path) : Prop where
  source : VfsPath s old
  dest : VfsPath s new
  distinct : old ≠ new
  kinds : ∀ i k, (s.inodeLookup old).1 = .ok i → (s.inodeLookup new).1 = .ok k →
    isDir (s.inodes (deref k)).iMode = isDir (s.inodes (deref i)).iMode

/-- Both paths lead to inodes the caller may write to, and either the rename is to
replace a name other than that of the root, by a directory or as the last name of a
symbolic link, or it is to exchange what are no directories and the parking name is not
taken. -/
def Torn (ctx : Context) (old new : Path) (flags : Nat) (s : FS) : Prop :=
  ∃ i k, Granted ctx s old i ∧ Granted ctx s new k ∧
    (flags = 0 ∧ new.names ≠ [] ∧ (isDir (s.inodes (deref i)).iMode = true ∨
        isReg (s.inodes (deref k)).iMode = false ∧ isDir (s.inodes (deref k)).iMode = false ∧
        (s.inodes (deref k)).iLinksCount = 1) ∨
      flags = renameExchange ∧ isDir (s.inodes (deref i)).iMode = false ∧
      ∀ j, (s.inodeLookup parkingName).1 ≠ .ok j)

/-- No call of the rename leaves more than 33 groups. -/
def FewCalls (ctx : Context) (old new : Path) (flags : Nat) (s : FS) : Prop :=
  ∀ calls t, renameCalls ctx old new flags s = (.ok calls, t) →
    ∀ fuel n r u, runCalls fuel (calls.take n) t = some (r, u) →
    u.groups.groupCount ≤ 33

def RoomToLink (s : FS) (old new : Path) : Prop :=
  ∀ i, (s.inodeLookup old).1 = .ok i ∨ (s.inodeLookup new).1 = .ok i →
    (s.inodes (deref i)).iLinksCount < 65535

/-! ## What the checks find -/

theorem VfsPath.walkable (h : s.Housed) (hp : VfsPath s p) : s.Walkable p := by
  -- no path on the way ends in a file
  have hseal : ∀ n ≤ p.names.length, s.Sealed rootInode (p.names.take n) := by
    intro n hn
    refine h.sealed_of_shut (p := Path.upTo p n) hp.valid fun hexp => ?_
    obtain ⟨hne, -, f, hf, hfile, -⟩ := hexp
    have hpos : 0 < n := by
      rcases Nat.eq_zero_or_pos n with rfl | hpos
      · exact absurd rfl hne
      · exact hpos
    obtain ⟨d, hd, hdir⟩ := hp.dirs (n - 1) (by omega)
    have hparent : (Path.upTo p n).parent = Path.upTo p (n - 1) := by
      refine Path.eq_of_names hp.valid hp.valid ?_
      change (p.names.take n).dropLast = p.names.take (n - 1)
      rw [List.dropLast_eq_take, List.length_take, Nat.min_eq_left hn, List.take_take,
        Nat.min_eq_left (Nat.sub_le n 1)]
    rw [hparent] at hf
    cases hf.symm.trans hd
    rw [hdir] at hfile
    cases hfile
  refine ⟨hp.valid, fun q hq hne => ?_⟩
  have hlen : q.length < p.names.length := by
    refine Nat.lt_of_le_of_ne hq.length_le fun hc => hne (List.IsPrefix.eq_of_length hq hc)
  have htake : q = p.names.take q.length := List.prefix_iff_eq_take.mp hq
  obtain ⟨d, hd, hdir⟩ := hp.dirs q.length hlen
  have hwalk := (h.charted.lookup (Path.upTo p q.length) hp.valid).1
  rw [lookup_outline h.charted (Path.upTo p q.length) fun _ => hseal _ (Nat.le_of_lt hlen),
    hd] at hwalk
  have hwalk : s.outline.walk rootInode q = .ok d := by
    rw [htake]
    exact hwalk.symm
  have hda := h.charted.order.walk_allocated h.charted.order.tidy.root
    (fun hm => p.nonempty hp.valid (hq.subset hm)) hwalk
  rw [deref_allocated h.books hda] at hdir
  refine ⟨d, hwalk, ?_⟩
  rw [outline_isDirectory]
  exact isDirectory_iff.mpr ⟨hda, hdir⟩

theorem parking_walkable (h : s.Housed) : s.Walkable parkingName := by
  refine ⟨by decide, fun q hq hne => ⟨rootInode, ?_, h.charted.order.linked.graph.root⟩⟩
  have : q = [] := by
    rcases List.prefix_cons_iff.mp hq with hc | ⟨l, rfl, hl⟩
    · exact hc
    · rw [List.prefix_nil] at hl
      subst hl
      exact absurd rfl hne
  rw [this]
  rfl

section
variable (h : s.Housed)
include h

theorem granted_cached {c : DentryCache} (hc : ({ s with dcache := c } : FS).Housed) (p : Path)
    (i : Nat) :
    Granted ctx { s with dcache := c } p i ↔ Granted ctx s p i := by
  unfold Granted
  rw [h.lookup_cached hc]

theorem renameLookup_housed (ctx : Context) (hp : s.Walkable p) :
    ∃ c, ({ s with dcache := c } : FS).Housed ∧
    ((∃ i, Granted ctx s p i ∧ renameLookup ctx p s = (.ok i, { s with dcache := c })) ∨
      (∀ i, ¬ Granted ctx s p i) ∧ ∃ e, e ≠ 0 ∧ renameLookup ctx p s =
      (.error e, { s with dcache := c })) := by
  have hlooked := h.looked hp
  obtain ⟨c, hc⟩ := inodeLookup_frame p s
  rw [hc] at hlooked
  refine ⟨c, hlooked, ?_⟩
  unfold renameLookup Granted
  cases hl : s.inodeLookup p with
  | mk res t =>
    rw [hl] at hc
    simp only at hc
    subst hc
    cases res with
    | error e =>
      refine Or.inr ⟨fun i hi => ?_, -enoent, by decide, rfl⟩
      cases hi.1
    | ok i =>
      simp only
      by_cases hperm : checkPermission ctx (s.inodes (deref i)) false true false = true
      · refine Or.inl ⟨i, ⟨rfl, hperm⟩, ?_⟩
        rw [if_neg (by simp [hperm])]
      · refine Or.inr ⟨fun k hk => ?_, -eacces, by decide, ?_⟩
        · cases hk.1
          exact hperm hk.2
        · rw [if_pos (by simpa using hperm)]

theorem renameCalls_housed (ctx : Context) (flags : Nat) (ho : s.Walkable old)
    (hn : s.Walkable new) :
    ∃ c, ({ s with dcache := c } : FS).Housed ∧
      ((∃ e, e ≠ 0 ∧ renameCalls ctx old new flags s = (.error e, { s with dcache := c }) ∧
          ¬ ((flags = 0 ∨ flags = renameExchange) ∧ ∃ i k, Granted ctx s old i ∧
            Granted ctx s new k)) ∨
        (∃ i, flags ≠ renameExchange ∧ Granted ctx s old i ∧ (∀ k, (s.inodeLookup new).1 ≠ .ok k) ∧
          renameCalls ctx old new flags s = (.ok [.link old new, .unlink old],
            { s with dcache := c })) ∨
        ∃ i k, Granted ctx s old i ∧ Granted ctx s new k ∧
          (flags = 0 ∧ renameCalls ctx old new flags s =
            (.ok [.unlink new, .link old new, .unlink old], { s with dcache := c }) ∨
            flags = renameExchange ∧ renameCalls ctx old new flags s =
              (.ok [.link old parkingName, .unlink old, .link new old, .link old new,
                .unlink parkingName], { s with dcache := c }))) := by
  unfold renameCalls
  by_cases hex : flags = renameExchange
  · rw [if_pos hex, exchangeCalls]
    obtain ⟨c, hc, ⟨k, hk, heq⟩ | ⟨hno, e, he, heq⟩⟩ := renameLookup_housed h ctx hn
    · obtain ⟨c', hc', hrest⟩ := renameLookup_housed hc ctx (ho.cached c)
      simp only [heq, granted_cached h hc] at hrest ⊢
      refine ⟨c', hc', ?_⟩
      rcases hrest with ⟨i, hi, heq'⟩ | ⟨hno, e, he, heq'⟩
      · exact Or.inr (Or.inr ⟨i, k, hi, hk, Or.inr ⟨hex, by rw [heq']⟩⟩)
      · exact Or.inl ⟨e, he, by rw [heq'], fun ⟨_, i, _, hi, _⟩ => hno i hi⟩
    · exact ⟨c, hc, Or.inl ⟨e, he, by rw [heq], fun ⟨_, _, k, _, hk⟩ => hno k hk⟩⟩
  rw [if_neg hex]
  by_cases hno : flags = renameNoreplace
  · have hneither : ¬ (flags = 0 ∨ flags = renameExchange) := by
      rw [hno]
      decide
    rw [if_pos hno, noreplaceCalls]
    have hlooked := h.looked hn
    obtain ⟨c, hc⟩ := inodeLookup_frame new s
    rw [hc] at hlooked
    cases hl : s.inodeLookup new with
    | mk res t =>
      rw [hl] at hc
      simp only at hc
      subst hc
      cases res with
      | ok k => exact ⟨c, hlooked, Or.inl ⟨-eexist, by decide, rfl, fun hc => hneither hc.1⟩⟩
      | error e =>
        obtain ⟨c', hc', hrest⟩ := renameLookup_housed hlooked ctx (ho.cached c)
        simp only [granted_cached h hlooked] at hrest ⊢
        refine ⟨c', hc', ?_⟩
        rcases hrest with ⟨i, hi, heq'⟩ | ⟨-, e, he, heq'⟩
        · refine Or.inr (Or.inl ⟨i, hex, hi, fun k hk => ?_, by rw [heq']⟩)
          cases hk
        · exact Or.inl ⟨e, he, by rw [heq'], fun hc => hneither hc.1⟩
  rw [if_neg hno]
  by_cases hzero : flags = 0
  · rw [if_pos hzero, replaceCalls]
    obtain ⟨c, hc, ⟨i, hi, heq⟩ | ⟨hno, e, he, heq⟩⟩ := renameLookup_housed h ctx ho
    · have hlooked := hc.looked (hn.cached c)
      obtain ⟨c', hc'⟩ := inodeLookup_frame new { s with dcache := c }
      have hsame := h.lookup_cached hc new
      rw [hc'] at hlooked
      refine ⟨c', hlooked, ?_⟩
      simp only [heq]
      cases hl : ({ s with dcache := c } : FS).inodeLookup new with
      | mk res t =>
        rw [hl] at hc' hsame
        simp only at hc' hsame
        subst hc'
        cases res with
        | error e =>
          refine Or.inr (Or.inl ⟨i, hex, hi, fun k hk => ?_, rfl⟩)
          cases hsame.trans hk
        | ok k =>
          simp only
          by_cases hperm : checkPermission ctx (s.inodes (deref k)) false true false = true
          · refine Or.inr (Or.inr ⟨i, k, hi, ⟨hsame.symm, hperm⟩, Or.inl ⟨hzero, ?_⟩⟩)
            rw [if_neg (by simp [hperm])]
          · refine Or.inl ⟨-eacces, by decide, ?_, fun ⟨_, _, k', _, hk'⟩ => ?_⟩
            · rw [if_pos (by simpa using hperm)]
            · cases hk'.1.symm.trans hsame.symm
              exact hperm hk'.2
    · exact ⟨c, hc, Or.inl ⟨e, he, by rw [heq], fun ⟨_, i, _, hi, _⟩ => hno i hi⟩⟩
  · rw [if_neg hzero]
    refine ⟨s.dcache, h, Or.inl ⟨-einval, by decide, rfl, fun hc => ?_⟩⟩
    exact hc.1.elim hzero hex

end

/-! ## Calls that leave the namespace in order -/

theorem runCalls_next (hrun : a.run fuel s = some (.success, t)) :
    runCalls fuel (a :: rest) s = runCalls fuel rest t := by
  rw [runCalls, hrun]

theorem runCalls_stop (hrun : a.run fuel s = some (r, t)) (hr : r ≠ .success) :
    runCalls fuel (a :: rest) s = some (r, t) := by
  rw [runCalls, hrun]
  cases r with
  | success => exact absurd rfl hr
  | _ => rfl

section
variable (h : s.Housed) (ho : s.Walkable old) (hn : s.Walkable new) (hlen : new.back.length ≤ 255)
  (hi : s.outline.walk rootInode old.names = .ok i)
include h ho hn hlen hi

theorem relinked (hroom : (s.inodes i).iLinksCount < 65535)
    (hle : ∀ r u, s.inodeLink old new = some (r, u) → u.groups.groupCount ≤ 33)
    (hr : runCalls fuel [.link old new, .unlink old] s = some (r, s')) :
    s'.Housed ∧ (r ≠ .success → s.inodeLink old new = some (r, s') ∧
      ∃ c, s' = { s with dcache := c }) := by
  have hroom' : ∀ j, s.outline.walk rootInode old.names = .ok j →
    (s.inodes j).iLinksCount < 65535 := by
    intro j hj
    cases hi.symm.trans hj
    exact hroom
  rcases runCalls_cons hr with ⟨hne, hl⟩ | ⟨t, hl, hr⟩
  · have hl : s.inodeLink old new = some (r, s') := hl
    refine ⟨(h.linked ho hn hlen hroom' hl (hle r s' hl)).1, fun _ => ⟨hl, ?_⟩⟩
    rcases inodeLink_inv hl with ⟨c, -, hc, -⟩ | ⟨_, _, _, _, _, -, -, -, -, -, -, -, -, hc, -⟩
    · exact ⟨c, hc⟩
    · exact absurd hc hne
  · have hl : s.inodeLink old new = some (.success, t) := hl
    have hcount := hle .success t hl
    have ht := (h.linked ho hn hlen hroom' hl hcount).1
    obtain ⟨j, hj, hfile, hg⟩ := h.link_gained ho hn hlen hroom' hl hcount
    cases hi.symm.trans hj
    rw [runCalls_single] at hr
    have hold : t.outline.walk rootInode old.names = .ok i :=
      (hg.walk _ _ (old.nonempty ho.valid)).mpr (Or.inl hi)
    have hia := h.allocated ho.valid hi
    have hlinks := hg.links i
    rw [outline_links, outline_links, if_pos rfl] at hlinks
    have hpos := h.links_pos ho (h.names_ne_nil hi hfile) hi
    have hfile' : isDir (t.inodes i).iMode = false := by
      rw [← outline_isDir, hg.mode, outline_isDir]
      exact hfile
    obtain ⟨hsuccess, hs', -⟩ := ht.unlinked (ho.gained hg) hold hfile'
      (not_stuck_of_links (deref_allocated h.books hia) (by omega) (by omega)) hr
    exact ⟨hs', fun hc => absurd hsuccess hc⟩

theorem replaced (hroom : (s.inodes i).iLinksCount < 65535)
    (hfile : isDir (s.inodes i).iMode = false) (hne : old ≠ new)
    (hk : s.outline.walk rootInode new.names = .ok k) (hkfile : isDir (s.inodes k).iMode = false)
    (hfree : ¬ s.Stuck k)
    (hle : ∀ r t u, s.inodeUnlink fuel new = some (.success, t) →
      t.inodeLink old new = some (r, u) → u.groups.groupCount ≤ 33)
    (hr : runCalls fuel [.unlink new, .link old new, .unlink old] s = some (r, s')) :
    r = .success ∧ s'.Housed := by
  have hstep : ∀ {r t}, s.inodeUnlink fuel new = some (r, t) → r = .success ∧ t.Housed ∧
    Lost new.names k s.outline t.outline :=
    fun hu => h.unlinked hn hk hkfile hfree hu
  rcases runCalls_cons hr with ⟨hne, hu⟩ | ⟨t, hu, hr⟩
  · exact absurd (hstep hu).1 hne
  · obtain ⟨-, ht, hlost⟩ := hstep hu
    have hknone : s.outline.isDirectory k = false := by
      rw [outline_isDirectory, isDirectory, hkfile]
      exact Bool.and_false _
    have ho' := ho.lost hlost hk hknone
    have hn' := hn.lost hlost hk hknone
    have hnames : old.names ≠ new.names := fun hc => hne (Path.eq_of_names ho.valid hn.valid hc)
    have hi' : t.outline.walk rootInode old.names = .ok i :=
      (hlost.walk _ _ (old.nonempty ho.valid)).mpr ⟨hi, hnames⟩
    have hgone : ∀ j, t.outline.walk rootInode new.names ≠ .ok j := by
      intro j hj
      exact ((hlost.walk _ _ (new.nonempty hn.valid)).mp hj).2 rfl
    have hfile' : isDir (t.inodes i).iMode = false := by
      rw [← outline_isDir, hlost.mode, outline_isDir]
      exact hfile
    have hroom' : (t.inodes i).iLinksCount < 65535 := by
      have := hlost.links i
      rw [outline_links, outline_links] at this
      omega
    have hle' : ∀ r u, t.inodeLink old new = some (r, u) → u.groups.groupCount ≤ 33 :=
      fun r u hl => hle r t u hu hl
    obtain ⟨hs', hstop⟩ := relinked ht ho' hn' hlen hi' hroom' hle' hr
    refine ⟨?_, hs'⟩
    by_contra hc
    obtain ⟨hl, -⟩ := hstop hc
    refine hc (ht.link_succeeds ho' hn' (h.names_ne_nil hk hkfile) hlen (fun j hj => ?_) hi' hfile'
      hgone hl (hle' r s' hl))
    cases hi'.symm.trans hj
    exact hroom'

end

theorem exchange_stopped (h : s.Housed) (ho : s.Walkable old)
    (hi : s.outline.walk rootInode old.names = .ok i) (hroom : (s.inodes i).iLinksCount < 65535)
    (hstop : isDir (s.inodes i).iMode = true ∨ ∃ j, s.outline.walk rootInode parkingName.names =
      .ok j)
    (hle : ∀ r u, s.inodeLink old parkingName = some (r, u) → u.groups.groupCount ≤ 33)
    (hr : runCalls fuel (.link old parkingName :: rest) s = some (r, s')) :
    s'.Housed ∧ ∃ c, s' = { s with dcache := c } := by
  have hpark := parking_walkable h
  have hroom' : ∀ j, s.outline.walk rootInode old.names = .ok j →
    (s.inodes j).iLinksCount < 65535 := by
    intro j hj
    cases hi.symm.trans hj
    exact hroom
  rcases runCalls_cons hr with ⟨hne, hl⟩ | ⟨t, hl, -⟩
  · have hl : s.inodeLink old parkingName = some (r, s') := hl
    refine ⟨(h.linked ho hpark (by decide) hroom' hl (hle r s' hl)).1, ?_⟩
    rcases inodeLink_inv hl with ⟨c, -, hc, -⟩ | ⟨_, _, _, _, _, -, -, -, -, -, -, -, -, hc, -⟩
    · exact ⟨c, hc⟩
    · exact absurd hc hne
  · have hl : s.inodeLink old parkingName = some (.success, t) := hl
    have hcount := hle .success t hl
    rcases hstop with hdir | ⟨j, hj⟩
    · obtain ⟨j, hj, hfile, -⟩ := h.link_gained ho hpark (by decide) hroom' hl hcount
      cases hi.symm.trans hj
      rw [hdir] at hfile
      cases hfile
    · exact absurd hj (h.link_new ho hpark hl j)

theorem unmoved_cached (h : s.Housed) {c : DentryCache}
    (hc : ({ s with dcache := c } : FS).Housed) : Unmoved s { s with dcache := c } :=
  ⟨h.lookup_cached hc, fun _ => rfl, fun _ => rfl⟩

/-- A rename that is not torn leaves the namespace in order, and as it was if it fails. -/
theorem rename_kept {e : Int} (h : m.fs.Housed) (hv : VfsPair m.fs old new)
    (hroom : RoomToLink m.fs old new) (hfew : FewCalls ctx old new flags m.fs)
    (htorn : ¬ Torn ctx old new flags m.fs)
    (hr : m.fuseRename fuel ctx old new flags = some (e, m')) :
    m'.fs.Housed ∧ (e ≠ 0 → Unmoved m.fs m'.fs) := by
  have ho := hv.source.walkable h
  have hn := hv.dest.walkable h
  have hderef : ∀ {p : Path} {j}, m.fs.Walkable p → m.fs.outline.walk rootInode p.names = .ok j →
    deref j = j :=
    fun hp hj => deref_allocated h.books (h.allocated hp.valid hj)
  unfold fuseRename at hr
  obtain ⟨c, hc, hcases⟩ := renameCalls_housed h ctx flags ho hn
  have hoc := ho.cached c
  have hnc := hn.cached c
  rcases hcases with ⟨e', he, heq, -⟩ | ⟨i, -, hi, -, heq⟩ | ⟨i, k, hi, hk, hcalls⟩
  · rw [heq, finish] at hr
    cases hr
    exact ⟨hc, fun _ => unmoved_cached h hc⟩
  · rw [heq, finish] at hr
    obtain ⟨⟨r, s'⟩, hrun, hq⟩ := Option.map_eq_some_iff.mp hr
    cases hq
    have hwalk := hi.1
    rw [h.lookup ho] at hwalk
    have hroom' := hroom i (Or.inl hi.1)
    rw [hderef ho hwalk] at hroom'
    have hwalk' := (outline_walk_cached c old.names).trans hwalk
    obtain ⟨hs', hstop⟩ :=
      relinked hc hoc hnc hv.dest.short hwalk' hroom' (fun r u hl => hfew _ _ heq fuel 1 r u (by
      rw [List.take_succ_cons, List.take_zero, runCalls_single]
      exact hl)) hrun
    refine ⟨hs', fun hne => ?_⟩
    obtain ⟨-, c', rfl⟩ := hstop fun hc => hne (by rw [hc]; rfl)
    exact unmoved_cached h hs'
  · have hwi := hi.1
    have hwk := hk.1
    rw [h.lookup ho] at hwi
    rw [h.lookup hn] at hwk
    have hroom' := hroom i (Or.inl hi.1)
    rw [hderef ho hwi] at hroom'
    have hkinds := hv.kinds i k hi.1 hk.1
    rw [hderef ho hwi, hderef hn hwk] at hkinds
    have hwi' := (outline_walk_cached c old.names).trans hwi
    have hwk' := (outline_walk_cached c new.names).trans hwk
    rcases hcalls with ⟨hflags, heq⟩ | ⟨hflags, heq⟩
    · rw [heq, finish] at hr
      obtain ⟨⟨r, s'⟩, hrun, hq⟩ := Option.map_eq_some_iff.mp hr
      cases hq
      by_cases hnil : new.names = []
      · -- the root is not unlinked
        have hroot : ({ m.fs with dcache := c } : FS).inodeUnlink fuel new =
          some (.invalid, { m.fs with dcache := c }) := by
          unfold inodeUnlink
          simp only [hn.valid, hnil, Bool.not_true, Bool.false_eq_true, if_false, List.isEmpty_nil,
            if_true]
        rw [runCalls_stop (a := .unlink new) hroot (by decide)] at hrun
        cases hrun
        exact ⟨hc, fun _ => unmoved_cached h hc⟩
      · have hfile : isDir (m.fs.inodes i).iMode = false := by
          by_contra hdir
          refine htorn ⟨i, k, hi, hk, Or.inl ⟨hflags, hnil, Or.inl ?_⟩⟩
          rw [hderef ho hwi]
          simpa using hdir
        have hkfile : isDir (m.fs.inodes k).iMode = false := hkinds.trans hfile
        have hfree : ¬ ({ m.fs with dcache := c } : FS).Stuck k := by
          rintro ⟨hlast, hkind⟩
          have hkind := hkind.resolve_left (h.ne_root hn hnil hwk)
          refine htorn ⟨i, k, hi, hk, Or.inl ⟨hflags, hnil, Or.inr ⟨hkind.1, hkind.2, ?_⟩⟩⟩
          have hbound := h.charted.order.linked.bound k (h.allocated hn.valid hwk)
          rw [outline_links] at hbound
          rw [hderef hn hwk] at hlast ⊢
          unfold u16 at hlast
          have hlast : ((m.fs.inodes k).iLinksCount + 65535) % 2 ^ 16 = 0 := hlast
          have hpos := h.links_pos hn hnil hwk
          omega
        obtain ⟨rfl, hs'⟩ :=
          replaced hc hoc hnc hv.dest.short hwi' hroom' hfile hv.distinct hwk' hkfile hfree
          (fun r t u hu hl => hfew _ _ heq fuel 2 r u (by
            rw [List.take_succ_cons, List.take_succ_cons, List.take_zero,
              runCalls_next (a := .unlink new) hu, runCalls_single]
            exact hl)) hrun
        exact ⟨hs', fun hne => absurd rfl hne⟩
    · rw [heq, finish] at hr
      obtain ⟨⟨r, s'⟩, hrun, hq⟩ := Option.map_eq_some_iff.mp hr
      cases hq
      have hpark := parking_walkable h
      have hstop : isDir (m.fs.inodes i).iMode = true ∨
        ∃ j, ({ m.fs with dcache := c } : FS).outline.walk rootInode parkingName.names = .ok j := by
        by_contra hno
        rw [not_or, Bool.not_eq_true] at hno
        refine htorn ⟨i, k, hi, hk, Or.inr ⟨hflags, ?_, fun j hj => hno.2 ⟨j, ?_⟩⟩⟩
        · rw [hderef ho hwi]
          exact hno.1
        · rw [h.lookup hpark] at hj
          exact (outline_walk_cached c parkingName.names).trans hj
      obtain ⟨hs', c', rfl⟩ :=
        exchange_stopped hc hoc hwi' hroom' hstop (fun r u hl => hfew _ _ heq fuel 1 r u (by
        rw [List.take_succ_cons, List.take_zero, runCalls_single]
        exact hl)) hrun
      exact ⟨hs', fun _ => unmoved_cached h hs'⟩

/-! ## The caches -/

/-- Paths are C strings; each call of the rename leaves block groups that can be counted and
blocks that can be cached, and a name that is removed can be dropped from the dentry
cache. -/
structure CallsFit (ctx : Context) (old new : Path) (flags : Nat) (s : FS) : Prop where
  source : old.NulFree
  dest : new.NulFree
  modest : ∀ calls t, renameCalls ctx old new flags s = (.ok calls, t) → ∀ fuel n r u,
    runCalls fuel (calls.take n) t = some (r, u) → u.Modest
  rings : ∀ calls t, renameCalls ctx old new flags s = (.ok calls, t) → ∀ fuel n u p,
    runCalls fuel (calls.take n) t = some (.success, u) → calls[n]? = some (.unlink p) →
    u.Droppable p

theorem CallsFit.fewCalls (h : CallsFit ctx old new flags s) : FewCalls ctx old new flags s :=
  fun calls t heq fuel n r u hrun => (h.modest calls t heq fuel n r u hrun).groups

def CallNulFree : NameCall → Prop
  | .link src dst => src.NulFree ∧ dst.NulFree
  | .unlink p => p.NulFree

theorem call_ringed {call : NameCall} (h : s.Ringed) (hnul : CallNulFree call)
    (hdrop : ∀ p, call = .unlink p → s.Droppable p) (hr : call.run fuel s = some (r, s')) :
    s'.Ringed := by
  cases call with
  | link src dst => exact h.linked hnul.1 hnul.2 hr
  | unlink p => exact h.unlinked hnul (hdrop p rfl) hr

theorem runCalls_ringed :
    ∀ {calls : List NameCall} {s : FS}, s.Ringed → (∀ call ∈ calls, CallNulFree call) →
    (∀ n u p, runCalls fuel (calls.take n) s = some (.success, u) → calls[n]? = some (.unlink p) →
      u.Droppable p) →
    runCalls fuel calls s = some (r, s') → s'.Ringed := by
  intro calls
  induction calls with
  | nil =>
    intro s h _ _ hr
    cases hr
    exact h
  | cons call rest ih =>
    intro s h hnul hdrop hr
    have hfirst : ∀ {r t}, call.run fuel s = some (r, t) → t.Ringed := fun hrun =>
      call_ringed h (hnul call List.mem_cons_self) (fun p hp => hdrop 0 s p rfl (by rw [hp]; rfl))
        hrun
    rcases runCalls_cons hr with ⟨-, hrun⟩ | ⟨t, hrun, hrest⟩
    · exact hfirst hrun
    · refine ih (hfirst hrun) (fun c hc => hnul c (List.mem_cons_of_mem call hc))
        (fun n u p hn hp => ?_) hrest
      refine hdrop (n + 1) u p ?_ hp
      rw [List.take_succ_cons, runCalls, hrun]
      exact hn

theorem renameLookup_state (p : Path) (s : FS) :
    (renameLookup ctx p s).2 = (s.inodeLookup p).2 := by
  unfold renameLookup
  rcases s.inodeLookup p with ⟨_ | i, t⟩
  · rfl
  · simp only
    split <;> rfl

/-- The checks of a rename are lookups of the two paths. -/
theorem renameCalls_keeps {P : FS → Prop} (ctx : Context) (flags : Nat)
    (hold : ∀ s, P s → P (s.inodeLookup old).2) (hnew : ∀ s, P s → P (s.inodeLookup new).2)
    (h : P s) : P (renameCalls ctx old new flags s).2 := by
  have hlook : ∀ (p : Path) s, P (s.inodeLookup p).2 → P (renameLookup ctx p s).2 :=
    fun p s hs => by
    rw [renameLookup_state]
    exact hs
  unfold renameCalls
  split
  · unfold exchangeCalls
    have h₁ := hlook new s (hnew s h)
    generalize renameLookup ctx new s = st at h₁
    obtain ⟨_ | i, t⟩ := st
    · exact h₁
    have h₂ := hlook old t (hold t h₁)
    simp only
    generalize renameLookup ctx old t = st at h₂
    obtain ⟨_ | i, u⟩ := st <;> exact h₂
  split
  · unfold noreplaceCalls
    have h₁ := hnew s h
    generalize s.inodeLookup new = st at h₁
    obtain ⟨_ | i, t⟩ := st
    · have h₂ := hlook old t (hold t h₁)
      simp only
      generalize renameLookup ctx old t = st at h₂
      obtain ⟨_ | i, u⟩ := st <;> exact h₂
    · exact h₁
  split
  · unfold replaceCalls
    have h₁ := hlook old s (hold s h)
    generalize renameLookup ctx old s = st at h₁
    obtain ⟨_ | i, t⟩ := st
    · exact h₁
    have h₂ := hnew t h₁
    simp only
    generalize t.inodeLookup new = st at h₂
    obtain ⟨_ | i, u⟩ := st
    · exact h₂
    · simp only
      split <;> exact h₂
  · exact h

theorem renameCalls_nulFree {calls : List NameCall} (ho : old.NulFree) (hn : new.NulFree)
    (heq : renameCalls ctx old new flags s = (.ok calls, t)) :
    ∀ call ∈ calls, CallNulFree call := by
  have hpark : parkingName.NulFree := by decide
  unfold renameCalls exchangeCalls noreplaceCalls replaceCalls at heq
  repeat' split at heq
  all_goals cases heq
  all_goals simp [CallNulFree, ho, hn, hpark]

theorem rename_ringed {e : Int} (h : m.fs.Ringed) (hb : m.fs.Cacheable)
    (hfit : CallsFit ctx old new flags m.fs)
    (hr : m.fuseRename fuel ctx old new flags = some (e, m')) : m'.fs.Ringed ∧ m'.fs.Cacheable := by
  have hlook : ∀ (p : Path) (t : FS), (t.inodeLookup p).2.groups = t.groups := fun p t => by
    obtain ⟨c, hc⟩ := inodeLookup_frame p t
    rw [hc]
  obtain ⟨hringed, hgroups⟩ := renameCalls_keeps ctx flags
    (P := fun t => t.Ringed ∧ t.groups = m.fs.groups)
    (fun t ht => ⟨(ht.1.lookup hfit.source).1, (hlook old t).trans ht.2⟩)
    (fun t ht => ⟨(ht.1.lookup hfit.dest).1, (hlook new t).trans ht.2⟩) ⟨h, rfl⟩
  unfold fuseRename at hr
  cases hcalls : renameCalls ctx old new flags m.fs with
  | mk res t =>
    rw [hcalls] at hr hringed hgroups
    cases res with
    | error e' =>
      cases hr
      exact ⟨hringed, by rw [Cacheable, hgroups]; exact hb⟩
    | ok calls =>
      obtain ⟨⟨r, u⟩, hrun, hq⟩ := Option.map_eq_some_iff.mp hr
      cases hq
      refine ⟨runCalls_ringed hringed (renameCalls_nulFree hfit.source hfit.dest hcalls)
        (fun n v p hn hp => hfit.rings calls t hcalls fuel n v p hn hp) hrun, ?_⟩
      exact (hfit.modest calls t hcalls fuel calls.length r u
        (by rw [List.take_length]; exact hrun)).blocks

theorem symlink_ringed {src : List UInt8} {dst : Path} {q : Int × Mount} (h : m.fs.Ringed)
    (hnul : 0 ∉ src) (hdst : dst.NulFree) (hr : m.fuseSymlink src dst = some q) :
    q.2.fs.Ringed := by
  have hsame := LinkFS.fuseSymlink_fs ⟨m.fs, fun _ => Bytes.zero, fun _ => Bytes.zero⟩ m rfl src dst
  rw [hr, Option.map_some] at hsame
  obtain ⟨⟨e, t⟩, ht, heq⟩ := Option.map_eq_some_iff.mp hsame
  have hringed : t.fs.Ringed := LinkFS.symlink_ringed h hnul hdst ht
  rwa [show t.fs = q.2.fs from congrArg Prod.snd heq] at hringed

/-! ## Runs -/

theorem symlink_housed {src : List UInt8} {dst : Path} {q : Int × Mount} (h : m.fs.Housed)
    (hsrc : (Path.parse src).valid = true → ¬ m.fs.Exposed (Path.parse src))
    (hdst : dst.valid = true → ¬ m.fs.Exposed dst.parent) (hlen : dst.back.length ≤ 255)
    (hfree : m.fs.groups.hasFree .inode = true) (hr : m.fuseSymlink src dst = some q)
    (hle : q.2.fs.groups.groupCount ≤ 33) : q.2.fs.Housed := by
  have hlooked := h.looked_shut hsrc
  obtain ⟨c, hc⟩ := inodeLookup_frame (Path.parse src) m.fs
  rw [hc] at hlooked
  unfold fuseSymlink at hr
  cases hl : m.fs.inodeLookup (Path.parse src) with
  | mk res t =>
    rw [hl] at hc hr
    simp only at hc
    subst hc
    cases res with
    | error e =>
      cases hr
      exact hlooked
    | ok v =>
      have hseal : dst.valid = true →
        ({ m.fs with dcache := c } : FS).Sealed rootInode dst.parent.names := fun hv =>
        sealed_cached c (h.sealed_of_shut (p := dst.parent) hv (hdst hv))
      simp only at hr
      split at hr
      · cases hr
      · rename_i hcr
        cases hr
        exact hlooked.created hseal hlen hfree hcr hle
      · rename_i id u hcr
        split at hr
        · cases hr
          exact hlooked.created hseal hlen hfree hcr hle
        · cases hb : u.allocBlock id with
          | mk found v =>
            rw [hb] at hr
            have hgrow := allocBlock_groupCount id u
            rw [hb] at hgrow
            cases found with
            | none =>
              obtain ⟨b, _, -, heq⟩ := allocBlock_some id u
              cases heq.symm.trans hb
            | some b =>
              simp only at hr
              split at hr
              · cases hr
              · cases hr
                have hcount : u.groups.groupCount ≤ 33 := Nat.le_trans hgrow hle
                have hu := hlooked.created hseal hlen hfree hcr hcount
                obtain ⟨hia, hkind⟩ := hlooked.created_kind hcr hcount
                have hput := putBlock_new hb (textDentries src blockSize 0)
                have := hu.putBlock hia (hkind.trans (by decide)) (by rw [hput]; exact hle)
                rw [hput] at this
                exact this

/-- The operations on a namespace with symbolic links. -/
inductive TreeOp where
  | file (op : FileOp)
  | symlink (src : List UInt8) (dst : Path)
  | attributes (i user group mode : Nat)
  | rename (ctx : Context) (old new : Path) (flags : Nat)

def treeStep (fuel : Nat) (s : FS) : TreeOp → Option FS
  | .file op => fileStep fuel s op
  | .symlink src dst => ((idle s).fuseSymlink src dst).map fun q => q.2.fs
  | .attributes i user group mode => some (s.setAttributes i user group mode)
  | .rename ctx old new flags => ((idle s).fuseRename fuel ctx old new flags).map fun q => q.2.fs

/-- Calls are careful, so is the creation of a symbolic link, and no rename is torn. -/
def Tame (fuel : Nat) (s : FS) : TreeOp → Prop
  | .file op => FS.CarefulStep fuel s op
  | .symlink src dst =>
    dst.back.length ≤ 255 ∧ s.groups.hasFree .inode = true ∧ (0 ∉ src ∧ dst.NulFree) ∧
    ((Path.parse src).valid = true → ¬ s.Exposed (Path.parse src)) ∧
    (dst.valid = true → ¬ s.Exposed dst.parent) ∧
    Runs.Leaves (treeStep fuel) Modest s (.symlink src dst)
  | .attributes _ _ _ _ => True
  | .rename ctx old new flags =>
    VfsPair s old new ∧ RoomToLink s old new ∧ CallsFit ctx old new flags s ∧
      ¬ Torn ctx old new flags s

/-- The invariant of the runs. -/
structure Kept (s : FS) : Prop where
  housed : s.Housed
  ringed : s.Ringed
  cacheable : s.Cacheable

theorem Kept.backed (h : Kept s) : s.Backed :=
  h.ringed.backed h.cacheable ⟨h.housed.books, h.housed.clean.owned, h.housed.clean.nodup⟩

theorem Kept.step {op : TreeOp} (h : Kept s) (hop : Tame fuel s op)
    (hstep : treeStep fuel s op = some s') : Kept s' := by
  match op with
  | .file op =>
    exact ⟨h.housed.step hop hstep, h.ringed.fileStep hop hstep, (hop.modest s' hstep).blocks⟩
  | .symlink src dst =>
    obtain ⟨hlen, hfree, hnul, hsrc, hdst, hfit⟩ := hop
    have hfit := hfit s' hstep
    obtain ⟨q, hq, rfl⟩ := Option.map_eq_some_iff.mp hstep
    exact ⟨symlink_housed (m := idle s) h.housed hsrc hdst hlen hfree hq hfit.groups,
      symlink_ringed (m := idle s) h.ringed hnul.1 hnul.2 hq, hfit.blocks⟩
  | .attributes i user group mode =>
    cases hstep
    exact ⟨h.housed.attributes i user group mode, h.ringed.congr rfl rfl, h.cacheable⟩
  | .rename ctx old new flags =>
    obtain ⟨hv, hroom, hfit, htorn⟩ := hop
    obtain ⟨q, hq, rfl⟩ := Option.map_eq_some_iff.mp hstep
    obtain ⟨hringed, hcacheable⟩ := rename_ringed (m := idle s) h.ringed h.cacheable hfit hq
    exact ⟨(rename_kept (m := idle s) h.housed hv hroom hfit.fewCalls htorn hq).1, hringed,
      hcacheable⟩

/-- A rename that the kernel may ask for and that is not torn leaves everything as before
if it fails, and the caches answer afterwards. -/
def AtomicUnlessTorn (s : FS) : Prop :=
  ∀ m : Mount, m.fs = s → ∀ ctx old new flags, VfsPair s old new → RoomToLink s old new →
    CallsFit ctx old new flags s → ¬ Torn ctx old new flags s → RenameAtomic ctx old new flags m ∧
      ∀ fuel e m', m.fuseRename fuel ctx old new flags = some (e, m') → m'.fs.Backed

theorem Kept.atomicUnlessTorn (h : Kept s) : AtomicUnlessTorn s := by
  rintro m rfl ctx old new flags hv hroom hfit htorn
  refine ⟨fun fuel e m' hr hne => ?_, fun fuel e m' hr => ?_⟩
  · exact (rename_kept h.housed hv hroom hfit.fewCalls htorn hr).2 hne
  · obtain ⟨hringed, hcacheable⟩ := rename_ringed h.ringed h.cacheable hfit hr
    exact Kept.backed ⟨(rename_kept h.housed hv hroom hfit.fewCalls htorn hr).1, hringed,
      hcacheable⟩

section
variable (hroot : isDir (s.inodes rootInode).iMode = true) (hv : p.valid =
  true) (hp : p.names.length ≤ 1)
include hroot hv hp

theorem not_exposed_top : ¬ s.Exposed p := by
  rintro ⟨-, -, f, hf, hfile, -⟩
  have hnil : p.parent.names = [] := by
    change p.names.dropLast = []
    rw [← List.length_eq_zero_iff, List.length_dropLast]
    omega
  rw [inodeLookup_root p.parent hv hnil] at hf
  cases hf
  rw [show deref rootInode = rootInode from rfl, hroot] at hfile
  cases hfile

theorem vfsPath_top (hlen : p.back.length ≤ 255) : VfsPath s p := by
  refine ⟨hv, hlen, fun n hn => ⟨rootInode, ?_, hroot⟩⟩
  have hn : n = 0 := by omega
  subst hn
  rw [inodeLookup_root (Path.upTo p 0) hv rfl]

end

theorem toOption_eq_some {α ε : Type} {x : Except ε α} {y z : α} (h : x.toOption = some y)
    (hz : x = .ok z) : z = y := by
  subst hz
  exact Option.some.inj h

theorem callsFit_moved (hold : old.NulFree) (hnew : new.NulFree)
    (hcalls : (renameCalls ctx old new flags s).1.toOption = some [.link old new, .unlink old])
    (ht : (renameCalls ctx old new flags s).2.Modest)
    (hlink : ∀ r u, (renameCalls ctx old new flags s).2.inodeLink old new = some (r, u) → u.Modest ∧
      u.Droppable old)
    (hunlink : ∀ fuel r u v, (renameCalls ctx old new flags s).2.inodeLink old new =
      some (.success, u) → u.inodeUnlink fuel old = some (r, v) → v.Modest) :
    CallsFit ctx old new flags s := by
  refine ⟨hold, hnew, fun calls t heq fuel n r u hrun => ?_,
    fun calls t heq fuel n u p hrun hp => ?_⟩
  · rw [heq] at hcalls ht hlink hunlink
    cases Option.some.inj hcalls
    match n with
    | 0 =>
      cases hrun
      exact ht
    | 1 =>
      rw [List.take_succ_cons, List.take_zero, runCalls_single] at hrun
      exact (hlink r u hrun).1
    | n + 2 =>
      rw [List.take_succ_cons, List.take_succ_cons, List.take_nil] at hrun
      rcases runCalls_cons hrun with ⟨-, hl⟩ | ⟨v, hl, hrest⟩
      · exact (hlink r u hl).1
      · rw [runCalls_single] at hrest
        exact hunlink fuel r v u hl hrest
  · rw [heq] at hcalls hlink
    cases Option.some.inj hcalls
    match n with
    | 0 => cases hp
    | 1 =>
      cases hp
      rw [List.take_succ_cons, List.take_zero, runCalls_single] at hrun
      exact (hlink _ u hrun).2
    | n + 2 => cases hp

/-- A file `/f` and a symbolic link `/l` to it, which is then renamed to `/g`. -/
def linkRun : List TreeOp :=
  [.file (.path (.call (.create (.of [[102]]) ⟨0x81a4, Or.inl rfl⟩))),
    .symlink [47, 102] (.of [[108]]), .rename ⟨0, 0⟩ (.of [[108]]) (.of [[103]]) 0]

/-- A name that is not the last one is removed without a deletion. -/
theorem unlink_more_groups (hv : p.valid = true) (htarget : s.target p = some i)
    (hget : s.groups.getInode i = some i) (hmore : u16 ((s.inodes i).iLinksCount + 65535) ≠ 0)
    (hu : s.inodeUnlink fuel p = some (r, s')) : s'.groups = s.groups := by
  obtain ⟨t, heq, hgroups, hinodes, -⟩ := (clears_of_target hv htarget).inodeUnlink
  rw [heq fuel, dropLink_more (by rw [hgroups]; exact hget) (by rw [hinodes]; exact hmore)] at hu
  cases hu
  exact hgroups

/-- Directories `/a` and `/b`. -/
def tornRun : List TreeOp :=
  [.file (.path (.call (.create (.of [[97]]) ⟨sIfdir, Or.inr rfl⟩))),
    .file (.path (.call (.create (.of [[98]]) ⟨sIfdir, Or.inr rfl⟩)))]

end Mount

end NaiveFS
