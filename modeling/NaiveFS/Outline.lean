import NaiveFS.SymlinkSound
import NaiveFS.UnlinkSound

/-!
# The namespace alone

To the namespace a symbolic link is a file, and a file has no contents. `outline` gives
symbolic links the mode of a regular file and forgets the blocks of files. A lookup goes
the same way in the outline unless it ends with a search in a file (`lookupFrom_outline`),
and the operations then commute with it; only deletion frees fewer blocks.
-/

namespace NaiveFS

namespace FS

open Groups

variable {s s' u : FS} {d i j fuel : Nat} {name : Name} {g : Groups} {ino : ListInode}

/-! ## Files without contents -/

def maskMode (mode : Nat) : Nat := if isDir mode || isReg mode then mode else sIfreg + mode % 4096

/-- An inode that is no directory is a regular file without blocks. -/
def sketch (ino : ListInode) : ListInode :=
  if isDir ino.iMode then ino else
    { ino with iMode := maskMode ino.iMode, iBlock := [], iBlocks := 0 }

def maskDentry (e : Dentry) : Dentry :=
  { e with fileType := if e.fileType % 16 = 4 ∨ e.fileType % 16 = 8 then e.fileType else 8 }

def outline (s : FS) : FS :=
  { s with inodes := fun i => sketch (s.inodes i), dents := fun b => (s.dents b).map maskDentry }

@[simp] theorem isDir_maskMode (mode : Nat) : isDir (maskMode mode) = isDir mode := by
  unfold maskMode
  split
  · rfl
  · rename_i h
    simp only [Bool.or_eq_true, not_or, Bool.not_eq_true] at h
    rw [h.1, isDir, fileType, sIfreg, beq_eq_false_iff_ne]
    omega

theorem isReg_maskMode (mode : Nat) : isReg (maskMode mode) = !isDir mode := by
  unfold maskMode
  split
  · rename_i h
    simp only [Bool.or_eq_true] at h
    rcases h with h | h
    · rw [h]
      simp only [isDir, isReg, beq_iff_eq] at h ⊢
      simp [h]
    · rw [h, not_isDir_of_isReg h]
      rfl
  · rename_i h
    simp only [Bool.or_eq_true, not_or, Bool.not_eq_true] at h
    rw [h.1, isReg, fileType, sIfreg, Bool.not_false, beq_iff_eq]
    omega

theorem u16_maskMode (mode : Nat) : u16 (maskMode mode) = maskMode (u16 mode) := by
  have hkind : (isDir (u16 mode) || isReg (u16 mode)) = (isDir mode || isReg mode) := by
    simp only [isDir, isReg, fileType_u16]
  unfold maskMode
  rw [hkind]
  split
  · rfl
  · unfold u16 sIfreg
    omega

theorem sketch_dir (h : isDir ino.iMode = true) : sketch ino = ino := if_pos h

theorem sketch_file (h : isDir ino.iMode = false) : (sketch ino).iBlock = [] := by simp [sketch, h]

@[simp] theorem sketch_iMode (ino : ListInode) : (sketch ino).iMode = maskMode ino.iMode := by
  unfold sketch
  split
  · rename_i h
    simp [maskMode, h]
  · rfl

@[simp] theorem sketch_iLinksCount (ino : ListInode) :
    (sketch ino).iLinksCount = ino.iLinksCount := by
  unfold sketch
  split <;> rfl

theorem sketch_sub (ino : ListInode) :
    (sketch ino).iBlock = ino.iBlock ∨ (sketch ino).iBlock = [] := by
  unfold sketch
  split
  · exact Or.inl rfl
  · exact Or.inr rfl

@[simp] theorem outline_groups (s : FS) : s.outline.groups = s.groups := rfl
@[simp] theorem outline_dcache (s : FS) : s.outline.dcache = s.dcache := rfl
@[simp] theorem outline_inodes (s : FS) (i : Nat) : s.outline.inodes i = sketch (s.inodes i) := rfl
@[simp] theorem outline_dents (s : FS) (b : Nat) : s.outline.dents b = (s.dents b).map maskDentry :=
  rfl

theorem outline_isDir (s : FS) (i : Nat) :
    isDir (s.outline.inodes i).iMode = isDir (s.inodes i).iMode := by
  rw [outline_inodes, sketch_iMode, isDir_maskMode]

theorem hasName_maskDentry (name : Name) (e : Dentry) :
    (maskDentry e).hasName name = e.hasName name := rfl

theorem find_maskDentry (name : Name) (l : List Dentry) :
    (l.map maskDentry).find? (Dentry.hasName name) =
      (l.find? (Dentry.hasName name)).map maskDentry :=
  List.find?_map ..

theorem make_mask (name : Name) (i mode : Nat) :
    Dentry.make name i (maskMode mode) = maskDentry (Dentry.make name i mode) := by
  have htype : maskMode mode / 4096 % 256 =
      if mode / 4096 % 256 % 16 = 4 ∨ mode / 4096 % 256 % 16 = 8 then mode / 4096 % 256 else 8 := by
    have hmod : mode / 4096 % 256 % 16 = fileType mode := by
      unfold fileType
      omega
    rw [hmod]
    by_cases h : fileType mode = 4 ∨ fileType mode = 8
    · rw [if_pos h, maskMode, if_pos (by simpa [isDir, isReg] using h)]
    · rw [if_neg h, maskMode, if_neg (by simpa [isDir, isReg] using h), sIfreg]
      omega
  unfold Dentry.make maskDentry
  rw [htype]

theorem killFirst_maskDentry (name : Name) (l : List Dentry) :
    Dentry.killFirst name (l.map maskDentry) = (Dentry.killFirst name l).map maskDentry := by
  induction l with
  | nil => rfl
  | cons e l ih =>
    rw [List.map_cons, Dentry.killFirst, Dentry.killFirst, hasName_maskDentry, ih]
    split <;> rfl

theorem outline_search_dir (h : isDir (s.inodes d).iMode = true) (name : Name) :
    s.outline.search d name = s.search d name := by
  have hvisitor : s.outline.searchVisitor name = s.searchVisitor name := by
    funext b r
    unfold searchVisitor
    rw [outline_dents, find_maskDentry]
    cases (s.dents b).find? (Dentry.hasName name) <;> rfl
  unfold search visitInodeBlocks
  rw [hvisitor, outline_inodes, sketch_dir h]

theorem outline_search_file (h : isDir (s.inodes d).iMode = false) (name : Name) :
    s.outline.search d name = none := by
  unfold search visitInodeBlocks
  rw [outline_inodes, sketch_file h]
  rfl

theorem outline_entries (h : isDir (s.inodes d).iMode = true) :
    s.outline.entries d = (s.entries d).map maskDentry := by
  unfold entries
  rw [outline_inodes, sketch_dir h, List.map_flatMap]
  rfl

theorem outline_isDirectory (s : FS) (d : Nat) : s.outline.isDirectory d = s.isDirectory d :=
  by simp [isDirectory]

theorem walk_of_outline :
    ∀ {q : List Name} {j : Nat}, s.outline.walk j q = .ok i → s.walk j q = .ok i := by
  intro q
  induction q with
  | nil => exact fun hw => hw
  | cons elem rest ih =>
    intro j hw
    rw [walk, outline_isDir] at hw
    rw [walk]
    split at hw
    · cases hw
    · rename_i hcond
      rw [if_neg hcond]
      by_cases hd : isDir (s.inodes (deref j)).iMode = true
      · rw [outline_search_dir hd] at hw
        cases hs : s.search (deref j) elem with
        | none =>
          rw [hs] at hw
          cases hw
        | some k =>
          rw [hs] at hw
          exact ih hw
      · rw [outline_search_file (Bool.eq_false_iff.mpr hd)] at hw
        cases hw

/-- The walk does not end with a search in a file that finds something. -/
def Sealed (s : FS) : Nat → List Name → Prop
  | _, [] => True
  | j, [elem] => isDir (s.inodes (deref j)).iMode = true ∨ s.search (deref j) elem = none
  | j, elem :: elem' :: rest =>
    isDir (s.inodes (deref j)).iMode = true → ∀ k, s.search (deref j) elem = some k →
      s.Sealed k (elem' :: rest)

theorem Sealed.tail {elem : Name} {rest : List Name} {k : Nat} (h : s.Sealed j (elem :: rest))
    (hd : isDir (s.inodes (deref j)).iMode = true) (hs : s.search (deref j) elem = some k) :
    s.Sealed k rest := by
  cases rest with
  | nil => trivial
  | cons elem' rest => exact h hd k hs

theorem sealed_cached (c : DentryCache) :
    ∀ {q : List Name} {j : Nat}, s.Sealed j q → ({ s with dcache := c } : FS).Sealed j q := by
  intro q
  induction q with
  | nil => exact fun _ => trivial
  | cons elem rest ih =>
    intro j h
    cases rest with
    | nil => exact h
    | cons elem' rest => exact fun hd k hs => ih (h hd k hs)

/-- A lookup is a walk, and if the walk is sealed it is the same without the contents
of files. -/
theorem lookupFrom_outline :
    ∀ {rest link : List Name} {index inode : Nat} {hit : Bool} {s : FS}, s.outline.Charted →
    [] ∉ link →
    [] ∉ rest → s.outline.walk rootInode link = .ok index → (hit = false → inode = index) →
    (lookupFrom link index inode hit rest s).1 = s.walk index rest ∧
      (s.Sealed index rest → lookupFrom link index inode hit rest s.outline =
        ((lookupFrom link index inode hit rest s).1,
          (lookupFrom link index inode hit rest s).2.outline)) := by
  intro rest
  induction rest with
  | nil => exact fun _ _ _ _ _ => ⟨rfl, fun _ => rfl⟩
  | cons elem rest ih =>
    intro link index inode hit s h hlink hne hw hinode
    have hname : elem ≠ [] := fun hc => hne (hc ▸ List.mem_cons_self)
    have hrest : [] ∉ rest := fun hc => hne (List.mem_cons_of_mem _ hc)
    have hlink' : [] ∉ link ++ [elem] := by simp [hlink, Ne.symm hname]
    have hia := h.order.walk_allocated h.order.tidy.root hlink hw
    have hderef := deref_allocated (s := s) h.order.books hia
    have hget := getInode_of_allocated (g := s.groups) h.order.books hia
    have hstep : ∀ {i}, (elem, i) ∈ s.outline.listing index →
      s.outline.walk rootInode (link ++ [elem]) = .ok i := by
      intro i hi
      exact (h.order.walk_append_ok h.order.tidy.root hlink).mpr ⟨index, hw,
        (h.order.walk_cons_ok hia hname).mpr ⟨i, hi, rfl⟩⟩
    -- a component listed in a directory
    have hdown : ∀ {i}, (elem, i) ∈ s.outline.listing index → isDir (s.inodes index).iMode = true ∧
        s.search index elem = some i ∧ s.groups.getInode i = some i ∧ s.walk index (elem :: rest) =
        s.walk i rest := by
      intro i hin
      obtain ⟨hdir, hia', -⟩ := h.order.of_listing hia hin
      have hd : isDir (s.inodes index).iMode = true := by simpa using (isDirectory_iff.mp hdir).2
      have hs : s.search index elem = some i := by
        rw [← outline_search_dir hd]
        exact (h.order.search_iff hia hname).mpr hin
      refine ⟨hd, hs, getInode_of_allocated h.order.books hia', ?_⟩
      rw [walk, hderef, if_neg (by simp [hd]), hs]
    unfold lookupFrom
    rw [outline_dcache, cache_lookup hname]
    cases hc : s.dcache (link ++ [elem]) with
    | some i =>
      obtain ⟨-, hwalk⟩ := h.cache _ _ hc
      obtain ⟨k, hk, hlast⟩ := (h.order.walk_append_ok h.order.tidy.root hlink).mp hwalk
      cases hw.symm.trans hk
      obtain ⟨k, hin, hki⟩ := (h.order.walk_cons_ok hia hname).mp hlast
      cases hki
      obtain ⟨hd, hs, hgeti, hsame⟩ := hdown hin
      simp only [outline_groups, hgeti, Option.isNone_some, Bool.and_false, Bool.false_eq_true,
        if_false]
      rw [hsame, ← walk_cached (s.dcache.enter link elem)]
      obtain ⟨hfst, hsame⟩ :=
        @ih (link ++ [elem]) i inode true { s with dcache := s.dcache.enter link elem }
        (h.enter link elem) hlink' hrest (by rw [← hwalk]; exact walk_cached (s := s.outline) _ _ _)
          (fun hc => by cases hc)
      exact ⟨hfst,
        fun hseal =>
        hsame (sealed_cached _ (hseal.tail (by rw [hderef]; exact hd) (by rw [hderef]; exact hs)))⟩
    | none =>
      have hptr : (if hit = true then s.groups.getInode index else some inode) = some index := by
        cases hit with
        | true => rw [if_pos rfl, hget]
        | false => rw [if_neg Bool.false_ne_true, hinode rfl]
      rw [outline_groups, hptr, walk, hderef]
      simp only [outline_isDir]
      split
      · exact ⟨rfl, fun _ => rfl⟩
      · rename_i hcond
        by_cases hd : isDir (s.inodes index).iMode = true
        · rw [outline_search_dir hd]
          cases hs : s.search index elem with
          | none => exact ⟨rfl, fun _ => rfl⟩
          | some i =>
            have hin : (elem, i) ∈ s.outline.listing index := by
              rw [← h.order.search_iff hia hname, outline_search_dir hd]
              exact hs
            obtain ⟨-, -, hgeti, -⟩ := hdown hin
            simp only [hgeti, Option.getD_some]
            obtain ⟨hfst, hsame⟩ :=
              @ih (link ++ [elem]) i i false
              { s with dcache := (s.dcache.enter link elem).insert link elem i }
              ((h.enter link elem).insert hlink'
                (by rw [← hstep hin]; exact walk_cached (s := s.outline) _ _ _)) hlink' hrest
                (by rw [← hstep hin]; exact walk_cached (s := s.outline) _ _ _) fun _ => rfl
            rw [← walk_cached ((s.dcache.enter link elem).insert link elem i)]
            exact ⟨hfst,
              fun hseal =>
              hsame (sealed_cached _ (hseal.tail (by rw [hderef]; exact hd)
              (by rw [hderef]; exact hs)))⟩
        · -- the last component, in a file
          have hd := Bool.eq_false_iff.mpr hd
          have hnil : rest = [] := by simpa [hd] using hcond
          subst hnil
          rw [outline_search_file hd]
          cases hs : s.search index elem with
          | none => exact ⟨rfl, fun _ => rfl⟩
          | some i =>
            refine ⟨rfl, fun hseal => ?_⟩
            rcases hseal with hc | hc
            · rw [hderef, hd] at hc
              cases hc
            · rw [hderef, hs] at hc
              cases hc

section
variable (h : s.outline.Charted) (path : Path)
include h

theorem lookup_walk (hv : path.valid = true) :
    (s.inodeLookup path).1 = s.walk rootInode path.names := by
  unfold inodeLookup
  rw [hv]
  exact (lookupFrom_outline h List.not_mem_nil (path.nonempty hv) rfl fun _ => rfl).1

theorem lookup_outline (hseal : path.valid = true → s.Sealed rootInode path.names) :
    s.outline.inodeLookup path = ((s.inodeLookup path).1, (s.inodeLookup path).2.outline) := by
  unfold inodeLookup
  by_cases hv : path.valid = true
  · rw [hv]
    exact (lookupFrom_outline h List.not_mem_nil (path.nonempty hv) rfl fun _ => rfl).2 (hseal hv)
  · rw [Bool.eq_false_iff.mpr hv]
    rfl

end

/-! ## The operations in the outline -/

theorem outline_update (s : FS) (g : Groups) (i : Nat) (ino : ListInode)
    (dents : Nat → List Dentry) (c : DentryCache) :
    (FS.mk g (Function.update s.inodes i ino) dents c).outline =
      FS.mk g (Function.update s.outline.inodes i (sketch ino)) (fun b => (dents b).map maskDentry)
      c := by
  have hupd : (fun j => sketch (Function.update s.inodes i ino j)) =
    Function.update (fun j => sketch (s.inodes j)) i (sketch ino) :=
    Function.comp_update sketch s.inodes i ino
  unfold outline
  simp only [hupd]

theorem map_update_dents (dents : Nat → List Dentry) (b : Nat) (es : List Dentry) :
    (fun c => (Function.update dents b es c).map maskDentry) =
      Function.update (fun c => (dents c).map maskDentry) b (es.map maskDentry) :=
  Function.comp_update (List.map maskDentry) dents b es

theorem sketch_new (hb : ino.iBlock = []) (hn : ino.iBlocks = 0) :
    sketch ino = { ino with iMode := maskMode ino.iMode } := by
  unfold sketch
  split
  · rename_i h
    rw [maskMode, h, Bool.true_or, if_pos rfl]
  · rw [← hb, ← hn]

theorem outline_allocInode (mode : Nat) (s : FS) :
    s.outline.allocInode (maskMode mode) = ((s.allocInode mode).1,
      (s.allocInode mode).2.outline) := by
  unfold allocInode
  rw [outline_groups]
  rcases s.groups.alloc .inode with ⟨_ | ⟨i, served⟩, g⟩
  · rfl
  · simp only
    rw [outline_update]
    cases served <;> rw [sketch_new rfl rfl] <;> simp [blankInode, inodeInit, u16_maskMode] <;> rfl

theorem allocBlock_iMode {p : Nat} (j : Nat) :
    ((s.allocBlock p).2.inodes j).iMode = (s.inodes j).iMode := by
  obtain ⟨b, served, -, heq⟩ := allocBlock_some p s
  rw [heq]
  by_cases hj : j = p <;> simp [hj]

theorem outline_blockBytes (s : FS) (b : Nat) : s.outline.blockBytes b = s.blockBytes b := by
  unfold blockBytes
  rw [outline_dents, List.map_map]
  rfl

section
variable {p : Nat} (hd : isDir (s.inodes p).iMode = true)
include hd

theorem outline_allocBlock :
    s.outline.allocBlock p = ((s.allocBlock p).1, (s.allocBlock p).2.outline) := by
  obtain ⟨b, served, hr, heq⟩ := allocBlock_some p s
  obtain ⟨b', served', hr', heq'⟩ := allocBlock_some p s.outline
  rw [outline_groups, hr] at hr'
  cases hr'
  have hd' : isDir (addBlock (s.inodes p) b).iMode = true := hd
  rw [heq, heq', outline_groups, outline_inodes, sketch_dir hd, outline_update, sketch_dir hd',
    map_update_dents]
  rfl

theorem outline_blockForDentry (last : Option Nat) (name : Name) :
    s.outline.blockForDentry last p name = ((s.blockForDentry last p name).1,
      (s.blockForDentry last p name).2.outline) := by
  have hblock := outline_allocBlock hd
  unfold blockForDentry Calls.blockForDentry
  cases last with
  | some b =>
    simp only [outline_blockBytes]
    split
    · exact hblock
    · rfl
  | none =>
    simp only [hblock]
    have hd' : isDir ((s.allocBlock p).2.inodes p).iMode = true := by
      rw [allocBlock_iMode]; exact hd
    generalize s.allocBlock p = q at hd'
    obtain ⟨_ | b, t⟩ := q
    · rfl
    · simp only [outline_blockBytes]
      split
      · exact outline_allocBlock hd'
      · rfl

theorem outline_dentryCreate (last : Option Nat) (name : Name) (i mode : Nat) :
    s.outline.dentryCreate last p name i (maskMode mode) =
      (s.dentryCreate last p name i mode).map fun r => (r.1, r.2.outline) := by
  unfold dentryCreate Calls.dentryCreate
  rw [outline_blockForDentry hd]
  rcases s.blockForDentry last p name with ⟨_ | b, t⟩
  · rfl
  · simp only
    split
    · rfl
    · rw [Option.map_some]
      congr 2
      unfold outline
      simp only
      rw [map_update_dents, List.map_append, make_mask]
      rfl

theorem outline_inodeLookupIn (name : Name) :
    s.outline.inodeLookupIn p name = s.inodeLookupIn p name := by
  unfold inodeLookupIn visitInodeBlocks
  simp only [outline_dents, outline_inodes, sketch_dir hd, List.filter_map, List.foldl_map]
  rfl

theorem outline_killName (name : Name) :
    s.outline.killName p name = ((s.killName p name).1.outline, (s.killName p name).2) := by
  have hvisit := visitFrom_map (v := killVisitor name) (w := killVisitor name)
    (fun st : (Nat → List Dentry) × Option Nat => ((fun b => (st.1 b).map maskDentry), st.2))
      (fun b st => by
      unfold killVisitor
      rw [find_maskDentry]
      cases (st.1 b).find? (Dentry.hasName name) with
      | none => rfl
      | some e =>
        simp only [Option.map_some, killFirst_maskDentry, map_update_dents]
        rfl) (s.inodes p).iBlock 0 false (s.dents, none)
  unfold killName visitInodeBlocks
  rw [outline_inodes, sketch_dir hd]
  exact congrArg (fun st : (Nat → List Dentry) × Option Nat =>
    (({ s.outline with dents := st.1 } : FS), st.2)) hvisit

end

theorem outline_setLinks (s : FS) (i n : Nat) :
    (s.setLinks i n).outline = s.outline.setLinks i n := by
  have hsketch : sketch { s.inodes i with iLinksCount := n } =
    { sketch (s.inodes i) with iLinksCount := n } := by
    unfold sketch
    simp only
    split <;> rfl
  refine (outline_update s s.groups i _ s.dents s.dcache).trans ?_
  rw [hsketch]
  rfl

theorem outline_clean (h : s.Clean g) : s.outline.Clean g := by
  have hsub : ∀ {i b}, b ∈ (sketch (s.inodes i)).iBlock → b ∈ (s.inodes i).iBlock := by
    intro i b hb
    rcases sketch_sub (s.inodes i) with heq | hnil
    · rwa [heq] at hb
    · rw [hnil] at hb
      cases hb
  refine ⟨h.books, h.owned.mono (fun _ hb => hb) ?_, fun i hi => ?_⟩
  · intro i b hb
    exact ⟨hb.1, hsub hb.2⟩
  · rcases sketch_sub (s.inodes i) with heq | hnil
    · rw [outline_inodes, heq]
      exact h.nodup i hi
    · rw [outline_inodes, hnil]
      exact List.nodup_nil

section
variable (h : s.outline.Charted) {path : Path} {mode : Nat}
include h

theorem outline_inodeCreate {r : Except RetCode Nat}
    (hseal : path.valid = true → s.Sealed rootInode path.parent.names)
    (hc : s.inodeCreate path mode = some (r, s')) (hle : s'.groups.groupCount ≤ 33) :
    s.outline.inodeCreate path (maskMode mode) = some (r, s'.outline) := by
  have hroot : s.groups.allocated .inode rootInode = true := h.order.tidy.root
  have hbooks : s.groups.Books := h.order.books
  unfold inodeCreate Calls.inodeCreate at hc ⊢
  split at hc
  · rename_i hv
    cases hc
    rw [if_pos hv]
  rename_i hv
  rw [if_neg hv]
  split at hc
  · rename_i hne
    cases hc
    rw [if_pos hne]
  rename_i hne
  rw [if_neg hne, lookup_outline h path.parent hseal]
  cases hl : s.inodeLookup path.parent with
  | mk res t =>
    rw [hl] at hc
    cases res with
    | error e =>
      cases hc
      rfl
    | ok p =>
      obtain ⟨⟨c, rfl⟩, hpa⟩ := inodeLookup_parent hroot hl
      simp only [outline_isDir] at hc ⊢
      split at hc
      · rename_i hd
        cases hc
        rw [if_pos hd]
      · rename_i hd
        rw [if_neg hd]
        have hd : isDir (s.inodes (deref p)).iMode = true := by simpa using hd
        rw [outline_inodeLookupIn (s := { s with dcache := c }) hd]
        cases hscan : ({ s with dcache := c } : FS).inodeLookupIn (deref p) path.back with
        | mk found last =>
          rw [hscan] at hc
          cases found with
          | some k =>
            simp only [outline_groups] at hc ⊢
            split at hc
            · rename_i hpresent
              cases hc
              exact if_pos hpresent
            · cases hc
          | none =>
            simp only [outline_allocInode] at hc ⊢
            cases ha : ({ s with dcache := c } : FS).allocInode mode with
            | mk o t₁ =>
              rw [ha] at hc
              cases o with
              | none =>
                cases hc
                rfl
              | some i =>
                simp only at hc ⊢
                cases hdc : t₁.dentryCreate last (deref p) path.back i mode with
                | none =>
                  rw [hdc] at hc
                  cases hc
                | some q =>
                  obtain ⟨rc, t₂⟩ := q
                  have hgrow := dentryCreate_groupCount hdc
                  have ht₂ : t₂ = s' := by
                    rw [hdc] at hc
                    cases rc <;> cases hc <;> rfl
                  -- the new inode is not the directory
                  obtain ⟨i', g, heq, hout, -⟩ :=
                    allocInode_spec mode (s := { s with dcache := c }) hbooks
                    (by rw [ha]; exact Nat.le_trans hgrow (ht₂ ▸ hle))
                  rw [ha] at heq
                  cases heq
                  have hpi : deref p ≠ i := by
                    intro hpi
                    rw [hpi] at hpa
                    rw [show s.groups.allocated .inode i = false from hout.free] at hpa
                    cases hpa
                  rw [outline_dentryCreate (by simpa [hpi] using hd), hdc]
                  rw [hdc] at hc
                  cases rc <;> cases hc <;> rfl

theorem outline_inodeLink {src dst : Path} {r : RetCode}
    (hsrc : src.valid = true → s.Sealed rootInode src.names)
    (hdst : dst.valid = true → s.Sealed rootInode dst.parent.names)
    (hl : s.inodeLink src dst = some (r, s')) :
    s.outline.inodeLink src dst = some (r, s'.outline) := by
  unfold inodeLink Calls.inodeLink at hl ⊢
  split at hl
  · rename_i hv
    cases hl
    rw [if_pos hv]
  rename_i hv
  rw [if_neg hv]
  split at hl
  · rename_i hne
    cases hl
    rw [if_pos hne]
  rename_i hne
  rw [if_neg hne, lookup_outline h src hsrc]
  have hlooked : (s.inodeLookup src).2.outline.Charted := by
    have := lookup_outline h src hsrc
    obtain ⟨c, hc⟩ := inodeLookup_frame src s.outline
    rw [this] at hc
    rw [show (s.inodeLookup src).2.outline = _ from hc]
    exact h.looked (Looked.start.of_eq (r := (s.inodeLookup src).1)
      (by rw [this]; exact Prod.ext rfl hc))
  cases hl₁ : s.inodeLookup src with
  | mk res t =>
    obtain ⟨c, hc⟩ := inodeLookup_frame src s
    rw [hl₁] at hl hc hlooked
    simp only at hc
    subst hc
    cases res with
    | error e =>
      cases hl
      rfl
    | ok index =>
      simp only [outline_isDir] at hl ⊢
      split at hl
      · rename_i hd
        cases hl
        rw [if_pos hd]
      · rename_i hd
        rw [if_neg hd, lookup_outline hlooked dst.parent fun hv => sealed_cached c (hdst hv)]
        cases hl₂ : ({ s with dcache := c } : FS).inodeLookup dst.parent with
        | mk res t =>
          obtain ⟨c', hc'⟩ := inodeLookup_frame dst.parent { s with dcache := c }
          rw [hl₂] at hl hc'
          simp only at hc'
          subst hc'
          cases res with
          | error e =>
            cases hl
            rfl
          | ok p =>
            simp only [outline_isDir] at hl ⊢
            split at hl
            · rename_i hpd
              cases hl
              rw [if_pos hpd]
            · rename_i hpd
              rw [if_neg hpd]
              have hpd : isDir (s.inodes (deref p)).iMode = true := by simpa using hpd
              rw [outline_inodeLookupIn (s := { s with dcache := c' }) hpd]
              cases hscan : ({ s with dcache := c' } : FS).inodeLookupIn (deref p) dst.back with
              | mk found last =>
                rw [hscan] at hl
                cases found with
                | some k =>
                  cases hl
                  rfl
                | none =>
                  simp only at hl ⊢
                  rw [show (({ s with dcache := c' } : FS).outline.inodes (deref index)).iMode =
                    _ from sketch_iMode _, outline_dentryCreate (s := { s with dcache := c' }) hpd]
                  cases hdc : ({ s with dcache := c' } : FS).dentryCreate last (deref p)
                    dst.back index
                      (s.inodes (deref index)).iMode with
                  | none =>
                    rw [hdc] at hl
                    cases hl
                  | some q =>
                    obtain ⟨rc, t₂⟩ := q
                    rw [hdc] at hl
                    cases rc with
                    | success =>
                      cases hl
                      simp only [Option.map_some, outline_inodes, sketch_iLinksCount]
                      rw [outline_setLinks]
                    | _ =>
                      cases hl
                      rfl

end

theorem deref_of_getInode (hget : g.getInode i = some i) : deref i = i := by
  unfold deref
  split
  · rename_i hi
    rw [Groups.getInode, if_pos hi] at hget
    exact Option.some.inj hget
  · rfl

theorem dropLink_last (hget : s.groups.getInode i = some i)
    (hlast : u16 ((s.inodes i).iLinksCount + 65535) = 0) :
    s.dropLink fuel i =
      ((s.setLinks i 0).inodeDelete fuel i s.groups).map fun r =>
      (r.1, { s.setLinks i 0 with groups := r.2 }) := by
  unfold dropLink
  rw [hget]
  simp only [hlast, if_true]
  rfl

theorem dropLink_more (hget : s.groups.getInode i = some i)
    (hmore : u16 ((s.inodes i).iLinksCount + 65535) ≠ 0) :
    s.dropLink fuel i = some (.success, s.setLinks i (u16 ((s.inodes i).iLinksCount + 65535))) := by
  unfold dropLink
  rw [hget]
  exact if_neg hmore

/-- In the outline a file goes alone. -/
theorem outline_delete (fuel : Nat) (hs : g.Books) (hi : g.allocated .inode i = true)
    (hr : i ≠ rootInode)
    (hdead : isDir (s.inodes i).iMode = true → ∀ e ∈ s.entries i, e.live = false) :
    ∃ g', s.outline.inodeDelete (fuel + 1) i g = some (.success, g') ∧
      ∀ j, g'.allocated .inode j = if j = i then false else g.allocated .inode j := by
  obtain ⟨g', hdel, hfree⟩ := @inodeDelete_alone_some s.outline fuel i g hs hi hr
    (by
      rw [outline_inodes, sketch_iMode, isReg_maskMode, isDir_maskMode]
      cases isDir (s.inodes i).iMode <;> simp)
    (fun hdir e he => by
      rw [outline_isDir] at hdir
      rw [outline_entries hdir] at he
      obtain ⟨x, hx, rfl⟩ := List.mem_map.mp he
      exact hdead hdir x hx)
    (fun hdir => by
      rw [outline_isDir] at hdir
      exact sketch_file hdir)
  obtain ⟨g₁, heq, -, hafter⟩ := hs.free hi
  cases heq.symm.trans hfree
  refine ⟨g', hdel, fun j => ?_⟩
  rw [hafter]
  simp

/-- A file goes with its blocks. The inodes freed are the same. -/
theorem outline_dropLink {r : RetCode} (hs : s.Clean s.groups)
    (hi : s.groups.allocated .inode i = true) (hr : i ≠ rootInode) (hstuck : ¬ s.Stuck i)
    (hdead : isDir (s.inodes i).iMode = true → ∀ e ∈ s.entries i, e.live = false)
    (h : dropLink fuel i s = some (r, s')) :
    ∃ g, dropLink fuel i s.outline = some (r, { s'.outline with groups := g }) ∧
      ∀ j, g.allocated .inode j = s'.groups.allocated .inode j := by
  have hget := getInode_of_allocated hs.books hi
  have hlinks : (s.outline.inodes i).iLinksCount = (s.inodes i).iLinksCount := sketch_iLinksCount _
  by_cases hlast : u16 ((s.inodes i).iLinksCount + 65535) = 0
  case neg =>
    rw [dropLink_more hget hlast] at h
    cases h
    rw [dropLink_more (s := s.outline) hget (by rwa [hlinks]), hlinks]
    exact ⟨s.groups, by rw [← outline_setLinks]; rfl, fun _ => rfl⟩
  rw [dropLink_last hget hlast] at h
  rw [dropLink_last (s := s.outline) hget (by rwa [hlinks]), ← outline_setLinks]
  obtain ⟨⟨rc, g'⟩, hdel, heq⟩ := Option.map_eq_some_iff.mp h
  cases heq
  rw [Stuck, deref_of_getInode hget] at hstuck
  cases fuel with
  | zero => cases hdel
  | succ fuel =>
    -- the inode bitmap, once the contents are freed, is what it was
    obtain ⟨rfl, g₁, hbooks, hsame, b, hfree⟩ : rc = .success ∧ ∃ g₁ : Groups, g₁.Books ∧
        (∀ j, g₁.allocated .inode j = s.groups.allocated .inode j) ∧
        ∃ b, g₁.free .inode i = some (b, g') := by
      have hwork := inodeDelete_some hdel
      rw [hget] at hwork
      rcases hwork with ⟨-, hc | hc | ⟨k, hk, hreg, hdir⟩⟩ | ⟨k, g₁, b, -, hk, hrc, hwork, hfree⟩
      · exact absurd hc hr
      · cases hc
      · cases hk
        rw [setLinks_iMode] at hreg hdir
        exact absurd ⟨hlast, Or.inr ⟨hreg, hdir⟩⟩ hstuck
      · cases hk
        rw [setLinks_iMode, setLinks_iBlock, setLinks_entries] at hwork
        rcases hwork with ⟨hdir, hwork⟩ | ⟨-, hwork⟩
        · rw [deleteAll_dead (hdead hdir)] at hwork
          cases hwork
          exact ⟨hrc, s.groups, hs.books, fun _ => rfl, b, hfree⟩
        · obtain ⟨g₂, heq, hbooks, hsame, -⟩ :=
            freeBlocks_spec hs.books (hs.nodup i hi) fun b hb => hs.owned.allocated i b ⟨hi, hb⟩
          rw [heq] at hwork
          cases hwork
          exact ⟨hrc, g₁, hbooks, hsame, b, hfree⟩
    obtain ⟨g'', hdel', hafter'⟩ := outline_delete (s := s.setLinks i 0) fuel hs.books hi hr
      (by rw [setLinks_iMode, setLinks_entries]; exact hdead)
    refine ⟨g'', by rw [outline_groups, hdel']; rfl, fun j => ?_⟩
    obtain ⟨g₂, heq, -, hafter⟩ := hbooks.free ((hsame i).trans hi)
    cases heq.symm.trans hfree
    rw [hafter', show (g' : Groups).allocated .inode j = _ from hafter .inode j, hsame]
    simp

theorem outline_listing (hd : s.isDirectory d = true) : s.outline.listing d = s.listing d := by
  unfold listing
  rw [outline_entries (isDirectory_iff.mp hd).2, List.filter_map, List.map_map]
  rfl

theorem Charted.found {path : Path} (h : s.Charted) (hl : (s.inodeLookup path).1 = .ok i) :
    path.valid = true ∧ s.walk rootInode path.names = .ok i ∧ s.groups.allocated .inode i =
      true := by
  have hv : path.valid = true := by
    by_contra hv
    simp [inodeLookup, Bool.eq_false_iff.mpr hv] at hl
  rw [(h.lookup path hv).1] at hl
  exact ⟨hv, hl, h.order.walk_allocated h.order.tidy.root (path.nonempty hv) hl⟩

theorem Charted.target_found {path : Path} (h : s.Charted) (ht : s.target path = some i) :
    (s.inodeLookup path).1 = .ok i := by
  unfold target at ht
  split at ht
  · cases ht
  · rename_i hnil
    have hne : path.names ≠ [] := by simpa using hnil
    split at ht
    · cases ht
    · rename_i parent t hl
      split at ht
      · obtain ⟨hv, hw, hpa⟩ := h.found (congrArg Prod.fst hl)
        have hback : path.back ≠ [] := Path.back_ne_nil hv hne
        rw [deref_allocated h.order.books hpa] at ht
        obtain ⟨b, hb, e, heb, hname, rfl, -⟩ := (killName_killed hback s parent).found i ht
        have he : e ∈ s.entries parent := List.mem_flatMap.mpr ⟨b, hb, heb⟩
        have hin : (path.back, e.inode) ∈ s.listing parent :=
          (h.order.tidy.mem_listing_iff hpa hback).mpr ⟨e, he, hname, rfl⟩
        rw [(h.lookup path hv).1, Path.names_eq hne,
          h.order.walk_append_ok h.order.tidy.root (path.parent.nonempty hv)]
        exact ⟨parent, hw, (h.order.walk_cons_ok hpa hback).mpr ⟨_, hin, rfl⟩⟩
      · cases ht

theorem Charted.entry {path : Path} (h : s.Charted) (hne : path.names ≠ [])
    (hi : (s.inodeLookup path).1 = .ok i) :
    ∃ p, (s.inodeLookup path.parent).1 = .ok p ∧ s.isDirectory p = true ∧
      (path.back, i) ∈ s.listing p := by
  obtain ⟨hv, hw, -⟩ := h.found hi
  have hnil := path.nonempty hv
  rw [Path.names_eq hne] at hw hnil
  obtain ⟨p, hp, hpd, hin⟩ := (h.order.walk_concat_ok hnil).mp hw
  exact ⟨p, (h.lookup path.parent hv).1.trans hp, hpd, hin⟩

section
variable (h : s.outline.Charted) {path : Path} (hseal : path.valid = true →
  s.Sealed rootInode path.parent.names)
include h hseal

theorem outline_target : s.outline.target path = s.target path := by
  unfold target
  split
  · rfl
  · rw [lookup_outline h path.parent hseal]
    cases hl : s.inodeLookup path.parent with
    | mk res t =>
      cases res with
      | error e => rfl
      | ok p =>
        simp only [outline_isDir]
        split
        · rename_i hd
          rw [outline_killName hd]
        · rfl

theorem allocated_of_target (hi : s.target path = some i) :
    s.groups.allocated .inode i = true ∧ i ≠ rootInode := by
  have hfound := h.target_found ((outline_target h hseal).trans hi)
  have hne : path.names ≠ [] := by
    intro hc
    rw [target, if_pos (by simp [hc])] at hi
    cases hi
  obtain ⟨p, -, hpd, hin⟩ := h.entry hne hfound
  exact (h.order.of_listing (isDirectory_iff.mp hpd).1 hin).2

/-- Both calls fail, or both get to the link count, with the entry gone. -/
theorem outline_unlink_cases (fuel : Nat) :
    (∃ r c, s.inodeUnlink fuel path = some (r, { s with dcache := c }) ∧
        s.outline.inodeUnlink fuel path = some (r, { s.outline with dcache := c })) ∨
      ∃ i dents c, s.target path = some i ∧ s.inodeUnlink fuel path =
        (FS.mk s.groups s.inodes dents c).dropLink fuel i ∧ s.outline.inodeUnlink fuel path =
        (FS.mk s.groups s.inodes dents c).outline.dropLink fuel i ∧ ∀ b, ∀ e ∈ dents b,
        e.live = true → e ∈ s.dents b := by
  unfold inodeUnlink
  split
  · exact Or.inl ⟨.invalid, s.dcache, rfl, rfl⟩
  rename_i hv
  split
  · exact Or.inl ⟨.invalid, s.dcache, rfl, rfl⟩
  rename_i hne
  have hback : path.back ≠ [] := Path.back_ne_nil (by simpa using hv) (by simpa using hne)
  rw [lookup_outline h path.parent hseal]
  cases hl : s.inodeLookup path.parent with
  | mk res t =>
    obtain ⟨c, hc⟩ := inodeLookup_frame path.parent s
    rw [hl] at hc
    simp only at hc
    subst hc
    cases res with
    | error e => exact Or.inl ⟨e, c, rfl, rfl⟩
    | ok p =>
      simp only [outline_isDir]
      split
      · exact Or.inl ⟨.ndirErr, c, rfl, rfl⟩
      · rename_i hd
        have hd : isDir (s.inodes (deref p)).iMode = true := by simpa using hd
        rw [outline_killName (s := { s with dcache := c }) hd]
        have htarget := target_eq hl hd (by simpa using hne)
        have hk := killName_killed hback s (deref p)
        have hkn : ({ s with dcache := c } : FS).killName (deref p) path.back =
            ({ s with
              dents := (s.visitInodeBlocks (deref p) (killVisitor path.back) (s.dents, none)).1
              dcache := c },
              (s.visitInodeBlocks (deref p) (killVisitor path.back) (s.dents, none)).2) := rfl
        rw [hkn]
        generalize s.visitInodeBlocks (deref p) (killVisitor path.back) (s.dents, none) =
          st at hk htarget ⊢
        cases hm : st.2 with
        | none =>
          -- a search in vain leaves the blocks as they are
          refine Or.inl ⟨.notFound, c, ?_, ?_⟩
          · simp only [hk.idle hm]
          · simp only [hk.idle hm]
            rfl
        | some i =>
          exact Or.inr ⟨i, st.1, DentryCache.drop c path.parent.names path.back, htarget.trans hm,
            rfl, rfl, fun b e he hl => Dentry.mem_of_weaker (hk.weaker b) he hl⟩

theorem outline_inodeUnlink {r : RetCode} (hs : s.Clean s.groups)
    (hfree : ∀ i, s.target path = some i → ¬ s.Stuck i)
    (hempty : ∀ i, s.target path = some i → s.isDirectory i = true → s.listing i = [])
    (hu : s.inodeUnlink fuel path = some (r, s')) :
    ∃ g, s.outline.inodeUnlink fuel path = some (r, { s'.outline with groups := g }) ∧
      ∀ j, g.allocated .inode j = s'.groups.allocated .inode j := by
  rcases outline_unlink_cases h hseal fuel with ⟨r', c, heq, heq'⟩ | ⟨i, dents, c, hi, heq,
    heq', hdents⟩
  · cases heq.symm.trans hu
    exact ⟨s.groups, heq', fun _ => rfl⟩
  · obtain ⟨hia, hir⟩ := allocated_of_target h hseal hi
    rw [heq] at hu
    rw [heq']
    refine outline_dropLink (s := FS.mk s.groups s.inodes dents c) ⟨hs.books, hs.owned,
      hs.nodup⟩ hia hir (hfree i hi)
      (fun hdir x hx => ?_) hu
    by_contra hl
    rw [Bool.not_eq_false] at hl
    obtain ⟨b, hb, hx⟩ := List.mem_flatMap.mp hx
    rw [dead_of_listing (hempty i hi (isDirectory_iff.mpr ⟨hia, hdir⟩)) x (List.mem_flatMap.mpr ⟨b,
      hb, hdents b x hx hl⟩)] at hl
    cases hl

end

/-! ## States that look alike -/

/-- The namespace in `u` is that in `s`: of the inodes that are allocated, only
permissions and attributes differ. -/
structure Similar (s u : FS) : Prop where
  type : ∀ j, s.groups.allocated .inode j = true →
    fileType (u.inodes j).iMode = fileType (s.inodes j).iMode
  links : ∀ j, s.groups.allocated .inode j = true →
    (u.inodes j).iLinksCount = (s.inodes j).iLinksCount
  blocks : ∀ j, s.groups.allocated .inode j = true → (u.inodes j).iBlock = (s.inodes j).iBlock
  dcache : u.dcache = s.dcache
  allocated : ∀ j, u.groups.allocated .inode j = s.groups.allocated .inode j
  dents : ∀ j, s.groups.allocated .inode j = true → ∀ b ∈ (s.inodes j).iBlock, u.dents b = s.dents b
  clean : u.Clean u.groups

section
variable (ha : Similar s u)
include ha

theorem Similar.entries (hj : s.groups.allocated .inode j = true) : u.entries j = s.entries j := by
  unfold FS.entries
  rw [ha.blocks j hj, List.flatMap_def, List.flatMap_def]
  congr 1
  apply List.map_congr_left
  exact ha.dents j hj

theorem Similar.isDir (hj : s.groups.allocated .inode j = true) :
    isDir (u.inodes j).iMode = isDir (s.inodes j).iMode := by
  unfold NaiveFS.isDir
  rw [ha.type j hj]

theorem Similar.isDirectory (d : Nat) : u.isDirectory d = s.isDirectory d := by
  unfold FS.isDirectory
  rw [ha.allocated]
  cases hd : s.groups.allocated .inode d with
  | false => rfl
  | true => rw [ha.isDir hd]

theorem Similar.dirEntries (d : Nat) : u.dirEntries d = s.dirEntries d := by
  unfold FS.dirEntries
  rw [ha.isDirectory]
  split
  · rename_i hd
    exact ha.entries (isDirectory_iff.mp hd).1
  · rfl

theorem Similar.orderly (h : s.Orderly) : u.Orderly := by
  have hrefs := refs_congr ha.dirEntries
  have hback : ∀ {j}, u.groups.allocated .inode j = true → s.groups.allocated .inode j = true := by
    intro j hj
    rwa [ha.allocated] at hj
  have hlisting : ∀ {d}, s.groups.allocated .inode d = true → u.listing d = s.listing d :=
    fun hd => listing_congr (ha.entries hd)
  have hgraph := h.linked.graph
  refine ⟨⟨⟨ha.clean, ?_, ?_, ?_, ?_⟩, ?_, ?_⟩, ⟨ha.clean, ?_, ?_, ?_⟩, ?_, ?_, ?_⟩
  · rw [ha.isDirectory]
    exact hgraph.root
  · intro i hi
    rw [ha.isDir (hback hi), isReg, ha.type i (hback hi)]
    exact hgraph.kind i (hback hi)
  · intro d e he hl
    rw [ha.dirEntries] at he
    rw [ha.allocated]
    exact hgraph.named d e he hl
  · obtain ⟨rank, hrank⟩ := hgraph.ranked
    refine ⟨rank, fun d e he hl hd => ?_⟩
    rw [ha.dirEntries] at he
    rw [ha.isDirectory] at hd
    exact hrank d e he hl hd
  · intro i hi
    rw [hrefs, ha.links i (hback hi)]
    exact h.linked.count i (hback hi)
  · intro i hi
    rw [ha.links i (hback hi)]
    exact h.linked.bound i (hback hi)
  · rw [ha.allocated]
    exact h.tidy.root
  · intro i hi e he
    rw [ha.entries (hback hi)] at he
    exact h.tidy.whole i (hback hi) e he
  · intro i hi
    unfold listed
    rw [hlisting (hback hi)]
    exact h.tidy.distinct i (hback hi)
  · intro i hi hr
    rw [ha.links i (hback hi), hrefs]
    exact h.counted i (hback hi) hr
  · intro i hi hd
    rw [ha.isDir (hback hi)] at hd
    rw [ha.blocks i (hback hi)]
    exact h.plain i (hback hi) hd
  · intro c d d' n n' hc hd hd' hin hin'
    rw [ha.isDirectory] at hc hd hd'
    rw [hlisting (isDirectory_iff.mp hd).1] at hin
    rw [hlisting (isDirectory_iff.mp hd').1] at hin'
    exact h.tree c d d' n n' hc hd hd' hin hin'

theorem Similar.charted (h : s.Charted) : u.Charted := by
  refine ⟨ha.orderly h.order, fun q i hq => ?_⟩
  rw [ha.dcache] at hq
  obtain ⟨hne, hw⟩ := h.cache q i hq
  refine ⟨hne, walk_mono h.order (ha.orderly h.order) (fun d hd => ?_) h.order.tidy.root hne hw⟩
  rw [ha.isDirectory, listing_congr (ha.entries (isDirectory_iff.mp hd).1)]
  exact ⟨hd, fun _ he => he⟩

end

end FS

end NaiveFS
