import NaiveFS.HandleSound
import NaiveFS.Outline

/-!
# Open files and the inode table

`OpManager` holds a copy of the inode of every open file and writes it back as a
whole. The copies are those of the inode table as long as the links of an open file
are not counted up behind their back.
-/

namespace NaiveFS

namespace FS

open Groups

variable {s s' : FS} {i j : Nat} {path : Path} {r : RetCode} {c : DentryCache}

/-! ## What a call leaves alone -/

/-- A namespace in order in which no inode is kept without links. -/
structure Tended (s : FS) : Prop where
  charted : s.Charted
  linked : ∀ i, s.groups.allocated .inode i = true → i ≠ rootInode → (s.inodes i).iLinksCount ≠ 0

structure Spared (s s' : FS) (j : Nat) : Prop where
  allocated : s'.groups.allocated .inode j = true
  record : s'.inodes j = s.inodes j

theorem Looked.next (h : s.Looked c) (path : Path) :
    ∃ c', (({ s with dcache := c } : FS).inodeLookup path).2 = { s with dcache := c' } ∧
      s.Looked c' := by
  obtain ⟨c', hc'⟩ := inodeLookup_frame path { s with dcache := c }
  refine ⟨c', hc', ?_⟩
  apply h.of_eq
  exact Prod.ext rfl hc'

theorem Charted.lookup_looked (h : s.Charted) (hc : s.Looked c) (path : Path) :
    (({ s with dcache := c } : FS).inodeLookup path).1 = (s.inodeLookup path).1 := by
  by_cases hv : path.valid = true
  · rw [((h.looked hc).lookup path hv).1, (h.lookup path hv).1, walk_cached]
  · simp [inodeLookup, hv]

namespace Tended

variable (h : s.Tended)
include h

theorem books : s.groups.Books := h.charted.order.books

theorem looked (hc : s.Looked c) : ({ s with dcache := c } : FS).Tended :=
  ⟨h.charted.looked hc, h.linked⟩


theorem created {mode : Nat} {result : Except RetCode Nat} (hlen : path.back.length ≤ 255)
    (hmode : isReg mode = true ∨ isDir mode = true) (hserved : s.groups.hasFree .inode = true)
    (hc : s.inodeCreate path mode = some (result, s')) (hle : s'.groups.groupCount ≤ 33) :
    s'.Tended ∧ (∀ j, s.groups.allocated .inode j = true → isDir (s.inodes j).iMode = false →
      Spared s s' j) ∧ ∀ i, result = .ok i → s.groups.allocated .inode i = false ∧
        s'.groups.allocated .inode i = true ∧ (s'.inodes i).iMode = u16 mode := by
  have hch := h.charted.created hlen hmode hserved hc hle
  have htidy := h.charted.order.tidy
  rcases inodeCreate_cases htidy.clean htidy.root hc hle with ⟨c, e, hlooked, rfl, rfl⟩ |
    ⟨parent, c, i, g, -, hpa, hpd, -, -, -, rfl, hout, -, hadd⟩
  · exact ⟨⟨hch, h.linked⟩, fun j hj _ => ⟨hj, rfl⟩, fun i hi => by cases hi⟩
  · have hnew : ∀ {j}, s.groups.allocated .inode j = true → j ≠ i := by
      rintro j hj rfl
      rw [hout.free] at hj
      cases hj
    refine ⟨⟨hch, fun j hj hr => ?_⟩, fun j hj hfile => ?_, fun j hj => ?_⟩
    · rcases hadd.links_newInode hout hserved hj with ⟨-, hl⟩ | ⟨-, ha, hl⟩
      · rw [hl]
        exact Nat.one_ne_zero
      · rw [hl]
        exact h.linked j ha hr
    · have hjp : j ≠ deref parent := by
        rintro rfl
        rw [hpd] at hfile
        cases hfile
      constructor
      · rw [hadd.allocated]
        simp [hout.after, hj]
      · rw [hadd.inodes j hjp]
        exact Function.update_of_ne (hnew hj) ..
    · cases hj
      refine ⟨hout.free, ?_, ?_⟩
      · rw [hadd.allocated]
        simp [hout.after]
      · rw [hadd.mode]
        simp [newInode_iMode]

theorem linkedTo {src dst : Path} (hlen : dst.back.length ≤ 255)
    (hroom : ∀ i, (s.inodeLookup src).1 = .ok i → s.refs (deref i) < 65535)
    (hl : s.inodeLink src dst = some (r, s')) (hle : s'.groups.groupCount ≤ 33) :
    s'.Tended ∧ ∀ j, s.groups.allocated .inode j = true → isDir (s.inodes j).iMode = false →
      (∀ i, (s.inodeLookup src).1 = .ok i → j ≠ i) → Spared s s' j := by
  have hch := h.charted.linked hlen hroom hl hle
  have htidy := h.charted.order.tidy
  rcases inodeLink_cases htidy.clean htidy.root hl hle with ⟨c, -, rfl, -⟩ |
    ⟨index, parent, c, c', t, hsrc, hreg, -, hpa, hpd, -, -, -, -, -, hadd, rfl⟩
  · exact ⟨⟨hch, h.linked⟩, fun j hj _ _ => ⟨hj, rfl⟩⟩
  · have hlook : (s.inodeLookup src).1 = .ok index := by rw [hsrc]
    have hia := (h.charted.found hlook).2.2
    have hindex := deref_allocated h.books hia
    have hback : ∀ {j}, t.groups.allocated .inode j = true →
      s.groups.allocated .inode j = true := by
      intro j hj
      rwa [hadd.allocated] at hj
    rw [hindex] at hch hreg ⊢
    refine ⟨⟨hch, fun j hj hr => ?_⟩, fun j hj hfile hji => ⟨?_, ?_⟩⟩
    · have hlinks : (t.inodes j).iLinksCount = (s.inodes j).iLinksCount := hadd.links j
      by_cases hji : j = index
      · subst hji
        have hlt := hroom j hlook
        rw [hindex, ← h.charted.order.counted j hia hr] at hlt
        rw [setLinks_self, hlinks, u16, Nat.mod_eq_of_lt (by omega)]
        exact Nat.succ_ne_zero _
      · rw [setLinks_ne _ _ _ hji, hlinks]
        exact h.linked j (hback hj) hr
    · change t.groups.allocated .inode j = true
      rw [hadd.allocated]
      exact hj
    · have hjp : j ≠ deref parent := by
        rintro rfl
        rw [hpd] at hfile
        cases hfile
      rw [setLinks]
      exact (Function.update_of_ne (hji index hlook) ..).trans (hadd.inodes j hjp)

theorem unlinked {fuel : Nat}
    (hempty : ∀ i, s.target path = some i → s.isDirectory i = true → s.listing i = [])
    (hu : s.inodeUnlink fuel path = some (r, s')) :
    s'.Tended ∧ ∀ j, s.groups.allocated .inode j = true → s.target path ≠ some j →
      Spared s s' j := by
  have hch := h.charted.unlinked hempty hu
  rcases h.charted.order.unlink_cases hempty hu with ⟨c, -, rfl, -⟩ | ⟨parent, c, i, -, -,
    htarget, hun⟩
  · exact ⟨⟨hch, h.linked⟩, fun j hj _ => ⟨hj, rfl⟩⟩
  · refine ⟨⟨hch, fun j hj hr => ?_⟩, fun j hj hji => ?_⟩
    · obtain ⟨hj, hkept⟩ := (hun.allocated j).mp hj
      have hpos := h.linked j hj hr
      rw [hun.inodes]
      by_cases hji : j = i
      · subst hji
        have hone : (s.inodes j).iLinksCount ≠ 1 := fun hone => hkept ⟨rfl, hone⟩
        rw [setLinks_self]
        omega
      · rwa [setLinks_ne _ _ _ hji]
    · have hne : j ≠ i := by
        rintro rfl
        exact hji htarget
      refine ⟨(hun.allocated j).mpr ⟨hj, fun hc => hne hc.1⟩, ?_⟩
      rw [hun.inodes, setLinks]
      exact Function.update_of_ne hne ..

theorem stamped (i : Nat) {ino : ListInode} (hm : ino.iMode = (s.inodes i).iMode)
    (hl : ino.iLinksCount = (s.inodes i).iLinksCount) (hb : ino.iBlock = (s.inodes i).iBlock) :
    ({ s with inodes := Function.update s.inodes i ino } : FS).Tended := by
  have hfield : ∀ {α : Type} (f : ListInode → α), f ino = f (s.inodes i) →
    ∀ j, f (Function.update s.inodes i ino j) = f (s.inodes j) := by
    intro α f hf j
    by_cases hji : j = i
    · subst hji
      rw [Function.update_self, hf]
    · rw [Function.update_of_ne hji]
  have hblocks := hfield (fun ino => ino.iBlock) hb
  have hclean := h.charted.order.tidy.clean
  have hlinks := hfield (fun ino => ino.iLinksCount) hl
  have hsame : Similar s { s with inodes := Function.update s.inodes i ino } := by
    refine ⟨fun j _ => congrArg fileType (hfield (fun ino => ino.iMode) hm j), fun j _ => hlinks j,
      fun j _ => hblocks j, rfl, fun _ => rfl, fun _ _ _ _ => rfl, hclean.books, ?_, fun j hj => ?_⟩
    · have hholds : ({ s with inodes := Function.update s.inodes i ino } : FS).Holds s.groups =
        s.Holds s.groups := by
        unfold Holds
        simp only [hblocks]
      rw [hholds]
      exact hclean.owned
    · rw [hblocks]
      exact hclean.nodup j hj
  refine ⟨hsame.charted h.charted, fun j hj hr => ?_⟩
  rw [hlinks]
  exact h.linked j hj hr

end Tended

theorem Tended.format : FS.format.Tended :=
  ⟨Charted.format, fun i hi hr => absurd ((format_allocated i).mp hi) hr⟩

end FS

namespace Mount

open FS Groups

variable {m m' : Mount} {fuel id mode : Nat} {c : InodeCache} {ctx : Context} {path : Path}
  {q : Int × Mount} {fs : FS}

/-! ## Copies -/

/-- The copies of `OpManager` are those of the inode table. -/
def Synced (m : Mount) : Prop :=
  ∀ id c, m.opm id = some c → m.fs.groups.allocated .inode id = true ∧ m.fs.inodes id = c.cache

/-- Everything is in order and only files are open. -/
structure Coherent (m : Mount) : Prop where
  accounts : Accounts none m
  tended : m.fs.Tended
  synced : m.Synced
  files : ∀ e ∈ m.handles, isDir (m.fs.inodes e.2.inode).iMode = false

theorem commit_same (hb : m.fs.groups.Books) (ha : m.fs.groups.allocated .inode id = true) :
    m.commit id (m.fs.inodes id) = m := by
  simp only [commit, getInode_of_allocated hb ha, Function.update_eq_self]

theorem commit_groups (id : Nat) (ino : ListInode) (m : Mount) :
    (m.commit id ino).fs.groups = m.fs.groups := by
  unfold commit
  cases m.fs.groups.getInode id <;> rfl

theorem relCache_groups (hrel : m.relCache id = some m') : m'.fs.groups = m.fs.groups := by
  unfold Mount.relCache at hrel
  split at hrel
  · cases hrel
    rfl
  · simp only at hrel
    split at hrel
    · obtain ⟨lists, -, rfl⟩ := Option.map_eq_some_iff.mp hrel
      exact commit_groups ..
    · cases hrel
      rfl

theorem getCache_frame (hget : m.getCache id = some (c, m')) :
    m'.fs = m.fs ∧ m'.handles = m.handles := by
  unfold Mount.getCache at hget
  split at hget
  · cases hget
    exact ⟨rfl, rfl⟩
  · split at hget
    · cases hget
    · cases hget
      exact ⟨rfl, rfl⟩

theorem addHandle_frame (hadd : m.addHandle id c = some m') :
    m'.fs = m.fs ∧ m'.opm = m.opm ∧ ∀ e ∈ m'.handles, e ∈ m.handles ∨ e.2.inode = id := by
  obtain ⟨lists, -, rfl⟩ := Option.map_eq_some_iff.mp hadd
  refine ⟨rfl, rfl, fun e he => ?_⟩
  rcases List.mem_cons.mp he with rfl | he
  · exact Or.inr rfl
  · exact Or.inl he

theorem Accounts.handle (h : Accounts none m) (hc : m.opm id = some c) :
    ∃ e ∈ m.handles, e.2.inode = id := by
  have hopen : m.openOn id ≠ [] := by
    rw [ne_eq, ← h.opm_none, hc]
    exact Option.some_ne_none c
  obtain ⟨fh, hfh⟩ := List.exists_mem_of_ne_nil _ hopen
  obtain ⟨e, he, -⟩ := List.mem_map.mp hfh
  obtain ⟨he, hid⟩ := List.mem_filter.mp he
  exact ⟨e, he, of_decide_eq_true hid⟩

theorem Accounts.entry (h : Accounts none m) {e : Nat × Handle} (he : e ∈ m.handles) :
    ∃ c, m.opm e.2.inode = some c := by
  apply Option.ne_none_iff_exists'.mp
  rw [ne_eq, h.opm_none]
  intro hnil
  have := (h.mem_openOn he e.2.inode).mpr rfl
  rw [hnil] at this
  cases this

section
variable (h : m.Synced) (hb : m.fs.groups.Books)
include h hb

theorem Synced.getCache (ha : m.fs.groups.allocated .inode id = true)
    (hget : m.getCache id = some (c, m')) :
    m'.Synced ∧ c.cache = m.fs.inodes id := by
  have hset : ∀ {d : InodeCache}, d.cache = m.fs.inodes id →
    ∀ j e, Function.update m.opm id (some d) j = some e →
      m.fs.groups.allocated .inode j = true ∧ m.fs.inodes j = e.cache := by
    intro d hd j e hj
    by_cases hji : j = id
    · subst hji
      rw [Function.update_self] at hj
      cases hj
      exact ⟨ha, hd.symm⟩
    · rw [Function.update_of_ne hji] at hj
      exact h j e hj
  unfold Mount.getCache at hget
  cases hid : m.opm id with
  | some d =>
    simp only [hid, Option.some.injEq, Prod.mk.injEq] at hget
    obtain ⟨rfl, rfl⟩ := hget
    have hd := (h id d hid).2.symm
    exact ⟨hset hd, hd⟩
  | none =>
    simp only [hid, getInode_of_allocated hb ha, Option.some.injEq, Prod.mk.injEq] at hget
    obtain ⟨rfl, rfl⟩ := hget
    exact ⟨hset rfl, rfl⟩

theorem Synced.relCache (hrel : m.relCache id = some m') :
    m'.fs = m.fs ∧ m'.handles = m.handles ∧ m'.Synced := by
  unfold Mount.relCache at hrel
  cases hid : m.opm id with
  | none =>
    simp only [hid, Option.some.injEq] at hrel
    subst hrel
    exact ⟨rfl, rfl, h⟩
  | some d =>
    obtain ⟨ha, hd⟩ := h id d hid
    have hsame : m.commit id d.cache = m := by
      rw [← hd]
      exact commit_same hb ha
    simp only [hid, hsame] at hrel
    split at hrel
    · obtain ⟨lists, -, rfl⟩ := Option.map_eq_some_iff.mp hrel
      refine ⟨rfl, rfl, fun j e hj => ?_⟩
      by_cases hji : j = id
      · subst hji
        simp at hj
      · simp only [Function.update_of_ne hji] at hj
        exact h j e hj
    · cases hrel
      refine ⟨rfl, rfl, fun j e hj => ?_⟩
      by_cases hji : j = id
      · subst hji
        simp only [Function.update_self, Option.some.injEq] at hj
        subst hj
        exact ⟨ha, hd⟩
      · simp only [Function.update_of_ne hji] at hj
        exact h j e hj

theorem Synced.updateCache (ha : m.fs.groups.allocated .inode id = true) (c : InodeCache)
    (f : ListInode → ListInode) :
    (m.updateCache id c f).fs = { m.fs with inodes := Function.update m.fs.inodes id (f c.cache) } ∧
      (m.updateCache id c f).handles = m.handles ∧ (m.updateCache id c f).Synced := by
  simp only [Mount.updateCache, commit, getInode_of_allocated hb ha, true_and]
  intro j e hj
  by_cases hji : j = id
  · subst hji
    simp only [Function.update_self, Option.some.injEq] at hj
    subst hj
    exact ⟨ha, by simp⟩
  · simp only [Function.update_of_ne hji] at hj ⊢
    exact h j e hj

end

/-! ## Operations -/

theorem runCalls_single (call : NameCall) (fs : FS) :
    runCalls fuel [call] fs = call.run fuel fs := by
  unfold runCalls
  split
  · rename_i hn
    rw [hn]
  · rename_i hs
    rw [hs]
    rfl
  · rename_i hr
    rw [hr]

theorem finish_single {call : NameCall} (hr : finish fuel m (.ok [call], fs) = some q) :
    ∃ r fs', call.run fuel fs = some (r, fs') ∧ q = (code2Errno r, { m with fs := fs' }) := by
  simp only [finish, runCalls_single] at hr
  obtain ⟨⟨r, fs'⟩, hrun, heq⟩ := Option.map_eq_some_iff.mp hr
  exact ⟨r, fs', hrun, heq.symm⟩

namespace Coherent

variable (h : m.Coherent)
include h

theorem allocated {e : Nat × Handle} (he : e ∈ m.handles) :
    m.fs.groups.allocated .inode e.2.inode = true := by
  obtain ⟨c, hc⟩ := h.accounts.entry he
  exact (h.synced _ c hc).1

theorem withFs (hs : fs.Tended) (hkeep : ∀ e ∈ m.handles, Spared m.fs fs e.2.inode) :
    Coherent { m with fs := fs } := by
  refine ⟨h.accounts.withFs fs, hs, fun j c hj => ?_, fun e he => ?_⟩
  · obtain ⟨e, he, rfl⟩ := h.accounts.handle hj
    exact ⟨(hkeep e he).allocated, (hkeep e he).record.trans (h.synced _ c hj).2⟩
  · change isDir (fs.inodes e.2.inode).iMode = false
    rw [(hkeep e he).record]
    exact h.files e he

theorem withLooked {c : DentryCache} (hc : m.fs.Looked c) :
    Coherent { m with fs := { m.fs with dcache := c } } :=
  h.withFs (h.tended.looked hc) fun _ he => ⟨h.allocated he, rfl⟩

theorem withLookup (path : Path) : Coherent { m with fs := (m.fs.inodeLookup path).2 } := by
  obtain ⟨c, hc, hlooked⟩ := (Looked.start (s := m.fs)).next path
  rw [hc]
  exact h.withLooked hlooked

theorem created {result : Except RetCode Nat} (hlen : path.back.length ≤ 255)
    (hmode : isReg mode = true ∨ isDir mode = true) (hserved : m.fs.groups.hasFree .inode = true)
    (hcr : m.fs.inodeCreate path mode = some (result, fs)) (hle : fs.groups.groupCount ≤ 33) :
    Coherent { m with fs := fs } := by
  obtain ⟨hs, hkeep, -⟩ := h.tended.created hlen hmode hserved hcr hle
  exact h.withFs hs fun e he => hkeep _ (h.allocated he) (h.files e he)

theorem fuseCreate (hfew : m.Few) (hlen : path.back.length ≤ 255) (hmode : isReg mode = true)
    (hserved : m.fs.groups.hasFree .inode = true) (hr : m.fuseCreate ctx path mode = some q)
    (hle : q.2.fs.groups.groupCount ≤ 33) : q.2.Coherent := by
  have hacc := h.accounts.fuseCreate hfew hr
  unfold Mount.fuseCreate at hr
  rcases hcr : m.fs.inodeCreate path mode with _ | ⟨e | id, fs⟩
  · simp [hcr] at hr
  · simp only [hcr, Option.some.injEq] at hr
    subst hr
    exact h.created hlen (Or.inl hmode) hserved hcr hle
  · simp only [hcr] at hr
    rcases hget : Mount.getCache id { m with fs := fs } with _ | ⟨c, m₁⟩
    · simp only [hget, Option.some.injEq] at hr
      subst hr
      exact h.created hlen (Or.inl hmode) hserved hcr hle
    · simp only [hget] at hr
      obtain ⟨m₂, hadd, rfl⟩ := Option.map_eq_some_iff.mp hr
      obtain ⟨hfs₁, hh₁⟩ := getCache_frame hget
      obtain ⟨hfs₂, hopm₂, hh₂⟩ := addHandle_frame hadd
      have hfs : m₂.fs = fs := hfs₂.trans hfs₁
      have hcount : fs.groups.groupCount ≤ 33 := by
        rw [Mount.updateCache, commit_groups] at hle
        rw [← hfs]
        exact hle
      obtain ⟨hs, -, hnew⟩ := h.tended.created hlen (Or.inl hmode) hserved hcr hcount
      obtain ⟨-, hia, himode⟩ := hnew id rfl
      have h₁ := h.created hlen (Or.inl hmode) hserved hcr hcount
      obtain ⟨hsync₁, hcache⟩ := h₁.synced.getCache hs.books hia hget
      have hsync₂ : m₂.Synced := by
        intro j d hj
        rw [hopm₂] at hj
        rw [hfs₂]
        exact hsync₁ j d hj
      obtain ⟨hfs₃, hh₃, hsync₃⟩ :=
        hsync₂.updateCache (by rw [hfs]; exact hs.books) (by rw [hfs]; exact hia) c (claim ctx mode)
      rw [hcache, hfs] at hfs₃
      refine ⟨hacc, ?_, hsync₃, fun e he => ?_⟩
      · rw [hfs₃]
        exact hs.stamped id himode.symm rfl rfl
      · rw [hfs₃]
        rw [hh₃] at he
        by_cases hei : e.2.inode = id
        · rw [hei]
          simp only [Function.update_self, claim]
          rw [isDir, fileType_u16]
          exact not_isDir_of_isReg hmode
        · simp only [Function.update_of_ne hei]
          have he := (hh₂ e he).resolve_right hei
          rw [hh₁] at he
          exact h₁.files e he

theorem fuseOpen (hfew : m.Few) {flags : Nat}
    (hfile : ∀ i, (m.fs.inodeLookup path).1 = .ok i → isDir (m.fs.inodes i).iMode = false)
    (hr : m.fuseOpen ctx path flags = some q) : q.2.Coherent := by
  have hacc := h.accounts.fuseOpen hfew hr
  have hlook := h.withLookup path
  unfold Mount.fuseOpen at hr
  obtain ⟨c₀, hc₀⟩ := inodeLookup_frame path m.fs
  rcases hl : m.fs.inodeLookup path with ⟨e | id, fs⟩
  · simp only [hl, Option.some.injEq] at hr hlook
    subst hr
    exact hlook
  · simp only [hl] at hr hlook hc₀
    split at hr
    · cases hr
      exact hlook
    · split at hr
      · cases hr
      · rename_i c m₁ hget
        obtain ⟨m₂, hadd, rfl⟩ := Option.map_eq_some_iff.mp hr
        obtain ⟨hfs₁, hh₁⟩ := getCache_frame hget
        obtain ⟨hfs₂, hopm₂, hh₂⟩ := addHandle_frame hadd
        have hfs : m₂.fs = fs := hfs₂.trans hfs₁
        have hia := (h.tended.charted.found (congrArg Prod.fst hl)).2.2
        obtain ⟨hsync₁, -⟩ := hlook.synced.getCache hlook.tended.books (by rw [hc₀]; exact hia) hget
        refine ⟨hacc, by rw [hfs]; exact hlook.tended, fun j d hj => ?_, fun e he => ?_⟩
        · rw [hopm₂] at hj
          rw [hfs₂]
          exact hsync₁ j d hj
        · rw [hfs]
          rcases hh₂ e he with he | rfl
          · rw [hh₁] at he
            exact hlook.files e he
          · rw [hc₀]
            exact hfile _ (congrArg Prod.fst hl)

theorem fuseRelease {fh : Nat} (hr : m.fuseRelease fh = some q) :
    q.2.Coherent ∧ q.2.fs = m.fs ∧ q.2.handles = m.handles.eraseP fun e => e.1 = fh := by
  have hacc := h.accounts.fuseRelease hr
  unfold Mount.fuseRelease at hr
  split at hr
  · rename_i hnone
    cases hr
    refine ⟨h, rfl, (List.eraseP_of_forall_not fun e he => ?_).symm⟩
    have hne : fh ≠ e.1 := bne_iff_ne.mp (List.lookup_eq_none_iff.mp hnone e he)
    simpa using hne.symm
  · split at hr
    · rename_i lists _ _
      obtain ⟨m', hrel, rfl⟩ := Option.map_eq_some_iff.mp hr
      have hdrop :
        Synced { m with handles := m.handles.eraseP fun e => e.1 = fh, lists := lists } := h.synced
      obtain ⟨hfs, hh, hsync⟩ := hdrop.relCache h.tended.books hrel
      refine ⟨⟨hacc, by rw [hfs]; exact h.tended, hsync, fun e he => ?_⟩, hfs, hh⟩
      rw [hh] at he
      rw [hfs]
      exact h.files e (List.mem_of_mem_eraseP he)
    · cases hr

theorem fuseFsync {fh : Nat} {datasync : Bool} (hr : m.fuseFsync fh datasync = some q) :
    q.2.Coherent := by
  unfold Mount.fuseFsync at hr
  split at hr
  · cases hr
    exact h
  · rename_i fd _
    split at hr
    · cases hr
      exact h
    · obtain ⟨c, hc, rfl⟩ := Option.map_eq_some_iff.mp hr
      obtain ⟨ha, hcache⟩ := h.synced fd.inode c (Option.filter_eq_some_iff.mp hc).1
      change (m.commit fd.inode c.cache).Coherent
      rw [← hcache, commit_same h.tended.books ha]
      exact h

theorem consult (ha : m.fs.groups.allocated .inode id = true) (hfew : m.Few) {m₁ : Mount}
    (hget : m.getCache id = some (c, m₁)) (hrel : m₁.relCache id = some m') :
    m'.Coherent ∧ m'.fs = m.fs ∧ m'.handles = m.handles := by
  obtain ⟨hfs₁, hh₁⟩ := getCache_frame hget
  obtain ⟨hsync₁, -⟩ := h.synced.getCache h.tended.books ha hget
  obtain ⟨hfs₂, hh₂, hsync₂⟩ := hsync₁.relCache (by rw [hfs₁]; exact h.tended.books) hrel
  have hfs : m'.fs = m.fs := hfs₂.trans hfs₁
  have hh : m'.handles = m.handles := hh₂.trans hh₁
  refine ⟨⟨(h.accounts.getCache (hfew.cells id) hget).1.relDone hrel, ?_, hsync₂, ?_⟩, hfs, hh⟩
  · rw [hfs]
    exact h.tended
  · rw [hfs, hh]
    exact h.files

theorem fuseGetattr (hfew : m.Few) {q : Int × Option Stat × Mount}
    (hr : m.fuseGetattr path = some q) : q.2.2.Coherent := by
  have hlook := h.withLookup path
  obtain ⟨c₀, hc₀⟩ := inodeLookup_frame path m.fs
  unfold Mount.fuseGetattr at hr
  rcases hl : m.fs.inodeLookup path with ⟨e | id, fs⟩
  · simp only [hl, Option.some.injEq] at hr hlook
    subst hr
    exact hlook
  · simp only [hl] at hr hlook hc₀
    have hia := (h.tended.charted.found (congrArg Prod.fst hl)).2.2
    split at hr
    · cases hr
      exact hlook
    · rename_i c m₁ hget
      obtain ⟨m₂, hrel, rfl⟩ := Option.map_eq_some_iff.mp hr
      exact (hlook.consult (by rw [hc₀]; exact hia) hfew hget hrel).1

theorem fuseLink {src dst : Path} (hlen : dst.back.length ≤ 255)
    (hroom : ∀ i, (m.fs.inodeLookup src).1 = .ok i → m.fs.refs (deref i) < 65535)
    (hclosed : ∀ i, (m.fs.inodeLookup src).1 = .ok i → m.opm i = none)
    (hr : m.fuseLink fuel src dst = some q) (hle : q.2.fs.groups.groupCount ≤ 33) :
    q.2.Coherent := by
  obtain ⟨r, fs, hrun, rfl⟩ := finish_single hr
  obtain ⟨hs, hkeep⟩ := h.tended.linkedTo hlen hroom hrun hle
  refine h.withFs hs fun e he => hkeep _ (h.allocated he) (h.files e he) fun i hi hei => ?_
  obtain ⟨c, hc⟩ := h.accounts.entry he
  rw [hei, hclosed i hi] at hc
  cases hc

theorem unlinked {r : RetCode} (hclosed : ∀ i, (m.fs.inodeLookup path).1 = .ok i → m.opm i = none)
    (hempty : ∀ i, (m.fs.inodeLookup path).1 = .ok i → m.fs.isDirectory i = true →
      m.fs.listing i = [])
    (hu : m.fs.inodeUnlink fuel path = some (r, fs)) : Coherent { m with fs := fs } := by
  have hfound : ∀ {i}, m.fs.target path = some i → (m.fs.inodeLookup path).1 = .ok i :=
    h.tended.charted.target_found
  obtain ⟨hs, hkeep⟩ := h.tended.unlinked (fun i hi => hempty i (hfound hi)) hu
  refine h.withFs hs fun e he => hkeep _ (h.allocated he) fun hei => ?_
  obtain ⟨c, hc⟩ := h.accounts.entry he
  rw [hclosed _ (hfound hei)] at hc
  cases hc

theorem lookup_again (path : Path) :
    ((m.fs.inodeLookup path).2.inodeLookup path).1 = (m.fs.inodeLookup path).1 := by
  obtain ⟨c, hc, hlooked⟩ := (Looked.start (s := m.fs)).next path
  rw [hc]
  exact h.tended.charted.lookup_looked hlooked path

theorem fuseUnlink (hfew : ∀ i, (m.openOn i).length + 1 < 2 ^ 32)
    (hfile : ∀ i, (m.fs.inodeLookup path).1 = .ok i → isDir (m.fs.inodes i).iMode = false)
    (hr : m.fuseUnlink fuel ctx path = some q) : q.2.Coherent := by
  have hlook := h.withLookup path
  have hfew' : m.Few := fun i => Nat.lt_of_succ_lt (hfew i)
  have hagain := h.lookup_again path
  obtain ⟨c₀, hc₀⟩ := inodeLookup_frame path m.fs
  unfold Mount.fuseUnlink at hr
  rcases hl : m.fs.inodeLookup path with ⟨e | id, fs⟩
  · simp only [hl, Option.some.injEq] at hr hlook
    subst hr
    exact hlook
  · simp only [hl] at hr hlook hc₀ hagain
    have hia := (h.tended.charted.found (congrArg Prod.fst hl)).2.2
    split at hr
    · cases hr
    · rename_i c m₁ hget
      split at hr
      · cases hr
      · rename_i m₂ hrel
        obtain ⟨h₂, hfs, hh⟩ := hlook.consult (by rw [hc₀]; exact hia) hfew' hget hrel
        split at hr
        · cases hr
          exact h₂
        · rename_i hcond
          obtain ⟨r, fs', hrun, rfl⟩ := finish_single hr
          have hfound : (m₂.fs.inodeLookup path).1 = .ok id := by
            rw [hfs]
            exact hagain
          refine h₂.unlinked (fun i hi => ?_) (fun i hi hd => ?_) hrun
          · -- the reference taken for the check was the only one
            cases hi.symm.trans hfound
            obtain ⟨h₁, hopm⟩ := hlook.accounts.getCache (hfew'.cells id) hget
            have hcnt := (h₁.busy hopm).2.2
            have hcells : m₁.cells id = m.cells id := by
              unfold cells
              rw [(getCache_frame hget).2]
            have hlen : (m.cells id).length + 1 < 2 ^ 32 := by
              rw [cells_length]
              exact hfew id
            rw [users_held, hcells, u32_of_lt hlen] at hcnt
            have hone : c.cnts < 2 := by
              by_contra hge
              simp [Nat.le_of_not_lt hge] at hcond
            rw [h₂.accounts.opm_none, openOn, hh, ← List.length_eq_zero_iff]
            change (m.openOn id).length = 0
            rw [← cells_length]
            omega
          · cases hi.symm.trans hfound
            have hdir := (isDirectory_iff.mp hd).2
            rw [hfs] at hdir
            change isDir (fs.inodes id).iMode = true at hdir
            rw [hc₀] at hdir
            rw [hfile id (congrArg Prod.fst hl)] at hdir
            cases hdir

theorem fuseMkdir (hfew : m.Few) (hlen : path.back.length ≤ 255)
    (hmode : isDir (mode ||| sIfdir) = true) (hserved : m.fs.groups.hasFree .inode = true)
    (hr : m.fuseMkdir ctx path mode = some q) (hle : q.2.fs.groups.groupCount ≤ 33) :
    q.2.Coherent := by
  have hacc := h.accounts.fuseMkdir hfew hr
  unfold Mount.fuseMkdir at hr
  simp only at hr
  generalize mode ||| sIfdir = mode at hmode hr
  rcases hcr : m.fs.inodeCreate path mode with _ | ⟨e | id, fs⟩
  · simp [hcr] at hr
  · simp only [hcr, Option.some.injEq] at hr
    subst hr
    exact h.created hlen (Or.inr hmode) hserved hcr hle
  · simp only [hcr] at hr
    split at hr
    · cases hr
      exact h.created hlen (Or.inr hmode) hserved hcr hle
    · split at hr
      · cases hr
        exact h.created hlen (Or.inr hmode) hserved hcr hle
      · rename_i c m₁ hget
        obtain ⟨m₂, hrel, rfl⟩ := Option.map_eq_some_iff.mp hr
        obtain ⟨hfs₁, hh₁⟩ := getCache_frame hget
        have hcount : fs.groups.groupCount ≤ 33 := by
          have hgroups := relCache_groups hrel
          rw [Mount.updateCache, commit_groups] at hgroups
          rw [hgroups] at hle
          rw [hfs₁] at hle
          exact hle
        obtain ⟨hs, -, hnew⟩ := h.tended.created hlen (Or.inr hmode) hserved hcr hcount
        obtain ⟨hfresh, hia, himode⟩ := hnew id rfl
        have h₁ := h.created hlen (Or.inr hmode) hserved hcr hcount
        obtain ⟨hsync₁, hcache⟩ := h₁.synced.getCache hs.books hia hget
        obtain ⟨hfs₂, hh₂, hsync₂⟩ :=
          hsync₁.updateCache (by rw [hfs₁]; exact hs.books) (by rw [hfs₁]; exact hia) c
          (claim ctx mode)
        rw [hcache, hfs₁] at hfs₂
        obtain ⟨hfs₃, hh₃, hsync₃⟩ := hsync₂.relCache (by rw [hfs₂]; exact hs.books) hrel
        refine ⟨hacc, ?_, hsync₃, fun e he => ?_⟩
        · rw [hfs₃, hfs₂]
          exact hs.stamped id himode.symm rfl rfl
        · rw [hh₃, hh₂, hh₁] at he
          have hne : e.2.inode ≠ id := by
            intro hc
            rw [← hc, h.allocated he] at hfresh
            cases hfresh
          rw [hfs₃, hfs₂]
          simp only [Function.update_of_ne hne]
          exact h₁.files e he

theorem fuseRmdir (hr : m.fuseRmdir fuel ctx path = some q) : q.2.Coherent := by
  obtain ⟨c, hc, hlooked⟩ := (Looked.start (s := m.fs)).next path
  have hlook := h.withLooked hlooked
  unfold Mount.fuseRmdir rmdirCalls at hr
  rcases hl : m.fs.inodeLookup path with ⟨e | id, fs⟩
  · simp only [hl, finish, Option.some.injEq] at hr hc
    rw [← hr, hc]
    exact hlook
  · simp only [hl] at hr hc
    subst hc
    obtain ⟨-, -, hia⟩ := h.tended.charted.found (congrArg Prod.fst hl)
    rw [deref_allocated h.tended.books hia] at hr
    have hfound := h.tended.charted.lookup_looked hlooked path
    rw [hl] at hfound
    split at hr
    · cases hr
      exact hlook
    · rename_i hdir
      split at hr
      · cases hr
        exact hlook
      · split at hr
        · cases hr
          exact hlook
        · rename_i hlive
          obtain ⟨r, fs', hrun, rfl⟩ := finish_single hr
          refine hlook.unlinked (fun i hi => ?_) (fun i hi hd => ?_) hrun
          · cases hi.symm.trans hfound
            cases hopm : m.opm id with
            | none => rfl
            | some c =>
              obtain ⟨e, he, rfl⟩ := h.accounts.handle hopm
              simp [h.files e he] at hdir
          · cases hi.symm.trans hfound
            unfold listing
            simpa using hlive

end Coherent

theorem Coherent.format : Mount.format.Coherent :=
  ⟨Accounts.format, Tended.format, fun _ _ hj => (by cases hj), fun _ he => (by cases he)⟩

/-! ## Link counts -/

/-- Link counts are the numbers of names, and an inode is allocated exactly while it
has one. -/
structure LinksCounted (m : Mount) : Prop where
  count : ∀ i, m.fs.groups.allocated .inode i = true → isReg (m.fs.inodes i).iMode = true →
    (m.fs.inodes i).iLinksCount = m.fs.refs i
  freed : ∀ i, i ≠ rootInode → (m.fs.groups.allocated .inode i = true ↔ 0 < m.fs.refs i)
  named : ∀ d, ∀ e ∈ m.fs.dirEntries d, e.live = true → m.fs.groups.allocated .inode e.inode = true

/-- The operations on regular files: an existing group has an inode for a new file,
and an inode has fewer than 65535 links when it gets another one. -/
def OnFiles (m : Mount) : FuseOp → Prop
  | .create _ _ mode => isReg mode = true ∧ m.fs.groups.hasFree .inode = true
  | .open _ path _ => ∀ i, (m.fs.inodeLookup path).1 = .ok i → isReg (m.fs.inodes i).iMode = true
  | .unlink _ path => ∀ i, (m.fs.inodeLookup path).1 = .ok i → isReg (m.fs.inodes i).iMode = true
  | .link src _ => ∀ i, (m.fs.inodeLookup src).1 = .ok i → m.fs.refs i < 65535
  | .release _ => True
  | .fsync _ _ => True
  | .getattr _ => True
  | _ => False

/-- A new name has at most 255 bytes, and the file it is linked to is not open. -/
def Discreet (m : Mount) : FuseOp → Prop
  | .create _ path _ => path.back.length ≤ 255
  | .link src dst => dst.back.length ≤ 255 ∧ ∀ i, (m.fs.inodeLookup src).1 = .ok i → m.openOn i = []
  | _ => True

/-- The operation leaves block groups that can be counted and blocks that can be cached. -/
def ModestAfter (fuel : Nat) (m : Mount) (op : FuseOp) : Prop :=
  Runs.Leaves (step fuel) (fun m => m.fs.Modest) m op

/-- The operation is discreet, and the users of an inode can be counted too. -/
def DiscreetStep (fuel : Nat) (m : Mount) (op : FuseOp) : Prop :=
  m.Discreet op ∧ (∀ i, (m.openOn i).length + 1 < 2 ^ 32) ∧ ModestAfter fuel m op

theorem Coherent.linksCounted (h : m.Coherent) : m.LinksCounted := by
  have hord := h.tended.charted.order
  have hcount : ∀ i, m.fs.groups.allocated .inode i = true → i ≠ rootInode →
    (m.fs.inodes i).iLinksCount = m.fs.refs i := hord.counted
  refine ⟨fun i hi hreg => hcount i hi ?_, fun i hr => ⟨fun hi => ?_, fun hpos => ?_⟩,
    fun d e he hl => ?_⟩
  · rintro rfl
    have := (isDirectory_iff.mp hord.linked.graph.root).2
    rw [not_isDir_of_isReg hreg] at this
    cases this
  · apply Nat.pos_of_ne_zero
    rw [← hcount i hi hr]
    exact h.tended.linked i hi hr
  · by_contra hno
    have hzero : m.fs.refs i = 0 := by
      apply refs_eq_zero
      rintro d e he hl rfl
      exact hno (hord.linked.graph.named d e he hl).1
    omega
  · exact (hord.linked.graph.named d e he hl).1

theorem Coherent.step (h : m.Coherent) {op : FuseOp} (hop : m.OnFiles op ∧ DiscreetStep fuel m op)
    (hs : m.step fuel op = some m') : m'.Coherent := by
  obtain ⟨hon, hdis, hfew, hgroups⟩ := hop
  have hle := (hgroups m' hs).groups
  have hfew' : m.Few := fun i => Nat.lt_of_succ_lt (hfew i)
  obtain ⟨q, hq, rfl⟩ := Option.map_eq_some_iff.mp hs
  cases op with
  | create ctx path mode => exact h.fuseCreate hfew' hdis hon.1 hon.2 hq hle
  | «open» ctx path flags => exact h.fuseOpen hfew' (fun i hi => not_isDir_of_isReg (hon i hi)) hq
  | release fh => exact (h.fuseRelease hq).1
  | fsync fh datasync => exact h.fuseFsync hq
  | getattr path =>
    obtain ⟨p, hp, rfl⟩ := Option.map_eq_some_iff.mp hq
    exact h.fuseGetattr hfew' hp
  | link src dst =>
    refine h.fuseLink hdis.1 (fun i hi => ?_) (fun i hi => ?_) hq hle
    · rw [deref_allocated h.tended.books (h.tended.charted.found hi).2.2]
      exact hon i hi
    · exact (h.accounts.opm_none i).mpr (hdis.2 i hi)
  | unlink ctx path => exact h.fuseUnlink hfew (fun i hi => not_isDir_of_isReg (hon i hi)) hq
  | _ => cases hon

/-- In every discreet run of operations on regular files, link counts are the numbers
of names. -/
theorem links_counted_of_discreet (fuel : Nat) (ops : List FuseOp)
    (h : Runs.Guarded (step fuel) (fun m op => m.OnFiles op ∧
      DiscreetStep fuel m op) ops Mount.format) :
    Runs.Along (step fuel) (fun m => m.LinksCounted ∧ m.fs.Served) ops Mount.format :=
  Runs.along_of_guarded
    (fun m (hm : m.Coherent ∧ m.fs.Cacheable) => ⟨hm.1.linksCounted,
      hm.2.served hm.1.tended.charted.order.tidy.clean⟩)
    (fun _ _ _ hm hop hs => ⟨hm.1.step hop hs, (hop.2.2.2 _ hs).blocks⟩) ops
      _ ⟨Coherent.format, by decide⟩ h

theorem links_counted_of_discreet_links :
    Runs.Along (step 1) (fun m => m.LinksCounted ∧ m.fs.Served)
    [.create ⟨0, 0⟩ (.of [[102]]) 0x81a4, .release 1,
      .link (.of [[102]]) (.of [[103]])] Mount.format := by
  have hrun : (Mount.format.step 1 (.create ⟨0, 0⟩ (.of [[102]]) 0x81a4)).all fun m₁ =>
      m₁.fs.Modest ∧ m₁.handles.length = 1 ∧ (m₁.step 1 (.release 1)).all fun m₂ =>
        m₂.fs.Modest ∧ m₂.handles = [] ∧ (m₂.fs.inodeLookup (.of [[102]])).1.toOption = some 1 ∧
          (m₂.fs.inodes 1).iLinksCount = 1 ∧
          (m₂.step 1 (.link (.of [[102]]) (.of [[103]]))).all fun m₃ =>
            m₃.fs.Modest := by decide +kernel
  have hfew : ∀ {m : Mount}, m.handles.length < 2 → ∀ i, (m.openOn i).length + 1 < 2 ^ 32 := by
    intro m hm i
    have hle := List.length_filter_le (fun e : Nat × Handle => e.2.inode = i) m.handles
    rw [openOn, List.length_map]
    omega
  apply links_counted_of_discreet
  intro m₁ hs₁
  rw [hs₁, Option.all_some] at hrun
  obtain ⟨hg₁, hh₁, hrun⟩ := of_decide_eq_true hrun
  have hop₁ : Mount.format.OnFiles (.create ⟨0, 0⟩ (.of [[102]]) 0x81a4) ∧
      DiscreetStep 1 Mount.format (.create ⟨0, 0⟩ (.of [[102]]) 0x81a4) := by
    refine ⟨⟨by decide, by decide⟩, show 1 ≤ 255 by decide, hfew (by decide), fun m hm => ?_⟩
    cases hs₁.symm.trans hm
    exact hg₁
  have h₁ := Coherent.format.step hop₁ hs₁
  refine ⟨hop₁, fun m₂ hs₂ => ?_⟩
  rw [hs₂, Option.all_some] at hrun
  obtain ⟨hg₂, hh₂, hlook, hlinks, hrun⟩ := of_decide_eq_true hrun
  have hop₂ : m₁.OnFiles (.release 1) ∧ DiscreetStep 1 m₁ (.release 1) := by
    refine ⟨trivial, trivial, hfew (by rw [hh₁]; decide), fun m hm => ?_⟩
    cases hs₂.symm.trans hm
    exact hg₂
  have h₂ := h₁.step hop₂ hs₂
  refine ⟨hop₂, fun m₃ hs₃ => ⟨⟨fun i hi => ?_, ⟨by decide, fun i _ => ?_⟩,
    hfew (by rw [hh₂]; decide), fun m hm => ?_⟩, trivial⟩⟩
  · rw [hi] at hlook
    cases hlook
    have hord := h₂.tended.charted.order
    rw [← hord.counted 1 (h₂.tended.charted.found hi).2.2 (by decide), hlinks]
    decide
  · rw [openOn, hh₂]
    rfl
  · rw [hm, Option.all_some] at hrun
    exact of_decide_eq_true hrun

/-- A file gets a second name while it is open. When it is closed, the copy with the
old link count is written back; the file then goes with the first of its names. -/
theorem release_loses_link : ∃ m m', Runs.run (step 1)
    [.create ⟨0, 0⟩ (.of [[102]]) 0x81a4, .link (.of [[102]]) (.of [[103]]),
      .release 1] Mount.format = some m ∧ m.fs.groups.allocated .inode 1 = true ∧
      isReg (m.fs.inodes 1).iMode = true ∧ (m.fs.inodes 1).iLinksCount = 1 ∧ 2 ≤ m.fs.refs 1 ∧
      m.step 1 (.unlink ⟨0, 0⟩ (.of [[102]])) = some m' ∧
      ∃ e ∈ m'.fs.dirEntries rootInode, e.live = true ∧ e.inode = 1 ∧
      m'.fs.groups.allocated .inode 1 = false := by
  have hrun : (Runs.run (step 1) [.create ⟨0, 0⟩ (.of [[102]]) 0x81a4,
    .link (.of [[102]]) (.of [[103]]), .release 1]
      Mount.format).any fun m => m.fs.groups.allocated .inode 1 ∧
      isReg (m.fs.inodes 1).iMode = true ∧
        (m.fs.inodes 1).iLinksCount = 1 ∧ Dentry.naming 1 (m.fs.dirEntries rootInode) = 2 ∧
        (m.step 1 (.unlink ⟨0, 0⟩ (.of [[102]]))).any fun m' =>
          ((m'.fs.dirEntries rootInode).any fun e => e.live ∧ e.inode = 1) ∧
            m'.fs.groups.allocated .inode 1 = false := by
    decide +kernel
  obtain ⟨m, hm, hfacts⟩ := (Option.any_eq_true _ _).mp hrun
  obtain ⟨ha, hreg, hlinks, hnaming, hun⟩ := of_decide_eq_true hfacts
  obtain ⟨m', hm', hfacts'⟩ := (Option.any_eq_true _ _).mp hun
  obtain ⟨hentry, hfree⟩ := of_decide_eq_true hfacts'
  obtain ⟨e, he, hlive⟩ := List.any_eq_true.mp hentry
  obtain ⟨hl, hei⟩ := of_decide_eq_true hlive
  refine ⟨m, m', hm, ha, hreg, hlinks, ?_, hm', e, he, hl, hei, hfree⟩
  rw [← hnaming]
  exact Finset.single_le_sum (f := fun d => Dentry.naming 1 (m.fs.dirEntries d))
    (fun _ _ => Nat.zero_le _)
    (Finset.mem_range.mpr (by unfold inodeLimit; decide))

end Mount

end NaiveFS
