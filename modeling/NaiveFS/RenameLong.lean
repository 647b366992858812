import NaiveFS.LongDirectory
import NaiveFS.RenameSound

/-!
# Renaming in a long directory

When the root directory has 2060 full blocks, `/z` is renamed to `/x`: the entry of the
new name is the first of block 2061, and the next lookup of `/z` reads from freed memory
instead of finding nothing.
-/

namespace NaiveFS

namespace FS

open Groups

variable {s s' t : FS} {c : UInt8} {i j k : Nat}

/-! ## Files of the root directory -/

theorem Charted.lookup_file (h : s.Charted) (hin : ([c], i) ∈ s.listing rootInode) :
    ∃ d, s.inodeLookup (file c) = (.ok i, { s with dcache := d }) ∧
      ({ s with dcache := d } : FS).Charted := by
  have hord := h.order
  obtain ⟨d, hd⟩ := inodeLookup_frame (file c) s
  obtain ⟨hwalk, hcharted⟩ := h.lookup (file c) (file c).2.1
  rw [hd] at hcharted
  have hfound : s.walk rootInode [[c]] = .ok i :=
    (hord.walk_cons_ok hord.tidy.root (List.cons_ne_nil c [])).mpr ⟨i, hin, rfl⟩
  exact ⟨d, Prod.ext (hwalk.trans hfound) hd, hcharted⟩

theorem Charted.lookup_no_file (h : s.Charted) (hnot : [c] ∉ s.listed rootInode) :
    ∃ d, s.inodeLookup (file c) = (.error .notFound, { s with dcache := d }) ∧
      ({ s with dcache := d } : FS).Charted := by
  have hord := h.order
  obtain ⟨d, hd⟩ := inodeLookup_frame (file c) s
  obtain ⟨hwalk, hcharted⟩ := h.lookup (file c) (file c).2.1
  rw [hd] at hcharted
  have hsearch : s.search rootInode [c] = none := by
    rw [Option.eq_none_iff_forall_ne_some]
    intro i hi
    exact hnot (List.mem_map_of_mem ((hord.search_iff hord.tidy.root (List.cons_ne_nil c [])).mp
      hi))
  have hgone : s.walk rootInode [[c]] = .error .notFound := by
    rw [walk, deref_allocated hord.books hord.tidy.root, hsearch]
    rfl
  exact ⟨d, Prod.ext (hwalk.trans hgone) hd, hcharted⟩

/-! ## The calls of the rename -/

theorem inodeLink_file {a : UInt8} {u : FS} (hl : s.inodeLookup (file a) = (.ok k, u))
    (hdir : isDir (u.inodes rootInode).iMode = true) (hk : deref k = k)
    (hfile : isDir (u.inodes k).iMode = false)
    (hnew : ∀ e ∈ u.entries rootInode, e.hasName [c] = false)
    (hd : u.dentryCreate (u.inodes rootInode).iBlock.getLast? rootInode [c] k (u.inodes k).iMode =
      some (.success, t)) :
    s.inodeLink (file a) (file c) = some (.success,
      t.setLinks k (u16 ((t.inodes k).iLinksCount + 1))) := by
  have hscan := inodeLookupIn_new hnew
  have hroot : deref rootInode = rootInode := rfl
  have hback : (file c).1.back = [c] := rfl
  have hvalid : ∀ c, (file c).1.valid = true := fun c => (file c).2.1
  have hnames : ∀ c, (file c).1.names.isEmpty = false := fun _ => rfl
  unfold inodeLink Calls.inodeLink
  simp only [hvalid, hnames, hl, hk, hfile, file_parent, hroot, hback, hdir, hscan, hd,
    Bool.not_true, Bool.or_self, Bool.false_eq_true, if_false]

/-- One of two names goes. -/
theorem Orderly.unlink_linked (h : s.Orderly) (hin : ([c], k) ∈ s.listing rootInode)
    (hlinks : (s.inodes k).iLinksCount = 2) :
    ∃ s', s.inodeUnlink 1 (file c) = some (.success, s') ∧ (s'.inodes rootInode).iBlock =
      (s.inodes rootInode).iBlock := by
  have hdir := (isDirectory_iff.mp h.linked.graph.root).2
  have hget := getInode_of_allocated h.books (h.of_listing h.tidy.root hin).2.1
  have htarget := target_eq (file_parent c) hdir (List.cons_ne_nil _ _)
  have hvalid : (file c).1.valid = true := (file c).2.1
  have hnames : (file c).1.names.isEmpty = false := rfl
  have hroot : deref rootInode = rootInode := rfl
  rw [hroot] at htarget
  rcases hst : s.visitInodeBlocks rootInode (killVisitor (file c).1.back) (s.dents,
    none) with ⟨dents, _ | j⟩
  · -- the name is there
    obtain ⟨e, he, hn, -⟩ := (h.tidy.mem_listing_iff h.tidy.root (List.cons_ne_nil c [])).mp hin
    obtain ⟨b, hb, he⟩ := List.mem_flatMap.mp he
    have hno : e.hasName [c] = false := killVisitor_none (congrArg Prod.snd hst) b hb e he
    rw [hn] at hno
    cases hno
  · rw [hst] at htarget
    cases h.listing_unique h.tidy.root hin (h.target_file htarget)
    refine ⟨{ s with
      dents := dents
      dcache := s.dcache.drop (file c).1.parent.names (file c).1.back }.setLinks k 1, ?_,
      setLinks_iBlock ..⟩
    unfold inodeUnlink killName
    simp only [hvalid, hnames, file_parent, hroot, hdir, hst, dropLink, hget, hlinks, Bool.not_true,
      Bool.false_eq_true, if_false]
    rw [show u16 (2 + 65535) = 1 by decide, if_neg Nat.one_ne_zero]

theorem Level.recached {n k : Nat} {L : List (Name × Nat)} {d : DentryCache} (h : Level n k L s)
    (hd : ({ s with dcache := d } : FS).Charted) : Level n k L { s with dcache := d } :=
  ⟨{ h.brim with charted := hd }, h.listing, h.absent⟩

/-- When the 2060 blocks of the directory are full, `/z` is linked to `/x` and removed. -/
theorem Level.relink (h : Level 2060 455 [([122], k)] s) (hreg : isReg (s.inodes k).iMode = true)
    (hone : (s.inodes k).iLinksCount = 1) :
    ∃ t s', s.inodeLink (file 122) (file 120) = some (.success, t) ∧
      t.inodeUnlink 1 (file 122) = some (.success, s') ∧ s'.Charted ∧
      (s'.inodes rootInode).iBlock.length = 2061 ∧ [122] ∉ s'.listed rootInode := by
  have hs := h.brim.charted
  have hin : ([122], k) ∈ s.listing rootInode := by
    rw [h.listing]
    exact List.mem_cons_self
  obtain ⟨d, hl, hd⟩ := hs.lookup_file hin
  replace h := h.recached hd
  have hord := hd.order
  obtain ⟨-, hka, hkr⟩ := hord.of_listing hord.tidy.root hin
  have hnew : ∀ e ∈ ({ s with dcache := d } : FS).entries rootInode, e.hasName [120] = false := by
    apply h.brim.entries_new
    rw [listed, h.listing]
    exact h.absent
  -- the new entry goes to a new block
  have hstock := allocBlock_stock (i := rootInode) h.brim.stock h.brim.blocks
    (by rw [treeBlocks_2061]; decide)
  obtain ⟨b, g, ha, -⟩ := allocBlock_spec rootInode hord.books hstock.books.le
  rw [ha] at hstock
  have hfull : ∀ b, (s.inodes rootInode).iBlock.getLast? = some b →
      blockSize < ({ s with dcache := d } : FS).blockBytes b + dentrySize +
      [(120 : UInt8)].length := by
    intro b hb
    have := h.brim.last b hb
    change 4096 < ({ s with dcache := d } : FS).blockBytes b + 8 + 1
    omega
  have hlink := inodeLink_file hl h.brim.dir (deref_allocated hord.books hka)
    (not_isDir_of_isReg hreg) hnew
    (dentryCreate_new hfull (show 8 + 1 ≤ 4096 by decide) ha)
  simp only [Function.update_of_ne hkr, hone] at hlink
  generalize ht : setLinks k _ _ = t at hlink
  have hle : t.groups.groupCount ≤ 33 := by
    rw [← ht]
    exact hstock.books.le
  have hlen : (t.inodes rootInode).iBlock.length = 2061 := by
    have := h.brim.length
    rw [← ht, setLinks_iBlock]
    simp [this]
  have hlinks : (t.inodes k).iLinksCount = 2 := by
    rw [← ht, setLinks_self]
    rfl
  have hs' : t.Charted := by
    refine hs.linked (Path.back_short _) (fun i hi => ?_) hlink hle
    rw [hl] at hi
    cases hi
    rw [deref_allocated hord.books hka, ← hs.order.counted k hka hkr, hone]
    decide
  have hin' : ([122], k) ∈ t.listing rootInode := by
    obtain ⟨p, hp, -, -, hlisting, -⟩ :=
      (hs.order.tidy.linked (Path.back_short _) hlink hle).2.added k (by rw [if_pos rfl, hl])
    rw [hl, file_parent] at hp
    cases hp
    rw [show t.listing rootInode = _ from hlisting]
    exact List.mem_append_left _ hin
  obtain ⟨s', hun, hblocks⟩ := hs'.order.unlink_linked hin' hlinks
  refine ⟨t, s', hlink, hun, hs'.unlinked (hs'.order.target_empty hin' ?_)
    hun, by rw [hblocks, hlen], fun hgone => ?_⟩
  · rw [← ht, setLinks_iMode]
    simpa [Function.update_of_ne hkr] using hreg
  · have hremoved := (hs'.order.tidy.unlinked hun).2.removed rootInode (by rw [file_parent])
      hs'.order.linked.graph.root
    rw [listed, show s'.listing rootInode = _ from hremoved] at hgone
    simp [file, Path.of, Path.back] at hgone

/-- The directory with 2060 full blocks and `/z` in the first of them. -/
theorem exists_full :
    ∃ k s, Runs.Leads (dirStep 1) OrdinaryCall FS.format s ∧ Level 2060 455 [([122], k)] s ∧
    isReg (s.inodes k).iMode = true ∧ (s.inodes k).iLinksCount = 1 := by
  obtain ⟨k, b, s₁, hc, hmade, hbrim, -⟩ :=
    Level.format.brim.create_new (c := 122) (show 0 + 1 ≤ 3 by decide)
    (by rw [listed, format_listing]; exact List.not_mem_nil) rfl
      (by rw [treeBlocks_succ, treeBlocks_zero]; decide)
  have h₁ : Level 1 1 [([122], k)] s₁ := by
    refine ⟨hbrim, ?_, by simp⟩
    rw [hmade.listing, format_listing]
    rfl
  have hfirst := Level.format.brim.leads_create (show 0 + 1 ≤ 3 by decide) hc
  obtain ⟨s, hgrown, hs⟩ := h₁.advance (show 1 ≤ 2 by decide) 2059 treeBlocks_2060
  obtain ⟨-, hrec⟩ := hgrown.files ([122], k) (by rw [h₁.listing]; exact List.mem_cons_self)
  have hrecord := hmade.record
  rw [show s₁.inodes k = s.inodes k from hrec.symm] at hrecord
  exact ⟨k, s, hfirst.trans hgrown.leads, hs, hrecord⟩

end FS

namespace Mount

open FS Groups

variable {s : FS} {c : UInt8}

/-! ## The rename -/

theorem renameCalls_full {k : Nat} (h : Level 2060 455 [([122], k)] s) : ∃ d,
    renameCalls ⟨0, 0⟩ (file 122) (file 120) 0 s =
      (.ok [.link (file 122) (file 120), .unlink (file 122)], { s with dcache := d }) ∧
      ({ s with dcache := d } : FS).Charted := by
  have hin : ([122], k) ∈ s.listing rootInode := by
    rw [h.listing]
    exact List.mem_cons_self
  obtain ⟨d, hz, hd⟩ := h.brim.charted.lookup_file hin
  obtain ⟨d', hx, hd'⟩ :=
    hd.lookup_no_file (c := 120) (by rw [listed, (h.recached hd).listing]; exact h.absent)
  refine ⟨d', ?_, hd'⟩
  simp [renameCalls, renameExchange, renameNoreplace, replaceCalls, renameLookup, hz, hx,
    checkPermission]

/-- A name that is not listed is looked for in all 2061 blocks. -/
theorem lookupFreed_of_gone (h : s.Charted) (hlen : (s.inodes rootInode).iBlock.length = 2061)
    (hnot : [c] ∉ s.listed rootInode) :
    s.LookupFreed (file c) := by
  have hord := h.order
  have hnone : s.dcache [[c]] = none := by
    cases hd : s.dcache [[c]] with
    | none => rfl
    | some i =>
      obtain ⟨-, hw⟩ := h.cache _ _ hd
      obtain ⟨k, hk, -⟩ := (hord.walk_cons_ok hord.tidy.root (List.cons_ne_nil c [])).mp hw
      exact absurd (List.mem_map_of_mem hk) hnot
  refine ⟨rootInode,
    [c], by simp [accesses, accessesFrom, file, Path.of, DentryCache.lookup, hnone], ?_⟩
  refine readsFreed hord.tidy.clean hord.tidy.root (hlen ▸ by decide) (hlen ▸ by decide)
    (fun k b a _ hb => ?_) none
  have hno : (s.dents b).find? (Dentry.hasName [c]) = none := by
    rw [List.find?_eq_none]
    intro e he hn
    refine hnot ((hord.tidy.mem_listed_iff hord.tidy.root (List.cons_ne_nil c [])).mpr ⟨e, ?_, hn⟩)
    exact List.mem_flatMap.mpr ⟨b, List.mem_of_getElem? hb, he⟩
  simp [searchVisitor, hno]

/-- In the directory with 2060 full blocks the rename of `/z` to `/x` returns 0, and the
next lookup of `/z` reads from freed memory. -/
theorem lookup_freed_after_rename :
    ∃ ops s m', Runs.run (dirStep 1) ops FS.format = some s ∧
      Runs.Guarded (dirStep 1) OrdinaryCall ops FS.format ∧
      (idle s).Quiet (.rename ⟨0, 0⟩ (file 122) (file 120) 0) ∧
      (idle s).fuseRename 1 ⟨0, 0⟩ (file 122) (file 120) 0 = some (0, m') ∧
      m'.fs.LookupFreed (file 122) := by
  obtain ⟨k, s, ⟨ops, hrun, hguard⟩, hlevel, hreg, hone⟩ := exists_full
  have hch := hlevel.brim.charted
  have hz : ([122], k) ∈ s.listing rootInode := by
    rw [hlevel.listing]
    exact List.mem_cons_self
  obtain ⟨d, hcalls, hcharted⟩ := renameCalls_full hlevel
  obtain ⟨t, s', hlink, hunlink, hs', hlen, hgone⟩ := (hlevel.recached hcharted).relink hreg hone
  obtain ⟨_, hlz, -⟩ := hch.lookup_file hz
  obtain ⟨_, hlx, -⟩ :=
    hch.lookup_no_file (c := 120) (by rw [listed, hlevel.listing]; exact hlevel.absent)
  refine ⟨ops, s, { idle s with fs := s' }, hrun, hguard, ?_, ?_,
    lookupFreed_of_gone hs' hlen hgone⟩
  · refine ⟨rfl, (file 122).2, (file 120).2, by decide, Or.inl rfl, fun i hi => ?_, fun i hi => ?_⟩
    · cases (congrArg Prod.fst hlz).symm.trans hi
      obtain ⟨-, hka, hkr⟩ := hch.order.of_listing hch.order.tidy.root hz
      refine ⟨hreg, ?_⟩
      rw [show (idle s).fs.refs k = _ from (hch.order.counted k hka hkr).symm, hone]
      decide
    · cases (congrArg Prod.fst hlx).symm.trans hi
  · simp [Mount.fuseRename, idle, hcalls, finish, runCalls, NameCall.run, hlink, hunlink,
      code2Errno]

end Mount

end NaiveFS
