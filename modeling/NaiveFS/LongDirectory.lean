import NaiveFS.FullDisk
import NaiveFS.PagedWalk

/-!
# A directory that is too long to walk

With 2061 blocks in the root directory a walk that is not cut short comes back to the
double indirect block when it has left the block cache, and reads a pointer from freed
memory. Until then everything works: a name that is in the dentry cache is still found.
-/

namespace NaiveFS

open EarlyExit

namespace FS

open Groups

variable {s s' : FS} {d i j : Nat} {α : Type}

/-- The visitor may stop the walk among the blocks of the indirect block: the walk goes
on with the double indirect block all the same. -/
theorem readsFreed (hs : s.Clean s.groups) (hd : s.groups.allocated .inode d = true)
    (hn : 2060 < (s.inodes d).iBlock.length) (hle : (s.inodes d).iBlock.length ≤ 1049612)
    {v : Nat → α → Bool × α}
    (hgo : ∀ k b a, k < 12 ∨ 1036 ≤ k → (s.inodes d).iBlock[k]? = some b → (v b a).1 = false)
    (a : α) :
    s.ReadsFreed d (onPages v) a := by
  refine ⟨exists_paged (m := 33 * perGroup .block) (hs.nodup d hd) (fun b hb => ?_) (by decide) hle,
    fun ino p h => ?_⟩
  · exact hs.books.index_lt (hs.owned.allocated d b ⟨hd, hb⟩)
  · obtain ⟨loc, t, hblocks⟩ := h.tree
    have hgoes : GoesOn p.content loc (onPages v) fun _ _ => True := by
      intro k b a q hk _ _
      refine ⟨(v (loc (.data k)) a).1, _, rfl, ?_⟩
      cases hstop : (v (loc (.data k)) a).1 with
      | false => exact Or.inl ⟨rfl, trivial⟩
      | true =>
        refine Or.inr ⟨rfl, ?_⟩
        rw [and_true]
        by_contra hout
        have hno := hgo k (loc (.data k)) a (by omega) (by
          rw [hblocks, stretch, List.getElem?_map, List.getElem?_range' (by omega)]
          simp)
        rw [hstop] at hno
        cases hno
    exact visit_freed t hgoes hn h.safe h.size rfl h.count (fun _ _ _ h => h) trivial true

theorem treeBlocks_2061 : treeBlocks 2061 = 2065 :=
  calc treeBlocks 2061
    _ = treeBlocks (maxDirBlocks + maxIndBlocks + (1024 + 1)) := rfl
    _ = maxDirBlocks + maxIndBlocks + 1024 + 4 + 1024 / numIndirectBlocks :=
      treeBlocks_dind (by decide)
    _ = 2065 := by decide

theorem treeBlocks_2060 : treeBlocks 2060 + 0 ≤ 32768 * 33 := by
  have h := treeBlocks_2061
  rw [treeBlocks_succ] at h
  omega

/-- Looking up `/c` puts it into the dentry cache. -/
theorem Level.look {n k : Nat} {L : List (Name × Nat)} {c : UInt8} (h : Level n k L s)
    (hin : ([c], j) ∈ L) (hnone : s.dcache [[c]] = none) :
    ∃ t, s.inodeLookup (file c) = (.ok j, t) ∧ Level n k L t ∧
      t = { s with dcache := t.dcache } ∧ t.dcache [[c]] = some j := by
  have hord := h.brim.charted.order
  have hsearch := (hord.search_iff hord.tidy.root (List.cons_ne_nil c [])).mpr (h.listing ▸ hin)
  have hlook := lookup_uncached hnone
  rw [hsearch] at hlook
  have hcharted := (h.brim.charted.lookup (file c) (file c).2.1).2
  rw [hlook] at hcharted
  exact ⟨_, hlook, ⟨{ h.brim with charted := hcharted }, h.listing, h.absent⟩,
    rfl, by simp [NodeMap.insert]⟩

/-- The entry of `/y` goes to the first block below the indirect block. -/
theorem exists_indirect :
    ∃ j b bs s, Runs.Leads (dirStep 1) OrdinaryCall FS.format s ∧ Level 13 1 [([121], j)] s ∧
    s.dcache [[121]] = none ∧ OnlyIn b s ∧ (s.inodes rootInode).iBlock = bs ++ [b] ∧
      bs.length = 12 := by
  obtain ⟨t, hgrown, ht⟩ := Level.format.advance (Nat.zero_le 2) 12 (by decide +kernel)
  have hnew : [121] ∉ t.listed rootInode := by
    rw [listed, ht.listing]
    exact List.not_mem_nil
  obtain ⟨j, b, s, hc, hmade, hbrim, -⟩ :=
    ht.brim.create_new (by decide) hnew rfl (by decide +kernel)
  have hblocks : (s.inodes rootInode).iBlock = (t.inodes rootInode).iBlock ++ [b] := by
    refine hmade.blocks.resolve_left fun ⟨hsame, _⟩ => ?_
    have := hbrim.length
    rw [hsame, ht.brim.length] at this
    omega
  refine ⟨j, b, _, s, hgrown.leads.trans (ht.brim.leads_create (by decide) hc),
    ⟨hbrim, by rw [hmade.listing, ht.listing]; rfl, by simp⟩, ?_, fun x hx hne e he => ?_, hblocks,
    ht.brim.length⟩
  · rw [hmade.dcache, hgrown.cached _ (by decide)]
    rfl
  · rw [hmade.others x hne] at he
    exact ht.brim.entries_new hnew e (List.mem_flatMap.mpr ⟨x,
      (hmade.mem_blocks hx).resolve_left hne, he⟩)

/-- From there the directory grows to 2061 blocks. -/
theorem Level.overgrow {b : Nat} (h : Level 13 1 [([121], j)] s) (ho : OnlyIn b s) :
    ∃ t, Runs.Leads (dirStep 1) OrdinaryCall s t ∧ t.Charted ∧ OnlyIn b t ∧
      (t.inodes rootInode).iBlock.length = 2061 ∧ (s.inodes rootInode).iBlock <+:
      (t.inodes rootInode).iBlock ∧ t.dcache [[121]] = s.dcache [[121]] ∧
      ([121], j) ∈ t.listing rootInode := by
  have hle : treeBlocks 2061 + 0 ≤ 32768 * 33 := by
    rw [treeBlocks_2061]
    decide
  obtain ⟨u, hgrown, hu⟩ := h.advance (show 1 ≤ 2 by decide) 2047 treeBlocks_2060
  have hnew : [120] ∉ u.listed rootInode := by
    rw [listed, hu.listing]
    exact hu.absent
  obtain ⟨i, b', t, hc, hmade, hbrim, -⟩ :=
    hu.brim.create_new (show 1 + 1 ≤ 3 by decide) hnew rfl hle
  refine ⟨t, hgrown.leads.trans (hu.brim.leads_create (show 1 + 1 ≤ 3 by decide) hc), hbrim.charted,
    hmade.clear (by decide) (hgrown.only _ 121 (by decide) ho), hbrim.length,
    hgrown.blocks.trans hmade.grows, ?_, ?_⟩
  · rw [hmade.dcache, hgrown.cached _ (by decide)]
  · rw [hmade.listing, hu.listing]
    exact List.mem_cons_self

theorem OnlyIn.lookupFreed {b : Nat} (bs : List Nat) (h : s.Charted) (ho : OnlyIn b s)
    (hlen : (s.inodes rootInode).iBlock.length = 2061)
    (hbs : bs ++ [b] <+: (s.inodes rootInode).iBlock) (h12 : bs.length = 12) :
    ({ s with dcache := .init } : FS).LookupFreed (file 121).1 := by
  have hclean := h.order.tidy.clean
  have hroot := h.order.tidy.root
  refine ⟨rootInode,
    [121], by simp [accesses, accessesFrom, file, Path.of, DentryCache.lookup, DentryCache.init],
    ?_⟩
  refine readsFreed (s := { s with dcache := .init }) ⟨hclean.books, hclean.owned,
    hclean.nodup⟩ hroot (hlen ▸ by decide)
    (hlen ▸ by decide) (fun k x a hk hx => ?_) none
  have hne : x ≠ b := by
    rintro rfl
    obtain ⟨rest, hrest⟩ := hbs
    have hb : (s.inodes rootInode).iBlock[12]? = some x := by
      rw [← hrest, List.append_assoc, List.getElem?_append_right (by omega), h12]
      rfl
    have := (List.getElem?_inj (hlen ▸ by decide) (hclean.nodup rootInode hroot)).mp
      (hb.trans hx.symm)
    omega
  have hnone : (s.dents x).find? (Dentry.hasName [121]) = none := by
    rw [List.find?_eq_none]
    intro e he
    rw [ho x (List.mem_of_getElem? hx) hne e he]
    exact Bool.false_ne_true
  simp [searchVisitor, hnone]

/-- Name `/y` gets its entry in the first block below the indirect block and is looked
up once. When the root directory has 2061 blocks, the dentry cache still knows `/y`;
without it the lookup reads from freed memory. -/
theorem uncached_lookup_freed :
    ∃ ops s j, Runs.run (nameStep 1) ops FS.format = some s ∧
      Runs.Guarded (nameStep 1) Ordinary ops FS.format ∧ (s.inodeLookup (file 121)).1 = .ok j ∧
      ({ s with dcache := .init } : FS).LookupFreed (file 121).1 := by
  have hmap : ∀ {t t' : FS}, Runs.Leads (dirStep 1) OrdinaryCall t t' →
      Runs.Leads (nameStep 1) Ordinary t t' :=
      fun h => h.map .call (fun _ _ => rfl) (fun _ _ h => h)
  obtain ⟨j, b, bs, s₁, hfirst, hlevel, hnone, honly, hblocks, hlen⟩ := exists_indirect
  obtain ⟨s₂, hlook, hlevel', hs₂, hhit⟩ := hlevel.look List.mem_cons_self hnone
  have hmid : Runs.Leads (nameStep 1) Ordinary s₁ s₂ := by
    refine Runs.Leads.single (i := .lookup (file 121)) ?_ trivial
    rw [nameStep, hlook]
  have honly' : OnlyIn b s₂ := by
    rw [hs₂]
    exact honly
  obtain ⟨s, hlast, hs, ho, hlong, hgrows, hcache, hin⟩ := hlevel'.overgrow honly'
  obtain ⟨ops, hrun, hguard⟩ := ((hmap hfirst).trans hmid).trans (hmap hlast)
  refine ⟨ops, s, j, hrun, hguard, ?_, ho.lookupFreed bs hs hlong ?_ hlen⟩
  · rw [lookup_hit (hcache.trans hhit)]
    rw [getInode_of_allocated hs.order.books (hs.order.of_listing hs.order.tidy.root hin).2.1]
    rfl
  · rw [← hblocks]
    rw [hs₂] at hgrows
    exact hgrows

end FS

end NaiveFS
