import NaiveFS.CreateSound
import NaiveFS.Lib.FlatBytes

/-!
# Symbolic links

`fuse_symlink` keeps a target of up to 60 bytes in the array `i_block` and a longer
one in a block. `fuse_readlink` copies it without the terminating NUL, so what the
caller gets is a string only if the buffer has room and a NUL there already.
-/

namespace NaiveFS

namespace FS

open Groups

variable {s s' t : FS} {path : Path} {i mode p : Nat}

/-! ## Looking up a name that was just created -/

theorem cache_lookup {c : DentryCache} {link : List Name} {name : Name} (hne : name ≠ []) :
    c.lookup link name = c (link ++ [name]) := by
  rw [DentryCache.lookup, if_neg (by simpa using hne)]

/-- The dentry cache has a node for every component below the node of `link`; the last
one is that of inode `i`. -/
def Cached (c : NodeMap) : List Name → Nat → List Name → Nat → Prop
  | _, index, [], i => i = index
  | link, _, elem :: rest, i =>
    ∃ k, c (link ++ [elem]) = some k ∧ Cached c (link ++ [elem]) k rest i

theorem lookupFrom_grows :
    ∀ {names link : List Name} {index inode : Nat} {hit : Bool} {s t : FS} {r : Except RetCode Nat},
    [] ∉ names → lookupFrom link index inode hit names s = (r, t) → ∀ {q : List Name} {k : Nat},
      s.dcache q = some k →
    t.dcache q = some k := by
  intro names
  induction names with
  | nil =>
    intro link index inode hit s t r _ h q k hq
    cases h
    exact hq
  | cons elem rest ih =>
    intro link index inode hit s t r hne h q k hq
    have hrest : [] ∉ rest := fun hc => hne (List.mem_cons_of_mem _ hc)
    unfold lookupFrom at h
    rw [cache_lookup fun hc => hne (hc ▸ List.mem_cons_self)] at h
    cases hl : s.dcache (link ++ [elem]) with
    | some i =>
      simp only [hl] at h
      split at h
      · cases h
        exact hq
      · exact ih hrest h hq
    | none =>
      simp only [hl] at h
      cases hd : (if hit = true then s.groups.getInode index else some inode) with
      | none =>
        rw [hd] at h
        cases h
        exact hq
      | some dir =>
        simp only [hd] at h
        split at h
        · cases h
          exact hq
        · cases hsearch : s.search dir elem with
          | none =>
            rw [hsearch] at h
            cases h
            exact hq
          | some j =>
            simp only [hsearch] at h
            have hql : q ≠ link ++ [elem] := by
              rintro rfl
              rw [hl] at hq
              cases hq
            refine ih hrest h ?_
            simpa [NodeMap.insert, hql] using hq

theorem lookupFrom_cached :
    ∀ {names link : List Name} {index inode : Nat} {hit : Bool} {s t : FS} {i : Nat},
    [] ∉ names → lookupFrom link index inode hit names s = (.ok i, t) →
      Cached t.dcache.map link index names i := by
  intro names
  induction names with
  | nil =>
    intro link index inode hit s t i _ h
    cases h
    rfl
  | cons elem rest ih =>
    intro link index inode hit s t i hne h
    have hrest : [] ∉ rest := fun hc => hne (List.mem_cons_of_mem _ hc)
    unfold lookupFrom at h
    rw [cache_lookup fun hc => hne (hc ▸ List.mem_cons_self)] at h
    cases hl : s.dcache (link ++ [elem]) with
    | some k =>
      simp only [hl] at h
      split at h
      · cases h
      · exact ⟨k, lookupFrom_grows hrest h hl, ih hrest h⟩
    | none =>
      simp only [hl] at h
      cases hd : (if hit = true then s.groups.getInode index else some inode) with
      | none =>
        rw [hd] at h
        cases h
      | some dir =>
        simp only [hd] at h
        split at h
        · cases h
        · cases hsearch : s.search dir elem with
          | none =>
            rw [hsearch] at h
            cases h
          | some k =>
            simp only [hsearch] at h
            refine ⟨k, lookupFrom_grows hrest h ?_, ih hrest h⟩
            simp [NodeMap.insert]

/-- Nodes that are there already are passed, which only moves the entries of rings. -/
theorem lookupFrom_hits {more : List Name} :
    ∀ {names link : List Name} {index inode : Nat} {hit : Bool} {i : Nat} {s : FS},
    [] ∉ names → Cached s.dcache.map link index names i →
    (more = [] → (s.groups.getInode i).isSome = true) →
    ∃ c : DentryCache, c.map = s.dcache.map ∧ lookupFrom link index inode hit (names ++ more) s =
      lookupFrom (link ++ names) i inode (hit || !names.isEmpty) more { s with dcache := c } := by
  intro names
  induction names with
  | nil =>
    intro link index inode hit i s _ h _
    cases h
    exact ⟨s.dcache, rfl, by simp⟩
  | cons elem rest ih =>
    intro link index inode hit i s hne h hend
    have hrest : [] ∉ rest := fun hc => hne (List.mem_cons_of_mem _ hc)
    obtain ⟨k, hk, h⟩ := h
    have hcond : ¬ ((rest ++ more).isEmpty && (s.groups.getInode k).isNone) = true := by
      intro hc
      rw [Bool.and_eq_true, List.isEmpty_iff, List.append_eq_nil_iff] at hc
      obtain ⟨⟨rfl, hmore⟩, hnone⟩ := hc
      cases h
      simp [Option.isNone_iff_eq_none.mp hnone] at hend
      exact hend hmore
    obtain ⟨c, hmap, hstep⟩ :=
      @ih (link ++ [elem]) k inode true i { s with dcache := s.dcache.enter link elem } hrest h hend
    refine ⟨c, hmap, ?_⟩
    rw [List.cons_append, lookupFrom, cache_lookup fun hc => hne (hc ▸ List.mem_cons_self), hk]
    simp only [hcond, Bool.false_eq_true, if_false]
    rw [hstep]
    simp

/-- A node that a lookup adds to the cache stands for an entry, in the directory the
nodes before it lead to. -/
theorem lookupFrom_adds :
    ∀ {names link : List Name} {index inode : Nat} {hit : Bool} {s t : FS} {r : Except RetCode Nat},
    [] ∉ names → (hit = false → s.groups.getInode index = some inode) →
    lookupFrom link index inode hit names s = (r, t) →
    ∀ {q : List Name} {k : Nat}, s.dcache q = none → t.dcache q = some k →
    ∃ before elem d dir, q = link ++ before ++ [elem] ∧ before ++ [elem] <+: names ∧
      Cached t.dcache.map link index before d ∧ s.groups.getInode d = some dir ∧
      ∃ e ∈ s.entries dir, e.hasName elem = true := by
  intro names
  induction names with
  | nil =>
    intro link index inode hit s t r _ _ h q k hnone hsome
    cases h
    rw [hnone] at hsome
    cases hsome
  | cons elem rest ih =>
    intro link index inode hit s t r hne hin h q k hnone hsome
    have hrest : [] ∉ rest := fun hc => hne (List.mem_cons_of_mem _ hc)
    have hsame : ∀ {r' : Except RetCode Nat},
        ((r', { s with dcache := s.dcache.enter link elem }) : Except RetCode Nat × FS) ≠
        (r, t) := by
      intro r' heq
      cases heq
      cases hnone.symm.trans hsome
    unfold lookupFrom at h
    rw [cache_lookup fun hc => hne (hc ▸ List.mem_cons_self)] at h
    cases hl : s.dcache (link ++ [elem]) with
    | some i =>
      simp only [hl] at h
      split at h
      · exact absurd h hsame
      · obtain ⟨before, name, d, dir, rfl, hpre, hc, hd, he⟩ :=
          ih hrest (fun hf => by cases hf) h hnone hsome
        exact ⟨elem :: before, name, d, dir, by simp, by simpa using hpre,
          ⟨i, lookupFrom_grows hrest h hl, hc⟩, hd, he⟩
    | none =>
      simp only [hl] at h
      cases hd : (if hit = true then s.groups.getInode index else some inode) with
      | none =>
        rw [hd] at h
        exact absurd h hsame
      | some dir =>
        have hdir : s.groups.getInode index = some dir := by
          cases hit with
          | true => exact hd
          | false => exact (hin rfl).trans hd
        simp only [hd] at h
        split at h
        · exact absurd h hsame
        · cases hsearch : s.search dir elem with
          | none =>
            rw [hsearch] at h
            exact absurd h hsame
          | some j =>
            simp only [hsearch] at h
            by_cases hq : q = link ++ [elem]
            · obtain ⟨e, he, hname, -⟩ := search_hasName j hsearch
              exact ⟨[], elem, index, dir, by simpa using hq, by simp, rfl, hdir, e, he, hname⟩
            · obtain ⟨b, hb⟩ := Option.isSome_iff_exists.mp (search_some hsearch)
              obtain ⟨before, name, d, dir', rfl, hpre, hc, hd', he⟩ :=
                ih (s := { s with dcache := (s.dcache.enter link elem).insert link elem j }) hrest
                  (fun _ => by simp [hb]) h
                  (by simpa [NodeMap.insert, hq] using hnone) hsome
              refine ⟨elem :: before, name, d, dir', by simp, by simpa using hpre,
                ⟨j, lookupFrom_grows hrest h ?_, hc⟩, hd', he⟩
              simp [NodeMap.insert]

theorem getInode_root (hroot : s.groups.allocated .inode rootInode = true) :
    s.groups.getInode rootInode = some rootInode := by
  rw [Groups.getInode, if_neg (by decide), if_pos hroot]

theorem lookup_last (hv : path.valid = true) (hne : path.names ≠ [])
    (hget : s.groups.getInode p = some (deref p))
    (hc : Cached s.dcache.map [] rootInode path.parent.names p)
    (hfree : s.dcache path.names = none) :
    (s.inodeLookup path).1 = match s.search (deref p) path.back with
      | none => .error .notFound
      | some i => .ok i := by
  have hback := Path.back_ne_nil hv hne
  have hdir : (if (false || !path.parent.names.isEmpty) = true then s.groups.getInode p else
    some rootInode) = some (deref p) := by
    cases hn : path.parent.names with
    | nil =>
      rw [hn] at hc
      cases hc
      rfl
    | cons elem rest => exact hget
  rw [Path.names_eq hne] at hfree
  obtain ⟨c, hmap, hhits⟩ :=
    @lookupFrom_hits [path.back] path.parent.names [] rootInode rootInode false p s
      (path.parent.nonempty hv) hc (by simp)
  have hmiss : c (path.parent.names ++ [path.back]) = none := by rw [hmap]; exact hfree
  have hsearch : ({ s with dcache := c } : FS).search (deref p) path.back =
    s.search (deref p) path.back := rfl
  rw [inodeLookup, if_neg (by simp [hv]), Path.names_eq hne, hhits, lookupFrom, List.nil_append,
    cache_lookup hback, hmiss]
  simp only [hdir, hsearch]
  cases s.search (deref p) path.back <;> simp [lookupFrom]

theorem lookup_free {src : Path} {r : Except RetCode Nat} {u : FS}
    (hroot : s.groups.allocated .inode rootInode = true) (hv : path.valid = true)
    (hne : path.names ≠ []) (hfree : s.dcache path.names = none)
    (hsrc : s.inodeLookup src = (r, t)) (hpar : t.inodeLookup path.parent = (.ok p, u))
    (hnone : ∀ e ∈ s.entries (deref p), e.hasName path.back = false) :
    u.dcache path.names = none := by
  have hstart := getInode_root hroot
  obtain ⟨c, hc⟩ := inodeLookup_frame src s
  rw [hsrc] at hc
  simp only at hc
  subst hc
  have hct : c path.names = none := by
    cases hk : c path.names with
    | none => rfl
    | some k =>
      unfold inodeLookup at hsrc
      split at hsrc
      · have hcache := congrArg (fun q => q.2.dcache path.names) hsrc
        exact hk.symm.trans (hcache.symm.trans hfree)
      · rename_i hvs
        obtain ⟨before, elem, d, dir, hq, -, hcached, hd, e, he, hname⟩ :=
          lookupFrom_adds (src.nonempty (by simpa using hvs)) (fun _ => hstart) hsrc hfree hk
        rw [Path.names_eq hne, List.nil_append] at hq
        obtain ⟨rfl, hback⟩ := List.append_inj' hq rfl
        cases hback
        -- the directory with the entry is the one the lookup of the parent ends at
        obtain ⟨c', -, hhit⟩ :=
          @lookupFrom_hits [] path.parent.names [] rootInode rootInode false d
          { s with dcache := c }
          (path.parent.nonempty hv) hcached fun _ => by simp [hd]
        rw [inodeLookup, if_neg (by simpa using (show path.parent.valid = true from hv)),
          ← List.append_nil path.parent.names, hhit] at hpar
        cases hpar
        rw [← getInode_deref hd] at he
        rw [hnone e he] at hname
        cases hname
  cases hk : u.dcache path.names with
  | none => rfl
  | some k =>
    unfold inodeLookup at hpar
    split at hpar
    · cases hpar
    · obtain ⟨before, elem, d, dir, hq, hpre, -⟩ :=
        lookupFrom_adds (s := { s with dcache := c }) (path.parent.nonempty hv) (fun _ => hstart)
          hpar hct hk
      have hlen := hpre.length_le
      rw [List.nil_append] at hq
      rw [← hq, Path.names_eq hne] at hlen
      simp at hlen

theorem search_only {d : Nat} {name : Name} (hthere : (s.groups.getInode i).isSome = true)
    (honly : ∀ e ∈ s.entries d, e.hasName name = true → e.inode = i) {e : Dentry}
    (he : e ∈ s.entries d) (hname : e.hasName name = true) : s.search d name = some i := by
  cases hs : s.search d name with
  | none =>
    have hnone := search_none (fun e he hn => by rw [honly e he hn]; exact hthere) hs e he
    rw [hname] at hnone
    cases hnone
  | some j =>
    obtain ⟨e', he', hn', rfl⟩ := search_hasName j hs
    rw [honly e' he' hn']

theorem make_hasName (name : Name) (inode mode : Nat) :
    (Dentry.make name inode mode).hasName name = decide (name.length ≤ 255) := by
  by_cases hlen : name.length ≤ 255
  · simp [Dentry.hasName, Dentry.make, Nat.mod_eq_of_lt (show name.length < 256 by omega), hlen]
  · have hmod : name.length % 256 ≠ name.length := by omega
    simp [Dentry.hasName, Dentry.make, hmod, hlen]

/-- The last component of `path` has been entered for inode `i` in the directory of
inode `p`, and has not been looked up since. -/
structure FreshName (path : Path) (i mode p : Nat) (s : FS) : Prop where
  clean : s.Clean s.groups
  valid : path.valid = true
  named : path.names ≠ []
  parent : s.groups.getInode p = some (deref p)
  directory : s.groups.allocated .inode (deref p) = true
  apart : deref p ≠ i
  there : s.groups.allocated .inode i = true
  cached : Cached s.dcache.map [] rootInode path.parent.names p
  free : s.dcache path.names = none
  entries : ∃ l, s.entries (deref p) = l ++ [Dentry.make path.back i mode] ∧
    ∀ e ∈ l, e.hasName path.back = false

theorem FreshName.lookup (h : FreshName path i mode p s) :
    (s.inodeLookup path).1 = if path.back.length ≤ 255 then .ok i else .error .notFound := by
  obtain ⟨l, hl, hnone⟩ := h.entries
  rw [lookup_last h.valid h.named h.parent h.cached h.free]
  by_cases hlen : path.back.length ≤ 255
  · have hname : (Dentry.make path.back i mode).hasName path.back = true := by
      rw [make_hasName, decide_eq_true hlen]
    rw [search_only (by rw [getInode_of_allocated h.clean.books h.there]; rfl) (fun e he hn => ?_)
      (by rw [hl]; simp) hname, if_pos hlen]
    rw [hl, List.mem_append, List.mem_singleton] at he
    rcases he with he | rfl
    · rw [hnone e he] at hn
      cases hn
    · rfl
  · have hs : s.search (deref p) path.back = none := by
      cases hs : s.search (deref p) path.back with
      | none => rfl
      | some j =>
        obtain ⟨e, he, hn, -⟩ := search_hasName j hs
        rw [hl, List.mem_append, List.mem_singleton] at he
        rcases he with he | rfl
        · rw [hnone e he] at hn
          cases hn
        · rw [make_hasName] at hn
          exact absurd (of_decide_eq_true hn) hlen
    rw [hs, if_neg hlen]

theorem getInode_grow {g g' : Groups} {q : Nat}
    (hkeep : ∀ j, g.allocated .inode j = true → g'.allocated .inode j = true)
    (h : g.getInode p = some q) : g'.getInode p = some q := by
  rcases getInode_cases h with ⟨rfl, rfl⟩ | ⟨rfl, ha⟩
  · rfl
  · unfold Groups.getInode at h ⊢
    rwa [if_pos (hkeep p ha), if_pos ha] at *

theorem newInode_iBlocks (s : FS) (mode : Nat) : (s.newInode mode).iBlocks = 0 := by
  unfold newInode
  split <;> rfl

theorem FreshName.created {src : Path} {r : Except RetCode Nat} (hs : s.Clean s.groups)
    (hroot : s.groups.allocated .inode rootInode = true) (hfree : s.dcache path.names = none)
    (hsrc : s.inodeLookup src = (r, t)) (hc : t.inodeCreate path mode = some (.ok i, s'))
    (hle : s'.groups.groupCount ≤ 33) :
    (∃ p, FreshName path i mode p s') ∧ s.groups.allocated .inode i = false ∧
      (s'.inodes i).iBlocks = 0 ∧ (s'.inodes i).iBlock = [] := by
  obtain ⟨c₀, hc₀⟩ := inodeLookup_frame src s
  have ht : t = { s with dcache := c₀ } := by rw [← hc₀, hsrc]
  have htc : t.Clean t.groups := by
    subst ht
    exact ⟨hs.books, hs.owned, hs.nodup⟩
  have htroot : t.groups.allocated .inode rootInode = true := by
    subst ht
    exact hroot
  rcases inodeCreate_cases htc htroot hc hle with ⟨c, e, -, -, hr⟩ |
    ⟨p, c, k, g, hlook, hpa, -, hv, hne, hnone, hr, hout, -, hadd⟩
  · cases hr
  · cases hr
    have hapart : deref p ≠ i := by
      intro hpi
      rw [hpi, hout.free] at hpa
      cases hpa
    have hkeep : ∀ j, t.groups.allocated .inode j = true → s'.groups.allocated .inode j = true := by
      intro j hj
      rw [hadd.allocated]
      exact hout.keep hj
    have hrecord : s'.inodes i = t.newInode mode := by
      rw [hadd.inodes i hapart.symm]
      exact Function.update_self ..
    refine ⟨⟨p, hadd.clean, hv, hne, getInode_grow hkeep (inodeLookup_ok htroot hlook), hkeep _ hpa,
      hapart, ?_, ?_, ?_, ?_⟩, ?_,
      by rw [hrecord, newInode_iBlocks], by rw [hrecord, newInode_iBlock]⟩
    · rw [hadd.allocated, hout.after, if_pos ⟨rfl, rfl⟩]
    · rw [hadd.dcache]
      rw [inodeLookup, if_neg (by simpa using (show path.parent.valid = true from hv))] at hlook
      have hcached := lookupFrom_cached (path.parent.nonempty hv) hlook
      exact hcached
    · rw [hadd.dcache]
      have hnode := lookup_free hroot hv hne hfree hsrc hlook (by subst ht; exact hnone)
      exact hnode
    · refine ⟨t.entries (deref p), ?_, hnone⟩
      rw [hadd.entries]
      simp [FS.entries, Function.update_of_ne hapart]
    · have hnew := hout.free
      subst ht
      exact hnew

theorem FreshName.filled {b : Nat} (h : FreshName path i mode p s)
    (ha : s.allocBlock i = (some b, t)) (hle : t.groups.groupCount ≤ 33) (es : List Dentry) :
    FreshName path i mode p { t with dents := Function.update t.dents b es } ∧
      t.groups.allocated .block b = true ∧ t.inodes i = addBlock (s.inodes i) b := by
  obtain ⟨b', g, heq, hout⟩ := allocBlock_spec i h.clean.books (by rw [ha]; exact hle)
  rw [ha] at heq
  cases heq
  -- the block is in no inode, so no entries change
  have hadd := Added.new (Dentry.make path.back i mode) h.clean h.there hout
  have hnot : b ∉ (s.inodes (deref p)).iBlock := by
    intro hb
    have := h.clean.owned.allocated (deref p) b ⟨h.directory, hb⟩
    rw [hout.fresh] at this
    cases this
  refine ⟨⟨⟨hadd.clean.books, hadd.clean.owned, hadd.clean.nodup⟩, h.valid, h.named, ?_, ?_,
    h.apart, ?_, h.cached, h.free, ?_⟩,
    hout.taken, Function.update_self ..⟩
  · exact getInode_grow (fun j hj => by rw [hout.inode]; exact hj) h.parent
  · rw [hout.inode]
    exact h.directory
  · rw [hout.inode]
    exact h.there
  · obtain ⟨l, hl, hnone⟩ := h.entries
    refine ⟨l, ?_, hnone⟩
    rw [← hl]
    simp only [FS.entries, Function.update_of_ne h.apart, Function.update_idem]
    exact flatMap_update_of_not_mem hnot

end FS

/-! ## Targets -/

/-- From `i_block` to the end of an inode of 128 bytes. -/
def iBlockTail : Nat := 88

/-- The file system with the bytes that hold the targets: those of the inode table from
`i_block` on, and those of the blocks. -/
structure LinkFS where
  fs : FS
  raw : Nat → Bytes iBlockTail
  data : Nat → Block

/-- `memcpy(buf, src, n)`. -/
def copyOut {n : Nat} (buf : Nat → UInt8) (src : Bytes n) (k : Nat) : Nat → UInt8 :=
  FlatBytes.patch buf 0 ((List.range k).map src.byte)

namespace LinkFS

/-- `alloc_inode` clears the record. -/
def cleared (t : LinkFS) (fs : FS) : Nat → Bytes iBlockTail := fun i =>
  if fs.groups.allocated .inode i && !t.fs.groups.allocated .inode i then Bytes.zero else t.raw i

def fuseSymlink (src : List UInt8) (dst : Path) (t : LinkFS) : Option (Int × LinkFS) :=
  match t.fs.inodeLookup (Path.parse src) with
  | (.error r, fs) => some (code2Errno r, { t with fs := fs })
  | (.ok _, fs) =>
    match fs.inodeCreate dst sIflnk with
    | none => none
    | some (.error r, fs) => some (code2Errno r, { t with fs := fs, raw := t.cleared fs })
    | some (.ok id, fs) =>
      let raw := t.cleared fs
      if src.length ≤ Mount.iBlockSize then some (0,
        { t with fs := fs, raw := Function.update raw id ((raw id).splice 0 src) })
      else
        match fs.allocBlock id with
        | (none, fs) => some (code2Errno .allocErr, { t with fs := fs, raw := raw })
        | (some b, fs) =>
          -- a new block is zero; a longer target is written past its end
          if src.length > blockSize then none
          else
            some (0, {
              fs := { fs with
                dents := Function.update fs.dents b (Mount.textDentries src blockSize 0) }
              raw := raw
              data := Function.update t.data b (Bytes.zero.splice 0 src) })

/-- `fuse_readlink`: the code, the buffer and the state. There is no result if `strlen`
leaves the inode or the block. -/
def fuseReadlink (path : Path) (buf : Nat → UInt8) (size : Nat) (t : LinkFS) :
    Option (Int × (Nat → UInt8) × LinkFS) :=
  match t.fs.inodeLookup path with
  | (.error r, fs) => some (code2Errno r, buf, { t with fs := fs })
  | (.ok id, fs) =>
    let ino := fs.inodes (FS.deref id)
    if ino.iBlocks = 0 then
      let text := t.raw (FS.deref id)
      text.strlen.map fun n => (0, copyOut buf text (min size n), { t with fs := fs })
    else
      let b := ino.iBlock.headD 0
      if fs.groups.allocated .block b then
        let text := t.data b
        text.strlen.map fun n => (0, copyOut buf text (min size n), { t with fs := fs })
      else some (code2Errno .notFound, buf, { t with fs := fs })

/-- The operation on the file system alone. -/
theorem fuseSymlink_fs (t : LinkFS) (m : Mount) (hm : m.fs = t.fs) (src : List UInt8) (dst : Path) :
    (t.fuseSymlink src dst).map (fun r => (r.1, r.2.fs)) = (m.fuseSymlink src dst).map fun r =>
      (r.1, r.2.fs) := by
  unfold fuseSymlink Mount.fuseSymlink
  rw [hm]
  rcases t.fs.inodeLookup (Path.parse src) with ⟨r | i, fs⟩
  · rfl
  · simp only
    rcases fs.inodeCreate dst sIflnk with _ | ⟨r | id, fs⟩
    · rfl
    · rfl
    · simp only
      split
      · rfl
      · rcases fs.allocBlock id with ⟨_ | b, fs⟩
        · rfl
        · simp only
          split <;> rfl

variable {t t' : LinkFS} {src : List UInt8} {dst : Path} {buf : Nat → UInt8} {size : Nat}

/-- Where the target of inode `i` is. -/
inductive Stored (src : List UInt8) (i : Nat) (t : LinkFS) : Prop where
  | inode (hshort : src.length < iBlockTail) (h : (t.fs.inodes i).iBlocks = 0) (htext : t.raw i =
    Bytes.ofList src)
  | block (b : Nat) (hlong : src.length < blockSize) (h : (t.fs.inodes i).iBlocks ≠
    0) (hb : (t.fs.inodes i).iBlock = [b])
      (ha : t.fs.groups.allocated .block b = true) (htext : t.data b = Bytes.ofList src)

theorem textDentries_narrow (text : List UInt8) :
    ∀ n off, ∀ e ∈ Mount.textDentries text n off, e.nameLen < 256 := by
  intro n
  induction n with
  | zero => exact fun _ _ he => absurd he List.not_mem_nil
  | succ n ih =>
    intro off e he
    simp only [Mount.textDentries] at he
    split at he
    · cases he
    · rcases List.mem_cons.mp he with rfl | he
      · exact UInt8.toNat_lt _
      · split at he
        · cases he
        · exact ih _ e he

/-- Whatever is written into a block, the lengths of names in it are bytes. -/
theorem ringed_text {s : FS} (h : s.Ringed) (b : Nat) (text : List UInt8) :
    ({ s with dents := Function.update s.dents b (Mount.textDentries text blockSize 0) } :
      FS).Ringed := by
  refine ⟨h.rings, fun x e he => ?_⟩
  simp only [Function.update_apply] at he
  split at he
  · exact textDentries_narrow text _ _ e he
  · exact h.narrow x e he

theorem symlink_ringed {r : Int} (h : t.fs.Ringed) (hnul : 0 ∉ src) (hdst : dst.NulFree)
    (hs : t.fuseSymlink src dst = some (r, t')) :
    t'.fs.Ringed := by
  have hlooked := (h.lookup (.parse hnul)).1
  unfold fuseSymlink at hs
  generalize t.fs.inodeLookup (Path.parse src) = st at hs hlooked
  obtain ⟨_ | _, u⟩ := st
  · cases hs
    exact hlooked
  simp only at hs
  cases hc : u.inodeCreate dst sIflnk with
  | none =>
    rw [hc] at hs
    cases hs
  | some p =>
    obtain ⟨res, v⟩ := p
    have hcreated := hlooked.created hdst hc
    rw [hc] at hs
    cases res with
    | error e =>
      cases hs
      exact hcreated
    | ok i =>
      have hblock := hcreated.allocBlock i
      simp only at hs
      split at hs
      · cases hs
        exact hcreated
      · generalize v.allocBlock i = st at hs hblock
        obtain ⟨_ | b, w⟩ := st
        · cases hs
          exact hblock
        · simp only at hs
          split at hs
          · cases hs
          · cases hs
            exact ringed_text hblock b src

theorem zero_splice {n : Nat} (l : List UInt8) :
    (Bytes.zero : Bytes n).splice 0 l = Bytes.ofList l := by
  rw [← Bytes.ofList_nil]
  exact Bytes.splice_ofList_length [] l

theorem failed_ne {α : Type} {r : RetCode} {a b : α} (hr : r ≠ .success) :
    some (code2Errno r, a) ≠ some (0, b) := by
  intro h
  obtain ⟨h, -⟩ := Prod.mk.inj (Option.some.inj h)
  cases r with
  | success => exact hr rfl
  | _ => cases h

theorem symlink_stored (hs : t.fs.Clean t.fs.groups)
    (hroot : t.fs.groups.allocated .inode rootInode = true) (hfree : t.fs.dcache dst.names = none)
    (hlen : src.length ≤ 4095) (h : t.fuseSymlink src dst = some (0, t'))
    (hle : t'.fs.groups.groupCount ≤ 33) :
    ∃ i p, FS.FreshName dst i sIflnk p t'.fs ∧ Stored src i t' := by
  unfold fuseSymlink at h
  cases hl : t.fs.inodeLookup (Path.parse src) with
  | mk r fs =>
    rw [hl] at h
    cases r with
    | error r => exact absurd h (failed_ne (FS.inodeLookup_error hl))
    | ok _ =>
      simp only at h
      cases hc : fs.inodeCreate dst sIflnk with
      | none =>
        rw [hc] at h
        cases h
      | some q =>
        obtain ⟨r, fs₁⟩ := q
        rw [hc] at h
        cases r with
        | error r => exact absurd h (failed_ne (FS.inodeCreate_error hc))
        | ok i =>
          simp only at h
          have hmade : fs₁.groups.groupCount ≤ 33 → _ := FS.FreshName.created hs hroot hfree hl hc
          split at h
          · rename_i hshort
            obtain ⟨-, rfl⟩ := Prod.mk.inj (Option.some.inj h)
            obtain ⟨⟨p, hname⟩, hnew, hblocks, -⟩ := hmade hle
            have htail : src.length < iBlockTail := Nat.lt_of_le_of_lt hshort (by decide)
            refine ⟨i, p, hname, .inode htail hblocks ?_⟩
            simp only [Function.update_self, cleared, hname.there, hnew]
            exact zero_splice src
          · cases ha : fs₁.allocBlock i with
            | mk o fs₂ =>
              rw [ha] at h
              cases o with
              | none => exact absurd h (failed_ne (by decide))
              | some b =>
                simp only at h
                split at h
                · cases h
                · obtain ⟨-, rfl⟩ := Prod.mk.inj (Option.some.inj h)
                  have hgrow := FS.allocBlock_groupCount i fs₁
                  rw [ha] at hgrow
                  obtain ⟨⟨p, hname⟩, -, hblocks, hempty⟩ := hmade (Nat.le_trans hgrow hle)
                  obtain ⟨hname', hb, hrecord⟩ :=
                    hname.filled ha hle (Mount.textDentries src blockSize 0)
                  have hlong : src.length < blockSize := Nat.lt_of_le_of_lt hlen (by decide)
                  refine ⟨i, p, hname', .block b hlong ?_ ?_ hb ?_⟩
                  · simp only [hrecord, FS.addBlock, hblocks]
                    decide
                  · simp [hrecord, hempty]
                  · simp only [Function.update_self]
                    exact zero_splice src

/-! ## Reading a target -/

/-- The buffer starts with the string and a NUL. -/
def HoldsString (buf : Nat → UInt8) (str : List UInt8) : Prop :=
  (∀ i < str.length, buf i = str.getD i 0) ∧ buf str.length = 0

/-- `fuse_readlink` returns the first `size - 1` bytes of the target as a string. -/
def ReadBack (src : List UInt8) (dst : Path) (buf : Nat → UInt8) (size : Nat) (t : LinkFS) : Prop :=
  ∃ buf' t', t.fuseReadlink dst buf size = some (0, buf', t') ∧
    HoldsString buf' (src.take (size - 1))

theorem copyOut_ofList {n k : Nat} (hlen : src.length ≤ n) (hk : k ≤ src.length) :
    copyOut buf (Bytes.ofList src : Bytes n) k = FlatBytes.patch buf 0 (src.take k) := by
  unfold copyOut
  congr 1
  apply List.ext_getElem
  · simp [hk]
  · intro j hj hj'
    simp only [List.length_map, List.length_range] at hj
    simp [Bytes.byte_ofList hlen, Nat.lt_of_lt_of_le hj hk]

theorem holdsString_iff (hnul : 0 ∉ src) (hsize : 1 ≤ size) :
    HoldsString (FlatBytes.patch buf 0 (src.take (min size src.length))) (src.take (size - 1)) ↔
      src.length < size ∧ buf src.length = 0 := by
  by_cases hlt : src.length < size
  · rw [Nat.min_eq_right (Nat.le_of_lt hlt), List.take_length, List.take_of_length_le (by omega)]
    constructor
    · intro h
      have hend := h.2
      rw [FlatBytes.patch_out _ (Or.inr (by omega))] at hend
      exact ⟨hlt, hend⟩
    · intro h
      refine ⟨fun i hi => FlatBytes.patch_in _ (Nat.zero_le i) (by omega), ?_⟩
      rw [FlatBytes.patch_out _ (Or.inr (by omega))]
      exact h.2
  · -- the buffer is full; its last byte is one of the target
    have hle : size ≤ src.length := Nat.le_of_not_lt hlt
    refine ⟨fun h => ?_, fun h => absurd h.1 hlt⟩
    have hend := h.2
    rw [Nat.min_eq_left hle, List.length_take, Nat.min_eq_left (by omega),
      FlatBytes.patch_in _ (Nat.zero_le _) (by simp; omega),
      List.getD_eq_getElem _ _ (by simp; omega)] at hend
    refine absurd ?_ hnul
    rw [← hend]
    exact List.mem_of_mem_take (List.getElem_mem _)

theorem readlink_copies {i : Nat} {fs : FS} (hl : t.fs.inodeLookup dst = (.ok i, fs))
    (hfs : ∃ c, fs = { t.fs with dcache := c }) (hi : FS.deref i = i) (hst : Stored src i t)
    (hnul : 0 ∉ src) :
    t.fuseReadlink dst buf size = some (0, FlatBytes.patch buf 0 (src.take (min size src.length)),
      { t with fs := fs }) := by
  obtain ⟨c, rfl⟩ := hfs
  unfold fuseReadlink
  rw [hl]
  simp only [hi]
  cases hst with
  | inode hshort h htext =>
    simp [h, htext, Bytes.strlen_ofList hshort hnul,
      copyOut_ofList (Nat.le_of_lt hshort) (Nat.min_le_right size _)]
  | block b hlong h hb ha htext =>
    simp [h, hb, ha, htext, Bytes.strlen_ofList hlong hnul,
      copyOut_ofList (Nat.le_of_lt hlong) (Nat.min_le_right size _)]

def format : LinkFS := ⟨FS.format, fun _ => Bytes.zero, fun _ => Bytes.zero⟩

/-- The path of the link `/l`, whose target is `/`. -/
def rootLink : Path := .of [[108]]

theorem format_symlink : ∃ t, format.fuseSymlink [47] rootLink = some (0, t) ∧ t.fs.Modest ∧
    (t.fuseReadlink rootLink (fun _ => 255) 4096).any fun r => r.2.1 1 = 255 := by
  have hrun : (format.fuseSymlink [47] rootLink).any fun r => r.1 = 0 ∧ r.2.fs.Modest ∧
      (r.2.fuseReadlink rootLink (fun _ => 255) 4096).any fun r => r.2.1 1 = 255 := by
      decide +kernel
  cases hr : format.fuseSymlink [47] rootLink with
  | none => simp [hr] at hrun
  | some q =>
    obtain ⟨r, t⟩ := q
    rw [hr, Option.any_some] at hrun
    obtain ⟨rfl, h⟩ := of_decide_eq_true hrun
    exact ⟨t, rfl, h⟩

end LinkFS

end NaiveFS
