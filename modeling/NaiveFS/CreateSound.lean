import NaiveFS.CacheRings

/-!
# What is created can be found

The length of a name is a byte in its entry and is compared in full by every search.
A name of 256 bytes or more is entered under a length that no search asks for.
-/

namespace NaiveFS

namespace FS

open Groups

variable {s s' : FS} {d i j : Nat} {path : Path}

/-! ## Creating a name -/

/-- The new name leads to the new inode and is taken, and whatever resolved before
resolves to the same inode. -/
structure Findable (path : Path) (i : Nat) (s s' : FS) : Prop where
  found : (s'.inodeLookup path).1 = .ok i
  taken : ∀ mode, ∃ s'', s'.inodeCreate path mode = some (.error .dupErr, s'')
  kept : ∀ (q : Path) j, q.valid = true → (s.inodeLookup q).1 = .ok j → (s'.inodeLookup q).1 = .ok j

theorem Path.names_eq {path : Path} (hne : path.names ≠ []) :
    path.names = path.parent.names ++ [path.back] := by
  unfold Path.parent Path.back
  rw [List.getLast?_eq_getLast_of_ne_nil hne, Option.getD_some]
  exact (List.dropLast_append_getLast hne).symm

namespace Charted

theorem create_taken (h : s.Charted) {p : Nat} (hv : path.valid = true) (hne : path.names ≠ [])
    (hp : s.walk rootInode path.parent.names = .ok p) (hin : (path.back, i) ∈ s.listing p)
    (mode : Nat) :
    ∃ s', s.inodeCreate path mode = some (.error .dupErr, s') := by
  have hback := Path.back_ne_nil hv hne
  have hpa := h.order.walk_allocated h.order.tidy.root (path.parent.nonempty hv) hp
  have hderef := deref_allocated h.order.books hpa
  have hdir := (isDirectory_iff.mp (h.order.of_listing hpa hin).1).2
  obtain ⟨c, hc⟩ := inodeLookup_frame path.parent s
  have hlook : s.inodeLookup path.parent = (.ok p, { s with dcache := c }) := by
    rw [← hc]
    exact Prod.ext ((h.lookup path.parent hv).1.trans hp) rfl
  -- the scan of the directory ends with an entry of that name
  obtain ⟨k, last, hscan, hk⟩ : ∃ k last, ({ s with dcache := c } : FS).inodeLookupIn p path.back =
    (some k, last) ∧
      s.groups.allocated .inode k = true := by
    cases hr : ({ s with dcache := c } : FS).inodeLookupIn p path.back with
    | mk found last =>
      have hindex := inodeLookupIn_index { s with dcache := c } p path.back
      rw [hr] at hindex
      cases found with
      | none =>
        obtain ⟨e, he, hn, -⟩ := (h.order.tidy.mem_listing_iff hpa hback).mp hin
        have hnone := inodeLookupIn_none (s := { s with dcache := c }) (by rw [hr]) e he
        rw [hn] at hnone
        cases hnone
      | some k =>
        obtain ⟨e, he, hek⟩ := Option.map_eq_some_iff.mp hindex.symm
        obtain ⟨he, hname⟩ := List.mem_filter.mp (List.mem_of_getLast? he)
        have hlisted : (path.back, k) ∈ s.listing p :=
          (h.order.tidy.mem_listing_iff hpa hback).mpr ⟨e, he, hname, hek⟩
        exact ⟨k, last, rfl, (h.order.of_listing hpa hlisted).2.1⟩
  unfold inodeCreate Calls.inodeCreate
  simp only [hv, Bool.not_true, Bool.false_eq_true, if_false, List.isEmpty_iff, hne, hlook, hderef,
    hdir, hscan]
  rw [getInode_of_allocated h.order.books hk, if_pos (present_of_allocated hk)]
  exact ⟨_, rfl⟩

theorem findable (h : s.Charted) {mode : Nat} (hv : path.valid = true)
    (hmode : isReg mode = true ∨ isDir mode = true) (hserved : s.groups.hasFree .inode = true)
    (hc : s.inodeCreate path mode = some (.ok i, s')) (hle : s'.groups.groupCount ≤ 33)
    (hlen : path.back.length ≤ 255) : Findable path i s s' := by
  have h' := h.created hlen hmode hserved hc hle
  have hent := (h.order.tidy.created hlen hc hle).2
  have hgrow : ∀ {q : List Name} {j k : Nat}, s.groups.allocated .inode j = true → [] ∉ q →
    s.walk j q = .ok k → s'.walk j q = .ok k :=
    walk_mono h.order h'.order fun d hd => hent.grow hd
  have hne : path.names ≠ [] := by
    intro hnil
    simp [inodeCreate, Calls.inodeCreate, hv, hnil] at hc
  obtain ⟨p, hp, hpd, -, hl, -⟩ := hent.added i rfl
  have hwalk : s.walk rootInode path.parent.names = .ok p :=
    (h.lookup path.parent hv).1.symm.trans hp
  have hpa := h.order.walk_allocated h.order.tidy.root (path.parent.nonempty hv) hwalk
  rw [deref_allocated h.order.books hpa] at hpd hl
  have hwalk' := hgrow h.order.tidy.root (path.parent.nonempty hv) hwalk
  have hpa' := h'.order.walk_allocated h'.order.tidy.root (path.parent.nonempty hv) hwalk'
  have hin : (path.back, i) ∈ s'.listing p := by
    rw [hl]
    simp
  refine ⟨?_, fun mode' => h'.create_taken hv hne hwalk' hin mode', fun q j hq hj => ?_⟩
  · rw [(h'.lookup path hv).1, Path.names_eq hne,
      h'.order.walk_append_ok h'.order.tidy.root (path.parent.nonempty hv)]
    exact ⟨p, hwalk', (h'.order.walk_cons_ok hpa' (Path.back_ne_nil hv hne)).mpr ⟨i, hin, rfl⟩⟩
  · rw [(h.lookup q hq).1] at hj
    rw [(h'.lookup q hq).1]
    exact hgrow h.order.tidy.root (q.nonempty hq) hj

end Charted

/-! ## Runs -/

inductive PathOp where
  | lookup (path : Path)
  | call (op : NamespaceOp)

def pathStep (fuel : Nat) (s : FS) : PathOp → Option FS
  | .lookup path => some (s.inodeLookup path).2
  | .call op => namespaceStep fuel s op

/-- New names have at most 255 bytes; an existing group has an inode for a new file;
fewer than 65535 names are linked to an inode; a directory that is unlinked is empty. -/
def Usual (s : FS) : PathOp → Prop
  | .lookup _ => True
  | .call (.create path _) => path.back.length ≤ 255 ∧ s.groups.hasFree .inode = true
  | .call (.link src dst) =>
    dst.back.length ≤ 255 ∧ ∀ i, (s.inodeLookup src).1 = .ok i → s.refs (deref i) < 65535
  | .call (.unlink path) => ∀ i, s.target path = some i → s.isDirectory i = true → s.listing i = []

/-- Paths are C strings, and a name that is removed can be dropped from the dentry cache. -/
def RingSafe (s : FS) : PathOp → Prop
  | .lookup path => path.NulFree
  | .call (.create path _) => path.NulFree
  | .call (.link src dst) => src.NulFree ∧ dst.NulFree
  | .call (.unlink path) => path.NulFree ∧ s.Droppable path

instance (s : FS) : DecidablePred s.RingSafe
  | .lookup path => inferInstanceAs (Decidable path.NulFree)
  | .call (.create path _) => inferInstanceAs (Decidable path.NulFree)
  | .call (.link src dst) => inferInstanceAs (Decidable (src.NulFree ∧ dst.NulFree))
  | .call (.unlink path) => inferInstanceAs (Decidable (path.NulFree ∧ s.Droppable path))

/-- The call is usual and stays within the caches. -/
structure UsualStep (fuel : Nat) (s : FS) (op : PathOp) : Prop where
  usual : s.Usual op
  rings : s.RingSafe op
  modest : Runs.Leaves (pathStep fuel) Modest s op

/-- What `inode_create` makes can be found, exactly if its name is not too long. -/
def CreatedFound (s : FS) : Prop :=
  ∀ (path : Path) mode i s', path.valid = true → path.NulFree →
    (isReg mode = true ∨ isDir mode = true) →
    s.groups.hasFree .inode = true → s.inodeCreate path mode = some (.ok i, s') → s'.Modest →
    s'.Backed ∧ (Findable path i s s' ↔ path.back.length ≤ 255)

structure Mapped (s : FS) : Prop where
  charted : s.Charted
  ringed : s.Ringed
  cacheable : s.Cacheable

theorem Mapped.backed (h : s.Mapped) : s.Backed :=
  h.ringed.backed h.cacheable h.charted.order.tidy.clean

theorem Mapped.createdFound (h : s.Mapped) : s.CreatedFound := by
  intro path mode i s' hv hp hmode hserved hc hfit
  have ht := h.charted.order.tidy
  have hringed := h.ringed.created hp hc
  rcases inodeCreate_cases ht.clean ht.root hc hfit.groups with ⟨c, e, -, -, hr⟩ | ⟨parent, c, k, g,
    -, -, -, -, hne, -, -, -, -, hadd⟩
  · cases hr
  · refine ⟨hringed.backed hfit.blocks hadd.clean, fun hf => ?_,
      h.charted.findable hv hmode hserved hc hfit.groups⟩
    have hshort := hringed.short hp hf.found path.back (by rw [Path.names_eq hne]; simp)
    omega

theorem Ringed.pathStep {fuel : Nat} {op : PathOp} (h : s.Ringed) (hop : s.RingSafe op)
    (hstep : pathStep fuel s op = some s') :
    s'.Ringed := by
  match op with
  | .lookup path =>
    cases hstep
    exact (h.lookup hop).1
  | .call (.create path mode) =>
    obtain ⟨⟨r, t⟩, heq, rfl⟩ := Option.map_eq_some_iff.mp hstep
    exact h.created hop heq
  | .call (.link src dst) =>
    obtain ⟨⟨r, t⟩, heq, rfl⟩ := Option.map_eq_some_iff.mp hstep
    exact h.linked hop.1 hop.2 heq
  | .call (.unlink path) =>
    obtain ⟨⟨r, t⟩, heq, rfl⟩ := Option.map_eq_some_iff.mp hstep
    exact h.unlinked hop.1 hop.2 heq

theorem Mapped.step {fuel : Nat} {op : PathOp} (h : s.Mapped) (hop : UsualStep fuel s op)
    (hstep : pathStep fuel s op = some s') :
    s'.Mapped := by
  obtain ⟨hle, hfit⟩ := hop.modest s' hstep
  have husual := hop.usual
  refine ⟨?_, h.ringed.pathStep hop.rings hstep, hfit⟩
  match op with
  | .lookup path =>
    cases hstep
    obtain ⟨c, hc⟩ := inodeLookup_frame path s
    have hlooked : s.Looked c := Looked.start.of_eq (r := (s.inodeLookup path).1) (Prod.ext rfl hc)
    rw [hc]
    exact h.charted.looked hlooked
  | .call (.create path mode) =>
    obtain ⟨⟨r, t⟩, heq, rfl⟩ := Option.map_eq_some_iff.mp hstep
    exact h.charted.created husual.1 mode.2 husual.2 heq hle
  | .call (.link src dst) =>
    obtain ⟨⟨r, t⟩, heq, rfl⟩ := Option.map_eq_some_iff.mp hstep
    exact h.charted.linked husual.1 husual.2 heq hle
  | .call (.unlink path) =>
    obtain ⟨⟨r, t⟩, heq, rfl⟩ := Option.map_eq_some_iff.mp hstep
    exact h.charted.unlinked husual heq

theorem Mapped.format : FS.format.Mapped := ⟨Charted.format, Ringed.format, by decide⟩

/-- In every state of every usual run, what is created can be found exactly if the
last component of its path has at most 255 bytes. -/
theorem created_found_iff (fuel : Nat) (ops : List PathOp)
    (h : Runs.Guarded (pathStep fuel) (UsualStep fuel) ops FS.format) :
    Runs.Along (pathStep fuel) (fun s => s.CreatedFound ∧ s.Backed) ops FS.format :=
  Runs.along_of_guarded (fun _ hs => ⟨hs.createdFound, hs.backed⟩)
    (fun _ _ _ hs hop hstep => hs.step hop hstep) ops _ Mapped.format h

theorem created_found_once : Runs.Along (pathStep 1) (fun s => s.CreatedFound ∧ s.Backed)
    [.call (.create (.of [[97]]) ⟨sIfreg, Or.inl rfl⟩),
      .call (.create (.of [[98]]) ⟨sIfreg, Or.inl rfl⟩), .lookup (.of [[98]]), .lookup (.of [[97]]),
      .call (.unlink (.of [[97]]))] FS.format := by
  refine created_found_iff 1 _ (Runs.guarded_cons rfl ⟨⟨by decide, by decide⟩, by decide, by decide⟩
    (Runs.guarded_cons rfl ⟨⟨by decide, by decide⟩, by decide, by decide⟩
    (Runs.guarded_cons rfl ⟨trivial, by decide, by decide⟩
      (Runs.guarded_cons rfl ⟨trivial, by decide, by decide⟩
      (Runs.guarded_cons rfl ⟨fun i hi hd => ?_, by decide, by decide⟩ trivial)))))
  cases (show some 1 = some i from hi)
  exact absurd hd (by decide)

/-- A file of the root whose name has 256 bytes. -/
def longFile : Path := .of [List.replicate 256 97]

theorem long_name_lost :
    ∃ i s', FS.format.inodeCreate longFile sIfreg = some (.ok i, s') ∧
      ¬ Findable longFile i FS.format s' := by
  have hrun : (FS.format.inodeCreate longFile sIfreg).any fun r => r.1.toOption.isSome ∧
      (r.2.inodeLookup longFile).1.toOption = none := by decide +kernel
  cases hr : FS.format.inodeCreate longFile sIfreg with
  | none => simp [hr] at hrun
  | some q =>
    obtain ⟨r, s'⟩ := q
    rw [hr, Option.any_some] at hrun
    obtain ⟨hok, hnone⟩ := of_decide_eq_true hrun
    cases r with
    | error e => cases hok
    | ok i =>
      refine ⟨i, s', rfl, fun h => ?_⟩
      rw [h.found] at hnone
      cases hnone

end FS

end NaiveFS
