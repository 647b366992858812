import NaiveFS.DentryBytes
import NaiveFS.DirectorySound

/-!
# The directory blocks of a run as bytes

The namespace takes a directory block for the list of its entries. Calls of
`DentryBlock` lead from a zeroed block to the records of that list, which fit into the
block and are found there again.
-/

namespace NaiveFS

namespace DirBlock

open Dentry DentryBlock

variable {es : List Dentry} {name : Name}

/-- Calls of `DentryBlock` on a zeroed block lead to the records of these entries. -/
def Written (es : List Dentry) : Prop :=
  ∃ ops, entries ops = es ∧ Runs.run step ops Bytes.zero = some (image es)

theorem Written.nil : Written [] := ⟨[], rfl, congrArg some Holds.blank.image⟩

theorem Written.holds (h : Written es) : Holds (image es) es := by
  obtain ⟨ops, rfl, hrun⟩ := h
  exact holds_of_run hrun

theorem Written.step {op : DentryOp} {b : Block} (h : Written es)
    (hs : DirBlock.step (image es) op = some b) :
    Written (edit es op) := by
  have himage := (h.holds.step hs).image
  obtain ⟨ops, rfl, hrun⟩ := h
  refine ⟨ops ++ [op], List.foldl_concat .., ?_⟩
  rw [Runs.run_append hrun, Runs.run, hs, ← himage]
  rfl

theorem make_eq_ofName (name : EntryName) {i : Nat} (hi : i < 2 ^ 32) (mode : Nat) :
    make name.1 i mode = ofName name (UInt32.ofNat i) (UInt32.ofNat mode) := by
  have hlen := name.2.2.1
  simp only [make, ofName, UInt32.toNat_ofNat', u16, dentrySize]
  congr 1 <;> omega

theorem Written.append (h : Written es) (hname : name ≠ [] ∧ name.length ≤ 255 ∧ 0 ∉ name)
    {i : Nat} (hi : i < 2 ^ 32) (mode : Nat)
    (hroom : total es + dentrySize + name.length ≤ blockSize) :
    Written (es ++ [make name i mode]) := by
  rw [make_eq_ofName ⟨name, hname⟩ hi mode]
  have hsize := h.holds.exact.size
  have hs : DirBlock.step (image es) (.append ⟨name, hname⟩ (UInt32.ofNat i) (UInt32.ofNat mode)) =
    some _ :=
    if_pos (by rw [hsize]; exact hroom)
  exact h.step hs

theorem length_placed : ∀ (es : List Dentry) (off : Nat), (placed off es).length = es.length := by
  intro es
  induction es with
  | nil => exact fun _ => rfl
  | cons e es ih =>
    intro off
    rw [placed, List.length_cons, List.length_cons, ih]

theorem killFirst_split {e : Dentry} : ∀ {es : List Dentry}, es.find? (hasName name) = some e →
    ∃ pre e post, es = pre ++ e :: post ∧ killFirst name es = pre ++ e.kill :: post := by
  intro es
  induction es with
  | nil => intro h; cases h
  | cons a es ih =>
    intro h
    unfold Dentry.killFirst
    split
    · exact ⟨[], a, es, rfl, rfl⟩
    · rename_i ha
      rw [List.find?_cons_of_neg ha] at h
      obtain ⟨pre, e, post, rfl, hkill⟩ := ih h
      exact ⟨a :: pre, e, post, rfl, by rw [hkill]; rfl⟩

theorem Written.killFirst {e : Dentry} (h : Written es) (hf : es.find? (hasName name) = some e) :
    Written (Dentry.killFirst name es) := by
  obtain ⟨pre, e, post, rfl, hkill⟩ := killFirst_split hf
  have hk : pre.length < (placed 0 (pre ++ e :: post)).length := by simp [length_placed]
  have hs : DirBlock.step (image (pre ++ e :: post)) (.kill pre.length) =
      some (killAt (image (pre ++ e :: post)) ((placed 0 (pre ++ e :: post)).get ⟨pre.length,
      hk⟩).1) := by
    simp only [DirBlock.step, h.holds.exact.parsed, List.getElem?_eq_getElem hk]
    rfl
  have hstep := h.step hs
  rwa [edit, modify_length, ← hkill] at hstep

end DirBlock

namespace FS

open Groups DirBlock DentryBlock

variable {s s' : FS} {fuel : Nat}

def Serialised (s : FS) : Prop :=
  ∀ b, Written (s.dents b) ∧ parse (image (s.dents b)) =
    some (Dentry.placed 0 (s.dents b), Dentry.total (s.dents b))

/-- New names are C strings. -/
def CStrings : DirOp → Prop
  | .create path _ => 0 ∉ path.1.back
  | .link _ dst => 0 ∉ dst.1.back
  | .unlink _ => True

section
variable (h : ∀ b, Written (s.dents b))
include h

theorem written_update {b : Nat} {es : List Dentry} (hes : Written es) :
    ∀ c, Written (Function.update s.dents b es c) := by
  intro c
  by_cases hc : c = b
  · subst hc
    rwa [Function.update_self]
  · rw [Function.update_of_ne hc]
    exact h c

theorem dentryCreate_written {last : Option Nat} {parent i mode : Nat} {name : Name} {r : RetCode}
    (hname : name ≠ [] ∧ name.length ≤ 255 ∧ 0 ∉ name) (hi : i < 2 ^ 32)
    (hc : s.dentryCreate last parent name i mode = some (r, s')) : ∀ b, Written (s'.dents b) := by
  obtain ⟨-, b, t, hblock, rfl⟩ := dentryCreate_inv hc
  rcases hblock with ⟨-, rfl, hroom⟩ | hb
  · exact written_update h ((h b).append hname hi mode hroom)
  · obtain ⟨b', served, -, heq⟩ := allocBlock_some parent s
    rw [hb] at heq
    cases heq
    have hroom : 0 + dentrySize + name.length ≤ blockSize := by
      have := hname.2.1
      rw [blockSize_eq]
      unfold dentrySize
      omega
    simp only [Function.update_self, Function.update_idem]
    exact written_update h (Written.nil.append hname hi mode hroom)

theorem killName_written (parent : Nat) (name : Name) :
    ∀ b, Written ((s.visitInodeBlocks parent (killVisitor name) (s.dents, none)).1 b) := by
  refine visitFrom_inv (P := fun st : (Nat → List Dentry) × Option Nat => ∀ b,
    Written (st.1 b)) _ 0 false _ (fun b _ st hst => ?_) h
  unfold killVisitor
  cases hf : (st.1 b).find? (Dentry.hasName name) with
  | none => exact hst
  | some e => exact written_update (s := { s with dents := st.1 }) hst ((hst b).killFirst hf)

end

theorem Tidy.written {op : DirOp} (h : s.Tidy) (hw : ∀ b, Written (s.dents b))
    (hfew : FewGroups fuel s op) (hstr : CStrings op) (hstep : dirStep fuel s op = some s') :
    ∀ b, Written (s'.dents b) := by
  have hle := hfew s' hstep
  have hlt : ∀ {g : Groups} {i : Nat}, g.Books → g.allocated .inode i = true → i < 2 ^ 32 := by
    intro g i hg hi
    have := hg.index_lt hi
    rw [perGroup_inode] at this
    omega
  cases op with
  | create path mode =>
    obtain ⟨⟨r, t⟩, heq, rfl⟩ := Option.map_eq_some_iff.mp hstep
    rcases inodeCreate_inv heq with ⟨c, e, -, rfl, -⟩ | ⟨parent, c, i, t', -, -, hv, hne, -,
      -, ha, hdc⟩
    · exact hw
    · obtain ⟨i', g, ha', hout, hbooks⟩ :=
        allocInode_spec mode (s := { s with dcache := c }) h.clean.books
        (by rw [ha]; exact Nat.le_trans (dentryCreate_groupCount hdc) hle)
      rw [ha] at ha'
      cases ha'
      exact dentryCreate_written (by exact hw) ⟨Path.back_ne_nil hv hne, Path.back_short path,
        hstr⟩ (hlt hbooks hout.taken) hdc
  | link src dst =>
    obtain ⟨⟨r, t⟩, heq, rfl⟩ := Option.map_eq_some_iff.mp hstep
    rcases inodeLink_inv heq with ⟨c, -, rfl, -⟩ | ⟨i, parent, c, c', t', hsrc, -, -, -, hv, hne, -,
      -, -, hdc, rfl⟩
    · exact hw
    · have hi : i < 2 ^ 32 := by
        rcases getInode_cases (inodeLookup_ok h.root hsrc) with ⟨rfl, -⟩ | ⟨hi, ha⟩
        · decide
        · rw [← hi] at ha
          exact hlt h.clean.books ha
      have hwritten : ∀ b, Written (t'.dents b) :=
        dentryCreate_written (s := { s with dcache := c' }) hw
        ⟨Path.back_ne_nil hv hne, Path.back_short dst, hstr⟩ hi hdc
      exact hwritten
  | unlink path =>
    obtain ⟨⟨r, t⟩, heq, rfl⟩ := Option.map_eq_some_iff.mp hstep
    rcases inodeUnlink_cases h.root heq with ⟨c, -, rfl, -⟩ | ⟨parent, c, st, i, -, -, -, -, -, rfl,
      -, -, hdrop⟩
    · exact hw
    · rw [(dropLink_frame hdrop).1]
      exact killName_written hw _ _

/-- In every state of a run of calls on names, the entries of every directory block are
written by calls of `DentryBlock` on its bytes, fit into the block and are read back. -/
theorem blocks_serialised (fuel : Nat) (ops : List DirOp)
    (h : Runs.Guarded (dirStep fuel) (fun s op => FewGroups fuel s op ∧
      CStrings op) ops FS.format) :
    Runs.Along (dirStep fuel) Serialised ops FS.format :=
  Runs.along_of_guarded (fun s (hs : s.Tidy ∧ ∀ b, Written (s.dents b)) b => ⟨hs.2 b,
    (hs.2 b).holds.exact.parsed⟩)
    (fun _ _ _ hs hop hstep => ⟨hs.1.step hop.1 hstep, hs.1.written hs.2 hop.1 hop.2 hstep⟩)
    ops FS.format ⟨Tidy.format, fun _ => Written.nil⟩ h

theorem blocks_serialised_file : Runs.Along (dirStep 1) Serialised
    [.create ⟨.of [[102]], by decide, by decide⟩ sIfreg,
      .unlink ⟨.of [[102]], by decide, by decide⟩] FS.format :=
  blocks_serialised 1 _ (Runs.guarded_cons rfl ⟨fewGroups_of_all (by decide),
    show 0 ∉ [102] by decide⟩
    (Runs.guarded_cons rfl ⟨fewGroups_of_all (by decide), trivial⟩ trivial))

end FS

end NaiveFS
