import Mathlib.Data.List.Nodup
import NaiveFS.FileSound
import NaiveFS.Lib.Runs

/-!
# Concurrent appends

`FileStatus::write` with `append_flag` gives up the shared inode lock before it
takes the exclusive one, so appends through different handles interleave between
these two sections; the handle's own lock is held across both. The size is read
again under the exclusive lock, and a cursor refreshed before other appends is
still right where a seek uses it.
-/

namespace NaiveFS

open PointerTree FlatBytes

/-! ## The two sections -/

/-- `write` with `append_flag` up to the release of the shared lock; the value is
returned when the call ends there. -/
def beginAppend (f : File) (h : Nat) (buf : List UInt8) : Option Int × File :=
  match updCache f.ino f.store (f.cursor h) with
  | (err, c) =>
    if err ≠ 0 then (some err, f.setCursor h c)
    else if f.ino.iSize < u64 (f.ino.iSize + buf.length) then (none, f.setCursor h c)
    else
      let r := writeInPlace f c buf f.ino.iSize
      (some r.1, r.2.1.setCursor h r.2.2)

/-- The section under the exclusive lock. -/
def finishAppend (f : File) (h : Nat) (buf : List UInt8) : Option (Int × File) :=
  (writeExtend f (f.cursor h) buf f.ino.iSize).map fun (r, f, c) => (r, f.setCursor h c)

/-- A file with the appends that are between their sections, and those that have
returned, in the order of their second section. -/
structure Appends where
  file : File
  pending : List (Nat × List UInt8)
  log : List (List UInt8 × Int)

inductive AppendOp where
  | openHandle
  | start (h : Nat) (buf : List UInt8)
  | finish (h : Nat)

/-- One section of one append. A handle is locked by its pending append, and
`fuse_write` returns before an empty one. -/
def appendStep (st : Appends) : AppendOp → Option Appends
  | .openHandle => some { st with file := st.file.openHandle }
  | .start h buf =>
    if h < st.file.fds.length ∧ buf ≠ [] ∧ ∀ e ∈ st.pending, e.1 ≠ h then
      match beginAppend st.file h buf with
      | (some r, f) => some { st with file := f, log := st.log ++ [(buf, r)] }
      | (none, f) => some { st with file := f, pending := (h, buf) :: st.pending }
    else none
  | .finish h =>
    match st.pending.find? fun e => e.1 == h with
    | none => none
    | some (_, buf) =>
      (finishAppend st.file h buf).map fun (r, f) =>
        { file := f, pending := st.pending.eraseP fun e => e.1 == h, log := st.log ++ [(buf, r)] }

def Appends.create (mode : Nat) (s : BlockStore) : Appends := ⟨.create mode s, [], []⟩

def File.contents (f : File) : List UInt8 := (List.range f.ino.iSize).map f.byteAt

/-! ## Both sections together -/

section Sequential

/-- What happens to the cursors of a file's handles: nothing, or `upd_all`. -/
def Flags (g : List Cursor → List Cursor) : Prop :=
  g = id ∨ g = List.map fun c => { c with cacheUpdateFlag := true }

theorem Flags.set {g : List Cursor → List Cursor} (hg : Flags g) (l : List Cursor) (h : Nat)
    (c c' : Cursor) :
    (g (l.set h c)).set h c' = (g l).set h c' := by
  rcases hg with rfl | rfl
  · simp
  · simp [List.map_set]

theorem extendLoop_fds :
    ∀ (fuel : Nat) (f : File) (c : Cursor) (offset ret : Nat) (buf : List UInt8),
    ∃ (r : Int) (f' : File) (c' : Cursor) (g : List Cursor → List Cursor), Flags g ∧
      ∀ l, extendLoop fuel { f with fds := l } c offset ret buf =
      (r, { f' with fds := g l }, c') := by
  intro fuel
  induction fuel with
  | zero =>
    intro f c offset ret buf
    exact ⟨_, f, _, _, Or.inr rfl, fun l => rfl⟩
  | succ fuel ih =>
    intro f c offset ret buf
    simp only [extendLoop]
    by_cases hz : buf.length = 0
    · exact ⟨_, f, _, _, Or.inr rfl, fun l => by rw [if_pos hz]; rfl⟩
    simp only [if_neg hz]
    cases (if f.ino.iSize ≤ offset then allocBlock f.ino f.store else (some 0, f.ino, f.store)) with
    | mk b q =>
      cases b with
      | none => exact ⟨_, { f with ino := q.1, store := q.2 }, _, id, Or.inl rfl, fun l => rfl⟩
      | some b =>
        simp only
        cases nextBlock q.1 q.2 c with
        | mk err c₂ =>
          by_cases herr : err ≠ 0
          · exact ⟨_, { f with ino := q.1, store := q.2 }, _, id, Or.inl rfl,
              fun l => by simp only [if_pos herr]; rfl⟩
          simp only [if_neg herr, File.putBytes]
          cases q.2.data c₂.blockId with
          | none => exact ⟨_, { f with ino := q.1, store := q.2 }, _, id, Or.inl rfl, fun l => rfl⟩
          | some b =>
            let csz := min buf.length blockSize
            let s' := q.2.poke c₂.blockId fun b => b.splice 0 (buf.take csz)
            exact ih (File.growTo ⟨q.1, s', f.fds⟩ (u64 (offset + csz))) c₂ (u64 (offset + csz))
              (ret + csz) (buf.drop csz)

theorem writeExtend_fds (f : File) (c : Cursor) (buf : List UInt8) (offset : Nat) :
    (∀ l, writeExtend { f with fds := l } c buf offset = none) ∨
    ∃ (r : Int) (f' : File) (c' : Cursor) (g : List Cursor → List Cursor), Flags g ∧
      ∀ l, writeExtend { f with fds := l } c buf offset = some (r, { f' with fds := g l }, c') := by
  simp only [writeExtend]
  cases allocBefore offset f.ino f.store with
  | none => exact Or.inl fun l => rfl
  | some q =>
    obtain ⟨b, ino, s⟩ := q
    right
    cases b with
    | false => exact ⟨_, { f with ino := ino, store := s }, _, id, Or.inl rfl, fun l => rfl⟩
    | true =>
      simp only
      cases seek ino s c (u32 (offset / blockSize)) with
      | mk err c₂ =>
        by_cases herr : err ≠ 0
        · exact ⟨_, { f with ino := ino, store := s }, _, id, Or.inl rfl,
            fun l => by simp only [if_pos herr]; rfl⟩
        simp only [if_neg herr, File.putBytes]
        cases s.data c₂.blockId with
        | none => exact ⟨_, { f with ino := ino, store := s }, _, id, Or.inl rfl, fun l => rfl⟩
        | some b =>
          obtain ⟨r, f', c', g, hg, heq⟩ := extendLoop_fds buf.length
            (File.growTo ⟨ino, _,
              f.fds⟩ (u64 (offset + min buf.length (blockSize - offset % blockSize)))) c₂ _ _ _
          exact ⟨r, f', c', g, hg, fun l => congrArg some (heq l)⟩

/-- Without anything in between, the two sections are one call of `write`. -/
theorem write_append_eq {f : File} {h : Nat} (hh : h < f.fds.length) (buf : List UInt8)
    (offset : Nat) :
    write f h buf offset true =
      match beginAppend f h buf with
      | (some r, f) => some (r, f)
      | (none, f) => finishAppend f h buf := by
  simp only [write, beginAppend, ite_true]
  cases updCache f.ino f.store (f.cursor h) with
  | mk err c =>
    by_cases herr : err ≠ 0
    · simp only [if_pos herr]
    simp only [if_neg herr]
    by_cases hext : f.ino.iSize < u64 (f.ino.iSize + buf.length)
    · simp only [if_pos hext, finishAppend]
      have hc : (f.setCursor h c).cursor h = c := by
        simp [File.cursor, File.setCursor, hh]
      rw [hc]
      rcases writeExtend_fds f c buf f.ino.iSize with hnone | ⟨r, f', c', g, hg, heq⟩
      · rw [show writeExtend f c buf f.ino.iSize = none from hnone f.fds,
          show writeExtend (f.setCursor h c) c buf (f.setCursor h c).ino.iSize =
          none from hnone (f.fds.set h c)]
        rfl
      · rw [show writeExtend f c buf f.ino.iSize = _ from heq f.fds,
          show writeExtend (f.setCursor h c) c buf (f.setCursor h c).ino.iSize =
          _ from heq (f.fds.set h c)]
        simp only [Option.map_some, File.setCursor, hg.set]
    · simp only [if_neg hext]

end Sequential

/-! ## Any interleaving -/

/-- The length of the file once every pending append is done. -/
def Appends.load (st : Appends) : Nat :=
  st.file.ino.iSize + (st.pending.map fun e => e.2.length).sum

def AppendOp.size : AppendOp → Nat
  | .start _ buf => buf.length
  | _ => 0

def AppendOp.buffer? : AppendOp → Option (List UInt8)
  | .start _ buf => some buf
  | _ => none

structure AppendsOk (st : Appends) (n : Nat) (loc : Pos → Nat) : Prop where
  file : FileOk st.file n loc
  keys : (st.pending.map Prod.fst).Nodup
  ready : ∀ e ∈ st.pending, e.2 ≠ [] ∧ e.1 < st.file.fds.length ∧ Ready loc n (st.file.cursor e.1)

/-- What a stretch of a run from `st` to `st'` adds. The buffers it writes are, with
those left pending, the ones that were pending or are started in it. -/
structure Appended (st : Appends) (started : List (List UInt8)) (st' : Appends)
  (new : List (List UInt8 × Int)) : Prop where
  log : st'.log = st.log ++ new
  contents : st'.file.contents = st.file.contents ++ (new.map Prod.fst).flatten
  results : ∀ e ∈ new, e.2 = toInt32 e.1.length
  once : (new.map Prod.fst ++ st'.pending.map Prod.snd).Perm (started ++ st.pending.map Prod.snd)

theorem Appended.trans {st st' st'' : Appends} {b b' : List (List UInt8)}
    {new new' : List (List UInt8 × Int)} (h : Appended st b st' new)
    (h' : Appended st' b' st'' new') : Appended st (b ++ b') st'' (new ++ new') where
  log := by rw [h'.log, h.log, List.append_assoc]
  contents := by
    rw [h'.contents, h.contents, List.map_append, List.flatten_append, List.append_assoc]
  results e he := (List.mem_append.mp he).elim (h.results e) (h'.results e)
  once := by
    rw [List.map_append, List.append_assoc]
    refine (h'.once.append_left _).trans ?_
    rw [← List.append_assoc]
    refine (List.perm_append_comm.append_right _).trans ?_
    rw [List.append_assoc]
    refine (h.once.append_left b').trans ?_
    rw [← List.append_assoc]
    exact List.perm_append_comm.append_right _

theorem contents_of_patch {f f' : File} {buf : List UInt8}
    (hsz : f'.ino.iSize = f.ino.iSize + buf.length)
    (hbytes : f'.byteAt = patch f.byteAt f.ino.iSize buf) : f'.contents = f.contents ++ buf := by
  apply List.ext_getElem
  · simp [File.contents, hsz]
  · intro i h₁ h₂
    simp only [File.contents, List.length_map, List.length_range] at h₁
    rw [List.getElem_append]
    simp only [File.contents, List.getElem_map, List.getElem_range, List.length_map,
      List.length_range, hbytes]
    by_cases hi : i < f.ino.iSize
    · rw [dif_pos hi, patch_out _ (Or.inl hi)]
    · rw [dif_neg hi, patch_in _ (by omega) (by omega), List.getD_eq_getElem]

section
variable {st st' : Appends} {n : Nat} {loc : Pos → Nat} {buf : List UInt8}

theorem AppendsOk.open (ok : AppendsOk st n loc) :
    AppendsOk { st with file := st.file.openHandle } n loc where
  file := ok.file.openHandle
  keys := ok.keys
  ready e he := by
    obtain ⟨hne, hlt, hready⟩ := ok.ready e he
    have hcur : st.file.openHandle.cursor e.1 = st.file.cursor e.1 := by
      simp only [File.cursor, File.openHandle, List.getD_eq_getElem?_getD,
        List.getElem?_append_left hlt]
    refine ⟨hne, ?_, hcur ▸ hready⟩
    simp only [File.openHandle, List.length_append]
    omega

theorem cursor_setCursor_of_ne {f : File} {h h' : Nat} (hne : h' ≠ h) (c : Cursor) :
    (f.setCursor h c).cursor h' = f.cursor h' := by
  simp only [File.cursor, File.setCursor, List.getD_eq_getElem?_getD, List.getElem?_set_ne hne.symm]

theorem cursor_setCursor_self {f : File} {h : Nat} (hh : h < f.fds.length) (c : Cursor) :
    (f.setCursor h c).cursor h = c := by
  simp [File.cursor, File.setCursor, hh]

theorem AppendsOk.begin (ok : AppendsOk st n loc) {h : Nat} (hne : buf ≠ [])
    (hlen : st.file.ino.iSize + buf.length ≤ 2 ^ 32 - 4096) :
    ∃ c, beginAppend st.file h buf = (none, st.file.setCursor h c) ∧ Ready loc n c ∧
      CursorOk loc n c := by
  obtain ⟨c, hupd, hready, hc⟩ := updCache_ready ok.file h
  have hpos := List.length_pos_iff.mpr hne
  refine ⟨c, ?_, hready, hc⟩
  rw [beginAppend, hupd]
  simp only [ne_eq, not_true_eq_false, if_false]
  rw [u64_of_lt (by omega), if_pos (by omega)]

theorem AppendsOk.start (ok : AppendsOk st n loc) {h : Nat} {c : Cursor}
    (hh : h < st.file.fds.length) (hne : buf ≠ []) (hfree : ∀ e ∈ st.pending, e.1 ≠ h)
    (hready : Ready loc n c) (hc : CursorOk loc n c) :
    AppendsOk { st with file := st.file.setCursor h c, pending := (h, buf) :: st.pending }
      n loc where
  file := ok.file.setCursor hc h
  keys := by
    rw [List.map_cons, List.nodup_cons]
    refine ⟨fun hm => ?_, ok.keys⟩
    obtain ⟨e, he, heq⟩ := List.mem_map.mp hm
    exact hfree e he heq
  ready e he := by
    have hlen : ∀ k, k < st.file.fds.length → k < (st.file.setCursor h c).fds.length := by
      intro k hk
      simpa [File.setCursor] using hk
    rcases List.mem_cons.mp he with rfl | he
    · exact ⟨hne, hlen _ hh, (cursor_setCursor_self hh c).symm ▸ hready⟩
    · obtain ⟨hne, hlt, hready⟩ := ok.ready e he
      exact ⟨hne, hlen _ hlt, (cursor_setCursor_of_ne (hfree e he) c).symm ▸ hready⟩

theorem AppendsOk.finish (ok : AppendsOk st n loc) {h : Nat} {l₁ l₂ : List (Nat × List UInt8)}
    (hl : st.pending = l₁ ++ (h, buf) :: l₂) (hload : st.load ≤ 2 ^ 32 - 4096) :
    ∃ r f, finishAppend st.file h buf = some (r, f) ∧ (f.store.free ≠ [] → r = toInt32 buf.length ∧
      f.ino.iSize = st.file.ino.iSize + buf.length ∧ f.contents = st.file.contents ++ buf ∧
      ∀ log, ∃ n' loc', AppendsOk ⟨f, l₁ ++ l₂, log⟩ n' loc') := by
  obtain ⟨hne, hlt, hready⟩ := ok.ready (h, buf) (by simp [hl])
  have hpos := List.length_pos_iff.mpr hne
  have hend : st.file.ino.iSize + buf.length ≤ 2 ^ 32 - 4096 := by
    simp only [Appends.load, hl, List.map_append, List.sum_append, List.map_cons,
      List.sum_cons] at hload
    omega
  have hkeys := ok.keys
  rw [hl, List.map_append, List.map_cons, List.nodup_middle, List.nodup_cons] at hkeys
  obtain ⟨r, f', c', hw, hspec⟩ := extend_spec ok.file h st.file.ino.iSize hready hne hend
    (Nat.lt_add_of_pos_right hpos) (Or.inl (Nat.le_refl _))
  refine ⟨r, f'.setCursor h c', by rw [finishAppend, hw]; rfl, fun hfree => ?_⟩
  obtain ⟨hr, hsz, hfds, loc', n', hok, hbytes, hev⟩ := hspec hfree
  refine ⟨hr, hsz, contents_of_patch hsz hbytes, fun log => ⟨n', loc', hok, ?_, fun e' he' => ?_⟩⟩
  · rw [List.map_append]
    exact hkeys.2
  · -- another handle's cursor has only been flagged
    have hkey : e'.1 ≠ h := by
      intro heq
      apply hkeys.1
      have hmem : e'.1 ∈ (l₁ ++ l₂).map Prod.fst := List.mem_map_of_mem he'
      rwa [List.map_append, heq] at hmem
    obtain ⟨hne₂, hlt₂, hready₂⟩ := ok.ready e' (by
      rw [hl]
      simp only [List.mem_append, List.mem_cons] at he' ⊢
      exact he'.imp_right Or.inr)
    refine ⟨hne₂, by simpa [File.setCursor, hfds, File.updAll] using hlt₂, ?_⟩
    rw [cursor_setCursor_of_ne hkey]
    have hcur : f'.cursor e'.1 = { st.file.cursor e'.1 with cacheUpdateFlag := true } := by
      simp [File.cursor, hfds, File.updAll, List.getD_eq_getElem?_getD,
        List.getElem?_eq_getElem hlt₂]
    rw [hcur]
    have hgrown := hready₂.grow ok.file.data.tree hev.le hev.old
    exact ⟨hgrown.1, fun hp => (hgrown.2 hp).of_flag true⟩

theorem find_pending {l : List (Nat × List UInt8)} {h : Nat} {e : Nat × List UInt8}
    (hf : (l.find? fun e => e.1 == h) = some e) :
    ∃ l₁ l₂, l = l₁ ++ (h, e.2) :: l₂ ∧ (l.eraseP fun e => e.1 == h) = l₁ ++ l₂ := by
  obtain ⟨hp, l₁, l₂, rfl, hno⟩ := List.find?_eq_some_iff_append.mp hf
  have hkey : e.1 = h := by simpa using hp
  refine ⟨l₁, l₂, by rw [← hkey], ?_⟩
  rw [List.eraseP_append_right _ (by simpa using hno)]
  simp [hkey]

theorem AppendsOk.step (ok : AppendsOk st n loc) {op : AppendOp} (h : appendStep st op = some st')
    (hload : st.load + op.size ≤ 2 ^ 32 - 4096) (hroom : st'.file.store.free ≠ []) :
    (∃ n' loc', AppendsOk st' n' loc') ∧ st'.load = st.load + op.size ∧
      ∃ new, Appended st op.buffer?.toList st' new := by
  cases op with
  | openHandle =>
    cases h
    refine ⟨⟨n, loc, ok.open⟩, rfl, [], ?_⟩
    exact ⟨by simp, by simp [File.contents]; rfl, by simp, by simp [AppendOp.buffer?]⟩
  | start k buf =>
    simp only [appendStep] at h
    by_cases hen : k < st.file.fds.length ∧ buf ≠ [] ∧ ∀ e ∈ st.pending, e.1 ≠ k
    · obtain ⟨hh, hne, hfree⟩ := hen
      have hlen : st.file.ino.iSize + buf.length ≤ 2 ^ 32 - 4096 := by
        simp only [Appends.load, AppendOp.size] at hload
        omega
      obtain ⟨c, hbegin, hready, hc⟩ := ok.begin hne hlen
      rw [if_pos ⟨hh, hne, hfree⟩, hbegin] at h
      cases h
      refine ⟨⟨n, loc, ok.start hh hne hfree hready hc⟩, ?_, [], ?_⟩
      · simp only [Appends.load, AppendOp.size, List.map_cons, List.sum_cons, File.setCursor]
        omega
      · exact ⟨by simp, by simp [File.contents]; rfl, by simp, by simp [AppendOp.buffer?]⟩
    · rw [if_neg hen] at h
      cases h
  | finish k =>
    simp only [appendStep] at h
    cases hf : st.pending.find? fun e => e.1 == k with
    | none => simp [hf] at h
    | some e =>
      obtain ⟨l₁, l₂, hl, herase⟩ := find_pending hf
      obtain ⟨r, f, hrun, hspec⟩ := ok.finish hl hload
      simp only [hf, hrun, herase, Option.map_some, Option.some.injEq] at h
      subst h
      obtain ⟨hr, hsz, hcont, hok⟩ := hspec hroom
      refine ⟨hok _, ?_, [(e.2, r)], rfl, by simpa using hcont, by simpa using hr, ?_⟩
      · simp only [Appends.load, AppendOp.size, hsz, hl, List.map_append, List.sum_append,
          List.map_cons, List.sum_cons]
        omega
      · simp only [hl, AppendOp.buffer?, List.map_append, List.map_cons, List.map_nil,
          Option.toList_none, List.nil_append, List.singleton_append]
        exact List.perm_middle.symm

end

def Room (st : Appends) : Prop := st.file.store.free ≠ []

instance : DecidablePred Room := fun st => inferInstanceAs (Decidable (st.file.store.free ≠ []))

theorem appends_run :
    ∀ (ops : List AppendOp) {st st' : Appends} {n : Nat} {loc : Pos → Nat}, AppendsOk st n loc →
    st.load + (ops.map AppendOp.size).sum ≤ 2 ^ 32 - 4096 → Runs.Along appendStep Room ops st →
    Runs.run appendStep ops st = some st' →
    (∃ n' loc', AppendsOk st' n' loc') ∧ st'.load = st.load + (ops.map AppendOp.size).sum ∧
      ∃ new, Appended st (ops.filterMap AppendOp.buffer?) st' new
  | [], st, st', n, loc, ok, _, _, hrun => by
    cases hrun
    exact ⟨⟨n, loc, ok⟩, rfl, [], by simp, by simp, by simp, by simp⟩
  | op :: ops, st, st', n, loc, ok, hload, hroom, hrun => by
    obtain ⟨t, ht, hrun⟩ := Option.bind_eq_some_iff.mp hrun
    rw [List.map_cons, List.sum_cons] at hload
    have hrest := hroom.2 t ht
    obtain ⟨⟨n₁, loc₁, ok₁⟩, hload₁, new₁, h₁⟩ := ok.step ht (by omega) hrest.head
    obtain ⟨ok₂, hload₂, new₂, h₂⟩ := appends_run ops ok₁ (by omega) hrest hrun
    refine ⟨ok₂, by rw [hload₂, hload₁, List.map_cons, List.sum_cons, Nat.add_assoc],
      new₁ ++ new₂, ?_⟩
    have hb : (op :: ops).filterMap AppendOp.buffer? =
      op.buffer?.toList ++ ops.filterMap AppendOp.buffer? := by
      cases hop : op.buffer? <;> simp [hop]
    rw [hb]
    exact h₁.trans h₂

theorem AppendsOk.create (mode : Nat) (s : BlockStore) : AppendsOk (.create mode s) 0 fun _ => 0 :=
  ⟨FileOk.create mode s, by simp [Appends.create], by simp [Appends.create]⟩

/-- A file built by appends, and then any interleaving of further ones: the buffers
stand behind the old contents in the order of their second sections, each one
whole and once, and no pending append is stuck. -/
theorem appends_serialize {mode : Nat} {s : BlockStore} {ops₁ ops₂ : List AppendOp}
    {st₀ st : Appends} (h₁ : Runs.run appendStep ops₁ (.create mode s) = some st₀)
    (h₂ : Runs.run appendStep ops₂ st₀ = some st)
    (hlen : ((ops₁ ++ ops₂).map AppendOp.size).sum < 2 ^ 32 - 4096)
    (hroom : Runs.Along appendStep Room (ops₁ ++ ops₂) (.create mode s)) :
    (∃ new, st.log = st₀.log ++ new ∧
      st.file.contents = st₀.file.contents ++ (new.map Prod.fst).flatten ∧
      (new.map Prod.fst ++ st.pending.map Prod.snd).Perm
      (ops₂.filterMap AppendOp.buffer? ++ st₀.pending.map Prod.snd) ∧
      ∀ e ∈ new, e.2 = toInt32 e.1.length ∧ (e.1.length < 2 ^ 31 → e.2 = e.1.length)) ∧
    ∀ e ∈ st.pending, ∃ r f, finishAppend st.file e.1 e.2 = some (r, f) := by
  rw [List.map_append, List.sum_append] at hlen
  have hload₀ : (Appends.create mode s).load = 0 := rfl
  obtain ⟨hroom₁, hroom₂⟩ := hroom.append
  obtain ⟨⟨n₀, loc₀, ok₀⟩, hload₁, -⟩ :=
    appends_run ops₁ (AppendsOk.create mode s) (by omega) hroom₁ h₁
  obtain ⟨⟨n, loc, ok⟩, hload, new, happ⟩ := appends_run ops₂ ok₀ (by omega) (hroom₂ st₀ h₁) h₂
  refine ⟨⟨new, happ.log, happ.contents, happ.once, fun e he => ?_⟩, fun e he => ?_⟩
  · have hr := happ.results e he
    exact ⟨hr, fun hlt => hr.trans (toInt32_of_lt hlt)⟩
  · obtain ⟨l₁, l₂, hl⟩ := List.append_of_mem he
    obtain ⟨r, f, hrun, -⟩ := ok.finish hl (by omega)
    exact ⟨r, f, hrun⟩

/-- Two handles: the append that begins first is the second to get the lock. -/
theorem appends_serialize_two : ∃ st₀ st,
    Runs.run appendStep [.openHandle, .openHandle]
      (.create 0 (.blank [5, 6] (by decide) (by decide))) = some st₀ ∧
    Runs.run appendStep [.start 0 [1], .start 1 [2, 3], .finish 1, .finish 0] st₀ = some st ∧
    st.file.contents = [2, 3, 1] := by
  have hlog : ((Runs.run appendStep [.openHandle,
    .openHandle] (.create 0 (.blank [5, 6] (by decide) (by decide)))).bind
      fun st₀ => (Runs.run appendStep [.start 0 [1], .start 1 [2, 3], .finish 1, .finish 0] st₀).map
        fun st => (st₀.log, st₀.file.ino.iSize, st.log.map Prod.fst)) =
        some ([], 0, [[2, 3], [1]]) := by decide
  obtain ⟨st₀, h₁, hlog⟩ := Option.bind_eq_some_iff.mp hlog
  obtain ⟨st, h₂, hlog⟩ := Option.map_eq_some_iff.mp hlog
  simp only [Prod.mk.injEq] at hlog
  refine ⟨st₀, st, h₁, h₂, ?_⟩
  obtain ⟨⟨new, hnew, hcont, -⟩, -⟩ := appends_serialize h₁ h₂ (by decide) (by decide)
  rw [hlog.1, List.nil_append] at hnew
  rw [hcont, ← hnew, hlog.2.2, File.contents, hlog.2.1]
  rfl

theorem append_once {buf : List UInt8} (hne : buf ≠ []) (hlen : buf.length ≤ 2 ^ 32 - 4096)
    (s : BlockStore) :
    ∃ st r, Runs.run appendStep [.openHandle, .start 0 buf, .finish 0] (.create 0 s) = some st ∧
      st.log = [(buf, r)] ∧ r < 2 ^ 31 := by
  have ok := (AppendsOk.create 0 s).open
  obtain ⟨c, hbegin, hready, hc⟩ := ok.begin (h := 0) hne (by
    show 0 + buf.length ≤ _
    omega)
  have ok₁ := ok.start (h := 0) Nat.one_pos hne (by simp [Appends.create]) hready hc
  obtain ⟨r, f, hfin, -⟩ := ok₁.finish (show _ = [] ++ (0, buf) :: [] from rfl) (by
    show 0 + (buf.length + 0) ≤ _
    omega)
  have hopen : appendStep (.create 0 s) .openHandle =
      some { Appends.create 0 s with file := (Appends.create 0 s).file.openHandle } := rfl
  have hstart : appendStep { Appends.create 0 s with file := (Appends.create 0 s).file.openHandle }
    (.start 0 buf) =
      some ⟨(File.create 0 s).openHandle.setCursor 0 c, [(0, buf)], []⟩ := by
    simp only [appendStep, hbegin]
    exact if_pos ⟨Nat.one_pos, hne, by simp [Appends.create]⟩
  have hfinish : appendStep ⟨(File.create 0 s).openHandle.setCursor 0 c, [(0, buf)],
    []⟩ (.finish 0) =
      some ⟨f, [], [(buf, r)]⟩ := by
    simp [appendStep, show finishAppend ((File.create 0 s).openHandle.setCursor 0 c) 0 buf =
      some (r, f) from hfin]
  refine ⟨⟨f, [], [(buf, r)]⟩, r, by simp only [Runs.run, hopen, hstart, hfinish, Option.bind_some],
    rfl, ?_⟩
  obtain ⟨q, hq, hr⟩ := Option.map_eq_some_iff.mp hfin
  simp only [Prod.mk.injEq] at hr
  rw [← hr.1]
  exact writeExtend_lt hq

/-- An append of 2^31 bytes on a disk with 2^20 free blocks, which no `int` can report. -/
theorem append_result_int : ∃ s st r, s.free = List.range (2 ^ 20) ∧
    Runs.run appendStep [.openHandle, .start 0 (List.replicate (2 ^ 31) 0),
      .finish 0] (.create 0 s) = some st ∧
    st.log = [(List.replicate (2 ^ 31) 0, r)] ∧ r ≠ 2 ^ 31 := by
  have hlen : (List.replicate (2 ^ 31) (0 : UInt8)).length = 2 ^ 31 := List.length_replicate
  have hne : List.replicate (2 ^ 31) (0 : UInt8) ≠ [] := by
    intro h
    rw [h] at hlen
    cases hlen
  have hlt : ∀ i ∈ List.range (2 ^ 20), i < 2 ^ 32 := fun i hi => by
    have := List.mem_range.mp hi
    omega
  obtain ⟨st, r, hrun, hlog, hr⟩ :=
    append_once hne (by rw [hlen]; decide) (.blank (List.range (2 ^ 20)) List.nodup_range hlt)
  have hfree : ∀ l hnd hlt, (BlockStore.blank l hnd hlt).free = l := fun _ _ _ => rfl
  exact ⟨_, st, r, hfree _ _ _, hrun, hlog, Int.ne_of_lt hr⟩

end NaiveFS
