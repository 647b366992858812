import NaiveFS.BlockCache
import NaiveFS.Namespace
import NaiveFS.Lib.Runs

/-!
# The bytes of a directory block

`DentryBlock` runs over the records of a block until a record length of 0 or the
last bytes. A block that has only been appended to, and whose entries have only
been cleared, holds their records one after the other and zeros behind them.
-/

namespace NaiveFS

namespace DentryBlock

/-- The entry at `off`, with all bytes of its record for the name; `none` if its header
is not in the block. -/
def dentryAt (b : Block) (off : Nat) : Option Dentry :=
  if off + dentrySize > blockSize then none
  else some {
    inode := (b.byte off).toNat + 256 * (b.byte (off + 1)).toNat + 65536 *
    (b.byte (off + 2)).toNat +
      16777216 * (b.byte (off + 3)).toNat
    recLen := recLen b off
    nameLen := (b.byte (off + 6)).toNat
    fileType := (b.byte (off + 7)).toNat
    name := (List.range (recLen b off - dentrySize)).map fun k => b.byte (off + dentrySize + k) }

/-- The constructor: the entries with their offsets, and the size. -/
def parseFrom (b : Block) : Nat → Nat → Option (List (Nat × Dentry) × Nat)
  | 0, _ => none
  | n + 1, size =>
    match dentryAt b size with
    | none => none
    | some e =>
      if e.recLen = 0 then some ([], size)
      else if size + e.recLen + dentrySize > blockSize then some ([(size, e)], size + e.recLen)
      else (parseFrom b n (size + e.recLen)).map fun r => ((size, e) :: r.1, r.2)

def parse (b : Block) : Option (List (Nat × Dentry) × Nat) := parseFrom b blockSize 0

/-- `dentry->name_len = 0`. -/
def killAt (b : Block) (off : Nat) : Block := b.splice (off + 6) [0]

theorem dentryAt_recLen {b : Block} {off : Nat} {e : Dentry} (h : dentryAt b off = some e) :
    e.recLen = recLen b off := by
  unfold dentryAt at h
  split at h
  · cases h
  · cases h
    rfl

theorem sizeFrom_eq_of_parseFrom {b : Block} : ∀ {n off size : Nat} {l : List (Nat × Dentry)},
    parseFrom b n off = some (l, size) → sizeFrom b n off = size := by
  intro n
  induction n with
  | zero =>
    intro off size l h
    cases h
  | succ n ih =>
    intro off size l h
    unfold parseFrom at h
    cases he : dentryAt b off with
    | none => simp [he] at h
    | some e =>
      simp only [he, dentryAt_recLen he] at h
      unfold sizeFrom
      split at h
      · rename_i hz
        cases h
        rw [if_pos hz]
      · rename_i hz
        rw [if_neg hz]
        split at h
        · rename_i hend
          cases h
          rw [if_pos hend]
        · rename_i hend
          rw [if_neg hend]
          obtain ⟨⟨l', size'⟩, hl', heq⟩ := Option.map_eq_some_iff.mp h
          cases heq
          exact ih hl'

end DentryBlock

/-! ## Records -/

attribute [ext] Dentry

namespace Dentry

def record (e : Dentry) : List UInt8 :=
  Bytes.leBytes e.inode ++
    [UInt8.ofNat e.recLen, UInt8.ofNat (e.recLen / 256), UInt8.ofNat e.nameLen,
    UInt8.ofNat e.fileType] ++ e.name

structure Fits (e : Dentry) : Prop where
  inode : e.inode < 2 ^ 32
  recLen : e.recLen = dentrySize + e.name.length
  name : e.name.length ≤ 255
  nameLen : e.nameLen < 256
  fileType : e.fileType < 256

variable {e : Dentry} {es : List Dentry}

theorem Fits.kill (h : e.Fits) : e.kill.Fits :=
  ⟨h.inode, h.recLen, h.name, Nat.zero_lt_succ _, h.fileType⟩

theorem Fits.length_record (h : e.Fits) : e.record.length = e.recLen := by
  simp [record, Bytes.leBytes, h.recLen, dentrySize]
  omega

/-- The entries with the offsets at which their records start. -/
def placed : Nat → List Dentry → List (Nat × Dentry)
  | _, [] => []
  | off, e :: es => (off, e) :: placed (off + e.recLen) es

def total (es : List Dentry) : Nat := (es.map recLen).sum

def records (es : List Dentry) : List UInt8 := es.flatMap record

@[simp] theorem total_cons (e : Dentry) (es : List Dentry) :
    total (e :: es) = e.recLen + total es := by simp [total]

@[simp] theorem total_append (es fs : List Dentry) : total (es ++ fs) = total es + total fs :=
  by simp [total]

@[simp] theorem records_cons (e : Dentry) (es : List Dentry) :
    records (e :: es) = e.record ++ records es := by simp [records]

@[simp] theorem records_append (es fs : List Dentry) :
    records (es ++ fs) = records es ++ records fs := by simp [records]

theorem length_records :
    ∀ {es : List Dentry}, (∀ e ∈ es, e.Fits) → (records es).length = total es := by
  intro es
  induction es with
  | nil => exact fun _ => rfl
  | cons e es ih =>
    intro h
    rw [records_cons, total_cons, List.length_append, (h e List.mem_cons_self).length_record,
      ih fun e' he' => h e' (List.mem_cons_of_mem e he')]

theorem length_le_total : ∀ {es : List Dentry}, (∀ e ∈ es, e.Fits) → 8 * es.length ≤ total es := by
  intro es
  induction es with
  | nil => simp
  | cons e es ih =>
    intro h
    have hrec := (h e List.mem_cons_self).recLen
    have hrest := ih fun e' he' => h e' (List.mem_cons_of_mem e he')
    unfold dentrySize at hrec
    rw [total_cons, List.length_cons]
    omega

end Dentry

namespace DentryBlock

open Dentry Bytes

variable {e : Dentry} {es : List Dentry}

/-- The block with the records of these entries. -/
def image (es : List Dentry) : Block := ofList (records es)

theorem recLen_record {a c : List UInt8} (he : e.Fits)
    (hl : (a ++ e.record ++ c).length ≤ blockSize) :
    recLen (ofList (a ++ e.record ++ c)) a.length = e.recLen := by
  have hlen := he.length_record
  have hrec := he.recLen
  have hname := he.name
  unfold dentrySize at hrec
  unfold recLen
  rw [byte_ofList_mid hl (by omega), byte_ofList_mid hl (by omega)]
  simp [record, leBytes]
  omega

theorem dentryAt_record {a c : List UInt8} (he : e.Fits)
    (hl : (a ++ e.record ++ c).length ≤ blockSize) :
    dentryAt (ofList (a ++ e.record ++ c)) a.length = some e := by
  have hlen := he.length_record
  have hrec := he.recLen
  unfold dentrySize at hrec
  have hbyte := fun j hj => byte_ofList_mid (j := j) hl hj
  have hroom : ¬ a.length + dentrySize > blockSize := by
    simp only [List.length_append] at hl
    unfold dentrySize
    omega
  unfold dentryAt
  rw [if_neg hroom, recLen_record he hl]
  congr 1
  have h0 := hbyte 0 (by omega)
  rw [Nat.add_zero] at h0
  have hinode := he.inode
  have hnameLen := he.nameLen
  have hfileType := he.fileType
  ext1
  · simp only [h0, hbyte 1 (by omega), hbyte 2 (by omega), hbyte 3 (by omega)]
    simp [record, leBytes]
    omega
  · rfl
  · simp only [hbyte 6 (by omega)]
    simp [record, leBytes]
    omega
  · simp only [hbyte 7 (by omega)]
    simp [record, leBytes]
    omega
  · apply List.ext_getElem
    · simp [he.recLen]
    intro k hk _
    have hk' : k < e.name.length := by simpa [he.recLen] using hk
    simp only [List.getElem_map, List.getElem_range]
    rw [Nat.add_assoc, hbyte (dentrySize + k) (by unfold dentrySize; omega)]
    unfold record
    rw [List.getD_append_right _ _ _ _ (by simp [leBytes, dentrySize])]
    simp [leBytes, dentrySize, hk']

theorem recLen_end (h : ∀ e ∈ es, e.Fits) (hle : total es ≤ blockSize) :
    recLen (image es) (total es) = 0 := by
  have hlen := length_records h
  unfold recLen image
  rw [byte_ofList (by omega), byte_ofList (by omega), List.getD_eq_default _ _ (by omega),
    List.getD_eq_default _ _ (by omega)]
  rfl

theorem parseFrom_image :
    ∀ {es pre : List Dentry} {n : Nat}, (∀ e ∈ pre ++ es, e.Fits) → total (pre ++ es) ≤ blockSize →
    total pre + dentrySize ≤ blockSize → es.length < n →
    parseFrom (image (pre ++ es)) n (total pre) =
      some (placed (total pre) es, total (pre ++ es)) := by
  intro es
  induction es with
  | nil =>
    intro pre n h hle hroom hn
    obtain ⟨n, rfl⟩ := Nat.exists_eq_add_one_of_ne_zero (Nat.ne_of_gt hn)
    rw [List.append_nil] at h hle ⊢
    unfold parseFrom dentryAt
    rw [if_neg (by omega)]
    simp only [recLen_end h hle, if_true]
    rfl
  | cons e es ih =>
    intro pre n h hle hroom hn
    obtain ⟨n, rfl⟩ := Nat.exists_eq_add_one_of_ne_zero (Nat.ne_of_gt (Nat.zero_lt_of_lt hn))
    have he : e.Fits := h e (by simp)
    have hpre : (records pre).length = total pre :=
      length_records fun e' he' => h e' (by simp [he'])
    have hall : (records pre ++ e.record ++ records es).length = total (pre ++ e :: es) := by
      rw [← length_records h]
      simp
    have hat : dentryAt (image (pre ++ e :: es)) (total pre) = some e := by
      have := dentryAt_record (a := records pre) (c := records es) he (by rw [hall]; exact hle)
      rw [hpre] at this
      simpa [image] using this
    have hrec := he.recLen
    have hz : e.recLen ≠ 0 := by
      unfold dentrySize at hrec
      omega
    have hnext : pre ++ e :: es = (pre ++ [e]) ++ es := by simp
    unfold parseFrom
    rw [hat]
    simp only [hz, if_false]
    by_cases hend : total pre + e.recLen + dentrySize > blockSize
    · -- no other record fits behind this one
      have hnil : es = [] := by
        cases es with
        | nil => rfl
        | cons e' es =>
          have hrec' := (h e' (by simp)).recLen
          simp only [total_append, total_cons] at hle
          omega
      subst hnil
      rw [if_pos hend]
      simp [placed, total]
    · rw [if_neg hend, hnext]
      have hstep := @ih (pre ++ [e]) n (by rwa [← hnext]) (by rwa [← hnext])
        (by simp [total] at hend ⊢; omega) (by simpa using hn)
      rw [show total (pre ++ [e]) = total pre + e.recLen by simp [total]] at hstep
      rw [hstep]
      rfl

theorem parse_image (h : ∀ e ∈ es, e.Fits) (hle : total es ≤ blockSize) :
    parse (image es) = some (placed 0 es, total es) := by
  have hlen := length_le_total h
  rw [blockSize_eq] at hle
  exact @parseFrom_image es [] _ h hle (by decide) (by rw [blockSize_eq]; omega)

theorem size_image (h : ∀ e ∈ es, e.Fits) (hle : total es ≤ blockSize) :
    size (image es) = total es :=
  sizeFrom_eq_of_parseFrom (parse_image h hle)

end DentryBlock

/-! ## Appending and clearing -/

/-- The name of an entry: 1 to 255 bytes, none of them NUL. -/
def EntryName := { name : Name // name ≠ [] ∧ name.length ≤ 255 ∧ 0 ∉ name }

/-- The entry that is appended for a name. -/
def Dentry.ofName (name : EntryName) (inode mode : UInt32) : Dentry where
  inode := inode.toNat
  recLen := dentrySize + name.1.length
  nameLen := name.1.length
  fileType := mode.toNat / 4096 % 256
  name := name.1

inductive DentryOp where
  | append (name : EntryName) (inode mode : UInt32)
  | kill (k : Nat)

namespace DirBlock

open Dentry Bytes DentryBlock

/-- `alloc_dentry` under the test of `dentry_create`, and the visitor of `inode_unlink`
on an entry it finds. -/
def step (b : Block) : DentryOp → Option Block
  | .append name inode mode =>
    if size b + dentrySize + name.1.length ≤ blockSize then
      some (b.splice (size b) (entryBytes name.1 inode.toNat mode.toNat))
    else none
  | .kill k =>
    match parse b with
    | none => none
    | some (found, _) =>
      match found[k]? with
      | none => none
      | some (off, _) => some (killAt b off)

/-- What the operation makes of the list of entries. -/
def edit (es : List Dentry) : DentryOp → List Dentry
  | .append name inode mode => es ++ [ofName name inode mode]
  | .kill k => es.modify k kill

/-- The entries that the operations leave, the cleared ones in their places. -/
def entries (ops : List DentryOp) : List Dentry := ops.foldl edit []

/-- The constructor finds the entries at the places of their records, and there is
nothing behind them. -/
structure Exact (b : Block) (es : List Dentry) : Prop where
  parsed : parse b = some (placed 0 es, total es)
  size : size b = total es
  zero : ∀ i, total es ≤ i → b.byte i = 0

/-- The block holds the records. -/
structure Holds (b : Block) (es : List Dentry) : Prop where
  fits : ∀ e ∈ es, e.Fits
  room : total es ≤ blockSize
  image : b = image es

variable {b b' : Block} {es : List Dentry}

theorem Holds.exact (h : Holds b es) : Exact b es := by
  have hlen := length_records h.fits
  have hroom := h.room
  refine ⟨?_, ?_, fun i hi => ?_⟩
  · rw [h.image]
    exact parse_image h.fits h.room
  · rw [h.image]
    exact size_image h.fits h.room
  · rw [h.image, DentryBlock.image, byte_ofList (by omega), List.getD_eq_default _ _ (by omega)]

theorem fits_ofName (name : EntryName) (inode mode : UInt32) : (ofName name inode mode).Fits where
  inode := inode.toNat_lt
  recLen := rfl
  name := name.2.2.1
  nameLen := Nat.lt_succ_of_le name.2.2.1
  fileType := Nat.mod_lt _ (by decide)

theorem record_ofName (name : EntryName) (inode mode : UInt32) :
    entryBytes name.1 inode.toNat mode.toNat = (ofName name inode mode).record := by
  have htype : UInt8.ofNat (mode.toNat / 4096) = UInt8.ofNat (mode.toNat / 4096 % 256) := by
    apply UInt8.toNat_inj.mp
    simp
  simp [entryBytes, record, ofName, htype]

theorem Holds.append {name : EntryName} {inode mode : UInt32} (h : Holds b es)
    (hs : step b (.append name inode mode) = some b') :
    Holds b' (es ++ [ofName name inode mode]) := by
  have hsize := h.exact.size
  unfold step at hs
  simp only at hs
  split at hs
  · rename_i hroom
    cases hs
    refine ⟨?_, ?_, ?_⟩
    · intro e he
      rcases List.mem_append.mp he with he | he
      · exact h.fits e he
      · rw [List.mem_singleton.mp he]
        exact fits_ofName name inode mode
    · rw [total_append]
      simp only [total, List.map_cons, List.map_nil, List.sum_cons, List.sum_nil, ofName]
      rw [hsize] at hroom
      unfold total at hroom
      omega
    · rw [hsize, record_ofName, h.image, ← length_records h.fits]
      unfold DentryBlock.image
      rw [splice_ofList_length, records_append]
      simp [records]
  · cases hs

theorem placed_getElem? :
    ∀ {es : List Dentry} {off k : Nat} {p : Nat × Dentry}, (placed off es)[k]? = some p →
    ∃ pre e post, es = pre ++ e :: post ∧ pre.length = k ∧ p = (off + total pre, e) := by
  intro es
  induction es with
  | nil =>
    intro off k p h
    simp [placed] at h
  | cons e es ih =>
    intro off k p h
    cases k with
    | zero =>
      simp only [placed, List.getElem?_cons_zero, Option.some.injEq] at h
      exact ⟨[], e, es, rfl, rfl, h.symm⟩
    | succ k =>
      rw [placed, List.getElem?_cons_succ] at h
      obtain ⟨pre, e', post, rfl, hk, hp⟩ := ih h
      refine ⟨e :: pre, e', post, rfl, by simp [hk], ?_⟩
      rw [hp, total_cons, Nat.add_assoc]

theorem killAt_image {pre post : List Dentry} {e : Dentry} (h : ∀ e' ∈ pre, e'.Fits) :
    killAt (DentryBlock.image (pre ++ e :: post)) (total pre) =
      DentryBlock.image (pre ++ e.kill :: post) := by
  have hsplit : ∀ {e' : Dentry}, e'.inode = e.inode → e'.recLen = e.recLen →
    e'.fileType = e.fileType → e'.name = e.name →
      records (pre ++ e' :: post) = (records pre ++ leBytes e.inode ++ [UInt8.ofNat e.recLen,
      UInt8.ofNat (e.recLen / 256)]) ++
        [UInt8.ofNat e'.nameLen] ++ ([UInt8.ofNat e.fileType] ++ e.name ++ records post) := by
    intro e' h₁ h₂ h₃ h₄
    rw [records_append, records_cons, record, h₁, h₂, h₃, h₄]
    simp
  have hlen : (records pre ++ leBytes e.inode ++ [UInt8.ofNat e.recLen,
    UInt8.ofNat (e.recLen / 256)]).length = total pre + 6 := by
    simp [leBytes, length_records h]
  unfold killAt DentryBlock.image
  rw [@hsplit e rfl rfl rfl rfl, @hsplit e.kill rfl rfl rfl rfl, ← hlen]
  exact splice_ofList _ _ _ [0] rfl

theorem modify_length (pre : List Dentry) (e : Dentry) (post : List Dentry) :
    (pre ++ e :: post).modify pre.length Dentry.kill = pre ++ e.kill :: post := by
  induction pre with
  | nil => simp
  | cons e' pre ih => simp [ih]

theorem Holds.kill {k : Nat} (h : Holds b es) (hs : step b (.kill k) = some b') :
    Holds b' (es.modify k Dentry.kill) := by
  unfold step at hs
  simp only [h.exact.parsed] at hs
  cases hk : (placed 0 es)[k]? with
  | none => simp [hk] at hs
  | some p =>
    obtain ⟨pre, e, post, hes, hlen, rfl⟩ := placed_getElem? hk
    simp only [hk, Option.some.injEq, Nat.zero_add] at hs
    have hmod : es.modify k Dentry.kill = pre ++ e.kill :: post := by
      rw [hes, ← hlen]
      exact modify_length pre e post
    have hfits := h.fits
    have hroom := h.room
    have himage := h.image
    rw [hes] at hfits hroom himage
    subst hs
    refine ⟨?_, ?_, ?_⟩
    · intro e' he'
      rw [hmod, List.mem_append, List.mem_cons] at he'
      rcases he' with he' | rfl | he'
      · exact hfits e' (by simp [he'])
      · exact (hfits e (by simp)).kill
      · exact hfits e' (by simp [he'])
    · rw [hmod]
      rw [total_append, total_cons] at hroom ⊢
      exact hroom
    · rw [hmod, himage]
      exact killAt_image fun e' he' => hfits e' (by simp [he'])

theorem Holds.step {op : DentryOp} (h : Holds b es) (hs : step b op = some b') :
    Holds b' (edit es op) := by
  cases op with
  | append name inode mode => exact h.append hs
  | kill k => exact h.kill hs

theorem Holds.blank : Holds Bytes.zero [] where
  fits _ he := absurd he List.not_mem_nil
  room := Nat.zero_le _
  image := ofList_nil.symm

theorem holds_of_run {ops : List DentryOp} (h : Runs.run step ops Bytes.zero = some b) :
    Holds b (entries ops) :=
  Runs.run_foldl (R := Holds) (f := edit) (fun hb hs => hb.step hs) ops Holds.blank h

/-- After every run of appends and clearings on a zeroed block, the constructor of
`DentryBlock` finds exactly the entries appended. -/
theorem parsed_exactly (ops : List DentryOp) (b : Block)
    (h : Runs.run step ops Bytes.zero = some b) :
    Exact b (entries ops) :=
  (holds_of_run h).exact

/-- Two entries, the first of them cleared. -/
def twoEntries : List DentryOp :=
  [.append ⟨[102], by decide⟩ 1 0x8000, .append ⟨[103, 104], by decide⟩ 2 0x4000, .kill 0]

theorem parsed_exactly_two :
    ∃ b, Runs.run step twoEntries Bytes.zero = some b ∧ Exact b (entries twoEntries) := by
  obtain ⟨b, hb⟩ : ∃ b, Runs.run step twoEntries Bytes.zero = some b := ⟨_, rfl⟩
  exact ⟨b, hb, parsed_exactly twoEntries b hb⟩

end DirBlock

end NaiveFS
