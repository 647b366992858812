import Mathlib.Data.List.TakeWhile
import NaiveFS.Namespace

/-!
# The grammar of paths

The constructors of `Path` over the bytes they read. `Path.parse` splits a list
of bytes; the code runs a pointer and an offset over a terminated string and
keeps slices of it. `construct_represents` says that the two agree and that no
read is past the terminator, `parse_valid_iff` that the accepted texts are
those of `Grammar`.
-/

namespace NaiveFS

/-- What a `const char*` points at, up to its terminator. -/
structure CString where
  chars : List UInt8
  terminated : 0 ∉ chars

namespace CString

/-- A read past the terminator has no value. -/
def read (s : CString) (p : Nat) : Option UInt8 := (s.chars ++ [0])[p]?

/-- The bytes of a slice. -/
def text (s : CString) (slice : Nat × Nat) : Name := (s.chars.drop slice.1).take slice.2

variable {s : CString} {p : Nat} {c : UInt8} {rest : List UInt8}

theorem read_nil (hp : p ≤ s.chars.length) (h : s.chars.drop p = []) : s.read p = some 0 := by
  have hlen := List.drop_eq_nil_iff.mp h
  simp [read, Nat.le_antisymm hp hlen]

theorem lt_of_drop (h : s.chars.drop p = c :: rest) : p < s.chars.length := by
  by_contra hn
  rw [List.drop_eq_nil_iff.mpr (Nat.le_of_not_lt hn)] at h
  cases h

theorem read_cons (h : s.chars.drop p = c :: rest) : s.read p = some c ∧ c ≠ 0 := by
  have hlt := lt_of_drop h
  have hget : s.chars[p]? = some c := by
    have hget : (s.chars.drop p)[0]? = s.chars[p + 0]? := List.getElem?_drop
    rw [h] at hget
    simpa using hget.symm
  refine ⟨by rw [read, List.getElem?_append_left hlt, hget], fun h0 => s.terminated ?_⟩
  exact h0 ▸ List.mem_of_getElem? hget

theorem drop_succ (h : s.chars.drop p = c :: rest) : s.chars.drop (p + 1) = rest := by
  rw [← List.drop_drop, h]
  rfl

end CString

/-- The members of `Path`. A name is its offset in the text and its length. -/
structure PathObject where
  valid : Bool
  path : CString
  nameList : List (Nat × Nat)

namespace PathObject

open NaiveFS.Path (separator namesFrom)

def size (o : PathObject) : Nat := o.nameList.length

def names (o : PathObject) : List Name := o.nameList.map o.path.text

/-- The scan of one name, at `ptr[name_len]`. -/
def nameLen (s : CString) (ptr : Nat) : Nat → Nat → Option Nat
  | 0, _ => none
  | n + 1, len => do
    let c ← s.read (ptr + len)
    if c ≠ separator ∧ c ≠ 0 then nameLen s ptr n (len + 1) else return len

structure Cursor where
  ptr : Nat
  currOff : Nat
  valid : Bool
  nameList : List (Nat × Nat)

/-- `if (SEPARATOR(*ptr)) ptr++, curr_off++`. -/
def Cursor.skip (t : Cursor) (c : UInt8) : Cursor :=
  if c = separator then { t with ptr := t.ptr + 1, currOff := t.currOff + 1 } else t

/-- The end of a round: the name of this length is recorded and passed. -/
def Cursor.push (t : Cursor) (len : Nat) : Cursor where
  ptr := t.ptr + len
  currOff := t.currOff + len
  valid := t.valid && len != 0
  nameList := t.nameList ++ [(t.currOff, len)]

/-- The loop of the constructor; `fuel` bounds each scan of a name. -/
def loop (fuel : Nat) (s : CString) : Nat → Cursor → Option Cursor
  | 0, _ => none
  | n + 1, t =>
    (s.read t.ptr).bind fun c =>
      if c = 0 then some t
      else
        (s.read (t.skip c).ptr).bind fun c' =>
          -- a trailing separator is skipped
          if c' = 0 then some (t.skip c)
          else (nameLen s (t.skip c).ptr fuel 0).bind fun len => loop fuel s n ((t.skip c).push len)

/-- `Path(path)`. -/
def construct (fuel : Nat) (s : CString) : Option PathObject := do
  let c ← s.read 0
  if c ≠ separator then return ⟨false, s, []⟩
  let t ← loop fuel s fuel ⟨0, 0, true, []⟩
  return ⟨t.valid, s, t.nameList⟩

/-- `Path(path, slice)`; the range must lie within the name list. -/
def slice (o : PathObject) (slice : Nat) : Option PathObject :=
  if slice > 0 then
    if slice ≤ o.nameList.length then some { o with nameList := o.nameList.take slice } else none
  else some { o with nameList := [] }

/-- The object of the code and the path of the model. -/
structure Represents (o : PathObject) (p : Path) : Prop where
  valid : o.valid = p.valid
  names : o.names = p.names

/-! ## The loop of the constructor -/

theorem nameLen_eq (s : CString) (ptr : Nat) :
    ∀ n len, ptr + len ≤ s.chars.length → s.chars.length < ptr + len + n →
      nameLen s ptr n len =
      some (len + ((s.chars.drop (ptr + len)).takeWhile (· ≠ separator)).length) := by
  intro n
  induction n with
  | zero => intro len hle hn; omega
  | succ n ih =>
    intro len hle hn
    unfold nameLen
    cases hd : s.chars.drop (ptr + len) with
    | nil => simp [CString.read_nil hle hd]
    | cons c rest =>
      obtain ⟨hread, h0⟩ := CString.read_cons hd
      rw [hread, Option.bind_eq_bind, Option.bind_some]
      by_cases hc : c = separator
      · simp [hc]
      · have hlt := CString.lt_of_drop hd
        have hrest : s.chars.drop (ptr + (len + 1)) = rest := CString.drop_succ hd
        rw [if_pos ⟨hc, h0⟩, ih (len + 1) hlt (by omega), hrest]
        simp [hc]
        omega

/-- The names a run of the loop adds, and what they say about the flag. -/
structure Reads (s : CString) (t t' : Cursor) (names : List Name) : Prop where
  valid : t'.valid = (t.valid && decide ([] ∉ names))
  names : t'.nameList.map s.text = t.nameList.map s.text ++ names

theorem Reads.refl (s : CString) (t : Cursor) : Reads s t t [] := ⟨by simp, by simp⟩

theorem Reads.cons {s : CString} {t t₁ t' : Cursor} {name : Name} {names : List Name}
    (hv : t₁.valid = (t.valid && name.length != 0))
    (hn : t₁.nameList.map s.text = t.nameList.map s.text ++ [name]) (h : Reads s t₁ t' names) :
    Reads s t t' (name :: names) := by
  constructor
  · rw [h.valid, hv, Bool.and_assoc]
    cases name <;> simp
  · rw [h.names, hn, List.append_assoc]
    rfl

theorem text_takeWhile (s : CString) (p : Nat) (q : UInt8 → Bool) :
    s.text (p, ((s.chars.drop p).takeWhile q).length) = (s.chars.drop p).takeWhile q := by
  have h := List.takeWhile_append_dropWhile (p := q) (l := s.chars.drop p)
  have := congrArg (List.take ((s.chars.drop p).takeWhile q).length) h
  rw [List.take_left] at this
  exact this.symm

theorem drop_takeWhile (s : CString) (p : Nat) (q : UInt8 → Bool) :
    s.chars.drop (p + ((s.chars.drop p).takeWhile q).length) = (s.chars.drop p).dropWhile q := by
  have h := List.takeWhile_append_dropWhile (p := q) (l := s.chars.drop p)
  have := congrArg (List.drop ((s.chars.drop p).takeWhile q).length) h
  rw [List.drop_left, List.drop_drop] at this
  exact this.symm

theorem takeWhile_le (s : CString) (p : Nat) (q : UInt8 → Bool) (hp : p ≤ s.chars.length) :
    p + ((s.chars.drop p).takeWhile q).length ≤ s.chars.length := by
  have h := (List.takeWhile_prefix q (l := s.chars.drop p)).length_le
  rw [List.length_drop] at h
  omega

/-- What the optional separator leaves to read. -/
structure Skipped (s : CString) (c : UInt8) (rest : List UInt8) (t u : Cursor) : Prop where
  off : u.currOff = u.ptr
  valid : u.valid = t.valid
  names : u.nameList = t.nameList
  le : u.ptr ≤ s.chars.length
  drop : s.chars.drop u.ptr = if c = separator then rest else c :: rest
  /-- Each round takes a byte. -/
  progress : t.ptr < u.ptr + ((s.chars.drop u.ptr).takeWhile (· ≠ separator)).length

theorem skip_skipped {s : CString} {t : Cursor} {c : UInt8} {rest : List UInt8}
    (hd : s.chars.drop t.ptr = c :: rest) (hoff : t.currOff = t.ptr) :
    Skipped s c rest t (t.skip c) := by
  have hlt := CString.lt_of_drop hd
  unfold Cursor.skip
  by_cases hc : c = separator
  · rw [if_pos hc]
    exact ⟨by rw [hoff], rfl, rfl, hlt, by rw [if_pos hc, CString.drop_succ hd],
      Nat.lt_add_right _ (Nat.lt_succ_self _)⟩
  · rw [if_neg hc]
    refine ⟨hoff, rfl, rfl, hlt.le, by rw [if_neg hc, hd], ?_⟩
    simp [hd, hc]

theorem loop_reads (s : CString) {fuel : Nat} (hf : s.chars.length < fuel) :
    ∀ n m t, t.ptr ≤ s.chars.length → t.currOff = t.ptr → s.chars.length < t.ptr + n →
      s.chars.length ≤ t.ptr + m → ∃ t', loop fuel s n t = some t' ∧
      Reads s t t' (namesFrom m (s.chars.drop t.ptr)) := by
  intro n
  induction n with
  | zero => intro m t hle _ hn; omega
  | succ n ih =>
    intro m t hle hoff hn hm
    unfold loop
    cases hd : s.chars.drop t.ptr with
    | nil =>
      refine ⟨t, by simp [CString.read_nil hle hd], ?_⟩
      cases m <;> exact Reads.refl s t
    | cons c rest =>
      obtain ⟨hread, h0⟩ := CString.read_cons hd
      have hlt := CString.lt_of_drop hd
      obtain ⟨m, rfl⟩ : ∃ m', m = m' + 1 := ⟨m - 1, by omega⟩
      have hu := skip_skipped hd hoff
      rw [hread, Option.bind_some, if_neg h0, namesFrom, ← hu.drop]
      generalize t.skip c = u at hu
      cases hd' : s.chars.drop u.ptr with
      | nil =>
        exact ⟨u, by simp [CString.read_nil hu.le hd'], by simp [hu.valid], by simp [hu.names]⟩
      | cons c' rest' =>
        obtain ⟨hread', h0'⟩ := CString.read_cons hd'
        have hscan := nameLen_eq s u.ptr fuel 0 hu.le (by omega)
        have hle' := takeWhile_le s u.ptr (· ≠ separator) hu.le
        have hpro := hu.progress
        rw [Nat.add_zero, Nat.zero_add] at hscan
        rw [hread', Option.bind_some, if_neg h0', hscan, Option.bind_some, ← hd']
        obtain ⟨t', ht', hreads⟩ := ih m (u.push _) hle' (by rw [Cursor.push, hu.off])
          (by simp only [Cursor.push]; omega) (by simp only [Cursor.push]; omega)
        refine ⟨t', ht', ?_⟩
        rw [if_neg (by simp [hd']), ← drop_takeWhile]
        refine hreads.cons ?_ ?_
        · rw [Cursor.push, hu.valid]
        · rw [Cursor.push, hu.names, hu.off, List.map_append, List.map_singleton, text_takeWhile]

/-- The constructor ends, within the text, with the path of the model. -/
theorem construct_represents (s : CString) {fuel : Nat} (hf : s.chars.length < fuel) :
    ∃ o, construct fuel s = some o ∧ Represents o (Path.parse s.chars) := by
  unfold construct Path.parse
  cases hc : s.chars with
  | nil =>
    have hread : s.read 0 = some 0 := CString.read_nil (Nat.zero_le _) hc
    exact ⟨⟨false, s, []⟩, by rw [hread]; rfl, rfl, rfl⟩
  | cons c rest =>
    obtain ⟨hread, -⟩ := CString.read_cons (s := s) (p := 0) hc
    rw [hread, ← hc]
    by_cases hsep : c = separator
    · subst hsep
      obtain ⟨t', ht', hreads⟩ :=
        loop_reads s hf fuel s.chars.length ⟨0, 0, true, []⟩ (Nat.zero_le _) rfl (by simpa using hf)
        (by simp)
      refine ⟨⟨t'.valid, s, t'.nameList⟩, by simp [ht'], ?_, ?_⟩
      · simpa [hc, Path.of] using hreads.valid
      · simpa [hc, Path.of, names] using hreads.names
    · refine ⟨⟨false, s, []⟩, by simp [hsep], ?_, ?_⟩
      · simp [hc, hsep, Path.invalid]
      · simp [hc, hsep, Path.invalid, names]

theorem slice_eq {o : PathObject} {k : Nat} (hk : k ≤ o.size) :
    ∃ q, o.slice k = some q ∧ q.valid = o.valid ∧ q.names = o.names.take k := by
  unfold slice
  cases k with
  | zero => exact ⟨_, rfl, rfl, rfl⟩
  | succ k =>
    rw [if_pos (Nat.succ_pos k), if_pos (show k + 1 ≤ o.nameList.length from hk)]
    exact ⟨_, rfl, rfl, List.map_take⟩

/-- `Path(path, path.size() - 1)`, as the operations on the namespace use it. -/
theorem Represents.parent {o : PathObject} {p : Path} {k : Nat} (h : Represents o p)
    (hk : o.size = k + 1) :
    ∃ q, o.slice k = some q ∧ Represents q p.parent := by
  obtain ⟨q, hq, hv, hn⟩ := slice_eq (o := o) (k := k) (by omega)
  have hlen : p.names.length = k + 1 := by
    rw [← h.names, ← hk]
    exact List.length_map _
  refine ⟨q, hq, hv.trans h.valid, ?_⟩
  rw [hn, h.names]
  simp [Path.parent, List.dropLast_eq_take, hlen]

end PathObject

/-! ## The grammar -/

namespace Path

def IsName (name : Name) : Prop := name ≠ [] ∧ separator ∉ name

/-- `('/' name)*`. -/
def written (names : List Name) : List UInt8 := names.flatMap fun name => separator :: name

/-- `'/' | ('/' name)+ '/'?`, with the names of the derivation. -/
inductive Grammar : List UInt8 → List Name → Prop where
  | root : Grammar [separator] []
  | names {names : List Name} (hne : names ≠ []) (h : ∀ name ∈ names, IsName name) :
    Grammar (written names) names
  | trailing {names : List Name} (hne : names ≠ []) (h : ∀ name ∈ names, IsName name) :
    Grammar (written names ++ [separator]) names

@[simp] theorem written_cons (name : Name) (names : List Name) :
    written (name :: names) = separator :: (name ++ written names) := rfl

@[simp] theorem written_nil : written [] = [] := rfl

theorem written_eq_intercalate {names : List Name} (hne : names ≠ []) :
    written names = separator :: [separator].intercalate names := by
  induction names with
  | nil => exact absurd rfl hne
  | cons name names ih =>
    cases names with
    | nil => simp [List.intercalate]
    | cons name' names =>
      rw [written_cons, ih (by simp)]
      simp [List.intercalate]

def AtSeparator (text : List UInt8) : Prop := text = [] ∨ text.head? = some separator

theorem atSeparator_written (names : List Name) {tail : List UInt8} (ht : AtSeparator tail) :
    AtSeparator (written names ++ tail) := by
  cases names with
  | nil => exact ht
  | cons => exact .inr rfl

theorem atSeparator_dropWhile (text : List UInt8) :
    AtSeparator (text.dropWhile (· ≠ separator)) := by
  induction text with
  | nil => exact .inl rfl
  | cons c text ih =>
    by_cases hc : c = separator
    · exact .inr (by simp [hc])
    · simpa [hc] using ih

theorem takeWhile_name {name : Name} {rest : List UInt8} (h : IsName name) (hr : AtSeparator rest) :
    (name ++ rest).takeWhile (· ≠ separator) = name ∧ (name ++ rest).dropWhile (· ≠ separator) =
      rest := by
  have hall : ∀ c ∈ name, decide (c ≠ separator) = true := by
    intro c hc
    exact decide_eq_true fun he => h.2 (he ▸ hc)
  rw [List.takeWhile_append_of_pos hall, List.dropWhile_append_of_pos hall]
  cases rest with
  | nil => simp
  | cons c rest =>
    obtain rfl : c = separator := by simpa [AtSeparator] using hr
    simp

theorem namesFrom_written {names : List Name} {tail : List UInt8} (h : ∀ name ∈ names, IsName name)
    (ht : tail = [] ∨ tail = [separator]) :
    ∀ m, (written names ++ tail).length ≤ m → namesFrom m (written names ++ tail) = names := by
  have hat : AtSeparator tail := by
    obtain rfl | rfl := ht
    · exact .inl rfl
    · exact .inr rfl
  induction names with
  | nil =>
    intro m hm
    obtain rfl | rfl := ht
    · cases m <;> rfl
    · cases m <;> rfl
  | cons name names ih =>
    intro m hm
    have hname := h name List.mem_cons_self
    cases m with
    | zero => simp at hm
    | succ m =>
      obtain ⟨htake, hdrop⟩ := takeWhile_name hname (atSeparator_written names hat)
      have hne : ¬ (name ++ (written names ++ tail)).isEmpty = true := by simp [hname.1]
      simp only [written_cons, List.cons_append, List.append_assoc, namesFrom, if_true, if_neg hne,
        htake, hdrop]
      rw [ih (fun n hn => h n (List.mem_cons_of_mem _ hn)) m (by simp at hm ⊢; omega)]

theorem written_namesFrom :
    ∀ m text, text.length ≤ m → AtSeparator text → [] ∉ namesFrom m text →
      (∀ name ∈ namesFrom m text, IsName name) ∧
        (text = written (namesFrom m text) ∨ text = written (namesFrom m text) ++ [separator]) := by
  intro m
  induction m with
  | zero =>
    intro text hm _ _
    obtain rfl := List.length_eq_zero_iff.mp (Nat.le_zero.mp hm)
    exact ⟨by simp [namesFrom], .inl rfl⟩
  | succ m ih =>
    intro text hm hat hne
    cases text with
    | nil => exact ⟨by simp [namesFrom], .inl rfl⟩
    | cons c rest =>
      obtain rfl : c = separator := by simpa [AtSeparator] using hat
      cases rest with
      | nil => exact ⟨by simp [namesFrom], .inr (by simp [namesFrom])⟩
      | cons c rest =>
        have hstep : namesFrom (m + 1) (separator :: c :: rest) =
            (c :: rest).takeWhile (· ≠ separator) ::
            namesFrom m ((c :: rest).dropWhile (· ≠ separator)) := by
          simp [namesFrom]
        rw [hstep] at hne ⊢
        generalize hname : (c :: rest).takeWhile (· ≠ separator) = name at hne ⊢
        generalize hleft : (c :: rest).dropWhile (· ≠ separator) = left at hne ⊢
        have happ : name ++ left = c :: rest := by
          rw [← hname, ← hleft, List.takeWhile_append_dropWhile]
        have hlen : left.length ≤ m := by
          have := congrArg List.length happ
          simp at this hm
          omega
        obtain ⟨hnames, htext⟩ := ih left hlen (hleft ▸ atSeparator_dropWhile _) fun h =>
          hne (List.mem_cons_of_mem _ h)
        have hthis : IsName name := by
          refine ⟨fun h0 => hne (by simp [h0]), fun hmem => ?_⟩
          have := List.mem_takeWhile_imp (hname ▸ hmem)
          simp at this
        refine ⟨by simpa using ⟨hthis, hnames⟩, ?_⟩
        rw [← happ, written_cons]
        obtain h | h := htext
        · exact .inl (by rw [← h])
        · exact .inr (by rw [List.cons_append, List.append_assoc, ← h])

theorem Grammar.parse_eq {text : List UInt8} {names : List Name} (h : Grammar text names) :
    (parse text).valid = true ∧ (parse text).names = names := by
  have hback : ∀ (names : List Name) (tail : List UInt8), (∀ name ∈ names, IsName name) →
    tail = [] ∨ tail = [separator] →
      (written names ++ tail).head? = some separator →
        (parse (written names ++ tail)).valid = true ∧ (parse (written names ++ tail)).names =
        names := by
    intro names tail hn ht hhead
    rw [parse, if_pos hhead, namesFrom_written hn ht _ le_rfl]
    exact ⟨decide_eq_true fun hm => (hn [] hm).1 rfl, rfl⟩
  cases h with
  | root => exact hback [] [separator] (by simp) (.inr rfl) rfl
  | names hne h =>
    obtain ⟨name, names, rfl⟩ := List.exists_cons_of_ne_nil hne
    simpa using hback _ [] h (.inl rfl) rfl
  | trailing hne h =>
    obtain ⟨name, names, rfl⟩ := List.exists_cons_of_ne_nil hne
    exact hback _ [separator] h (.inr rfl) rfl

theorem parse_grammar {text : List UInt8} (h : (parse text).valid = true) :
    Grammar text (parse text).names := by
  unfold parse at h ⊢
  by_cases hhead : text.head? = some separator
  · rw [if_pos hhead] at h ⊢
    obtain ⟨hn, ht⟩ := written_namesFrom text.length text le_rfl (.inr hhead) (of_decide_eq_true h)
    simp only [of]
    generalize namesFrom text.length text = names at hn ht ⊢
    by_cases hnil : names = []
    · subst hnil
      obtain rfl | rfl := ht
      · simp at hhead
      · exact .root
    · obtain rfl | rfl := ht
      · exact .names hnil hn
      · exact .trailing hnil hn
  · rw [if_neg hhead] at h
    cases h

/-- The accepted texts, and the names read from them. -/
theorem parse_valid_iff {text : List UInt8} {names : List Name} :
    (parse text).valid = true ∧ (parse text).names = names ↔ Grammar text names := by
  constructor
  · intro h
    exact h.2 ▸ parse_grammar h.1
  · exact Grammar.parse_eq

theorem Grammar.joined {text : List UInt8} {names : List Name} (h : Grammar text names) :
    text = separator :: [separator].intercalate names ∨
      text = separator :: [separator].intercalate names ++ [separator] := by
  cases h with
  | root => exact .inl rfl
  | names hne => exact .inl (written_eq_intercalate hne)
  | trailing hne => exact .inr (by rw [written_eq_intercalate hne])

theorem Grammar.take {text : List UInt8} {names : List Name} (h : Grammar text names) (k : Nat) :
    Grammar (separator :: [separator].intercalate (names.take k)) (names.take k) := by
  have hn : ∀ name ∈ names, IsName name := by
    cases h with
    | root => simp
    | names _ h => exact h
    | trailing _ h => exact h
  by_cases hnil : names.take k = []
  · rw [hnil]
    exact .root
  · rw [← written_eq_intercalate hnil]
    exact .names hnil fun name hm => hn name (List.mem_of_mem_take hm)

end Path

/-- The constructors of `Path` accept exactly the grammar, keep its names and
cut prefixes. -/
theorem PathObject.construct_exact (s : CString) (fuel : Nat) (hf : s.chars.length < fuel) :
    ∃ o, PathObject.construct fuel s = some o ∧
      (o.valid = true ↔ ∃ names, Path.Grammar s.chars names) ∧
      (o.valid = true → Path.Grammar s.chars o.names ∧
        (∀ names, Path.Grammar s.chars names → names = o.names) ∧
          (s.chars = Path.separator :: [Path.separator].intercalate o.names ∨
          s.chars = Path.separator :: [Path.separator].intercalate o.names ++ [Path.separator])) ∧
      ∀ k ≤ o.size, ∃ q, o.slice k = some q ∧ q.names = o.names.take k ∧ q.valid = o.valid ∧
        (o.valid = true →
          Represents q (Path.parse (Path.separator :: [Path.separator].intercalate
            (o.names.take k)))) := by
  obtain ⟨o, ho, hvalid, hnames⟩ := construct_represents s hf
  have hgram : o.valid = true → Path.Grammar s.chars o.names := by
    intro h
    rw [hnames]
    exact Path.parse_grammar (hvalid ▸ h)
  have huniq : ∀ names, Path.Grammar s.chars names → o.valid = true ∧ names = o.names := by
    intro names h
    exact ⟨hvalid.trans h.parse_eq.1, (hnames.trans h.parse_eq.2).symm⟩
  refine ⟨o, ho, ⟨fun h => ⟨_, hgram h⟩, fun ⟨names, h⟩ => (huniq names h).1⟩, ?_, ?_⟩
  · intro h
    exact ⟨hgram h, fun names h => (huniq names h).2, (hgram h).joined⟩
  · intro k hk
    obtain ⟨q, hq, hqv, hqn⟩ := slice_eq hk
    refine ⟨q, hq, hqn, hqv, fun h => ?_⟩
    obtain ⟨hv, hn⟩ := ((hgram h).take k).parse_eq
    exact ⟨by rw [hqv, h, hv], by rw [hqn, hn]⟩

theorem PathObject.construct_exact_names :
    ∃ o, PathObject.construct 6 ⟨[47, 97, 47, 98, 47], by decide⟩ = some o ∧ o.valid = true ∧
      o.names = [[97], [98]] := by
  have hgram : Path.Grammar [47, 97, 47, 98, 47] [[97], [98]] := by
    have hnames : ∀ name ∈ [[97], [98]], Path.IsName name := by
      unfold Path.IsName
      decide
    exact .trailing (by decide) hnames
  obtain ⟨o, ho, hvalid, hnames, -⟩ :=
    PathObject.construct_exact ⟨[47, 97, 47, 98, 47], by decide⟩ 6 (by decide)
  have hv := hvalid.mpr ⟨_, hgram⟩
  exact ⟨o, ho, hv, ((hnames hv).2.1 _ hgram).symm⟩

end NaiveFS
