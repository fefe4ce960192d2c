import Mathlib.Data.Set.List
import Poco.Ascii
import Poco.ListMap

/-!
# Message headers

`NameValueCollection` and the functions `write` and `read` of `Net/src/MessageHeader.cpp`.
A stream is the list of bytes still to be read; the variable `ch` of `read`, which holds
the byte taken last, is the head of that list, and the `putback` at the end leaves it there.

## Main definitions

* `NameValueCollection`: name-value pairs, kept in a `ListMap` that ignores the case of names.
* `write`, `read`: the lines of a header, and their reader.
* `Field`: a field with a name of RFC 2822 and a value on one line without white space at its ends,
  within the limits of `read`.

## Main results

* `readFields_line`: one round of the loop reads one field.
* `readFields_write`: `read` adds the fields in the order in which they are written, and stops at
  the empty line.
* `read_write_iff`: when a header is read back as it was.
-/

namespace Poco.Net

open List Ascii

abbrev NameValueCollection := List (Bytes × Bytes)

def sameName (a b : Bytes) : Bool := icompare a b == 0

theorem sameName_iff : sameName a b = true ↔ a.map toLower = b.map toLower := by
  rw [sameName, beq_iff_eq, icompare_eq_zero_iff]

theorem sameName_equivalence : Equivalence fun a b => sameName a b = true where
  refl _ := sameName_iff.mpr rfl
  symm h := sameName_iff.mpr (sameName_iff.mp h).symm
  trans h h' := sameName_iff.mpr ((sameName_iff.mp h).trans (sameName_iff.mp h'))

namespace NameValueCollection

def add (name value : Bytes) (nvc : NameValueCollection) : NameValueCollection :=
  ListMap.insert sameName (name, value) nvc

/-- The collection after adding the fields of a list to the empty one. -/
def ofList (fs : List (Bytes × Bytes)) : NameValueCollection :=
  ListMap.ofList sameName fs

end NameValueCollection

open NameValueCollection

structure MessageException where
  message : String
  deriving DecidableEq, Repr

namespace MessageHeader

def MAX_NAME_LENGTH : ℕ := 256

def MAX_VALUE_LENGTH : ℕ := 8192

def DFL_FIELD_LIMIT : ℕ := 100

def CRLF : Bytes := [0x0D, 0x0A]

def write (header : NameValueCollection) : Bytes :=
  header.flatMap fun f => f.1 ++ [0x3A, 0x20] ++ f.2 ++ CRLF

/-- The loops that append `ch` to a name or value while it satisfies `p` and the limit is
not reached: what they append, and the stream after them. -/
def readWhile (p : UInt8 → Bool) : ℕ → Bytes → Bytes × Bytes
  | 0, s => ([], s)
  | _ + 1, [] => ([], [])
  | n + 1, c :: s =>
    if p c then
      let r := readWhile p n s
      (c :: r.1, r.2)
    else ([], c :: s)

def inLine (ch : UInt8) : Bool := ch != 0x0D && ch != 0x0A

/-- The end of a line: a line feed, maybe after a carriage return, or the end of the
stream.  `none` is the case of an exception. -/
def endOfLine (s : Bytes) : Option Bytes :=
  let s := if s.head? = some 0x0D then s.tail else s
  match s with
  | [] => some []
  | ch :: s => if ch = 0x0A then some s else none

/-- The loop over the folded lines of a value.  A round that goes on takes a byte from the
stream, so a fuel above its length suffices. -/
def readFolded : ℕ → Bytes → Bytes → Except MessageException (Bytes × Bytes)
  | 0, value, s => .ok (value, s)
  | fuel + 1, value, s =>
    if s.head? = some 0x20 ∨ s.head? = some 0x09 then
      let r := readWhile inLine (MAX_VALUE_LENGTH - value.length) s
      match endOfLine r.2 with
      | none => .error ⟨"Folded field value too long/no CRLF found"⟩
      | some s => readFolded fuel (value ++ r.1) s
    else .ok (value, s)

/-- The main loop of `MessageHeader::read`.  Every round takes a byte from the stream, so a
fuel above its length suffices. -/
def readFields (fieldLimit : ℕ) : ℕ → ℕ → NameValueCollection → Bytes →
    Except MessageException (NameValueCollection × Bytes)
  | 0, _, header, s => .ok (header, s)
  | fuel + 1, fields, header, s =>
    if s = [] ∨ s.head? = some 0x0D ∨ s.head? = some 0x0A then .ok (header, s)
    else if fieldLimit > 0 ∧ fields = fieldLimit then .error ⟨"Too many header fields"⟩
    else
      let name := readWhile (fun ch => ch != 0x3A && ch != 0x0A) MAX_NAME_LENGTH s
      match name.2 with
      | [] => .error ⟨"Field name too long/no colon found"⟩
      | ch :: s =>
        -- invalid header lines are ignored
        if ch = 0x0A then readFields fieldLimit fuel fields header s
        else if ch ≠ 0x3A then .error ⟨"Field name too long/no colon found"⟩
        else
          let s := s.dropWhile fun ch => isSpace ch && inLine ch
          let value := readWhile inLine MAX_VALUE_LENGTH s
          match endOfLine value.2 with
          | none => .error ⟨"Field value too long/no CRLF found"⟩
          | some s =>
            match readFolded (s.length + 1) value.1 s with
            | .error e => .error e
            | .ok (value, s) =>
              readFields fieldLimit fuel (fields + 1)
                (add name.1 (trimRightInPlace value) header) s

/-- `MessageHeader::read` into a header: the header after it, and the rest of the stream. -/
def read (fieldLimit : ℕ) (header : NameValueCollection) (s : Bytes) :
    Except MessageException (NameValueCollection × Bytes) :=
  readFields fieldLimit (s.length + 1) 0 header s

/-! ### Reading one field -/

/-- A loop that stops at the first byte that does not satisfy `p`. -/
theorem readWhile_append {p : UInt8 → Bool} :
    ∀ {n : ℕ}, (∀ x ∈ w, p x = true) → w.length ≤ n → p c = false →
      readWhile p n (w ++ c :: s) = (w, c :: s) := by
  induction w with
  | nil =>
    intro n _ _ hc
    cases n with
    | zero => rfl
    | succ n => simp [readWhile, hc]
  | cons x w ih =>
    intro n hw hn hc
    cases n with
    | zero => simp at hn
    | succ n =>
      have hx := hw x mem_cons_self
      have hrest := ih (fun y hy => hw y (mem_cons_of_mem _ hy)) (Nat.le_of_succ_le_succ hn) hc
      simp only [cons_append, readWhile, hx, if_true, hrest]

/-- A character of a field name of RFC 2822: printable, and not a colon. -/
def isFieldNameChar (ch : UInt8) : Bool := 0x21 ≤ ch && ch ≤ 0x7E && ch != 0x3A

structure Field where
  name : Bytes
  value : Bytes
  name_ne_nil : name ≠ []
  name_chars : ∀ ch ∈ name, isFieldNameChar ch = true
  name_length : name.length ≤ MAX_NAME_LENGTH
  value_line : ∀ ch ∈ value, inLine ch = true
  value_head : ∀ ch, value.head? = some ch → isSpace ch = false
  value_last : ∀ ch, value.getLast? = some ch → isSpace ch = false
  value_length : value.length ≤ MAX_VALUE_LENGTH

namespace Field

def pair (f : Field) : Bytes × Bytes := (f.name, f.value)

def line (f : Field) : Bytes := f.name ++ [0x3A, 0x20] ++ f.value ++ CRLF

theorem name_head : ∀ ch : UInt8, isFieldNameChar ch = true →
    ch ≠ 0x0D ∧ ch ≠ 0x0A ∧ ch ≠ 0x20 ∧ ch ≠ 0x09 ∧ (ch != 0x3A && ch != 0x0A) = true := by decide

/-- What follows a field in a header: another field, or an empty line. -/
def Next (s : Bytes) : Prop := s.head? ≠ some 0x20 ∧ s.head? ≠ some 0x09

theorem next_crlf (s : Bytes) : Next (CRLF ++ s) := by
  constructor <;> simp [CRLF]

theorem next_line (f : Field) (s : Bytes) : Next (f.line ++ s) := by
  obtain ⟨c, w, hw⟩ := exists_cons_of_ne_nil f.name_ne_nil
  obtain ⟨-, -, h3, h4, -⟩ := name_head c (f.name_chars c (by rw [hw]; exact mem_cons_self))
  unfold Next line
  rw [hw]
  simpa using ⟨h3, h4⟩

theorem readFields_line (f : Field) {fieldLimit fuel fields : ℕ} (hlim : fields < fieldLimit)
    (header : NameValueCollection) {s : Bytes} (hs : Next s) :
    readFields fieldLimit (fuel + 1) fields header (f.line ++ s)
      = readFields fieldLimit fuel (fields + 1) (add f.name f.value header) s := by
  obtain ⟨c, w, hw⟩ := exists_cons_of_ne_nil f.name_ne_nil
  obtain ⟨h1, h2, -, -, -⟩ := name_head c (f.name_chars c (by rw [hw]; exact mem_cons_self))
  have hbeg : ¬ (f.line ++ s = [] ∨ (f.line ++ s).head? = some 0x0D ∨
      (f.line ++ s).head? = some 0x0A) := by
    simp [line, hw, h1, h2]
  have hline : f.line ++ s = f.name ++ 0x3A :: 0x20 :: (f.value ++ CRLF ++ s) := by
    simp [line]
  have hname : readWhile (fun ch => ch != 0x3A && ch != 0x0A) MAX_NAME_LENGTH (f.line ++ s)
      = (f.name, 0x3A :: 0x20 :: (f.value ++ CRLF ++ s)) := by
    rw [hline]
    refine readWhile_append ?_ f.name_length rfl
    exact fun ch hch => (name_head ch (f.name_chars ch hch)).2.2.2.2
  -- the blank after the colon is skipped, and nothing of the value
  have hskip : (0x20 :: (f.value ++ CRLF ++ s)).dropWhile (fun ch => isSpace ch && inLine ch)
      = f.value ++ 0x0D :: 0x0A :: s := by
    have hrest : f.value ++ CRLF ++ s = f.value ++ 0x0D :: 0x0A :: s := by simp [CRLF]
    rw [dropWhile_cons_of_pos rfl, hrest]
    cases hv : f.value with
    | nil => rfl
    | cons d v =>
      have hd := f.value_head d (by rw [hv]; rfl)
      simp [hd]
  have hval : readWhile inLine MAX_VALUE_LENGTH (f.value ++ 0x0D :: 0x0A :: s)
      = (f.value, 0x0D :: 0x0A :: s) :=
    readWhile_append f.value_line f.value_length rfl
  have hend : endOfLine (0x0D :: 0x0A :: s) = some s := rfl
  have hfold : readFolded (s.length + 1) f.value s = .ok (f.value, s) := by
    rw [readFolded, if_neg]
    rintro (h | h)
    · exact hs.1 h
    · exact hs.2 h
  have htrim := trimRightInPlace_of_getLast f.value_last
  rw [readFields, if_neg hbeg, if_neg (by omega)]
  simp only [hname, hskip, hval, hend, hfold, htrim]
  rfl

end Field

/-! ### Reading a header -/

theorem readFields_write (fieldLimit : ℕ) (rest : Bytes) : ∀ (fs : List Field)
    (fuel fields : ℕ) (header : NameValueCollection), fs.length < fuel →
      fields + fs.length ≤ fieldLimit →
      readFields fieldLimit fuel fields header (write (fs.map Field.pair) ++ (CRLF ++ rest))
        = .ok (ListMap.insertAll sameName header (fs.map Field.pair), CRLF ++ rest) := by
  intro fs
  induction fs with
  | nil =>
    intro fuel fields header hfuel _
    obtain ⟨fuel, rfl⟩ : ∃ n, fuel = n + 1 := ⟨fuel - 1, by simp at hfuel; omega⟩
    rfl
  | cons f fs ih =>
    intro fuel fields header hfuel hlim
    rw [length_cons] at hfuel hlim
    obtain ⟨fuel, rfl⟩ : ∃ n, fuel = n + 1 := ⟨fuel - 1, by omega⟩
    have hwr : write ((f :: fs).map Field.pair) ++ (CRLF ++ rest)
        = f.line ++ (write (fs.map Field.pair) ++ (CRLF ++ rest)) := by
      simp [write, Field.pair, Field.line]
    have hnext : Field.Next (write (fs.map Field.pair) ++ (CRLF ++ rest)) := by
      cases fs with
      | nil => exact Field.next_crlf rest
      | cons g gs =>
        have := g.next_line (write (gs.map Field.pair) ++ (CRLF ++ rest))
        simpa [write, Field.pair, Field.line] using this
    rw [hwr, f.readFields_line (by omega) header hnext,
      ih fuel (fields + 1) _ (by omega) (by omega)]
    rfl

theorem ofList_map_pair (fs : List Field) :
    ∃ gs : List Field, ofList (fs.map Field.pair) = gs.map Field.pair ∧ gs.length = fs.length := by
  have hmem : ∀ e ∈ ofList (fs.map Field.pair), ∃ g : Field, g.pair = e := by
    intro e he
    rcases ListMap.mem_insertAll.mp he with h | h
    · cases h
    · obtain ⟨g, -, hg⟩ := mem_map.mp h
      exact ⟨g, hg⟩
  obtain ⟨gs, hgs⟩ : ofList (fs.map Field.pair) ∈ Set.range (List.map Field.pair) := by
    rw [Set.range_list_map]
    exact hmem
  refine ⟨gs, hgs.symm, ?_⟩
  have hlen := congrArg List.length hgs
  rw [length_map, ofList, ListMap.ofList, ListMap.length_insertAll] at hlen
  simpa using hlen

theorem read_write (fs : List Field) (h : fs.length ≤ DFL_FIELD_LIMIT) (rest : Bytes) :
    read DFL_FIELD_LIMIT [] (write (ofList (fs.map Field.pair)) ++ (CRLF ++ rest))
      = .ok (ofList (ofList (fs.map Field.pair)), CRLF ++ rest) := by
  obtain ⟨gs, hgs, hlen⟩ := ofList_map_pair fs
  have hfuel : gs.length ≤ (write (gs.map Field.pair)).length := by
    clear hgs hlen
    induction gs with
    | nil => exact Nat.zero_le _
    | cons g gs ih =>
      simp only [write, map_cons, flatMap_cons, length_append, length_cons, CRLF] at ih ⊢
      omega
  rw [hgs, read, readFields_write DFL_FIELD_LIMIT rest gs _ 0 [] ?_ (by omega)]
  · rfl
  · rw [length_append]
    omega

/-- **When a header is read back as it was**: exactly if, for every name, the fields with
that name that were added read the same backwards. -/
theorem read_write_iff (fs : List Field) (h : fs.length ≤ DFL_FIELD_LIMIT) :
    read DFL_FIELD_LIMIT [] (write (ofList (fs.map Field.pair)) ++ CRLF)
        = .ok (ofList (fs.map Field.pair), CRLF) ↔
      ∀ f ∈ fs, (ListMap.entries sameName f.name (fs.map Field.pair)).reverse
        = ListMap.entries sameName f.name (fs.map Field.pair) := by
  have hread := read_write fs h []
  rw [append_nil] at hread
  have hiff := ListMap.ofList_ofList_iff sameName_equivalence (fs.map Field.pair)
  rw [hread, Except.ok.injEq, Prod.mk.injEq]
  constructor
  · rintro ⟨heq, -⟩ f hf
    exact hiff.mp heq f.pair (mem_map_of_mem hf)
  · intro hpal
    refine ⟨hiff.mpr ?_, rfl⟩
    intro e he
    obtain ⟨f, hf, rfl⟩ := mem_map.mp he
    exact hpal f hf

def hostTwice : List Field :=
  let host : Field := ⟨[0x48, 0x6F, 0x73, 0x74], [0x61, 0x3A, 0x38], by decide, by decide,
    by decide, by decide, by decide, by decide, by decide⟩
  [host, ⟨[0x62], [], by decide, by decide, by decide, by decide, by decide, by decide, by decide⟩,
    host]

theorem read_write_iff_hostTwice :
    read DFL_FIELD_LIMIT [] (write (ofList (hostTwice.map Field.pair)) ++ CRLF)
      = .ok (ofList (hostTwice.map Field.pair), CRLF) :=
  (read_write_iff hostTwice (by decide)).mpr (by decide)

/-- Two fields `a` with the values `1` and `2` are written as `2` and `1` and read as `1`
and `2`. -/
theorem read_write_reversed :
    let header := ofList [([0x61], [0x31]), ([0x61], [0x32])]
    ∃ header', read DFL_FIELD_LIMIT [] (write header ++ CRLF) = .ok (header', CRLF) ∧
      header' ≠ header := by
  exact ⟨[([0x61], [0x31]), ([0x61], [0x32])], by decide, by decide⟩

end MessageHeader

end Poco.Net
