import Mathlib.Data.List.Nodup
import Mathlib.Data.List.TakeWhile
import Poco.Net.MessageHeader

/-!
# Media types and header parameters

`splitParameters` and `quote` of `Net/src/MessageHeader.cpp`, and `toString` and `parse` of
`Net/src/MediaType.cpp`.  `quote` puts a value between quotes if it has a character other
than letters, digits, `.`, `_` and `-`, and changes nothing in it; `splitParameters` drops
quotes, takes a backslash for the escape of the next character, between quotes and
elsewhere, and trims the end of what it has read.

## Main definitions

* `quote`, `splitParameters`: values are written, and parameters are read.
* `MediaType`, `toString`, `parse`: a media type, its text and its reader.
* `Survives`: a value without quotes, backslashes and blanks at its end.

## Main results

* `readValue_quote`, `trim_readValue_ne`: a value without quotes and backslashes is read as it is,
  any other as something else, whatever follows.
* `splitParameters_param`: one round reads one parameter.
* `parse_toString_iff`: when a media type is read back.
-/

namespace Poco.Net

open List Ascii NameValueCollection

namespace MessageHeader

/-! ### Quoting and splitting -/

def isUnquoted (allowSpace : Bool) (c : UInt8) : Bool :=
  isAlphaNumeric c || c == 0x2E || c == 0x5F || c == 0x2D || (isSpace c && allowSpace)

/-- `MessageHeader::quote`: what is appended to the result. -/
def quote (value : Bytes) (allowSpace : Bool) : Bytes :=
  if value.all (isUnquoted allowSpace) then value else [0x22] ++ value ++ [0x22]

/-- The two nested loops of `splitParameters` that read a value; `quoted` is being in the
inner one, `escaped` standing after a backslash.  The outer loop ends before a semicolon. -/
def readValue (quoted escaped : Bool) : Bytes → Bytes × Bytes
  | [] => ([], [])
  | c :: s =>
    if escaped = true then
      let r := readValue quoted false s
      (c :: r.1, r.2)
    else if c = 0x22 then readValue (!quoted) false s
    else if c = 0x5C then readValue quoted true s
    else if quoted = false ∧ c = 0x3B then ([], c :: s)
    else
      let r := readValue quoted false s
      (c :: r.1, r.2)

/-- `MessageHeader::splitParameters`.  Every round takes a character, so a fuel above the
length of the text suffices. -/
def splitParameters : ℕ → Bytes → NameValueCollection → NameValueCollection
  | 0, _, parameters => parameters
  | fuel + 1, s, parameters =>
    if s = [] then parameters
    else
      let s := s.dropWhile isSpace
      let pname := trimRightInPlace (s.takeWhile fun c => c != 0x3D && c != 0x3B)
      let s := s.dropWhile fun c => c != 0x3D && c != 0x3B
      let s := if s.head? = some 0x3B then s else s.tail
      let r := readValue false false (s.dropWhile isSpace)
      let parameters :=
        if pname = [] then parameters else add pname (trimRightInPlace r.1) parameters
      splitParameters fuel r.2.tail parameters

/-! ### Reading a value -/

/-- A character that is not copied: a quote or a backslash. -/
def isSpecial (c : UInt8) : Bool := c == 0x22 || c == 0x5C

theorem readValue_escaped (quoted : Bool) (c : UInt8) (s : Bytes) :
    readValue quoted true (c :: s)
      = (c :: (readValue quoted false s).1, (readValue quoted false s).2) := rfl

theorem readValue_quoteMark (quoted : Bool) (s : Bytes) :
    readValue quoted false (0x22 :: s) = readValue (!quoted) false s := rfl

theorem readValue_copy (hc : isSpecial c = false) (hend : quoted = true ∨ c ≠ 0x3B) (s : Bytes) :
    readValue quoted false (c :: s)
      = (c :: (readValue quoted false s).1, (readValue quoted false s).2) := by
  simp only [isSpecial, Bool.or_eq_false_iff, beq_eq_false_iff_ne] at hc
  rw [readValue, if_neg Bool.false_ne_true, if_neg hc.1, if_neg hc.2, if_neg]
  rintro ⟨hq, h⟩
  rcases hend with hend | hend
  · rw [hq] at hend
    cases hend
  · exact hend h

variable {s v w : Bytes}

theorem readValue_plain (hw : ∀ c ∈ w, isSpecial c = false) (s : Bytes) :
    readValue true false (w ++ s)
      = (w ++ (readValue true false s).1, (readValue true false s).2) := by
  induction w with
  | nil => rfl
  | cons c w ih =>
    rw [cons_append, readValue_copy (hw c mem_cons_self) (.inl rfl),
      ih fun d hd => hw d (mem_cons_of_mem _ hd)]
    rfl

def Ends (s : Bytes) : Prop := s = [] ∨ s.head? = some 0x3B

theorem Ends.cases (h : Ends s) : s = [] ∨ ∃ t, s = 0x3B :: t := by
  rcases h with h | h
  · exact .inl h
  · cases s with
    | nil => cases h
    | cons c s =>
      rw [head?_cons, Option.some.injEq] at h
      exact .inr ⟨s, by rw [h]⟩

theorem readValue_ends (h : Ends s) : readValue false false s = ([], s) := by
  rcases h.cases with rfl | ⟨t, rfl⟩
  · rfl
  · rfl

theorem not_isSpecial_of_isUnquoted : ∀ c : UInt8, isUnquoted false c = true →
    isSpecial c = false ∧ c ≠ 0x3B ∧ isSpace c = false := by decide

theorem readValue_unquoted (hw : ∀ c ∈ w, isUnquoted false c = true) (hs : Ends s) :
    readValue false false (w ++ s) = (w, s) := by
  induction w with
  | nil => exact readValue_ends hs
  | cons c w ih =>
    obtain ⟨h1, h2, -⟩ := not_isSpecial_of_isUnquoted c (hw c mem_cons_self)
    rw [cons_append, readValue_copy h1 (.inr h2), ih fun d hd => hw d (mem_cons_of_mem _ hd)]

theorem dropWhile_quote (hs : Ends s) :
    (quote v false ++ s).dropWhile isSpace = quote v false ++ s := by
  unfold quote
  split
  · next hall =>
    rw [all_eq_true] at hall
    cases v with
    | nil =>
      rcases hs.cases with rfl | ⟨t, rfl⟩
      · rfl
      · rfl
    | cons c v =>
      obtain ⟨-, -, h⟩ := not_isSpecial_of_isUnquoted c (hall c mem_cons_self)
      rw [cons_append, dropWhile_cons_of_neg (by simp [h])]
  · rfl

theorem readValue_quote (hv : ∀ c ∈ v, isSpecial c = false) (hs : Ends s) :
    readValue false false (quote v false ++ s) = (v, s) := by
  unfold quote
  split
  · next hall => exact readValue_unquoted (all_eq_true.mp hall) hs
  · rw [append_assoc, append_assoc, singleton_append, singleton_append,
      readValue_quoteMark, Bool.not_false, readValue_plain hv, readValue_quoteMark,
      Bool.not_true, readValue_ends hs, append_nil]

/-- Quotes and backslashes that are missing in front of a text are not read from the text.
After a backslash the closing quote may be read in place of one quote. -/
theorem not_isPrefix_readValue (hs : Ends s) (hu : ∀ c ∈ u, isSpecial c = true)
    (hne : u ≠ []) (quoted escaped : Bool) (hesc : escaped = true → u ≠ [0x22]) :
    ¬ u ++ w <+: (readValue quoted escaped (w ++ 0x22 :: s)).1 := by
  -- a text that begins with another character
  have hhead : ∀ {u w t : Bytes} {c : UInt8}, (∀ c ∈ u, isSpecial c = true) → u ≠ [] →
      isSpecial c = false → ¬ u ++ w <+: c :: t := by
    intro u w t c hu hne hc h
    obtain ⟨d, u, rfl⟩ := exists_cons_of_ne_nil hne
    rw [cons_append, cons_prefix_cons] at h
    rw [← h.1, hu d mem_cons_self] at hc
    cases hc
  induction w generalizing u quoted escaped with
  | nil =>
    have hends : ∀ {u : Bytes} {quoted : Bool}, (∀ c ∈ u, isSpecial c = true) → u ≠ [] →
        ¬ u ++ [] <+: (readValue quoted false s).1 := by
      intro u quoted hu hne
      have hnil : ¬ u ++ [] <+: [] := by simpa using hne
      rcases hs.cases with rfl | ⟨t, rfl⟩
      · exact hnil
      · cases quoted with
        | false => exact hnil
        | true => exact hhead hu hne rfl
    cases escaped with
    | false => exact hends hu hne
    | true =>
      intro h
      obtain ⟨c, u, rfl⟩ := exists_cons_of_ne_nil hne
      rw [nil_append, readValue_escaped, cons_append, cons_prefix_cons] at h
      refine hends (fun d hd => hu d (mem_cons_of_mem _ hd)) ?_ h.2
      rintro rfl
      exact hesc rfl (by rw [h.1])
  | cons b w ih =>
    have hmore : isSpecial b = true → ∀ quoted escaped,
        ¬ u ++ b :: w <+: (readValue quoted escaped (w ++ 0x22 :: s)).1 := by
      intro hb quoted escaped
      rw [append_cons]
      exact ih (forall_mem_append.mpr ⟨hu, forall_mem_singleton.mpr hb⟩) (by simp) _ _
        fun _ h => hne (append_inj_left' h rfl)
    cases escaped with
    | true =>
      intro h
      obtain ⟨c, u, rfl⟩ := exists_cons_of_ne_nil hne
      rw [cons_append, cons_append, readValue_escaped, cons_prefix_cons, append_cons] at h
      have hu' := forall_mem_cons.mp hu
      exact ih (forall_mem_append.mpr ⟨hu'.2, forall_mem_singleton.mpr (h.1 ▸ hu'.1)⟩) (by simp)
        quoted false nofun h.2
    | false =>
      by_cases hqt : b = 0x22
      · subst hqt
        exact hmore rfl _ _
      by_cases hback : b = 0x5C
      · subst hback
        exact hmore rfl _ _
      have hb : isSpecial b = false := by simp [isSpecial, hqt, hback]
      by_cases hend : quoted = true ∨ b ≠ 0x3B
      · rw [cons_append, readValue_copy hb hend]
        exact hhead hu hne hb
      · obtain ⟨hq, rfl⟩ := by simpa using hend
        rw [hq]
        simp [readValue]

theorem trim_readValue_ne (hv : ∃ c ∈ v, isSpecial c = true) (hs : Ends s) :
    trimRightInPlace (readValue true false (v ++ 0x22 :: s)).1 ≠ v := by
  intro heq
  have hpre : v <+: (readValue true false (v ++ 0x22 :: s)).1 := by
    conv_lhs => rw [← heq]
    exact rdropWhile_prefix _ _
  -- the value up to its first quote or backslash
  obtain ⟨c, hc⟩ := Option.isSome_iff_exists.mp (find?_isSome.mpr hv)
  obtain ⟨hspe, α, β, rfl, hα⟩ := find?_eq_some_iff_append.mp hc
  rw [append_assoc, readValue_plain fun d hd => by simpa using hα d hd,
    prefix_append_right_inj] at hpre
  simp only [isSpecial, Bool.or_eq_true, beq_iff_eq] at hspe
  rcases hspe with rfl | rfl
  · exact not_isPrefix_readValue (u := [0x22]) hs (by decide) (by decide) false false nofun hpre
  · exact not_isPrefix_readValue (u := [0x5C]) hs (by decide) (by decide) true true (by decide)
      hpre

/-! ### Splitting a list of parameters -/

/-- A character of a token of RFC 2045: printable, and none of the special characters. -/
def isTokenChar (c : UInt8) : Bool :=
  0x21 ≤ c && c ≤ 0x7E &&
    !([0x28, 0x29, 0x3C, 0x3E, 0x40, 0x2C, 0x3B, 0x3A, 0x5C, 0x22, 0x2F, 0x5B, 0x5D, 0x3F,
      0x3D].contains c)

structure Token where
  text : Bytes
  ne_nil : text ≠ []
  chars : ∀ c ∈ text, isTokenChar c = true

theorem isTokenChar_spec : ∀ c : UInt8, isTokenChar c = true →
    (c != 0x3D && c != 0x3B) = true ∧ isSpace c = false ∧ c ≠ 0x2F := by decide

theorem mem_splitParameters {e : Bytes × Bytes} : ∀ {fuel : ℕ} {s : Bytes}
    {parameters : NameValueCollection}, e ∈ parameters →
      e ∈ splitParameters fuel s parameters := by
  intro fuel
  induction fuel with
  | zero => intro s parameters he; exact he
  | succ fuel ih =>
    intro s parameters he
    unfold splitParameters
    split
    · exact he
    · apply ih
      split
      · exact he
      · exact ListMap.mem_insert.mpr (.inr he)

theorem splitParameters_param (fuel : ℕ) (name : Token) (s : Bytes)
    (parameters : NameValueCollection) :
    let r := readValue false false (s.dropWhile isSpace)
    splitParameters (fuel + 1) (0x20 :: (name.text ++ 0x3D :: s)) parameters
      = splitParameters fuel r.2.tail (add name.text (trimRightInPlace r.1) parameters) := by
  intro r
  have hskip : (0x20 :: (name.text ++ 0x3D :: s)).dropWhile isSpace = name.text ++ 0x3D :: s := by
    obtain ⟨c, w, hw⟩ := exists_cons_of_ne_nil name.ne_nil
    have hc := (isTokenChar_spec c (name.chars c (by rw [hw]; exact mem_cons_self))).2.1
    rw [dropWhile_cons_of_pos rfl, hw, cons_append, dropWhile_cons_of_neg (by simp [hc])]
  have hname : ∀ c ∈ name.text, (c != 0x3D && c != 0x3B) = true :=
    fun c hc => (isTokenChar_spec c (name.chars c hc)).1
  have htake : (name.text ++ 0x3D :: s).takeWhile (fun c => c != 0x3D && c != 0x3B) =
    name.text := by
    rw [takeWhile_append_of_pos hname]
    simp
  have hdrop : (name.text ++ 0x3D :: s).dropWhile (fun c => c != 0x3D && c != 0x3B)
      = 0x3D :: s := by
    rw [dropWhile_append_of_pos hname]
    rfl
  have htrim : trimRightInPlace name.text = name.text := by
    apply trimRightInPlace_of_getLast
    intro c hc
    exact (isTokenChar_spec c (name.chars c (mem_of_getLast? hc))).2.1
  rw [splitParameters, if_neg (cons_ne_nil _ _)]
  simp only [hskip, htake, hdrop, htrim, head?_cons, tail_cons, name.ne_nil, if_false]
  rfl

end MessageHeader

/-! ### Media types -/

open MessageHeader

structure MediaType where
  type : Bytes
  subType : Bytes
  parameters : NameValueCollection
  deriving DecidableEq, Repr

namespace MediaType

def parametersText (parameters : NameValueCollection) : Bytes :=
  parameters.flatMap fun p => [0x3B, 0x20] ++ p.1 ++ [0x3D] ++ quote p.2 false

def toString (m : MediaType) : Bytes :=
  m.type ++ [0x2F] ++ m.subType ++ parametersText m.parameters

def parse (mediaType : Bytes) : MediaType :=
  let s := mediaType.dropWhile isSpace
  let type := s.takeWhile (· != 0x2F)
  let s := (s.dropWhile (· != 0x2F)).tail
  let subType := s.takeWhile fun c => c != 0x3B && !isSpace c
  let s := (s.dropWhile fun c => c != 0x3B && !isSpace c).dropWhile (· != 0x3B)
  ⟨type, subType, splitParameters (s.length + 1) s []⟩

structure Value where
  text : Bytes
  noControl : ∀ c ∈ text, 0x20 ≤ c ∧ c ≠ 0x7F

def Survives (v : Value) : Prop :=
  (∀ c ∈ v.text, c ≠ 0x22 ∧ c ≠ 0x5C) ∧ v.text.getLast? ≠ some 0x20

instance (v : Value) : Decidable (Survives v) := inferInstanceAs (Decidable (_ ∧ _))

def pairs (ps : List (Token × Value)) : NameValueCollection :=
  ps.map fun p => (p.1.text, p.2.text)

theorem parametersText_cons (p : Token × Value) (ps : List (Token × Value)) :
    parametersText (pairs (p :: ps)) = 0x3B :: 0x20 ::
      (p.1.text ++ 0x3D :: (quote p.2.text false ++ parametersText (pairs ps))) := by
  simp [parametersText, pairs]

theorem ends_parametersText (ps : List (Token × Value)) : Ends (parametersText (pairs ps)) := by
  cases ps with
  | nil => exact .inl rfl
  | cons p ps =>
    exact .inr rfl

/-- The end of a value that is free of control characters is white space if it is a blank. -/
theorem trim_eq_self_iff (v : Value) :
    trimRightInPlace v.text = v.text ↔ v.text.getLast? ≠ some 0x20 := by
  have key : ∀ c : UInt8, 0x20 ≤ c → (isSpace c = true ↔ c = 0x20) := by decide
  rw [trimRightInPlace, rdropWhile_eq_self_iff]
  constructor
  · intro h hlast
    have hne : v.text ≠ [] := by
      intro h0
      rw [h0] at hlast
      cases hlast
    rw [getLast?_eq_some_getLast hne, Option.some.injEq] at hlast
    exact h hne (by rw [hlast]; rfl)
  · intro h hne hspc
    rw [getLast?_eq_some_getLast hne, ne_eq, Option.some.injEq] at h
    exact h ((key _ (v.noControl _ (getLast_mem hne)).1).mp hspc)

/-- **What one parameter is read as**, and what is left to read. -/
theorem splitParameters_cons {p : Token × Value} (hp : ∀ c ∈ p.2.text, isSpecial c = false)
    (ps : List (Token × Value)) (fuel : ℕ) (acc : NameValueCollection) :
    splitParameters (fuel + 1) (parametersText (pairs (p :: ps))).tail acc
      = splitParameters fuel (parametersText (pairs ps)).tail
          (add p.1.text (trimRightInPlace p.2.text) acc) := by
  have hends := ends_parametersText ps
  rw [parametersText_cons, tail_cons, splitParameters_param, dropWhile_quote hends,
    readValue_quote hp hends]

/-- Parameters whose values survive are added one after the other. -/
theorem splitParameters_pairs : ∀ {ps : List (Token × Value)} {fuel : ℕ}
    {acc : NameValueCollection}, (∀ p ∈ ps, Survives p.2) → ps.length ≤ fuel →
      splitParameters fuel (parametersText (pairs ps)).tail acc
        = ListMap.insertAll sameName acc (pairs ps) := by
  intro ps
  induction ps with
  | nil =>
    intro fuel acc _ _
    cases fuel <;> rfl
  | cons p ps ih =>
    intro fuel acc hps hfuel
    rw [length_cons] at hfuel
    obtain ⟨fuel, rfl⟩ : ∃ n, fuel = n + 1 := ⟨fuel - 1, by omega⟩
    obtain ⟨hpl, hlast⟩ := hps p mem_cons_self
    rw [splitParameters_cons (fun c hc => by simpa [isSpecial] using hpl c hc),
      (trim_eq_self_iff p.2).mpr hlast, ih (fun q hq => hps q (mem_cons_of_mem _ hq)) (by omega)]
    rfl

/-- The first parameter whose value does not survive gets another value. -/
theorem mem_splitParameters_pairs : ∀ {ps : List (Token × Value)} {fuel : ℕ}
    {acc : NameValueCollection}, (∃ p ∈ ps, ¬ Survives p.2) → ps.length ≤ fuel →
      ∃ p ∈ ps, ∃ x, x ≠ p.2.text ∧
        (p.1.text, x) ∈ splitParameters fuel (parametersText (pairs ps)).tail acc := by
  intro ps
  induction ps with
  | nil =>
    rintro fuel acc ⟨p, hp, -⟩ -
    cases hp
  | cons p ps ih =>
    intro fuel acc hbad hfuel
    rw [length_cons] at hfuel
    obtain ⟨fuel, rfl⟩ : ∃ n, fuel = n + 1 := ⟨fuel - 1, by omega⟩
    have hends := ends_parametersText ps
    by_cases hspe : ∃ c ∈ p.2.text, isSpecial c = true
    · -- quotes or backslashes
      refine ⟨p, mem_cons_self, _, trim_readValue_ne hspe hends, ?_⟩
      have hqt : quote p.2.text false = [0x22] ++ p.2.text ++ [0x22] := by
        rw [quote, if_neg]
        intro hall
        obtain ⟨c, hc, hs⟩ := hspe
        have := (not_isSpecial_of_isUnquoted c (all_eq_true.mp hall c hc)).1
        rw [hs] at this
        cases this
      have hread : readValue false false (quote p.2.text false ++ parametersText (pairs ps))
          = readValue true false (p.2.text ++ 0x22 :: parametersText (pairs ps)) := by
        rw [hqt, append_assoc, append_assoc, singleton_append,
          singleton_append, readValue_quoteMark, Bool.not_false]
      rw [parametersText_cons, tail_cons, splitParameters_param, dropWhile_quote hends, hread]
      exact mem_splitParameters (ListMap.mem_insert.mpr (.inl rfl))
    · have hpl : ∀ c ∈ p.2.text, isSpecial c = false := by simpa using hspe
      rw [splitParameters_cons hpl]
      by_cases htrim : trimRightInPlace p.2.text = p.2.text
      · -- this one survives
        have hp : Survives p.2 :=
          ⟨fun c hc => by simpa [isSpecial] using hpl c hc, (trim_eq_self_iff p.2).mp htrim⟩
        have hrest := ((exists_mem_cons_iff _ p ps).mp hbad).resolve_left (not_not_intro hp)
        obtain ⟨q', hq', hx⟩ := ih hrest (Nat.le_of_succ_le_succ hfuel)
        exact ⟨q', mem_cons_of_mem _ hq', hx⟩
      · -- blanks at the end
        exact ⟨p, mem_cons_self, _, htrim, mem_splitParameters (ListMap.mem_insert.mpr (.inl rfl))⟩

theorem parse_toString (type subType : Token) (ps : List (Token × Value)) :
    parse (toString ⟨type.text, subType.text, pairs ps⟩) = ⟨type.text, subType.text,
      splitParameters (parametersText (pairs ps)).length (parametersText (pairs ps)).tail []⟩ := by
  have htype : ∀ c ∈ type.text, (c != 0x2F) = true := by
    intro c hc
    simpa using (isTokenChar_spec c (type.chars c hc)).2.2
  have hsub : ∀ c ∈ subType.text, (c != 0x3B && !isSpace c) = true := by
    intro c hc
    obtain ⟨h1, h2, -⟩ := isTokenChar_spec c (subType.chars c hc)
    rw [Bool.and_eq_true] at h1
    simp [h1.2, h2]
  have hskip : (toString ⟨type.text, subType.text, pairs ps⟩).dropWhile isSpace
      = type.text ++ 0x2F :: (subType.text ++ parametersText (pairs ps)) := by
    obtain ⟨c, w, hw⟩ := exists_cons_of_ne_nil type.ne_nil
    have hc := (isTokenChar_spec c (type.chars c (by rw [hw]; exact mem_cons_self))).2.1
    simp only [toString, hw, append_assoc, cons_append, nil_append]
    rw [dropWhile_cons_of_neg (by simp [hc])]
  unfold parse
  rw [hskip]
  simp only [takeWhile_append_of_pos htype, dropWhile_append_of_pos htype]
  rcases (ends_parametersText ps).cases with hp | ⟨t, hp⟩
  · rw [hp]
    have htake : subType.text.takeWhile (fun c => c != 0x3B && !isSpace c) = subType.text :=
      takeWhile_eq_self_iff.mpr hsub
    have hdrop : subType.text.dropWhile (fun c => c != 0x3B && !isSpace c) = [] :=
      dropWhile_eq_nil_iff.mpr hsub
    simp [htake, hdrop, splitParameters]
  · rw [hp]
    simp only [bne_self_eq_false, Bool.false_eq_true, not_false_eq_true, takeWhile_cons_of_neg,
      append_nil, dropWhile_cons_of_neg, tail_cons, takeWhile_append_of_pos hsub,
      dropWhile_append_of_pos hsub, Bool.false_and, length_cons]
    rfl

/-- **When a media type is read back**: exactly if no value of a parameter has a quote, a
backslash or a blank at its end. -/
theorem parse_toString_iff (type subType : Token) (ps : List (Token × Value))
    (hdistinct : ps.Pairwise fun p q => sameName p.1.text q.1.text = false) :
    parse (toString ⟨type.text, subType.text, pairs ps⟩)
        = ⟨type.text, subType.text, pairs ps⟩ ↔ ∀ p ∈ ps, Survives p.2 := by
  have hfuel : ps.length ≤ (parametersText (pairs ps)).length := by
    clear hdistinct
    induction ps with
    | nil => exact Nat.zero_le _
    | cons p ps ih =>
      rw [parametersText_cons]
      simp only [length_cons, length_append]
      omega
  rw [parse_toString, MediaType.mk.injEq]
  constructor
  · rintro ⟨-, -, h⟩
    by_contra hbad
    push Not at hbad
    obtain ⟨p, hp, x, hx, hmem⟩ := @mem_splitParameters_pairs ps _ [] hbad hfuel
    rw [h] at hmem
    -- the name is that of one parameter only
    obtain ⟨q, hq, heq⟩ := mem_map.mp hmem
    rw [Prod.mk.injEq] at heq
    have hnd : (ps.map fun p => p.1.text).Nodup := by
      refine pairwise_map.mpr (hdistinct.imp fun h heq => ?_)
      rw [heq, sameName_equivalence.refl] at h
      cases h
    obtain rfl := inj_on_of_nodup_map hnd hq hp heq.1
    exact hx heq.2.symm
  · intro h
    refine ⟨rfl, rfl, ?_⟩
    rw [splitParameters_pairs h hfuel, ListMap.insertAll_of_pairwise ?_ (by simp)]
    · rfl
    · rw [pairs, pairwise_map]
      exact hdistinct

/-- Two parameters, of which one has a semicolon and blanks in its value and one no value. -/
def twoParameters : List (Token × Value) :=
  [(⟨[0x61], by decide, by decide⟩, ⟨[0x20, 0x3B, 0x20, 0x62], by decide⟩),
    (⟨[0x63], by decide, by decide⟩, ⟨[], by decide⟩)]

theorem parse_toString_iff_two :
    let mediaType : MediaType :=
      ⟨[0x74, 0x65, 0x78, 0x74], [0x70, 0x6C, 0x61, 0x69, 0x6E], pairs twoParameters⟩
    parse (toString mediaType) = mediaType :=
  (parse_toString_iff ⟨[0x74, 0x65, 0x78, 0x74], by decide, by decide⟩
    ⟨[0x70, 0x6C, 0x61, 0x69, 0x6E], by decide, by decide⟩ twoParameters (by decide)).mpr
    (by decide)

/-- The value `a\b` of a parameter `p` of `a/b` is read as `ab`, and `c"; q="d` as two
parameters. -/
theorem parse_toString_corrupts :
    parse (toString ⟨[0x61], [0x62], [([0x70], [0x61, 0x5C, 0x62])]⟩)
        = ⟨[0x61], [0x62], [([0x70], [0x61, 0x62])]⟩ ∧
      parse (toString ⟨[0x61], [0x62],
        [([0x70], [0x63, 0x22, 0x3B, 0x20, 0x71, 0x3D, 0x22, 0x64])]⟩)
        = ⟨[0x61], [0x62], [([0x70], [0x63]), ([0x71], [0x64])]⟩ := by decide

end MediaType

end Poco.Net
