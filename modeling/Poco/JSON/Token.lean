import Poco.JSON.Grammar
import Poco.JSON.Methods

/-!
# Tokens

Between the bytes of a text and the callbacks for it stand its tokens: the six structural
characters, strings, and the other scalars.

## Main definitions

* `Token`, `Spelled`: a token, with the value that the parser has for it, and its spellings.
* `supported`: the unicode escapes and the numbers that have a value: a surrogate stands only in a
  pair of a high and a low one, and a number is one that the parsers for integers or for
  floating-point numbers accept.
* `TokenStep`, `Reads`: what the parser does at a token, as a pushdown machine without buffer,
  flags and escapes, and a run over the tokens that some lexemes spell.
* `Spaced`: a text that consists of the given lexemes, with a gap before each of them and one at
  its end.  The gaps satisfy `G`, which may depend on the lexeme before the gap.

## Main results

* `exists_decodes_iff`: the strings that are decoded are those of the supported lexicon.
-/

namespace Poco.JSON

open Grammar Modes List

variable {D : Type}

/-! ### Tokens -/

inductive Token (D : Type) where
  | beginObject | endObject | beginArray | endArray | nameSeparator | valueSeparator
  /-- A string, decoded. -/
  | string (b : Bytes)
  /-- A number or a literal, as the callback that delivers it. -/
  | scalar (c : Callback D)

/-- The characters of a string and the bytes that the parser has for them. -/
inductive Decodes : Bytes → Bytes → Prop where
  | nil : Decodes [] []
  | unescaped {t d : Bytes} {c : UInt8} (ht : Decodes t d) (hc : isUnescaped c = true) :
      Decodes (t ++ [c]) (d ++ [c])
  | sequence {t d bs : Bytes} (ht : Decodes t d) (hbs : Utf8.isSeq bs = true) :
      Decodes (t ++ bs) (d ++ bs)
  | escape {t d : Bytes} {c : UInt8} (ht : Decodes t d) (hc : isEscape c = true) :
      Decodes (t ++ [0x5C, c]) (d ++ Parser.escapeBytes c)
  | unit {t d ds bs : Bytes} (ht : Decodes t d) (hds : IsHex4 ds)
      (h : Parser.decoded 0 (Parser.hexValue ds) = some (bs, 0)) :
      Decodes (t ++ 0x5C :: 0x75 :: ds) (d ++ bs)
  | pair {t d ds es bs : Bytes} {hi : ℕ} (ht : Decodes t d) (hds : IsHex4 ds)
      (hhi : hi ≠ 0) (h1 : Parser.decoded 0 (Parser.hexValue ds) = some ([], hi))
      (hes : IsHex4 es) (h2 : Parser.decoded hi (Parser.hexValue es) = some (bs, 0)) :
      Decodes (t ++ 0x5C :: 0x75 :: ds ++ 0x5C :: 0x75 :: es) (d ++ bs)

variable [StrToDouble D]

inductive Spelled : Token D → Bytes → Prop where
  | beginObject : Spelled .beginObject [0x7B]
  | endObject : Spelled .endObject [0x7D]
  | beginArray : Spelled .beginArray [0x5B]
  | endArray : Spelled .endArray [0x5D]
  | nameSeparator : Spelled .nameSeparator [0x3A]
  | valueSeparator : Spelled .valueSeparator [0x2C]
  | string {t d : Bytes} (h : Decodes t d) : Spelled (.string d) (0x22 :: (t ++ [0x22]))
  | false : Spelled (.scalar (.bool false)) [0x66, 0x61, 0x6C, 0x73, 0x65]
  | null : Spelled (.scalar .null) [0x6E, 0x75, 0x6C, 0x6C]
  | true : Spelled (.scalar (.bool true)) [0x74, 0x72, 0x75, 0x65]
  | integer {l : Bytes} {c : Callback D} (h : IsInteger l)
      (hv : Parser.integerValue l = .ok c) : Spelled (.scalar c) l
  | float {l : Bytes} {d : D} (h : IsFloat l) (hv : Parser.parseFloat l = some d) :
      Spelled (.scalar (.float d)) l

/-! ### The lexicon of the parser -/

def isHigh (n : ℕ) : Bool := 0xD800 ≤ n && n ≤ 0xDBFF

def isLow (n : ℕ) : Bool := 0xDC00 ≤ n && n ≤ 0xDFFF

def supported (D : Type) [StrToDouble D] : Lexicon where
  unicode u :=
    (∃ ds, IsHex4 ds ∧ isHigh (Grammar.hexVal ds) = false ∧ isLow (Grammar.hexVal ds) = false ∧
      u = 0x5C :: 0x75 :: ds) ∨
    ∃ ds es, IsHex4 ds ∧ IsHex4 es ∧ isHigh (Grammar.hexVal ds) = true ∧
      isLow (Grammar.hexVal es) = true ∧ u = 0x5C :: 0x75 :: ds ++ 0x5C :: 0x75 :: es
  number l :=
    (IsInteger l ∧ ∃ c : Callback D, Parser.integerValue l = .ok c) ∨
    (IsFloat l ∧ ∃ d : D, Parser.parseFloat l = some d)

theorem hexDigit_eq : ∀ c : UInt8, isHexDigit c = true →
    Parser.hexDigit c = Grammar.hexDigitVal c := by decide

theorem hexValue_eq {ds : Bytes} (h : IsHex4 ds) :
    Parser.hexValue ds = Grammar.hexVal ds :=
  foldl_ext _ _ _ fun n c hc => by rw [hexDigit_eq c (h.2 c hc)]

theorem isHighSurrogate_eq (n : ℕ) : Parser.isHighSurrogate n = isHigh n := by
  rw [Bool.eq_iff_iff, Parser.isHighSurrogate, isHigh, decide_eq_true_eq, Bool.and_eq_true,
    decide_eq_true_eq, decide_eq_true_eq]
  omega

theorem isLowSurrogate_eq (n : ℕ) : Parser.isLowSurrogate n = isLow n := by
  rw [Bool.eq_iff_iff, Parser.isLowSurrogate, isLow, decide_eq_true_eq, Bool.and_eq_true,
    decide_eq_true_eq, decide_eq_true_eq]
  omega

theorem not_surrogate_of_lt (hn : n < 0x800) : isHigh n = false ∧ isLow n = false := by
  simp only [isHigh, isLow, Bool.and_eq_false_iff, decide_eq_false_iff_not]
  omega

/-- A unit that is not a surrogate is decoded, a high surrogate is kept. -/
theorem decoded_zero (n : ℕ) : ∃ bs, Parser.decoded 0 n =
    if isHigh n then some ([], n) else if isLow n then none else some (bs, 0) := by
  rw [Parser.decoded, if_neg (not_not_intro rfl), isHighSurrogate_eq, isLowSurrogate_eq]
  by_cases hn : n < 0x800
  · obtain ⟨hh, hl⟩ := not_surrogate_of_lt hn
    rw [hh, hl]
    split
    · exact ⟨_, rfl⟩
    · exact ⟨_, rfl⟩
  · rw [if_neg (by omega), if_neg hn]
    exact ⟨_, rfl⟩

/-- After a high surrogate only a low one is decoded. -/
theorem decoded_pending (hhi : hi ≠ 0) (n : ℕ) : ∃ bs, Parser.decoded hi n =
    if isLow n then some (bs, 0) else none := by
  rw [Parser.decoded, if_pos hhi, isLowSurrogate_eq]
  exact ⟨_, rfl⟩

theorem ne_zero_of_isHigh (h : isHigh n = true) : n ≠ 0 := by
  rintro rfl
  cases h

theorem decoded_zero_cases (h : Parser.decoded 0 n = some (bs, hi)) :
    hi = 0 ∧ isHigh n = false ∧ isLow n = false ∨ hi ≠ 0 ∧ isHigh n = true ∧ bs = [] := by
  obtain ⟨bs', hd⟩ := decoded_zero n
  rw [hd] at h
  split_ifs at h with hh hl
  · cases h
    exact .inr ⟨ne_zero_of_isHigh hh, hh, rfl⟩
  · cases h
    exact .inl ⟨rfl, by simpa using hh, by simpa using hl⟩

theorem decoded_pending_cases (hhi : hi ≠ 0)
    (h : Parser.decoded hi n = some (bs, hi')) : hi' = 0 ∧ isLow n = true := by
  obtain ⟨bs', hd⟩ := decoded_pending hhi n
  rw [hd] at h
  split_ifs at h with hl
  cases h
  exact ⟨rfl, hl⟩

theorem exists_decodes_iff : (∃ d, Decodes t d) ↔ IsChars (supported D) t := by
  constructor
  · rintro ⟨d, h⟩
    induction h with
    | nil => exact .nil
    | unescaped _ hc ih => exact ih.unescaped hc
    | sequence _ hbs ih => exact ih.sequence hbs
    | escape _ hc ih => exact ih.escape hc
    | @unit t d ds bs _ hds h ih =>
      rw [hexValue_eq hds] at h
      obtain ⟨-, hh, hl⟩ := (decoded_zero_cases h).resolve_right fun h => h.1 rfl
      exact ih.unicode (.inl ⟨ds, hds, hh, hl, rfl⟩)
    | @pair t d ds es bs hi _ hds hhi h1 hes h2 ih =>
      rw [hexValue_eq hds] at h1
      rw [hexValue_eq hes] at h2
      obtain ⟨-, hh, -⟩ := (decoded_zero_cases h1).resolve_left fun h => hhi h.1
      rw [append_assoc]
      exact ih.unicode (.inr ⟨ds, es, hds, hes, hh, (decoded_pending_cases hhi h2).2, rfl⟩)
  · intro h
    induction h with
    | nil => exact ⟨_, .nil⟩
    | unescaped _ hc ih | sequence _ hc ih | escape _ hc ih =>
      obtain ⟨d, hd⟩ := ih
      first | exact ⟨_, hd.unescaped hc⟩ | exact ⟨_, hd.sequence hc⟩ | exact ⟨_, hd.escape hc⟩
    | unicode _ hu ih =>
      obtain ⟨d, hd⟩ := ih
      rcases hu with ⟨ds, hds, hh, hl, rfl⟩ | ⟨ds, es, hds, hes, hh, hl, rfl⟩
      · obtain ⟨bs, hbs⟩ := decoded_zero (Grammar.hexVal ds)
        rw [hh, hl, ← hexValue_eq hds] at hbs
        exact ⟨_, hd.unit hds hbs⟩
      have h0 := ne_zero_of_isHigh hh
      obtain ⟨_, h1⟩ := decoded_zero (Grammar.hexVal ds)
      obtain ⟨bs, h2⟩ := decoded_pending h0 (Grammar.hexVal es)
      rw [hh, ← hexValue_eq hds] at h1
      rw [hl, ← hexValue_eq hes] at h2
      rw [← append_assoc]
      rw [← hexValue_eq hds] at h0 h2
      exact ⟨_, hd.pair hds h0 h1 hes h2⟩

/-! ### The machine -/

/-- A configuration: the state between two tokens, the stack, and the callbacks made. -/
structure Config (D : Type) where
  place : States
  stack : List Modes
  log : List (Callback D)

def Config.start : Config D := ⟨.GO, [.MODE_DONE], []⟩

inductive TokenStep : Config D → Token D → Config D → Prop where
  | beginObject {s : States} {ms : List Modes} {l : List (Callback D)}
      (hs : s = .GO ∨ s = .VA ∨ s = .AR) :
      TokenStep ⟨s, ms, l⟩ .beginObject ⟨.OB, MODE_KEY :: ms, l ++ [.startObject]⟩
  | endEmpty {ms : List Modes} {l : List (Callback D)} :
      TokenStep ⟨.OB, MODE_KEY :: ms, l⟩ .endObject ⟨.OK, ms, l ++ [.endObject]⟩
  | endObject {ms : List Modes} {l : List (Callback D)} :
      TokenStep ⟨.OK, MODE_OBJECT :: ms, l⟩ .endObject ⟨.OK, ms, l ++ [.endObject]⟩
  | beginArray {s : States} {ms : List Modes} {l : List (Callback D)}
      (hs : s = .GO ∨ s = .VA ∨ s = .AR) :
      TokenStep ⟨s, ms, l⟩ .beginArray ⟨.AR, MODE_ARRAY :: ms, l ++ [.startArray]⟩
  | endArray {s : States} {ms : List Modes} {l : List (Callback D)} (hs : s = .AR ∨ s = .OK) :
      TokenStep ⟨s, MODE_ARRAY :: ms, l⟩ .endArray ⟨.OK, ms, l ++ [.endArray]⟩
  | nameSeparator {ms : List Modes} {l : List (Callback D)} :
      TokenStep ⟨.CO, MODE_KEY :: ms, l⟩ .nameSeparator ⟨.VA, MODE_OBJECT :: ms, l⟩
  | member {ms : List Modes} {l : List (Callback D)} :
      TokenStep ⟨.OK, MODE_OBJECT :: ms, l⟩ .valueSeparator ⟨.KE, MODE_KEY :: ms, l⟩
  | element {ms : List Modes} {l : List (Callback D)} :
      TokenStep ⟨.OK, MODE_ARRAY :: ms, l⟩ .valueSeparator ⟨.VA, MODE_ARRAY :: ms, l⟩
  | key {s : States} {ms : List Modes} {l : List (Callback D)} {b : Bytes}
      (hs : s = .OB ∨ s = .KE) :
      TokenStep ⟨s, MODE_KEY :: ms, l⟩ (.string b) ⟨.CO, MODE_KEY :: ms, l ++ [.key b]⟩
  | string {s : States} {m : Modes} {ms : List Modes} {l : List (Callback D)} {b : Bytes}
      (hs : s = .VA ∨ s = .AR) (hm : m = MODE_ARRAY ∨ m = MODE_OBJECT) :
      TokenStep ⟨s, m :: ms, l⟩ (.string b) ⟨.OK, m :: ms, l ++ [.string b]⟩
  | scalar {s : States} {m : Modes} {ms : List Modes} {l : List (Callback D)} {c : Callback D}
      (hs : s = .VA ∨ s = .AR) (hm : m = MODE_ARRAY ∨ m = MODE_OBJECT) :
      TokenStep ⟨s, m :: ms, l⟩ (.scalar c) ⟨.OK, m :: ms, l ++ [c]⟩

inductive Reads : Config D → List Bytes → Config D → Prop where
  | nil {A : Config D} : Reads A [] A
  | cons {A B C : Config D} {t : Token D} {l : Bytes} {ls : List Bytes}
      (hl : Spelled t l) (ht : TokenStep A t B) (h : Reads B ls C) : Reads A (l :: ls) C

variable {A B : Config D} {ls : List Bytes} {l s : Bytes}

theorem Reads.append (h : Reads A ls B) (h' : Reads B ls' C) : Reads A (ls ++ ls') C := by
  induction h with
  | nil => exact h'
  | cons hl ht _ ih => exact .cons hl ht (ih h')

theorem reads_one {t : Token D} (hl : Spelled t l) (ht : TokenStep A t B) :
    Reads A [l] B := .cons hl ht .nil

theorem Reads.concat {C : Config D} {t : Token D} (h : Reads A ls B) (hl : Spelled t l)
    (ht : TokenStep B t C) : Reads A (ls ++ [l]) C :=
  h.append (reads_one hl ht)

inductive Spaced (G : Bytes → Bytes → Prop) :
    Bytes → List Bytes → Bytes → Prop where
  | nil {prev w : Bytes} (hw : G prev w) : Spaced G prev [] w
  | cons {prev w l s : Bytes} {ls : List Bytes} (hw : G prev w)
      (h : Spaced G l ls s) : Spaced G prev (l :: ls) (w ++ l ++ s)

/-- A text with white space between its lexemes. -/
abbrev WsSpaced : List Bytes → Bytes → Prop := Spaced (fun _ => Ws) []

theorem wsSpaced_cons (hw : Ws w) (h : WsSpaced ls s) : WsSpaced (l :: ls) (w ++ l ++ s) := by
  refine .cons hw ?_
  cases h with
  | nil hw => exact .nil hw
  | cons hw h => exact .cons hw h

theorem wsSpaced_cases (h : WsSpaced (l :: ls) s) :
    ∃ w s', Ws w ∧ WsSpaced ls s' ∧ s = w ++ l ++ s' := by
  cases h with
  | @cons _ w _ s' _ hw h =>
    refine ⟨w, s', hw, ?_, rfl⟩
    cases h with
    | nil hw => exact .nil hw
    | cons hw h => exact .cons hw h

/-- White space at the begin of a text belongs to its first gap. -/
theorem wsSpaced_ws_append (hw : Ws w) (h : WsSpaced ls s) : WsSpaced ls (w ++ s) := by
  cases h with
  | nil hw' => exact .nil (hw.append hw')
  | cons hw' h =>
    rw [← append_assoc, ← append_assoc]
    exact .cons (hw.append hw') h

theorem wsSpaced_append (h : WsSpaced ls s)
    (h' : WsSpaced ls' s') : WsSpaced (ls ++ ls') (s ++ s') := by
  induction ls generalizing s with
  | nil =>
    cases h with
    | nil hw => exact wsSpaced_ws_append hw h'
  | cons l ls ih =>
    obtain ⟨w, s₁, hw, h₁, rfl⟩ := wsSpaced_cases h
    rw [append_assoc]
    exact wsSpaced_cons hw (ih h₁)

theorem wsSpaced_before (hw : Ws w) : WsSpaced [l] (l ++ w) := by
  simpa using wsSpaced_cons ws_nil (.nil hw : WsSpaced [] w)

theorem wsSpaced_one (l : Bytes) : WsSpaced [l] l := by
  simpa using wsSpaced_before (l := l) ws_nil

theorem wsSpaced_structural (h : Structural c s) : WsSpaced [[c]] s := by
  obtain ⟨a, b, ha, hb, rfl⟩ := h
  simpa using wsSpaced_cons (l := [c]) ha (.nil hb : WsSpaced [] b)

end Poco.JSON
