import Poco.JSON.Assertions
import Poco.JSON.Lexing

/-!
# Pieces of tokens

What the parser has read when it is in the middle of a number, a literal or a string: for
each state of the transition table the pieces that lead to it.

## Main definitions

* `Lexeme`: the lexemes of a type that is not a string.
* `Scan`: the pieces of numbers and literals that lead to a type and a state.
* `StrScan`: the pieces of a string that lead to a state, a pending surrogate and a buffer.

## Main results

* `scanNext_of_next`, `stringNext_of_next`, `on_of_act`: checks of all entries of the table.
* `Scan.next`, `StrScan.next`: a character that leads to the next state extends the piece.
* `StrScan.unicode`: the last digit of a unicode escape.
-/

namespace Poco.JSON

open List Grammar Modes JSONType

/-! ### Numbers and literals, piece by piece -/

inductive Lexeme : JSONType → Bytes → Prop where
  | integer {l : Bytes} (h : IsInteger l) : Lexeme JSON_T_INTEGER l
  | float {l : Bytes} (h : IsFloat l) : Lexeme JSON_T_FLOAT l
  | false : Lexeme JSON_T_FALSE [0x66, 0x61, 0x6C, 0x73, 0x65]
  | null : Lexeme JSON_T_NULL [0x6E, 0x75, 0x6C, 0x6C]
  | true : Lexeme JSON_T_TRUE [0x74, 0x72, 0x75, 0x65]

/-- The begin of a literal that leads to a state. -/
def literalBegin : States → Bytes
  | .T1 => [0x74]
  | .T2 => [0x74, 0x72]
  | .T3 => [0x74, 0x72, 0x75]
  | .F1 => [0x66]
  | .F2 => [0x66, 0x61]
  | .F3 => [0x66, 0x61, 0x6C]
  | .F4 => [0x66, 0x61, 0x6C, 0x73]
  | .N1 => [0x6E]
  | .N2 => [0x6E, 0x75]
  | .N3 => [0x6E, 0x75, 0x6C]
  | _ => []

inductive Scan : JSONType → States → Bytes → Prop where
  | minus : Scan JSON_T_INTEGER .MI [0x2D]
  | zero {m : Bytes} (hm : IsMinus m) : Scan JSON_T_INTEGER .ZE (m ++ [0x30])
  | digits {m ds : Bytes} {d : UInt8} (hm : IsMinus m) (hd : isDigit19 d = true)
      (hds : Digits ds) : Scan JSON_T_INTEGER .IT (m ++ d :: ds)
  | point {i : Bytes} (hi : IsInteger i) : Scan JSON_T_FLOAT .FX (i ++ [0x2E])
  | frac {i f : Bytes} (hi : IsInteger i) (hf : IsFrac f) : Scan JSON_T_FLOAT .FR (i ++ f)
  | e {a : Bytes} {e : UInt8} (ha : IsMantissa a) (he : isE e = true) :
      Scan JSON_T_FLOAT .E1 (a ++ [e])
  | sign {a : Bytes} {e g : UInt8} (ha : IsMantissa a) (he : isE e = true)
      (hg : g = 0x2D ∨ g = 0x2B) : Scan JSON_T_FLOAT .E2 (a ++ [e, g])
  | exp {a x : Bytes} (ha : IsMantissa a) (hx : IsExp x) : Scan JSON_T_FLOAT .E3 (a ++ x)
  | literal {t : JSONType} {s : States} (hl : literalBegin s ≠ []) :
      Scan t s (literalBegin s)
  | done {t : JSONType} {l w : Bytes} (hl : Lexeme t l) (hw : Ws w) : Scan t .OK (l ++ w)

/-- The classes that lead from one state to the next, in a number or a literal. -/
def scanNext : States → Classes → States → Bool
  | .MI, k, s => k = .C_ZERO ∧ s = .ZE ∨ k = .C_DIGIT ∧ s = .IT
  | .ZE, k, s | .OK, k, s => (k = .C_SPACE ∨ k = .C_WHITE) ∧ s = .OK
  | .IT, k, s => (k = .C_SPACE ∨ k = .C_WHITE) ∧ s = .OK ∨ (k = .C_ZERO ∨ k = .C_DIGIT) ∧ s = .IT
  | .FX, k, s | .FR, k, s => (k = .C_SPACE ∨ k = .C_WHITE) ∧ s = .OK ∨
      (k = .C_ZERO ∨ k = .C_DIGIT) ∧ s = .FR ∨ (k = .C_LOW_E ∨ k = .C_E) ∧ s = .E1
  | .E1, k, s => (k = .C_MINUS ∨ k = .C_PLUS) ∧ s = .E2 ∨ (k = .C_ZERO ∨ k = .C_DIGIT) ∧ s = .E3
  | .E2, k, s => (k = .C_ZERO ∨ k = .C_DIGIT) ∧ s = .E3
  | .E3, k, s => (k = .C_SPACE ∨ k = .C_WHITE) ∧ s = .OK ∨ (k = .C_ZERO ∨ k = .C_DIGIT) ∧ s = .E3
  | .T1, k, s => k = .C_LOW_R ∧ s = .T2
  | .T2, k, s => k = .C_LOW_U ∧ s = .T3
  | .T3, k, s => k = .C_LOW_E ∧ s = .OK
  | .F1, k, s => k = .C_LOW_A ∧ s = .F2
  | .F2, k, s => k = .C_LOW_L ∧ s = .F3
  | .F3, k, s => k = .C_LOW_S ∧ s = .F4
  | .F4, k, s => k = .C_LOW_E ∧ s = .OK
  | .N1, k, s => k = .C_LOW_U ∧ s = .N2
  | .N2, k, s => k = .C_LOW_L ∧ s = .N3
  | .N3, k, s => k = .C_LOW_L ∧ s = .OK
  | _, _, _ => true

theorem scanNext_of_next : ∀ (s : States) (k : Classes) (s' : States), transition s k = .next s' →
    scanNext s k s' := by
  apply forall_next
  decide

/-- The characters of a class, as far as tokens depend on it. -/
def Classes.fits : Classes → UInt8 → Bool
  | .C_SPACE, c | .C_WHITE, c => isWs c
  | .C_LCURB, c => c = 0x7B
  | .C_RCURB, c => c = 0x7D
  | .C_LSQRB, c => c = 0x5B
  | .C_RSQRB, c => c = 0x5D
  | .C_COLON, c => c = 0x3A
  | .C_COMMA, c => c = 0x2C
  | .C_QUOTE, c => c = 0x22
  | .C_BACKS, c => c = 0x5C
  | .C_PLUS, c => c = 0x2B
  | .C_MINUS, c => c = 0x2D
  | .C_POINT, c => c = 0x2E
  | .C_ZERO, c => c = 0x30
  | .C_DIGIT, c => isDigit19 c
  | .C_LOW_A, c => c = 0x61
  | .C_LOW_E, c => c = 0x65
  | .C_LOW_F, c => c = 0x66
  | .C_LOW_L, c => c = 0x6C
  | .C_LOW_N, c => c = 0x6E
  | .C_LOW_R, c => c = 0x72
  | .C_LOW_S, c => c = 0x73
  | .C_LOW_T, c => c = 0x74
  | .C_LOW_U, c => c = 0x75
  | .C_E, c => c = 0x45
  | _, _ => true

theorem fits_of_asciiClass : ∀ {c : UInt8} {k : Classes}, asciiClass c = some k → k.fits c := by
  apply forall_class
  decide

section Scan

variable {c : UInt8} {k : Classes} (hk : asciiClass c = some k)

include hk

theorem isWs_of_class (h : k = .C_SPACE ∨ k = .C_WHITE) : isWs c = true := by
  rcases h with rfl | rfl <;> exact fits_of_asciiClass hk

theorem isDecDigit_of_class (h : k = .C_ZERO ∨ k = .C_DIGIT) : isDecDigit c = true := by
  have hc := fits_of_asciiClass hk
  rcases h with rfl | rfl
  · rw [of_decide_eq_true hc]
    rfl
  · exact isDecDigit_of_isDigit19 c hc

theorem isE_of_class (h : k = .C_LOW_E ∨ k = .C_E) : isE c = true := by
  have hc := fits_of_asciiClass hk
  rcases h with rfl | rfl <;> (rw [of_decide_eq_true hc]; rfl)

end Scan

variable {c : UInt8} {s s' : States} {k : Classes} {hi : ℕ} {b t : Bytes}

theorem digits_one (hc : isDecDigit c = true) : Digits [c] := forall_mem_singleton.mpr hc

variable {bs ds l m : Bytes}

theorem digits_concat (h : Digits ds) (hc : isDecDigit c = true) : Digits (ds ++ [c]) :=
  forall_mem_append.mpr ⟨h, digits_one hc⟩

theorem isInteger_zero (hm : IsMinus m) : IsInteger (m ++ [0x30]) :=
  ⟨m, _, hm, .inl rfl, rfl⟩

theorem isInteger_digits {d : UInt8} (hm : IsMinus m) (hd : isDigit19 d = true) (hds : Digits ds) :
    IsInteger (m ++ d :: ds) :=
  ⟨m, _, hm, .inr ⟨d, ds, hd, hds, rfl⟩, rfl⟩

theorem literalBegin_of_isEnd : ∀ s : States, s.isEnd → literalBegin s = [] := by decide

theorem Scan.lexeme {t : JSONType} (h : Scan t s l) (hs : s.isEnd) :
    ∃ x w, Lexeme t x ∧ Ws w ∧ l = x ++ w := by
  cases h with
  | zero hm => exact ⟨_, [], .integer (isInteger_zero hm), ws_nil, by simp⟩
  | digits hm hd hds => exact ⟨_, [], .integer (isInteger_digits hm hd hds), ws_nil, by simp⟩
  | frac hi hf => exact ⟨_, [], .float (.inl ⟨_, _, hi, hf, rfl⟩), ws_nil, by simp⟩
  | exp ha hx => exact ⟨_, [], .float (.inr ⟨_, _, ha, hx, rfl⟩), ws_nil, by simp⟩
  | done hl hw => exact ⟨_, _, hl, hw, rfl⟩
  | literal hl => exact absurd (literalBegin_of_isEnd s hs) hl
  | _ => cases hs

theorem Scan.next {t : JSONType} (h : Scan t s l) (ht : s.typeOk t) (hk : asciiClass c = some k)
    (htr : transition s k = .next s') (hslip : s = .FX → isWs c = false ∧ isE c = false) :
    Scan t s' (l ++ [c]) := by
  have hn := scanNext_of_next s k s' htr
  have hc := fits_of_asciiClass hk
  -- white space after a complete lexeme
  have done : s.isEnd → (k = .C_SPACE ∨ k = .C_WHITE) → Scan t .OK (l ++ [c]) := by
    intro hs hws
    obtain ⟨x, w, hx, hw, rfl⟩ := h.lexeme hs
    rw [append_assoc]
    exact .done hx (hw.append (forall_mem_singleton.mpr (isWs_of_class hk hws)))
  cases h with
  | minus =>
    rcases of_decide_eq_true hn with ⟨rfl, rfl⟩ | ⟨rfl, rfl⟩
    · rw [of_decide_eq_true hc]
      exact .zero (.inr rfl)
    · exact .digits (m := [0x2D]) (.inr rfl) hc (forall_mem_nil _)
  | zero hm =>
    obtain ⟨hws, rfl⟩ := of_decide_eq_true hn
    exact done rfl hws
  | digits hm hd hds =>
    rcases of_decide_eq_true hn with ⟨hws, rfl⟩ | ⟨hdig, rfl⟩
    · exact done rfl hws
    · simpa using Scan.digits hm hd (digits_concat hds (isDecDigit_of_class hk hdig))
  | point hi =>
    obtain ⟨hnws, hne⟩ := hslip rfl
    rcases of_decide_eq_true hn with ⟨hws, rfl⟩ | ⟨hdig, rfl⟩ | ⟨he, rfl⟩
    · rw [isWs_of_class hk hws] at hnws
      cases hnws
    · rw [append_assoc]
      exact .frac hi ⟨[c], by simp, digits_one (isDecDigit_of_class hk hdig), rfl⟩
    · rw [isE_of_class hk he] at hne
      cases hne
  | @frac i f hi hf =>
    rcases of_decide_eq_true hn with ⟨hws, rfl⟩ | ⟨hdig, rfl⟩ | ⟨he, rfl⟩
    · exact done rfl hws
    · obtain ⟨ds, hne, hds, rfl⟩ := hf
      rw [append_assoc]
      exact .frac hi ⟨ds ++ [c], by simp, digits_concat hds (isDecDigit_of_class hk hdig), rfl⟩
    · exact .e ⟨i, f, hi, .inr hf, rfl⟩ (isE_of_class hk he)
  | @e a e ha he =>
    rcases of_decide_eq_true hn with ⟨hg, rfl⟩ | ⟨hdig, rfl⟩
    · have hg' : c = 0x2D ∨ c = 0x2B := by
        rcases hg with rfl | rfl
        · exact .inl (of_decide_eq_true hc)
        · exact .inr (of_decide_eq_true hc)
      simpa using Scan.sign ha he hg'
    · rw [append_assoc]
      exact .exp ha ⟨e, [], [c], he, .inl rfl, by simp,
        digits_one (isDecDigit_of_class hk hdig), rfl⟩
  | @sign a e g ha he hg =>
    obtain ⟨hdig, rfl⟩ := of_decide_eq_true hn
    rw [append_assoc]
    exact .exp ha ⟨e, [g], [c], he, .inr (by simpa using hg), by simp,
      digits_one (isDecDigit_of_class hk hdig), rfl⟩
  | exp ha hx =>
    rcases of_decide_eq_true hn with ⟨hws, rfl⟩ | ⟨hdig, rfl⟩
    · exact done rfl hws
    · obtain ⟨e, g, ds, he, hg, hne, hds, rfl⟩ := hx
      rw [append_assoc]
      exact .exp ha ⟨e, g, ds ++ [c], he, hg, by simp,
        digits_concat hds (isDecDigit_of_class hk hdig), by simp⟩
  | done hl hw =>
    obtain ⟨hws, rfl⟩ := of_decide_eq_true hn
    exact done rfl hws
  | literal hl =>
    cases s with
    | T1 | T2 | F1 | F2 | F3 | N1 | N2 =>
      obtain ⟨rfl, rfl⟩ := of_decide_eq_true hn
      rw [of_decide_eq_true hc]
      exact .literal (by decide)
    | T3 | F4 | N3 =>
      obtain rfl := of_decide_eq_true ht
      obtain ⟨rfl, rfl⟩ := of_decide_eq_true hn
      rw [of_decide_eq_true hc]
      first
      | exact .done (w := []) .true ws_nil
      | exact .done (w := []) .false ws_nil
      | exact .done (w := []) .null ws_nil
    | _ => exact absurd rfl hl

/-! ### Strings, piece by piece -/

/-- A high surrogate that is pending, and the escape that it has been read from. -/
def Surrogate (hi : ℕ) (u : Bytes) : Prop :=
  hi = 0 ∧ u = [] ∨ hi ≠ 0 ∧ ∃ ds, IsHex4 ds ∧
    Parser.decoded 0 (Parser.hexValue ds) = some ([], hi) ∧ u = 0x5C :: 0x75 :: ds

inductive StrScan : States → ℕ → Bytes → Bytes → Prop where
  | chars {t d : Bytes} (h : Decodes t d) : StrScan .ST 0 d t
  | backslash {t d : Bytes} (h : Decodes t d) : StrScan .EC 0 (d ++ [0x5C]) (t ++ [0x5C])
  | digits {s : States} {hi : ℕ} {t d u ds : Bytes} (h : Decodes t d) (hu : Surrogate hi u)
      (hs : s.hexRead = some ds.length) (hds : ∀ c ∈ ds, isHexDigit c = true) :
      StrScan s hi (d ++ 0x5C :: 0x75 :: ds) (t ++ u ++ 0x5C :: 0x75 :: ds)
  | pending {hi : ℕ} {t d u : Bytes} (h : Decodes t d) (hhi : hi ≠ 0) (hu : Surrogate hi u) :
      StrScan .D1 hi d (t ++ u)
  | second {hi : ℕ} {t d u : Bytes} (h : Decodes t d) (hhi : hi ≠ 0) (hu : Surrogate hi u) :
      StrScan .D2 hi (d ++ [0x5C]) (t ++ u ++ [0x5C])

/-- The characters that lead from one state to the next, in a string. -/
def stringNext : States → UInt8 → States → Bool
  | .ST, c, s => isUnescaped c ∧ s = .ST
  | .EC, c, s => isEscape c ∧ s = .ST ∨ c = 0x75 ∧ s = .U1
  | .U1, c, s => isHexDigit c ∧ s = .U2
  | .U2, c, s => isHexDigit c ∧ s = .U3
  | .U3, c, s => isHexDigit c ∧ s = .U4
  | .U4, _, _ => false
  | .D1, c, s => c = 0x5C ∧ s = .D2
  | .D2, c, s => c = 0x75 ∧ s = .U1
  | _, _, _ => true

def Entry.state? : Entry → Option States
  | .next s => some s
  | .act _ => none

theorem stringNext_of_next (hs : s ∈ [States.ST, .EC, .U1, .U2, .U3, .U4, .D1, .D2])
    (hk : asciiClass c = some k) (htr : transition s k = .next s') : stringNext s c s' := by
  have key : ∀ s ∈ [States.ST, .EC, .U1, .U2, .U3, .U4, .D1, .D2], ∀ c : UInt8,
      ((asciiClass c).bind fun k => (transition s k).state?).all (stringNext s c) = true := by
    intro s hs
    simp only [mem_cons, not_mem_nil, or_false] at hs
    rcases hs with rfl | rfl | rfl | rfl | rfl | rfl | rfl | rfl <;>
      (apply Bytes.forall_of_digits; decide)
  have h := key s hs c
  rw [hk, Option.bind_some, htr] at h
  exact h

def Actions.on : Actions → Classes → Bool
  | .m9, k | .m8, k => k = .C_RCURB
  | .m7, k => k = .C_RSQRB
  | .m6, k => k = .C_LCURB
  | .m5, k => k = .C_LSQRB
  | .m4, k | .SB, k => k = .C_QUOTE
  | .m3, k => k = .C_COMMA
  | .m2, k => k = .C_COLON
  | .MX, k => k = .C_MINUS
  | .ZX, k => k = .C_ZERO
  | .IX, k => k = .C_DIGIT
  | .NU, k => k = .C_LOW_N
  | .FA, k => k = .C_LOW_F
  | .TR, k => k = .C_LOW_T
  | .DF, k => k = .C_POINT
  | .DE, k => k = .C_LOW_E ∨ k = .C_E
  | .EX, k => k = .C_BACKS
  | .UC, k => k.isHex
  | _, _ => true

theorem on_of_act (htr : transition s k = .act a) : a.on k := by
  revert s k a
  apply forall_act
  decide

/-- The character that an action is performed on, if there is only one. -/
def Actions.char : Actions → Option UInt8
  | .m9 | .m8 => some 0x7D
  | .m7 => some 0x5D
  | .m6 => some 0x7B
  | .m5 => some 0x5B
  | .m4 | .SB => some 0x22
  | .m3 => some 0x2C
  | .m2 => some 0x3A
  | .MX => some 0x2D
  | .ZX => some 0x30
  | .NU => some 0x6E
  | .FA => some 0x66
  | .TR => some 0x74
  | .DF => some 0x2E
  | .EX => some 0x5C
  | _ => none

theorem eq_of_act (htr : transition s k = .act a) (hk : asciiClass c = some k) :
    ∀ b ∈ a.char, c = b := by
  have hon := on_of_act htr
  have hc := fits_of_asciiClass hk
  cases a with
  | IX | DE | UC | CB | CE | xx => exact nofun
  | _ =>
    rintro b ⟨⟩
    obtain rfl := of_decide_eq_true hon
    exact of_decide_eq_true hc

theorem isHexDigit_of_class (hk : asciiClass c = some k) (h : k.isHex) : isHexDigit c = true := by
  revert c k
  apply forall_class
  decide

theorem StrScan.mem (h : StrScan s hi b t) :
    s ∈ [States.ST, .EC, .U1, .U2, .U3, .U4, .D1, .D2] := by
  cases h with
  | digits _ _ hs => cases s <;> first | cases hs | simp
  | _ => simp

theorem StrScan.next (h : StrScan s hi b t) (hk : asciiClass c = some k)
    (htr : transition s k = .next s') :
    StrScan s' hi (if s = .EC then b.dropLast ++ Parser.escapeBytes c else b ++ [c])
      (t ++ [c]) := by
  have hn := stringNext_of_next h.mem hk htr
  cases h with
  | chars h =>
    obtain ⟨hc, rfl⟩ := of_decide_eq_true hn
    exact .chars (h.unescaped hc)
  | @backslash t d h =>
    rw [if_pos rfl, dropLast_concat]
    rcases of_decide_eq_true hn with ⟨hc, rfl⟩ | ⟨rfl, rfl⟩
    · rw [append_assoc]
      exact .chars (h.escape hc)
    · rw [append_assoc]
      have hd := StrScan.digits (s := .U1) h (.inl ⟨rfl, rfl⟩) rfl (by simp : ∀ c ∈ [], _)
      rwa [append_nil] at hd
  | @digits s hi t d u ds h hu hs hds =>
    have hhex : isHexDigit c = true ∧ s'.hexRead = some (ds.length + 1) ∧ s ≠ .EC := by
      cases s with
      | U1 | U2 | U3 =>
        obtain ⟨hc, rfl⟩ := of_decide_eq_true hn
        have hlen := Option.some.inj hs
        exact ⟨hc, by rw [← hlen]; rfl, (by simp)⟩
      | U4 => cases hn
      | _ => cases hs
    obtain ⟨hc, hs', hne⟩ := hhex
    rw [if_neg hne, append_assoc, append_assoc]
    exact .digits h hu (by simpa using hs')
      (forall_mem_append.mpr ⟨hds, forall_mem_singleton.mpr hc⟩)
  | pending h hhi hu =>
    obtain ⟨rfl, rfl⟩ := of_decide_eq_true hn
    exact .second h hhi hu
  | second h hhi hu =>
    obtain ⟨rfl, rfl⟩ := of_decide_eq_true hn
    rw [if_neg (by simp), append_assoc, append_assoc]
    exact .digits (s := .U1) h hu rfl (by simp : ∀ c ∈ [], _)

theorem StrScan.sequence (h : StrScan .ST hi b t) (hbs : Utf8.isSeq bs = true) :
    StrScan .ST hi (b ++ bs) (t ++ bs) := by
  cases h with
  | chars h => exact .chars (h.sequence hbs)
  | digits _ _ hs => cases hs

theorem StrScan.escape (h : StrScan .ST hi b t) : StrScan .EC hi (b ++ [0x5C]) (t ++ [0x5C]) := by
  cases h with
  | chars h => exact .backslash h
  | digits _ _ hs => cases hs

theorem StrScan.decodes (h : StrScan .ST hi b t) : Decodes t b := by
  cases h with
  | chars h => exact h
  | digits _ _ hs => cases hs

theorem StrScan.unicode {hi' : ℕ} (h : StrScan .U4 hi b t) (hc : isHexDigit c = true)
    (hdec : Parser.decoded hi (Parser.hexValue ((b ++ [c]).drop ((b ++ [c]).length - 4))) =
      some (bs, hi')) :
    StrScan (if hi' ≠ 0 then .D1 else .ST) hi' ((b ++ [c]).take ((b ++ [c]).length - 6) ++ bs)
      (t ++ [c]) := by
  cases h with
  | @digits _ _ t d u ds h hu hs hds =>
    have hlen : ds.length = 3 := (Option.some.inj hs).symm
    have hbuf : d ++ 0x5C :: 0x75 :: ds ++ [c] = d ++ 0x5C :: 0x75 :: (ds ++ [c]) := by simp
    have htext : t ++ u ++ 0x5C :: 0x75 :: ds ++ [c] =
        t ++ u ++ 0x5C :: 0x75 :: (ds ++ [c]) := by simp
    have hdrop : (d ++ 0x5C :: 0x75 :: (ds ++ [c])).drop
        ((d ++ 0x5C :: 0x75 :: (ds ++ [c])).length - 4) = ds ++ [c] := by
      rw [append_cons, append_cons]
      exact drop_left' (by simp [hlen])
    have htake : (d ++ 0x5C :: 0x75 :: (ds ++ [c])).take
        ((d ++ 0x5C :: 0x75 :: (ds ++ [c])).length - 6) = d := take_left' (by simp [hlen])
    rw [hbuf, hdrop] at hdec
    rw [hbuf, htake, htext]
    have hhex : IsHex4 (ds ++ [c]) :=
      ⟨by simp [hlen], forall_mem_append.mpr ⟨hds, forall_mem_singleton.mpr hc⟩⟩
    rcases hu with ⟨rfl, rfl⟩ | ⟨hhi, es, hes, hfst, rfl⟩
    · rw [append_nil]
      by_cases hhi' : hi' = 0
      · subst hhi'
        exact .chars (h.unit hhex hdec)
      · -- a high surrogate is kept, and decoded to nothing
        obtain ⟨-, -, rfl⟩ := (decoded_zero_cases hdec).resolve_left fun h => hhi' h.1
        rw [if_pos hhi', append_nil]
        exact .pending h hhi' (.inr ⟨hhi', _, hhex, hdec, rfl⟩)
    · obtain ⟨rfl, -⟩ := decoded_pending_cases hhi hdec
      exact .chars (h.pair hes hhi hfst hhex hdec)

end Poco.JSON
