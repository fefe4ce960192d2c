import Poco.JSON.Methods

/-!
# Integer literals of the JSON parser

`parseBuffer` reads an integer literal as an `Int64` and, if that fails, as a `UInt64`.
Both parsers test for an overflow before they multiply and add, so they let through
literals past their limits and wrap them around.

## Main definitions

* `IntLiteral`: an integer literal as it stands in the parse buffer.
* `IntLiteral.Sound`: the literal is neither past a limit nor let through past one.

## Main results

* `integerValue_cases`: the integers that `parseBuffer` delivers, or its exception.
* `integer_exact_iff`: the sound literals are delivered exactly or rejected, and no others; the
  values `2^63` and `2^63 + 1` are not.
-/

namespace Poco.JSON

structure IntLiteral where
  neg : Bool
  digits : Bytes
  space : Bytes
  digits_ne : digits ≠ []
  digits_ok : ∀ c ∈ digits, isDecDigit c = true
  space_ok : ∀ c ∈ space, isspace c = true

namespace IntLiteral

def text (t : IntLiteral) : Bytes := (if t.neg then [0x2D] else []) ++ t.digits ++ t.space

def value (t : IntLiteral) : ℤ := if t.neg then -(decVal t.digits : ℤ) else decVal t.digits

theorem tryParse64_text (t : IntLiteral) :
    NumberParser.tryParse64 t.text =
      if Overflows .int64 t.digits then none else some (IntType.int64.wrap t.value) :=
  strToInt_dec .int64 (by decide) t.neg t.digits_ne t.digits_ok t.space_ok

theorem tryParseUnsigned64_text (t : IntLiteral) :
    NumberParser.tryParseUnsigned64 t.text =
      if Overflows .uint64 t.digits then none else some (IntType.uint64.wrap t.value) :=
  strToInt_dec .uint64 (by decide) t.neg t.digits_ne t.digits_ok t.space_ok

def Sound (t : IntLiteral) : Prop :=
  (-2 ^ 63 ≤ t.value ∧ t.value ≤ 2 ^ 64 - 1 ∧ t.value ≠ 2 ^ 63 ∧ t.value ≠ 2 ^ 63 + 1) ∨
    ((t.value < -2 ^ 63 ∨ 2 ^ 64 - 1 < t.value) ∧ Overflows .int64 t.digits ∧
      Overflows .uint64 t.digits)

end IntLiteral

def Callback.intValue {D : Type} : Callback D → Option ℤ
  | .int v | .int64 v | .unsigned v | .uint64 v => some v
  | _ => none

namespace Parser

variable {D : Type}

theorem integerValue_cases (b : Bytes) :
    (∃ v c, NumberParser.tryParse64 b = some v ∧ integerValue (D := D) b = .ok c ∧
      c.intValue = some v) ∨
    (∃ v c, NumberParser.tryParse64 b = none ∧ NumberParser.tryParseUnsigned64 b = some v ∧
      integerValue (D := D) b = .ok c ∧ c.intValue = some v) ∨
    (∃ e, NumberParser.tryParse64 b = none ∧ NumberParser.tryParseUnsigned64 b = none ∧
      integerValue (D := D) b = .error e) := by
  unfold integerValue
  cases NumberParser.tryParse64 b with
  | some v =>
    left
    dsimp only
    split <;> exact ⟨v, _, rfl, rfl, rfl⟩
  | none =>
    right
    cases NumberParser.tryParseUnsigned64 b with
    | some v =>
      left
      dsimp only
      split <;> exact ⟨v, _, rfl, rfl, rfl, rfl⟩
    | none => exact .inr ⟨_, rfl, rfl, rfl⟩

/-- What is delivered is an integer, with no more digits than the buffer. -/
theorem integerValue_lt (h : integerValue b = .ok c) :
    ∃ v, c.intValue = some v ∧ v.natAbs < 10 ^ b.countP isDecDigit := by
  rcases integerValue_cases b with ⟨v, c', hs, hok, hc⟩ | ⟨v, c', hs, hu, hok, hc⟩ |
    ⟨e, -, -, hok⟩
  · cases h.symm.trans hok
    exact ⟨v, hc, NumberParser.tryParse64_lt hs⟩
  · cases h.symm.trans hok
    exact ⟨v, hc, NumberParser.tryParseUnsigned64_lt hs hu⟩
  · cases h.symm.trans hok

variable [StrToDouble D]

/-- `parseBuffer` passes the handler an integer of the given value. -/
def DeliversExactly (p : Parser D) (v : ℤ) : Prop :=
  ∃ c : Callback D, c.intValue = some v ∧
    parseBuffer p = .ok () { p with log := p.log ++ [c], buffer := [] }

def Rejects (p : Parser D) : Prop := ∃ e q, parseBuffer p = .error e q

/-- A parser that has a handler and the literal in its buffer. -/
def withLiteral (p : Parser D) (t : IntLiteral) : Parser D :=
  { p with pHandler := true, type := .JSON_T_INTEGER, buffer := t.text }

theorem parseBuffer_withLiteral (p : Parser D) (t : IntLiteral) :
    parseBuffer (p.withLiteral t) = match integerValue (D := D) t.text with
      | .ok c => .ok () { p.withLiteral t with log := p.log ++ [c], buffer := [] }
      | .error e => .error e (p.withLiteral t) := by
  rw [parseBuffer_eq]
  have hd : delivered (p.withLiteral t) = (integerValue t.text).map fun c => [c] := by
    simp only [delivered, withLiteral, bufferValue]
    cases integerValue t.text <;> rfl
  rw [hd]
  cases integerValue t.text <;> rfl

theorem deliversExactly_iff_ok (p : Parser D) (t : IntLiteral) (v : ℤ) :
    DeliversExactly (p.withLiteral t) v ↔
      ∃ c, integerValue (D := D) t.text = .ok c ∧ c.intValue = some v := by
  unfold DeliversExactly
  rw [parseBuffer_withLiteral]
  cases integerValue t.text with
  | error e => simp
  | ok c =>
    constructor
    · rintro ⟨c', hv, heq⟩
      have hlog : p.log ++ [c] = p.log ++ [c'] := congrArg logOf heq
      obtain rfl : c = c' := by simpa using hlog
      exact ⟨c, rfl, hv⟩
    · rintro ⟨c', hc, hv⟩
      cases hc
      exact ⟨c, hv, rfl⟩

theorem rejects_iff_error (p : Parser D) (t : IntLiteral) :
    Rejects (p.withLiteral t) ↔ ∃ e, integerValue (D := D) t.text = .error e := by
  unfold Rejects
  rw [parseBuffer_withLiteral]
  cases integerValue t.text <;> simp

/-- What is delivered is the literal wrapped to the first type whose test lets it through. -/
theorem deliversExactly_iff (p : Parser D) (t : IntLiteral) (v : ℤ) :
    DeliversExactly (p.withLiteral t) v ↔
      (¬ Overflows .int64 t.digits ∧ IntType.int64.wrap t.value = v) ∨
      (Overflows .int64 t.digits ∧ ¬ Overflows .uint64 t.digits ∧
        IntType.uint64.wrap t.value = v) := by
  rw [deliversExactly_iff_ok]
  rcases integerValue_cases (D := D) t.text with
    ⟨w, c, hs, hok, hc⟩ | ⟨w, c, hs, hu, hok, hc⟩ | ⟨e, hs, hu, herr⟩
  all_goals rw [t.tryParse64_text] at hs
  · grind
  · rw [t.tryParseUnsigned64_text] at hu
    grind
  · rw [t.tryParseUnsigned64_text] at hu
    grind

theorem rejects_iff (p : Parser D) (t : IntLiteral) :
    Rejects (p.withLiteral t) ↔ Overflows .int64 t.digits ∧ Overflows .uint64 t.digits := by
  rw [rejects_iff_error]
  rcases integerValue_cases (D := D) t.text with
    ⟨w, c, hs, hok, hc⟩ | ⟨w, c, hs, hu, hok, hc⟩ | ⟨e, hs, hu, herr⟩
  all_goals rw [t.tryParse64_text] at hs
  · grind
  · rw [t.tryParseUnsigned64_text] at hu
    grind
  · rw [t.tryParseUnsigned64_text] at hu
    grind

end Parser

/-! ### The two limits -/

namespace IntLiteral

theorem not_overflows_int64 (t : IntLiteral) (h : decVal t.digits ≤ 2 ^ 63 + 1) :
    ¬ Overflows .int64 t.digits :=
  not_overflows (by decide) (by decide) (by change _ ≤ (2 ^ 63 - 1 : ℤ) / 10; omega)

theorem overflows_int64 (t : IntLiteral) (hlo : 2 ^ 63 + 2 ≤ decVal t.digits)
    (hhi : decVal t.digits ≤ 2 ^ 64 - 1) : Overflows .int64 t.digits :=
  overflows (by decide) (by decide) t.digits_ok (by change (2 ^ 63 - 1 : ℤ) / 10 < _; omega)
    (by change _ ≤ (2 ^ 63 - 1 : ℤ); omega)

theorem not_overflows_uint64 (t : IntLiteral) (h : decVal t.digits ≤ 2 ^ 64 - 1) :
    ¬ Overflows .uint64 t.digits :=
  not_overflows (by decide) (by decide) (by change _ ≤ (2 ^ 64 - 1 : ℤ) / 10; omega)

theorem value_cases (t : IntLiteral) :
    t.value = decVal t.digits ∨ t.value = -(decVal t.digits : ℤ) := by
  unfold value
  split
  · exact .inr rfl
  · exact .inl rfl

end IntLiteral

namespace Parser

variable {D : Type} [StrToDouble D]

theorem DeliversExactly.mem {p : Parser D}
    (h : DeliversExactly (p.withLiteral t) v) : -2 ^ 63 ≤ v ∧ v ≤ 2 ^ 64 - 1 := by
  rcases (deliversExactly_iff p t v).mp h with ⟨-, hw⟩ | ⟨-, -, hw⟩
  · rw [IntType.wrap_int64] at hw
    omega
  · rw [IntType.wrap_uint64] at hw
    omega

/-- Inside the limits only two values are not delivered exactly: those that the signed test
lets through although they are past the signed limit. -/
theorem deliversExactly_iff_of_mem (p : Parser D) (t : IntLiteral) (hlo : -2 ^ 63 ≤ t.value)
    (hhi : t.value ≤ 2 ^ 64 - 1) :
    DeliversExactly (p.withLiteral t) t.value ↔ t.value ≠ 2 ^ 63 ∧ t.value ≠ 2 ^ 63 + 1 := by
  rw [deliversExactly_iff, IntType.wrap_int64, IntType.wrap_uint64]
  have hv := t.value_cases
  by_cases hn : decVal t.digits ≤ 2 ^ 63 + 1
  · simp only [t.not_overflows_int64 hn, not_false_eq_true, true_and, false_and, or_false]
    omega
  · simp only [t.overflows_int64 (by omega) (by omega), t.not_overflows_uint64 (by omega),
      not_false_eq_true, true_and]
    omega

/-- A literal is delivered exactly or rejected, and delivered exactly if its value is in
`[-2^63, 2^64 - 1]`, just in case it is `Sound`. -/
theorem integer_exact_iff (p : Parser D) (t : IntLiteral) :
    ((DeliversExactly (p.withLiteral t) t.value ∨ Rejects (p.withLiteral t)) ∧
      (-2 ^ 63 ≤ t.value ∧ t.value ≤ 2 ^ 64 - 1 → DeliversExactly (p.withLiteral t) t.value)) ↔
      t.Sound := by
  by_cases hmem : -2 ^ 63 ≤ t.value ∧ t.value ≤ 2 ^ 64 - 1
  · have hiff := deliversExactly_iff_of_mem p t hmem.1 hmem.2
    unfold IntLiteral.Sound
    grind
  · have hno : ¬ DeliversExactly (p.withLiteral t) t.value := fun h => hmem h.mem
    have hrej := rejects_iff p t
    unfold IntLiteral.Sound
    grind

/-- `9223372036854775808`, which is `2^63`. -/
def justPastInt64 : IntLiteral where
  neg := false
  digits := [0x39, 0x32, 0x32, 0x33, 0x33, 0x37, 0x32, 0x30, 0x33, 0x36, 0x38, 0x35, 0x34, 0x37,
    0x37, 0x35, 0x38, 0x30, 0x38]
  space := []
  digits_ne := by decide
  digits_ok := by decide
  space_ok := by decide

/-- This literal is neither delivered exactly nor rejected: the handler is passed
`-9223372036854775808`, also as the element of the document `[9223372036854775808]`. -/
theorem integer_not_exact :
    ¬ (DeliversExactly ((fresh {} : Parser Bytes).withLiteral justPastInt64)
          justPastInt64.value ∨
        Rejects ((fresh {} : Parser Bytes).withLiteral justPastInt64)) ∧
      logOf (parse ([0x5B] ++ justPastInt64.text ++ [0x5D]) (fresh {} : Parser Bytes)) =
        [.startArray, .int64 (-9223372036854775808), .endArray] := by
  rw [deliversExactly_iff, rejects_iff]
  exact ⟨by decide, by decide⟩

end Parser

end Poco.JSON
