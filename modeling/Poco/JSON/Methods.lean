import Poco.JSON.Parser
import Mathlib.Data.Nat.SuccPred

/-!
# What the methods of the JSON parser do

For each method of the parser that `parseChar` calls, one equation that says what it
returns and what it leaves of the parser, over any parser.  No later proof unfolds a
method; each takes a step apart with the equation of the action it performs.

## Main definitions

* `Performed`: what an action does to the parser when it succeeds.
* `decoded`: what decoding `uc` appends to the buffer and leaves pending as high surrogate, when
  `hi` is pending; `none` if it fails.

## Main results

* `performed_of_perform`, `perform_of_performed`: an action succeeds exactly if it does that.
* `parseAscii_eq_true`: an ASCII character that is accepted takes the parser to the next state, or
  performs an action.
-/

namespace Poco.JSON.Parser

open Modes JSONType

variable {D : Type}

/-! ### The monad, applied to a parser -/

section

variable {α β : Type}

@[simp] theorem bind_apply (x : ParserM D α) (f : α → ParserM D β) (p : Parser D) :
    (x >>= f) p = match x p with
      | .ok a q => f a q
      | .error e q => .error e q := by
  change EStateM.bind x f p = _
  unfold EStateM.bind
  cases x p <;> rfl

@[simp] theorem map_apply (f : α → β) (x : ParserM D α) (p : Parser D) :
    (f <$> x) p = match x p with
      | .ok a q => .ok (f a) q
      | .error e q => .error e q := by
  change EStateM.map f x p = _
  unfold EStateM.map
  cases x p <;> rfl

@[simp] theorem get_apply (p : Parser D) : (get : ParserM D (Parser D)) p = .ok p p := rfl

@[simp] theorem modify_apply (f : Parser D → Parser D) (p : Parser D) :
    (modify f : ParserM D PUnit) p = .ok ⟨⟩ (f p) := rfl

@[simp] theorem pure_apply (a : α) (p : Parser D) : (pure a : ParserM D α) p = .ok a p := rfl

@[simp] theorem throw_apply (e : Exception) (p : Parser D) :
    (throw e : ParserM D α) p = .error e p := rfl

@[simp] theorem ite_apply (c : Prop) [Decidable c] (x y : ParserM D α) (p : Parser D) :
    (if c then x else y) p = if c then x p else y p := by
  split <;> rfl

@[simp] theorem pocoAssert_apply (a : Assertion) (c : Bool) (p : Parser D) :
    pocoAssert a c p = if c then .ok () p else .error (.AssertionViolationException a) p := by
  unfold pocoAssert
  simp

end

/-! ### The primitives -/

/-- The callbacks made up to the end of a method. -/
def logOf {α : Type} : EStateM.Result Exception (Parser D) α → List (Callback D)
  | .ok _ q => q.log
  | .error _ q => q.log

def callbacks (p : Parser D) (l : List (Callback D)) : List (Callback D) :=
  if p.pHandler then l else []

theorem emit_eq (c : Callback D) (p : Parser D) :
    emit c p = .ok () { p with log := p.log ++ callbacks p [c] } := by
  unfold emit callbacks
  rw [modify_apply]
  split
  · rfl
  · rw [List.append_nil]

def delivered [StrToDouble D] (p : Parser D) : Except Exception (List (Callback D)) :=
  if p.pHandler then (bufferValue p.type p.buffer).map Option.toList else .ok []

theorem parseBuffer_eq [StrToDouble D] (p : Parser D) :
    parseBuffer p = match delivered p with
      | .ok l => .ok () { p with log := p.log ++ l, buffer := [] }
      | .error e => .error e p := by
  unfold delivered parseBuffer
  rw [bind_apply, get_apply]
  by_cases h : p.pHandler
  · simp only [h]
    cases bufferValue (D := D) p.type p.buffer with
    | error e => simp [Except.map]
    | ok c =>
      cases c with
      | none => simp [Except.map, clearBuffer, h]
      | some c => simp [Except.map, emit, clearBuffer, h]
  · simp [h, clearBuffer]

theorem parseBufferPopBackChar_eq (p : Parser D) :
    parseBufferPopBackChar p = if p.buffer = [] then
      .error (.AssertionViolationException .popBackChar) p
    else .ok () { p with buffer := p.buffer.dropLast } := by
  unfold parseBufferPopBackChar
  cases h : p.buffer <;> simp [h]

theorem pop_eq (mode : Modes) (p : Parser D) :
    pop mode p = if p.stack.head? = some mode then .ok true { p with stack := p.stack.tail }
      else .ok false p := by
  unfold pop
  cases h : p.stack with
  | nil => simp
  | cons m ms => by_cases hm : m = mode <;> simp

/-- `_stack.size()` after a push: the buffer grows if the depth is not limited. -/
def grown (p : Parser D) : ℕ :=
  if p.depth < 0 ∧ p.stackSize ≤ p.stack.length then p.stackSize * 2 else p.stackSize

theorem push_eq (mode : Modes) (p : Parser D) :
    push mode p =
      if 0 ≤ p.depth ∧ p.depth ≤ p.stack.length then
        .ok false { p with stack := MODE_UNSET :: p.stack }
      else if p.stack.length < grown p then
        .ok true { p with stack := mode :: p.stack, stackSize := grown p }
      else
        .error (.AssertionViolationException .stackIndex)
          { p with stack := MODE_UNSET :: p.stack, stackSize := grown p } := by
  unfold push setTop grown
  by_cases hd : p.depth < 0
  · have h0 : ¬ 0 ≤ p.depth := by omega
    by_cases hs : p.stackSize ≤ p.stack.length
    · by_cases hl : p.stack.length < p.stackSize * 2 <;> simp [hd, hs, hl]
    · have hl : p.stack.length < p.stackSize := by omega
      simp [h0, hs, hl]
  · have h0 : 0 ≤ p.depth := by omega
    by_cases hl : p.depth ≤ p.stack.length
    · simp [h0, hl]
    · by_cases hs : p.stack.length < p.stackSize <;> simp [hd, hl, hs]

/-! ### The parse buffer -/

/-- The bytes that `addCharToParseBuffer` appends when no escape is pending. -/
def appended (p : Parser D) (c : UInt8) (k : Classes) : Bytes :=
  if p.comment = false ∧ (p.type ≠ JSON_T_NONE ∨ ¬ (k = .C_SPACE ∨ k = .C_WHITE)) then [c] else []

theorem addCharToParseBuffer_eq (c : UInt8) (k : Classes) (p : Parser D) :
    addCharToParseBuffer c k p =
      if p.escaped then
        if p.buffer = [] then
          .error (.AssertionViolationException .popBackChar) { p with escaped := false }
        else .ok () { p with escaped := false, buffer := p.buffer.dropLast ++ escapeBytes c }
      else .ok () { p with buffer := p.buffer ++ appended p c k } := by
  unfold addCharToParseBuffer appended
  rw [bind_apply, get_apply]
  simp only [ite_apply]
  by_cases he : p.escaped = true
  · rw [if_pos he, if_pos he]
    unfold addEscapedCharToParseBuffer
    by_cases hb : p.buffer = [] <;> simp [hb, parseBufferPopBackChar_eq]
  rw [if_neg he, if_neg he]
  by_cases hc : p.comment = true
  · rw [if_neg (by simp [hc]), if_neg (by simp [hc]), List.append_nil]
    rfl
  rw [if_pos hc]
  by_cases ht : p.type ≠ JSON_T_NONE ∨ ¬ (k = .C_SPACE ∨ k = .C_WHITE)
  · rw [if_pos ht, if_pos ⟨by simpa using hc, ht⟩]
    rfl
  · rw [if_neg ht, if_neg fun h => ht h.2, List.append_nil]
    rfl

/-! ### Unicode escapes -/

def decoded (hi uc : ℕ) : Option (Bytes × ℕ) :=
  if hi ≠ 0 then
    if isLowSurrogate uc then some (utf8Encode (decodeSurrogatePair hi uc) 3, 0) else none
  else if uc < 0x80 then some (utf8Encode uc 0, 0)
  else if uc < 0x800 then some (utf8Encode uc 1, 0)
  else if isHighSurrogate uc then some ([], uc)
  else if isLowSurrogate uc then none
  else some (utf8Encode uc 2, 0)

theorem decodeUnit_eq (uc : ℕ) (p : Parser D) :
    decodeUnit uc p = match decoded p.utf16HighSurrogate uc with
      | some (bs, hi) => .ok true { p with buffer := p.buffer ++ bs, utf16HighSurrogate := hi }
      | none => .ok false p := by
  unfold decodeUnit decoded
  simp only [bind_apply, get_apply, ite_apply]
  by_cases hhi : p.utf16HighSurrogate ≠ 0
  · by_cases hl : isLowSurrogate uc = true <;> simp [hhi, hl, appendUnicode]
  have h0 : p.utf16HighSurrogate = 0 := by simpa using hhi
  rw [if_neg hhi, if_neg hhi, ← h0]
  split
  · simp [appendUnicode]
  split
  · simp [appendUnicode]
  · split
    · simp
    · split
      · rfl
      · simp [appendUnicode]

theorem decodeUnicodeChar_eq (p : Parser D) :
    decodeUnicodeChar p =
      if p.buffer.length < 6 then .error (.AssertionViolationException .decodeSize) p
      else if ¬ (p.buffer.drop (p.buffer.length - 4)).all fun c => hexDigit c < 16 then
        .error (.AssertionViolationException .decodeDigit) p
      else if p.allowNullByte = false ∧ hexValue (p.buffer.drop (p.buffer.length - 4)) = 0 then
        .ok false p
      else match decoded p.utf16HighSurrogate (hexValue (p.buffer.drop (p.buffer.length - 4))) with
        | some (bs, hi) => .ok true { p with
            buffer := p.buffer.take (p.buffer.length - 6) ++ bs, utf16HighSurrogate := hi }
        | none => .ok false { p with buffer := p.buffer.take (p.buffer.length - 6) } := by
  unfold decodeUnicodeChar
  simp only [bind_apply, get_apply, pocoAssert_apply, ite_apply, modify_apply, decodeUnit_eq]
  by_cases h6 : p.buffer.length < 6
  · rw [if_neg (by simpa using h6), if_pos h6]
  rw [if_pos (by simpa using h6), if_neg h6]
  dsimp only
  by_cases hd : (p.buffer.drop (p.buffer.length - 4)).all fun c => hexDigit c < 16
  · rw [if_pos hd, if_neg (not_not.mpr hd)]
    simp only [Bool.not_eq_true, pure_apply]
  · rw [if_neg hd, if_pos hd]

/-! ### The actions -/

theorem beginType_eq (t : JSONType) (s : States) (p : Parser D) :
    beginType t s p = .ok true { p with type := t, state := s } := by
  simp [beginType, setType, setState]

theorem beginLiteral_eq (t : JSONType) (s : States) (p : Parser D) :
    beginLiteral t s p = if p.type = JSON_T_NONE then .ok true { p with type := t, state := s }
      else .error (.AssertionViolationException .typeNone) p := by
  unfold beginLiteral
  by_cases h : p.type = JSON_T_NONE <;> simp [h, beginType_eq]

theorem beginFloat_eq (s : States) (p : Parser D) :
    beginFloat s p =
      if p.type ≠ JSON_T_FALSE ∧ p.type ≠ JSON_T_TRUE ∧ p.type ≠ JSON_T_NULL ∧
          p.type ≠ JSON_T_STRING then
        .ok true { p with type := JSON_T_FLOAT, state := s }
      else .error (.AssertionViolationException .notStringNullBool) p := by
  unfold beginFloat
  cases h : p.type <;> simp [h, beginType_eq]

theorem endComment_eq (p : Parser D) :
    endComment p =
      if p.buffer ≠ [] then
        .error (.AssertionViolationException .bufferEmpty) { p with comment := false }
      else if p.type ≠ JSON_T_NONE then
        .error (.AssertionViolationException .typeNone) { p with comment := false }
      else .ok true { p with comment := false, state := p.beforeCommentState } := by
  unfold endComment
  by_cases hb : p.buffer = []
  · by_cases ht : p.type = JSON_T_NONE <;> simp [hb, ht, setState]
  · simp [hb]

abbrev Result (D : Type) := EStateM.Result Exception (Parser D) Bool

theorem bind_parseBufferPopBackChar (f : ParserM D Bool) (p : Parser D) :
    (parseBufferPopBackChar >>= fun _ => f) p =
      if p.buffer = [] then .error (.AssertionViolationException .popBackChar) p
      else f { p with buffer := p.buffer.dropLast } := by
  rw [bind_apply, parseBufferPopBackChar_eq]
  by_cases hb : p.buffer = []
  · rw [if_pos hb, if_pos hb]
  · rw [if_neg hb, if_neg hb]

/-- How an action goes on after a push. -/
def pushed (mode : Modes) (p : Parser D) (f : Parser D → Result D) : Result D :=
  match push mode p with
  | .ok true q => f q
  | .ok false q => .ok false q
  | .error e q => .error e q

theorem bind_push (mode : Modes) (f : ParserM D Bool) (p : Parser D) :
    (push mode >>= fun b => if ¬ b = true then pure false else f) p = pushed mode p f := by
  rw [bind_apply]
  unfold pushed
  cases push mode p with
  | error e q => rfl
  | ok b q => cases b <;> rfl

theorem bind_flip (old new : Modes) (f : ParserM D Bool) (p : Parser D) :
    (flip old new >>= fun b => if ¬ b = true then pure false else f) p =
      if p.stack.head? = some old then pushed new { p with stack := p.stack.tail } f
      else .ok false p := by
  rw [flip, bind_assoc, bind_apply, pop_eq]
  by_cases h : p.stack.head? = some old
  · rw [if_pos h, if_pos h]
    exact bind_push new f _
  · rw [if_neg h, if_neg h]
    rfl

/-- How an action goes on with the value that was in the buffer. -/
def flushed [StrToDouble D] (p : Parser D) (f : List (Callback D) → Result D) : Result D :=
  if p.buffer = [] then .error (.AssertionViolationException .popBackChar) p
  else match delivered { p with buffer := p.buffer.dropLast } with
    | .ok l => f l
    | .error e => .error e { p with buffer := p.buffer.dropLast }

theorem bind_flush [StrToDouble D] (f : ParserM D Bool) (p : Parser D) :
    (parseBufferPopBackChar >>= fun _ => parseBuffer >>= fun _ => f) p =
      flushed p fun l => f { p with log := p.log ++ l, buffer := [] } := by
  rw [bind_parseBufferPopBackChar, bind_apply, parseBuffer_eq, flushed]
  cases delivered { p with buffer := p.buffer.dropLast } <;> rfl

section

variable [StrToDouble D]

theorem endContainer_eq (c : Callback D) (mode : Modes) (p : Parser D) :
    endContainer c mode p = flushed p fun l =>
      if p.stack.head? = some mode then
        .ok true { p with log := p.log ++ l ++ callbacks p [c], buffer := [],
                          stack := p.stack.tail, type := JSON_T_NONE, state := .OK }
      else .ok false { p with log := p.log ++ l ++ callbacks p [c], buffer := [] } := by
  unfold endContainer
  rw [bind_flush]
  refine congrArg _ (funext fun l => ?_)
  by_cases hs : p.stack.head? = some mode <;> simp [emit_eq, pop_eq, hs, beginType_eq, callbacks]

omit [StrToDouble D] in
theorem beginContainer_eq (c : Callback D) (mode : Modes) (s : States) (p : Parser D) :
    beginContainer c mode s p =
      if p.buffer = [] then .error (.AssertionViolationException .popBackChar) p
      else pushed mode { p with log := p.log ++ callbacks p [c], buffer := p.buffer.dropLast }
        fun q => if q.type = JSON_T_NONE then .ok true { q with state := s }
          else .error (.AssertionViolationException .typeNone) q := by
  unfold beginContainer
  rw [bind_parseBufferPopBackChar]
  split
  · rfl
  · rw [bind_apply, emit_eq]
    dsimp only
    rw [bind_push]
    refine congrArg _ (funext fun q => ?_)
    by_cases ht : q.type = JSON_T_NONE <;> simp [ht, setState]

theorem beginComment_eq (p : Parser D) :
    beginComment p =
      if p.allowComments = false then .ok false p
      else flushed p fun l =>
        if p.type = JSON_T_STRING then
          .error (.AssertionViolationException .typeNotString)
            { p with log := p.log ++ l, buffer := [] }
        else match p.stack with
          | m :: _ => .ok true { p with
              log := p.log ++ l, buffer := [], beforeCommentState := stateAfterComment m p.state,
              type := JSON_T_NONE, state := .C1, comment := true }
          | [] => .error (.AssertionViolationException .stackIndex)
              { p with log := p.log ++ l, buffer := [] } := by
  unfold beginComment
  rw [bind_apply, get_apply]
  simp only [ite_apply]
  by_cases ha : p.allowComments = false
  · simp [ha]
  · rw [if_neg (by simpa using ha), if_neg ha, bind_flush]
    refine congrArg _ (funext fun l => ?_)
    by_cases ht : p.type = JSON_T_STRING
    · simp [ht]
    · cases p.stack <;> simp [ht, top, setType, setState]

theorem endString_eq (p : Parser D) :
    endString p =
      if p.buffer = [] then .error (.AssertionViolationException .popBackChar) p
      else match p.stack with
        | MODE_KEY :: _ =>
          if p.type = JSON_T_STRING then
            .ok true { p with log := p.log ++ callbacks p [.key p.buffer.dropLast], buffer := [],
                              type := JSON_T_NONE, state := .CO }
          else .error (.AssertionViolationException .typeString)
            { p with buffer := p.buffer.dropLast }
        | MODE_ARRAY :: _ | MODE_OBJECT :: _ =>
          if p.type = JSON_T_STRING then
            .ok true { p with log := p.log ++ callbacks p [.string p.buffer.dropLast], buffer := [],
                              type := JSON_T_NONE, state := .OK }
          else .error (.AssertionViolationException .typeString)
            { p with buffer := p.buffer.dropLast }
        | _ :: _ => .ok false { p with buffer := p.buffer.dropLast }
        | [] => .error (.AssertionViolationException .stackIndex)
            { p with buffer := p.buffer.dropLast } := by
  unfold endString
  rw [bind_parseBufferPopBackChar]
  split
  · rfl
  simp only [bind_apply, top]
  cases hs : p.stack with
  | nil => rfl
  | cons m ms =>
    by_cases ht : p.type = JSON_T_STRING
    · by_cases hh : p.pHandler = true <;> cases m <;>
        simp [ht, hh, emit_eq, callbacks, setType, setState, clearBuffer, parseBuffer_eq,
          delivered, bufferValue, Except.map, beginType_eq]
    · cases m <;> simp [ht]

theorem comma_eq (p : Parser D) :
    comma p = flushed p fun l => match p.stack with
      | MODE_OBJECT :: ms =>
        pushed MODE_KEY { p with log := p.log ++ l, buffer := [], stack := ms } fun q =>
          if q.type ≠ JSON_T_STRING then .ok true { q with type := JSON_T_NONE, state := .KE }
          else .error (.AssertionViolationException .typeNotString) q
      | MODE_ARRAY :: _ =>
        if p.type ≠ JSON_T_STRING then
          .ok true { p with log := p.log ++ l, buffer := [], type := JSON_T_NONE, state := .VA }
        else .error (.AssertionViolationException .typeNotString)
          { p with log := p.log ++ l, buffer := [] }
      | _ :: _ => .ok false { p with log := p.log ++ l, buffer := [] }
      | [] => .error (.AssertionViolationException .stackIndex)
          { p with log := p.log ++ l, buffer := [] } := by
  unfold comma
  rw [bind_flush]
  refine congrArg _ (funext fun l => ?_)
  rw [bind_apply]
  cases hs : p.stack with
  | nil => simp [top]
  | cons m ms =>
    cases m with
    | MODE_ARRAY =>
      by_cases ht : p.type = JSON_T_STRING <;> simp [top, ht, beginType_eq]
    | MODE_OBJECT =>
      simp only [top, bind_flip, List.head?_cons, if_true, List.tail_cons]
      refine congrArg _ (funext fun q => ?_)
      by_cases ht : q.type = JSON_T_STRING <;> simp [ht, beginType_eq]
    | _ => simp [top]

omit [StrToDouble D] in
theorem colon_eq (p : Parser D) :
    colon p =
      if p.buffer = [] then .error (.AssertionViolationException .popBackChar) p
      else if p.stack.head? = some MODE_KEY then
        pushed MODE_OBJECT { p with buffer := p.buffer.dropLast, stack := p.stack.tail } fun q =>
          if q.type = JSON_T_NONE then .ok true { q with state := .VA }
          else .error (.AssertionViolationException .typeNone) q
      else .ok false { p with buffer := p.buffer.dropLast } := by
  unfold colon
  rw [bind_parseBufferPopBackChar, bind_flip]
  refine congrArg _ (if_congr Iff.rfl (congrArg _ (funext fun q => ?_)) rfl)
  by_cases ht : q.type = JSON_T_NONE <;> simp [ht, setState]

theorem perform_UC (p : Parser D) :
    perform .UC p = match decodeUnicodeChar p with
      | .ok true q => .ok true
          { q with state := if q.utf16HighSurrogate ≠ 0 then .D1 else .ST }
      | .ok false q => .ok false q
      | .error e q => .error e q := by
  simp only [perform, bind_apply]
  cases decodeUnicodeChar p with
  | error e q => rfl
  | ok b q => cases b <;> simp [setState]

theorem perform_EX (p : Parser D) :
    perform .EX p = .ok true { p with escaped := true, state := .EC } := by
  simp [perform, setState]

theorem perform_SB (p : Parser D) :
    perform .SB p = if p.type = JSON_T_NONE then
        .ok true { p with buffer := [], type := JSON_T_STRING, state := .ST }
      else .error (.AssertionViolationException .typeNone) { p with buffer := [] } := by
  simp [perform, clearBuffer, beginLiteral_eq]

theorem perform_m9 (p : Parser D) :
    perform .m9 p = if p.stack.head? = some MODE_KEY then
        .ok true { p with log := p.log ++ callbacks p [.endObject], buffer := [],
                          stack := p.stack.tail, state := .OK }
      else .ok false { p with log := p.log ++ callbacks p [.endObject], buffer := [] } := by
  by_cases h : p.stack.head? = some MODE_KEY <;>
    simp [perform, clearBuffer, emit_eq, pop_eq, setState, h, callbacks]

/-! ### What a successful action does -/

/-- A push that succeeds, and the size of the stack buffer after it. -/
def CanPush (p : Parser D) (ms : List Modes) (n : ℕ) : Prop :=
  ¬ (0 ≤ p.depth ∧ p.depth ≤ ms.length) ∧ n = grown { p with stack := ms } ∧ ms.length < n

variable {p q : Parser D} {ms : List Modes} {a : Actions} {c : UInt8}

omit [StrToDouble D] in
theorem pushed_eq_true {f : Parser D → Result D} (h : pushed mode p f = .ok true q) :
    ∃ n, CanPush p p.stack n ∧ f { p with stack := mode :: p.stack, stackSize := n } =
      .ok true q := by
  rw [pushed, push_eq] at h
  split_ifs at h with hd hl
  · cases h
  · exact ⟨_, ⟨hd, rfl, hl⟩, h⟩

theorem flushed_eq_true {f : List (Callback D) → Result D} (h : flushed p f = .ok true q) :
    p.buffer ≠ [] ∧ ∃ l, delivered { p with buffer := p.buffer.dropLast } = .ok l ∧
      f l = .ok true q := by
  rw [flushed] at h
  split_ifs at h with hb
  cases hd : delivered { p with buffer := p.buffer.dropLast } with
  | error e =>
    rw [hd] at h
    cases h
  | ok l =>
    rw [hd] at h
    exact ⟨hb, l, rfl, h⟩

theorem flushed_of_delivered {f : List (Callback D) → Result D} {l : List (Callback D)}
    (hb : p.buffer ≠ [])
    (hl : delivered { p with buffer := p.buffer.dropLast } = .ok l) : flushed p f = f l := by
  rw [flushed, if_neg hb, hl]

omit [StrToDouble D] in
theorem checked_eq_true [Decidable P]
    (h : (if P then .ok true p' else .error e p'' : Result D) = .ok true q) : P ∧ p' = q := by
  split_ifs at h with hP
  cases h
  exact ⟨hP, rfl⟩

inductive Performed : Actions → Parser D → Parser D → Prop where
  | UC {p : Parser D} {bs : Bytes} {hi : ℕ} (hlen : 6 ≤ p.buffer.length)
      (hd : (p.buffer.drop (p.buffer.length - 4)).all fun c => hexDigit c < 16)
      (h0 : p.allowNullByte = false → hexValue (p.buffer.drop (p.buffer.length - 4)) ≠ 0)
      (h : decoded p.utf16HighSurrogate (hexValue (p.buffer.drop (p.buffer.length - 4))) =
        some (bs, hi)) :
      Performed .UC p { p with
        buffer := p.buffer.take (p.buffer.length - 6) ++ bs, utf16HighSurrogate := hi,
        state := if hi ≠ 0 then .D1 else .ST }
  | EX {p : Parser D} : Performed .EX p { p with escaped := true, state := .EC }
  | MX {p : Parser D} : Performed .MX p { p with type := JSON_T_INTEGER, state := .MI }
  | ZX {p : Parser D} : Performed .ZX p { p with type := JSON_T_INTEGER, state := .ZE }
  | IX {p : Parser D} : Performed .IX p { p with type := JSON_T_INTEGER, state := .IT }
  | DE {p : Parser D} (ht : p.type ≠ JSON_T_FALSE ∧ p.type ≠ JSON_T_TRUE ∧
        p.type ≠ JSON_T_NULL ∧ p.type ≠ JSON_T_STRING) :
      Performed .DE p { p with type := JSON_T_FLOAT, state := .E1 }
  | DF {p : Parser D} (ht : p.type ≠ JSON_T_FALSE ∧ p.type ≠ JSON_T_TRUE ∧
        p.type ≠ JSON_T_NULL ∧ p.type ≠ JSON_T_STRING) :
      Performed .DF p { p with type := JSON_T_FLOAT, state := .FX }
  | SB {p : Parser D} (ht : p.type = JSON_T_NONE) :
      Performed .SB p { p with buffer := [], type := JSON_T_STRING, state := .ST }
  | NU {p : Parser D} (ht : p.type = JSON_T_NONE) :
      Performed .NU p { p with type := JSON_T_NULL, state := .N1 }
  | FA {p : Parser D} (ht : p.type = JSON_T_NONE) :
      Performed .FA p { p with type := JSON_T_FALSE, state := .F1 }
  | TR {p : Parser D} (ht : p.type = JSON_T_NONE) :
      Performed .TR p { p with type := JSON_T_TRUE, state := .T1 }
  | CE {p : Parser D} (hb : p.buffer = []) (ht : p.type = JSON_T_NONE) :
      Performed .CE p { p with comment := false, state := p.beforeCommentState }
  | CB {p : Parser D} {l : List (Callback D)} {m : Modes} {ms : List Modes}
      (hc : p.allowComments = true) (hb : p.buffer ≠ [])
      (hl : delivered { p with buffer := p.buffer.dropLast } = .ok l)
      (ht : p.type ≠ JSON_T_STRING) (hs : p.stack = m :: ms) :
      Performed .CB p { p with
        log := p.log ++ l, buffer := [], beforeCommentState := stateAfterComment m p.state,
        type := JSON_T_NONE, state := .C1, comment := true }
  | m9 {p : Parser D} {ms : List Modes} (hs : p.stack = MODE_KEY :: ms) :
      Performed .m9 p { p with
        log := p.log ++ callbacks p [.endObject], buffer := [], stack := ms, state := .OK }
  | m8 {p : Parser D} {l : List (Callback D)} {ms : List Modes} (hb : p.buffer ≠ [])
      (hl : delivered { p with buffer := p.buffer.dropLast } = .ok l)
      (hs : p.stack = MODE_OBJECT :: ms) :
      Performed .m8 p { p with
        log := p.log ++ l ++ callbacks p [.endObject], buffer := [], stack := ms,
        type := JSON_T_NONE, state := .OK }
  | m7 {p : Parser D} {l : List (Callback D)} {ms : List Modes} (hb : p.buffer ≠ [])
      (hl : delivered { p with buffer := p.buffer.dropLast } = .ok l)
      (hs : p.stack = MODE_ARRAY :: ms) :
      Performed .m7 p { p with
        log := p.log ++ l ++ callbacks p [.endArray], buffer := [], stack := ms,
        type := JSON_T_NONE, state := .OK }
  | m6 {p : Parser D} {n : ℕ} (hb : p.buffer ≠ []) (hn : CanPush p p.stack n)
      (ht : p.type = JSON_T_NONE) :
      Performed .m6 p { p with
        log := p.log ++ callbacks p [.startObject], buffer := p.buffer.dropLast,
        stack := MODE_KEY :: p.stack, stackSize := n, state := .OB }
  | m5 {p : Parser D} {n : ℕ} (hb : p.buffer ≠ []) (hn : CanPush p p.stack n)
      (ht : p.type = JSON_T_NONE) :
      Performed .m5 p { p with
        log := p.log ++ callbacks p [.startArray], buffer := p.buffer.dropLast,
        stack := MODE_ARRAY :: p.stack, stackSize := n, state := .AR }
  | key {p : Parser D} {ms : List Modes} (hb : p.buffer ≠ []) (ht : p.type = JSON_T_STRING)
      (hs : p.stack = MODE_KEY :: ms) :
      Performed .m4 p { p with
        log := p.log ++ callbacks p [.key p.buffer.dropLast], buffer := [],
        type := JSON_T_NONE, state := .CO }
  | string {p : Parser D} {m : Modes} {ms : List Modes} (hb : p.buffer ≠ [])
      (ht : p.type = JSON_T_STRING) (hs : p.stack = m :: ms)
      (hm : m = MODE_ARRAY ∨ m = MODE_OBJECT) :
      Performed .m4 p { p with
        log := p.log ++ callbacks p [.string p.buffer.dropLast], buffer := [],
        type := JSON_T_NONE, state := .OK }
  | member {p : Parser D} {l : List (Callback D)} {ms : List Modes} {n : ℕ} (hb : p.buffer ≠ [])
      (hl : delivered { p with buffer := p.buffer.dropLast } = .ok l)
      (hs : p.stack = MODE_OBJECT :: ms) (hn : CanPush p ms n) (ht : p.type ≠ JSON_T_STRING) :
      Performed .m3 p { p with
        log := p.log ++ l, buffer := [], stack := MODE_KEY :: ms, stackSize := n,
        type := JSON_T_NONE, state := .KE }
  | element {p : Parser D} {l : List (Callback D)} {ms : List Modes} (hb : p.buffer ≠ [])
      (hl : delivered { p with buffer := p.buffer.dropLast } = .ok l)
      (hs : p.stack = MODE_ARRAY :: ms) (ht : p.type ≠ JSON_T_STRING) :
      Performed .m3 p { p with
        log := p.log ++ l, buffer := [], type := JSON_T_NONE, state := .VA }
  | m2 {p : Parser D} {ms : List Modes} {n : ℕ} (hb : p.buffer ≠ [])
      (hs : p.stack = MODE_KEY :: ms) (hn : CanPush p ms n) (ht : p.type = JSON_T_NONE) :
      Performed .m2 p { p with
        buffer := p.buffer.dropLast, stack := MODE_OBJECT :: ms, stackSize := n, state := .VA }

omit [StrToDouble D] in
theorem head?_eq_cons (h : ms.head? = some m) : ms = m :: ms.tail := by
  cases ms with
  | nil => cases h
  | cons a as =>
    cases h
    rfl

theorem performed_of_endContainer {c : Callback D} (h : endContainer c mode p = .ok true q)
    (hP : ∀ {l : List (Callback D)} {ms : List Modes}, p.buffer ≠ [] →
      delivered { p with buffer := p.buffer.dropLast } = .ok l → p.stack = mode :: ms →
      Performed a p { p with log := p.log ++ l ++ callbacks p [c], buffer := [], stack := ms,
                             type := JSON_T_NONE, state := .OK }) :
    Performed a p q := by
  rw [endContainer_eq] at h
  obtain ⟨hb, l, hd, h⟩ := flushed_eq_true h
  split_ifs at h with hs
  · cases h
    exact hP hb hd (head?_eq_cons hs)
  · cases h

omit [StrToDouble D] in
theorem beginContainer_eq_true {c : Callback D} (h : beginContainer c mode s p = .ok true q) :
    p.buffer ≠ [] ∧ p.type = JSON_T_NONE ∧ ∃ n, CanPush p p.stack n ∧
      q = { p with log := p.log ++ callbacks p [c], buffer := p.buffer.dropLast,
                   stack := mode :: p.stack, stackSize := n, state := s } := by
  rw [beginContainer_eq] at h
  split_ifs at h with hb
  obtain ⟨n, hn, h⟩ := pushed_eq_true h
  obtain ⟨ht, rfl⟩ := checked_eq_true h
  exact ⟨hb, ht, n, hn, rfl⟩

theorem performed_endString (h : endString p = .ok true q) : Performed .m4 p q := by
  rw [endString_eq] at h
  split_ifs at h with hb ht
  · split at h
    · next ms hs =>
      cases h
      exact .key hb ht hs
    · next ms hs =>
      cases h
      exact .string hb ht hs (.inl rfl)
    · next ms hs =>
      cases h
      exact .string hb ht hs (.inr rfl)
    · cases h
    · cases h
  · split at h <;> cases h

theorem performed_comma (h : comma p = .ok true q) : Performed .m3 p q := by
  rw [comma_eq] at h
  obtain ⟨hb, l, hd, h⟩ := flushed_eq_true h
  split at h
  · next ms hs =>
    obtain ⟨n, hn, h⟩ := pushed_eq_true h
    obtain ⟨ht, rfl⟩ := checked_eq_true h
    exact .member hb hd hs hn ht
  · next ms hs =>
    obtain ⟨ht, rfl⟩ := checked_eq_true h
    exact .element hb hd hs ht
  · cases h
  · cases h

theorem performed_colon (h : colon p = .ok true q) : Performed .m2 p q := by
  rw [colon_eq] at h
  split_ifs at h with hb hk
  · obtain ⟨n, hn, h⟩ := pushed_eq_true h
    obtain ⟨ht, rfl⟩ := checked_eq_true h
    exact .m2 hb (head?_eq_cons hk) hn ht
  · cases h

theorem performed_beginComment (h : beginComment p = .ok true q) : Performed .CB p q := by
  rw [beginComment_eq] at h
  split at h
  · cases h
  next hc =>
  obtain ⟨hb, l, hd, h⟩ := flushed_eq_true h
  split_ifs at h with ht
  split at h
  · next hs =>
    cases h
    exact .CB (by simpa using hc) hb hd ht hs
  · cases h

theorem performed_UC (h : perform .UC p = .ok true q) : Performed .UC p q := by
  rw [perform_UC, decodeUnicodeChar_eq] at h
  split at h
  · next b q' h' =>
    cases h
    split_ifs at h' with hlen hall h0
    · cases h'
    · split at h'
      · next bs hi hdec =>
        cases h'
        exact .UC (by omega) (by simpa using hall) (fun hn hz => h0 ⟨hn, hz⟩) hdec
      · cases h'
  · cases h
  · cases h

theorem performed_of_perform (h : perform a p = .ok true q) : Performed a p q := by
  cases a with
  | UC => exact performed_UC h
  | EX => rw [perform_EX] at h; cases h; exact .EX
  | MX | ZX | IX =>
    cases (beginType_eq _ _ p).symm.trans h
    constructor
  | DE | DF =>
    obtain ⟨ht, rfl⟩ := checked_eq_true ((beginFloat_eq _ p).symm.trans h)
    constructor
    exact ht
  | SB =>
    obtain ⟨ht, rfl⟩ := checked_eq_true ((perform_SB p).symm.trans h)
    exact .SB ht
  | NU | FA | TR =>
    obtain ⟨ht, rfl⟩ := checked_eq_true ((beginLiteral_eq _ _ p).symm.trans h)
    constructor
    exact ht
  | CE =>
    have h := (endComment_eq p).symm.trans h
    split_ifs at h with hb ht
    cases h
    exact .CE (not_not.mp hb) (not_not.mp ht)
  | CB => exact performed_beginComment h
  | m9 =>
    rw [perform_m9] at h
    split_ifs at h with hs
    · cases h
      exact .m9 (head?_eq_cons hs)
    · cases h
  | m8 => exact performed_of_endContainer h fun hb hl hs => .m8 hb hl hs
  | m7 => exact performed_of_endContainer h fun hb hl hs => .m7 hb hl hs
  | m6 | m5 =>
    obtain ⟨hb, ht, n, hn, rfl⟩ := beginContainer_eq_true h
    constructor <;> assumption
  | m4 => exact performed_endString h
  | m3 => exact performed_comma h
  | m2 => exact performed_colon h
  | xx => cases h

theorem Performed.size (h : Performed a p q) (hp : p.stack.length ≤ p.stackSize) :
    q.depth = p.depth ∧ q.stack.length ≤ q.stackSize := by
  cases h with
  | m9 hs =>
    rw [hs] at hp
    exact ⟨rfl, (Nat.le_succ _).trans hp⟩
  | m8 _ _ hs | m7 _ _ hs =>
    rw [hs] at hp
    exact ⟨rfl, (Nat.le_succ _).trans hp⟩
  | m6 _ hn | m5 _ hn => exact ⟨rfl, hn.2.2⟩
  | member _ _ _ hn | m2 _ _ hn => exact ⟨rfl, hn.2.2⟩
  | _ => exact ⟨rfl, hp⟩

omit [StrToDouble D] in
theorem canPush_unlimited (hd : p.depth < 0) (hs : ms.length ≤ p.stackSize) (h0 : 0 < p.stackSize) :
    CanPush p ms (grown { p with stack := ms }) := by
  refine ⟨by omega, rfl, ?_⟩
  unfold grown
  by_cases h : p.stackSize ≤ ms.length
  · rw [if_pos ⟨hd, h⟩]
    dsimp only
    omega
  · rw [if_neg fun h' => h h'.2]
    dsimp only
    omega

omit [StrToDouble D] in
theorem pushed_of_canPush (h : CanPush p ms n) (mode : Modes) (l : List (Callback D))
    (b : Bytes) (f : Parser D → Result D) :
    pushed mode { p with log := l, buffer := b, stack := ms } f =
      f { p with log := l, buffer := b, stack := mode :: ms, stackSize := n } := by
  obtain ⟨hd, rfl, hl⟩ := h
  rw [pushed, push_eq, if_neg hd, if_pos (by exact hl)]
  rfl

theorem perform_of_performed (h : Performed a p q) : perform a p = .ok true q := by
  cases h with
  | UC hlen hd h0 h =>
    rw [perform_UC, decodeUnicodeChar_eq, if_neg (by omega), if_neg (not_not.mpr hd),
      if_neg fun hn => h0 hn.1 hn.2, h]
  | EX => exact perform_EX p
  | MX | ZX | IX => exact beginType_eq _ _ p
  | DE ht | DF ht => rw [perform, beginFloat_eq, if_pos ht]
  | SB ht => rw [perform_SB, if_pos ht]
  | NU ht | FA ht | TR ht => rw [perform, beginLiteral_eq, if_pos ht]
  | CE hb ht => rw [perform, endComment_eq, if_neg (not_not.mpr hb), if_neg (not_not.mpr ht)]
  | CB hc hb hl ht hs =>
    rw [perform, beginComment_eq, if_neg (by simp [hc]), flushed_of_delivered hb hl, if_neg ht, hs]
  | m9 hs =>
    rw [perform_m9, if_pos (by rw [hs]; rfl), hs]
    rfl
  | m8 hb hl hs | m7 hb hl hs =>
    rw [perform, endContainer_eq, flushed_of_delivered hb hl, if_pos (by rw [hs]; rfl), hs]
    rfl
  | m6 hb hn ht | m5 hb hn ht =>
    rw [perform, beginContainer_eq, if_neg hb, pushed_of_canPush hn]
    exact if_pos ht
  | key hb ht hs =>
    rw [perform, endString_eq, if_neg hb, hs]
    rw [if_pos ht]
  | string hb ht hs hm =>
    rw [perform, endString_eq, if_neg hb, hs]
    rcases hm with rfl | rfl
    · exact if_pos ht
    · exact if_pos ht
  | member hb hl hs hn ht =>
    rw [perform, comma_eq, flushed_of_delivered hb hl, hs]
    dsimp only
    rw [pushed_of_canPush hn]
    exact if_pos ht
  | element hb hl hs ht =>
    rw [perform, comma_eq, flushed_of_delivered hb hl, hs]
    exact if_pos ht
  | m2 hb hs hn ht =>
    rw [perform, colon_eq, if_neg hb, if_pos (by rw [hs]; rfl), hs]
    dsimp only [List.tail_cons]
    rw [pushed_of_canPush hn]
    exact if_pos ht

/-! ### One ASCII character -/

/-- The parser after `addCharToParseBuffer`. -/
def fed (p : Parser D) (c : UInt8) (k : Classes) : Parser D :=
  if p.escaped then { p with escaped := false, buffer := p.buffer.dropLast ++ escapeBytes c }
  else { p with buffer := p.buffer ++ appended p c k }

theorem parseAscii_eq (hk : asciiClass c = some k) (p : Parser D)
    (hp : p.escaped = true → p.buffer ≠ []) : parseAscii c p = match transition p.state k with
      | .next s => .ok true { fed p c k with state := s }
      | .act a => perform a (fed p c k) := by
  have hadd : addCharToParseBuffer c k p = .ok () (fed p c k) := by
    rw [addCharToParseBuffer_eq]
    unfold fed
    by_cases he : p.escaped = true
    · rw [if_pos he, if_neg (hp he), if_pos he]
    · rw [if_neg he, if_neg he]
  have hst : (fed p c k).state = p.state := by
    unfold fed
    split <;> rfl
  unfold parseAscii
  simp only [hk, bind_apply, hadd, get_apply, hst]
  cases transition p.state k <;> simp [setState]

theorem parseAscii_none (hk : asciiClass c = none) (p : Parser D) :
    parseAscii c p = .ok false p := by
  simp [parseAscii, hk]

theorem parseAscii_eq_true (h : parseAscii c p = .ok true q) :
    ∃ k, asciiClass c = some k ∧ (p.escaped = true → p.buffer ≠ []) ∧
      ((∃ s, transition p.state k = .next s ∧ q = { fed p c k with state := s }) ∨
        ∃ a, transition p.state k = .act a ∧ a ≠ .xx ∧ Performed a (fed p c k) q) := by
  cases hk : asciiClass c with
  | none =>
    rw [parseAscii_none hk] at h
    cases h
  | some k =>
    by_cases hp : p.escaped = true → p.buffer ≠ []
    · refine ⟨k, rfl, hp, ?_⟩
      rw [parseAscii_eq hk p hp] at h
      cases ht : transition p.state k with
      | next s =>
        rw [ht] at h
        cases h
        exact .inl ⟨s, rfl, rfl⟩
      | act a =>
        rw [ht] at h
        refine .inr ⟨a, rfl, ?_, performed_of_perform h⟩
        rintro rfl
        cases h
    · obtain ⟨he, hb⟩ : p.escaped = true ∧ p.buffer = [] := by simpa using hp
      simp [parseAscii, hk, addCharToParseBuffer_eq, he, hb] at h

end

end Poco.JSON.Parser
