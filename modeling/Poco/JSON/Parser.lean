import Mathlib.Data.Int.Basic
import Mathlib.Data.List.DropRight
import Poco.JSON.ParseHandler
import Poco.JSON.Table
import Poco.NumericString
import Poco.UTF8Encoding

/-!
# The JSON parser

`Parser` of `JSON/include/Poco/JSON/Parser.h` and `JSON/src/Parser.cpp`.  A method is a
function of the parser that may throw and keeps the parser as it was at the throw; a `bool` result
of the source is the value of the program.

The handler is the list of the callbacks it has been given.  `_parseBuffer` is the list
of its bytes, and `_stack` the list of the cells from index `_top` down to `0`, so that
`_top` is one less than its length.

## Main definitions

* `StrToDouble`: the conversion to `double` of a third-party library; `none` stands for an infinity
  or a NaN.
* `Parser`, `ParserM`: the members of `Parser`, and its methods as programs of a state and
  exception monad.
* `parseChar`, `parse`, `reset`: the methods that are called from outside, and the round of the
  loop.
-/

namespace Poco.JSON

/-- `Parser::Modes`, and the contents of a cell that has not been written to. -/
inductive Modes where
  | MODE_ARRAY | MODE_DONE | MODE_KEY | MODE_OBJECT | MODE_UNSET
  deriving DecidableEq, Repr

/-- `Parser::JSONType`, without `JSON_T_MAX`, which no parser ever has. -/
inductive JSONType where
  | JSON_T_NONE | JSON_T_INTEGER | JSON_T_FLOAT | JSON_T_NULL | JSON_T_TRUE | JSON_T_FALSE
  | JSON_T_STRING
  deriving DecidableEq, Repr

open Modes JSONType

instance : Fintype Modes := Fintype.ofList
  [.MODE_ARRAY, MODE_DONE, MODE_KEY, MODE_OBJECT, MODE_UNSET] fun m => by cases m <;> decide

instance : Fintype JSONType := Fintype.ofList
  [JSON_T_NONE, JSON_T_INTEGER, JSON_T_FLOAT, JSON_T_NULL, JSON_T_TRUE, JSON_T_FALSE,
    JSON_T_STRING]
  fun t => by cases t <;> decide

/-- The assertions that `Parser::parse` reaches. -/
inductive Assertion where
  /-- `_parseBuffer.size() >= 1` in `parseBufferPopBackChar`. -/
  | popBackChar
  /-- `_parseBuffer.size() >= 6` in `decodeUnicodeChar`. -/
  | decodeSize
  /-- `x < 16` in `decodeUnicodeChar`. -/
  | decodeDigit
  /-- The assertion of `assertNotStringNullBool`. -/
  | notStringNullBool
  /-- `_type == JSON_T_NONE`. -/
  | typeNone
  /-- `_type == JSON_T_STRING`. -/
  | typeString
  /-- `_type != JSON_T_STRING`. -/
  | typeNotString
  /-- `_parseBuffer.size() == 0` at the begin or the end of a comment. -/
  | bufferEmpty
  /-- `index < _used` of `Buffer::operator []`, for `_stack`. -/
  | stackIndex
  /-- `index < _used` of `Buffer::operator []`, for `_parseBuffer`. -/
  | bufferIndex
  deriving DecidableEq, Repr

/-- The exceptions that `Parser::parse` throws. -/
inductive Exception where
  | JSONException (msg : String)
  | SyntaxException (msg : String)
  | AssertionViolationException (a : Assertion)
  deriving DecidableEq, Repr

class StrToDouble (D : Type) where
  strToDouble : Bytes → Option D

/-- A double can be kept as the text it is written as, which serves to run the parser on
concrete inputs. -/
instance : StrToDouble Bytes := ⟨some⟩

structure Parser (D : Type) where
  /-- Whether `_pHandler` is set. -/
  pHandler : Bool
  /-- The callbacks made to `_pHandler`. -/
  log : List (Callback D)
  state : States
  beforeCommentState : States
  type : JSONType
  escaped : Bool
  comment : Bool
  /-- `_utf16HighSurrogate`, `0` if none is pending. -/
  utf16HighSurrogate : ℕ
  depth : ℤ
  /-- `_stack[_top]`, …, `_stack[0]`. -/
  stack : List Modes
  stackSize : ℕ
  buffer : Bytes
  allowNullByte : Bool
  allowComments : Bool

abbrev ParserM (D : Type) := EStateM Exception (Parser D)

namespace Parser

variable {D : Type}

def pocoAssert (a : Assertion) (cond : Bool) : ParserM D Unit :=
  if cond then pure () else throw (.AssertionViolationException a)

/-! ### The mode stack -/

def top : ParserM D Modes := fun p =>
  match p.stack with
  | m :: _ => .ok m p
  | [] => .error (.AssertionViolationException .stackIndex) p

/-- `_stack[_top] = mode`, where `_top` has just been incremented. -/
def setTop (mode : Modes) : ParserM D Unit := do
  pocoAssert .stackIndex ((← get).stack.length ≤ (← get).stackSize)
  modify fun p => { p with stack := mode :: p.stack.tail }

/-- `Parser::push`.  The cell that `_top += 1` moves to is written only at the end; what
it held before does not matter, since a failed push ends the parse. -/
def push (mode : Modes) : ParserM D Bool := do
  modify fun p => { p with stack := MODE_UNSET :: p.stack }
  let p ← get
  let top : ℤ := p.stack.length - 1
  if p.depth < 0 then
    if top ≥ p.stackSize then modify fun p => { p with stackSize := p.stackSize * 2 }
    setTop mode
    pure true
  else if top ≥ p.depth then pure false
  else
    setTop mode
    pure true

def pop (mode : Modes) : ParserM D Bool := fun p =>
  match p.stack with
  | m :: ms => if m ≠ mode then .ok false p else .ok true { p with stack := ms }
  | [] => .ok false p

def done : ParserM D Bool := do
  if (← get).state = .OK then pop MODE_DONE else pure false

/-! ### The parse buffer -/

def clearBuffer : ParserM D Unit := modify fun p => { p with buffer := [] }

def parseBufferPopBackChar : ParserM D Unit := do
  pocoAssert .popBackChar ((← get).buffer.length ≥ 1)
  modify fun p => { p with buffer := p.buffer.dropLast }

def parseBufferPushBackChar (c : UInt8) : ParserM D Unit :=
  modify fun p => { p with buffer := p.buffer ++ [c] }

/-- What `addEscapedCharToParseBuffer` appends for the character after a backslash. -/
def escapeBytes (c : UInt8) : Bytes :=
  if c = 0x62 then [0x08]
  else if c = 0x66 then [0x0C]
  else if c = 0x6E then [0x0A]
  else if c = 0x72 then [0x0D]
  else if c = 0x74 then [0x09]
  else if c = 0x22 then [0x22]
  else if c = 0x5C then [0x5C]
  else if c = 0x2F then [0x2F]
  else if c = 0x75 then [0x5C, 0x75]
  else []

def addEscapedCharToParseBuffer (c : UInt8) : ParserM D Unit := do
  modify fun p => { p with escaped := false }
  -- remove the backslash
  parseBufferPopBackChar
  modify fun p => { p with buffer := p.buffer ++ escapeBytes c }

def addCharToParseBuffer (c : UInt8) (nextClass : Classes) : ParserM D Unit := do
  let p ← get
  if p.escaped then addEscapedCharToParseBuffer c
  else if ¬ p.comment then
    if p.type ≠ JSON_T_NONE ∨ ¬ (nextClass = .C_SPACE ∨ nextClass = .C_WHITE) then
      parseBufferPushBackChar c

/-! ### Unicode escapes -/

/-- The digit that `decodeUnicodeChar` takes a character for.  A byte from `0x80` on is
negative as a `char` and a number above `0xFFFFFF00` as an `unsigned`; as here, the
number it yields is not below 16. -/
def hexDigit (c : UInt8) : ℕ :=
  if c ≥ 0x61 then c.toNat - (97 - 10)
  else if c ≥ 0x41 then c.toNat - (65 - 10)
  else (c &&& ~~~0x30).toNat

/-- `IS_HIGH_SURROGATE`: the upper six of sixteen bits are `0xD800 >> 10`. -/
def isHighSurrogate (uc : ℕ) : Bool := uc / 0x400 = 0x36

def isLowSurrogate (uc : ℕ) : Bool := uc / 0x400 = 0x37

def decodeSurrogatePair (hi lo : ℕ) : ℕ := hi % 0x400 * 0x400 + lo % 0x400 + 0x10000

/-- The trailing bytes `decodeUnicodeChar` appends: six bits each, from the highest. -/
def utf8Trail (uc : ℕ) : ℕ → Bytes
  | 0 => []
  | n + 1 => UInt8.ofNat (0x80 + uc / 64 ^ n % 64) :: utf8Trail uc n

def utf8LeadBits : ℕ → ℕ
  | 0 => 0x00
  | 1 => 0xC0
  | 2 => 0xE0
  | _ => 0xF0

/-- The bytes that `decodeUnicodeChar` appends. -/
def utf8Encode (uc trailBytes : ℕ) : Bytes :=
  UInt8.ofNat (utf8LeadBits trailBytes + uc / 64 ^ trailBytes) :: utf8Trail uc trailBytes

/-- The end of `decodeUnicodeChar`, where the bytes are appended. -/
def appendUnicode (uc trailBytes : ℕ) : ParserM D Bool := do
  modify fun p => { p with buffer := p.buffer ++ utf8Encode uc trailBytes }
  pure true

/-- The attempt of `decodeUnicodeChar` at decoding `uc`, once the escape is removed. -/
def decodeUnit (uc : ℕ) : ParserM D Bool := do
  let hi := (← get).utf16HighSurrogate
  if hi ≠ 0 then
    if isLowSurrogate uc then
      modify fun p => { p with utf16HighSurrogate := 0 }
      appendUnicode (decodeSurrogatePair hi uc) 3
    -- high surrogate without a following low surrogate
    else pure false
  else if uc < 0x80 then appendUnicode uc 0
  else if uc < 0x800 then appendUnicode uc 1
  else if isHighSurrogate uc then
    -- save the high surrogate and wait for the low surrogate
    modify fun p => { p with utf16HighSurrogate := uc }
    pure true
  -- low surrogate without a preceding high surrogate
  else if isLowSurrogate uc then pure false
  else appendUnicode uc 2

def hexValue (ds : Bytes) : ℕ := ds.foldl (fun n c => n * 16 + hexDigit c) 0

def decodeUnicodeChar : ParserM D Bool := do
  let p ← get
  pocoAssert .decodeSize (p.buffer.length ≥ 6)
  let ds := p.buffer.drop (p.buffer.length - 4)
  pocoAssert .decodeDigit (ds.all fun c => hexDigit c < 16)
  let uc := hexValue ds
  if ¬ p.allowNullByte ∧ uc = 0 then pure false
  else
    -- clear UTF-16 char from buffer
    modify fun p => { p with buffer := p.buffer.take (p.buffer.length - 6) }
    decodeUnit uc

/-! ### Values -/

/-- `strToDouble(str, result, decSep, thSep)` with the separators `'.'` and `','`. -/
def parseFloat [StrToDouble D] (s : Bytes) : Option D :=
  if s = [] then none
  else
    let tmp := (s.dropWhile isspace).rdropWhile isspace
    let tmp := tmp.filter (fun c => c ≠ 0x2C)
    let tmp := tmp.filter (fun c => c ≠ 0x66)
    StrToDouble.strToDouble (tmp.takeWhile (fun c => c ≠ 0))

def integerValue (buffer : Bytes) : Except Exception (Callback D) :=
  match NumberParser.tryParse64 buffer with
  | some v =>
    if v > IntType.int.max ∨ v < IntType.int.min then .ok (.int64 v) else .ok (.int v)
  -- try to handle error as unsigned in case of overflow
  | none => match NumberParser.tryParseUnsigned64 buffer with
    | some v => if v > IntType.unsigned.max then .ok (.uint64 v) else .ok (.unsigned v)
    | none => .error (.SyntaxException "Not a valid unsigned integer")

/-- The callback that `parseBuffer` makes for a floating-point number. -/
def floatValue [StrToDouble D] (buffer : Bytes) : Except Exception (Callback D) :=
  match buffer.getLast? with
  | none => .error (.AssertionViolationException .bufferIndex)
  | some c =>
    -- Float can't end with a dot
    if c = 0x2E then .error (.SyntaxException "JSON syntax error")
    else match parseFloat buffer with
      | some d => .ok (.float d)
      | none => .error (.SyntaxException "Not a valid floating-point number")

def bufferValue [StrToDouble D] (type : JSONType) (buffer : Bytes) :
    Except Exception (Option (Callback D)) :=
  match type with
  | JSON_T_NONE => .ok none
  | JSON_T_TRUE => .ok (some (.bool true))
  | JSON_T_FALSE => .ok (some (.bool false))
  | JSON_T_NULL => .ok (some .null)
  | JSON_T_FLOAT => (floatValue buffer).map some
  | JSON_T_INTEGER => (integerValue buffer).map some
  | JSON_T_STRING => .ok (some (.string buffer))

/-- A callback, `if (_pHandler) _pHandler->…`. -/
def emit (c : Callback D) : ParserM D Unit :=
  modify fun p => if p.pHandler then { p with log := p.log ++ [c] } else p

def parseBuffer [StrToDouble D] : ParserM D Unit := do
  let p ← get
  if p.pHandler then
    match bufferValue p.type p.buffer with
    | .ok (some c) => emit c
    | .ok none => pure ()
    | .error e => throw e
  clearBuffer

/-! ### Characters -/

def setState (s : States) : ParserM D Unit := modify fun p => { p with state := s }

def setType (t : JSONType) : ParserM D Unit := modify fun p => { p with type := t }

/-- The actions `MX`, `ZX` and `IX`, and the end of `DE`, `DF`, `SB`, `NU`, `FA`, `TR`. -/
def beginType (t : JSONType) (s : States) : ParserM D Bool := do
  setType t
  setState s
  pure true

/-- The actions `DE` and `DF`. -/
def beginFloat (s : States) : ParserM D Bool := do
  let t := (← get).type
  pocoAssert .notStringNullBool
    (t ≠ JSON_T_FALSE ∧ t ≠ JSON_T_TRUE ∧ t ≠ JSON_T_NULL ∧ t ≠ JSON_T_STRING)
  beginType JSON_T_FLOAT s

/-- The actions `NU`, `FA` and `TR`. -/
def beginLiteral (t : JSONType) (s : States) : ParserM D Bool := do
  pocoAssert .typeNone ((← get).type = JSON_T_NONE)
  beginType t s

/-- The state that is restored at the end of a comment, by the mode on the stack. -/
def stateAfterComment (mode : Modes) (state : States) : States :=
  match mode with
  | MODE_ARRAY | MODE_OBJECT => if state = .VA ∨ state = .AR then state else .OK
  | _ => state

section

variable [StrToDouble D]

/-- The action `CB`. -/
def beginComment : ParserM D Bool := do
  if ¬ (← get).allowComments then pure false
  else
    parseBufferPopBackChar
    parseBuffer
    pocoAssert .bufferEmpty ((← get).buffer = [])
    pocoAssert .typeNotString ((← get).type ≠ JSON_T_STRING)
    let mode ← top
    modify fun p => { p with beforeCommentState := stateAfterComment mode p.state }
    setType JSON_T_NONE
    setState .C1
    modify fun p => { p with comment := true }
    pure true

/-- The action `CE`. -/
def endComment : ParserM D Bool := do
  modify fun p => { p with comment := false }
  pocoAssert .bufferEmpty ((← get).buffer = [])
  pocoAssert .typeNone ((← get).type = JSON_T_NONE)
  setState (← get).beforeCommentState
  pure true

/-- The actions `-8` and `-7`: the end of a container that is not an empty object. -/
def endContainer (c : Callback D) (mode : Modes) : ParserM D Bool := do
  parseBufferPopBackChar
  parseBuffer
  emit c
  if ¬ (← pop mode) then pure false
  else beginType JSON_T_NONE .OK

/-- The actions `-6` and `-5`: the begin of a container. -/
def beginContainer (c : Callback D) (mode : Modes) (s : States) : ParserM D Bool := do
  parseBufferPopBackChar
  emit c
  if ¬ (← push mode) then pure false
  else
    pocoAssert .typeNone ((← get).type = JSON_T_NONE)
    setState s
    pure true

/-- The action `-4`: the end of a string. -/
def endString : ParserM D Bool := do
  parseBufferPopBackChar
  match ← top with
  | MODE_KEY =>
    pocoAssert .typeString ((← get).type = JSON_T_STRING)
    setType JSON_T_NONE
    setState .CO
    emit (.key (← get).buffer)
    clearBuffer
    pure true
  | MODE_ARRAY | MODE_OBJECT =>
    pocoAssert .typeString ((← get).type = JSON_T_STRING)
    parseBuffer
    beginType JSON_T_NONE .OK
  | _ => pure false

/-- The flip of the mode on the stack: `!pop(old) || !push(new)` is `false`. -/
def flip (old new : Modes) : ParserM D Bool := do
  if ¬ (← pop old) then pure false else push new

/-- The action `-3`: a comma. -/
def comma : ParserM D Bool := do
  parseBufferPopBackChar
  parseBuffer
  match ← top with
  | MODE_OBJECT =>
    -- A comma causes a flip from object mode to key mode.
    if ¬ (← flip MODE_OBJECT MODE_KEY) then pure false
    else
      pocoAssert .typeNotString ((← get).type ≠ JSON_T_STRING)
      beginType JSON_T_NONE .KE
  | MODE_ARRAY =>
    pocoAssert .typeNotString ((← get).type ≠ JSON_T_STRING)
    beginType JSON_T_NONE .VA
  | _ => pure false

/-- The action `-2`: a colon. -/
def colon : ParserM D Bool := do
  parseBufferPopBackChar
  -- A colon causes a flip from key mode to object mode.
  if ¬ (← flip MODE_KEY MODE_OBJECT) then pure false
  else
    pocoAssert .typeNone ((← get).type = JSON_T_NONE)
    setState .VA
    pure true

/-- The `switch` over the actions. -/
def perform : Actions → ParserM D Bool
  | .UC => do
    if ¬ (← decodeUnicodeChar) then pure false
    else
      -- check if we need to read a second UTF-16 char
      setState (if (← get).utf16HighSurrogate ≠ 0 then .D1 else .ST)
      pure true
  | .EX => do
    modify fun p => { p with escaped := true }
    setState .EC
    pure true
  | .MX => beginType JSON_T_INTEGER .MI
  | .ZX => beginType JSON_T_INTEGER .ZE
  | .IX => beginType JSON_T_INTEGER .IT
  | .DE => beginFloat .E1
  | .DF => beginFloat .FX
  | .SB => do
    clearBuffer
    beginLiteral JSON_T_STRING .ST
  | .NU => beginLiteral JSON_T_NULL .N1
  | .FA => beginLiteral JSON_T_FALSE .F1
  | .TR => beginLiteral JSON_T_TRUE .T1
  | .CE => endComment
  | .CB => beginComment
  | .m9 => do
    clearBuffer
    emit .endObject
    if ¬ (← pop MODE_KEY) then pure false
    else
      setState .OK
      pure true
  | .m8 => endContainer .endObject MODE_OBJECT
  | .m7 => endContainer .endArray MODE_ARRAY
  | .m6 => beginContainer .startObject MODE_KEY .OB
  | .m5 => beginContainer .startArray MODE_ARRAY .AR
  | .m4 => endString
  | .m3 => comma
  | .m2 => colon
  | .xx => pure false

/-- `parseChar` from the class of an ASCII character on. -/
def parseAscii (c : UInt8) : ParserM D Bool :=
  match asciiClass c with
  | none => pure false
  | some nextClass => do
    addCharToParseBuffer c nextClass
    match transition (← get).state nextClass with
    | .next s => do
      setState s
      pure true
    | .act a => perform a

/-- The bytes that `parseChar` reads for a character above the ASCII range, and the rest
of the source. -/
def readSequence (c : UInt8) (source : Bytes) : Except Exception (Bytes × Bytes) :=
  let count := utf8CheckFirst c
  if count = 0 then .error (.JSONException "Bad character.")
  else if source.length < count - 1 then .error (.JSONException "Invalid UTF8 sequence found")
  else if ¬ UTF8Encoding.isLegal (c :: source.take (count - 1)) then
    .error (.JSONException "No legal UTF8 found")
  else .ok (c :: source.take (count - 1), source.drop (count - 1))

/-- `Parser::parseChar`; the second component is what it leaves of the source. -/
def parseChar (c : UInt8) (source : Bytes) : ParserM D (Bool × Bytes) := do
  if ¬ (← get).allowNullByte ∧ c = 0 then pure (false, source)
  else if c ≥ 0x80 then
    match readSequence c source with
    | .error e => throw e
    | .ok (bytes, rest) => do
      modify fun p => { p with buffer := p.buffer ++ bytes }
      pure (true, rest)
  else do
    let accepted ← parseAscii c
    pure (accepted, source)

/-- The `while` loop of `Parser::parse`; every round reads at least one byte, so a fuel
of the length of the source suffices. -/
def parseLoop : ℕ → Bytes → ParserM D Unit
  | 0, _ => pure ()
  | _ + 1, [] => pure ()
  | n + 1, c :: source => do
    let (accepted, rest) ← parseChar c source
    if accepted then parseLoop n rest else throw (.SyntaxException "JSON syntax error")

/-- `Parser::asVar`, of a parser whose handler is a `ParseHandler`. -/
def asVar (p : Parser D) : Option (Var D) := (ParseHandler.fresh.run p.log).bind (·.result)

def parse (json : Bytes) : ParserM D (Option (Var D)) := do
  parseLoop json.length json
  if ¬ (← done) then throw (.JSONException "JSON syntax error")
  else pure (asVar (← get))

end

/-! ### Construction and reset -/

structure Settings where
  handler : Bool := true
  /-- `setDepth`; `-1` is `JSON_UNLIMITED_DEPTH`. -/
  depth : ℤ := -1
  allowNullByte : Bool := true
  allowComments : Bool := false
  deriving DecidableEq, Repr

def JSON_PARSER_STACK_SIZE : ℕ := 128

/-- A parser as the constructor leaves it, with the given settings made after it. -/
def fresh (σ : Settings) : Parser D where
  pHandler := σ.handler
  log := []
  state := .GO
  beforeCommentState := .GO
  type := JSON_T_NONE
  escaped := false
  comment := false
  utf16HighSurrogate := 0
  depth := σ.depth
  stack := [.MODE_DONE]
  stackSize := JSON_PARSER_STACK_SIZE
  buffer := []
  allowNullByte := σ.allowNullByte
  allowComments := σ.allowComments

def settings (p : Parser D) : Settings where
  handler := p.pHandler
  depth := p.depth
  allowNullByte := p.allowNullByte
  allowComments := p.allowComments

/-- `Parser::reset`.  A handler whose history is defined is as a new one afterwards. -/
def reset : ParserM D Unit := do
  modify fun p => { p with
    state := .GO
    beforeCommentState := .GO
    type := JSON_T_NONE
    escaped := false
    utf16HighSurrogate := 0
    stack := []
    buffer := [] }
  let _ ← push MODE_DONE
  modify fun p => if (ParseHandler.fresh.run p.log).isSome then { p with log := [] } else p

end Parser

end Poco.JSON
