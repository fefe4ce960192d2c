import Poco.BinaryStream
import Poco.Lib.SortedAssoc

/-!
# BSON documents

`Document::write` and `Document::read` of `MongoDB/src/Document.cpp`, with the reader and
the writer of every type of element, from `Element.h`, `Binary.h`, `ObjectId.h`,
`RegularExpression.h`, `JavaScriptCode.h`, `Array.h` and `Document.h`.  A document inside a document
is written through a writer of native byte order, whatever the order of the writer of the outer
one.

Reading does not look at the state of the stream: where the stream is exhausted, a
variable keeps the value it had, and the loop over the elements goes on with it.  So the
loop need not end, and has fuel.

## Main definitions

* `Value`: the value of an element.  A floating-point number is its bit pattern, a timestamp its
  number of microseconds, and a `NullValue` is a `Nullable<unsigned char>`.
* `Document`: the elements in the order of their names, in which the `std::set` of the source
  iterates.
* `Document.write`, `Document.read`: the two functions; `Stop` is how reading ends if it does not
  return.

## Main results

* `ElementType.typeId_cases`: a type byte ends the document, is of no supported type, or of one.
-/

namespace Poco.MongoDB

/-! ### Documents -/

inductive ElementType
  | double
  | string
  | document
  | array
  | binary
  | objectId
  | bool
  | timestamp
  | null
  | regularExpression
  | javaScriptCode
  | int32
  | int64
deriving DecidableEq

namespace ElementType

def typeId : ElementType → UInt8
  | double => 0x01
  | string => 0x02
  | document => 0x03
  | array => 0x04
  | binary => 0x05
  | objectId => 0x07
  | bool => 0x08
  | timestamp => 0x09
  | null => 0x0A
  | regularExpression => 0x0B
  | javaScriptCode => 0x0D
  | int32 => 0x10
  | int64 => 0x12

def all : List ElementType :=
  [double, int32, string, document, array, binary, objectId, bool, timestamp, null,
    regularExpression, javaScriptCode, int64]

/-- The case of the `switch` for a type byte. -/
def ofTypeId (type : UInt8) : Option ElementType := all.find? (·.typeId == type)

@[simp] theorem ofTypeId_typeId (t : ElementType) : ofTypeId t.typeId = some t := by
  cases t <;> rfl

theorem typeId_of_ofTypeId (h : ofTypeId type = some t) : t.typeId = type := by
  simpa using List.find?_some h

theorem typeId_cases (type : UInt8) : type = 0 ∨
    (type ≠ 0 ∧ ofTypeId type = none) ∨ ∃ t : ElementType, type = t.typeId := by
  by_cases htype : type = 0
  · exact .inl htype
  · cases ht : ofTypeId type with
    | none => exact .inr (.inl ⟨htype, rfl⟩)
    | some t => exact .inr (.inr ⟨t, (typeId_of_ofTypeId ht).symm⟩)

theorem typeId_ne_zero (t : ElementType) : t.typeId ≠ 0 := by
  cases t <;> decide

end ElementType

abbrev Name := Bytes

inductive Value
  | double (bits : BitVec 64)
  | string (s : Bytes)
  | document (elements : List (Name × Value))
  | array (elements : List (Name × Value))
  | binary (subtype : UInt8) (buffer : Bytes)
  | objectId (id : Fin 12 → UInt8)
  | bool (b : Bool)
  | timestamp (ts : BitVec 64)
  | null (value : Option UInt8)
  | regularExpression (pattern options : Bytes)
  | javaScriptCode (code : Bytes)
  | int32 (v : BitVec 32)
  | int64 (v : BitVec 64)

abbrev Document := List (Name × Value)

def Value.type : Value → ElementType
  | double _ => .double
  | string _ => .string
  | document _ => .document
  | array _ => .array
  | binary .. => .binary
  | objectId _ => .objectId
  | bool _ => .bool
  | timestamp _ => .timestamp
  | null _ => .null
  | regularExpression .. => .regularExpression
  | javaScriptCode _ => .javaScriptCode
  | int32 _ => .int32
  | int64 _ => .int64

/-! ### Writing -/

section Writing

variable (π : Platform)

def writeCString (s : Bytes) : Bytes := s ++ [0]

/-- `BSONWriter::write` for a string, on a writer of native byte order. -/
def writeString (s : Bytes) : Bytes :=
  BinaryWriter.writeInt32 π .NATIVE_BYTE_ORDER (.ofNat 32 (s.length + 1)) ++ writeCString s

/-- What `Document::write` puts around the elements, which are given as the bytes that
the temporary writer has. -/
def bracket (order : StreamByteOrder) (empty : Bool) (sstream : Bytes) : Bytes :=
  (if empty then BinaryWriter.writeInt32 π order 5
    else BinaryWriter.writeInt32 π order (.ofNat 32 (5 + sstream.length)) ++ sstream) ++ [0]

mutual

/-- `BSONWriter::write` for the value of an element.  The writer is a temporary one of
native byte order. -/
def Value.write : Value → Bytes
  | .double bits => BinaryWriter.writeInt64 π .NATIVE_BYTE_ORDER bits
  | .string s => writeString π s
  | .document elements =>
    bracket π .NATIVE_BYTE_ORDER elements.isEmpty (writeElements elements)
  | .array elements =>
    bracket π .NATIVE_BYTE_ORDER elements.isEmpty (writeElements elements)
  -- the size of the buffer is not written
  | .binary subtype buffer => subtype :: buffer
  | .objectId id => List.ofFn id
  | .bool b => [if b then 0x01 else 0x00]
  | .timestamp ts => BinaryWriter.writeInt64 π .NATIVE_BYTE_ORDER (ts.sdiv 1000)
  | .null _ => []
  | .regularExpression pattern options => writeCString pattern ++ writeCString options
  | .javaScriptCode code => writeString π code
  | .int32 v => BinaryWriter.writeInt32 π .NATIVE_BYTE_ORDER v
  | .int64 v => BinaryWriter.writeInt64 π .NATIVE_BYTE_ORDER v

/-- The loop over the elements: what the temporary writer gets. -/
def writeElements : Document → Bytes
  | [] => []
  | (name, value) :: elements =>
    value.type.typeId :: writeCString name ++ Value.write value ++ writeElements elements

end

def Document.write (order : StreamByteOrder) (d : Document) : Bytes :=
  bracket π order d.isEmpty (writeElements π d)

end Writing

/-! ### Reading -/

inductive Stop
  /-- A `NotImplementedException` for the name and the type of an element. -/
  | notImplemented (name : Bytes) (type : UInt8)
  /-- The last character of an empty string is erased. -/
  | eraseFromEmpty
  /-- A negative length is used as a size. -/
  | negativeLength
  | outOfFuel
deriving DecidableEq

abbrev ReadM := EStateM Stop BinaryReader

section Reading

open BinaryReader

variable (π : Platform) (order : StreamByteOrder)

/-- The loop of `readCString` on a good stream: what it returns, what it leaves, and
whether it came to a null byte. -/
def scanCString : Bytes → Bytes × Bytes × Bool
  | [] => ([], [], false)
  | c :: cs =>
    if c = 0 then ([], cs, true)
    else
      let (val, rest, found) := scanCString cs
      (c :: val, rest, found)

def readCString : ReadM Bytes := fun s =>
  if s.good then
    let (val, rest, found) := scanCString s.input
    .ok val { s with input := rest, good := found }
  else .ok [] s

/-- The loop of `BinaryReader::readRaw` for a string, `while (length--)`. -/
def readRawLoop : ℕ → ReadM Bytes
  | 0 => return []
  | length + 1 => do
    let c ← istrRead 1
    if (← get).good then return c ++ (← readRawLoop length) else return []

/-- A variable of type `Int32` without an initial value, and `operator >>` into it. -/
def extractInt32 : ReadM (BitVec 32) := do
  let old ← uninitialized 4
  return .ofNat 32 (← extract π order old)

def extractInt64 : ReadM (BitVec 64) := do
  let old ← uninitialized 8
  return .ofNat 64 (← extract π order old)

def extractUnsignedChar : ReadM UInt8 := do
  let old ← uninitialized 1
  extractByte (old.headD 0)

def readString : ReadM Bytes := do
  let size ← extractInt32 π order
  if size.toInt < 0 then throw .negativeLength
  else do
    let value ← readRawLoop size.toInt.toNat
    -- to.erase(to.end() - 1)
    if value = [] then throw .eraseFromEmpty else return value.dropLast

/-- `operator >>` for a `double`, which is zero before.  With the other byte order the
bytes are stored one by one from the last one on. -/
def readDouble : ReadM (BitVec 64) := do
  let old := π.store 8 0
  let bs ← istrRead 8
  let mem := if π.flipBytes order then old.take (8 - bs.length) ++ bs.reverse
    else bs ++ old.drop bs.length
  return .ofNat 64 (π.load mem)

def readBinary : ReadM Value := do
  let size ← extractInt32 π order
  -- to->buffer().resize(size)
  if size.toInt < 0 then throw .negativeLength
  else do
    let buffer ← uninitialized size.toInt.toNat
    let subtype ← extractUnsignedChar
    let bs ← istrRead size.toInt.toNat
    return .binary subtype (bs ++ buffer.drop bs.length)

def readTimestamp : ReadM (BitVec 64) := do
  let value ← extractInt64 π order
  return value.sdiv 1000 * 1000000 + value.srem 1000 * 1000

def readObjectId : ReadM (Fin 12 → UInt8) := do
  let id ← uninitialized 12
  let bs ← istrRead 12
  return fun i => (bs ++ id.drop bs.length).getD i 0

/-- `Element::read` for a new element of a type; `nested` reads a document. -/
def readValue (nested : ReadM Document) : ElementType → ReadM Value
  | .double => return .double (← readDouble π order)
  | .string => return .string (← readString π order)
  | .document => return .document (← nested)
  | .array => return .array (← nested)
  | .binary => readBinary π order
  | .objectId => return .objectId (← readObjectId)
  | .bool => return .bool ((← extractUnsignedChar) != 0)
  | .timestamp => return .timestamp (← readTimestamp π order)
  | .null => return .null (some 0)
  | .regularExpression => do
    let pattern ← readCString
    let options ← readCString
    return .regularExpression pattern options
  | .javaScriptCode => return .javaScriptCode (← readString π order)
  | .int32 => return .int32 (.ofNat 32 (← extract π order (π.store 4 0)))
  | .int64 => return .int64 (.ofNat 64 (← extract π order (π.store 8 0)))

/-- The beginning of `Document::read`: the size, which is not used, and the type of the
first element. -/
def readHeader : ReadM UInt8 := do
  let _size ← extractInt32 π order
  extractUnsignedChar

/-- The loop of `Document::read`, for the type and the elements so far. -/
def readElements : ℕ → UInt8 → Document → ReadM Document
  | 0, _, _ => throw .outOfFuel
  | fuel + 1, type, elements =>
    if type = 0 then return elements
    else do
      let name ← readCString
      match ElementType.ofTypeId type with
      | none => throw (.notImplemented name type)
      | some t =>
        let nested := do
          let type ← readHeader π order
          readElements fuel type []
        let value ← readValue π order nested t
        -- where the stream is exhausted, `type` stays as it is
        let type' ← extractByte type
        readElements fuel type' (SortedAssoc.insert elements name value)

def Document.read (fuel : ℕ) : ReadM Document := do
  let type ← readHeader π order
  readElements π order fuel type []

end Reading

end Poco.MongoDB
