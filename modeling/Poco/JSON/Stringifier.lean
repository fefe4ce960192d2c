import Poco.JSON.ParseHandler
import Poco.NumberFormatter

/-!
# Writing a JSON text

`Stringifier` of `JSON/src/Stringifier.cpp`, and the `stringify` methods of `Object` and
`Array`, whose objects do not preserve the order of insertion.  The indentation is an
`unsigned int` and the step an `int`, with the conversions between them that the source makes.

## Main definitions

* `DoubleToStr`: the conversion of a `double` by a third-party library.
* `formatString`: a string with its escapes.
* `Stringifier.stringify`, `Array.stringify`, `Object.stringify`: the bytes that are written.
-/

namespace Poco.JSON

class DoubleToStr (D : Type) where
  doubleToStr : D → Bytes

/-- A double that is kept as its text. -/
instance : DoubleToStr Bytes := ⟨id⟩

namespace Stringifier

/-! ### Strings -/

/-- A digit of `std::hex << std::uppercase`. -/
def hexUpper (n : UInt8) : UInt8 := if n < 10 then 0x30 + n else 0x37 + n

def formatChar (c : UInt8) : Bytes :=
  if c = 0x22 then [0x5C, 0x22]
  else if c = 0x5C then [0x5C, 0x5C]
  else if c = 0x08 then [0x5C, 0x62]
  else if c = 0x0C then [0x5C, 0x66]
  else if c = 0x0A then [0x5C, 0x6E]
  else if c = 0x0D then [0x5C, 0x72]
  else if c = 0x09 then [0x5C, 0x74]
  -- a `char` from `0x80` on is negative
  else if 0 < c ∧ c ≤ 0x1F then [0x5C, 0x75, 0x30, 0x30, hexUpper (c / 16), hexUpper (c % 16)]
  else [c]

def formatString (value : Bytes) : Bytes := 0x22 :: (value.flatMap formatChar ++ [0x22])

theorem formatChar_raw : ∀ c : UInt8, 0x80 ≤ c → formatChar c = [c] := by decide

theorem flatMap_formatChar_raw {bs : Bytes} (h : ∀ c ∈ bs, 0x80 ≤ c) :
    bs.flatMap formatChar = bs := by
  induction bs with
  | nil => rfl
  | cons c bs ih =>
    rw [List.flatMap_cons, formatChar_raw c (h c List.mem_cons_self),
      ih fun x hx => h x (List.mem_cons_of_mem _ hx)]
    rfl

/-! ### White space -/

def spaces (indent : UInt32) : Bytes := List.replicate indent.toNat 0x20

def newline (cond : Bool) : Bytes := if cond then [0x0A] else []

/-- The indentation of a closing bracket. -/
def outdent (indent step : UInt32) : UInt32 := if indent ≥ step then indent - step else indent

end Stringifier

open Stringifier

/-- `Array::stringify`, given what its loop writes. -/
def Array.bracket (loop : UInt32 → Int32 → Bytes) (indent : UInt32) (step : Int32) :
    Bytes :=
  let step := if step = -1 then indent.toInt32 else step
  [0x5B] ++ newline (indent > 0) ++ loop indent step ++ newline (step > 0) ++
    spaces (outdent indent step.toUInt32) ++ [0x5D]

/-- `Object::doStringify`, given what its loop writes. -/
def Object.doStringify (loop : UInt32 → UInt32 → Bytes) (indent step : UInt32) : Bytes :=
  [0x7B] ++ newline (indent > 0) ++ loop indent step ++ spaces (outdent indent step) ++ [0x7D]

/-- `Object::stringify`, given what the loop of `doStringify` writes. -/
def Object.bracket (loop : UInt32 → UInt32 → Bytes) (indent : UInt32) (step : Int32) :
    Bytes :=
  let step := if step < 0 then indent.toInt32 else step
  Object.doStringify loop indent step.toUInt32

section

variable {D : Type} [DoubleToStr D]

mutual

def Stringifier.stringify : Var D → UInt32 → Int32 → Bytes
  | .null, _, _ => [0x6E, 0x75, 0x6C, 0x6C]
  | .bool b, _, _ => if b then [0x74, 0x72, 0x75, 0x65] else [0x66, 0x61, 0x6C, 0x73, 0x65]
  | .int v, _, _ => NumberFormatter.format v
  | .float d, _, _ => DoubleToStr.doubleToStr d
  | .string s, _, _ => formatString s
  | .array vs, indent, step =>
    Array.bracket (fun indent step => Array.loop vs indent step) indent
      (if step = -1 then indent.toInt32 else step)
  | .object ms, indent, step =>
    Object.bracket (fun indent step => Object.loop ms indent step) indent
      (if step = -1 then indent.toInt32 else step)

def Array.loop : List (Var D) → UInt32 → Int32 → Bytes
  | [], _, _ => []
  | v :: vs, indent, step =>
    spaces indent ++ Stringifier.stringify v (indent + step.toUInt32) step ++
      (if vs.isEmpty then [] else [0x2C] ++ newline (step > 0)) ++ Array.loop vs indent step

def Object.loop : List (Bytes × Var D) → UInt32 → UInt32 → Bytes
  | [], _, _ => []
  | (key, v) :: ms, indent, step =>
    spaces indent ++ ([0x22] ++ key ++ [0x22]) ++
      (if indent > 0 then [0x20, 0x3A, 0x20] else [0x3A]) ++
      Stringifier.stringify v (indent + step) step.toInt32 ++
      ((if ms.isEmpty then [] else [0x2C]) ++ newline (step > 0)) ++ Object.loop ms indent step

end

def Array.stringify (vs : List (Var D)) (indent : UInt32) (step : Int32) : Bytes :=
  Array.bracket (fun indent step => Array.loop vs indent step) indent step

def Object.stringify (ms : List (Bytes × Var D)) (indent : UInt32) (step : Int32) :
    Bytes :=
  Object.bracket (fun indent step => Object.loop ms indent step) indent step

end

end Poco.JSON
