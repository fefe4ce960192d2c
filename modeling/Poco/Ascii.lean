import Mathlib.Data.List.DropRight
import Poco.Lib.Bytes

/-!
# Character classes and strings

The classes of `Foundation/include/Poco/Ascii.h`, which hold of no character outside
ASCII, and the string functions of `Foundation/include/Poco/String.h` built on them.

## Main definitions

* `isSpace`, `isDigit`, `isAlpha`: the classes, with others.
* `trim`, `icompare`: white space is removed at both ends, and texts are compared ignoring case.
-/

namespace Poco

namespace Ascii

def isSpace (ch : UInt8) : Bool := (0x09 ≤ ch && ch ≤ 0x0D) || ch == 0x20

def isDigit (ch : UInt8) : Bool := 0x30 ≤ ch && ch ≤ 0x39

def isUpper (ch : UInt8) : Bool := 0x41 ≤ ch && ch ≤ 0x5A

def isLower (ch : UInt8) : Bool := 0x61 ≤ ch && ch ≤ 0x7A

def isAlpha (ch : UInt8) : Bool := isUpper ch || isLower ch

def isAlphaNumeric (ch : UInt8) : Bool := isAlpha ch || isDigit ch

def isHexDigit (ch : UInt8) : Bool :=
  isDigit ch || (0x41 ≤ ch && ch ≤ 0x46) || (0x61 ≤ ch && ch ≤ 0x66)

def toLower (ch : UInt8) : UInt8 := if isUpper ch then ch + 32 else ch

end Ascii

open Ascii

def trimRightInPlace (str : Bytes) : Bytes := str.rdropWhile isSpace

def trim (str : Bytes) : Bytes := (str.dropWhile isSpace).rdropWhile isSpace

/-- `icompare` of two strings: a negative, zero or positive number.  The characters are
compared as values of the signed type `char`. -/
def icompare : Bytes → Bytes → ℤ
  | [], [] => 0
  | [], _ :: _ => -1
  | _ :: _, [] => 1
  | a :: s, b :: t =>
    let c1 := (toLower a).toInt8
    let c2 := (toLower b).toInt8
    if c1 < c2 then -1 else if c2 < c1 then 1 else icompare s t

theorem icompare_eq_zero_iff : icompare s t = 0 ↔ s.map toLower = t.map toLower := by
  induction s generalizing t with
  | nil => cases t <;> simp [icompare]
  | cons a s ih =>
    cases t with
    | nil => simp [icompare]
    | cons b t =>
      rw [icompare, List.map_cons, List.map_cons, List.cons.injEq]
      split
      · next h =>
        refine iff_of_false (by decide) ?_
        rintro ⟨hab, -⟩
        rw [hab] at h
        exact Int8.lt_irrefl h
      · next h1 =>
        split
        · next h2 =>
          refine iff_of_false (by decide) ?_
          rintro ⟨hab, -⟩
          rw [hab] at h2
          exact Int8.lt_irrefl h2
        · next h2 =>
          have hab : toLower a = toLower b := by
            rw [Int8.not_lt] at h1 h2
            have := Int8.le_antisymm h2 h1
            simpa using congrArg Int8.toUInt8 this
          rw [ih]
          simp [hab]

theorem trimRightInPlace_of_getLast
    (h : ∀ c, s.getLast? = some c → isSpace c = false) : trimRightInPlace s = s := by
  rw [trimRightInPlace, List.rdropWhile_eq_self_iff]
  intro hne
  rw [h _ (List.getLast?_eq_some_getLast hne)]
  exact Bool.false_ne_true

def Trimmed (s : Bytes) : Prop :=
  (∀ c, s.head? = some c → isSpace c = false) ∧ ∀ c, s.getLast? = some c → isSpace c = false

instance (s : Bytes) : Decidable (Trimmed s) := inferInstanceAs (Decidable (_ ∧ _))

theorem Trimmed.dropWhile (h : Trimmed s) : s.dropWhile isSpace = s := by
  cases s with
  | nil => rfl
  | cons c s => exact List.dropWhile_cons_of_neg (by rw [h.1 c rfl]; exact Bool.false_ne_true)

theorem Trimmed.trim {s : Bytes} (h : Trimmed s) : trim s = s := by
  rw [Poco.trim, h.dropWhile]
  exact trimRightInPlace_of_getLast h.2

end Poco
