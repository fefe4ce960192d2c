import Poco.JSON.Stringifier
import Poco.Lib.Utf8

/-!
# Trees of values

The trees that are written and read back: an object or an array whose leaves are `null`,
booleans, integers of 32 or 64 bits and well-formed strings.

## Main definitions

* `Tree`: a tree that can be written.
* `Var.All`: every key and every leaf of the tree has the property.
* `plainText`, `unwrapped`: what is written and read back without a change.
* `Var.reread`: the tree with the integers that the parser delivers.
-/

namespace Poco.JSON

variable {D : Type}

/-! ### Properties of the leaves -/

/-- A property of the keys, and one of each kind of leaf that has a value. -/
structure LeafProps (D : Type) where
  key : Bytes → Prop
  string : Bytes → Prop
  int : ℤ → Prop
  float : D → Prop

mutual

def Var.All (P : LeafProps D) : Var D → Prop
  | .null => True
  | .bool _ => True
  | .int v => P.int v
  | .float d => P.float d
  | .string s => P.string s
  | .array vs => AllElements P vs
  | .object ms => AllMembers P ms

def AllElements (P : LeafProps D) : List (Var D) → Prop
  | [] => True
  | v :: vs => v.All P ∧ AllElements P vs

def AllMembers (P : LeafProps D) : List (Bytes × Var D) → Prop
  | [] => True
  | (k, v) :: ms => P.key k ∧ v.All P ∧ AllMembers P ms

end

mutual

/-- The members of every object are in the order of their keys, without duplicates. -/
def Var.Sorted : Var D → Prop
  | .array vs => SortedElements vs
  | .object ms => SortedAssoc.Sorted ms ∧ SortedMembers ms
  | _ => True

def SortedElements : List (Var D) → Prop
  | [] => True
  | v :: vs => v.Sorted ∧ SortedElements vs

def SortedMembers : List (Bytes × Var D) → Prop
  | [] => True
  | (_, v) :: ms => v.Sorted ∧ SortedMembers ms

end

/-! ### Trees -/

inductive Container (D : Type) where
  | array (vs : List (Var D))
  | object (ms : List (Bytes × Var D))

def Container.toVar : Container D → Var D
  | array vs => .array vs
  | object ms => .object ms

def Container.stringify [DoubleToStr D] (t : Container D) (indent : UInt32) (step : Int32) :
    Bytes :=
  match t with
  | array vs => Array.stringify vs indent step
  | object ms => Object.stringify ms indent step

/-- Well-formed strings, and integers of 32 or 64 bits. -/
def jsonLeaves : LeafProps D where
  key := Utf8.WellFormed
  string := Utf8.WellFormed
  int v := IntType.int64.min ≤ v ∧ v ≤ IntType.uint64.max
  float _ := False

structure Tree (D : Type) where
  root : Container D
  sorted : root.toVar.Sorted
  leaves : root.toVar.All jsonLeaves

/-- A key without quotation marks, backslashes and control characters. -/
def PlainKey (k : Bytes) : Prop := ∀ c ∈ k, 0x20 ≤ c ∧ c ≠ 0x22 ∧ c ≠ 0x5C

/-- An integer that the parser does not wrap around. -/
def Unwrapped (v : ℤ) : Prop := v ≠ 2 ^ 63 ∧ v ≠ 2 ^ 63 + 1

def plainText : LeafProps D where
  key := PlainKey
  string s := 0 ∉ s
  int _ := True
  float _ := True

def unwrapped : LeafProps D where
  key _ := True
  string _ := True
  int := Unwrapped
  float _ := True

/-! ### The integers that are read -/

/-- The integer that the parser delivers for one that has been written. -/
def rereadInt (v : ℤ) : ℤ := if v = 2 ^ 63 ∨ v = 2 ^ 63 + 1 then v - 2 ^ 64 else v

mutual

def Var.reread : Var D → Var D
  | .null => .null
  | .bool b => .bool b
  | .int v => .int (rereadInt v)
  | .float d => .float d
  | .string s => .string s
  | .array vs => .array (rereadElements vs)
  | .object ms => .object (rereadMembers ms)

def rereadElements : List (Var D) → List (Var D)
  | [] => []
  | v :: vs => v.reread :: rereadElements vs

def rereadMembers : List (Bytes × Var D) → List (Bytes × Var D)
  | [] => []
  | (k, v) :: ms => (k, v.reread) :: rereadMembers ms

end

theorem rereadInt_eq_iff (v : ℤ) : rereadInt v = v ↔ Unwrapped v := by
  unfold rereadInt Unwrapped
  split <;> omega

mutual

theorem Var.reread_eq_iff : ∀ t : Var D, t.reread = t ↔ t.All unwrapped
  | .null => by simp [Var.reread, Var.All]
  | .bool b => by simp [Var.reread, Var.All]
  | .int v => by simpa [Var.reread, Var.All, unwrapped] using rereadInt_eq_iff v
  | .float d => by simp [Var.reread, Var.All, unwrapped]
  | .string s => by simp [Var.reread, Var.All, unwrapped]
  | .array vs => by simpa [Var.reread, Var.All] using rereadElements_eq_iff vs
  | .object ms => by simpa [Var.reread, Var.All] using rereadMembers_eq_iff ms

theorem rereadElements_eq_iff : ∀ vs : List (Var D),
    rereadElements vs = vs ↔ AllElements unwrapped vs
  | [] => by simp [rereadElements, AllElements]
  | v :: vs => by
    simp [rereadElements, AllElements, Var.reread_eq_iff v, rereadElements_eq_iff vs]

theorem rereadMembers_eq_iff : ∀ ms : List (Bytes × Var D),
    rereadMembers ms = ms ↔ AllMembers unwrapped ms
  | [] => by simp [rereadMembers, AllMembers]
  | (k, v) :: ms => by
    simp [rereadMembers, AllMembers, Var.reread_eq_iff v, rereadMembers_eq_iff ms, unwrapped]

end

end Poco.JSON
