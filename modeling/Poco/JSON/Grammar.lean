import Poco.Lib.Utf8
import Poco.NumericString

/-!
# The grammar of JSON texts

The rules of RFC 4627, over the bytes of a text.  Each rule is a predicate that carries
the name of the rule.  A repetition `a *( sep a )` is built from its left end, the order
in which a parser reads it.

## Main definitions

* `Lexicon`: what a unicode escape and what a number are; `rfc4627` is the one of the standard,
  and an implementation that limits either of them has its own.
* `IsValue`, `IsObject`, `IsArray`, `IsText`: the rules, over a lexicon.
-/

namespace Poco.JSON.Grammar

/-! ### Numbers -/

/-- A character of `ws`. -/
def isWs (c : UInt8) : Bool := c == 0x20 || c == 0x09 || c == 0x0A || c == 0x0D

def Ws (w : Bytes) : Prop := ∀ c ∈ w, isWs c = true

/-- `*DIGIT`. -/
def Digits (ds : Bytes) : Prop := ∀ c ∈ ds, isDecDigit c = true

/-- `digit1-9`. -/
def isDigit19 (c : UInt8) : Bool := 0x31 ≤ c && c ≤ 0x39

/-- `e`. -/
def isE (c : UInt8) : Bool := c == 0x65 || c == 0x45

/-- `[ minus ]`. -/
def IsMinus (m : Bytes) : Prop := m = [] ∨ m = [0x2D]

/-- `int = zero / ( digit1-9 *DIGIT )`. -/
def IsInt (i : Bytes) : Prop :=
  i = [0x30] ∨ ∃ d ds, isDigit19 d = true ∧ Digits ds ∧ i = d :: ds

/-- `frac = decimal-point 1*DIGIT`. -/
def IsFrac (f : Bytes) : Prop := ∃ ds, ds ≠ [] ∧ Digits ds ∧ f = 0x2E :: ds

/-- `exp = e [ minus / plus ] 1*DIGIT`. -/
def IsExp (x : Bytes) : Prop :=
  ∃ e g ds, isE e = true ∧ (g = [] ∨ g = [0x2D] ∨ g = [0x2B]) ∧ ds ≠ [] ∧ Digits ds ∧
    x = e :: (g ++ ds)

/-- `[ minus ] int`. -/
def IsInteger (l : Bytes) : Prop := ∃ m i, IsMinus m ∧ IsInt i ∧ l = m ++ i

/-- `[ minus ] int [ frac ]`. -/
def IsMantissa (l : Bytes) : Prop :=
  ∃ i f, IsInteger i ∧ (f = [] ∨ IsFrac f) ∧ l = i ++ f

/-- `number = [ minus ] int [ frac ] [ exp ]`. -/
def IsNumber (l : Bytes) : Prop :=
  ∃ a x, IsMantissa a ∧ (x = [] ∨ IsExp x) ∧ l = a ++ x

def IsFloat (l : Bytes) : Prop :=
  (∃ i f, IsInteger i ∧ IsFrac f ∧ l = i ++ f) ∨ ∃ a x, IsMantissa a ∧ IsExp x ∧ l = a ++ x

theorem IsInteger.mantissa {i : Bytes} (h : IsInteger i) : IsMantissa i :=
  ⟨i, [], h, .inl rfl, by simp⟩

/-! ### Strings -/

/-- `HEXDIG`, of either case. -/
def isHexDigit (c : UInt8) : Bool :=
  isDecDigit c || (0x41 ≤ c && c ≤ 0x46) || (0x61 ≤ c && c ≤ 0x66)

/-- `4HEXDIG`. -/
def IsHex4 (ds : Bytes) : Prop := ds.length = 4 ∧ ∀ c ∈ ds, isHexDigit c = true

def hexDigitVal (c : UInt8) : ℕ :=
  if isDecDigit c then c.toNat - 0x30
  else if c ≤ 0x46 then c.toNat - 0x41 + 10
  else c.toNat - 0x61 + 10

def hexVal (ds : Bytes) : ℕ := ds.foldl (fun n c => n * 16 + hexDigitVal c) 0

/-- The characters that may follow a backslash, the `u` of a unicode escape apart. -/
def isEscape (c : UInt8) : Bool :=
  c == 0x22 || c == 0x5C || c == 0x2F || c == 0x62 || c == 0x66 || c == 0x6E || c == 0x72 ||
    c == 0x74

/-- `unescaped`, as far as it is ASCII. -/
def isUnescaped (c : UInt8) : Bool := 0x20 ≤ c && c < 0x80 && c != 0x22 && c != 0x5C

/-- `escape %x75 4HEXDIG`. -/
def IsUnicode (u : Bytes) : Prop := ∃ ds, IsHex4 ds ∧ u = 0x5C :: 0x75 :: ds

structure Lexicon where
  /-- A unicode escape, or several that stand for one character. -/
  unicode : Bytes → Prop
  number : Bytes → Prop

def rfc4627 : Lexicon := ⟨IsUnicode, IsNumber⟩

/-- `*char`, the characters above the ASCII range encoded in UTF-8. -/
inductive IsChars (L : Lexicon) : Bytes → Prop where
  | nil : IsChars L []
  | unescaped {t : Bytes} {c : UInt8} (ht : IsChars L t) (hc : isUnescaped c = true) :
      IsChars L (t ++ [c])
  | sequence {t bs : Bytes} (ht : IsChars L t) (hbs : Utf8.isSeq bs = true) :
      IsChars L (t ++ bs)
  | escape {t : Bytes} {c : UInt8} (ht : IsChars L t) (hc : isEscape c = true) :
      IsChars L (t ++ [0x5C, c])
  | unicode {t u : Bytes} (ht : IsChars L t) (hu : L.unicode u) : IsChars L (t ++ u)

/-- `string = quotation-mark *char quotation-mark`. -/
def IsString (L : Lexicon) (k : Bytes) : Prop := ∃ t, IsChars L t ∧ k = 0x22 :: (t ++ [0x22])

/-! ### Texts -/

/-- A structural character with the white space around it. -/
def Structural (c : UInt8) (s : Bytes) : Prop := ∃ a b, Ws a ∧ Ws b ∧ s = a ++ c :: b

/-- `false`, `null`, `true`. -/
def literals : List Bytes :=
  [[0x66, 0x61, 0x6C, 0x73, 0x65], [0x6E, 0x75, 0x6C, 0x6C], [0x74, 0x72, 0x75, 0x65]]

mutual

/-- `value = false / null / true / object / array / number / string`. -/
inductive IsValue (L : Lexicon) : Bytes → Prop where
  | literal {v : Bytes} (h : v ∈ literals) : IsValue L v
  | object {v : Bytes} (h : IsObject L v) : IsValue L v
  | array {v : Bytes} (h : IsArray L v) : IsValue L v
  | number {v : Bytes} (h : L.number v) : IsValue L v
  | string {v : Bytes} (h : IsString L v) : IsValue L v

/-- `object = begin-object [ member *( value-separator member ) ] end-object`. -/
inductive IsObject (L : Lexicon) : Bytes → Prop where
  | empty {b e : Bytes} (hb : Structural 0x7B b) (he : Structural 0x7D e) :
      IsObject L (b ++ e)
  | members {b ms e : Bytes} (hb : Structural 0x7B b) (hms : IsMembers L ms)
      (he : Structural 0x7D e) : IsObject L (b ++ ms ++ e)

/-- `member *( value-separator member )`. -/
inductive IsMembers (L : Lexicon) : Bytes → Prop where
  | one {m : Bytes} (hm : IsMember L m) : IsMembers L m
  | more {ms c m : Bytes} (hms : IsMembers L ms) (hc : Structural 0x2C c)
      (hm : IsMember L m) : IsMembers L (ms ++ c ++ m)

/-- `member = string name-separator value`. -/
inductive IsMember (L : Lexicon) : Bytes → Prop where
  | mk {k c v : Bytes} (hk : IsString L k) (hc : Structural 0x3A c) (hv : IsValue L v) :
      IsMember L (k ++ c ++ v)

/-- `array = begin-array [ value *( value-separator value ) ] end-array`. -/
inductive IsArray (L : Lexicon) : Bytes → Prop where
  | empty {b e : Bytes} (hb : Structural 0x5B b) (he : Structural 0x5D e) :
      IsArray L (b ++ e)
  | elements {b vs e : Bytes} (hb : Structural 0x5B b) (hvs : IsElements L vs)
      (he : Structural 0x5D e) : IsArray L (b ++ vs ++ e)

/-- `value *( value-separator value )`. -/
inductive IsElements (L : Lexicon) : Bytes → Prop where
  | one {v : Bytes} (hv : IsValue L v) : IsElements L v
  | more {vs c v : Bytes} (hvs : IsElements L vs) (hc : Structural 0x2C c)
      (hv : IsValue L v) : IsElements L (vs ++ c ++ v)

end

/-- `JSON-text = object / array`. -/
def IsText (L : Lexicon) (s : Bytes) : Prop := IsObject L s ∨ IsArray L s

/-! ### White space at the ends -/

theorem ws_nil : Ws [] := by simp [Ws]

theorem Ws.append (ha : Ws a) (hb : Ws b) : Ws (a ++ b) := by
  intro c hc
  rcases List.mem_append.mp hc with hc | hc
  · exact ha c hc
  · exact hb c hc

theorem structural_mk (hw : Ws w) : Structural c (c :: w) :=
  ⟨[], w, ws_nil, hw, rfl⟩

theorem Structural.append_ws (hs : Structural c s) (hw : Ws w) : Structural c (s ++ w) := by
  obtain ⟨a, b, ha, hb, rfl⟩ := hs
  exact ⟨a, b ++ w, ha, hb.append hw, by simp⟩

theorem Structural.ws_append (hs : Structural c s) (hw : Ws w) : Structural c (w ++ s) := by
  obtain ⟨a, b, ha, hb, rfl⟩ := hs
  exact ⟨w ++ a, b, hw.append ha, hb, by simp⟩

theorem IsObject.pad (h : IsObject L v) (ha : Ws a) (hb : Ws b) : IsObject L (a ++ v ++ b) := by
  cases h with
  | empty hs he => simpa using empty (hs.ws_append ha) (he.append_ws hb)
  | members hs hms he => simpa using members (hs.ws_append ha) hms (he.append_ws hb)

theorem IsArray.pad (h : IsArray L v) (ha : Ws a) (hb : Ws b) : IsArray L (a ++ v ++ b) := by
  cases h with
  | empty hs he => simpa using empty (hs.ws_append ha) (he.append_ws hb)
  | elements hs hvs he => simpa using elements (hs.ws_append ha) hvs (he.append_ws hb)

end Poco.JSON.Grammar
