import Mathlib.Data.Nat.Digits.Lemmas
import Poco.Ascii

/-!
# Universally unique identifiers

`UUID::tryParse` and `UUID::toString` of `Foundation/src/UUID.cpp`.  The length and the four
hyphens decide whether a text is accepted; its digits are read by a function that has a value for
every character.

## Main definitions

* `tryParse`: what is returned, and the identifier afterwards.
* `IsText`: a text with the 32 digits of an identifier.

## Main results

* `tryParse_isText`: texts of an identifier are read.
* `contract_iff`: the texts on which `tryParse` keeps its contract.
-/

namespace Poco

open List Ascii

structure UUID where
  timeLow : ℕ
  timeMid : ℕ
  timeHiAndVersion : ℕ
  clockSeq : ℕ
  node : List ℕ

namespace UUID

def nibble (hex : UInt8) : ℕ :=
  if 0x61 ≤ hex ∧ hex ≤ 0x66 then (hex - 0x61 + 10).toNat
  else if 0x41 ≤ hex ∧ hex ≤ 0x46 then (hex - 0x41 + 10).toNat
  else if 0x30 ≤ hex ∧ hex ≤ 0x39 then (hex - 0x30).toNat
  else 0

/-- A member that is read from some characters, of four bits each. -/
def number (s : Bytes) : ℕ := s.foldl (fun n c => n <<< 4 ||| nibble c) 0

/-- The bytes of the node: their number, and the characters from `it` on. -/
def readNode : ℕ → Bytes → List ℕ
  | 0, _ => []
  | n + 1, it => number (it.take 2) :: readNode n (it.drop 2)

def Hyphens (uuid : Bytes) : Prop := ∀ i ∈ [8, 13, 18, 23], uuid[i]? = some 0x2D

instance (uuid : Bytes) : Decidable (Hyphens uuid) := inferInstanceAs (Decidable (∀ _ ∈ _, _))

def tryParse (self : UUID) (uuid : Bytes) : Bool × UUID :=
  if uuid.length < 32 then (false, self)
  else if Hyphens uuid ∧ uuid.length < 36 then (false, self)
  else
    let skip := if Hyphens uuid then 1 else 0
    let it₁ := uuid.drop (8 + skip)
    let it₂ := it₁.drop (4 + skip)
    let it₃ := it₂.drop (4 + skip)
    let it₄ := it₃.drop (4 + skip)
    (true, ⟨number (uuid.take 8), number (it₁.take 4), number (it₂.take 4), number (it₃.take 4),
      readNode 6 it₄⟩)

def digits : Bytes :=
  [0x30, 0x31, 0x32, 0x33, 0x34, 0x35, 0x36, 0x37, 0x38, 0x39, 0x61, 0x62, 0x63, 0x64, 0x65, 0x66]

def appendHex8 (n : ℕ) : Bytes := [digits.getD (n >>> 4 &&& 0xF) 0, digits.getD (n &&& 0xF) 0]

def appendHex16 (n : ℕ) : Bytes := appendHex8 ((n >>> 8) % 2 ^ 8) ++ appendHex8 (n &&& 0xFF)

def appendHex32 (n : ℕ) : Bytes :=
  appendHex16 ((n >>> 16) % 2 ^ 16) ++ appendHex16 (n &&& 0xFFFF)

def toString (self : UUID) : Bytes :=
  appendHex32 self.timeLow ++ 0x2D :: appendHex16 self.timeMid ++
    0x2D :: appendHex16 self.timeHiAndVersion ++ 0x2D :: appendHex16 self.clockSeq ++
    0x2D :: self.node.flatMap appendHex8

def hyphenated (ds : Bytes) : Bytes :=
  ds.take 8 ++ 0x2D :: ((ds.drop 8).take 4 ++ 0x2D :: ((ds.drop 12).take 4 ++
    0x2D :: ((ds.drop 16).take 4 ++ 0x2D :: ds.drop 20)))

structure IsText (uuid ds : Bytes) : Prop where
  length_eq : ds.length = 32
  hex : ∀ c ∈ ds, isHexDigit c = true
  text : uuid = ds ∨ uuid = hyphenated ds

def Contract (self : UUID) (uuid : Bytes) : Prop :=
  (∀ ds, IsText uuid ds → (tryParse self uuid).1 = true ∧
      (tryParse self uuid).2.toString = hyphenated (ds.map toLower)) ∧
    ((¬ ∃ ds, IsText uuid ds) → tryParse self uuid = (false, self))

theorem nibble_spec : ∀ c : UInt8, nibble c < 16 ∧
    (isHexDigit c = true → digits.getD (nibble c) 0 = toLower c ∧ c ≠ 0x2D) := by
  apply Bytes.forall_of_digits
  decide

theorem number_eq (s : Bytes) : number s = Nat.ofDigits 16 (s.reverse.map nibble) := by
  have hstep (n : ℕ) (c : UInt8) : n <<< 4 ||| nibble c = nibble c + 16 * n := by
    rw [← Nat.shiftLeft_add_eq_or_of_lt (nibble_spec c).1]
    omega
  simp only [number, hstep, Nat.ofDigits_eq_foldr, foldr_map, foldr_reverse, Nat.cast_id]

/-- Digits are written again if this is so for both halves. -/
theorem number_halves (k : ℕ) (f : ℕ → Bytes) (hlen : s.length = 2 * k)
    (hf : ∀ t, (∀ c ∈ t, isHexDigit c = true) → t.length = k → f (number t) = t.map toLower)
    (hs : ∀ c ∈ s, isHexDigit c = true) :
    f ((number s >>> (4 * k)) % 2 ^ (4 * k)) ++ f (number s &&& (2 ^ (4 * k) - 1)) =
      s.map toLower := by
  have hlt (t : Bytes) : ∀ d ∈ t.reverse.map nibble, d < 16 := by
    simp [(nibble_spec _).1]
  have hhi : number s / 16 ^ k = number (s.take k) := by
    rw [number_eq, number_eq, Nat.ofDigits_div_pow_eq_ofDigits_drop k (by decide) _ (hlt s),
      ← map_drop, drop_reverse, hlen, show 2 * k - k = k by omega]
  have hlo : number s % 16 ^ k = number (s.drop k) := by
    rw [number_eq, number_eq, Nat.ofDigits_mod_pow_eq_ofDigits_take k (by decide) _ (hlt s),
      ← map_take, take_reverse, hlen, show 2 * k - k = k by omega]
  have hmod : number (s.take k) % 16 ^ k = number (s.take k) := by
    rw [number_eq, Nat.ofDigits_mod_pow_eq_ofDigits_take k (by decide) _ (hlt _), take_of_length_le]
    simp
  rw [Nat.and_two_pow_sub_one_eq_mod, Nat.shiftRight_eq_div_pow, Nat.pow_mul, hhi, hlo]
  rw [hmod, hf _ (fun c hc => hs c (mem_of_mem_take hc)) (by simp; omega),
    hf _ (fun c hc => hs c (mem_of_mem_drop hc)) (by simp; omega), ← map_append,
    take_append_drop]

theorem appendHex8_number (s : Bytes) (hs : ∀ c ∈ s, isHexDigit c = true)
    (hlen : s.length = 2) : appendHex8 (number s) = s.map toLower := by
  rw [appendHex8, Nat.and_two_pow_sub_one_eq_mod _ 4]
  refine number_halves 1 (fun n => [digits.getD n 0]) hlen (fun t ht hlen => ?_) hs
  obtain ⟨c, rfl⟩ := length_eq_one_iff.mp hlen
  simpa [number] using ((nibble_spec c).2 (ht c mem_cons_self)).1

theorem appendHex16_number (s : Bytes) (hs : ∀ c ∈ s, isHexDigit c = true)
    (hlen : s.length = 4) : appendHex16 (number s) = s.map toLower :=
  number_halves 2 appendHex8 hlen appendHex8_number hs

theorem flatMap_readNode (hs : ∀ c ∈ s, isHexDigit c = true) (hlen : s.length = 2 * n) :
    (readNode n s).flatMap appendHex8 = s.map toLower := by
  induction n generalizing s with
  | zero => simp [length_eq_zero_iff.mp hlen, readNode]
  | succ n ih =>
    rw [readNode, flatMap_cons, ih (fun c hc => hs c (mem_of_mem_drop hc)) (by simp; omega),
      appendHex8_number _ (fun c hc => hs c (mem_of_mem_take hc)) (by simp [hlen]),
      ← map_append, take_append_drop]

theorem tryParse_isText (self : UUID) (h : IsText uuid ds) :
    (tryParse self uuid).1 = true ∧
      (tryParse self uuid).2.toString = hyphenated (ds.map toLower) := by
  obtain ⟨hlen, hex, htext⟩ := h
  have hsub {t} (ht : t <+ ds) : ∀ c ∈ t, isHexDigit c = true := fun c hc => hex c (ht.subset hc)
  have hgroup (i : ℕ) (hi : i + 4 ≤ 32) : appendHex16 (number ((ds.drop i).take 4)) =
      ((ds.drop i).take 4).map toLower :=
    appendHex16_number _ (hsub ((take_sublist _ _).trans (drop_sublist _ _)))
      (by simp [hlen]; omega)
  have hlow : appendHex32 (number (ds.take 8)) = (ds.take 8).map toLower :=
    number_halves 4 appendHex16 (by simp [hlen]) appendHex16_number (hsub (take_sublist _ _))
  have hstring : toString ⟨number (ds.take 8), number ((ds.drop 8).take 4),
      number ((ds.drop 12).take 4), number ((ds.drop 16).take 4), readNode 6 (ds.drop 20)⟩ =
        hyphenated (ds.map toLower) := by
    rw [toString, hlow, hgroup 8 (by decide), hgroup 12 (by decide), hgroup 16 (by decide),
      flatMap_readNode (hsub (drop_sublist _ _)) (by simp [hlen])]
    simp [hyphenated]
  rw [← hstring]
  rcases htext with rfl | rfl
  · have hnot : ¬ Hyphens uuid := by
      intro h
      obtain ⟨hlt, h8⟩ := List.getElem?_eq_some_iff.mp (h 8 mem_cons_self)
      exact ((nibble_spec _).2 (hex _ (getElem_mem hlt))).2 h8
    simp [tryParse, hnot, hlen]
  · have hhyp : Hyphens (hyphenated ds) := by
      simp [Hyphens, hyphenated, getElem?_append, hlen]
    simp only [tryParse, hhyp]
    simp [hyphenated, hlen, drop_append, drop_of_length_le]

/-- `tryParse` keeps its contract on the texts of identifiers and on those it rejects: the short
ones and the hyphenated ones with fewer than 36 characters. -/
theorem contract_iff (self : UUID) (uuid : Bytes) :
    Contract self uuid ↔ (∃ ds, IsText uuid ds) ∨ uuid.length < 32 ∨
      Hyphens uuid ∧ uuid.length < 36 := by
  constructor
  · rintro ⟨-, hreject⟩
    refine or_iff_not_imp_left.mpr fun hnot => ?_
    have hfst := congrArg Prod.fst (hreject hnot)
    rw [tryParse] at hfst
    grind
  · rintro (⟨ds, hds⟩ | hshort)
    · exact ⟨fun ds hds => tryParse_isText self hds, fun hnot => absurd ⟨ds, hds⟩ hnot⟩
    · have hreject : tryParse self uuid = (false, self) := by
        rw [tryParse]
        grind
      refine ⟨fun ds hds => ?_, fun _ => hreject⟩
      have hread := (tryParse_isText self hds).1
      rw [hreject] at hread
      nomatch hread

/-- A text of 33 letters `z` is accepted. -/
theorem not_contract : ¬ Contract ⟨1, 0, 0, 0, []⟩ (replicate 33 0x7A) := by
  rintro ⟨-, hreject⟩
  have hnot : ¬ ∃ ds, IsText (replicate 33 0x7A) ds := by
    rintro ⟨ds, hlen, -, h | h⟩ <;> simpa [hlen, hyphenated] using congrArg length h
  exact absurd (congrArg Prod.fst (hreject hnot)) (by decide)

end UUID

end Poco
