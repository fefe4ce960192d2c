import Mathlib.Data.Nat.Bitwise
import Poco.Lib.Utf8

/-!
# The UTF-8 encoding

`UTF8Encoding` of `Foundation/src/UTF8Encoding.cpp`, and the lead-byte test
`Parser::utf8CheckFirst` of `JSON/src/Parser.cpp`, which together with `isLegal` decides
which bytes above the ASCII range the JSON parser lets through.

The `switch` of `isLegal` on the lead byte tests the second byte against `0x80` only in its
default case: after `0xED` and `0xF4` it has no lower bound.

## Main definitions

* `isLegal`: `UTF8Encoding::isLegal`; the cases of the `switch` fall through.
* `convert`, `queryConvert`, `write`: the other functions of the class.
* `ShortSecond`: a sequence whose second byte is an ASCII byte, where the check has no lower bound.
* `Legal`: a sequence as the parser reads it: as many bytes as the lead byte announces, and legal.
* `Exact`: exactly the well-formed sequences are decoded, and to what they encode.

## Main results

* `isLegal_iff`: what the check accepts is a well-formed sequence, or has `ShortSecond`.
* `exact_iff_not_short`: exactly the well-formed sequences are decoded, with the same exception.
-/

namespace Poco

namespace UTF8Encoding

def legalTrail (a : UInt8) : Bool := !(a < 0x80 || a > 0xBF)

/-- Case 2 of the `switch`: the second byte `a` after the lead byte `lead`. -/
def legalSecond (lead a : UInt8) : Bool :=
  !(a > 0xBF) &&
    (if lead = 0xE0 then !(a < 0xA0)
    else if lead = 0xED then !(a > 0x9F)
    else if lead = 0xF0 then !(a < 0x90)
    else if lead = 0xF4 then !(a > 0x8F)
    else !(a < 0x80))

/-- Case 1 of the `switch` and the final test: the lead byte. -/
def legalLead (lead : UInt8) : Bool := !(lead ≥ 0x80 && lead < 0xC2) && lead ≤ 0xF4

def isLegal : Bytes → Bool
  | [lead] => legalLead lead
  | [lead, a] => legalSecond lead a && legalLead lead
  | [lead, a, b] => legalTrail b && legalSecond lead a && legalLead lead
  | [lead, a, b, c] => legalTrail c && legalTrail b && legalSecond lead a && legalLead lead
  | _ => false

/-- `_charMap`: an ASCII character, or the length of the sequence that begins so, negated. -/
def charMap (c : UInt8) : ℤ :=
  if c < 0x80 then c.toNat
  else if c < 0xC0 then -1
  else if c < 0xE0 then -2
  else if c < 0xF0 then -3
  else if c < 0xF8 then -4
  else if c < 0xFC then -5
  else if c < 0xFE then -6
  else -1

/-- The `switch` of `convert` and `queryConvert`, and the loop after it, which read as many bytes
as the lead byte announces; `none` if there are fewer. -/
def decode (n : ℤ) (lead : UInt8) (rest : Bytes) : Option ℤ :=
  if n = -6 ∨ n = -5 ∨ n = -1 then some (-1)
  else if n = -4 ∨ n = -3 ∨ n = -2 then
    let tail := rest.take (n.natAbs - 1)
    if tail.length < n.natAbs - 1 then none
    else if isLegal (lead :: tail) then
      some (tail.foldl (fun uc b => uc <<< 6 ||| b.toNat &&& 0x3F)
        (lead.toNat &&& (0x07 <<< (n + 4).toNat ||| 0x03)) : ℕ)
    else some (-1)
  else some n

def convert : Bytes → Option ℤ
  | [] => none
  | lead :: rest => decode (charMap lead) lead rest

def queryConvert : Bytes → ℕ → Option ℤ
  | [], _ => none
  | lead :: rest, length =>
    if -charMap lead > length then some (charMap lead) else decode (charMap lead) lead rest

def sequenceLength (bytes : Bytes) (length : ℕ) : Option ℤ :=
  if 1 ≤ length then bytes.head?.map fun lead => if charMap lead ≥ 0 then 1 else -charMap lead
  else some (-1)

/-- `UTF8Encoding::convert(int, unsigned char*, int)`: the bytes that are stored, and the value
returned. -/
def write (ch length : ℕ) : Bytes × ℕ :=
  if ch ≤ 0x7F then (if length ≥ 1 then [ch.toUInt8] else [], 1)
  else if ch ≤ 0x7FF then
    (if length ≥ 2 then [(ch >>> 6 &&& 0x1F ||| 0xC0).toUInt8, (ch &&& 0x3F ||| 0x80).toUInt8]
      else [], 2)
  else if ch ≤ 0xFFFF then
    (if length ≥ 3 then [(ch >>> 12 &&& 0x0F ||| 0xE0).toUInt8,
      (ch >>> 6 &&& 0x3F ||| 0x80).toUInt8, (ch &&& 0x3F ||| 0x80).toUInt8] else [], 3)
  else if ch ≤ 0x10FFFF then
    (if length ≥ 4 then [(ch >>> 18 &&& 0x07 ||| 0xF0).toUInt8,
      (ch >>> 12 &&& 0x3F ||| 0x80).toUInt8, (ch >>> 6 &&& 0x3F ||| 0x80).toUInt8,
      (ch &&& 0x3F ||| 0x80).toUInt8] else [], 4)
  else ([], 0)

end UTF8Encoding

open UTF8Encoding List Utf8

/-- `Parser::utf8CheckFirst`: the length of the sequence a lead byte announces. -/
def utf8CheckFirst (u : UInt8) : ℕ :=
  if u < 0x80 then 1
  else if 0x80 ≤ u ∧ u ≤ 0xBF then 0
  else if u = 0xC0 ∨ u = 0xC1 then 0
  else if 0xC2 ≤ u ∧ u ≤ 0xDF then 2
  else if 0xE0 ≤ u ∧ u ≤ 0xEF then 3
  else if 0xF0 ≤ u ∧ u ≤ 0xF4 then 4
  else 0

def ShortSecond : Bytes → Prop
  | lead :: a :: _ => (lead = 0xED ∨ lead = 0xF4) ∧ a < 0x80
  | _ => False

instance (bs : Bytes) : Decidable (ShortSecond bs) := by
  unfold ShortSecond
  split <;> infer_instance

def Legal (bs : Bytes) : Prop :=
  ∃ lead rest, bs = lead :: rest ∧ 0x80 ≤ lead ∧ bs.length = utf8CheckFirst lead ∧
    isLegal bs = true

theorem legalSecond_eq (lead a : UInt8) :
    legalSecond lead a = true ↔ isSecond lead a = true ∨
      ((lead = 0xED ∨ lead = 0xF4) ∧ a < 0x80) := by
  unfold legalSecond isSecond isTail
  simp only [UInt8.lt_iff_toNat_lt, UInt8.le_iff_toNat_le, gt_iff_lt]
  split_ifs with h1 h2 h3 h4 <;> simp_all <;> omega

theorem legalTrail_eq (a : UInt8) : legalTrail a = isTail a := by
  revert a
  decide

/-- A sequence that the check accepts for want of a lower bound. -/
def Short (bs : Bytes) : Prop := ShortSecond bs ∧ ∀ b ∈ bs.drop 2, Utf8.isTail b = true

variable {lead : UInt8} {bs tail : Bytes}

theorem isLegal_iff (hn : charMap lead = -(tail.length + 1 : ℕ)) (hpos : 0 < tail.length)
    (hlen : tail.length ≤ 3) :
    isLegal (lead :: tail) = true ↔ isSeq (lead :: tail) = true ∨ Short (lead :: tail) := by
  have key2 : ∀ a : UInt8, charMap a = -2 → a ≠ 0xE0 ∧ a ≠ 0xED ∧ a ≠ 0xF0 ∧ a ≠ 0xF4 ∧
      legalLead a = (0xC2 ≤ a && a ≤ 0xDF) := by decide
  have key3 : ∀ a : UInt8, charMap a = -3 → 0xE0 ≤ a ∧ a ≤ 0xEF ∧ legalLead a = true := by decide
  have key4 : ∀ a : UInt8, charMap a = -4 → 0xF0 ≤ a ∧ legalLead a = (a ≤ 0xF4 : Bool) ∧
      (a = 0xED ∨ a = 0xF4 → a ≤ 0xF4) := by decide
  match tail, hpos, hlen with
  | [b], _, _ =>
    obtain ⟨e0, ed, f0, f4, hl⟩ := key2 lead hn
    simp [isLegal, legalSecond_eq, isSeq, isSecond, Short, ShortSecond, hl, e0, ed, f0,
      f4, and_comm]
  | [b, c], _, _ =>
    obtain ⟨h1, h2, hl⟩ := key3 lead hn
    simp [isLegal, legalSecond_eq, legalTrail_eq, isSeq, Short, ShortSecond, hl, h1, h2,
      and_comm, or_and_right]
  | [b, c, d], _, _ =>
    obtain ⟨h1, hl, h2⟩ := key4 lead hn
    simp only [isLegal, legalSecond_eq, legalTrail_eq, isSeq, Short, ShortSecond, hl,
      Bool.and_eq_true, decide_eq_true_eq, drop_succ_cons, drop_zero, forall_mem_cons]
    tauto

theorem Legal.isSeq_or (h : Legal bs) : isSeq bs = true ∨ ShortSecond bs := by
  have key : ∀ a : UInt8, 0x80 ≤ a → utf8CheckFirst a = 0 ∨
      charMap a = -utf8CheckFirst a ∧ 1 < utf8CheckFirst a ∧ utf8CheckFirst a ≤ 4 := by decide
  obtain ⟨lead, tail, rfl, hlead, hlen, hleg⟩ := h
  rcases key lead hlead with h0 | ⟨hn, h1, h4⟩
  · cases hlen.trans h0
  · rw [← hlen] at hn h1 h4
    exact ((isLegal_iff hn (Nat.lt_of_succ_lt_succ h1) (Nat.le_of_succ_le_succ h4)).mp
      hleg).imp_right And.left

theorem not_shortSecond {a : UInt8} (hseq : isSeq (lead :: a :: tail) = true) : ¬ a < 0x80 :=
  UInt8.not_lt.mpr (le_of_mem_isSeq hseq a (mem_cons_of_mem _ mem_cons_self))

/-- In a well-formed string what is read as one sequence is one. -/
theorem Legal.of_wellFormed (h : Legal bs) (hw : Utf8.WellFormed (bs ++ r)) :
    isSeq bs = true ∧ Utf8.WellFormed r := by
  obtain ⟨lead, rest, hbs, hlead, -⟩ := id h
  subst hbs
  obtain ⟨bs', t, heq, hseq, ht⟩ := hw.cases_raw hlead
  rcases h.isSeq_or with hs | hsh
  · have hlen : rest.length = bs'.length :=
      (lead_of_isSeq hs).2.2.trans (lead_of_isSeq hseq).2.2.symm
    obtain ⟨-, rfl⟩ := append_inj heq hlen
    exact ⟨hs, ht⟩
  cases rest with
  | nil => exact hsh.elim
  | cons b rest =>
    cases bs' with
    | nil => cases hseq
    | cons b' bs' =>
      obtain rfl : b = b' := (cons.inj heq).1
      exact absurd hsh.2 (not_shortSecond hseq)

theorem charMap_of_isSeq (h : isSeq (lead :: tail) = true) :
    charMap lead = -(tail.length + 1 : ℕ) ∧ 0 < tail.length ∧ tail.length ≤ 3 ∧
      0x80 ≤ lead ∧ tail.length + 1 = utf8CheckFirst lead := by
  have key : ∀ a : UInt8, 0xC2 ≤ a → a ≤ 0xF4 → charMap a = -(tailLength a + 1 : ℕ) ∧
      0 < tailLength a ∧ tailLength a ≤ 3 ∧ 0x80 ≤ a ∧
      tailLength a + 1 = utf8CheckFirst a := by decide
  obtain ⟨h1, h2, hlen⟩ := lead_of_isSeq h
  rw [hlen]
  exact key lead h1 h2

theorem legal_of_isSeq (h : isSeq bs = true) : Legal bs := by
  cases bs with
  | nil => cases h
  | cons lead tail =>
    obtain ⟨hn, hpos, hlen, h80, hfst⟩ := charMap_of_isSeq h
    exact ⟨lead, tail, rfl, h80, hfst, (isLegal_iff hn hpos hlen).mpr (.inl h)⟩

/-! ### Decoding and encoding -/

namespace UTF8Encoding

/-- A sequence of two to four bytes is decoded to its value. -/
theorem decode_eq (hn : charMap lead = -(tail.length + 1 : ℕ)) (hpos : 0 < tail.length)
    (hlen : tail.length ≤ 3) (rest : Bytes) :
    decode (charMap lead) lead (tail ++ rest) =
      some (if isLegal (lead :: tail) then (scalar (lead :: tail) : ℤ) else -1) := by
  have hrou : ∀ (uc : ℕ) (b : UInt8), uc <<< 6 ||| b.toNat &&& 0x3F = uc * 64 + b.toNat % 64 := by
    intro uc b
    rw [Nat.and_two_pow_sub_one_eq_mod b.toNat 6,
      ← Nat.shiftLeft_add_eq_or_of_lt (Nat.mod_lt _ (by decide)), Nat.shiftLeft_eq]
  have hmask : lead.toNat &&& (0x07 <<< (-(tail.length + 1 : ℕ) + 4 : ℤ).toNat ||| 0x03) =
      lead.toNat % 2 ^ (6 - tail.length) := by
    generalize tail.length = k at hpos hlen
    match k, hpos, hlen with
    | 1, _, _ => exact Nat.and_two_pow_sub_one_eq_mod _ 5
    | 2, _, _ => exact Nat.and_two_pow_sub_one_eq_mod _ 4
    | 3, _, _ => exact Nat.and_two_pow_sub_one_eq_mod _ 3
  rw [decode, hn, if_neg (by omega), if_pos (by omega), Int.natAbs_neg, Int.natAbs_natCast,
    Nat.add_sub_cancel, take_left]
  simp only [lt_irrefl, if_false, hrou, hmask]
  split <;> rfl

def Exact (bytes : Bytes) (n : ℕ) : Prop :=
  ∃ v, convert bytes = some v ∧ queryConvert bytes n = some v ∧
    (0 ≤ v ↔ Utf8.isSeq (bytes.take n) = true) ∧
    (Utf8.isSeq (bytes.take n) = true → v = Utf8.scalar (bytes.take n))

theorem exact_iff (rest : Bytes) (hn : charMap lead = -(tail.length + 1 : ℕ))
    (hpos : 0 < tail.length) (hlen : tail.length ≤ 3) :
    Exact (lead :: (tail ++ rest)) (tail.length + 1) ↔ ¬ Short (lead :: tail) := by
  have hleg := isLegal_iff hn hpos hlen
  unfold Exact
  rw [convert, queryConvert, if_neg (by rw [hn]; omega), decode_eq hn hpos hlen rest,
    take_succ_cons, take_left]
  by_cases hseq : isSeq (lead :: tail) = true
  · rw [if_pos (hleg.mpr (.inl hseq))]
    refine iff_of_true ⟨_, rfl, rfl, iff_of_true (Int.natCast_nonneg _) hseq, fun _ => rfl⟩ ?_
    cases tail with
    | nil => cases hpos
    | cons a tail => exact fun hsh => not_shortSecond hseq hsh.1.2
  · have hiff := hleg.trans (or_iff_right hseq)
    constructor
    · rintro ⟨v, hv, -, hnon, -⟩ hsh
      rw [if_pos (hiff.mpr hsh)] at hv
      cases hv
      exact hseq (hnon.mp (Int.natCast_nonneg _))
    · intro hsh
      rw [if_neg (hiff.not.mpr hsh)]
      exact ⟨-1, rfl, rfl, iff_of_false (by decide) hseq, fun h => absurd h hseq⟩

/-- A character as one byte, or as a well-formed sequence. -/
theorem write_eq (hc : Utf8.IsScalar c) : ∃ bs, write c 4 = (bs, bs.length) ∧
      ((∃ b : UInt8, bs = [b] ∧ b < 0x80 ∧ b.toNat = c) ∨
        isSeq bs = true ∧ scalar bs = c) := by
  have mark : ∀ x k m : ℕ, x &&& (2 ^ k - 1) ||| 2 ^ k * m = 2 ^ k * m + x % 2 ^ k := by
    intro x k m
    rw [Nat.and_two_pow_sub_one_eq_mod, Nat.lor_comm,
      ← Nat.two_pow_add_eq_or_of_lt (Nat.mod_lt _ (Nat.two_pow_pos k))]
  have h80 : ∀ x : ℕ, x &&& 0x3F ||| 0x80 = 0x80 + x % 64 := fun x => mark x 6 2
  have hC0 : ∀ x : ℕ, x &&& 0x1F ||| 0xC0 = 0xC0 + x % 32 := fun x => mark x 5 6
  have hE0 : ∀ x : ℕ, x &&& 0x0F ||| 0xE0 = 0xE0 + x % 16 := fun x => mark x 4 14
  have hF0 : ∀ x : ℕ, x &&& 0x07 ||| 0xF0 = 0xF0 + x % 8 := fun x => mark x 3 30
  unfold Utf8.IsScalar at hc
  unfold write
  simp only [h80, hC0, hE0, hF0, Nat.shiftRight_eq_div_pow, ge_iff_le, Nat.reduceLeDiff, if_true]
  split_ifs with h1 h2 h3 h4
  · refine ⟨[c.toUInt8], rfl, .inl ⟨_, rfl, ?_, ?_⟩⟩
    · simp [UInt8.lt_iff_toNat_lt]
      omega
    · simp
      omega
  iterate 3
    · refine ⟨_, rfl, .inr ⟨?_, ?_⟩⟩
      · simp [isSeq, isTail, isSecond, UInt8.le_iff_toNat_le, ← UInt8.toNat_inj]
        omega
      · simp [scalar]
        omega
  · omega

theorem convert_of_isSeq (h : isSeq bs = true) : convert bs = some (scalar bs : ℤ) ∧
    queryConvert bs bs.length = some (scalar bs : ℤ) ∧
      sequenceLength bs bs.length = some (bs.length : ℤ) := by
  cases bs with
  | nil => cases h
  | cons lead tail =>
    obtain ⟨hn, hpos, hlen, -⟩ := charMap_of_isSeq h
    have hdec := decode_eq hn hpos hlen []
    rw [append_nil, if_pos ((isLegal_iff hn hpos hlen).mpr (.inl h))] at hdec
    refine ⟨hdec, ?_, ?_⟩
    · rw [queryConvert, if_neg, hdec]
      rw [hn, length_cons]
      omega
    · rw [sequenceLength, length_cons, if_pos (by omega), head?_cons, Option.map_some, hn,
        if_neg (by omega), neg_neg]

/-- **Exactly the well-formed sequences are decoded**, except that the second byte may be an ASCII
byte after `0xED` and `0xF4`; and what is written is decoded. -/
theorem exact_iff_not_short (lead : UInt8) (rest : Bytes) (c : ℕ) :
    (∀ n : ℕ, charMap lead = -n → 2 ≤ n → n ≤ 4 → n ≤ rest.length + 1 →
      (Exact (lead :: rest) n ↔ ¬ Short ((lead :: rest).take n))) ∧
    (Utf8.IsScalar c → ∃ bs, write c 4 = (bs, bs.length) ∧ convert bs = some (c : ℤ) ∧
      queryConvert bs bs.length = some (c : ℤ) ∧
        sequenceLength bs bs.length = some (bs.length : ℤ)) := by
  constructor
  · intro n hn h2 h4 hlen
    obtain ⟨k, rfl⟩ : ∃ k, n = k + 1 := ⟨n - 1, by omega⟩
    have htake : (rest.take k).length = k := by
      rw [List.length_take]
      omega
    have hcnt : charMap lead = -((rest.take k).length + 1 : ℕ) := by rwa [htake]
    have hiff := exact_iff (rest.drop k) hcnt (by omega) (by omega)
    rwa [htake, List.take_append_drop] at hiff
  · intro hc
    have ascii : ∀ b : UInt8, b < 0x80 → convert [b] = some (b.toNat : ℤ) ∧
        queryConvert [b] 1 = some (b.toNat : ℤ) ∧ sequenceLength [b] 1 = some 1 := by decide
    obtain ⟨bs, hwr, ⟨b, rfl, hb, rfl⟩ | ⟨hseq, rfl⟩⟩ := write_eq hc
    · exact ⟨[b], hwr, ascii b hb⟩
    · exact ⟨bs, hwr, convert_of_isSeq hseq⟩

/-- The euro sign. -/
theorem exact_euro : Exact [0xE2, 0x82, 0xAC] 3 ∧ ∃ bs, write 0x20AC 4 = (bs, bs.length) ∧
    convert bs = some 0x20AC := by
  obtain ⟨hexact, hwrite⟩ := exact_iff_not_short 0xE2 [0x82, 0xAC] 0x20AC
  obtain ⟨bs, hwr, hcon, -⟩ := hwrite (.inl (by decide))
  exact ⟨(hexact 3 rfl (by decide) (by decide) (by decide)).mpr fun h => absurd h.1 (by decide),
    bs, hwr, hcon⟩

/-- An ASCII byte after `0xED`. -/
theorem decoded_short : convert [0xED, 0x41, 0x80] = some 0xD040 ∧
    Utf8.isSeq [0xED, 0x41, 0x80] = false := by
  decide

end UTF8Encoding

end Poco
