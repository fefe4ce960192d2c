import Poco.Lib.Bytes

/-!
# Well-formed UTF-8

The byte sequences of RFC 3629: an ASCII byte, or one of the multi-byte sequences that
are neither overlong, nor a surrogate, nor above `U+10FFFF`.

## Main definitions

* `isSeq`, `scalar`: the multi-byte sequences and their values.
* `IsScalar`: a Unicode scalar value.
* `WellFormed`: sequences one after another.

## Main results

* `lead_of_isSeq`: the first byte of a multi-byte sequence, and its length.
-/

namespace Utf8

def isTail (b : UInt8) : Bool := 0x80 ≤ b && b ≤ 0xBF

def isSecond (a b : UInt8) : Bool :=
  isTail b && (a != 0xE0 || 0xA0 ≤ b) && (a != 0xED || b ≤ 0x9F) && (a != 0xF0 || 0x90 ≤ b) &&
    (a != 0xF4 || b ≤ 0x8F)

def isSeq : Bytes → Bool
  | [a, b] => 0xC2 ≤ a && a ≤ 0xDF && isTail b
  | [a, b, c] => 0xE0 ≤ a && a ≤ 0xEF && isSecond a b && isTail c
  | [a, b, c, d] => 0xF0 ≤ a && a ≤ 0xF4 && isSecond a b && isTail c && isTail d
  | _ => false

/-- The value of a sequence: the low bits of the first byte, and six of every other one. -/
def scalar : Bytes → ℕ
  | [] => 0
  | a :: bs => bs.foldl (fun v b => v * 64 + b.toNat % 64) (a.toNat % 2 ^ (6 - bs.length))

def IsScalar (c : ℕ) : Prop := c < 0xD800 ∨ 0xE000 ≤ c ∧ c ≤ 0x10FFFF

inductive WellFormed : Bytes → Prop where
  | nil : WellFormed []
  | ascii {c : UInt8} {s : Bytes} (hc : c < 0x80) (hs : WellFormed s) : WellFormed (c :: s)
  | seq {bs s : Bytes} (hbs : isSeq bs = true) (hs : WellFormed s) : WellFormed (bs ++ s)

theorem isSeq_ne_nil (h : isSeq bs = true) : bs ≠ [] := by
  rintro rfl
  cases h

theorem le_of_mem_isSeq (h : isSeq bs = true) : ∀ b ∈ bs, 0x80 ≤ b := by
  unfold isSeq at h
  split at h <;> simp_all [isTail, isSecond, UInt8.le_iff_toNat_le] <;> omega

/-- A multi-byte sequence has a second byte at least, and ends in a trailing one. -/
theorem isSeq_eq_append (h : isSeq bs = true) : ∃ a x z, bs = a ++ [x, z] ∧ isTail z = true := by
  unfold isSeq at h
  split at h
  · next a b => exact ⟨[], a, b, rfl, (Bool.and_eq_true_iff.mp h).2⟩
  · next a b c => exact ⟨[a], b, c, rfl, (Bool.and_eq_true_iff.mp h).2⟩
  · next a b c d => exact ⟨[a, b], c, d, rfl, (Bool.and_eq_true_iff.mp h).2⟩
  · cases h

/-- How many bytes follow the first one of a multi-byte sequence. -/
def tailLength (a : UInt8) : ℕ := if a ≤ 0xDF then 1 else if a ≤ 0xEF then 2 else 3

theorem lead_of_isSeq (h : isSeq (a :: bs) = true) :
    0xC2 ≤ a ∧ a ≤ 0xF4 ∧ bs.length = tailLength a := by
  have key2 : ∀ a : UInt8, 0xC2 ≤ a → a ≤ 0xDF → 0xC2 ≤ a ∧ a ≤ 0xF4 ∧ 1 = tailLength a := by decide
  have key3 : ∀ a : UInt8, 0xE0 ≤ a → a ≤ 0xEF → 0xC2 ≤ a ∧ a ≤ 0xF4 ∧ 2 = tailLength a := by decide
  have key4 : ∀ a : UInt8, 0xF0 ≤ a → a ≤ 0xF4 → 0xC2 ≤ a ∧ a ≤ 0xF4 ∧ 3 = tailLength a := by decide
  unfold isSeq at h
  split at h <;> simp only [Bool.and_eq_true, decide_eq_true_eq, Bool.false_eq_true] at h
  · next heq =>
    cases heq
    exact key2 a h.1.1 h.1.2
  · next heq =>
    cases heq
    exact key3 a h.1.1.1 h.1.1.2
  · next heq =>
    cases heq
    exact key4 a h.1.1.1.1 h.1.1.1.2

theorem WellFormed.append (hs : WellFormed s) (ht : WellFormed t) : WellFormed (s ++ t) := by
  induction hs with
  | nil => exact ht
  | ascii hc _ ih => exact .ascii hc ih
  | seq hbs _ ih => rw [List.append_assoc]; exact .seq hbs ih

theorem WellFormed.of_ascii (h : ∀ c ∈ s, c < 0x80) : WellFormed s := by
  induction s with
  | nil => exact .nil
  | cons c s ih => exact .ascii (h c (by simp)) (ih fun x hx => h x (by simp [hx]))

theorem WellFormed.cases_raw (h : WellFormed (c :: s)) (hc : 0x80 ≤ c) :
    ∃ bs t, s = bs ++ t ∧ isSeq (c :: bs) = true ∧ WellFormed t := by
  generalize hs : c :: s = u at h
  cases h with
  | nil => cases hs
  | ascii hlt =>
    cases hs
    exact absurd hlt (UInt8.not_lt.mpr hc)
  | @seq bs t hbs ht =>
    cases bs with
    | nil => exact absurd rfl (isSeq_ne_nil hbs)
    | cons b bs =>
      cases hs
      exact ⟨bs, t, rfl, hbs, ht⟩

theorem WellFormed.of_cons (h : WellFormed (c :: s)) (hc : c < 0x80) : WellFormed s := by
  generalize hs : c :: s = u at h
  cases h with
  | nil => cases hs
  | ascii _ h =>
    cases hs
    exact h
  | @seq bs t hbs =>
    cases bs with
    | nil => exact absurd rfl (isSeq_ne_nil hbs)
    | cons b bs =>
      obtain rfl : c = b := (List.cons.inj hs).1
      exact absurd hc (UInt8.not_lt.mpr (le_of_mem_isSeq hbs c List.mem_cons_self))

end Utf8
