import Mathlib.Data.Int.Basic
import Mathlib.Data.List.Basic
import Mathlib.Algebra.Order.Ring.Int
import Mathlib.Data.Int.ModEq
import Mathlib.Tactic.Linarith
import Mathlib.Tactic.Positivity
import Poco.Lib.Bytes

/-!
# Integer parsing

`strToInt` of `Foundation/include/Poco/NumericString.h` and the functions of
`Foundation/src/NumberParser.cpp` that wrap it.  The arithmetic of the target type is
two's complement: a signed overflow, which the language leaves undefined, wraps around
as the compiled code does.  A string is the bytes of a C string, so a zero byte ends it.

## Main definitions

* `IntType`: an integer type: its width and whether it is signed.
* `strToInt`: `strToInt<I>(pStr, result, base, thSep)`; `none` is `return false`.
* `Overflows`: a digit string that the overflow test stops at: the value of some proper prefix,
  reduced to the type, is above `max / 10`.  The test comes before the multiplication, so that the
  last few values past a limit are let through.

## Main results

* `decLoop_eq`: the digits are read to the end unless the test stops them, and yield the value
  reduced to the type.
* `strToInt_dec`: decimal literals: an optional minus sign, digits, and white space after them.
* `strToInt_cases`: either no type reads a text, or all read the same number and reduce it.
* `NumberParser.tryParse64_lt`: an integer has no more digits than the string it was read from.
-/

namespace Poco

open List

/-! ### Integer types -/

structure IntType where
  bits : ℕ
  signed : Bool
  deriving DecidableEq, Repr

namespace IntType

def int : IntType := ⟨32, true⟩

def unsigned : IntType := ⟨32, false⟩

def int64 : IntType := ⟨64, true⟩

def uint64 : IntType := ⟨64, false⟩

def max (I : IntType) : ℤ := if I.signed then 2 ^ (I.bits - 1) - 1 else 2 ^ I.bits - 1

def min (I : IntType) : ℤ := if I.signed then -2 ^ (I.bits - 1) else 0

def wrap (I : IntType) (z : ℤ) : ℤ :=
  if I.signed then (z + 2 ^ (I.bits - 1)) % 2 ^ I.bits - 2 ^ (I.bits - 1) else z % 2 ^ I.bits

end IntType

/-! ### The conversion -/

def isspace (c : UInt8) : Bool := c == 0x20 || (0x09 ≤ c && c ≤ 0x0D)

/-- What the `switch` of the loop makes of one character. -/
inductive Scan where
  /-- `break` without a digit. -/
  | skip
  /-- Append a digit of this value. -/
  | digit (d : ℤ)
  /-- `goto done`. -/
  | done
  /-- `return false`. -/
  | fail
  deriving DecidableEq, Repr

/-- The `switch (*pStr)` of `strToInt`; `significant` is `state` having reached
`STATE_SIGNIFICANT_DIGITS`. -/
def scan (base : ℕ) (thSep : UInt8) (significant : Bool) (c : UInt8) : Scan :=
  -- 'x' and 'X' fall through to '0', and from there to the digits
  if c = 0x78 ∨ c = 0x58 then
    if base ≠ 16 then .fail else if significant then .digit (c.toNat - 48) else .skip
  else if c = 0x30 then
    if significant then .digit (c.toNat - 48) else .skip
  else if 0x31 ≤ c ∧ c ≤ 0x37 then .digit (c.toNat - 48)
  else if c = 0x38 ∨ c = 0x39 then
    if base = 10 ∨ base = 16 then .digit (c.toNat - 48) else .fail
  else if 0x61 ≤ c ∧ c ≤ 0x66 then
    if base ≠ 16 then .fail else .digit (10 + c.toNat - 97)
  else if 0x41 ≤ c ∧ c ≤ 0x46 then
    if base ≠ 16 then .fail else .digit (10 + c.toNat - 65)
  -- 'U', 'u', 'L', 'l'
  else if c = 0x55 ∨ c = 0x75 ∨ c = 0x4C ∨ c = 0x6C then .done
  else if c = 0x2E then if base = 10 ∧ thSep = 0x2E then .skip else .fail
  else if c = 0x2C then if base = 10 ∧ thSep = 0x2C then .skip else .fail
  else if c = 0x20 then if base = 10 ∧ thSep = 0x20 then .skip else .done
  else if 0x09 ≤ c ∧ c ≤ 0x0D then .done
  else .fail

/-- The `for` loop of `strToInt`, from `result` and `state` on. -/
def strToIntLoop (I : IntType) (base : ℕ) (thSep : UInt8) : Bool → ℤ → Bytes → Option ℤ
  | _, result, [] => some result
  | significant, result, c :: s =>
    if c = 0 then some result
    else match scan base thSep significant c with
      | .skip => strToIntLoop I base thSep significant result s
      | .digit d =>
        if result > I.max / base then none
        else strToIntLoop I base thSep true (I.wrap (result * base + d)) s
      | .done => some result
      | .fail => none

def strToInt (I : IntType) (pStr : Bytes) (base : ℕ) (thSep : UInt8) : Option ℤ :=
  match pStr.dropWhile isspace with
  | [] => none
  | c :: s =>
    if c = 0 then none
    else if base = 10 ∧ c = 0x2D then
      (strToIntLoop I base thSep false 0 s).map fun result => I.wrap (result * -1)
    else if c = 0x2B then strToIntLoop I base thSep false 0 s
    else strToIntLoop I base thSep false 0 (c :: s)

namespace NumberParser

def NUM_BASE_DEC : ℕ := 10

/-- `NumberParser::tryParse64`, with the default thousand separator `','`. -/
def tryParse64 (s : Bytes) : Option ℤ := strToInt .int64 s NUM_BASE_DEC 0x2C

/-- `NumberParser::tryParseUnsigned64`, with the default thousand separator `','`. -/
def tryParseUnsigned64 (s : Bytes) : Option ℤ := strToInt .uint64 s NUM_BASE_DEC 0x2C

end NumberParser

/-! ### Decimal literals -/

def isDecDigit (c : UInt8) : Bool := 0x30 ≤ c && c ≤ 0x39

def decVal (ds : Bytes) : ℕ := ds.foldl (fun n c => n * 10 + (c.toNat - 48)) 0

@[simp] theorem decVal_nil : decVal [] = 0 := rfl

theorem decVal_concat (ds : Bytes) (c : UInt8) :
    decVal (ds ++ [c]) = decVal ds * 10 + (c.toNat - 48) := by
  simp [decVal]

def Overflows (I : IntType) (ds : Bytes) : Prop :=
  ∃ n < ds.length, I.wrap (decVal (ds.take n)) > I.max / 10

instance (I : IntType) (ds : Bytes) : Decidable (Overflows I ds) :=
  inferInstanceAs (Decidable (∃ n < ds.length, _))

namespace IntType

theorem wrap_congr (I : IntType) (h : a ≡ b [ZMOD 2 ^ I.bits]) : I.wrap a = I.wrap b := by
  unfold wrap
  split
  · rw [h.add_right (2 ^ (I.bits - 1))]
  · exact h

theorem wrap_modEq (I : IntType) (a : ℤ) : I.wrap a ≡ a [ZMOD 2 ^ I.bits] := by
  unfold wrap
  split
  · have h : (a + 2 ^ (I.bits - 1)) % 2 ^ I.bits ≡ a + 2 ^ (I.bits - 1) [ZMOD 2 ^ I.bits] :=
      Int.mod_modEq _ _
    simpa using h.sub_right (2 ^ (I.bits - 1))
  · exact Int.mod_modEq _ _

/-- Reducing an accumulator before appending a digit changes nothing. -/
theorem wrap_mul_add_wrap (I : IntType) (a b d : ℤ) :
    I.wrap (I.wrap a * b + d) = I.wrap (a * b + d) :=
  I.wrap_congr (((I.wrap_modEq a).mul_right b).add_right d)

theorem wrap_neg_wrap (I : IntType) (a : ℤ) : I.wrap (I.wrap a * -1) = I.wrap (-a) := by
  rw [show -a = a * -1 by omega]
  exact I.wrap_congr ((I.wrap_modEq a).mul_right (-1))

theorem wrap_zero (I : IntType) (h : 0 < I.bits) : I.wrap 0 = 0 := by
  obtain ⟨k, hk⟩ : ∃ k, I.bits = k + 1 := ⟨I.bits - 1, by omega⟩
  unfold wrap
  split
  · rw [hk, pow_succ, Int.emod_eq_of_lt] <;> simp
  · simp

theorem wrap_int64 (z : ℤ) : int64.wrap z = (z + 2 ^ 63) % 2 ^ 64 - 2 ^ 63 := rfl

theorem wrap_uint64 (z : ℤ) : uint64.wrap z = z % 2 ^ 64 := rfl

theorem wrap_of_mem (I : IntType) (hbits : 0 < I.bits) (hlo : I.min ≤ z)
    (hhi : z ≤ I.max) : I.wrap z = z := by
  obtain ⟨k, hk⟩ : ∃ k, I.bits = k + 1 := ⟨I.bits - 1, by omega⟩
  unfold wrap
  unfold min at hlo
  unfold max at hhi
  split
  · next hs =>
    rw [if_pos hs, hk, Nat.add_sub_cancel] at hlo hhi
    rw [hk, Nat.add_sub_cancel, Int.emod_eq_of_lt (by omega) (by omega)]
    omega
  · next hs =>
    rw [if_neg hs] at hlo hhi
    exact Int.emod_eq_of_lt hlo (by omega)

theorem wrap_mem (I : IntType) (hbits : 0 < I.bits) (z : ℤ) :
    I.min ≤ I.wrap z ∧ I.wrap z ≤ I.max := by
  obtain ⟨k, hk⟩ : ∃ k, I.bits = k + 1 := ⟨I.bits - 1, by omega⟩
  have hpos : (0 : ℤ) < 2 ^ k := by positivity
  unfold min wrap max
  rw [hk, Nat.add_sub_cancel]
  split
  · have h1 := Int.emod_nonneg (z + 2 ^ k) (show (2 : ℤ) ^ k * 2 ≠ 0 by omega)
    have h2 := Int.emod_lt_of_pos (z + 2 ^ k) (show (0 : ℤ) < 2 ^ k * 2 by omega)
    omega
  · have h1 := Int.emod_nonneg z (show (2 : ℤ) ^ k * 2 ≠ 0 by omega)
    have h2 := Int.emod_lt_of_pos z (show (0 : ℤ) < 2 ^ k * 2 by omega)
    omega

end IntType

/-- The part of the loop that reads digits. -/
def decLoop (I : IntType) (r : ℤ) (ds : Bytes) : Option ℤ :=
  ds.foldlM (fun r c => if r > I.max / 10 then none else some (I.wrap (r * 10 + (c.toNat - 48)))) r

theorem scan_digit (significant : Bool) :
    ∀ c : UInt8, isDecDigit c = true → scan 10 0x2C significant c =
      if significant = false ∧ c = 0x30 then .skip else .digit (c.toNat - 48) := by
  cases significant <;> (apply Bytes.forall_of_digits; decide)

theorem ne_zero_of_isDecDigit : ∀ c : UInt8, isDecDigit c = true → c ≠ 0 := by decide

theorem scan_isspace (significant : Bool) :
    ∀ c : UInt8, isspace c = true → scan 10 0x2C significant c = .done := by
  cases significant <;> (apply Bytes.forall_of_digits; decide)

variable {ds w : Bytes} {I : IntType} {v : ℤ}

theorem strToIntLoop_space (I : IntType) (significant : Bool) (r : ℤ)
    (hw : ∀ c ∈ w, isspace c = true) : strToIntLoop I 10 0x2C significant r w = some r := by
  cases w with
  | nil => rfl
  | cons c w =>
    have hc := hw c (by simp)
    simp [strToIntLoop, scan_isspace significant c hc]

/-- The loop over digits and white space is `decLoop`.  Leading zeros are skipped, which is what
reading them would come to. -/
theorem strToIntLoop_digits (I : IntType) (hbits : 1 < I.bits) (hw : ∀ c ∈ w, isspace c = true) :
    ∀ {ds : Bytes} {significant : Bool} {r : ℤ}, (∀ c ∈ ds, isDecDigit c = true) →
      (significant = false → r = 0) →
      strToIntLoop I 10 0x2C significant r (ds ++ w) = decLoop I r ds := by
  have hmax : ¬ (0 : ℤ) > I.max / 10 := by
    have : 0 ≤ I.max := by
      unfold IntType.max
      split
      · have : (0 : ℤ) < 2 ^ (I.bits - 1) := by positivity
        omega
      · have : (0 : ℤ) < 2 ^ I.bits := by positivity
        omega
    omega
  intro ds
  induction ds with
  | nil =>
    intro significant r _ _
    exact strToIntLoop_space I significant r hw
  | cons c ds ih =>
    intro significant r hds hr
    obtain ⟨hc, hrest⟩ := forall_mem_cons.mp hds
    rw [cons_append, strToIntLoop, if_neg (ne_zero_of_isDecDigit c hc), scan_digit significant c hc]
    by_cases hskip : significant = false ∧ c = 0x30
    · obtain ⟨rfl, rfl⟩ := hskip
      obtain rfl := hr rfl
      simp only [ih hrest (fun _ => rfl)]
      simp [decLoop, hmax, I.wrap_zero (by omega)]
    · rw [if_neg hskip]
      simp only [ih hrest (by simp : true = false → _)]
      by_cases hov : r > I.max / 10 <;> simp [decLoop, hov]

theorem decLoop_eq (I : IntType) (hbits : 0 < I.bits) (ds : Bytes) :
    (∀ c ∈ ds, isDecDigit c = true) →
    decLoop I 0 ds = if Overflows I ds then none else some (I.wrap (decVal ds)) := by
  induction ds using List.reverseRecOn with
  | nil => intro _; simp [decLoop, Overflows, I.wrap_zero hbits]
  | append_singleton ds c ih =>
    intro hds
    have hc : isDecDigit c = true := hds c (by simp)
    have hspl : Overflows I (ds ++ [c]) ↔ Overflows I ds ∨ I.wrap (decVal ds) > I.max / 10 := by
      rw [Overflows, length_append, length_singleton, Nat.exists_lt_succ_right, take_left' rfl]
      refine or_congr_left (exists_congr fun n => and_congr_right fun hn => ?_)
      rw [take_append_of_le_length hn.le]
    have hstep : decLoop I 0 (ds ++ [c]) = (decLoop I 0 ds).bind fun r =>
        if r > I.max / 10 then none else some (I.wrap (r * 10 + (c.toNat - 48))) := by
      simp [decLoop, foldlM_append]
    rw [hstep, ih (fun x hx => hds x (by simp [hx]))]
    by_cases h1 : Overflows I ds
    · simp [h1, hspl]
    by_cases h2 : I.wrap (decVal ds) > I.max / 10
    · simp [h1, h2, hspl]
    have h48 : 48 ≤ c.toNat := by
      simp only [isDecDigit, Bool.and_eq_true, decide_eq_true_eq] at hc
      exact hc.1
    have hval : (decVal (ds ++ [c]) : ℤ) = (decVal ds : ℤ) * 10 + (c.toNat - 48) := by
      rw [decVal_concat]; omega
    simp [h1, h2, hspl, hval, I.wrap_mul_add_wrap]

theorem strToInt_dec (I : IntType) (hbits : 1 < I.bits) (neg : Bool) (hne : ds ≠ [])
    (hds : ∀ c ∈ ds, isDecDigit c = true) (hw : ∀ c ∈ w, isspace c = true) :
    strToInt I ((if neg then [0x2D] else []) ++ ds ++ w) 10 0x2C =
      if Overflows I ds then none
      else some (I.wrap (if neg then -(decVal ds : ℤ) else decVal ds)) := by
  have hloop := strToIntLoop_digits I hbits hw hds (fun _ : false = false => rfl)
  rw [decLoop_eq I (by omega) ds hds] at hloop
  cases neg with
  | true =>
    have hdrop : ((if true then [(0x2D : UInt8)] else []) ++ ds ++ w).dropWhile isspace
        = 0x2D :: (ds ++ w) := by
      simp [isspace]
    unfold strToInt
    rw [hdrop]
    simp only [hloop]
    by_cases h : Overflows I ds
    · simp [h]
    · simp [h, ← I.wrap_neg_wrap (decVal ds : ℤ)]
  | false =>
    obtain ⟨c, ds', rfl⟩ := exists_cons_of_ne_nil hne
    have hc := hds c (by simp)
    -- a digit is neither white space nor a sign
    have hnot : isspace c = false ∧ c ≠ 0x2D ∧ c ≠ 0x2B := by
      have key : ∀ c : UInt8, isDecDigit c = true →
          isspace c = false ∧ c ≠ 0x2D ∧ c ≠ 0x2B := by decide
      exact key c hc
    have hdrop : ((if false then [(0x2D : UInt8)] else []) ++ (c :: ds') ++ w).dropWhile isspace
        = c :: (ds' ++ w) := by
      simp [hnot.1]
    unfold strToInt
    rw [hdrop]
    simp only [ne_zero_of_isDecDigit c hc, hnot.2.1, hnot.2.2, if_false, and_false]
    rw [← cons_append, hloop]
    simp

/-! ### Which literals the overflow test stops -/

theorem decVal_take_le : ∀ {n : ℕ}, n < ds.length →
    decVal (ds.take n) * 10 ≤ decVal ds := by
  induction ds using List.reverseRecOn with
  | nil => intro n hn; simp at hn
  | append_singleton ds c ih =>
    intro n hn
    rw [decVal_concat]
    rcases Nat.lt_or_ge n ds.length with hlt | hge
    · have := ih hlt
      rw [take_append_of_le_length hlt.le]
      omega
    · obtain rfl : n = ds.length := by
        rw [length_append, length_singleton] at hn
        omega
      rw [take_left' rfl]
      omega

/-- A value whose tenth is not above the bound of the test is let through. -/
theorem not_overflows (hbits : 0 < I.bits) (hmin : I.min ≤ 0)
    (h : (decVal ds : ℤ) / 10 ≤ I.max / 10) : ¬ Overflows I ds := by
  rintro ⟨n, hn, hov⟩
  have hle := decVal_take_le hn
  rw [I.wrap_of_mem hbits (by omega) (by omega)] at hov
  omega

/-- A value whose tenth is a value of the type above the bound of the test is stopped. -/
theorem overflows (hbits : 0 < I.bits) (hmin : I.min ≤ 0) (hds : ∀ c ∈ ds, isDecDigit c = true)
    (h : I.max / 10 < (decVal ds : ℤ) / 10) (hmax : (decVal ds : ℤ) / 10 ≤ I.max) :
    Overflows I ds := by
  induction ds using List.reverseRecOn with
  | nil => simp at h hmax; omega
  | append_singleton ds c _ =>
    have hc : 48 ≤ c.toNat ∧ c.toNat ≤ 57 := by
      have := hds c (by simp)
      simpa [isDecDigit, UInt8.le_iff_toNat_le] using this
    rw [decVal_concat] at h hmax
    refine ⟨ds.length, by simp, ?_⟩
    rw [take_left' rfl, I.wrap_of_mem hbits (by omega) (by omega)]
    omega

/-! ### The size of the result -/

theorem scan_eq_digit (h : scan 10 0x2C significant c = .digit d) :
    isDecDigit c = true ∧ d = c.toNat - 48 := by
  have key : ∀ c : UInt8, ∀ significant : Bool, (match scan 10 0x2C significant c with
      | .digit d => isDecDigit c && decide (d = c.toNat - 48)
      | _ => true) = true := by decide
  have hc := key c significant
  rw [h] at hc
  simpa using hc

/-- The digits that are read do not depend on the type, nor does a failure at another character. -/
theorem strToIntLoop_eq_decLoop (significant : Bool) (s : Bytes) :
    ∃ ds : Bytes, (∀ c ∈ ds, isDecDigit c = true) ∧ ds.length ≤ s.countP isDecDigit ∧
      ((∀ I r, strToIntLoop I 10 0x2C significant r s = none) ∨
        ∀ I r, strToIntLoop I 10 0x2C significant r s = decLoop I r ds) := by
  induction s generalizing significant with
  | nil => exact ⟨[], by simp, le_rfl, .inr fun _ _ => rfl⟩
  | cons c s ih =>
    simp only [strToIntLoop]
    by_cases h0 : c = 0
    · exact ⟨[], by simp, Nat.zero_le _, .inr fun _ _ => if_pos h0⟩
    simp only [if_neg h0]
    cases hscan : scan 10 0x2C significant c with
    | skip =>
      obtain ⟨ds, hds, hlen, h⟩ := ih significant
      exact ⟨ds, hds, hlen.trans (sublist_cons_self c s).countP_le, h⟩
    | digit d =>
      obtain ⟨hdec, rfl⟩ := scan_eq_digit hscan
      obtain ⟨ds, hds, hlen, h⟩ := ih true
      refine ⟨c :: ds, forall_mem_cons.mpr ⟨hdec, hds⟩, ?_, ?_⟩
      · rw [countP_cons_of_pos hdec, length_cons]
        omega
      · refine h.imp (fun h I r => ?_) fun h I r => ?_
        · simp [h]
        · change (if r > I.max / 10 then none else _) =
            (if r > I.max / 10 then none else some _).bind fun r => decLoop I r ds
          split
          · rfl
          · exact h I _
    | done => exact ⟨[], by simp, Nat.zero_le _, .inr fun _ _ => rfl⟩
    | fail => exact ⟨[], by simp, Nat.zero_le _, .inl fun _ _ => rfl⟩

theorem decVal_lt (hds : ∀ c ∈ ds, isDecDigit c = true) : decVal ds < 10 ^ ds.length := by
  induction ds using List.reverseRecOn with
  | nil => simp
  | append_singleton ds c ih =>
    rw [forall_mem_append] at hds
    have key : ∀ c : UInt8, isDecDigit c = true → c.toNat - 48 < 10 := by decide
    have hc := key c (hds.2 c mem_cons_self)
    have := ih hds.1
    rw [decVal_concat, length_append, length_singleton, pow_succ]
    omega

theorem strToInt_cases (s : Bytes) :
    (∀ I, strToInt I s 10 0x2C = none) ∨
    ∃ (neg : Bool) (ds : Bytes), decVal ds < 10 ^ s.countP isDecDigit ∧
      ∀ I : IntType, 0 < I.bits → strToInt I s 10 0x2C = if Overflows I ds then none
        else some (I.wrap (if neg then -(decVal ds : ℤ) else decVal ds)) := by
  have hcnt : (s.dropWhile isspace).countP isDecDigit ≤ s.countP isDecDigit :=
    (dropWhile_sublist _).countP_le
  -- what stands after the sign is read by the loop
  suffices h : (∀ I, strToInt I s 10 0x2C = none) ∨ ∃ (neg : Bool) (t : _),
    t <:+ s.dropWhile isspace ∧
      ∀ I : IntType, strToInt I s 10 0x2C = (strToIntLoop I 10 0x2C false 0 t).map fun r =>
        if neg then I.wrap (r * -1) else r by
    refine h.elim .inl ?_
    rintro ⟨neg, t, ht, h⟩
    obtain ⟨ds, hds, hlen, hnone | heq⟩ := strToIntLoop_eq_decLoop false t
    · exact .inl fun I => by rw [h, hnone, Option.map_none]
    · refine .inr ⟨neg, ds, (decVal_lt hds).trans_le ?_, fun I hI => ?_⟩
      · exact Nat.pow_le_pow_right (by omega) ((hlen.trans ht.sublist.countP_le).trans hcnt)
      · rw [h, heq, decLoop_eq I hI ds hds]
        by_cases hov : Overflows I ds
        · simp [hov]
        · cases neg <;> simp [hov, ← I.wrap_neg_wrap (decVal ds : ℤ)]
  cases hs : s.dropWhile isspace with
  | nil => exact .inl fun I => by rw [strToInt, hs]
  | cons c t =>
    by_cases h0 : c = 0
    · exact .inl fun I => by simp [strToInt, hs, h0]
    by_cases hmin : c = 0x2D
    · exact .inr ⟨true, t, suffix_cons c t, fun I => by simp [strToInt, hs, hmin]⟩
    by_cases hplus : c = 0x2B
    · exact .inr ⟨false, t, suffix_cons c t, fun I => by simp [strToInt, hs, hplus]⟩
    · exact .inr ⟨false, c :: t, suffix_rfl, fun I => by simp [strToInt, hs, h0, hmin, hplus]⟩

theorem NumberParser.tryParse64_lt {s : Bytes} (h : tryParse64 s = some v) :
    v.natAbs < 10 ^ s.countP isDecDigit := by
  have h : strToInt .int64 s 10 0x2C = some v := h
  rcases strToInt_cases s with hnone | ⟨neg, ds, hlt, heq⟩
  · rw [hnone] at h
    cases h
  rw [heq _ (by decide)] at h
  rw [IntType.wrap_int64] at h
  split_ifs at h <;> (obtain rfl := Option.some.inj h; omega)

theorem NumberParser.tryParseUnsigned64_lt (hn : tryParse64 s = none)
    (h : tryParseUnsigned64 s = some v) : v.natAbs < 10 ^ s.countP isDecDigit := by
  have hn : strToInt .int64 s 10 0x2C = none := hn
  have h : strToInt .uint64 s 10 0x2C = some v := h
  rcases strToInt_cases s with hnone | ⟨neg, ds, hlt, heq⟩
  · rw [hnone] at h
    cases h
  rw [heq _ (by decide)] at h hn
  -- what the signed type cannot hold has at least nineteen digits
  have hbig : 2 ^ 63 ≤ decVal ds := by
    by_contra hsmall
    rw [if_neg (not_overflows (by decide) (by decide) (by change _ ≤ (2 ^ 63 - 1 : ℤ) / 10; omega))]
      at hn
    cases hn
  rw [IntType.wrap_uint64] at h
  split_ifs at h <;> (obtain rfl := Option.some.inj h; omega)

end Poco
