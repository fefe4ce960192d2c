import Mathlib.Data.Nat.Digits.Lemmas
import Mathlib.Tactic.Ring
import Poco.NumericString

/-!
# Integer formatting

`intToStr` of `Foundation/include/Poco/NumericString.h`, without a prefix, a width and a
thousand separator, as `NumberFormatter::format` calls it for every integer type.  The
loop divides towards zero, so the digits of a negative number come out as negative
remainders, which the table of characters takes care of.

## Main definitions

* `IsDecimal`: the digits of a number, without leading zeros.
* `digitsOf`: the digits of a number, from the last one to the first; that of 0 is 0.

## Main results

* `IsDecimal.length_le`: no digit string of the value is shorter.
* `intToStrLoop_eq`: the loop writes the digits, and ends with a value of the sign of the first.
* `format_eq`: a sign, and the digits of the absolute value.
-/

namespace Poco

open List

/-- The string literal `"FEDCBA9876543210123456789ABCDEF"`. -/
def digitTable : Bytes :=
  [0x46, 0x45, 0x44, 0x43, 0x42, 0x41, 0x39, 0x38, 0x37, 0x36, 0x35, 0x34, 0x33, 0x32, 0x31, 0x30,
    0x31, 0x32, 0x33, 0x34, 0x35, 0x36, 0x37, 0x38, 0x39, 0x41, 0x42, 0x43, 0x44, 0x45, 0x46]

/-- The `do` loop of `intToStr`: the characters it writes, and the last `tmpVal`.  The
value comes closer to zero in every round, so a fuel above it suffices. -/
def intToStrLoop (base : ℤ) : ℕ → ℤ → Bytes × ℤ
  | 0, value => ([], value)
  | n + 1, value =>
    let tmpVal := value
    let value := value.tdiv base
    let c := digitTable.getD (15 + (tmpVal - value * base)).toNat 0
    if value = 0 then ([c], tmpVal)
    else
      let r := intToStrLoop base n value
      (c :: r.1, r.2)

/-- `intToStr`.  The characters are written from the last one to the first, and reversed
at the end. -/
def intToStr (value base : ℤ) : Bytes :=
  let r := intToStrLoop base (value.natAbs + 1) value
  (r.1 ++ (if r.2 < 0 then [0x2D] else [])).reverse

def NumberFormatter.format (value : ℤ) : Bytes := intToStr value 10

/-! ### Decimal digits -/

structure IsDecimal (ds : Bytes) (n : ℕ) : Prop where
  ne_nil : ds ≠ []
  digits : ∀ c ∈ ds, isDecDigit c = true
  value : decVal ds = n
  lead : ds.head? = some 0x30 → ds = [0x30]

theorem decVal_cons (c : UInt8) (ds : Bytes) :
    decVal (c :: ds) = (c.toNat - 48) * 10 ^ ds.length + decVal ds := by
  induction ds using List.reverseRecOn with
  | nil => simp [decVal]
  | append_singleton ds d ih =>
    rw [← cons_append, decVal_concat, decVal_concat, ih, length_append, length_singleton]
    ring

theorem IsDecimal.length_le {ds : Bytes} {n k : ℕ} (h : IsDecimal ds n) (hn : n < 10 ^ k)
    (hk : 1 ≤ k) : ds.length ≤ k := by
  obtain ⟨d, ds, rfl⟩ := exists_cons_of_ne_nil h.ne_nil
  by_cases h0 : d = 0x30
  · subst h0
    rw [h.lead rfl]
    exact hk
  have hd : 1 ≤ d.toNat - 48 := by
    have key : ∀ c : UInt8, isDecDigit c = true → c ≠ 0x30 → 1 ≤ c.toNat - 48 := by decide
    exact key d (h.digits d mem_cons_self) h0
  have hpow : 10 ^ ds.length < 10 ^ k := by
    calc 10 ^ ds.length = 1 * 10 ^ ds.length := (one_mul _).symm
      _ ≤ (d.toNat - 48) * 10 ^ ds.length := Nat.mul_le_mul_right _ hd
      _ ≤ decVal (d :: ds) := by rw [decVal_cons]; omega
      _ = n := h.value
      _ < 10 ^ k := hn
  have := (Nat.pow_lt_pow_iff_right (by decide : 1 < 10)).mp hpow
  rw [length_cons]
  omega

/-! ### The loop -/

def digitChar (d : ℕ) : UInt8 := digitTable.getD (15 + d) 0

def digitsOf (base m : ℕ) : List ℕ := m % base :: Nat.digits base (m / base)

variable {base : ℕ}

theorem digitsOf_lt (hbase : 2 ≤ base) (hd : d ∈ digitsOf base m) : d < base := by
  rcases mem_cons.mp hd with rfl | hd
  · exact Nat.mod_lt _ (by omega)
  · exact Nat.digits_lt_base hbase hd

theorem digitsOf_of_ne_zero (hbase : 2 ≤ base) {m : ℕ} (hm : m ≠ 0) :
    digitsOf base m = Nat.digits base m :=
  (Nat.digits_def' hbase (Nat.pos_of_ne_zero hm)).symm

theorem foldl_digitChar {val : UInt8 → ℕ} (h : ∀ d ∈ L, val (digitChar d) = d) :
    (L.map digitChar).reverse.foldl (fun n c => n * base + val c) 0 = Nat.ofDigits base L := by
  rw [foldl_reverse]
  induction L with
  | nil => rfl
  | cons d L ih =>
    obtain ⟨hd, hL⟩ := forall_mem_cons.mp h
    rw [map_cons, foldr_cons, ih hL, hd, Nat.ofDigits_cons]
    ring

theorem ofDigits_digitsOf (base m : ℕ) : Nat.ofDigits base (digitsOf base m) = m := by
  rw [digitsOf, Nat.ofDigits_cons, Nat.ofDigits_digits]
  exact Nat.mod_add_div m base

theorem digitTable_getD {d : ℤ} (h : d.natAbs < 16) :
    digitTable.getD (15 + d).toNat 0 = digitChar d.natAbs := by
  have key : ∀ n : Fin 31, digitTable.getD (15 + ((n : ℤ) - 15)).toNat 0 =
      digitChar ((n : ℤ) - 15).natAbs := by decide
  have := key ⟨(d + 15).toNat, by omega⟩
  rwa [show (((d + 15).toNat : ℤ) - 15) = d by omega] at this

theorem intToStrLoop_eq (hbase : 2 ≤ base) (hbase' : base ≤ 16) : ∀ {n : ℕ} {v : ℤ}, v.natAbs < n →
    (intToStrLoop base n v).1 = (digitsOf base v.natAbs).map digitChar ∧
      ((intToStrLoop base n v).2 < 0 ↔ v < 0) := by
  intro n
  induction n with
  | zero =>
    intro v h
    omega
  | succ n ih =>
    intro v h
    have hquo : (v.tdiv base).natAbs = v.natAbs / base := by rw [Int.natAbs_tdiv]; rfl
    have hrem : (v - v.tdiv base * base).natAbs = v.natAbs % base := by
      rw [mul_comm, ← Int.tmod_def, Int.natAbs_tmod]; rfl
    have hmod := Nat.mod_lt v.natAbs (show 0 < base by omega)
    have hchar := digitTable_getD (d := v - v.tdiv base * base) (by omega)
    rw [hrem] at hchar
    simp only [intToStrLoop, hchar]
    by_cases h0 : v.tdiv base = 0
    · have hq0 : v.natAbs / base = 0 := by omega
      simp [h0, digitsOf, hq0]
    have hle := Nat.div_le_self v.natAbs base
    have hlt : v.natAbs / base < v.natAbs := Nat.div_lt_self (by omega) hbase
    obtain ⟨hcs, hsign⟩ := ih (v := v.tdiv base) (by omega)
    rw [if_neg h0, hcs, hsign, hquo, digitsOf_of_ne_zero hbase (by omega)]
    refine ⟨rfl, ?_⟩
    have hpos : 0 ≤ v → 0 ≤ v.tdiv base := fun h => Int.tdiv_nonneg h (by omega)
    have hneg : v ≤ 0 → 0 ≤ (-v).tdiv base := fun h => Int.tdiv_nonneg (by omega) (by omega)
    rw [Int.neg_tdiv] at hneg
    omega

theorem isDecimal_digitsOf (m : ℕ) : IsDecimal ((digitsOf 10 m).map digitChar).reverse m := by
  have key : ∀ d < 10, isDecDigit (digitChar d) = true ∧ (digitChar d).toNat - 48 = d ∧
      (digitChar d = 0x30 → d = 0) := by decide
  have hlt : ∀ d ∈ digitsOf 10 m, d < 10 := fun d => digitsOf_lt (by decide)
  refine ⟨by simp [digitsOf], ?_, ?_, ?_⟩
  · simpa using fun d hd => (key d (hlt d hd)).1
  · exact (foldl_digitChar fun d hd => (key d (hlt d hd)).2.1).trans (ofDigits_digitsOf 10 m)
  · -- the last digit of a number that is not zero is not zero
    intro hhead
    by_cases hm : m = 0
    · rw [hm]
      rfl
    rw [digitsOf_of_ne_zero (by decide) hm] at hhead hlt
    have hne := Nat.getLast_digit_ne_zero 10 hm
    rw [head?_reverse, getLast?_map,
      getLast?_eq_getLast_of_ne_nil (Nat.digits_ne_nil_iff_ne_zero.mpr hm)]
      at hhead
    exact absurd ((key _ (hlt _ (getLast_mem _))).2.2 (Option.some.inj hhead)) hne

namespace NumberFormatter

theorem format_eq (v : ℤ) :
    ∃ ds, format v = (if v < 0 then [0x2D] else []) ++ ds ∧ IsDecimal ds v.natAbs := by
  obtain ⟨hcs, hsign⟩ := @intToStrLoop_eq 10 (by decide) (by decide) _ _ (Nat.lt_succ_self v.natAbs)
  refine ⟨_, ?_, isDecimal_digitsOf v.natAbs⟩
  unfold format intToStr
  simp only [Nat.cast_ofNat] at hcs hsign
  simp only [hcs, hsign, reverse_append]
  congr 1
  split <;> rfl

end NumberFormatter

end Poco
