import Poco.Ascii
import Poco.NumberFormatter

/-!
# Hexadecimal numbers

`uIntToStr` of `Foundation/include/Poco/NumericString.h`, without a prefix and a thousand
separator, as `NumberFormatter::appendHex` and `NumberFormatter::formatHex` call it, and
`NumberParser::tryParseHex`.

## Main definitions

* `appendHex`, `formatHex`: numbers as texts, without and with a width.
* `hexVal`, `baseVal`: the value of digits, appended to the digits of `n`, in base 16 and any base.

## Main results

* `strToInt_baseVal`: digits are read after blanks and a sign, if the overflow test lets them pass.
* `NumberParser.tryParseHex_eq`: digits and leading zeros are read, if their value has 32 bits.
-/

namespace Poco

open List

/-- The `do` loop of `uIntToStr`: the characters it writes.  The value gets smaller in every
round, so a fuel above it suffices. -/
def uIntToStrLoop (base : ℕ) : ℕ → ℕ → Bytes
  | 0, _ => []
  | n + 1, value =>
    let tmpVal := value
    let value := value / base
    digitTable.getD (15 + (tmpVal - value * base)) 0 ::
      if value = 0 then [] else uIntToStrLoop base n value

/-- `uIntToStr` with the fill character `'0'`.  The characters are written from the last one
to the first, and reversed at the end. -/
def uIntToStr (value base width : ℕ) : Bytes :=
  let result := uIntToStrLoop base (value + 1) value
  (result ++ List.replicate (width - result.length) 0x30).reverse

namespace NumberFormatter

def appendHex (value : ℕ) : Bytes := uIntToStr value 16 0

def formatHex (value width : ℕ) : Bytes := uIntToStr value 16 width

end NumberFormatter

def NumberParser.tryParseHex (s : Bytes) : Option ℤ := strToInt .unsigned s 16 0x2C

/-! ### Digits -/

def hexDigitVal (c : UInt8) : ℕ :=
  if c ≤ 0x39 then c.toNat - 0x30 else if c ≤ 0x46 then c.toNat - 0x37 else c.toNat - 0x57

def hexVal (n : ℕ) (ds : Bytes) : ℕ := ds.foldl (fun n c => n * 16 + hexDigitVal c) n

def baseVal (base n : ℕ) (ds : Bytes) : ℕ := ds.foldl (fun n c => n * base + hexDigitVal c) n

variable {base : ℕ} {I : IntType} {ds : Bytes}

theorem le_baseVal (hbase : 0 < base) (n : ℕ) (ds : Bytes) : n ≤ baseVal base n ds := by
  induction ds generalizing n with
  | nil => exact le_rfl
  | cons c ds ih =>
    have := Nat.le_mul_of_pos_right n hbase
    exact (by omega : n ≤ n * base + hexDigitVal c).trans (ih _)

theorem scan_hexDigit (hbase : base = 8 ∨ base = 10 ∨ base = 16) (significant : Bool) : ∀ c : UInt8,
    Ascii.isHexDigit c = true → hexDigitVal c < base →
    (c ≠ 0 ∧ isspace c = false ∧ c ≠ 0x2D ∧ c ≠ 0x2B) ∧ scan base 0x2C significant c =
      if significant = false ∧ c = 0x30 then .skip else .digit (hexDigitVal c) := by
  rcases hbase with rfl | rfl | rfl <;> cases significant <;> (apply Bytes.forall_of_digits; decide)

theorem strToIntLoop_baseVal (hbits : 0 < I.bits) (hbase : base = 8 ∨ base = 10 ∨ base = 16) :
    ∀ {ds : Bytes} {significant : Bool} {n : ℕ},
      (∀ c ∈ ds, Ascii.isHexDigit c = true ∧ hexDigitVal c < base) → (significant = false → n = 0) →
      (baseVal base n ds : ℤ) / base ≤ I.max / base →
      strToIntLoop I base 0x2C significant (I.wrap n) ds = some (I.wrap (baseVal base n ds)) := by
  have hmin : I.min ≤ 0 := by
    unfold IntType.min
    split
    · have : (0 : ℤ) < 2 ^ (I.bits - 1) := by positivity
      omega
    · exact le_rfl
  intro ds
  induction ds with
  | nil => intro significant n _ _ _; rfl
  | cons c ds ih =>
    intro significant n hds hzero hmax
    obtain ⟨⟨hhex, hlt⟩, hrest⟩ := forall_mem_cons.mp hds
    obtain ⟨⟨hc0, -⟩, hscan⟩ := scan_hexDigit hbase significant c hhex hlt
    have hcons : baseVal base n (c :: ds) = baseVal base (n * base + hexDigitVal c) ds := rfl
    rw [strToIntLoop, if_neg hc0, hscan]
    by_cases hskip : significant = false ∧ c = 0x30
    · obtain ⟨rfl, rfl⟩ := hskip
      obtain rfl := hzero rfl
      rw [Nat.zero_mul] at hcons
      exact hcons ▸ ih hrest (fun _ => rfl) (hcons ▸ hmax)
    rw [if_neg hskip]
    have hle : (n : ℤ) ≤ I.max / base := by
      refine le_trans ?_ hmax
      rw [Int.le_ediv_iff_mul_le (by omega), hcons]
      have := le_baseVal (show 0 < base by omega) (n * base + hexDigitVal c) ds
      zify at this
      omega
    have hnmax := Int.mul_le_of_le_ediv (by omega) hle
    have hnle : (n : ℤ) ≤ n * base := le_mul_of_one_le_right (by omega) (by omega)
    dsimp only
    rw [I.wrap_of_mem hbits (hmin.trans (by omega)) (hnle.trans hnmax), if_neg (by omega), hcons,
      show (n : ℤ) * base + hexDigitVal c = ((n * base + hexDigitVal c : ℕ) : ℤ) by push_cast; rfl]
    exact ih hrest (by simp) (hcons ▸ hmax)

theorem strToInt_baseVal (j : ℕ) (neg : Bool) (hbits : 0 < I.bits)
    (hbase : base = 8 ∨ base = 10 ∨ base = 16) (hneg : neg = true → base = 10) (hne : ds ≠ [])
    (hds : ∀ c ∈ ds, Ascii.isHexDigit c = true ∧ hexDigitVal c < base)
    (hmax : (baseVal base 0 ds : ℤ) / base ≤ I.max / base) :
    strToInt I (replicate j 0x20 ++ ((if neg then [0x2D] else []) ++ ds)) base 0x2C =
      some (I.wrap (if neg then -(baseVal base 0 ds : ℤ) else baseVal base 0 ds)) := by
  have hloop := @strToIntLoop_baseVal _ _ hbits hbase ds false 0 hds (fun _ => rfl) hmax
  rw [Nat.cast_zero, I.wrap_zero hbits] at hloop
  rw [strToInt, dropWhile_append_of_pos (by simp [isspace])]
  cases neg with
  | true =>
    obtain rfl := hneg rfl
    simp [isspace, hloop, ← I.wrap_neg_wrap (baseVal 10 0 ds)]
  | false =>
    obtain ⟨c, ds, rfl⟩ := exists_cons_of_ne_nil hne
    obtain ⟨hhex, hlt⟩ := hds c mem_cons_self
    obtain ⟨⟨h0, hspc, hmin, hplus⟩, -⟩ := scan_hexDigit hbase false c hhex hlt
    simp [hspc, h0, hmin, hplus, hloop]

/-- The digits of a number, after zeros. -/
theorem digitsOf_spec (hbase : 2 ≤ base) (hbase' : base ≤ 16) (m k : ℕ) :
    let ds := ((digitsOf base m ++ replicate k 0).map digitChar).reverse
    ds ≠ [] ∧ (∀ c ∈ ds, Ascii.isHexDigit c = true ∧ hexDigitVal c < base) ∧
      baseVal base 0 ds = m := by
  have key : ∀ d < 16, Ascii.isHexDigit (digitChar d) = true ∧ hexDigitVal (digitChar d) = d := by
    decide
  have hlt : ∀ d ∈ digitsOf base m ++ replicate k 0, d < base := by
    intro d hd
    rcases mem_append.mp hd with hd | hd
    · exact digitsOf_lt hbase hd
    · rw [(mem_replicate.mp hd).2]
      omega
  refine ⟨by simp [digitsOf], ?_, ?_⟩
  · intro c hc
    obtain ⟨d, hd, rfl⟩ := mem_map.mp (mem_reverse.mp hc)
    obtain ⟨hhex, hval⟩ := key d ((hlt d hd).trans_le hbase')
    exact ⟨hhex, hval.symm ▸ hlt d hd⟩
  · refine (foldl_digitChar fun d hd => (key d ((hlt d hd).trans_le hbase')).2).trans ?_
    rw [Nat.ofDigits_append_replicate_zero, ofDigits_digitsOf]

theorem uIntToStrLoop_eq (h : value < n) :
    uIntToStrLoop 16 n value = (digitsOf 16 value).map digitChar := by
  induction n generalizing value with
  | zero => omega
  | succ n ih =>
    rw [uIntToStrLoop, digitsOf, map_cons, show value - value / 16 * 16 = value % 16 by omega]
    congr 1
    split
    · next h0 => simp [h0]
    · rw [ih (by omega), digitsOf_of_ne_zero (by decide) (by omega)]

theorem NumberFormatter.appendHex_spec (value : ℕ) :
    appendHex value ≠ [] ∧ (∀ c ∈ appendHex value, Ascii.isHexDigit c = true) ∧
      hexVal 0 (appendHex value) = value := by
  have heq : appendHex value = ((digitsOf 16 value ++ replicate 0 0).map digitChar).reverse := by
    simp [appendHex, uIntToStr, uIntToStrLoop_eq (Nat.lt_succ_self value)]
  obtain ⟨hne, hdigs, hval⟩ := digitsOf_spec (by decide) le_rfl value 0
  exact heq ▸ ⟨hne, fun c hc => (hdigs c hc).1, hval⟩

theorem NumberParser.tryParseHex_eq (hne : ds ≠ [])
    (hdigs : ∀ c ∈ ds, Ascii.isHexDigit c = true) (h : hexVal 0 ds < 2 ^ 32) :
    tryParseHex ds = some (hexVal 0 ds : ℤ) := by
  have key : ∀ c : UInt8, hexDigitVal c < 16 ∨ Ascii.isHexDigit c = false := by decide
  have hmax : (hexVal 0 ds : ℤ) ≤ IntType.unsigned.max := by
    rw [show IntType.unsigned.max = 4294967295 from rfl]
    omega
  have hread := @strToInt_baseVal 16 .unsigned ds 0 false (by decide) (.inr (.inr rfl)) nofun hne
    (fun c hc => ⟨hdigs c hc, (key c).resolve_right (by simp [hdigs c hc])⟩)
    (Int.ediv_le_ediv (by decide) hmax)
  exact hread.trans (congrArg some (IntType.wrap_of_mem _ (by decide) (Int.natCast_nonneg _) hmax))

end Poco
