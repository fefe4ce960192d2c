import Poco.Hexadecimal

/-!
# When a number is read as what it denotes

`strToInt` in base 10 and 16, with the default thousand separator.  After a significant digit an
`x` is read as if it were one.

## Main definitions

* `denoted`: the number that a text denotes, if it has digits and nothing but digits: those up to a
  character that ends the number, without the separators and without the prefix `0x`.
* `Stops`: a character where the loop returns `false`: it is not one that is read, or what stands
  before it has, in the type, a value above the bound of the overflow test.
* `Rejected`: a text that is rejected: it is blank, or the loop is stopped.

## Main results

* `strToIntLoop_eq`, `strToInt_eq`: the loop is stopped, or it adds up the characters from the first
  significant digit on.
* `charsVal_of_denoted`: what is read is what is denoted.
* `strToInt_exact_iff`: when a number is read exactly.
-/

namespace Poco.NumericString

open List

def isDigit (base : ℕ) (c : UInt8) : Bool := if base = 16 then Ascii.isHexDigit c else isDecDigit c

/-- The end of the text, a suffix `U` or `L`, and white space end a number. -/
def isEnd (c : UInt8) : Bool := c = 0 || c ∈ [0x55, 0x75, 0x4C, 0x6C] || isspace c

/-- The characters of a number, without the separators of base 10. -/
def numeral (base : ℕ) (s : Bytes) : Bytes :=
  (s.takeWhile (!isEnd ·)).filter fun c => base = 16 || c != 0x2C

/-- Whether a text has a minus sign, and what stands after its sign. -/
def body (base : ℕ) (s : Bytes) : Bool × Bytes :=
  match s.dropWhile isspace with
  | [] => (false, [])
  | c :: t =>
    if base = 10 ∧ c = 0x2D then (true, t) else if c = 0x2B then (false, t) else (false, c :: t)

/-- A text without the prefix `0x` in base 16. -/
def afterPrefix (base : ℕ) (t : Bytes) : Bytes :=
  if base = 16 ∧ t.take 2 ∈ [[0x30, 0x78], [0x30, 0x58]] then t.drop 2 else t

/-- The value of digits after others of the value `z`. -/
def value (base : ℕ) (z : ℤ) (ds : Bytes) : ℤ :=
  ds.foldl (fun z c => z * base + hexDigitVal c) z

def signed (neg : Bool) (z : ℤ) : ℤ := if neg then -z else z

def denoted (base : ℕ) (s : Bytes) : Option ℤ :=
  let ds := numeral base (afterPrefix base (body base s).2)
  if ds ≠ [] ∧ ∀ c ∈ ds, isDigit base c = true then some (signed (body base s).1 (value base 0 ds))
  else none

/-- In base 16 the loop reads an `x` too. -/
def isRead (base : ℕ) (c : UInt8) : Bool :=
  isDigit base c || base = 16 && (c = 0x78 || c = 0x58)

def charVal (c : UInt8) : ℤ := if c = 0x78 ∨ c = 0x58 then c.toNat - 48 else hexDigitVal c

/-- The value of characters that are read after others of the value `z`. -/
def charsVal (base : ℕ) (z : ℤ) (cs : Bytes) : ℤ :=
  cs.foldl (fun z c => z * base + charVal c) z

/-- Zeros before the first significant digit count for nothing, and so does an `x`. -/
def isLeading (base : ℕ) (c : UInt8) : Bool := c = 0x30 || base = 16 && (c = 0x78 || c = 0x58)

def Stops (I : IntType) (base : ℕ) (z : ℤ) (cs : Bytes) : Prop :=
  ∃ n < cs.length, isRead base (cs.getD n 0) = false ∨
    I.wrap (charsVal base z (cs.take n)) > I.max / base

instance (I : IntType) (base : ℕ) (z : ℤ) (cs : Bytes) : Decidable (Stops I base z cs) :=
  inferInstanceAs (Decidable (∃ n < cs.length, _))

/-- The characters of a text from the first significant digit on. -/
def significantPart (base : ℕ) (s : Bytes) : Bytes :=
  (numeral base (body base s).2).dropWhile (isLeading base)

def Rejected (I : IntType) (base : ℕ) (s : Bytes) : Prop :=
  (s.dropWhile isspace).head?.getD 0 = 0 ∨ Stops I base 0 (significantPart base s)

instance (I : IntType) (base : ℕ) (s : Bytes) : Decidable (Rejected I base s) :=
  inferInstanceAs (Decidable (_ ∨ _))

variable {base : ℕ} {I : IntType} {z : ℤ} {s ds : Bytes}

/-- What the loop does with a character: one that ends a number, a separator, one that is read, and
any other. -/
theorem scan_cases (hbase : base = 10 ∨ base = 16) (significant : Bool) : ∀ c : UInt8,
    (isEnd c = true → c = 0 ∨ scan base 0x2C significant c = .done) ∧
    (base = 10 → c = 0x2C → scan base 0x2C significant c = .skip) ∧
    (isRead base c = true → scan base 0x2C significant c =
      if significant = false ∧ isLeading base c = true then .skip else .digit (charVal c)) ∧
    (isLeading base c = true → isRead base c = true) ∧
    (isEnd c = false → ¬ (base = 10 ∧ c = 0x2C) → isRead base c = false →
      scan base 0x2C significant c = .fail) := by
  rcases hbase with rfl | rfl <;> cases significant <;> (apply Bytes.forall_of_digits; decide)

theorem numeral_cons (hc : isEnd c = false) (s : Bytes) : numeral base (c :: s) =
    if base = 16 ∨ c ≠ 0x2C then c :: numeral base s else numeral base s := by
  simp [numeral, hc, filter_cons]

theorem stops_cons {c : UInt8} {cs : Bytes} : Stops I base z (c :: cs) ↔
    isRead base c = false ∨ I.wrap z > I.max / base ∨ Stops I base (z * base + charVal c) cs := by
  rw [Stops, length_cons, Nat.exists_lt_succ_left, or_assoc]
  rfl

/-- The characters that count, after a significant digit or before it. -/
def counted (base : ℕ) (significant : Bool) (cs : Bytes) : Bytes :=
  if significant then cs else cs.dropWhile (isLeading base)

theorem strToIntLoop_eq (hbase : base = 10 ∨ base = 16) :
    ∀ {s : Bytes} {significant : Bool} {z : ℤ}, (significant = false → z = 0) →
    strToIntLoop I base 0x2C significant (I.wrap z) s =
      if Stops I base z (counted base significant (numeral base s)) then none
      else some (I.wrap (charsVal base z (counted base significant (numeral base s)))) := by
  intro s
  induction s with
  | nil =>
    intro significant z _
    cases significant <;> simp [strToIntLoop, numeral, counted, Stops, charsVal]
  | cons c s ih =>
    intro significant z hz
    obtain ⟨hend, hsep, hread, hlead, hfail⟩ := scan_cases hbase significant c
    rw [strToIntLoop]
    cases hc : isEnd c with
    | true =>
      have hnil : counted base significant (numeral base (c :: s)) = [] := by
        cases significant <;> simp [numeral, counted, hc]
      have hstop : ¬ Stops I base z [] := by simp [Stops]
      rw [hnil, if_neg hstop]
      rcases hend hc with h0 | hscan
      · exact if_pos h0
      · rw [hscan]
        exact ite_self _
    | false =>
      have h0 : c ≠ 0 := by
        rintro rfl
        cases hc
      rw [if_neg h0, numeral_cons hc]
      by_cases hsp : base = 10 ∧ c = 0x2C
      · obtain ⟨rfl, rfl⟩ := hsp
        rw [hsep rfl rfl]
        exact ih hz
      have hkeep : base = 16 ∨ c ≠ 0x2C := by
        rcases hbase with rfl | rfl
        · exact .inr fun h => hsp ⟨rfl, h⟩
        · exact .inl rfl
      rw [if_pos hkeep]
      by_cases hskip : significant = false ∧ isLeading base c = true
      · rw [hread (hlead hskip.2), if_pos hskip]
        obtain ⟨rfl, hlc⟩ := hskip
        have hdrop : counted base false (c :: numeral base s)
            = counted base false (numeral base s) :=
          dropWhile_cons_of_pos hlc
        rw [hdrop]
        exact ih hz
      · -- a character that counts, whether or not there was one before
        have hcs : counted base significant (c :: numeral base s) = c :: numeral base s := by
          cases significant with
          | true => rfl
          | false => exact dropWhile_cons_of_neg fun h => hskip ⟨rfl, h⟩
        rw [hcs]
        cases hr : isRead base c with
        | false => rw [hfail hc hsp hr, if_pos (stops_cons.mpr (.inl hr))]
        | true =>
          rw [hread hr, if_neg hskip]
          dsimp only
          rw [I.wrap_mul_add_wrap, ih (by simp)]
          by_cases hov : I.wrap z > I.max / base
          · rw [if_pos hov, if_pos (stops_cons.mpr (.inr (.inl hov)))]
          · rw [if_neg hov]
            simp only [stops_cons, hr, hov, Bool.true_eq_false, false_or]
            rfl

theorem strToInt_eq (hbits : 0 < I.bits) (hbase : base = 10 ∨ base = 16) (s : Bytes) :
    strToInt I s base 0x2C = if Rejected I base s then none
      else some (I.wrap (signed (body base s).1 (charsVal base 0 (significantPart base s)))) := by
  have hloop := fun t => @strToIntLoop_eq base I hbase t false 0 fun _ => rfl
  rw [I.wrap_zero hbits] at hloop
  cases hs : s.dropWhile isspace with
  | nil => simp [strToInt, Rejected, hs]
  | cons c t =>
    by_cases h0 : c = 0
    · simp [strToInt, Rejected, hs, h0]
    have hrej : Rejected I base s ↔ Stops I base 0 (significantPart base s) := by
      simp [Rejected, hs, h0]
    simp only [hrej, strToInt, significantPart, body, hs, h0, if_false, hloop, counted]
    have hneg : ∀ a, I.wrap (-I.wrap a) = I.wrap (-a) := by
      intro a
      rw [← I.wrap_neg_wrap a, mul_neg_one]
    split_ifs <;> simp_all [signed]

theorem ne_x_of_isDigit {c : UInt8} (h : isDigit base c = true) : c ≠ 0x78 ∧ c ≠ 0x58 := by
  have key : ∀ c, (isDecDigit c = true → c ≠ 0x78 ∧ c ≠ 0x58) ∧
    (Ascii.isHexDigit c = true → c ≠ 0x78 ∧ c ≠ 0x58) := by decide
  rw [isDigit] at h
  split_ifs at h
  · exact (key c).2 h
  · exact (key c).1 h

theorem charsVal_of_digits (h : ∀ c ∈ ds, isDigit base c = true) (z : ℤ) :
    charsVal base z ds = value base z ds := by
  refine foldl_ext _ _ _ fun a c hc => ?_
  rw [charVal, if_neg (not_or.mpr (ne_x_of_isDigit (h c hc)))]

/-- Of digits, those that do not count are zeros. -/
theorem charsVal_dropWhile (h : ∀ c ∈ ds, isDigit base c = true) :
    charsVal base 0 (ds.dropWhile (isLeading base)) = value base 0 ds := by
  induction ds with
  | nil => rfl
  | cons c ds ih =>
    obtain ⟨hc, hds⟩ := forall_mem_cons.mp h
    rw [dropWhile_cons]
    split_ifs with hlead
    · have hzero : c = 0x30 := by simpa [isLeading, ne_x_of_isDigit hc] using hlead
      rw [ih hds, hzero]
      simp [value, hexDigitVal]
    · exact charsVal_of_digits h 0

theorem dropWhile_numeral_afterPrefix (t : Bytes) :
    (numeral base (afterPrefix base t)).dropWhile (isLeading base) =
      (numeral base t).dropWhile (isLeading base) := by
  unfold afterPrefix
  split_ifs with h
  · obtain ⟨rfl, h⟩ := h
    conv_rhs => rw [← take_append_drop 2 t]
    rcases mem_pair.mp h with h | h <;> rw [h] <;> rfl
  · rfl

theorem charsVal_of_denoted (h : denoted base s = some z) :
    signed (body base s).1 (charsVal base 0 (significantPart base s)) = z := by
  rw [denoted] at h
  split_ifs at h with hds
  rw [significantPart, ← dropWhile_numeral_afterPrefix, charsVal_dropWhile hds.2]
  exact Option.some.inj h

/-- **When a number is read exactly**: a text that is not rejected is read as the number it denotes
just if it denotes one and the type can hold it. -/
theorem strToInt_exact_iff (hbits : 0 < I.bits) (hbase : base = 10 ∨ base = 16) :
    (∀ v, strToInt I s base 0x2C = some v → denoted base s = some v) ↔
      (Rejected I base s ∨ ∃ v, denoted base s = some v ∧ I.min ≤ v ∧ v ≤ I.max) := by
  rw [strToInt_eq hbits hbase]
  by_cases hrej : Rejected I base s
  · simp [hrej]
  simp only [hrej, if_false, false_or, Option.some.injEq, forall_eq']
  constructor
  · intro h
    refine ⟨_, h, ?_⟩
    exact I.wrap_mem hbits _
  · rintro ⟨z, hz, hlo, hhi⟩
    rw [charsVal_of_denoted hz, I.wrap_of_mem hbits hlo hhi, hz]

/-- The text `127` is read as the largest value of 8 bits, and `300` is rejected. -/
theorem strToInt_exact_max : denoted 10 [0x31, 0x32, 0x37] = some 127 ∧
    ∀ v, strToInt ⟨8, true⟩ [0x33, 0x30, 0x30] 10 0x2C = some v →
      denoted 10 [0x33, 0x30, 0x30] = some v :=
  ⟨(strToInt_exact_iff (I := ⟨8, true⟩) (by decide) (.inl rfl)).mpr
      (.inr ⟨127, by decide, by decide, by decide⟩) 127 (by decide),
    (strToInt_exact_iff (by decide) (.inl rfl)).mpr (.inl (by decide))⟩

/-- In 8 bits `256` is read as 0 and `-1` as 255, `U` as 0 without a digit, and `1x` in base 16 as
88. -/
theorem strToInt_not_exact :
    strToInt ⟨8, false⟩ [0x32, 0x35, 0x36] 10 0x2C = some 0 ∧
      denoted 10 [0x32, 0x35, 0x36] = some 256 ∧
    strToInt ⟨8, false⟩ [0x2D, 0x31] 10 0x2C = some 255 ∧ denoted 10 [0x2D, 0x31] = some (-1) ∧
    strToInt ⟨8, false⟩ [0x55] 10 0x2C = some 0 ∧ denoted 10 [0x55] = none ∧
    strToInt ⟨8, false⟩ [0x31, 0x78] 16 0x2C = some 88 ∧ denoted 16 [0x31, 0x78] = none := by
  decide

end Poco.NumericString
