import Poco.Hexadecimal
import Mathlib.Data.Nat.Log

/-!
# Integers as text

`intToStr` and `uIntToStr` of `Foundation/include/Poco/NumericString.h`, with all their arguments.
The characters are written from the last one to the first, and reversed at the end.  Each goes
through `Impl::Ptr`, which compares the position after it with the end of the buffer; the final
zero byte does not.

## Main definitions

* `characters`, `textLength`: the characters that are written, and their number; `signed` is
  `intToStr`.
* `toStr`: `intToStr` and `uIntToStr` with a buffer of `size` characters: the indices stored to, and
  the end of the call.

## Main results

* `digitsLoop_spec`: separators are counted in: one after every third digit.
* `toStr_fst_lt_iff`, `stores_lt_iff`: every store is inside the buffer unless the text has exactly
  its size, which leaves no room for the zero byte.
* `strToInt_toStr_iff`: a number is read back from its text.
-/

namespace Poco.NumericString

open List

/-! ### The conversion -/

/-- The arguments `prefix`, `width`, `fill` and `thSep`. -/
structure Layout where
  prefixed : Bool
  width : ℤ
  fill : UInt8
  thSep : UInt8

/-- The `do` loop: the characters it writes, and the last `tmpVal`.  A fuel above the value
suffices. -/
def digitsLoop (base : ℤ) (thSep : UInt8) : ℕ → ℕ → ℤ → Bytes × ℤ
  | 0, _, value => ([], value)
  | n + 1, thCount, value =>
    let tmpVal := value
    let value := value.tdiv base
    let c := digitTable.getD (15 + (tmpVal - value * base)).toNat 0
    let counts := thSep ≠ 0 ∧ base = 10
    let cs := if counts ∧ thCount + 1 = 3 then [c, thSep] else [c]
    let thCount := if counts ∧ thCount + 1 ≠ 3 then thCount + 1 else 0
    if value = 0 then (cs, tmpVal)
    else
      let r := digitsLoop base thSep n thCount value
      (cs ++ r.1, r.2)

/-- `while ((ptr - result) < width) *ptr++ = fill`. -/
def pad (width : ℤ) (fill : UInt8) (cs : Bytes) : Bytes :=
  cs ++ replicate (width.toNat - cs.length) fill

def characters (signed : Bool) (value : ℤ) (base : ℕ) (a : Layout) : Bytes :=
  let r := digitsLoop base a.thSep (value.natAbs + 1) 0 value
  let sign : Bytes := if signed ∧ r.2 < 0 then [0x2D] else []
  let pre : Bytes :=
    if a.prefixed ∧ base = 8 then [0x30] else if a.prefixed ∧ base = 16 then [0x78, 0x30] else []
  if a.fill = 0x30 then
    pad (IntType.int.wrap (a.width - sign.length - pre.length)) a.fill r.1 ++ pre ++ sign
  else pad a.width a.fill (r.1 ++ pre ++ sign)

inductive Result where
  | refused
  | rangeException
  | formatted (text : Bytes)

/-- `*ptr++ = c` for each of the characters: the indices stored to, and whether they fit. -/
def storeAll (size : ℕ) : ℕ → Bytes → List ℕ × Bool
  | _, [] => ([], true)
  | cur, _ :: cs =>
    if cur + 1 > size then ([], false)
    else
      let r := storeAll size (cur + 1) cs
      (cur :: r.1, r.2)

def swapLoop : ℕ → ℕ → ℕ → List ℕ
  | 0, _, _ => []
  | n + 1, ptrr, ptr => if ptrr < ptr then ptr :: ptrr :: swapLoop n (ptrr + 1) (ptr - 1) else []

def toStr (signed : Bool) (value : ℤ) (base size : ℕ) (a : Layout) : List ℕ × Result :=
  if base < 2 ∨ base > 16 then ([0], .refused)
  else
    let cs := characters signed value base a
    let r := storeAll size 0 cs
    if r.2 then (r.1 ++ cs.length :: swapLoop cs.length 0 (cs.length - 1), .formatted cs.reverse)
    else (r.1, .rangeException)

/-- `POCO_MAX_INT_STRING_LEN`, the size of the buffer if the text is wanted as a `std::string`. -/
def POCO_MAX_INT_STRING_LEN : ℕ := 65

/-! ### The length of the text -/

def textLength (signed : Bool) (value : ℤ) (base : ℕ) (a : Layout) : ℕ :=
  let digits := Nat.log base value.natAbs + 1
  let digits := digits + if a.thSep ≠ 0 ∧ base = 10 then digits / 3 else 0
  let sign : ℕ := if signed ∧ value < 0 then 1 else 0
  let pre : ℕ := if a.prefixed ∧ base = 8 then 1 else if a.prefixed ∧ base = 16 then 2 else 0
  if a.fill = 0x30 then max digits (IntType.int.wrap (a.width - sign - pre)).toNat + pre + sign
  else max (digits + pre + sign) a.width.toNat

variable {size cur base : ℕ}

theorem digitsLoop_spec (sep : UInt8) (n : ℕ) {t : ℕ} (ht : t < 3) (v : ℤ) :
    (digitsLoop base sep n t v).2 = (intToStrLoop base n v).2 ∧
      (digitsLoop base sep n t v).1.length = (intToStrLoop base n v).1.length +
        if sep ≠ 0 ∧ base = 10 then (t + (intToStrLoop base n v).1.length) / 3 else 0 := by
  have hcast : (base : ℤ) = 10 ↔ base = 10 := by omega
  induction n generalizing t v with
  | zero =>
    refine ⟨rfl, ?_⟩
    simp only [digitsLoop, intToStrLoop, length_nil]
    split_ifs <;> omega
  | succ n ih =>
    simp only [digitsLoop, intToStrLoop, hcast]
    by_cases hcount : sep ≠ 0 ∧ base = 10
    · simp only [eq_true hcount, true_and, if_true] at ih ⊢
      by_cases h3 : t + 1 = 3
      · obtain ⟨hsnd, hlen⟩ := ih (show 0 < 3 by decide) (v.tdiv base)
        split_ifs <;> simp [hsnd, hlen] <;> omega
      · obtain ⟨hsnd, hlen⟩ := ih (show t + 1 < 3 by omega) (v.tdiv base)
        split_ifs <;> simp [hsnd, hlen] <;> omega
    · obtain ⟨hsnd, hlen⟩ := ih (show 0 < 3 by decide) (v.tdiv base)
      simp only [eq_false hcount, false_and, if_false] at hlen ⊢
      split_ifs <;> simp [hsnd, hlen]

theorem length_intToStrLoop (hbase : 2 ≤ base) (hbase' : base ≤ 16) (v : ℤ) :
    (intToStrLoop base (v.natAbs + 1) v).1.length = Nat.log base v.natAbs + 1 := by
  rw [(intToStrLoop_eq hbase hbase' (Nat.lt_succ_self v.natAbs)).1, length_map]
  by_cases hv : v.natAbs = 0
  · simp [hv, digitsOf]
  · rw [digitsOf_of_ne_zero hbase hv, Nat.length_digits _ _ (by omega) hv]

theorem length_pad (width : ℤ) (fill : UInt8) (cs : Bytes) :
    (pad width fill cs).length = max cs.length width.toNat := by
  rw [pad, length_append, length_replicate]
  omega

theorem length_characters (hbase : 2 ≤ base) (hbase' : base ≤ 16) (signed : Bool) (v : ℤ)
    (a : Layout) : (characters signed v base a).length = textLength signed v base a := by
  obtain ⟨hsnd, hlen⟩ := @digitsLoop_spec base a.thSep (v.natAbs + 1) 0 (by decide) v
  have hneg := (intToStrLoop_eq hbase hbase' (Nat.lt_succ_self v.natAbs)).2
  rw [length_intToStrLoop hbase hbase', Nat.zero_add] at hlen
  have hsign : (if signed = true ∧ v < 0 then [(0x2D : UInt8)] else []).length =
      if signed = true ∧ v < 0 then 1 else 0 := by
    split_ifs <;> rfl
  have hpre : (if a.prefixed = true ∧ base = 8 then [(0x30 : UInt8)]
      else if a.prefixed = true ∧ base = 16 then [0x78, 0x30] else []).length =
      if a.prefixed = true ∧ base = 8 then 1
        else if a.prefixed = true ∧ base = 16 then 2 else 0 := by
    split_ifs <;> rfl
  simp only [characters, textLength, hsnd, hneg, ← hlen, ← hsign, ← hpre]
  split_ifs <;> simp only [length_append, length_pad]

/-- Only in base 2 a number of 64 bits has more than 41 digits. -/
theorem log_cases {n : ℕ} (hbase : 2 ≤ base) (hn : n < 2 ^ 64) : base ≠ 2 ∧ Nat.log base n < 41 ∨
    base = 2 ∧ Nat.log base n < 64 ∧ (63 ≤ Nat.log base n ↔ 2 ^ 63 ≤ n) := by
  by_cases h2 : base = 2
  · subst h2
    refine .inr ⟨rfl, Nat.log_lt_of_lt_pow' (by decide) hn, ?_⟩
    by_cases h0 : n = 0
    · simp [h0]
    · exact Nat.le_log_iff_pow_le (by decide) h0
  · refine .inl ⟨h2, Nat.log_lt_of_lt_pow' (by decide) (hn.trans_le ?_)⟩
    exact (show 2 ^ 64 ≤ 3 ^ 41 by decide).trans (Nat.pow_le_pow_left (by omega) 41)

/-- The texts that fill the buffer of a `std::string`: those padded to its size, and the smallest
value of 64 bits in base 2.  One less than the smallest width is a large one. -/
theorem textLength_eq_iff {signed : Bool} {v : ℤ} {a : Layout} (hbase : 2 ≤ base)
    (hlo : -2 ^ 63 ≤ v) (hhi : v < 2 ^ 64) (hv : v < 0 → signed = true)
    (hw : -2 ^ 31 ≤ a.width) (hw' : a.width < 2 ^ 31) :
    textLength signed v base a = POCO_MAX_INT_STRING_LEN ↔ a.width = POCO_MAX_INT_STRING_LEN ∨
      v = -2 ^ 63 ∧ base = 2 ∧ a.width < POCO_MAX_INT_STRING_LEN ∧
        ¬ (a.fill = 0x30 ∧ a.width = -2 ^ 31) := by
  have hwrap : ∀ z, IntType.int.wrap z = (z + 2 ^ 31) % 2 ^ 32 - 2 ^ 31 := fun _ => rfl
  have hsign : (if signed = true ∧ v < 0 then 1 else 0) = if v < 0 then 1 else 0 := by
    simp only [and_iff_right_of_imp hv]
  have hlog := log_cases (n := v.natAbs) hbase (by omega)
  simp only [textLength, hwrap, hsign, POCO_MAX_INT_STRING_LEN]
  by_cases hfill : a.fill = 0x30
  · simp only [hfill, if_true, true_and]
    split_ifs <;> omega
  · simp only [hfill, if_false, false_and, not_false_eq_true, and_true]
    split_ifs <;> omega

/-! ### What is stored to -/

theorem storeAll_spec : (∀ i ∈ (storeAll size cur cs).1, i < size) ∧
    ((storeAll size cur cs).2 = true ↔ cs = [] ∨ cur + cs.length ≤ size) := by
  induction cs generalizing cur with
  | nil => simp [storeAll]
  | cons c cs ih =>
    obtain ⟨hlt, hfit⟩ := @ih (cur + 1)
    rw [storeAll]
    split
    · simp
      omega
    · refine ⟨?_, hfit.trans ?_⟩
      · intro i hi
        rcases mem_cons.mp hi with rfl | hi
        · omega
        · exact hlt i hi
      · cases cs <;> simp <;> omega

theorem lt_of_mem_swapLoop (h : i ∈ swapLoop n ptrr ptr) : i < ptr + 1 ∧ 0 < ptr := by
  induction n generalizing ptrr ptr with
  | zero => cases h
  | succ n ih =>
    rw [swapLoop] at h
    split at h
    · rcases mem_cons.mp h with rfl | h
      · omega
      rcases mem_cons.mp h with rfl | h
      · omega
      · have := ih h
        omega
    · cases h

theorem toStr_fst_lt_iff (signed : Bool) (value : ℤ) (a : Layout) (size : ℕ) (hbase : 2 ≤ base)
    (hbase' : base ≤ 16) : (∀ i ∈ (toStr signed value base size a).1, i < size) ↔
      textLength signed value base a ≠ size := by
  rw [toStr, if_neg (by omega), ← length_characters hbase hbase']
  generalize characters signed value base a = cs
  obtain ⟨hlt, hfit⟩ := @storeAll_spec size 0 cs
  dsimp only
  split
  · next hr =>
    have hle : cs.length ≤ size := by
      rcases hfit.mp hr with rfl | h
      · exact Nat.zero_le _
      · omega
    refine ⟨fun h => (h cs.length (by simp)).ne, fun hne i hi => ?_⟩
    rcases mem_append.mp hi with hi | hi
    · exact hlt i hi
    rcases mem_cons.mp hi with rfl | hi
    · omega
    · have := lt_of_mem_swapLoop hi
      omega
  · next hr =>
    refine iff_of_true hlt fun hlen => hr (hfit.mpr (.inr ?_))
    omega

/-- **Every store is inside the buffer** unless the text has exactly its size.  For a `std::string`
this is a width of 65, or the smallest value of 64 bits in base 2. -/
theorem stores_lt_iff (signed : Bool) (value : ℤ) (a : Layout) (hbase : 2 ≤ base)
    (hbase' : base ≤ 16) :
    (∀ size, (∀ i ∈ (toStr signed value base size a).1, i < size) ↔
      textLength signed value base a ≠ size) ∧
    (-2 ^ 63 ≤ value → value < 2 ^ 64 → (value < 0 → signed = true) →
      -2 ^ 31 ≤ a.width → a.width < 2 ^ 31 →
      ((∀ i ∈ (toStr signed value base POCO_MAX_INT_STRING_LEN a).1, i < POCO_MAX_INT_STRING_LEN) ↔
        ¬ (a.width = POCO_MAX_INT_STRING_LEN ∨
          value = -2 ^ 63 ∧ base = 2 ∧ a.width < POCO_MAX_INT_STRING_LEN ∧
            ¬ (a.fill = 0x30 ∧ a.width = -2 ^ 31)))) := by
  refine ⟨fun size => toStr_fst_lt_iff signed value a size hbase hbase', ?_⟩
  intro hlo hhi hneg hw hw'
  rw [toStr_fst_lt_iff signed value a _ hbase hbase', Ne,
    textLength_eq_iff hbase hlo hhi hneg hw hw']

/-- The smallest value of 64 bits in base 2 in a buffer of 66 characters, and the number 255 in
base 16, with a prefix and ten characters wide, in that of a `std::string`. -/
theorem stores_lt_min :
    (toStr true (-2 ^ 63) 2 66 ⟨false, -1, 0x20, 0⟩).1.all (· < 66) = true ∧
      (toStr false 255 16 POCO_MAX_INT_STRING_LEN ⟨true, 10, 0x30, 0⟩).1.all
        (· < POCO_MAX_INT_STRING_LEN) = true := by
  have h := (@stores_lt_iff 2 true (-2 ^ 63) ⟨false, -1, 0x20, 0⟩ (by decide) (by decide)).1 66
  have h' := (@stores_lt_iff 16 false 255 ⟨true, 10, 0x30, 0⟩ (by decide) (by decide)).2
    (by decide) (by decide) (by decide) (by decide) (by decide)
  refine ⟨?_, ?_⟩
  · simpa using h.mpr (by decide +kernel)
  · simpa using h'.mpr (by decide)

/-- The smallest value of 64 bits in base 2, and a width of 65. -/
theorem stores_outside :
    65 ∈ (toStr true (-2 ^ 63) 2 POCO_MAX_INT_STRING_LEN ⟨false, -1, 0x20, 0⟩).1 ∧
      65 ∈ (toStr true 1 10 POCO_MAX_INT_STRING_LEN ⟨false, 65, 0x20, 0⟩).1 := by
  decide

/-! ### Reading the text -/

variable {v : ℤ} {I : IntType}

/-- Without separators the loop is that of `NumberFormatter::format`. -/
theorem digitsLoop_eq (n : ℕ) (v : ℤ) : digitsLoop base 0 n 0 v = intToStrLoop base n v := by
  induction n generalizing v with
  | zero => rfl
  | succ n ih => simp [digitsLoop, intToStrLoop, ih]

variable {signed : Bool} {width : ℤ} {fill : UInt8}

/-- Without a prefix and separators, digits and the sign are written. -/
theorem characters_eq (hbase : 2 ≤ base) (hbase' : base ≤ 16) (hv : v < 0 → signed = true) :
    characters signed v base ⟨false, width, fill, 0⟩ =
      let cs := (digitsOf base v.natAbs).map digitChar
      let sign := if v < 0 then [0x2D] else []
      if fill = 0x30 then pad (IntType.int.wrap (width - sign.length)) fill cs ++ sign
      else pad width fill (cs ++ sign) := by
  obtain ⟨hcs, hneg⟩ := intToStrLoop_eq hbase hbase' (Nat.lt_succ_self v.natAbs)
  have hsign : (signed = true ∧ (intToStrLoop base (v.natAbs + 1) v).2 < 0) = (v < 0) :=
    propext ((and_congr_right fun _ => hneg).trans (and_iff_right_of_imp hv))
  simp [characters, digitsLoop_eq, hcs, hsign]

theorem length_characters_le (hbase : 8 ≤ base) (hbase' : base ≤ 16) (hv : v < 0 → signed = true)
    (hsize : v.natAbs < 2 ^ 64) (hlo : -2 ^ 31 ≤ width) (hhi : width ≤ 60) :
    (characters signed v base ⟨false, width, fill, 0⟩).length ≤ 65 ↔
      ¬ (v < 0 ∧ fill = 0x30 ∧ width = -2 ^ 31) := by
  have hwrap : ∀ z, IntType.int.wrap z = (z + 2 ^ 31) % 2 ^ 32 - 2 ^ 31 := fun _ => rfl
  have hlog : Nat.log base v.natAbs < 22 := by
    refine Nat.log_lt_of_lt_pow' (by decide) (hsize.trans_le ?_)
    exact (show 2 ^ 64 ≤ 8 ^ 22 by decide).trans (Nat.pow_le_pow_left hbase 22)
  rw [length_characters (by omega) hbase']
  simp only [textLength, hwrap, and_iff_right_of_imp hv, ne_eq, not_true_eq_false,
    Bool.false_eq_true, false_and, if_false]
  by_cases hfill : fill = 0x30
  · simp only [hfill, if_true, true_and]
    split_ifs <;> omega
  · simp only [hfill, if_false, false_and, and_false, not_false_eq_true, iff_true]
    split_ifs <;> omega

theorem reverse_pad (width : ℤ) (fill : UInt8) (cs : Bytes) :
    ∃ k, (pad width fill cs).reverse = replicate k fill ++ cs.reverse :=
  ⟨width.toNat - cs.length, by simp [pad]⟩

/-- The digits are read with the sign, after blanks or zeros. -/
theorem strToInt_characters (hbits : 0 < I.bits) (hbase : base = 8 ∨ base = 10 ∨ base = 16)
    (hneg : v < 0 → signed = true ∧ base = 10) (hfill : fill = 0x30 ∨ fill = 0x20)
    (hmax : (v.natAbs : ℤ) / base ≤ I.max / base) :
    strToInt I (characters signed v base ⟨false, width, fill, 0⟩).reverse base 0x2C =
      some (I.wrap v) := by
  choose pads hpads using reverse_pad
  have htext : ∃ j k, (characters signed v base ⟨false, width, fill, 0⟩).reverse =
      replicate j 0x20 ++ ((if decide (v < 0) then [0x2D] else []) ++
        ((digitsOf base v.natAbs ++ replicate k 0).map digitChar).reverse) := by
    have hzero : digitChar 0 = 0x30 := rfl
    rw [characters_eq (by omega) (by omega) fun h => (hneg h).1]
    rcases hfill with rfl | rfl
    · rw [if_pos rfl, reverse_append, hpads]
      generalize pads _ _ _ = k
      refine ⟨0, k, ?_⟩
      by_cases hv : v < 0 <;> simp [hv, hzero]
    · rw [if_neg (by decide), hpads, reverse_append]
      generalize pads _ _ _ = j
      refine ⟨j, 0, ?_⟩
      by_cases hv : v < 0 <;> simp [hv]
  obtain ⟨j, k, htext⟩ := htext
  obtain ⟨hne, hds, hval⟩ := @digitsOf_spec base (by omega) (by omega) v.natAbs k
  rw [htext, strToInt_baseVal j _ hbits hbase (fun h => (hneg (of_decide_eq_true h)).2) hne hds]
  · rw [hval]
    congr 2
    simp only [decide_eq_true_eq]
    split <;> omega
  · rwa [hval]

theorem toStr_snd (hbase : 2 ≤ base) (hbase' : base ≤ 16) (a : Layout) :
    (toStr signed v base size a).2 = if (characters signed v base a).length ≤ size then
      .formatted (characters signed v base a).reverse else .rangeException := by
  have hfit := (@storeAll_spec size 0 (characters signed v base a)).2
  rw [toStr, if_neg (by omega)]
  dsimp only
  split_ifs <;> simp_all

/-- **A number is read back from its text.**  There is an exception: the smallest width is one too
many for a negative number that is filled with zeros. -/
theorem strToInt_toStr_iff (hbits : 8 ≤ I.bits) (hbits' : I.bits ≤ 64) (hv : I.min ≤ v)
    (hv' : v ≤ I.max) (hbase : base = 10 ∨ I.signed = false ∧ (base = 8 ∨ base = 16))
    (hlo : -2 ^ 31 ≤ width) (hhi : width ≤ 60) (hfill : fill = 0x30 ∨ fill = 0x20) :
    (∃ s, (toStr I.signed v base POCO_MAX_INT_STRING_LEN ⟨false, width, fill, 0⟩).2 = .formatted s ∧
      strToInt I s base 0x2C = some v) ↔ ¬ (v < 0 ∧ fill = 0x30 ∧ width = -2 ^ 31) := by
  have hpow : ∀ n, (2 : ℤ) ^ n % 5 ≠ 0 := by
    intro n
    induction n with
    | zero => decide
    | succ n ih =>
      rw [pow_succ]
      omega
  have hp := hpow (I.bits - 1)
  have hhalf : (2 : ℤ) ^ I.bits = 2 ^ (I.bits - 1) * 2 := by rw [← pow_succ]; congr 1; omega
  have hle : (2 : ℤ) ^ I.bits ≤ 2 ^ 64 := pow_le_pow_right₀ (by decide) hbits'
  have hmin := hv
  unfold IntType.min at hmin
  have habs : v.natAbs < 2 ^ 64 ∧ (v < 0 → I.signed = true ∧ base = 10) := by
    unfold IntType.max at hv'
    split_ifs at hmin hv' with hs
    · exact ⟨by omega, fun _ => ⟨hs, by simpa [hs] using hbase⟩⟩
    · exact ⟨by omega, fun h => absurd hmin (by omega)⟩
  have hmax : (v.natAbs : ℤ) / base ≤ I.max / base := by
    by_cases h : v < 0
    · -- a power of two is not a multiple of ten
      obtain ⟨hs, rfl⟩ := habs.2 h
      rw [if_pos hs] at hmin
      rw [IntType.max, if_pos hs]
      omega
    · exact Int.ediv_le_ediv (by omega) (by omega)
  have hlen : (characters I.signed v base ⟨false, width, fill, 0⟩).length ≤ 65 ↔ _ :=
    length_characters_le (by omega) (by omega) (fun h => (habs.2 h).1) habs.1 hlo hhi
  rw [toStr_snd (by omega) (by omega), ← hlen]
  constructor
  · rintro ⟨s, hs, -⟩
    by_contra hlen
    rw [POCO_MAX_INT_STRING_LEN, if_neg hlen] at hs
    cases hs
  · intro hlen
    refine ⟨_, if_pos hlen, ?_⟩
    rw [strToInt_characters (by omega) (by omega) habs.2 hfill hmax,
      I.wrap_of_mem (by omega) hv hv']

/-- The smallest value of 8 bits. -/
theorem strToInt_toStr_min : ∃ s, (toStr true (-128) 10 POCO_MAX_INT_STRING_LEN
    ⟨false, 6, 0x30, 0⟩).2 = .formatted s ∧ strToInt ⟨8, true⟩ s 10 0x2C = some (-128) :=
  (strToInt_toStr_iff (I := ⟨8, true⟩) (by decide) (by decide) (by decide) (by decide) (.inl rfl)
    (by decide) (by decide) (.inl rfl)).mpr (by decide)

/-- The smallest width. -/
theorem toStr_overflow : (toStr true (-1) 10 POCO_MAX_INT_STRING_LEN
    ⟨false, -2 ^ 31, 0x30, 0⟩).2 = .rangeException := by
  rw [toStr_snd (by decide) (by decide), if_neg]
  rw [POCO_MAX_INT_STRING_LEN, length_characters_le (by decide) (by decide) (fun _ => rfl)
    (by decide) le_rfl (by decide)]
  decide

end Poco.NumericString
