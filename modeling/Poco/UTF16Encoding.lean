import Poco.BinaryStream
import Poco.Lib.Utf8

/-!
# UTF-16 and UTF-32

`UTF16Encoding` and `UTF32Encoding` of `Foundation/src`.  A character is one or two units, numbers
of two or four bytes that are copied between a variable and the text.  The byte order is set as
that of a stream.  Units are written with their bytes reversed if `_flipBytes` is set; where they
are read, the value of `ByteOrder::flipBytes` is dropped, and so they are not reversed again.

## Main definitions

* `convert`, `write`: `convert` of bytes, none if it reads beyond them, and of a character.
* `Symmetric`: the units are the same in both byte orders, if the bytes are flipped.
* `Returns`: what is written into a buffer that is long enough is read as the character it was.
* `Above`: a high surrogate and a unit above the surrogates.

## Main results

* `returns_units`: a character is read back just if no unit of it is changed by the byte order.
* `malformed_iff`: `queryConvert` lets the pairs `Above` pass.
* `returns_iff`: which characters are read back, and which pairs are found malformed.
-/

namespace Poco

open List Bytes BinaryWriter

namespace TextEncoding

/-- The bytes of a unit are copied into a variable, if there are so many. -/
def readUnit (π : Platform) (order : StreamByteOrder) (k : ℕ) (bytes : Bytes) : Option ℕ :=
  if k ≤ bytes.length then
    let uc := π.load (bytes.take k)
    -- `ByteOrder::flipBytes(uc)` is a statement of its own
    let _ := if π.flipBytes order then ByteOrder.flipBytes k uc else uc
    some uc
  else none

def stored (π : Platform) (order : StreamByteOrder) (k n : ℕ) : ℕ :=
  if π.flipBytes order then ByteOrder.flipBytes k n else n

variable (π : Platform) (order : StreamByteOrder) {k n : ℕ}

theorem stored_lt (hn : n < 256 ^ k) : stored π order k n < 256 ^ k := by
  unfold stored
  split
  · exact ByteOrder.flipBytes_lt k n
  · exact hn

def Symmetric (π : Platform) (order : StreamByteOrder) (k : ℕ) (units : List ℕ) : Prop :=
  π.flipBytes order = true → ∀ w ∈ units, ByteOrder.flipBytes k w = w

theorem symmetric_iff : Symmetric π order k units ↔ ∀ w ∈ units, stored π order k w = w := by
  unfold Symmetric stored
  cases π.flipBytes order <;> simp

theorem readUnit_writeBytes (hn : n < 256 ^ k) (rest : Bytes) :
    readUnit π order k (writeBytes π order k n ++ rest) = some (stored π order k n) := by
  rw [readUnit, if_pos (by simp), take_left' (length_writeBytes ..), writeBytes, ← stored,
    π.load_store, Nat.mod_eq_of_lt (stored_lt π order hn)]

def Returns (write : ℕ → ℕ → Bytes × ℕ) (convert : Bytes → Option ℤ)
    (queryConvert : Bytes → ℕ → Option ℤ) (c : ℕ) : Prop :=
  ∀ length rest, (write c length).2 ≤ length →
    convert ((write c length).1 ++ rest) = some (c : ℤ) ∧
      queryConvert ((write c length).1 ++ rest) length = some (c : ℤ)

end TextEncoding

open TextEncoding

variable {π : Platform} {order : StreamByteOrder} {c : ℕ}

namespace UTF16Encoding

/-- The two units of a character above `0xFFFF`. -/
def w1 (ch : ℕ) : ℕ := 0xD800 + ((ch - 0x10000) >>> 10 &&& 0x3FF)

@[inherit_doc w1]
def w2 (ch : ℕ) : ℕ := 0xDC00 + (ch - 0x10000 &&& 0x3FF)

def units (ch : ℕ) : List ℕ := if ch ≤ 0xFFFF then [ch] else [w1 ch, w2 ch]

def pair (uc uc2 : ℕ) : ℕ := ((uc &&& 0x3ff) <<< 10) + (uc2 &&& 0x3ff) + 0x10000

variable (π order)

def convert (bytes : Bytes) : Option ℤ := do
  let uc ← readUnit π order 2 bytes
  if 0xd800 ≤ uc ∧ uc < 0xdc00 then
    let uc2 ← readUnit π order 2 (bytes.drop 2)
    if 0xdc00 ≤ uc2 ∧ uc2 < 0xe000 then some (pair uc uc2) else some (-1)
  else some uc

def queryConvert (bytes : Bytes) (length : ℕ) : Option ℤ := do
  if 2 ≤ length then
    let uc ← readUnit π order 2 bytes
    if 0xd800 ≤ uc ∧ uc < 0xdc00 then
      if 4 ≤ length then
        let uc2 ← readUnit π order 2 (bytes.drop 2)
        -- the second test is one of `uc`
        if 0xdc00 ≤ uc2 ∧ uc < 0xe000 then some (pair uc uc2) else some (-1)
      else some (-4)
    else some uc
  else some (-2)

def write (ch length : ℕ) : Bytes × ℕ :=
  if ch ≤ 0xFFFF then (if 2 ≤ length then writeBytes π order 2 ch else [], 2)
  else (if 4 ≤ length then writeBytes π order 2 (w1 ch) ++ writeBytes π order 2 (w2 ch) else [], 4)

variable {π order}

theorem range_w (ch : ℕ) : (0xd800 ≤ w1 ch ∧ w1 ch < 0xdc00) ∧ 0xdc00 ≤ w2 ch ∧ w2 ch < 0xe000 := by
  have h1 := @Nat.and_le_right ((ch - 0x10000) >>> 10) 0x3FF
  have h2 := @Nat.and_le_right (ch - 0x10000) 0x3FF
  rw [w1, w2]
  omega

theorem pair_eq_iff (hc : ¬ c ≤ 0xFFFF) (hmax : c ≤ 0x10FFFF)
    (hu : 0xd800 ≤ u ∧ u < 0xdc00) (hv : 0xdc00 ≤ v ∧ v < 0xe000) :
    pair u v = c ↔ u = w1 c ∧ v = w2 c := by
  have hand : ∀ x, x &&& 0x3ff = x % 1024 := fun x => Nat.and_two_pow_sub_one_eq_mod x 10
  rw [pair, w1, w2, hand, hand, hand, hand]
  omega

theorem returns_units (hc : Utf8.IsScalar c) :
    Returns (write π order) (convert π order) (queryConvert π order) c ↔
      Symmetric π order 2 (units c) := by
  rw [symmetric_iff]
  unfold Utf8.IsScalar at hc
  by_cases h : c ≤ 0xFFFF
  · have hunit : ¬ (0xd800 ≤ c ∧ c < 0xdc00) := by omega
    have hread := readUnit_writeBytes π order (show c < 256 ^ 2 by omega)
    simp only [Returns, write, units, if_pos h, forall_mem_singleton]
    constructor
    · intro hr
      obtain ⟨-, hq⟩ := hr 2 [] le_rfl
      simp only [le_refl, if_true, queryConvert, hread, Option.bind_eq_bind, Option.bind_some,
        Nat.reduceLeDiff, if_false] at hq
      split_ifs at hq
      · have := Option.some.inj hq
        omega
      · exact_mod_cast Option.some.inj hq
    · intro hw length rest hlen
      simp [hlen, convert, queryConvert, hread, hw, hunit]
  · have hpair := fun u v => pair_eq_iff (u := u) (v := v) h (by omega)
    obtain ⟨h1, h2⟩ := range_w c
    simp only [Returns, write, units, if_neg h, forall_mem_cons, not_mem_nil, false_imp_iff,
      implies_true, and_true]
    generalize w1 c = u at h1 hpair ⊢
    generalize w2 c = v at h2 hpair ⊢
    have hu : u < 256 ^ 2 := by omega
    have hdrop : ∀ rest, (writeBytes π order 2 u ++ (writeBytes π order 2 v ++ rest)).drop 2 =
        writeBytes π order 2 v ++ rest := fun rest => drop_left' (length_writeBytes ..)
    have hread1 := readUnit_writeBytes π order hu
    have hread2 := readUnit_writeBytes π order (show v < 256 ^ 2 by omega)
    constructor
    · intro hr
      obtain ⟨hq, -⟩ := hr 4 [] le_rfl
      simp only [le_refl, if_true, convert, append_assoc, hdrop, hread1, hread2,
        Option.bind_eq_bind,
        Option.bind_some] at hq
      split_ifs at hq with hu hv
      · exact (hpair _ _ hu hv).mp (by exact_mod_cast Option.some.inj hq)
      · have := Option.some.inj hq
        omega
      · have heq := Option.some.inj hq
        have hlt := stored_lt π order ‹u < 256 ^ 2›
        omega
    · rintro ⟨hw1, hw2⟩ length rest hlen
      have hp := (hpair u v h1 h2).mpr ⟨rfl, rfl⟩
      rw [if_pos hlen, append_assoc]
      constructor
      · rw [convert, hread1, hw1, Option.bind_eq_bind, Option.bind_some, if_pos h1,
          hdrop, hread2, hw2,
          Option.bind_some, if_pos h2, hp]
      · rw [queryConvert, if_pos (by omega), hread1, hw1, Option.bind_eq_bind, Option.bind_some,
          if_pos h1, if_pos hlen, hdrop, hread2, hw2, Option.bind_some, if_pos (by omega), hp]

def Above (π : Platform) (bytes : Bytes) : Prop :=
  (0xd800 ≤ π.load (bytes.take 2) ∧ π.load (bytes.take 2) < 0xdc00) ∧ 0xe000 ≤ π.load (bytes.drop 2)

theorem malformed_iff (h : bytes.length = 4) :
    (convert π order bytes = some (-1) ↔ queryConvert π order bytes 4 = some (-1)) ↔
      ¬ Above π bytes := by
  have h1 : readUnit π order 2 bytes = some (π.load (bytes.take 2)) := if_pos (by omega)
  have h2 : readUnit π order 2 (bytes.drop 2) = some (π.load (bytes.drop 2)) := by
    rw [readUnit, if_pos (by simp; omega), take_of_length_le (by simp; omega)]
  rw [convert, queryConvert, h1, h2, Above]
  generalize π.load (bytes.take 2) = u
  generalize π.load (bytes.drop 2) = v
  simp only [Option.bind_eq_bind, Option.bind_some, Nat.reduceLeDiff, le_refl, if_true]
  split_ifs <;> simp <;> omega

end UTF16Encoding

namespace UTF32Encoding

variable (π order)

/-- `convert` of bytes; a value of `UInt32` is returned as one of `int`. -/
def convert (bytes : Bytes) : Option ℤ :=
  (readUnit π order 4 bytes).map fun uc => (BitVec.ofNat 32 uc).toInt

def queryConvert (bytes : Bytes) (length : ℕ) : Option ℤ :=
  if 4 ≤ length then (readUnit π order 4 bytes).map fun uc => (BitVec.ofNat 32 uc).toInt
  else some (-4)

/-- `convert` of a character: the bytes written, and the value returned. -/
def write (ch length : ℕ) : Bytes × ℕ :=
  (if 4 ≤ length then writeBytes π order 4 ch else [], 4)

variable {π order}

theorem returns_unit (hc : Utf8.IsScalar c) :
    Returns (write π order) (convert π order) (queryConvert π order) c ↔
      Symmetric π order 4 [c] := by
  unfold Utf8.IsScalar at hc
  have hlt : c < 256 ^ 4 := by omega
  have hint : (BitVec.ofNat 32 (stored π order 4 c)).toInt = (c : ℤ) ↔ stored π order 4 c = c := by
    have hs := stored_lt π order hlt
    rw [BitVec.toInt_eq_toNat_bmod, BitVec.toNat_ofNat, Int.bmod_def]
    omega
  rw [symmetric_iff, forall_mem_singleton, ← hint]
  have hread := readUnit_writeBytes π order hlt
  constructor
  · intro hr
    obtain ⟨hcon, -⟩ := hr 4 [] le_rfl
    rw [write, if_pos le_rfl, convert, hread] at hcon
    exact Option.some.inj hcon
  · intro hw length rest hlen
    simp [write, convert, queryConvert, hread, hw, show 4 ≤ length from hlen]

end UTF32Encoding

namespace UTF16Encoding

/-- **What is written is read back** if the units are the same in both byte orders, and only then
if the bytes are flipped; and a pair is found malformed by both functions or by none, unless its
second unit is above the surrogates. -/
theorem returns_iff (π : Platform) (order : StreamByteOrder) :
    (∀ c, Utf8.IsScalar c →
      (Returns (write π order) (convert π order) (queryConvert π order) c ↔
        Symmetric π order 2 (units c)) ∧
      (Returns (UTF32Encoding.write π order) (UTF32Encoding.convert π order)
        (UTF32Encoding.queryConvert π order) c ↔ Symmetric π order 4 [c])) ∧
    ∀ bytes : Bytes, bytes.length = 4 →
      ((convert π order bytes = some (-1) ↔ queryConvert π order bytes 4 = some (-1)) ↔
        ¬ Above π bytes) :=
  ⟨fun _ hc => ⟨returns_units hc, UTF32Encoding.returns_unit hc⟩, fun _ => malformed_iff⟩

/-- A character above `0xFFFF`, in the byte order of the host. -/
theorem returns_native : Returns (write .amd64 .NATIVE_BYTE_ORDER)
    (convert .amd64 .NATIVE_BYTE_ORDER)
      (queryConvert .amd64 .NATIVE_BYTE_ORDER) 0x1F600 :=
  ((returns_iff .amd64 .NATIVE_BYTE_ORDER).1 0x1F600 (.inr (by decide))).1.mpr nofun

/-- The letter `A` in the other byte order, and a high surrogate before `0xE000`. -/
theorem not_returned :
    write .amd64 .BIG_ENDIAN_BYTE_ORDER 0x41 2 = ([0x00, 0x41], 2) ∧
    convert .amd64 .BIG_ENDIAN_BYTE_ORDER [0x00, 0x41] = some 0x4100 ∧
    queryConvert .amd64 .BIG_ENDIAN_BYTE_ORDER [0x00, 0x41] 2 = some 0x4100 ∧
    UTF32Encoding.convert .amd64 .BIG_ENDIAN_BYTE_ORDER [0x00, 0x00, 0x00, 0x41] =
      some 0x41000000 ∧
    convert .amd64 .NATIVE_BYTE_ORDER [0x00, 0xD8, 0x00, 0xE0] = some (-1) ∧
    queryConvert .amd64 .NATIVE_BYTE_ORDER [0x00, 0xD8, 0x00, 0xE0] 4 = some 0x10000 := by
  decide

end UTF16Encoding

end Poco
