import Poco.NumericString

/-!
# Conversions of integers in a `Var`

`VarHolderImpl<source>::convert` of `Foundation/include/Poco/Dynamic/VarHolder.h`, between the
eight integer types of fixed width.  The checks compare with a limit of the target type only if
that type is narrower; with equal widths the value is compared after it has been cast, and the
test is never met.

## Main definitions

* `HeldType`: the integer types of fixed width.
* `convert`: `VarHolderImpl<source>::convert(target&)`.
* `Exact`: a conversion stores the value, or rejects one that the target type does not have.

## Main results

* `exact_checked`: the upper limit is checked for narrower types only.
* `convert_exact_iff`: when a conversion is exact.
-/

namespace Poco.Dynamic

inductive HeldType
  | Int8 | Int16 | Int32 | Int64 | UInt8 | UInt16 | UInt32 | UInt64
deriving DecidableEq

def HeldType.type : HeldType → IntType
  | Int8 => ⟨8, true⟩
  | Int16 => ⟨16, true⟩
  | Int32 => ⟨32, true⟩
  | Int64 => ⟨64, true⟩
  | UInt8 => ⟨8, false⟩
  | UInt16 => ⟨16, false⟩
  | UInt32 => ⟨32, false⟩
  | UInt64 => ⟨64, false⟩

structure RangeException where
  message : String
  deriving DecidableEq

def Fits (I : IntType) (v : ℤ) : Prop := I.min ≤ v ∧ v ≤ I.max

namespace VarHolder

/-! ### The helpers -/

section

variable (F T : IntType) (val : ℤ)

def checkUpperLimit : Except RangeException Unit :=
  if T.bits < F.bits ∧ val > F.wrap T.max then throw ⟨"Value too large."⟩
  else if T.wrap val > T.max then throw ⟨"Value too large."⟩
  else pure ()

def checkLowerLimit : Except RangeException Unit :=
  if val < T.min then throw ⟨"Value too small."⟩ else pure ()

/-- An assignment, with or without a `static_cast`. -/
def assign : Except RangeException ℤ := pure (T.wrap val)

def convertToSmaller : Except RangeException ℤ := do
  checkUpperLimit F T val
  checkLowerLimit T val
  assign T val

def convertToSmallerUnsigned : Except RangeException ℤ := do
  checkUpperLimit F T val
  assign T val

def convertSignedToUnsigned : Except RangeException ℤ := do
  if val < 0 then throw ⟨"Value too small."⟩
  checkUpperLimit F T val
  assign T val

def convertUnsignedToSigned : Except RangeException ℤ := do
  checkUpperLimit F T val
  assign T val

end

def convert (source target : HeldType) : ℤ → Except RangeException ℤ :=
  match source, target with
  | .Int8, .Int8 | .Int8, .Int16 | .Int8, .Int32 | .Int8, .Int64
  | .Int16, .Int16 | .Int16, .Int32 | .Int16, .Int64
  | .Int32, .Int32 | .Int32, .Int64
  | .Int64, .Int64 => assign target.type
  | .Int16, .Int8
  | .Int32, .Int8 | .Int32, .Int16
  | .Int64, .Int8 | .Int64, .Int16 | .Int64, .Int32 => convertToSmaller source.type target.type
  | .Int8, _ | .Int16, _ | .Int32, _ | .Int64, _ =>
    convertSignedToUnsigned source.type target.type
  | .UInt8, .UInt8 | .UInt8, .UInt16 | .UInt8, .UInt32 | .UInt8, .UInt64
  | .UInt8, .Int32 | .UInt8, .Int64
  | .UInt16, .UInt16 | .UInt16, .UInt32 | .UInt16, .UInt64 | .UInt16, .Int64
  | .UInt32, .UInt32 | .UInt32, .UInt64
  | .UInt64, .UInt64 => assign target.type
  | .UInt16, .UInt8
  | .UInt32, .UInt8 | .UInt32, .UInt16
  | .UInt64, .UInt8 | .UInt64, .UInt16 | .UInt64, .UInt32 =>
    convertToSmallerUnsigned source.type target.type
  | .UInt8, _ | .UInt16, _ | .UInt32, _ | .UInt64, _ =>
    convertUnsignedToSigned source.type target.type

/-! ### Exact conversions -/

def Exact (T : IntType) (v : ℤ) : Except RangeException ℤ → Prop
  | .ok w => w = v
  | .error _ => ¬ Fits T v

variable {F T : IntType} {v : ℤ}

theorem exact_assign (hT : 0 < T.bits) (h : Fits T v) : Exact T v (assign T v) :=
  T.wrap_of_mem hT h.1 h.2

theorem exact_checked (hT : 0 < T.bits) (hF : 0 < F.bits) (hmax : T.bits < F.bits → Fits F T.max)
    (hmin : T.min ≤ v) : Exact T v (checkUpperLimit F T v >>= fun _ => assign T v) ↔
      T.bits < F.bits ∨ v ≤ T.max := by
  have hwrap := (T.wrap_mem hT v).2
  unfold checkUpperLimit
  rw [if_neg (not_lt.mpr hwrap)]
  by_cases hv : v ≤ T.max
  · rw [if_neg fun h => by rw [F.wrap_of_mem hF (hmax h.1).1 (hmax h.1).2] at h; omega]
    exact iff_of_true (exact_assign hT ⟨hmin, hv⟩) (.inr hv)
  by_cases hlt : T.bits < F.bits
  · rw [if_pos ⟨hlt, by rw [F.wrap_of_mem hF (hmax hlt).1 (hmax hlt).2]; omega⟩]
    exact iff_of_true (fun h => hv h.2) (.inl hlt)
  · rw [if_neg fun h => hlt h.1]
    refine iff_of_false (fun h : T.wrap v = v => ?_) (not_or.mpr ⟨hlt, hv⟩)
    omega

theorem convert_cases (source target : HeldType) :
    (convert source target = assign target.type ∧
      Fits target.type source.type.min ∧ Fits target.type source.type.max) ∨
    (convert source target = convertToSmaller source.type target.type ∧
      target.type.bits < source.type.bits) ∨
    (convert source target = convertSignedToUnsigned source.type target.type ∧
      target.type.min = 0 ∧ (target.type.bits < source.type.bits ∨
        source.type.max ≤ target.type.max) ∧ source.type.signed = true) ∨
    (convert source target = convertToSmallerUnsigned source.type target.type ∧
      target.type.min ≤ source.type.min ∧ target.type.bits < source.type.bits) ∨
    convert source target = convertUnsignedToSigned source.type target.type ∧
      target.type.min ≤ source.type.min ∧ (target.type.bits < source.type.bits ∨
        source.type.max ≤ target.type.max ∨ source.type.signed = false ∧
          target.type.signed = true ∧ source.type.bits = target.type.bits) := by
  unfold Fits
  cases source <;> cases target <;>
    first
    | exact .inl ⟨rfl, by decide, by decide⟩
    | exact .inr (.inl ⟨rfl, by decide⟩)
    | exact .inr (.inr (.inl ⟨rfl, rfl, by decide, rfl⟩))
    | exact .inr (.inr (.inr (.inl ⟨rfl, by decide, by decide⟩)))
    | exact .inr (.inr (.inr (.inr ⟨rfl, by decide, by decide⟩)))

theorem fits_max (source target : HeldType) (h : target.type.bits < source.type.bits) :
    Fits source.type target.type.max := by
  revert h
  unfold Fits
  cases source <;> cases target <;> decide

theorem bits_pos (t : HeldType) : 0 < t.type.bits := by
  cases t <;> decide

/-- **When a conversion is exact.**  A value of an unsigned type that is above the limit of the
signed type of the same width is stored as a negative number. -/
theorem convert_exact_iff (source target : HeldType) {v : ℤ} (hv : Fits source.type v) :
    Exact target.type v (convert source target v) ↔
      (source.type.signed = false → target.type.signed = true →
        source.type.bits = target.type.bits → v ≤ target.type.max) := by
  have hpos := bits_pos target
  have hche := fun hmin : target.type.min ≤ v =>
    exact_checked hpos (bits_pos source) (fits_max source target) hmin
  obtain ⟨hmin, hmax⟩ := hv
  rcases convert_cases source target with ⟨h, ⟨h1, -⟩, -, h2⟩ | ⟨h, hlt⟩ | ⟨h, h0, hle, hs⟩ |
    ⟨h, hle, hlt⟩ | ⟨h, hle, hcase⟩ <;> rw [h]
  · exact iff_of_true (exact_assign hpos ⟨h1.trans hmin, hmax.trans h2⟩)
      fun _ _ _ => hmax.trans h2
  · refine iff_of_true ?_ fun _ _ _ => by omega
    unfold convertToSmaller checkLowerLimit
    by_cases hlow : v < target.type.min
    · have hno : ¬ Fits target.type v := fun hfit => by have := hfit.1; omega
      rw [if_pos hlow]
      cases checkUpperLimit source.type target.type v <;> exact hno
    · rw [if_neg hlow]
      exact (hche (not_lt.mp hlow)).mpr (.inl hlt)
  · refine iff_of_true ?_ fun hF => by rw [hs] at hF; cases hF
    unfold convertSignedToUnsigned
    by_cases hneg : v < 0
    · have hno : ¬ Fits target.type v := fun hfit => by have := hfit.1; omega
      rw [if_pos hneg]
      exact hno
    · rw [if_neg hneg]
      exact (hche (by omega)).mpr (hle.imp_right hmax.trans)
  · exact iff_of_true ((hche (hle.trans hmin)).mpr (.inl hlt)) fun _ _ _ => by omega
  · refine (hche (hle.trans hmin)).trans ?_
    rcases hcase with hlt | hle' | ⟨hF, hT, heq⟩
    · exact iff_of_true (.inl hlt) fun _ _ _ => by omega
    · exact iff_of_true (.inr (hmax.trans hle')) fun _ _ _ => hmax.trans hle'
    · simp [hF, hT, heq]

/-- The number 200 as an `Int8` and as an `Int16`. -/
theorem convert_exact_iff_uint8 :
    Fits HeldType.UInt8.type 200 ∧ ¬ Exact HeldType.Int8.type 200 (convert .UInt8 .Int8 200) ∧
      Exact HeldType.Int16.type 200 (convert .UInt8 .Int16 200) := by
  have hv : Fits HeldType.UInt8.type 200 := by unfold Fits; decide
  exact ⟨hv, fun h => absurd ((convert_exact_iff _ _ hv).mp h rfl rfl rfl) (by decide),
    (convert_exact_iff _ _ hv).mpr fun _ _ => nofun⟩

/-- The number `2^31`, which `UInt32` has and `Int32` has not, is stored as `-2^31`. -/
theorem convert_uint32_negative :
    Fits HeldType.UInt32.type 2147483648 ∧ convert .UInt32 .Int32 2147483648 = .ok (-2147483648) ∧
      ¬ Exact HeldType.Int32.type 2147483648 (convert .UInt32 .Int32 2147483648) := by
  have hcon : convert .UInt32 .Int32 2147483648 = .ok (-2147483648) := by decide
  refine ⟨by unfold Fits; decide, hcon, ?_⟩
  rw [hcon]
  exact (by decide : (-2147483648 : ℤ) ≠ 2147483648)

end VarHolder

end Poco.Dynamic
