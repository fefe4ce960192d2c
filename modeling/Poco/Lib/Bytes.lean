import Mathlib.Data.List.Basic
import Mathlib.Data.List.Infix
import Mathlib.Tactic.Ring

/-!
# Bytes

Reasoning about a single byte by evaluating a decidable property at all 256 of them, and the
representation of numbers by a fixed number of bytes.

## Main definitions

* `Bytes`: the bytes of a string or of a stream.
* `bytesLE`, `natLE`: the lowest bytes of a number, the least significant first, and back.
* `bytesBE`, `natBE`: the same with the most significant byte first.

## Main results

* `forall_of_digits`: a property of every byte, from each pair of hexadecimal digits.
-/

abbrev Bytes : Type := List UInt8

namespace Bytes

theorem forall_of_digits {P : UInt8 → Prop} (h : ∀ m n : Fin 16, P (UInt8.ofNat (16 * m + n)))
    (b : UInt8) : P b := by
  have hlt := b.toNat_lt
  have hb := h ⟨b.toNat / 16, by omega⟩ ⟨b.toNat % 16, by omega⟩
  simpa only [Nat.div_add_mod, UInt8.ofNat_toNat] using hb

/-- A property of every byte is decided so. -/
instance (priority := high) decidableForall (p : UInt8 → Prop) [DecidablePred p] :
    Decidable (∀ b, p b) :=
  decidable_of_iff (∀ m n : Fin 16, p (UInt8.ofNat (16 * m + n)))
    ⟨forall_of_digits, fun h _ _ => h _⟩

/-- A property of all bytes of a list is decided by going through the list, not through all
256 bytes. -/
instance (priority := high) decidableForallMem (p : UInt8 → Prop) [DecidablePred p]
    (l : Bytes) : Decidable (∀ b ∈ l, p b) :=
  List.decidableBAll p l

/-- The same for the byte that may be in an option. -/
instance (priority := high) decidableForallEqSome (p : UInt8 → Prop) [DecidablePred p] :
    ∀ o : Option UInt8, Decidable (∀ b, o = some b → p b)
  | none => isTrue nofun
  | some b => decidable_of_iff (p b) ⟨fun h _ hb => Option.some.inj hb ▸ h, fun h => h b rfl⟩

/-- Membership in lists of texts is decided by this proof. -/
instance lawfulBEq : LawfulBEq Bytes := inferInstance

/-! ### Numbers in bytes -/

def bytesLE : ℕ → ℕ → Bytes
  | 0, _ => []
  | k + 1, n => UInt8.ofNat n :: bytesLE k (n / 256)

def natLE : Bytes → ℕ
  | [] => 0
  | b :: bs => b.toNat + 256 * natLE bs

def bytesBE (k n : ℕ) : Bytes := (bytesLE k n).reverse

def natBE (bs : Bytes) : ℕ := natLE bs.reverse

@[simp] theorem length_bytesLE (k n : ℕ) : (bytesLE k n).length = k := by
  induction k generalizing n with
  | zero => rfl
  | succ k ih => rw [bytesLE, List.length_cons, ih]

@[simp] theorem length_bytesBE (k n : ℕ) : (bytesBE k n).length = k := by
  rw [bytesBE, List.length_reverse, length_bytesLE]

theorem natLE_bytesLE (k n : ℕ) : natLE (bytesLE k n) = n % 256 ^ k := by
  induction k generalizing n with
  | zero => simp [bytesLE, natLE, Nat.mod_one]
  | succ k ih =>
    rw [bytesLE, natLE, ih, UInt8.toNat_ofNat', pow_succ' 256 k, Nat.mod_mul]

theorem natLE_lt (bs : Bytes) : natLE bs < 256 ^ bs.length := by
  induction bs with
  | nil => exact one_pos
  | cons b bs ih =>
    have hb := b.toNat_lt
    rw [natLE, List.length_cons]
    omega

theorem bytesLE_natLE (bs : Bytes) : bytesLE bs.length (natLE bs) = bs := by
  induction bs with
  | nil => rfl
  | cons b bs ih =>
    have hb := b.toNat_lt
    have hdiv : (b.toNat + 256 * natLE bs) / 256 = natLE bs := by omega
    have hmod : UInt8.ofNat (b.toNat + 256 * natLE bs) = b := by
      apply UInt8.toNat_inj.mp
      rw [UInt8.toNat_ofNat']
      omega
    rw [natLE, List.length_cons, bytesLE, hdiv, hmod, ih]

theorem natBE_bytesBE (h : n < 256 ^ k) : natBE (bytesBE k n) = n := by
  rw [natBE, bytesBE, List.reverse_reverse, natLE_bytesLE, Nat.mod_eq_of_lt h]

end Bytes
