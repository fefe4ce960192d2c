import Poco.Lib.Bytes

/-!
# Binary streams

`BinaryWriter` and `BinaryReader` of `Foundation/src`, as far as they write and read
integers, characters and raw bytes, over a stream in memory.  A number is written as it
lies in memory, its bytes reversed first if the byte order of the stream is not the one of
the host.  What a call of `operator <<` writes depends on the overload that the type of
its argument selects, so the sizes of the types are parameters.

An extraction copies what the stream still has into the variable it is given.  A variable
without an initial value holds bytes that nothing determines; the reader draws them from
a sequence of its own, of which nothing is assumed.

## Main definitions

* `Platform`, `StreamByteOrder`: what the code depends on of the platform, and the byte order of a
  stream; `NETWORK_BYTE_ORDER` is `BIG_ENDIAN_BYTE_ORDER`.
* `writeBytes`, `extract`: `operator <<` and `operator >>` for a number of `k` bytes.
* `Yields`: a computation returns `a` on every good stream that begins with `bs`, and takes just
  these bytes.
* `Takes`: if a computation returns a value and leaves the stream good, the stream was good and the
  value and the bytes taken are related.
-/

namespace Poco

open List Bytes

/-- The unsigned types that `BinaryWriter` and `BinaryReader` have an overload for. -/
inductive UnsignedType
  | unsignedInt
  | unsignedLong
  | uInt64
deriving DecidableEq

structure Platform where
  /-- `POCO_ARCH_BIG_ENDIAN`. -/
  bigEndian : Bool
  /-- `POCO_LONG_IS_64_BIT`. -/
  longIs64Bit : Bool
  /-- The type `std::size_t` stands for. -/
  sizeType : UnsignedType
  /-- The overload for `UInt64` exists only where `long` has 32 bits. -/
  overload : sizeType = .uInt64 → longIs64Bit = false

def Platform.amd64 : Platform := ⟨false, true, .unsignedLong, nofun⟩

inductive StreamByteOrder
  | NATIVE_BYTE_ORDER
  | BIG_ENDIAN_BYTE_ORDER
  | LITTLE_ENDIAN_BYTE_ORDER
deriving DecidableEq

namespace Platform

variable (π : Platform)

def sizeOf : UnsignedType → ℕ
  | .unsignedInt => 4
  | .unsignedLong => if π.longIs64Bit then 8 else 4
  | .uInt64 => 8

def flipBytes (byteOrder : StreamByteOrder) : Bool :=
  if π.bigEndian then byteOrder = .LITTLE_ENDIAN_BYTE_ORDER
  else byteOrder = .BIG_ENDIAN_BYTE_ORDER

@[simp] theorem flipBytes_native : π.flipBytes .NATIVE_BYTE_ORDER = false := by
  simp [flipBytes]

def store (k n : ℕ) : Bytes := if π.bigEndian then bytesBE k n else bytesLE k n

def load (bs : Bytes) : ℕ := if π.bigEndian then natBE bs else natLE bs

@[simp] theorem length_store (k n : ℕ) : (π.store k n).length = k := by
  unfold store
  split <;> simp

theorem load_store (k n : ℕ) : π.load (π.store k n) = n % 256 ^ k := by
  unfold load store
  split
  · rw [natBE, bytesBE, reverse_reverse, natLE_bytesLE]
  · exact natLE_bytesLE k n

end Platform

def ByteOrder.flipBytes (k n : ℕ) : ℕ := natLE (bytesLE k n).reverse

theorem ByteOrder.flipBytes_lt (k n : ℕ) : flipBytes k n < 256 ^ k := by
  have h := natLE_lt (bytesLE k n).reverse
  rwa [length_reverse, length_bytesLE] at h

theorem ByteOrder.flipBytes_flipBytes (k n : ℕ) : flipBytes k (flipBytes k n) = n % 256 ^ k := by
  have h := bytesLE_natLE (bytesLE k n).reverse
  rw [length_reverse, length_bytesLE] at h
  rw [flipBytes, flipBytes, h, reverse_reverse, natLE_bytesLE]

theorem ByteOrder.bytesLE_flipBytes (k n : ℕ) :
    bytesLE k (flipBytes k n) = (bytesLE k n).reverse := by
  have h := bytesLE_natLE (bytesLE k n).reverse
  rwa [length_reverse, length_bytesLE] at h

/-! ### Writing -/

namespace BinaryWriter

variable (π : Platform) (order : StreamByteOrder)

def writeBytes (k n : ℕ) : Bytes :=
  π.store k (if π.flipBytes order then ByteOrder.flipBytes k n else n)

/-- `operator <<` for an unsigned type, which the type of the value selects. -/
def writeUnsigned (t : UnsignedType) (n : ℕ) : Bytes := writeBytes π order (π.sizeOf t) n

def writeInt32 (v : BitVec 32) : Bytes := writeBytes π order 4 v.toNat

/-- `operator <<` for `Int64`; where `long` has 64 bits it is the overload for `long`. -/
def writeInt64 (v : BitVec 64) : Bytes := writeBytes π order 8 v.toNat

@[simp] theorem length_writeBytes (k n : ℕ) : (writeBytes π order k n).length = k := by
  unfold writeBytes
  rw [Platform.length_store]

@[simp] theorem length_writeUnsigned (t : UnsignedType) (n : ℕ) :
    (writeUnsigned π order t n).length = π.sizeOf t := length_writeBytes ..

@[simp] theorem length_writeInt32 (v : BitVec 32) : (writeInt32 π order v).length = 4 :=
  length_writeBytes ..

@[simp] theorem length_writeInt64 (v : BitVec 64) : (writeInt64 π order v).length = 8 :=
  length_writeBytes ..

/-- A writer of little-endian byte order writes the least significant byte first, on
every host. -/
theorem writeBytes_littleEndian (k n : ℕ) :
    writeBytes π .LITTLE_ENDIAN_BYTE_ORDER k n = bytesLE k n := by
  cases h : π.bigEndian with
  | false => simp [writeBytes, Platform.flipBytes, Platform.store, h]
  | true =>
    simp [writeBytes, Platform.flipBytes, Platform.store, h, bytesBE, ByteOrder.bytesLE_flipBytes]

end BinaryWriter

/-! ### Reading -/

structure BinaryReader where
  /-- What is left of the stream. -/
  input : Bytes
  /-- `good()` of the stream: no read has reached beyond its end. -/
  good : Bool
  /-- The bytes that variables without an initial value will hold. -/
  junk : ℕ → UInt8

namespace BinaryReader

variable {ε : Type} (π : Platform) (order : StreamByteOrder)

/-- `std::istream::read`: the bytes stored.  A read that finds too few bytes takes what
there is, and the stream is no longer good; then reads take nothing. -/
def istrRead (n : ℕ) : EStateM ε BinaryReader Bytes := fun s =>
  if s.good then
    .ok (s.input.take n)
      { s with input := s.input.drop n, good := decide (n ≤ s.input.length) }
  else .ok [] s

/-- The bytes of a variable of `n` bytes without an initial value. -/
def uninitialized (n : ℕ) : EStateM ε BinaryReader Bytes := fun s =>
  .ok ((List.range n).map s.junk) { s with junk := fun i => s.junk (i + n) }

/-- `operator >>` for a number: the bytes read replace the first bytes of the variable. -/
def extract (old : Bytes) : EStateM ε BinaryReader ℕ := do
  let bs ← istrRead old.length
  let value := π.load (bs ++ old.drop bs.length)
  return if π.flipBytes order then ByteOrder.flipBytes old.length value else value

def extractByte (old : UInt8) : EStateM ε BinaryReader UInt8 := do
  let bs ← istrRead 1
  return bs.headD old

/-- The number that the bytes of a variable are once they have been read. -/
def decode (bs : Bytes) : ℕ :=
  if π.flipBytes order then ByteOrder.flipBytes bs.length (π.load bs) else π.load bs

/-- The number that the bytes of a double are once they have been read. -/
def decodeDouble (bs : Bytes) : ℕ :=
  π.load (if π.flipBytes order then bs.reverse else bs)

/-! ### Values and the bytes they are read from -/

variable {α β : Type} {π order} {m : EStateM ε BinaryReader α}

def Yields (m : EStateM ε BinaryReader α) (a : α) (bs : Bytes) : Prop :=
  ∀ rest junk, ∃ junk', m ⟨bs ++ rest, true, junk⟩ = .ok a ⟨rest, true, junk'⟩

def Takes (m : EStateM ε BinaryReader α) (P : α → Bytes → Prop) : Prop :=
  ∀ s a s', m s = .ok a s' → s'.good = true →
    s.good = true ∧ ∃ bs, s.input = bs ++ s'.input ∧ P a bs

theorem bind_eq_ok (h : (m >>= f) s = .ok b s'') : ∃ a s', m s = .ok a s' ∧ f a s' = .ok b s'' := by
  change EStateM.bind m f s = _ at h
  unfold EStateM.bind at h
  split at h
  · next a s' hm => exact ⟨a, s', hm, h⟩
  · cases h

theorem bind_of_ok (h : m s = .ok a s') : (m >>= f) s = f a s' := by
  show EStateM.bind m f s = _
  rw [EStateM.bind, h]

theorem bind_of_error (h : m s = .error e s') : (m >>= f) s = .error e s' := by
  show EStateM.bind m f s = _
  rw [EStateM.bind, h]

theorem Yields.pure (a : α) : Yields (Pure.pure a : EStateM ε BinaryReader α) a [] :=
  fun _ junk => ⟨junk, rfl⟩

theorem Yields.bind (hm : Yields m a bs) (hf : Yields (f a) b cs) :
    Yields (m >>= f) b (bs ++ cs) := by
  intro rest junk
  obtain ⟨junk', hm⟩ := hm (cs ++ rest) junk
  obtain ⟨junk'', hf⟩ := hf rest junk'
  rw [append_assoc, bind_of_ok hm]
  exact ⟨junk'', hf⟩

theorem Yields.bind_nil (hm : Yields m a bs) (hf : Yields (f a) b []) : Yields (m >>= f) b bs := by
  have h := hm.bind hf
  rwa [append_nil] at h

theorem Yields.map (hm : Yields m a bs) (g : α → β) :
    Yields (m >>= fun a => Pure.pure (g a)) (g a) bs :=
  hm.bind_nil (.pure (g a))

theorem Yields.of_good {m' : EStateM ε BinaryReader α} (hm : Yields m a bs) :
    Yields (get >>= fun s : BinaryReader => if s.good then m else m') a bs := by
  intro rest junk
  exact hm rest junk

theorem Takes.pure (h : P a []) : Takes (Pure.pure a : EStateM ε BinaryReader α) P := by
  rintro s a s' ⟨⟩ hgood
  exact ⟨hgood, [], rfl, h⟩

theorem Takes.throw : Takes (MonadExcept.throw e : EStateM ε BinaryReader α) P :=
  nofun

theorem Takes.bind (hm : Takes m P)
    (hf : ∀ a, Takes (f a) fun b cs => ∀ bs, P a bs → Q b (bs ++ cs)) : Takes (m >>= f) Q := by
  intro s b s'' h hgood
  obtain ⟨a, s', hma, hfb⟩ := bind_eq_ok h
  obtain ⟨hgood', cs, hcs, hQ⟩ := hf a s' b s'' hfb hgood
  obtain ⟨hgood, bs, hbs, hP⟩ := hm s a s' hma hgood'
  exact ⟨hgood, bs ++ cs, by rw [hbs, hcs, append_assoc], hQ bs hP⟩

theorem Takes.mono {Q : α → Bytes → Prop} (hm : Takes m P) (h : ∀ a bs, P a bs → Q a bs) :
    Takes m Q := by
  intro s a s' hs hgood
  obtain ⟨hgood, bs, hbs, hP⟩ := hm s a s' hs hgood
  exact ⟨hgood, bs, hbs, h a bs hP⟩

theorem Takes.map {g : α → β} (hm : Takes m P) (h : ∀ a bs, P a bs → Q (g a) bs) :
    Takes (m >>= fun a => Pure.pure (g a)) Q := by
  refine hm.bind fun a => pure fun bs hP => ?_
  rw [append_nil]
  exact h a bs hP

/-! ### Reading bytes and numbers -/

theorem istrRead_yields (h : bs.length = n) :
    Yields (istrRead n : EStateM ε BinaryReader _) bs bs := by
  subst h
  intro rest junk
  exact ⟨junk, by simp [istrRead]⟩

theorem istrRead_takes (n : ℕ) :
    Takes (istrRead n : EStateM ε BinaryReader _) fun a bs => a = bs ∧ bs.length = n := by
  intro s a s' h hgood
  unfold istrRead at h
  split at h
  · next hs =>
    cases h
    have hn : n ≤ s.input.length := of_decide_eq_true hgood
    exact ⟨hs, s.input.take n, (take_append_drop n s.input).symm, rfl, length_take_of_le hn⟩
  · next hs =>
    cases h
    exact absurd hgood hs

/-- What follows a variable without an initial value may not depend on it. -/
theorem Yields.uninitialized (h : ∀ old, old.length = n → Yields (g old) b bs) :
    Yields (BinaryReader.uninitialized n >>= g) b bs := by
  intro rest junk
  exact h ((range n).map junk) (by simp) rest fun i => junk (i + n)

theorem Takes.uninitialized {P : β → Bytes → Prop}
    (h : ∀ old, old.length = n → Takes (g old) P) :
    Takes (BinaryReader.uninitialized n >>= g) P := by
  intro s b s' hs hgood
  exact h ((range n).map s.junk) (by simp) ⟨s.input, s.good, fun i => s.junk (i + n)⟩
    b s' hs hgood

theorem extract_yields (h : bs.length = old.length) :
    Yields (extract π order old : EStateM ε BinaryReader ℕ) (decode π order bs) bs := by
  have hdrop : bs ++ old.drop bs.length = bs := by rw [h, drop_length, append_nil]
  have hy := (istrRead_yields (ε := ε) h).map fun bs =>
    let value := π.load (bs ++ old.drop bs.length)
    if π.flipBytes order then ByteOrder.flipBytes old.length value else value
  simp only [hdrop] at hy
  rw [decode]
  exact h ▸ hy

theorem extract_takes (old : Bytes) :
    Takes (extract π order old : EStateM ε BinaryReader ℕ) fun a bs =>
      bs.length = old.length ∧ a = decode π order bs := by
  refine (istrRead_takes _).map ?_
  rintro a bs ⟨rfl, h⟩
  refine ⟨h, ?_⟩
  rw [h, drop_length, append_nil, decode, h]

theorem extractByte_yields (old b : UInt8) :
    Yields (extractByte old : EStateM ε BinaryReader UInt8) b [b] :=
  (istrRead_yields (ε := ε) (n := 1) rfl).map fun bs => bs.headD old

theorem extractByte_takes (old : UInt8) :
    Takes (extractByte old : EStateM ε BinaryReader UInt8) fun a bs => bs = [a] := by
  refine (istrRead_takes 1).map ?_
  rintro a bs ⟨rfl, h⟩
  obtain ⟨b, rfl⟩ := length_eq_one_iff.mp h
  rfl

theorem decode_writeBytes (k n : ℕ) :
    decode π order (BinaryWriter.writeBytes π order k n) = n % 256 ^ k := by
  unfold decode
  rw [BinaryWriter.length_writeBytes]
  unfold BinaryWriter.writeBytes
  split
  · rw [Platform.load_store, Nat.mod_eq_of_lt (ByteOrder.flipBytes_lt k n),
      ByteOrder.flipBytes_flipBytes]
  · exact Platform.load_store π k n

theorem ofNat_decode_writeInt32 (v : BitVec 32) :
    BitVec.ofNat 32 (decode π order (BinaryWriter.writeInt32 π order v)) = v := by
  have hv : v.toNat < 256 ^ 4 := v.isLt
  rw [BinaryWriter.writeInt32, decode_writeBytes, Nat.mod_eq_of_lt hv, BitVec.ofNat_toNat,
    BitVec.setWidth_eq]

theorem ofNat_decode_writeInt64 (v : BitVec 64) :
    BitVec.ofNat 64 (decode π order (BinaryWriter.writeInt64 π order v)) = v := by
  have hv : v.toNat < 256 ^ 8 := v.isLt
  rw [BinaryWriter.writeInt64, decode_writeBytes, Nat.mod_eq_of_lt hv, BitVec.ofNat_toNat,
    BitVec.setWidth_eq]

end BinaryReader

end Poco
