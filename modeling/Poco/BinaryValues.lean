import Poco.BinaryStream

/-!
# Values in binary streams

What `BinaryWriter` writes for a value of any type, without a text converter, and what
`BinaryReader` reads back.  An integer or a floating-point number of `k` bytes is its bit
pattern; the bytes of the latter are reversed one by one.

## Main definitions

* `BinaryType`, `BinaryValue`: types and values; a raw block is read into a string or a buffer.
* `write`, `read`: `operator <<` and `operator >>` with the functions for other values.

## Main results

* `readAll_write`: a sequence of values is read as it was written.
-/

namespace Poco

open List Bytes

inductive BinaryType
  | bool
  | char
  | int (k : ℕ)
  | float (k : ℕ)
  | encoded (w : ℕ)
  | string
  | raw (length : ℕ)
  | rawBuffer (length : ℕ)

inductive BinaryValue
  | bool (b : Bool)
  | char (c : UInt8)
  | int (k : ℕ) (v : BitVec (8 * k))
  | float (k : ℕ) (v : BitVec (8 * k))
  | encoded (w : ℕ) (v : BitVec w)
  | string (s : Bytes)
  | raw (s : Bytes)
  | rawBuffer (s : Bytes)

namespace BinaryValue

def type : BinaryValue → BinaryType
  | .bool _ => .bool
  | .char _ => .char
  | .int k _ => .int k
  | .float k _ => .float k
  | .encoded w _ => .encoded w
  | .string _ => .string
  | .raw s => .raw s.length
  | .rawBuffer s => .rawBuffer s.length

/-- The length of a string is written as an `UInt32`. -/
def Short : BinaryValue → Prop
  | .string s => s.length < 2 ^ 32
  | _ => True

end BinaryValue

variable (π : Platform) (order : StreamByteOrder)

namespace BinaryWriter

/-- The loop of `BinaryWriter::write7BitEncoded`, with a bound of the number of groups. -/
def write7 : ℕ → ℕ → Bytes
  | 0, _ => []
  | n + 1, value =>
    let c := UInt8.ofNat (value % 128)
    if value / 128 ≠ 0 then (c ||| 0x80) :: write7 n (value / 128) else [c]

def write7BitEncoded (w value : ℕ) : Bytes := write7 (w / 7 + 1) value

def write : BinaryValue → Bytes
  | .bool b => [if b then 1 else 0]
  | .char c => [c]
  | .int k v => writeBytes π order k v.toNat
  | .float k v =>
    if π.flipBytes order then (π.store k v.toNat).reverse else π.store k v.toNat
  | .encoded w v => write7BitEncoded w v.toNat
  | .string s => write7BitEncoded 32 (s.length % 2 ^ 32) ++ s.take (s.length % 2 ^ 32)
  | .raw s | .rawBuffer s => s

def writeBOM : Bytes := writeBytes π order 2 0xFEFF

end BinaryWriter

namespace BinaryReader

variable {ε : Type}

/-- The loop of `BinaryReader::read7BitEncoded` for a type of `w` bits: the value, what is left
of the stream, and whether it is good. -/
def read7 (w : ℕ) : Bytes → ℕ → ℕ → ℕ × Bytes × Bool
  | [], value, _ => (value, [], false)
  | c :: rest, value, s =>
    let value := (value + (c &&& 0x7F).toNat * 2 ^ s) % 2 ^ w
    if c &&& 0x80 ≠ 0 then read7 w rest value (s + 7) else (value, rest, true)

def read7BitEncoded (w : ℕ) : EStateM ε BinaryReader ℕ := fun s =>
  if s.good then
    let r := read7 w s.input 0 0
    .ok r.1 { s with input := r.2.1, good := r.2.2 }
  else .ok 0 s

/-- The loop of `BinaryReader::readRaw` and of `operator >>` for a string. -/
def readChars : ℕ → EStateM ε BinaryReader Bytes
  | 0 => return []
  | length + 1 => do
    let c ← istrRead 1
    if (← get).good then return c ++ (← readChars length) else return []

/-- Single bytes are read into a variable, from its last byte to the first. -/
def readEach : Bytes → EStateM ε BinaryReader Bytes
  | [] => return []
  | old :: olds => do
    let b ← extractByte old
    return b :: (← readEach olds)

def readFloat (old : Bytes) : EStateM ε BinaryReader ℕ :=
  if π.flipBytes order then do return π.load (← readEach old.reverse).reverse
  else do
    let bs ← istrRead old.length
    return π.load (bs ++ old.drop bs.length)

def readString : EStateM ε BinaryReader Bytes := do
  let size ← read7BitEncoded 32
  if (← get).good then readChars size else return []

def readByte : EStateM ε BinaryReader UInt8 := do
  let old ← uninitialized 1
  extractByte (old.headD 0)

def read : BinaryType → EStateM ε BinaryReader BinaryValue
  | .bool => do return .bool ((← readByte) ≠ 0)
  | .char => do return .char (← readByte)
  | .int k => do return .int k (.ofNat _ (← uninitialized k >>= extract π order))
  | .float k => do return .float k (.ofNat _ (← uninitialized k >>= readFloat π order))
  | .encoded w => do return .encoded w (.ofNat w (← read7BitEncoded w))
  | .string => do return .string (← readString)
  | .raw n => do return .raw (← readChars n)
  | .rawBuffer n => do return .rawBuffer (← istrRead n)

def readAll : List BinaryType → EStateM ε BinaryReader (List BinaryValue)
  | [] => return []
  | t :: ts => do
    let v ← read π order t
    return v :: (← readAll ts)

/-- `BinaryReader::readBOM`: the byte order of a reader whose `_flipBytes` it sets. -/
def readBOM : EStateM ε BinaryReader StreamByteOrder := do
  let bom ← uninitialized 2 >>= extract π .NATIVE_BYTE_ORDER
  return if bom = 0xFEFF then .NATIVE_BYTE_ORDER
    else if π.bigEndian then .LITTLE_ENDIAN_BYTE_ORDER else .BIG_ENDIAN_BYTE_ORDER

/-! ### Reading what was written -/

open BinaryWriter

variable {π order}

theorem group_bits (h : n < 128) : (UInt8.ofNat n &&& 0x7F).toNat = n ∧ UInt8.ofNat n &&& 0x80 = 0 ∧
      ((UInt8.ofNat n ||| 0x80) &&& 0x7F).toNat = n ∧ (UInt8.ofNat n ||| 0x80) &&& 0x80 ≠ 0 := by
  have key : ∀ c : UInt8, c.toNat < 128 → (c &&& 0x7F).toNat = c.toNat ∧ c &&& 0x80 = 0 ∧
      ((c ||| 0x80) &&& 0x7F).toNat = c.toNat ∧ (c ||| 0x80) &&& 0x80 ≠ 0 := by decide
  have hc : (UInt8.ofNat n).toNat = n := UInt8.toNat_ofNat_of_lt (lt_trans h (by decide))
  have hkey := key (UInt8.ofNat n) (by omega)
  rwa [hc] at hkey

/-- The groups of a value are read after any others. -/
theorem read7_write7 (w : ℕ) (h : v < 128 ^ n) (hn : n ≠ 0) (acc s : ℕ) :
    read7 w (write7 n v ++ bs) acc s = ((acc + v * 2 ^ s) % 2 ^ w, bs, true) := by
  induction n generalizing v acc s with
  | zero => exact absurd rfl hn
  | succ n ih =>
    obtain ⟨hlow, hend, hlow', hmore⟩ := group_bits (Nat.mod_lt v (by decide : 128 > 0))
    rw [write7]
    split_ifs with hv
    · have hlt : v / 128 < 128 ^ n := by rw [Nat.pow_succ] at h; omega
      have hne : n ≠ 0 := by rintro rfl; simp at hlt; omega
      rw [cons_append, read7, if_pos hmore, ih hlt hne, Nat.mod_add_mod, add_assoc]
      congr 3
      rw [Nat.pow_add, ← mul_assoc, mul_right_comm, ← add_mul]
      congr 1
      omega
    · have hmod : v % 128 = v := by omega
      rw [hmod] at hend hlow ⊢
      rw [cons_append, read7, if_neg (not_not.mpr hend), hlow, nil_append]

theorem read7BitEncoded_yields (h : v < 2 ^ w) :
    Yields (read7BitEncoded w : EStateM ε BinaryReader ℕ) v (write7BitEncoded w v) := by
  have hle : 2 ^ w ≤ 128 ^ (w / 7 + 1) := by
    rw [show 128 = 2 ^ 7 by rfl, ← pow_mul]
    exact Nat.pow_le_pow_right (by decide) (by omega)
  intro rest junk
  refine ⟨junk, ?_⟩
  rw [read7BitEncoded, write7BitEncoded,
    read7_write7 w (lt_of_lt_of_le h hle) (Nat.succ_ne_zero _)]
  simp [Nat.mod_eq_of_lt h]

theorem readChars_yields (bs : Bytes) :
    Yields (readChars bs.length : EStateM ε BinaryReader _) bs bs := by
  induction bs with
  | nil => exact .pure []
  | cons c cs ih =>
    have hc : Yields (istrRead 1 : EStateM ε BinaryReader _) [c] [c] := istrRead_yields rfl
    exact hc.bind (.of_good (ih.map fun cs => [c] ++ cs))

theorem readEach_yields (old bs : Bytes) (h : bs.length = old.length) :
    Yields (readEach old : EStateM ε BinaryReader _) bs bs := by
  induction old generalizing bs with
  | nil =>
    rw [length_eq_zero_iff.mp h]
    exact .pure []
  | cons o os ih =>
    obtain ⟨b, bs, rfl⟩ := exists_cons_of_length_eq_add_one h
    exact (extractByte_yields o b).bind ((ih bs (by simpa using h)).map fun bs => b :: bs)

theorem readFloat_yields (n : ℕ) (h : old.length = k) :
    Yields (readFloat π order old : EStateM ε BinaryReader _) (n % 256 ^ k)
      (if π.flipBytes order then (π.store k n).reverse else π.store k n) := by
  subst h
  rw [readFloat]
  split_ifs
  · have hread := (readEach_yields (ε := ε) old.reverse (π.store old.length n).reverse
      (by simp)).map fun bs => π.load bs.reverse
    rwa [reverse_reverse, π.load_store] at hread
  · have hread := (istrRead_yields (ε := ε) (π.length_store old.length n)).map fun bs =>
      π.load (bs ++ old.drop bs.length)
    simpa [π.load_store] using hread

theorem yields_new (π : Platform) (order : StreamByteOrder) {k : ℕ} (h : bs.length = k) :
    Yields (uninitialized k >>= extract π order : EStateM ε BinaryReader ℕ) (decode π order bs)
      bs :=
  .uninitialized fun _ hold => extract_yields (h.trans hold.symm)

theorem ofNat_mod (v : BitVec (8 * k)) : BitVec.ofNat _ (v.toNat % 256 ^ k) = v := by
  have hv : v.toNat < 256 ^ k := by
    rw [show 256 = 2 ^ 8 by rfl, ← pow_mul]
    exact v.isLt
  rw [Nat.mod_eq_of_lt hv, BitVec.ofNat_toNat, BitVec.setWidth_eq]

theorem readString_yields (h : bs.length < 2 ^ 32) :
    Yields (readString : EStateM ε BinaryReader _) bs
      (write7BitEncoded 32 bs.length ++ bs) :=
  (read7BitEncoded_yields h).bind (.of_good (readChars_yields bs))

theorem readByte_yields (b : UInt8) : Yields (readByte : EStateM ε BinaryReader _) b [b] :=
  .uninitialized fun old _ => extractByte_yields (old.headD 0) b

theorem read_yields (h : v.Short) :
    Yields (read π order v.type : EStateM ε BinaryReader _) v (write π order v) := by
  cases v with
  | bool b =>
    have hread := (readByte_yields (ε := ε) (if b then 1 else 0)).map fun c =>
      BinaryValue.bool (c ≠ 0)
    cases b <;> exact hread
  | char c => exact (readByte_yields c).map BinaryValue.char
  | int k v =>
    have hread := (yields_new (ε := ε) π order
      (length_writeBytes π order k v.toNat)).map fun n => BinaryValue.int k (.ofNat _ n)
    rwa [decode_writeBytes, ofNat_mod] at hread
  | float k v =>
    have hread : Yields (uninitialized k >>= readFloat π order : EStateM ε BinaryReader _)
        (v.toNat % 256 ^ k) (write π order (.float k v)) :=
      .uninitialized fun _ hold => readFloat_yields _ hold
    have hval := hread.map fun n => BinaryValue.float k (.ofNat _ n)
    rwa [ofNat_mod] at hval
  | encoded w v =>
    have hread := (read7BitEncoded_yields (ε := ε) v.isLt).map fun n =>
      BinaryValue.encoded w (.ofNat w n)
    rwa [BitVec.ofNat_toNat, BitVec.setWidth_eq] at hread
  | string s =>
    have hlen : s.length < 2 ^ 32 := h
    rw [write, Nat.mod_eq_of_lt hlen, take_length]
    exact (readString_yields hlen).map BinaryValue.string
  | raw s => exact (readChars_yields s).map BinaryValue.raw
  | rawBuffer s => exact (istrRead_yields rfl).map BinaryValue.rawBuffer

theorem readAll_yields (h : ∀ v ∈ values, v.Short) :
    Yields (readAll π order (values.map BinaryValue.type) : EStateM ε BinaryReader _) values
      (values.flatMap (write π order)) := by
  induction values with
  | nil => exact .pure []
  | cons v values ih =>
    obtain ⟨hv, hval⟩ := forall_mem_cons.mp h
    exact (read_yields hv).bind ((ih hval).map fun vs => v :: vs)

/-- The byte order that the mark sets flips bytes as the writer does. -/
theorem readBOM_yields (π : Platform) (order : StreamByteOrder) :
    ∃ order', π.flipBytes order' = π.flipBytes order ∧
      Yields (readBOM π : EStateM ε BinaryReader _) order' (writeBOM π order) := by
  have hread := (yields_new (ε := ε) π .NATIVE_BYTE_ORDER
    (length_writeBytes π order 2 0xFEFF)).map fun bom =>
      if bom = 0xFEFF then StreamByteOrder.NATIVE_BYTE_ORDER
      else if π.bigEndian then .LITTLE_ENDIAN_BYTE_ORDER else .BIG_ENDIAN_BYTE_ORDER
  refine ⟨_, ?_, hread⟩
  have hload (n : ℕ) : decode π .NATIVE_BYTE_ORDER (π.store 2 n) = n % 256 ^ 2 := by
    simp [decode, π.load_store]
  rw [writeBytes, hload]
  cases hflip : π.flipBytes order with
  | false => simp
  | true =>
    have hbom : ByteOrder.flipBytes 2 0xFEFF % 256 ^ 2 ≠ 0xFEFF := by decide
    rw [if_pos rfl, if_neg hbom]
    cases hbig : π.bigEndian <;> simp [Platform.flipBytes, hbig]

/-- **A sequence of values is read as it was written**, by a reader of the same byte order or
one that reads the mark first, and just the bytes written are taken. -/
theorem readAll_write (values : List BinaryValue) (h : ∀ v ∈ values, v.Short) :
    Yields (readAll π order (values.map BinaryValue.type) : EStateM ε BinaryReader _) values
      (values.flatMap (write π order)) ∧
    Yields (readBOM π >>= fun order' => readAll π order' (values.map BinaryValue.type) :
      EStateM ε BinaryReader _) values
      (writeBOM π order ++ values.flatMap (write π order)) := by
  refine ⟨readAll_yields h, ?_⟩
  obtain ⟨order', hflip, hbom⟩ := readBOM_yields (ε := ε) π order
  have hwr : write π order = write π order' := by
    funext v
    cases v <;> simp [write, writeBytes, hflip]
  rw [hwr]
  exact hbom.bind (readAll_yields h)

/-- A string, an integer in the order of the network and a number of two groups. -/
theorem readAll_write_string : Yields
    (readAll .amd64 .BIG_ENDIAN_BYTE_ORDER [.string, .int 4, .bool, .encoded 32] :
      EStateM Unit BinaryReader _)
    [.string [0x61, 0x62], .int 4 0x01020304, .bool true, .encoded 32 300]
    [2, 0x61, 0x62, 1, 2, 3, 4, 1, 0xAC, 2] :=
  (readAll_write [.string [0x61, 0x62], .int 4 0x01020304, .bool true, .encoded 32 300]
    (by simp [BinaryValue.Short])).1

end BinaryReader

end Poco
