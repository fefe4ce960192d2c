import Poco.BinaryStream

/-!
# The header of a MongoDB message

`MessageHeader::read`, `MessageHeader::write` and `RequestMessage::send`.  The length of
the message is held in a `std::size_t` and written by the overload of `operator <<` that
this type selects, so that it takes eight bytes where `std::size_t` has 64 bits, and the
header twenty.

## Main definitions

* `MessageHeader`: the operation code is any value of its type, since `read` casts what it finds.
* `Framed`: what `send` writes before the request is a header of the wire protocol: it has
  `MSG_HEADER_SIZE` bytes, the first four are the length of the message, and it is read back.

## Main results

* `read_write`: a header whose length is a value of its type is read back, on every platform.
* `framed_iff`: the platforms on which a request is framed as the wire protocol demands.
-/

namespace Poco.MongoDB

open Bytes BinaryReader BinaryWriter

inductive OpCode
  | Reply
  | Msg
  | Update
  | Insert
  | Query
  | GetMore
  | Delete
  | KillCursors
deriving DecidableEq

def OpCode.value : OpCode → BitVec 32
  | .Reply => 1
  | .Msg => 1000
  | .Update => 2001
  | .Insert => 2002
  | .Query => 2004
  | .GetMore => 2005
  | .Delete => 2006
  | .KillCursors => 2007

structure MessageHeader where
  /-- `_messageLength`, a `std::size_t`. -/
  messageLength : ℕ
  requestID : BitVec 32
  responseTo : BitVec 32
  opCode : BitVec 32
deriving DecidableEq

namespace MessageHeader

def MSG_HEADER_SIZE : ℕ := 16

def new (opCode : OpCode) : MessageHeader := ⟨0, 0, 0, opCode.value⟩

variable (π : Platform) (order : StreamByteOrder)

def toSize (n : ℕ) : ℕ := n % 256 ^ π.sizeOf π.sizeType

def setMessageLength (h : MessageHeader) (length : ℕ) : MessageHeader :=
  { h with messageLength := toSize π (MSG_HEADER_SIZE + length) }

def write (h : MessageHeader) : Bytes :=
  BinaryWriter.writeUnsigned π order π.sizeType h.messageLength ++
  BinaryWriter.writeInt32 π order h.requestID ++
  BinaryWriter.writeInt32 π order h.responseTo ++
  BinaryWriter.writeInt32 π order h.opCode

/-- The exception that `MessageHeader::read` throws, an `IOException`. -/
inductive ReadError
  | failedToReadFromSocket
deriving DecidableEq

/-- `MessageHeader::read` into a header.  A field keeps what a short stream does not
overwrite. -/
def read (h : MessageHeader) : EStateM ReadError BinaryReader MessageHeader := do
  let messageLength ← BinaryReader.extract π order
    (π.store (π.sizeOf π.sizeType) h.messageLength)
  let requestID ← BinaryReader.extract π order (π.store 4 h.requestID.toNat)
  let responseTo ← BinaryReader.extract π order (π.store 4 h.responseTo.toNat)
  let opCode ← BinaryReader.uninitialized 4
  let opCode ← BinaryReader.extract π order opCode
  if (← get).good then
    return ⟨messageLength, .ofNat 32 requestID, .ofNat 32 responseTo, .ofNat 32 opCode⟩
  else throw .failedToReadFromSocket

@[simp] theorem length_write (h : MessageHeader) :
    (h.write π order).length = π.sizeOf π.sizeType + 12 := by
  simp [write]

theorem read_write (hlen : toSize π h.messageLength = h.messageLength)
    (h₀ : MessageHeader) : BinaryReader.Yields (h₀.read π order) h (h.write π order) := by
  have hdec : decode π order
      (writeUnsigned π order π.sizeType h.messageLength) = h.messageLength := by
    rw [writeUnsigned, decode_writeBytes]
    exact hlen
  have hfie : (⟨decode π order (writeUnsigned π order π.sizeType h.messageLength),
      .ofNat 32 (decode π order (writeInt32 π order h.requestID)),
      .ofNat 32 (decode π order (writeInt32 π order h.responseTo)),
      .ofNat 32 (decode π order (writeInt32 π order h.opCode))⟩ :
      MessageHeader) = h := by
    simp only [hdec, ofNat_decode_writeInt32]
  unfold write
  simp only [List.append_assoc]
  refine (extract_yields (by simp)).bind ?_
  refine (extract_yields (by simp)).bind ?_
  refine (extract_yields (by simp)).bind ?_
  refine BinaryReader.Yields.uninitialized fun old hold => ?_
  refine (extract_yields (by simp [hold])).bind_nil (.of_good ?_)
  rw [hfie]
  exact .pure h

end MessageHeader

namespace RequestMessage

open MessageHeader

variable (π : Platform)

/-- `RequestMessage::send` for a request that `buildRequest` writes: the header as it is
then, and the bytes given to the stream. -/
def send (header : MessageHeader) (request : Bytes) : MessageHeader × Bytes :=
  let header := header.setMessageLength π (toSize π request.length)
  (header, header.write π .LITTLE_ENDIAN_BYTE_ORDER ++ request)

def Framed (header : MessageHeader) (request : Bytes) : Prop :=
  ∃ bytes, (send π header request).2 = bytes ++ request ∧
    bytes.length = MSG_HEADER_SIZE ∧
    natLE (bytes.take 4) = 16 + request.length ∧
    ∀ (h₀ : MessageHeader) (junk), ∃ junk',
      h₀.read π .LITTLE_ENDIAN_BYTE_ORDER ⟨bytes, true, junk⟩ =
      .ok { header with messageLength := 16 + request.length } ⟨[], true, junk'⟩

theorem sizeOf_cases (t : UnsignedType) : π.sizeOf t = 4 ∨ π.sizeOf t = 8 := by
  cases t with
  | unsignedInt => exact .inl rfl
  | unsignedLong =>
    simp only [Platform.sizeOf]
    split
    · exact .inr rfl
    · exact .inl rfl
  | uInt64 => exact .inr rfl

theorem toSize_of_lt (h : n < 2 ^ 31) : toSize π n = n := by
  apply Nat.mod_eq_of_lt
  rcases sizeOf_cases π π.sizeType with hs | hs <;> rw [hs] <;> omega

theorem send_eq (h : request.length + 16 < 2 ^ 31) : send π header request =
      ({ header with messageLength := 16 + request.length },
        ({ header with messageLength := 16 + request.length } : MessageHeader).write π
          .LITTLE_ENDIAN_BYTE_ORDER ++ request) := by
  have hlen : toSize π (MSG_HEADER_SIZE + toSize π request.length) = 16 + request.length := by
    rw [toSize_of_lt π (by omega : request.length < 2 ^ 31), MSG_HEADER_SIZE]
    exact toSize_of_lt π (by omega)
  simp only [send, setMessageLength, hlen]

theorem natLE_take_write {h : MessageHeader} (hlen : h.messageLength < 2 ^ 31) :
    natLE ((h.write π .LITTLE_ENDIAN_BYTE_ORDER).take 4) = h.messageLength := by
  have hmod : h.messageLength % 256 ^ 4 = h.messageLength := Nat.mod_eq_of_lt (by omega)
  simp only [MessageHeader.write, List.append_assoc, writeUnsigned, writeBytes_littleEndian]
  rcases sizeOf_cases π π.sizeType with hs | hs
  · rw [hs, List.take_append_of_le_length (by simp), List.take_of_length_le (by simp),
      natLE_bytesLE, hmod]
  · -- the upper four of the eight bytes follow; the first four are the same
    have htake : (bytesLE 8 h.messageLength).take 4 = bytesLE 4 h.messageLength := rfl
    rw [hs, List.take_append_of_le_length (by simp), htake, natLE_bytesLE, hmod]

/-- A request of less than `2 ^ 31 - 16` bytes is framed as the wire protocol demands
exactly on the platforms whose `std::size_t` has four bytes. -/
theorem framed_iff (header : MessageHeader) (request : Bytes)
    (h : request.length + 16 < 2 ^ 31) : Framed π header request ↔ π.sizeOf π.sizeType = 4 := by
  unfold Framed
  rw [send_eq π h]
  constructor
  · rintro ⟨bytes, hbyt, hsize, -⟩
    have hbyt := List.append_cancel_right hbyt
    rw [← hbyt, length_write, MSG_HEADER_SIZE] at hsize
    omega
  intro hs
  refine ⟨_, rfl, by simp [hs, MSG_HEADER_SIZE], natLE_take_write π (by simp; omega), ?_⟩
  intro h₀ junk
  obtain ⟨junk', hread⟩ := read_write π .LITTLE_ENDIAN_BYTE_ORDER
    (h := { header with messageLength := 16 + request.length })
    (toSize_of_lt π (by simp; omega)) h₀ [] junk
  rw [List.append_nil] at hread
  exact ⟨junk', hread⟩

def i386 : Platform := ⟨false, false, .unsignedInt, nofun⟩

/-- A request with a body is framed correctly where `std::size_t` has 32 bits. -/
theorem framed_i386 : Framed i386 (.new .Query) [1, 2, 3, 4, 5] :=
  (framed_iff i386 (.new .Query) [1, 2, 3, 4, 5] (by decide)).mpr rfl

/-- Where `std::size_t` has 64 bits the header of a request without a body has twenty
bytes: a length of sixteen in eight bytes, the two ids and the operation code. -/
theorem header_amd64 : (send .amd64 (.new .Query) []).2 =
    [16, 0, 0, 0, 0, 0, 0, 0, 0, 0, 0, 0, 0, 0, 0, 0, 0xD4, 7, 0, 0] := by decide

end RequestMessage

end Poco.MongoDB
