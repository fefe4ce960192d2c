import Poco.Lib.Bytes
import Poco.Lib.Transport

/-!
# WebSocket frames

`WebSocketImpl::sendBytes`, `receiveBytes` and `receiveNBytes` of
`Net/src/WebSocketImpl.cpp`.  The receiver reads the first two bytes of a frame, and then,
before it knows the payload length, up to twelve more: the seven bits of the length byte
decide how many.  What this brings in beyond the header goes to the caller's buffer.

The model keeps the bytes stored in the caller's buffer from its start on, also those
that do not fit, so that it can say whether a call stays within the buffer.

## Main definitions

* `sendBytes`, `receiveBytes`: the bytes given to the socket, and the receiver.
* `Frame`: a frame of RFC 6455; its length encoding need not be the shortest.
* `Frame.surplus`: the number of bytes after the header that are received together with it.

## Main results

* `receiveNBytes_eq`: whatever the segments are, the bytes asked for are stored, or as many as
  there are; it throws when there are some but not enough.
* `receiveBytes_frame`: the outcome on a stream that begins with a frame.  The bytes received early
  count as payload even if there are more of them than payload data.
* `sendBytes_eq`: `sendBytes` sends a frame from which `receiveBytes` takes nothing too early.
* `receiveBytes_sendBytes_iff`, `receiveBytes_safe_iff`, `receiveFrames_in_order`: the round trip,
  the frames that stay within the buffer, and frames one after another.
-/

namespace Poco.Net.WebSocketImpl

open List Bytes

def INT_MAX : ℕ := 2147483647

def MAX_HEADER_LENGTH : ℕ := 14

def FRAME_FLAG_MASK : UInt8 := 0x80

/-- `WebSocket::FRAME_BINARY`, that is `FRAME_FLAG_FIN | FRAME_OP_BINARY`. -/
def FRAME_BINARY : UInt8 := 0x82

/-! ### Sending -/

def maskBytes (mask : UInt32) : Bytes := bytesLE 4 mask.toNat

/-- The loop `p[i] = b[i] ^ m[i % 4]`, from the index `i` on. -/
def applyMask (m : Bytes) : ℕ → Bytes → Bytes
  | _, [] => []
  | i, b :: bs => (b ^^^ m.getD (i % 4) 0) :: applyMask m (i + 1) bs

/-- `WebSocketImpl::sendBytes`: the bytes given to the socket.  `none` is the case that
`length + MAX_HEADER_LENGTH`, the size of the frame buffer, exceeds an `int`; there is
no such buffer, and nothing is sent. -/
def sendBytes (mustMaskPayload : Bool) (mask : UInt32) (buffer : Bytes) (flags : UInt8) :
    Option Bytes :=
  let length := buffer.length
  if length + MAX_HEADER_LENGTH > INT_MAX then none
  else
    let flags := if flags = 0 then FRAME_BINARY else flags
    let lengthByte := if mustMaskPayload then FRAME_FLAG_MASK else 0
    let header :=
      if length < 126 then [flags, lengthByte ||| UInt8.ofNat length]
      else if length < 65536 then [flags, lengthByte ||| 126] ++ bytesBE 2 length
      else [flags, lengthByte ||| 127] ++ bytesBE 8 length
    some (if mustMaskPayload then header ++ maskBytes mask ++ applyMask (maskBytes mask) 0 buffer
      else header ++ buffer)

/-! ### Receiving -/

inductive ErrorCode where
  | WS_ERR_INCOMPLETE_FRAME
  | WS_ERR_PAYLOAD_TOO_BIG
  deriving DecidableEq, Repr

inductive Exception where
  | webSocket (message : String) (code : ErrorCode)
  | assertion (condition : String)
  deriving DecidableEq, Repr

/-- What `receiveNBytes` did: the bytes it stored, and the stream after it.  It returns
the number of the bytes, unless the frame was incomplete and it has thrown. -/
structure Reception where
  data : Bytes
  transport : Transport
  complete : Bool

/-- The `while (received < bytes)` loop of `receiveNBytes`, with `missing` for
`bytes - received`.  Every round but the last stores a byte, so `missing` rounds suffice. -/
def receiveMore : ℕ → ℕ → Transport → Reception
  | 0, missing, t => ⟨[], t, missing == 0⟩
  | fuel + 1, missing, t =>
    if missing = 0 then ⟨[], t, true⟩
    else
      let (data, t) := t.receive missing
      if data = [] then ⟨[], t, false⟩
      else
        let r := receiveMore fuel (missing - data.length) t
        { r with data := data ++ r.data }

def receiveNBytes (bytes : ℕ) (t : Transport) : Reception :=
  let (data, t) := t.receive bytes
  if data = [] then ⟨[], t, true⟩
  else
    let r := receiveMore bytes (bytes - data.length) t
    { r with data := data ++ r.data }

structure Outcome where
  /-- The value returned, or what was thrown. -/
  result : Except Exception ℕ
  /-- The bytes stored in the caller's buffer, from its start on. -/
  buffer : Bytes
  transport : Transport
  /-- `_frameFlags` after the call. -/
  frameFlags : UInt8

/-- The payload length in a header, and `payloadOffset` without the mask. -/
def payloadLength (header : Bytes) : ℕ × ℕ :=
  let lengthByte := header.getD 1 0
  if lengthByte &&& 0x7F = 127 then (natBE ((header.drop 2).take 8), 10)
  else if lengthByte &&& 0x7F = 126 then (natBE ((header.drop 2).take 2), 4)
  else ((lengthByte &&& 0x7F).toNat, 2)

/-- `receiveBytes` from the decoding of the header on, of which the `n` bytes are given. -/
def receivePayload (header : Bytes) (length : ℕ) (t : Transport) : Outcome :=
  let flags := header.getD 0 0
  let lengthByte := header.getD 1 0
  let (l, offset) := payloadLength header
  if l > length then
    ⟨.error (.webSocket ("Insufficient buffer for payload size " ++ toString l)
      .WS_ERR_PAYLOAD_TOO_BIG), [], t, flags⟩
  else
    let masked : Bool := lengthByte &&& FRAME_FLAG_MASK ≠ 0
    let mask := (header.drop offset).take 4
    let payloadOffset := if masked then offset + 4 else offset
    let unmask := fun buffer => if masked then applyMask mask 0 buffer else buffer
    -- memcpy (buffer, header + payloadOffset, n - payloadOffset)
    let buffer := header.drop payloadOffset
    if buffer.length < l then
      let r := receiveNBytes (l - buffer.length) t
      if r.complete = false ∨ r.data = [] then
        ⟨.error (.webSocket "Incomplete frame received" .WS_ERR_INCOMPLETE_FRAME),
          buffer ++ r.data, r.transport, flags⟩
      else
        let buffer := buffer ++ r.data
        ⟨.ok buffer.length, unmask buffer, r.transport, flags⟩
    else ⟨.ok buffer.length, unmask buffer, t, flags⟩

/-- The number of bytes that `receiveBytes` asks for after the first two. -/
def headerRest (lengthByte : UInt8) : ℕ :=
  let maskOffset := if lengthByte &&& FRAME_FLAG_MASK ≠ 0 then 4 else 0
  let length := (lengthByte &&& 0x7F).toNat
  if length + 2 + maskOffset < MAX_HEADER_LENGTH then length + maskOffset
  else MAX_HEADER_LENGTH - 2

/-- `WebSocketImpl::receiveBytes` with a buffer of `length` bytes. -/
def receiveBytes (length : ℕ) (t : Transport) (frameFlags : UInt8) : Outcome :=
  let r := receiveNBytes 2 t
  if r.complete = false then
    ⟨.error (.webSocket "Incomplete frame received" .WS_ERR_INCOMPLETE_FRAME), [], r.transport,
      frameFlags⟩
  else if r.data = [] then ⟨.ok 0, [], r.transport, 0⟩
  else if r.data.length ≠ 2 then ⟨.error (.assertion "n == 2"), [], r.transport, frameFlags⟩
  else
    let lengthByte := r.data.getD 1 0
    if lengthByte &&& 0x7F > 0 ∨ lengthByte &&& FRAME_FLAG_MASK ≠ 0 then
      let r' := receiveNBytes (headerRest lengthByte) r.transport
      if r'.complete = false then
        ⟨.error (.webSocket "Incomplete frame received" .WS_ERR_INCOMPLETE_FRAME), [],
          r'.transport, frameFlags⟩
      else if r'.data = [] then
        ⟨.error (.webSocket "Incomplete header received" .WS_ERR_INCOMPLETE_FRAME), [],
          r'.transport, frameFlags⟩
      else receivePayload (r.data ++ r'.data) length r'.transport
    else receivePayload r.data length r.transport

/-! ### Reading a given number of bytes -/

theorem receiveMore_eq : ∀ (fuel missing : ℕ) (t : Transport), missing ≤ fuel →
    (receiveMore fuel missing t).data = t.incoming.take missing ∧
      (receiveMore fuel missing t).transport.incoming = t.incoming.drop missing ∧
      ((receiveMore fuel missing t).complete = true ↔ missing ≤ t.incoming.length) := by
  intro fuel
  induction fuel with
  | zero =>
    intro missing t h
    obtain rfl : missing = 0 := by omega
    simp [receiveMore]
  | succ fuel ih =>
    intro missing t h
    unfold receiveMore
    by_cases h0 : missing = 0
    · simp [h0]
    rw [if_neg h0]
    dsimp only
    have hlen := t.length_receive_le missing
    split
    · next hnil =>
      have hemp : t.incoming = [] := by
        by_contra hne
        exact Transport.receive_ne_nil hne (by omega) hnil
      refine ⟨by simp [hemp], ?_, by simp [hemp]; omega⟩
      simpa [hemp] using t.receive_snd missing
    · next hne =>
      have hpos := length_pos_iff.mpr hne
      obtain ⟨hdata, htra, hcom⟩ :=
        ih (missing - (t.receive missing).1.length) (t.receive missing).2 (by omega)
      have happ := t.receive_append missing
      have hsum := congrArg List.length happ
      rw [length_append] at hsum
      refine ⟨?_, ?_, ?_⟩
      · rw [hdata, ← happ, take_append, take_of_length_le hlen]
      · rw [htra, ← happ, drop_append, drop_of_length_le hlen, nil_append]
      · rw [hcom]
        omega

theorem receiveNBytes_eq (bytes : ℕ) (t : Transport) :
    (receiveNBytes bytes t).data = t.incoming.take bytes ∧
      (receiveNBytes bytes t).transport.incoming = t.incoming.drop bytes ∧
      ((receiveNBytes bytes t).complete = true ↔
        bytes ≤ t.incoming.length ∨ t.incoming = []) := by
  by_cases hnil : (t.receive bytes).1 = []
  · have hcall : receiveNBytes bytes t = ⟨[], (t.receive bytes).2, true⟩ := if_pos hnil
    have happ := t.receive_append bytes
    rw [hnil, nil_append] at happ
    rcases Nat.eq_zero_or_pos bytes with rfl | hpos
    · simp [hcall, happ]
    · have hemp : t.incoming = [] := by
        by_contra hne
        exact Transport.receive_ne_nil hne hpos hnil
      simp [hcall, happ, hemp]
  · have hlen := length_pos_iff.mpr hnil
    have hle := t.length_receive_le bytes
    have hne : t.incoming ≠ [] := by
      intro h
      exact hnil (append_eq_nil_iff.mp ((t.receive_append bytes).trans h)).1
    have hmore : receiveNBytes bytes t = receiveMore (bytes + 1) bytes t := by
      simp [receiveNBytes, receiveMore, hnil, if_neg (show bytes ≠ 0 by omega)]
    rw [hmore]
    simpa [hne] using receiveMore_eq (bytes + 1) bytes t (by omega)

theorem receiveNBytes_of_append (ht : t.incoming = s ++ rest) (hs : s.length = n) :
    (receiveNBytes n t).data = s ∧ (receiveNBytes n t).transport.incoming = rest ∧
      (receiveNBytes n t).complete = true := by
  obtain ⟨hdata, htra, hcom⟩ := receiveNBytes_eq n t
  refine ⟨?_, ?_, hcom.mpr (.inl ?_)⟩
  · rw [hdata, ht, take_left' hs]
  · rw [htra, ht, drop_left' hs]
  · rw [ht, length_append]
    omega

/-! ### Frames -/

inductive LengthEncoding where
  /-- In the seven bits of the length byte. -/
  | short
  | medium
  | long
  deriving DecidableEq, Repr

open LengthEncoding

namespace LengthEncoding

def bound : LengthEncoding → ℕ
  | short => 126
  | medium => 65536
  | long => 2 ^ 64

def lengthBits : LengthEncoding → ℕ → UInt8
  | short, n => UInt8.ofNat n
  | medium, _ => 126
  | long, _ => 127

def extended : LengthEncoding → ℕ → Bytes
  | short, _ => []
  | medium, n => bytesBE 2 n
  | long, n => bytesBE 8 n

theorem lengthBits_lt {e : LengthEncoding} (h : n < e.bound) : e.lengthBits n < 0x80 := by
  cases e with
  | short =>
    simp only [bound] at h
    simp only [lengthBits, UInt8.lt_iff_toNat_lt, UInt8.toNat_ofNat']
    rw [Nat.mod_eq_of_lt (by omega)]
    exact lt_trans h (by decide)
  | medium => exact (by decide : (126 : UInt8) < 0x80)
  | long => exact (by decide : (127 : UInt8) < 0x80)

end LengthEncoding

structure Frame where
  flags : UInt8
  encoding : LengthEncoding
  mask : Option UInt32
  /-- The payload data as transmitted, masked if there is a mask. -/
  data : Bytes
  fits : data.length < encoding.bound

namespace Frame

/-- The byte with the mask flag and the seven length bits. -/
def lengthByte (f : Frame) : UInt8 :=
  (if f.mask.isSome then FRAME_FLAG_MASK else 0) ||| f.encoding.lengthBits f.data.length

def header (f : Frame) : Bytes :=
  [f.flags, f.lengthByte] ++ f.encoding.extended f.data.length ++ (f.mask.map maskBytes).getD []

def bytes (f : Frame) : Bytes := f.header ++ f.data

/-- The transformation from payload data to payload and back. -/
def unmask (f : Frame) (buffer : Bytes) : Bytes :=
  match f.mask with
  | none => buffer
  | some mask => applyMask (maskBytes mask) 0 buffer

def surplus (f : Frame) : ℕ := 2 + headerRest f.lengthByte - f.header.length

@[simp] theorem length_maskBytes (mask : UInt32) : (maskBytes mask).length = 4 :=
  length_bytesLE _ _

theorem flagged_and : ∀ b : UInt8, b < 0x80 → (FRAME_FLAG_MASK ||| b) &&& 0x7F = b ∧
    (FRAME_FLAG_MASK ||| b) &&& FRAME_FLAG_MASK ≠ 0 ∧ ((0 : UInt8) ||| b) &&& 0x7F = b ∧
    ((0 : UInt8) ||| b) &&& FRAME_FLAG_MASK = 0 := by decide

theorem lengthByte_length (f : Frame) :
    f.lengthByte &&& 0x7F = f.encoding.lengthBits f.data.length := by
  obtain ⟨h1, -, h2, -⟩ := flagged_and _ (lengthBits_lt f.fits)
  unfold lengthByte
  split
  · exact h1
  · exact h2

theorem lengthByte_masked (f : Frame) : f.lengthByte &&& FRAME_FLAG_MASK ≠ 0 ↔ f.mask.isSome := by
  obtain ⟨-, h1, -, h2⟩ := flagged_and _ (lengthBits_lt f.fits)
  unfold lengthByte
  split
  · next h => exact iff_of_true h1 h
  · next h => exact iff_of_false (not_not.mpr h2) h

theorem length_header (f : Frame) : f.header.length =
    2 + (f.encoding.extended f.data.length).length + (if f.mask.isSome then 4 else 0) := by
  unfold header
  cases f.mask <;> simp <;> omega

theorem headerRest_lengthByte (f : Frame) : headerRest f.lengthByte =
    if (f.encoding.lengthBits f.data.length).toNat + 2 + (if f.mask.isSome then 4 else 0)
        < MAX_HEADER_LENGTH
    then (f.encoding.lengthBits f.data.length).toNat + (if f.mask.isSome then 4 else 0)
    else MAX_HEADER_LENGTH - 2 := by
  unfold headerRest
  simp [lengthByte_length, lengthByte_masked]

theorem headerRest_of_extended (f : Frame) (h : f.encoding ≠ .short) :
    headerRest f.lengthByte = 12 := by
  have key : ∀ b : UInt8, b &&& 0x7F = 126 ∨ b &&& 0x7F = 127 → headerRest b = 12 := by decide
  apply key
  rw [f.lengthByte_length]
  cases he : f.encoding with
  | short => exact absurd he h
  | medium => exact .inl rfl
  | long => exact .inr rfl

theorem length_header_le (f : Frame) : f.header.length ≤ 2 + headerRest f.lengthByte := by
  by_cases he : f.encoding = .short
  · rw [length_header, headerRest_lengthByte, he]
    simp only [MAX_HEADER_LENGTH, extended, length_nil]
    split <;> split <;> omega
  · have hext : (f.encoding.extended f.data.length).length ≤ 8 := by
      cases f.encoding <;> simp [extended]
    rw [length_header, f.headerRest_of_extended he]
    split <;> omega

theorem surplus_le_iff (f : Frame) : f.surplus ≤ f.data.length ↔
    f.encoding = .short ∨ MAX_HEADER_LENGTH ≤ f.bytes.length := by
  have hfits := f.fits
  have hlen : f.bytes.length = f.header.length + f.data.length := length_append
  rw [hlen]
  unfold surplus
  by_cases he : f.encoding = .short
  · rw [he] at hfits
    simp only [bound] at hfits
    rw [length_header, headerRest_lengthByte, he]
    simp only [extended, length_nil, lengthBits, MAX_HEADER_LENGTH,
      UInt8.toNat_ofNat', Nat.mod_eq_of_lt (show f.data.length < 2 ^ 8 by omega), true_or, iff_true]
    split <;> split <;> omega
  · rw [f.headerRest_of_extended he, MAX_HEADER_LENGTH]
    simp only [he, false_or]
    omega

/-- The header as `receivePayload` decodes it, whatever follows. -/
theorem payloadLength_header (f : Frame) (s : Bytes) : payloadLength (f.header ++ s) =
    (f.data.length, 2 + (f.encoding.extended f.data.length).length) := by
  have hfits := f.fits
  have hbyte : (f.header ++ s).getD 1 0 = f.lengthByte := rfl
  have hdrop : (f.header ++ s).drop 2 =
      f.encoding.extended f.data.length ++ ((f.mask.map maskBytes).getD [] ++ s) := by
    simp [header]
  unfold payloadLength
  simp only [hbyte, hdrop, lengthByte_length]
  cases he : f.encoding with
  | short =>
    rw [he] at hfits
    simp only [bound] at hfits
    have hnat : (UInt8.ofNat f.data.length).toNat = f.data.length := by
      rw [UInt8.toNat_ofNat', Nat.mod_eq_of_lt (by omega)]
    have hne : ∀ b : UInt8, 126 ≤ b.toNat → UInt8.ofNat f.data.length ≠ b := by
      rintro b hb rfl
      omega
    simp [lengthBits, extended, hne 127, hne 126, hnat]
  | medium =>
    rw [he] at hfits
    have hval : natBE (bytesBE 2 f.data.length) = f.data.length := natBE_bytesBE hfits
    simp [lengthBits, extended, hval]
  | long =>
    rw [he] at hfits
    have hval : natBE (bytesBE 8 f.data.length) = f.data.length := natBE_bytesBE hfits
    simp [lengthBits, extended, hval]

end Frame

theorem receivePayload_frame (f : Frame) (s : Bytes) (length : ℕ) (t : Transport) :
    receivePayload (f.header ++ s) length t =
      if length < f.data.length then
        ⟨.error (.webSocket ("Insufficient buffer for payload size " ++ toString f.data.length)
          .WS_ERR_PAYLOAD_TOO_BIG), [], t, f.flags⟩
      else if s.length < f.data.length then
        let r := receiveNBytes (f.data.length - s.length) t
        if r.complete = false ∨ r.data = [] then
          ⟨.error (.webSocket "Incomplete frame received" .WS_ERR_INCOMPLETE_FRAME),
            s ++ r.data, r.transport, f.flags⟩
        else ⟨.ok (s ++ r.data).length, f.unmask (s ++ r.data), r.transport, f.flags⟩
      else ⟨.ok s.length, f.unmask s, t, f.flags⟩ := by
  have hfla : (f.header ++ s).getD 0 0 = f.flags := rfl
  have hbyte : (f.header ++ s).getD 1 0 = f.lengthByte := rfl
  unfold receivePayload
  simp only [hfla, hbyte, f.payloadLength_header, f.lengthByte_masked]
  cases hm : f.mask with
  | none =>
    have hdrop : (f.header ++ s).drop (2 + (f.encoding.extended f.data.length).length) = s := by
      apply drop_left'
      simp [f.length_header, hm]
    simp [Option.isSome_none, Bool.false_eq_true, decide_false, hdrop, Frame.unmask, hm]
  | some mask =>
    have hhead : f.header = ([f.flags, f.lengthByte] ++ f.encoding.extended f.data.length)
        ++ maskBytes mask := by
      simp [Frame.header, hm]
    have hdrop : (f.header ++ s).drop (2 + (f.encoding.extended f.data.length).length + 4) = s := by
      apply drop_left'
      simp [f.length_header, hm]
    have hmask : ((f.header ++ s).drop (2 + (f.encoding.extended f.data.length).length)).take 4
        = maskBytes mask := by
      rw [hhead, append_assoc, drop_left' (by simp; omega), take_left' (by simp)]
    simp [Option.isSome_some, decide_true, hdrop, hmask, Frame.unmask, hm]

/-! ### A call on a stream that begins with a frame -/

section Receive

variable (f : Frame) (length : ℕ) {t : Transport} (flags : UInt8)

/-- There is a second call for the header unless nothing follows the first two bytes. -/
theorem headerRest_eq_zero : ∀ b : UInt8, headerRest b = 0 ↔
    ¬ (b &&& 0x7F > 0 ∨ b &&& FRAME_FLAG_MASK ≠ 0) := by decide

def Outcome.Rejected (o : Outcome) : Prop := o.buffer = [] ∧ ∀ n, o.result ≠ .ok n

/-- The header and the bytes received with it are the first ones of the stream, unless the stream
ends before them. -/
theorem receiveBytes_header (ht : t.incoming = f.header ++ x) :
    (x.length < f.surplus → (receiveBytes length t flags).Rejected) ∧
      (f.surplus ≤ x.length → ∃ t' : Transport, t'.incoming = x.drop f.surplus ∧
        receiveBytes length t flags = receivePayload (f.header ++ x.take f.surplus) length t') := by
  obtain ⟨tail, htail⟩ : ∃ tail, f.header = [f.flags, f.lengthByte] ++ tail :=
    ⟨f.encoding.extended f.data.length ++ (f.mask.map maskBytes).getD [], by simp [Frame.header]⟩
  have hle := f.length_header_le
  have hsur : f.surplus = headerRest f.lengthByte - tail.length := by
    rw [Frame.surplus, htail, length_append]
    exact Nat.add_sub_add_left 2 _ _
  rw [htail, length_append] at hle
  replace hle : tail.length ≤ headerRest f.lengthByte := Nat.le_of_add_le_add_left hle
  -- the two bytes of the first call
  rw [htail, append_assoc] at ht
  obtain ⟨hdata, htra, hcom⟩ := receiveNBytes_of_append (n := 2) ht rfl
  obtain ⟨hdata', htra', hcom'⟩ :=
    receiveNBytes_eq (headerRest f.lengthByte) (receiveNBytes 2 t).transport
  rw [htra, take_append, take_of_length_le hle, ← hsur] at hdata'
  rw [htra, drop_append, drop_of_length_le hle, nil_append, ← hsur] at htra'
  rw [htra, length_append] at hcom'
  unfold receiveBytes
  simp only [hcom, hdata, Bool.true_eq_false, if_false, reduceCtorEq, length_cons,
    length_nil, getD_cons_succ, getD_cons_zero, not_true, ne_eq]
  split
  · next hmore =>
    have hpos : headerRest f.lengthByte ≠ 0 := fun h => (headerRest_eq_zero _).mp h hmore
    refine ⟨fun hx => ?_, fun hx => ?_⟩
    · split
      · exact ⟨rfl, nofun⟩
      next hc =>
      -- the call returns only at the very end of the stream
      rw [Bool.not_eq_false, hcom'] at hc
      obtain ⟨rfl, rfl⟩ := append_eq_nil_iff.mp (hc.resolve_left (by omega))
      rw [take_nil, nil_append] at hdata'
      rw [if_pos hdata']
      exact ⟨rfl, nofun⟩
    · have hne : tail ++ x.take f.surplus ≠ [] := by
        rw [← length_pos_iff, length_append, length_take_of_le hx]
        omega
      rw [if_neg (by simpa using hcom'.mpr (.inl (by omega))), hdata', if_neg hne]
      refine ⟨_, htra', ?_⟩
      rw [htail, append_assoc]
  · next hnone =>
    have hzero := (headerRest_eq_zero _).mpr hnone
    obtain rfl : tail = [] := length_eq_zero_iff.mp (by omega)
    have hnot : f.surplus = 0 := by omega
    rw [hnot]
    exact ⟨fun hx => absurd hx (by omega), fun _ => ⟨_, htra, by rw [htail]; rfl⟩⟩

theorem receiveBytes_frame {x : Bytes} (ht : t.incoming = f.header ++ x)
    (hx : max f.surplus f.data.length ≤ x.length) (hlen : f.data.length ≤ length) :
    let n := max f.surplus f.data.length
    let o := receiveBytes length t flags
    o.result = .ok n ∧ o.buffer = f.unmask (x.take n) ∧ o.transport.incoming = x.drop n ∧
      o.frameFlags = f.flags := by
  intro n o
  have hn1 : f.surplus ≤ n := le_max_left _ _
  have hearly : (x.take f.surplus).length = f.surplus := length_take_of_le (by omega)
  obtain ⟨t', hrest, hcall⟩ := (receiveBytes_header f length flags ht).2 (by omega)
  have ho : o = receivePayload (f.header ++ x.take f.surplus) length t' := hcall
  rw [receivePayload_frame, if_neg (by omega), hearly] at ho
  by_cases hmore : f.surplus < f.data.length
  · have hneq : n = f.data.length := max_eq_right hmore.le
    have hspl : t'.incoming = (x.drop f.surplus).take (n - f.surplus) ++ x.drop n := by
      rw [hrest, ← take_append_drop (n - f.surplus) (x.drop f.surplus), drop_drop,
        Nat.add_sub_cancel' hn1, take_append_of_le_length]
      · simp
      · simp; omega
    obtain ⟨hdata, htra, hcom⟩ := receiveNBytes_of_append
      (n := f.data.length - f.surplus) hspl (by rw [← hneq]; simp; omega)
    have hne : (x.drop f.surplus).take (n - f.surplus) ≠ [] := by
      rw [← length_pos_iff]
      simp
      omega
    have htake : x.take f.surplus ++ (x.drop f.surplus).take (n - f.surplus) = x.take n := by
      rw [← take_add, Nat.add_sub_cancel' hn1]
    rw [if_pos hmore] at ho
    simp only [hcom, hdata, hne, Bool.true_eq_false, or_self, if_false, htake] at ho
    rw [ho]
    exact ⟨by rw [length_take_of_le hx], rfl, htra, rfl⟩
  · have hneq : n = f.surplus := max_eq_left (by omega)
    rw [if_neg hmore] at ho
    rw [ho, hneq]
    exact ⟨rfl, rfl, hrest, rfl⟩

/-- A payload that does not fit is rejected before anything is stored. -/
theorem receiveBytes_of_length_lt (ht : t.incoming = f.header ++ x)
    (hlen : length < f.data.length) : (receiveBytes length t flags).Rejected := by
  rcases Nat.lt_or_ge x.length f.surplus with hlt | hge
  · exact (receiveBytes_header f length flags ht).1 hlt
  · obtain ⟨t', -, hcall⟩ := (receiveBytes_header f length flags ht).2 hge
    rw [hcall, receivePayload_frame, if_pos hlen]
    exact ⟨rfl, nofun⟩

end Receive

/-! ### The frames that are sent -/

theorem applyMask_applyMask (m : Bytes) (i : ℕ) (bs : Bytes) :
    applyMask m i (applyMask m i bs) = bs := by
  induction bs generalizing i with
  | nil => rfl
  | cons b bs ih =>
    rw [applyMask, applyMask, ih, UInt8.xor_assoc, UInt8.xor_self, UInt8.xor_zero]

@[simp] theorem length_applyMask (m : Bytes) (i : ℕ) (bs : Bytes) :
    (applyMask m i bs).length = bs.length := by
  induction bs generalizing i with
  | nil => rfl
  | cons b bs ih => rw [applyMask, length_cons, length_cons, ih]

def chosenEncoding (length : ℕ) : LengthEncoding :=
  if length < 126 then .short else if length < 65536 then .medium else .long

theorem lt_bound_chosenEncoding {length : ℕ} (h : length ≤ INT_MAX) :
    length < (chosenEncoding length).bound := by
  unfold chosenEncoding
  split
  · next h1 => exact h1
  · split
    · next h2 => exact h2
    · exact lt_of_le_of_lt h (by decide)

theorem sendBytes_eq (mustMaskPayload : Bool) (mask : UInt32) (buffer : Bytes)
    (flags : UInt8) (h : buffer.length + MAX_HEADER_LENGTH ≤ INT_MAX) :
    ∃ f : Frame, sendBytes mustMaskPayload mask buffer flags = some f.bytes ∧
      f.flags = (if flags = 0 then FRAME_BINARY else flags) ∧ f.unmask f.data = buffer ∧
      f.data.length = buffer.length ∧ f.surplus ≤ f.data.length := by
  have hfits := lt_bound_chosenEncoding (Nat.le_of_add_right_le h)
  have hearly : ∀ f : Frame, f.data.length = buffer.length →
      f.encoding = chosenEncoding buffer.length → f.surplus ≤ f.data.length := by
    intro f hlen hcho
    rw [f.surplus_le_iff, hcho]
    by_cases h126 : buffer.length < 126
    · exact .inl (by rw [chosenEncoding, if_pos h126])
    · right
      rw [Frame.bytes, length_append, hlen, MAX_HEADER_LENGTH]
      omega
  have hsend : sendBytes mustMaskPayload mask buffer flags = some
      ([if flags = 0 then FRAME_BINARY else flags, (if mustMaskPayload then FRAME_FLAG_MASK else 0)
          ||| (chosenEncoding buffer.length).lengthBits buffer.length]
        ++ (chosenEncoding buffer.length).extended buffer.length
        ++ if mustMaskPayload then maskBytes mask ++ applyMask (maskBytes mask) 0 buffer
          else buffer) := by
    unfold sendBytes chosenEncoding
    rw [if_neg (by omega)]
    dsimp only
    split <;> split
    · simp [lengthBits, extended]
    · split <;> simp [lengthBits, extended]
    · simp [lengthBits, extended]
    · split <;> simp [lengthBits, extended]
  cases mustMaskPayload with
  | false =>
    refine ⟨⟨if flags = 0 then FRAME_BINARY else flags, chosenEncoding buffer.length, none, buffer,
      hfits⟩, ?_, rfl, rfl, rfl, hearly _ rfl rfl⟩
    rw [hsend]
    simp [Frame.bytes, Frame.header, Frame.lengthByte]
  | true =>
    have hlen := length_applyMask (maskBytes mask) 0 buffer
    refine ⟨⟨if flags = 0 then FRAME_BINARY else flags, chosenEncoding buffer.length, some mask,
      applyMask (maskBytes mask) 0 buffer, by rwa [hlen]⟩, ?_, rfl, applyMask_applyMask _ _ _, hlen,
        hearly _ hlen rfl⟩
    rw [hsend]
    simp [Frame.bytes, Frame.header, Frame.lengthByte]

/-- A call has returned exactly one frame: its payload and its flags, with the rest of the
stream still to come. -/
structure Delivers (o : Outcome) (payload : Bytes) (flags : UInt8) (rest : Bytes) :
    Prop where
  result : o.result = .ok payload.length
  buffer : o.buffer = payload
  frameFlags : o.frameFlags = flags
  incoming : o.transport.incoming = rest

/-- **The round trip of a frame.**  However the stream is cut into segments and whatever
follows, the payload is delivered, unless its length is within the size of a header of
the largest `int`, when it cannot be sent. -/
theorem receiveBytes_sendBytes_iff (mustMaskPayload : Bool) (mask : UInt32)
    (payload : Bytes) (flags : UInt8) :
    (∃ sent, sendBytes mustMaskPayload mask payload flags = some sent ∧
      ∀ (rest : Bytes) (sizes : ℕ → ℕ) (length : ℕ) (frameFlags : UInt8),
        payload.length ≤ length →
          Delivers (receiveBytes length ⟨sent ++ rest, sizes⟩ frameFlags) payload
            (if flags = 0 then FRAME_BINARY else flags) rest) ↔
      payload.length + MAX_HEADER_LENGTH ≤ INT_MAX := by
  constructor
  · rintro ⟨sent, hsent, -⟩
    by_contra h
    rw [sendBytes, if_pos (by omega)] at hsent
    cases hsent
  intro h
  obtain ⟨f, hsent, hfla, hunm, hlen, hearly⟩ :=
    sendBytes_eq mustMaskPayload mask payload flags h
  refine ⟨f.bytes, hsent, ?_⟩
  intro rest sizes length frameFlags hlng
  have hmax : max f.surplus f.data.length = f.data.length := max_eq_right hearly
  obtain ⟨hres, hbuf, hinc, hff⟩ := receiveBytes_frame f length frameFlags
    (t := ⟨f.bytes ++ rest, sizes⟩) (x := f.data ++ rest) (append_assoc _ _ _)
    (by rw [hmax, length_append]; omega) (by omega)
  rw [hmax] at hres hbuf hinc
  exact {
    result := by rw [hres, hlen]
    buffer := by rw [hbuf, take_left' rfl, hunm]
    frameFlags := by rw [hff, hfla]
    incoming := by rw [hinc, drop_left' rfl] }

/-- A payload of two gigabytes less fourteen bytes. -/
theorem sendBytes_overflow :
    ¬ ∃ sent, sendBytes false 0 (List.replicate 2147483634 0) FRAME_BINARY = some sent := by
  rintro ⟨sent, hsent⟩
  rw [sendBytes, if_pos (by rw [length_replicate]; decide)] at hsent
  cases hsent

/-! ### The frames that a peer may send -/

/-- What a call may do when the stream begins with the frame `f` and goes on with `rest`. -/
def Safe (f : Frame) (rest : Bytes) (length : ℕ) (o : Outcome) : Prop :=
  o.buffer.length ≤ length ∧
    ∀ n, o.result = .ok n → n = f.data.length ∧ o.transport.incoming = rest

theorem Outcome.Rejected.safe (h : o.Rejected) (f : Frame) (rest : Bytes)
    (length : ℕ) : Safe f rest length o := by
  refine ⟨?_, fun n hn => absurd hn (h.2 n)⟩
  rw [h.1]
  exact Nat.zero_le _

/-- **When a call keeps to the frame and to the buffer.**  It does unless a frame shorter
than the longest header gives its length in two or eight bytes and other bytes follow. -/
theorem receiveBytes_safe_iff (f : Frame) (rest : Bytes) (sizes : ℕ → ℕ) (length : ℕ)
    (frameFlags : UInt8) :
    Safe f rest length (receiveBytes length ⟨f.bytes ++ rest, sizes⟩ frameFlags) ↔
      f.encoding = .short ∨ MAX_HEADER_LENGTH ≤ f.bytes.length ∨ length < f.data.length ∨
        (f.bytes ++ rest).length < MAX_HEADER_LENGTH := by
  have hstr : (⟨f.bytes ++ rest, sizes⟩ : Transport).incoming = f.header ++ (f.data ++ rest) :=
    append_assoc _ _ _
  have hbyt : (f.bytes ++ rest).length = f.header.length + (f.data ++ rest).length := by
    rw [Frame.bytes, append_assoc, length_append]
  have hdata : (f.data ++ rest).length = f.data.length + rest.length := length_append
  have hsur : f.surplus = 2 + headerRest f.lengthByte - f.header.length := rfl
  have hle := f.length_header_le
  rw [← or_assoc, ← f.surplus_le_iff]
  by_cases hlen : length < f.data.length
  · have hrej := receiveBytes_of_length_lt f length frameFlags hstr hlen
    exact iff_of_true (hrej.safe ..) (.inr (.inl hlen))
  by_cases hearly : f.surplus ≤ f.data.length
  · have hmax : max f.surplus f.data.length = f.data.length := max_eq_right hearly
    obtain ⟨hres, hbuf, hinc, -⟩ := receiveBytes_frame f length frameFlags hstr
      (by omega) (by omega)
    rw [hmax] at hres hbuf hinc
    refine iff_of_true ⟨?_, ?_⟩ (.inl hearly)
    · rw [hbuf, take_left' rfl]
      have : (f.unmask f.data).length = f.data.length := by
        unfold Frame.unmask
        split <;> simp
      omega
    · intro n hn
      rw [hres] at hn
      injection hn with hn
      exact ⟨hn.symm, by rw [hinc, drop_left' rfl]⟩
  -- the bytes received early reach into what follows the frame
  have hnot : f.encoding ≠ .short := by
    intro h
    exact hearly (f.surplus_le_iff.mpr (.inl h))
  have htwe := f.headerRest_of_extended hnot
  by_cases htot : (f.bytes ++ rest).length < MAX_HEADER_LENGTH
  · rw [MAX_HEADER_LENGTH] at htot
    have hrej := (receiveBytes_header f length frameFlags hstr).1 (by omega)
    exact iff_of_true (hrej.safe ..) (.inr (.inr htot))
  have hmax : max f.surplus f.data.length = f.surplus := max_eq_left (by omega)
  have hlong : f.surplus ≤ (f.data ++ rest).length := by
    rw [MAX_HEADER_LENGTH] at htot
    omega
  obtain ⟨hres, -, -, -⟩ := receiveBytes_frame f length frameFlags hstr
    (by omega) (by omega)
  rw [hmax] at hres
  refine iff_of_false ?_ ?_
  · rintro ⟨-, hsafe⟩
    have := (hsafe _ hres).1
    omega
  · rintro (h | h | h)
    · exact hearly h
    · exact hlen h
    · exact htot h

/-- A frame of three bytes with a length in two bytes: ten bytes are stored in a buffer of
three, and seven bytes of what follows are lost. -/
theorem receiveBytes_overrun :
    ¬ Safe ⟨FRAME_BINARY, .medium, none, [0x61, 0x62, 0x63], by decide⟩ (List.replicate 7 0x7A) 3
      (receiveBytes 3
        ⟨[0x82, 0x7E, 0x00, 0x03, 0x61, 0x62, 0x63] ++ List.replicate 7 0x7A, fun _ => 0⟩ 0) := by
  rintro ⟨hbuf, -⟩
  exact absurd hbuf (by decide)

/-! ### Several frames -/

/-- A frame from which nothing is taken too early, and the length of a buffer that it fits. -/
structure Delivery extends Frame where
  length : ℕ
  length_le : data.length ≤ length
  early : encoding = .short ∨ MAX_HEADER_LENGTH ≤ toFrame.bytes.length

def receiveFrame (length : ℕ) (t : Transport) :
    (Except Exception ℕ × Bytes × UInt8) × Transport :=
  let o := receiveBytes length t 0
  ((o.result, o.buffer, o.frameFlags), o.transport)

/-- What it should return, store and note. -/
def Delivery.outcome (d : Delivery) : Except Exception ℕ × Bytes × UInt8 :=
  (.ok d.data.length, d.unmask d.data, d.flags)

/-- **Frames are received in order**, each by one call and with nothing of the next, however the
stream is cut into segments. -/
theorem receiveFrames_in_order (ds : List Delivery) (rest : Bytes) (sizes : ℕ → ℕ) :
    let stream := ds.flatMap (fun d => d.bytes) ++ rest
    let result := Transport.receiveAll receiveFrame (ds.map Delivery.length) ⟨stream, sizes⟩
    result.1 = ds.map Delivery.outcome ∧ result.2.incoming = rest := by
  intro stream
  have hpos : (⟨stream, sizes⟩ : Transport).incoming = stream := rfl
  refine Transport.receiveAll_eq ?_ hpos
  intro d t rest ht
  have hmax : max d.surplus d.data.length = d.data.length :=
    max_eq_right (d.surplus_le_iff.mpr d.early)
  have hstr : t.incoming = d.header ++ (d.data ++ rest) := ht.trans (append_assoc _ _ _)
  obtain ⟨hres, hbuf, hinc, hfla⟩ := receiveBytes_frame d.toFrame d.length 0 hstr
    (by rw [hmax, length_append]; omega) d.length_le
  rw [hmax] at hres hbuf hinc
  refine ⟨?_, hinc.trans (drop_left' rfl)⟩
  rw [receiveFrame, hres, hbuf, hfla, take_left' rfl]
  rfl

/-- A masked frame with two bytes, and one with neither mask nor data. -/
def twoFrames : List Delivery :=
  [⟨⟨0x81, .short, some 0x01020304, [0x65, 0x61], by decide⟩, 4, by decide, .inl rfl⟩,
    ⟨⟨0x8A, .short, none, [], by decide⟩, 4, by decide, .inl rfl⟩]

/-- They arrive byte by byte, and the byte `x` after them. -/
theorem receiveFrames_in_order_two :
    let result := Transport.receiveAll receiveFrame [4, 4]
      ⟨twoFrames.flatMap (fun d => d.bytes) ++ [0x78], fun _ => 0⟩
    result.1 = [(.ok 2, [0x61, 0x62], 0x81), (.ok 0, [], 0x8A)] ∧
      result.2.incoming = [0x78] :=
  receiveFrames_in_order twoFrames [0x78] fun _ => 0

end Poco.Net.WebSocketImpl
