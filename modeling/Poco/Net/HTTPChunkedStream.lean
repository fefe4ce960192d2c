import Poco.Hexadecimal
import Poco.Lib.Transport

/-!
# Chunked transfer

`HTTPChunkedStreamBuf` of `Net/src/HTTPChunkedStream.cpp`, over the receiving functions of
`HTTPSession` and the buffer of `BasicBufferedStreamBuf`.

The writer collects bytes in a buffer of 4096 bytes; what it holds when it is full, or when
the stream is flushed, is one chunk.  A session reads ahead into a buffer of its own, so what it
still delivers is the rest of that buffer and then the stream of the socket, its *position*.

## Main definitions

* `HTTPSession`, `Writer`, `Reader`: the session, and the stream buffer in its two uses.
* `writtenBy`: what the session gets from the operations and `close`.
* `readFromDevice`, `readAll`: one call, and calls until the end of the stream; the call number `i`
  asks for `lengths i + 1` bytes.
* `Chunk`: a chunk as any peer may write it: the digits of its size, an extension, and its bytes.
  The extension is on one line, and has no byte that the session takes for the end of file.
* `Body`, `Exchange`: a chunked body, and one without a trailer with the lengths in which its reader
  asks for bytes.

## Main results

* `writtenBy_eq`: the bytes are written in chunks that are not empty and fit the buffer.
* `readAll_eq`: a sequence of chunks is read, however the bytes arrive and are asked for.
* `chunked_roundTrip`, `readAll_body`, `readBodies_in_order`: what was written is read, a body from
  any peer is, and so are bodies one after another.
-/

namespace Poco.Net

open List Ascii

/-! ### Sessions -/

/-- The receiving side of an `HTTPSession`: the bytes between `_pCurrent` and `_pEnd`, and
the socket. -/
structure HTTPSession where
  buffer : Bytes
  transport : Transport

namespace HTTPSession

def BUFFER_SIZE : ℕ := 4096

/-- The bytes that the session still delivers. -/
def position (s : HTTPSession) : Bytes := s.buffer ++ s.transport.incoming

def refill (s : HTTPSession) : HTTPSession :=
  let (data, t) := s.transport.receive BUFFER_SIZE
  ⟨data, t⟩

/-- `HTTPSession::get`.  The byte goes through the signed type `char`, so `0xFF` comes out
as the end of file. -/
def get (s : HTTPSession) : Option UInt8 × HTTPSession :=
  let s := if s.buffer = [] then s.refill else s
  match s.buffer with
  | [] => (none, s)
  | c :: buffer => (if c = 0xFF then none else some c, ⟨buffer, s.transport⟩)

/-- `HTTPSession::read`: the bytes stored, and the session after it. -/
def read (s : HTTPSession) (length : ℕ) : Bytes × HTTPSession :=
  if s.buffer ≠ [] then (s.buffer.take length, ⟨s.buffer.drop length, s.transport⟩)
  else
    let (data, t) := s.transport.receive length
    (data, ⟨[], t⟩)

variable {s : HTTPSession} {c : UInt8} {l : Bytes}

theorem position_refill (h : s.buffer = []) : s.refill.position = s.position := by
  rw [position, position, h]
  exact s.transport.receive_append BUFFER_SIZE

theorem get_eq (h : s.position = c :: l) :
    ∃ s', s.get = (if c = 0xFF then none else some c, s') ∧ s'.position = l := by
  have hbuf : ∀ {b : Bytes} {t : Transport}, b ++ t.incoming = c :: l → b ≠ [] →
      ∃ b', b = c :: b' ∧ b' ++ t.incoming = l := by
    intro b t hb hne
    cases b with
    | nil => exact absurd rfl hne
    | cons d b =>
      obtain ⟨rfl, hl⟩ := List.cons.inj hb
      exact ⟨b, rfl, hl⟩
  unfold get
  by_cases hs : s.buffer = []
  · rw [if_pos hs]
    have hne : s.refill.buffer ≠ [] := by
      refine Transport.receive_ne_nil ?_ (by decide)
      rw [position, hs] at h
      simp only [nil_append] at h
      rw [h]
      exact cons_ne_nil _ _
    obtain ⟨b', hb, hl⟩ := hbuf ((position_refill hs).trans h) hne
    refine ⟨⟨b', s.refill.transport⟩, ?_, hl⟩
    simp only [hb]
  · rw [if_neg hs]
    obtain ⟨b', hb, hl⟩ := hbuf h hs
    refine ⟨⟨b', s.transport⟩, ?_, hl⟩
    simp only [hb]

theorem read_eq {length : ℕ} (hlen : 0 < length) (h : s.position ≠ []) :
    (s.read length).1 ≠ [] ∧ (s.read length).1.length ≤ length ∧
      (s.read length).1 ++ (s.read length).2.position = s.position := by
  unfold read position
  by_cases hs : s.buffer = []
  · rw [if_neg (not_not.mpr hs)]
    rw [position, hs] at h
    refine ⟨Transport.receive_ne_nil h hlen, s.transport.length_receive_le length, ?_⟩
    rw [hs]
    exact s.transport.receive_append length
  · rw [if_pos hs]
    refine ⟨?_, length_take_le _ _, ?_⟩
    · rw [ne_eq, take_eq_nil_iff]
      rintro (h0 | h0)
      · omega
      · exact hs h0
    · rw [← append_assoc, take_append_drop]

end HTTPSession

namespace HTTPChunkedStreamBuf

def CRLF : Bytes := [0x0D, 0x0A]

/-! ### Writing -/

/-- `HTTPChunkedStreamBuf::writeToDevice`: what is written to the session. -/
def writeToDevice (buffer : Bytes) : Bytes :=
  NumberFormatter.appendHex buffer.length ++ CRLF ++ buffer ++ CRLF

def lastChunk : Bytes := [0x30, 0x0D, 0x0A, 0x0D, 0x0A]

/-- An `HTTPChunkedStreamBuf` for output: the bytes in the buffer of
`BasicBufferedStreamBuf`, and what the session has got. -/
structure Writer where
  pending : Bytes
  sent : Bytes
  deriving DecidableEq, Repr

namespace Writer

def flushBuffer (w : Writer) : Writer := ⟨[], w.sent ++ writeToDevice w.pending⟩

/-- One byte, with a call of `overflow` when the buffer is full but for one byte. -/
def sputc (w : Writer) (c : UInt8) : Writer :=
  if w.pending.length < HTTPSession.BUFFER_SIZE - 1 then ⟨w.pending ++ [c], w.sent⟩
  else flushBuffer ⟨w.pending ++ [c], w.sent⟩

def sync (w : Writer) : Writer := if w.pending = [] then w else w.flushBuffer

end Writer

inductive Op where
  | write (s : Bytes)
  | flush

def Op.bytes : Op → Bytes
  | write s => s
  | flush => []

def Writer.step (w : Writer) : Op → Writer
  | .write s => s.foldl sputc w
  | .flush => w.sync

def writtenBy (ops : List Op) : Bytes :=
  (ops.foldl Writer.step ⟨[], []⟩).sync.sent ++ lastChunk

/-- The writer has written `s`: some of it as chunks, the rest still in its buffer. -/
structure Writer.Holds (w : Writer) (s : Bytes) (pieces : List Bytes) : Prop where
  sent : w.sent = pieces.flatMap writeToDevice
  bytes : pieces.flatten ++ w.pending = s
  fits : ∀ p ∈ pieces, p ≠ [] ∧ p.length ≤ HTTPSession.BUFFER_SIZE
  pending : w.pending.length < HTTPSession.BUFFER_SIZE

namespace Writer.Holds

variable {w : Writer} {s : Bytes} {pieces : List Bytes}

theorem flushBuffer {sent : Bytes}
    (hsent : sent = pieces.flatMap writeToDevice) (hbyt : pieces.flatten ++ p = s)
    (hfits : ∀ p ∈ pieces, p ≠ [] ∧ p.length ≤ HTTPSession.BUFFER_SIZE) (hne : p ≠ [])
    (hlen : p.length ≤ HTTPSession.BUFFER_SIZE) :
    (Writer.flushBuffer ⟨p, sent⟩).Holds s (pieces ++ [p]) where
  sent := by simp [Writer.flushBuffer, hsent]
  bytes := by simpa [Writer.flushBuffer] using hbyt
  fits := forall_mem_append.mpr ⟨hfits, forall_mem_singleton.mpr ⟨hne, hlen⟩⟩
  pending := by
    show 0 < HTTPSession.BUFFER_SIZE
    decide

theorem sputc (h : w.Holds s pieces) (c : UInt8) : ∃ ps, (w.sputc c).Holds (s ++ [c]) ps := by
  unfold Writer.sputc
  have hbyt : pieces.flatten ++ (w.pending ++ [c]) = s ++ [c] := by
    rw [← append_assoc, h.bytes]
  have hlen : (w.pending ++ [c]).length ≤ HTTPSession.BUFFER_SIZE := by
    have := h.pending
    simp only [length_append, length_singleton]
    omega
  split
  · next hroom =>
    refine ⟨pieces, h.sent, hbyt, h.fits, ?_⟩
    simp only [length_append, length_singleton]
    omega
  · exact ⟨_, flushBuffer h.sent hbyt h.fits (by simp) hlen⟩

theorem sync (h : w.Holds s pieces) : ∃ ps, w.sync.Holds s ps ∧ w.sync.pending = [] := by
  unfold Writer.sync
  split
  · next hp => exact ⟨pieces, h, hp⟩
  · next hp => exact ⟨_, flushBuffer h.sent h.bytes h.fits hp h.pending.le, rfl⟩

theorem write (t : Bytes) : ∀ {w : Writer} {s : Bytes} {pieces : List Bytes},
    w.Holds s pieces → ∃ ps, (t.foldl Writer.sputc w).Holds (s ++ t) ps := by
  induction t with
  | nil =>
    intro w s pieces h
    exact ⟨pieces, by rwa [append_nil]⟩
  | cons c t ih =>
    intro w s pieces h
    obtain ⟨ps, hps⟩ := h.sputc c
    obtain ⟨qs, hqs⟩ := ih hps
    refine ⟨qs, ?_⟩
    rwa [append_assoc] at hqs

theorem steps (ops : List Op) : ∀ {w : Writer} {s : Bytes} {pieces : List Bytes},
    w.Holds s pieces → ∃ ps, (ops.foldl Writer.step w).Holds (s ++ ops.flatMap Op.bytes) ps := by
  induction ops with
  | nil =>
    intro w s pieces h
    exact ⟨pieces, by simpa using h⟩
  | cons op ops ih =>
    intro w s pieces h
    obtain ⟨ps, hps⟩ : ∃ ps, (w.step op).Holds (s ++ op.bytes) ps := by
      cases op with
      | write t => exact h.write t
      | flush =>
        obtain ⟨ps, hps, -⟩ := h.sync
        exact ⟨ps, by rwa [Op.bytes, append_nil]⟩
    obtain ⟨qs, hqs⟩ := ih hps
    refine ⟨qs, ?_⟩
    rwa [append_assoc] at hqs

end Writer.Holds

theorem writtenBy_eq (ops : List Op) : ∃ pieces : List Bytes,
    writtenBy ops = pieces.flatMap writeToDevice ++ lastChunk ∧
      pieces.flatten = ops.flatMap Op.bytes ∧
      ∀ p ∈ pieces, p ≠ [] ∧ p.length ≤ HTTPSession.BUFFER_SIZE := by
  have hinit : (⟨[], []⟩ : Writer).Holds [] [] := ⟨rfl, rfl, by simp, by decide⟩
  obtain ⟨ps, hps⟩ := hinit.steps ops
  obtain ⟨qs, hqs, hpen⟩ := hps.sync
  refine ⟨qs, by rw [writtenBy, hqs.sent], ?_, hqs.fits⟩
  have := hqs.bytes
  rwa [hpen, append_nil, nil_append] at this

/-! ### Reading -/

/-- The loop `while (Poco::Ascii::isSpace(ch)) ch = _session.get()`. -/
def skipSpace : ℕ → Option UInt8 → HTTPSession → Option UInt8 × HTTPSession
  | 0, ch, s => (ch, s)
  | n + 1, ch, s =>
    if ch.any isSpace then
      let (ch, s) := s.get
      skipSpace n ch s
    else (ch, s)

/-- The loop that collects `chunkLen`. -/
def readHex : ℕ → Option UInt8 → HTTPSession → Bytes × Option UInt8 × HTTPSession
  | 0, ch, s => ([], ch, s)
  | n + 1, ch, s =>
    match ch with
    | none => ([], none, s)
    | some c =>
      if isHexDigit c then
        let (ch, s) := s.get
        let r := readHex n ch s
        (c :: r.1, r.2)
      else ([], some c, s)

/-- The loop `while (ch != eof && ch != '\n') ch = _session.get()`. -/
def skipLine : ℕ → Option UInt8 → HTTPSession → HTTPSession
  | 0, _, s => s
  | n + 1, ch, s =>
    if ch = none ∨ ch = some 0x0A then s
    else
      let (ch, s) := s.get
      skipLine n ch s

/-- An `HTTPChunkedStreamBuf` for input: the session, and `_chunk`, the number of bytes of
the current chunk still to be read. -/
structure Reader where
  session : HTTPSession
  chunk : ℕ

namespace Reader

/-- The head of a chunk, which `readFromDevice` reads when `_chunk` is zero.  `none` is
`return eof`.  Every round of a loop takes a byte, so a fuel above their number suffices. -/
def readHead (s : HTTPSession) : Option Reader × HTTPSession :=
  let fuel := s.position.length + 1
  let (ch, s) := s.get
  let (ch, s) := skipSpace fuel ch s
  let (chunkLen, ch, s) := readHex fuel ch s
  let s := skipLine fuel ch s
  ((NumberParser.tryParseHex chunkLen).map fun chunk => ⟨s, chunk.toNat⟩, s)

/-- `readFromDevice` when `_chunk` is set: the value returned, the bytes stored in the
buffer, and the reader after it. -/
def readChunk (r : Reader) (length : ℕ) : ℤ × Bytes × Reader :=
  if r.chunk > 0 then
    let length := if length > r.chunk then r.chunk else length
    let (data, s) := r.session.read length
    (data.length, data, ⟨s, r.chunk - data.length⟩)
  else
    let (ch, s) := r.session.get
    (0, [], ⟨skipLine (r.session.position.length + 1) ch s, 0⟩)

def readFromDevice (r : Reader) (length : ℕ) : ℤ × Bytes × Reader :=
  if r.chunk = 0 then
    match readHead r.session with
    | (none, s) => (-1, [], ⟨s, 0⟩)
    | (some r, _) => r.readChunk length
  else r.readChunk length

def readAll : ℕ → (ℕ → ℕ) → Reader → Bytes × Reader
  | 0, _, r => ([], r)
  | n + 1, lengths, r =>
    let (k, data, r) := r.readFromDevice (lengths 0 + 1)
    if k ≤ 0 then ([], r)
    else
      let rest := readAll n (fun i => lengths (i + 1)) r
      (data ++ rest.1, rest.2)

end Reader

/-! ### The loops over the head of a chunk -/

/-- The byte taken last and those still to come. -/
def At (ch : Option UInt8) (s : HTTPSession) (l : Bytes) : Prop :=
  ∃ c t, l = c :: t ∧ ch = some c ∧ s.position = t

variable {s : HTTPSession} {l w : Bytes}

theorem at_get (hs : s.position = w ++ c :: l) (hw : ∀ y ∈ w, y ≠ 0xFF)
    (hc : c ≠ 0xFF) : At s.get.1 s.get.2 (w ++ c :: l) := by
  obtain ⟨x, t, hw', hx⟩ : ∃ x t, w ++ c :: l = x :: t ∧ x ≠ 0xFF := by
    cases w with
    | nil => exact ⟨c, l, rfl, hc⟩
    | cons x w => exact ⟨x, _, rfl, hw x mem_cons_self⟩
  rw [hw'] at hs ⊢
  obtain ⟨s', hget, hs'⟩ := HTTPSession.get_eq hs
  rw [hget]
  exact ⟨x, t, rfl, if_neg hx, hs'⟩

theorem skipSpace_eq (hc : isSpace c = false) (hc' : c ≠ 0xFF) :
    ∀ (w : Bytes) {n : ℕ} {ch : Option UInt8} {s : HTTPSession},
      (∀ x ∈ w, isSpace x = true ∧ x ≠ 0xFF) → w.length ≤ n → At ch s (w ++ c :: l) →
      At (skipSpace n ch s).1 (skipSpace n ch s).2 (c :: l) := by
  intro w
  induction w with
  | nil =>
    intro n ch s _ _ hat
    cases n with
    | zero => exact hat
    | succ n =>
      obtain ⟨d, t, ⟨⟩, rfl, hs⟩ := hat
      rw [skipSpace, if_neg (by simp [hc])]
      exact ⟨c, l, rfl, rfl, hs⟩
  | cons x w ih =>
    rintro n ch s hw hn ⟨d, t, ⟨⟩, rfl, hs⟩
    obtain ⟨n, rfl⟩ : ∃ k, n = k + 1 := ⟨n - 1, by simp at hn; omega⟩
    have hrest : ∀ y ∈ w, isSpace y = true ∧ y ≠ 0xFF := fun y hy => hw y (mem_cons_of_mem _ hy)
    rw [skipSpace, if_pos (by simpa using (hw x mem_cons_self).1)]
    exact ih hrest (by simpa using hn) (at_get hs (fun y hy => (hrest y hy).2) hc')

theorem readHex_eq (hc : isHexDigit c = false) (hc' : c ≠ 0xFF) :
    ∀ (w : Bytes) {n : ℕ} {ch : Option UInt8} {s : HTTPSession},
      (∀ x ∈ w, isHexDigit x = true ∧ x ≠ 0xFF) → w.length ≤ n → At ch s (w ++ c :: l) →
      (readHex n ch s).1 = w ∧ At (readHex n ch s).2.1 (readHex n ch s).2.2 (c :: l) := by
  intro w
  induction w with
  | nil =>
    intro n ch s _ _ hat
    cases n with
    | zero => exact ⟨rfl, hat⟩
    | succ n =>
      obtain ⟨d, t, ⟨⟩, rfl, hs⟩ := hat
      simp only [readHex, hc, Bool.false_eq_true, if_false]
      exact ⟨trivial, c, l, rfl, rfl, hs⟩
  | cons x w ih =>
    rintro n ch s hw hn ⟨d, t, ⟨⟩, rfl, hs⟩
    obtain ⟨n, rfl⟩ : ∃ k, n = k + 1 := ⟨n - 1, by simp at hn; omega⟩
    have hrest : ∀ y ∈ w, isHexDigit y = true ∧ y ≠ 0xFF :=
      fun y hy => hw y (mem_cons_of_mem _ hy)
    obtain ⟨ih1, ih2⟩ := ih hrest (by simpa using hn) (at_get hs (fun y hy => (hrest y hy).2) hc')
    simp only [readHex, (hw x mem_cons_self).1, if_true]
    exact ⟨by rw [ih1], ih2⟩

theorem skipLine_eq : ∀ (w : Bytes) {n : ℕ} {ch : Option UInt8}
    {s : HTTPSession}, (∀ x ∈ w, x ≠ 0x0A ∧ x ≠ 0xFF) → w.length < n →
      At ch s (w ++ 0x0A :: l) → (skipLine n ch s).position = l := by
  intro w
  induction w with
  | nil =>
    rintro n ch s - hn ⟨d, t, ⟨⟩, rfl, hs⟩
    obtain ⟨n, rfl⟩ : ∃ k, n = k + 1 := ⟨n - 1, by simp at hn; omega⟩
    rw [skipLine, if_pos (.inr rfl)]
    exact hs
  | cons x w ih =>
    rintro n ch s hw hn ⟨d, t, ⟨⟩, rfl, hs⟩
    obtain ⟨n, rfl⟩ : ∃ k, n = k + 1 := ⟨n - 1, by simp at hn; omega⟩
    have hrest : ∀ y ∈ w, y ≠ 0x0A ∧ y ≠ 0xFF := fun y hy => hw y (mem_cons_of_mem _ hy)
    rw [skipLine, if_neg (by simpa using (hw x mem_cons_self).1)]
    exact ih hrest (by simpa using hn) (at_get hs (fun y hy => (hrest y hy).2) (by decide))

/-- Whatever a line holds, nothing after it is skipped. -/
theorem suffix_skipLine (w : Bytes)
    (hs : s.position = w ++ 0x0A :: l) : l <:+ (skipLine n s.get.1 s.get.2).position := by
  induction w generalizing n s with
  | nil =>
    obtain ⟨s', hget, rfl⟩ := HTTPSession.get_eq hs
    rw [hget]
    cases n with
    | zero => exact suffix_rfl
    | succ n => rw [skipLine, if_pos (.inr rfl)]
  | cons x w ih =>
    obtain ⟨s', hget, hs'⟩ := HTTPSession.get_eq hs
    generalize (if x = 0xFF then none else some x) = ch at hget
    have hsuf : l <:+ s'.position := by
      rw [hs']
      exact (suffix_cons _ _).trans (suffix_append _ _)
    rw [hget]
    cases n with
    | zero => exact hsuf
    | succ n =>
      rw [skipLine]
      split
      · exact hsuf
      · exact ih hs'

theorem isHexDigit_spec : ∀ c : UInt8, isHexDigit c = true → isSpace c = false ∧ c ≠ 0xFF := by
  decide

/-- What stands before the head of a chunk: nothing, or the end of the chunk before. -/
def Gap (w : Bytes) : Prop := w = [] ∨ w = CRLF

structure Chunk where
  size : Bytes
  extension : Bytes
  data : Bytes
  size_ne : size ≠ []
  digits : ∀ x ∈ size, isHexDigit x = true
  value : hexVal 0 size = data.length
  separated : ∀ x ∈ extension.head?, isHexDigit x = false
  line : ∀ x ∈ extension, x ≠ 0x0A ∧ x ≠ 0xFF

def Chunk.head (c : Chunk) : Bytes := c.size ++ (c.extension ++ CRLF)

def Chunk.text (c : Chunk) : Bytes := c.head ++ (c.data ++ CRLF)

def Chunk.written (buffer : Bytes) : Chunk where
  size := NumberFormatter.appendHex buffer.length
  extension := []
  data := buffer
  size_ne := (NumberFormatter.appendHex_spec _).1
  digits := (NumberFormatter.appendHex_spec _).2.1
  value := (NumberFormatter.appendHex_spec _).2.2
  separated := nofun
  line := nofun

theorem Chunk.text_written (p : Bytes) : (written p).text = writeToDevice p := by
  simp [text, head, written, writeToDevice]

theorem Chunk.length_data_le (cs : List Chunk) :
    (cs.flatMap data).length ≤ (cs.flatMap text).length := by
  induction cs with
  | nil => exact le_rfl
  | cons c cs ih =>
    simp only [flatMap_cons, length_append, text]
    omega

namespace Reader

theorem readHead_eq {c : Chunk} (hw : Gap w) (hfits : c.data.length < 2 ^ 32)
    (hs : s.position = w ++ (c.head ++ l)) :
    ∃ s', readHead s = (some ⟨s', c.data.length⟩, s') ∧ s'.position = l := by
  obtain ⟨x, ds, hds⟩ := exists_cons_of_ne_nil c.size_ne
  have hdig : ∀ x ∈ c.size, isHexDigit x = true ∧ x ≠ 0xFF :=
    fun x hx => ⟨c.digits x hx, (isHexDigit_spec x (c.digits x hx)).2⟩
  have hspc : ∀ x ∈ w, isSpace x = true ∧ x ≠ 0xFF := by
    rcases hw with rfl | rfl <;> decide
  obtain ⟨hx1, hx2⟩ := isHexDigit_spec x (c.digits x (by rw [hds]; exact mem_cons_self))
  -- what follows the digits on their line
  have hline : ∀ y ∈ c.extension ++ [0x0D], y ≠ 0x0A ∧ y ≠ 0xFF :=
    forall_mem_append.mpr ⟨c.line, by decide⟩
  obtain ⟨y, es, hes, hy⟩ : ∃ y es, c.extension ++ [0x0D] = y :: es ∧ isHexDigit y = false := by
    cases hext : c.extension with
    | nil => exact ⟨0x0D, [], rfl, by decide⟩
    | cons y es => exact ⟨y, es ++ [0x0D], rfl, c.separated y (by rw [hext]; rfl)⟩
  have hhead : c.head ++ l = c.size ++ (y :: es ++ 0x0A :: l) := by
    rw [← hes]
    simp [Chunk.head, CRLF]
  rw [hhead] at hs
  have hlen := congrArg List.length hs
  simp only [length_append, length_cons] at hlen
  have hs0 : s.position = w ++ x :: (ds ++ (y :: es ++ 0x0A :: l)) := by
    rw [hs, hds]
    rfl
  have h1 := at_get hs0 (fun y hy => (hspc y hy).2) hx2
  have h2 := skipSpace_eq hx1 hx2 w (n := s.position.length + 1) hspc (by omega) h1
  rw [← cons_append, ← hds] at h2
  rw [hes] at hline
  obtain ⟨h3, h4⟩ := readHex_eq hy (hline y mem_cons_self).2 _ (n := s.position.length + 1)
    hdig (by omega) h2
  have h5 := skipLine_eq _ (n := s.position.length + 1) hline (by rw [length_cons]; omega) h4
  refine ⟨_, ?_, h5⟩
  unfold readHead
  dsimp only
  rw [h3, NumberParser.tryParseHex_eq c.size_ne c.digits (by rwa [c.value]), c.value]
  rfl

/-! ### Reading chunks -/

/-- The reader stands in a chunk of which `d` is still to be read, before the chunks `cs`,
the line of the chunk `last` and `rest`. -/
structure Stands (r : Reader) (d : Bytes) (cs : List Chunk) (last : Chunk)
    (rest : Bytes) : Prop where
  chunk : r.chunk = d.length
  position : ∃ w, Gap w ∧ (d ≠ [] → w = CRLF) ∧
    r.session.position = d ++ (w ++ (cs.flatMap Chunk.text ++ (last.head ++ rest)))
  fits : ∀ c ∈ cs, c.data ≠ [] ∧ c.data.length < 2 ^ 32
  last_data : last.data = []

/-- What is left of `rest` after the last call. -/
def Ends (s : HTTPSession) (rest : Bytes) : Prop :=
  ∃ s₀ : HTTPSession, s₀.position = rest ∧
    s = skipLine (s₀.position.length + 1) s₀.get.1 s₀.get.2

variable {r : Reader} {d rest : Bytes} {cs : List Chunk} {last : Chunk}

theorem Stands.readChunk (h : r.Stands d cs last rest) (hd : d ≠ [])
    (length : ℕ) (hl : 0 < length) :
    ∃ x y r', r.readChunk length = (x.length, x, r') ∧ d = x ++ y ∧ x ≠ [] ∧
      r'.Stands y cs last rest := by
  obtain ⟨w, -, hgap, hpos⟩ := h.position
  obtain rfl := hgap hd
  have hdlen := length_pos_iff.mpr hd
  have hnon : r.session.position ≠ [] := by
    rw [hpos]
    simp [hd]
  unfold Reader.readChunk
  rw [h.chunk, if_pos hdlen]
  generalize hk : (if length > d.length then d.length else length) = k
  have hle : 0 < k ∧ k ≤ d.length := by
    rw [← hk]
    split <;> omega
  obtain ⟨hne, hread, happ⟩ := HTTPSession.read_eq hle.1 hnon
  dsimp only
  generalize r.session.read k = p at hne hread happ ⊢
  obtain ⟨data, s⟩ := p
  -- the bytes delivered are bytes of the chunk
  obtain ⟨y, rfl⟩ : data <+: d :=
    prefix_of_prefix_length_le ⟨_, happ.trans hpos⟩ (prefix_append _ _) (hread.trans hle.2)
  rw [hpos, append_assoc, append_cancel_left_eq] at happ
  refine ⟨data, y, _, rfl, rfl, hne, ?_⟩
  exact { h with chunk := by simp, position := ⟨CRLF, .inr rfl, fun _ => rfl, happ⟩ }

/-- **One call.**  It delivers bytes of the current chunk, or of the next one; after the last
one it delivers nothing and leaves the rest of the stream. -/
theorem Stands.readFromDevice (h : r.Stands d cs last rest) (length : ℕ) (hl : 0 < length) :
    (d = [] ∧ cs = [] ∧ ∃ r', r.readFromDevice length = (0, [], r') ∧ Ends r'.session rest) ∨
      ∃ x y cs' r', r.readFromDevice length = (x.length, x, r') ∧ x ≠ [] ∧
        d ++ cs.flatMap Chunk.data = x ++ (y ++ cs'.flatMap Chunk.data) ∧
        r'.Stands y cs' last rest := by
  by_cases hd : d = []
  · subst hd
    have hchu : r.chunk = 0 := h.chunk
    obtain ⟨w, hgap, -, hpos⟩ := h.position
    rw [nil_append] at hpos
    unfold Reader.readFromDevice
    rw [if_pos hchu]
    cases cs with
    | nil =>
      left
      obtain ⟨s', hhead, hs'⟩ := readHead_eq hgap (by rw [h.last_data]; decide) hpos
      rw [hhead, h.last_data]
      exact ⟨rfl, rfl, _, rfl, s', hs', rfl⟩
    | cons c cs =>
      right
      obtain ⟨hc, hfits⟩ := h.fits c mem_cons_self
      obtain ⟨s', hhead, hs'⟩ := readHead_eq hgap hfits
        (l := c.data ++ (CRLF ++ (cs.flatMap Chunk.text ++ (last.head ++ rest)))) (by
        rw [hpos]
        simp [Chunk.text])
      have hsta : Stands ⟨s', c.data.length⟩ c.data cs last rest :=
        ⟨rfl, ⟨CRLF, .inr rfl, fun _ => rfl, hs'⟩, fun q hq => h.fits q (mem_cons_of_mem _ hq),
          h.last_data⟩
      obtain ⟨x, y, r', hcall, hxy, hx, hr'⟩ := hsta.readChunk hc length hl
      rw [hhead]
      refine ⟨x, y, cs, r', hcall, hx, ?_, hr'⟩
      rw [flatMap_cons, hxy, nil_append, append_assoc]
  · right
    obtain ⟨x, y, r', hcall, hxy, hx, hr'⟩ := h.readChunk hd length hl
    have hchu : r.chunk ≠ 0 := by
      rw [h.chunk]
      exact fun h0 => hd (length_eq_zero_iff.mp h0)
    refine ⟨x, y, cs, r', ?_, hx, ?_, hr'⟩
    · unfold Reader.readFromDevice
      rw [if_neg hchu, hcall]
    · rw [hxy, append_assoc]

theorem readAll_eq : ∀ {n : ℕ} (lengths : ℕ → ℕ) {r : Reader}
    {d : Bytes} {cs : List Chunk}, r.Stands d cs last rest →
      (d ++ cs.flatMap Chunk.data).length < n →
      (readAll n lengths r).1 = d ++ cs.flatMap Chunk.data ∧
        Ends (readAll n lengths r).2.session rest := by
  intro n
  induction n with
  | zero =>
    intro lengths r d cs _ hn
    omega
  | succ n ih =>
    intro lengths r d cs h hn
    rcases h.readFromDevice (lengths 0 + 1) (by omega) with
      ⟨rfl, rfl, r', hcall, hr'⟩ | ⟨x, y, cs', r', hcall, hx, hspl, hr'⟩
    · rw [readAll, hcall]
      exact ⟨rfl, hr'⟩
    have hxlen := length_pos_iff.mpr hx
    rw [hspl, length_append] at hn
    obtain ⟨ih1, ih2⟩ := ih (fun i => lengths (i + 1)) hr' (by omega)
    rw [readAll, hcall, hspl]
    dsimp only
    rw [if_neg (by omega)]
    exact ⟨by rw [ih1], ih2⟩

/-- A stream of chunks, of which some bytes are already in the buffer of the session. -/
theorem readAll_stream (hfits : ∀ c ∈ cs, c.data ≠ [] ∧ c.data.length < 2 ^ 32)
    (hlast : last.data = []) (buffered : ℕ) (sizes lengths : ℕ → ℕ)
    (hstr : stream = cs.flatMap Chunk.text ++ (last.head ++ rest)) :
    let session : HTTPSession := ⟨stream.take buffered, ⟨stream.drop buffered, sizes⟩⟩
    let result := readAll (stream.length + 1) lengths ⟨session, 0⟩
    result.1 = cs.flatMap Chunk.data ∧ Ends result.2.session rest := by
  intro session
  have hsta : Stands ⟨session, 0⟩ [] cs last rest := by
    refine ⟨rfl, ⟨[], .inl rfl, nofun, ?_⟩, hfits, hlast⟩
    rw [nil_append, nil_append, ← hstr]
    exact take_append_drop _ _
  refine readAll_eq lengths hsta ?_
  have := Chunk.length_data_le cs
  rw [nil_append, hstr, length_append]
  omega

theorem Ends.position (h : Ends s (CRLF ++ rest)) : s.position = rest := by
  obtain ⟨s₀, hs₀, rfl⟩ := h
  have hat := at_get (w := [0x0D]) (c := 0x0A) (l := rest) hs₀ (by decide) (by decide)
  refine skipLine_eq [0x0D] (by decide) ?_ hat
  rw [hs₀]
  simp [CRLF]

end Reader

/-- **The round trip.**  Whatever is written and flushed before the stream is closed, and
however its bytes arrive at the other side, `buffered` of them already in the buffer of the
session, and are asked for there, exactly the bytes written are read, and the session
stands at the first byte after the last chunk. -/
theorem chunked_roundTrip (ops : List Op) (rest : Bytes) (buffered : ℕ) (sizes : ℕ → ℕ)
    (lengths : ℕ → ℕ) :
    let stream := writtenBy ops ++ rest
    let session : HTTPSession := ⟨stream.take buffered, ⟨stream.drop buffered, sizes⟩⟩
    let result := Reader.readAll (stream.length + 1) lengths ⟨session, 0⟩
    result.1 = ops.flatMap Op.bytes ∧ result.2.session.position = rest := by
  intro stream session result
  obtain ⟨pieces, hwri, hbyt, hfits⟩ := writtenBy_eq ops
  have hstr : stream = (pieces.map Chunk.written).flatMap Chunk.text
      ++ ((Chunk.written []).head ++ (CRLF ++ rest)) := by
    show writtenBy ops ++ rest = _
    rw [hwri, flatMap_map, funext Chunk.text_written, append_assoc]
    rfl
  have hchu : ∀ c ∈ pieces.map Chunk.written, c.data ≠ [] ∧ c.data.length < 2 ^ 32 := by
    intro c hc
    obtain ⟨p, hp, rfl⟩ := mem_map.mp hc
    exact ⟨(hfits p hp).1, lt_of_le_of_lt (hfits p hp).2 (by decide)⟩
  obtain ⟨hdata, hends⟩ := Reader.readAll_stream hchu rfl buffered sizes lengths hstr
  refine ⟨hdata.trans ?_, hends.position⟩
  rw [flatMap_map, ← hbyt]
  exact flatMap_id

/-! ### Bodies from any peer -/

/-- A chunked body: chunks that are not empty, a last one that is, and the header fields of
the trailer. -/
structure Body where
  chunks : List Chunk
  last : Chunk
  trailer : List Bytes
  fits : ∀ c ∈ chunks, c.data ≠ [] ∧ c.data.length < 2 ^ 32
  last_data : last.data = []
  trailer_ne : ∀ field ∈ trailer, field ≠ []

/-- The body in the stream, with the empty line after the trailer. -/
def Body.text (b : Body) : Bytes :=
  b.chunks.flatMap Chunk.text ++ (b.last.head ++ (b.trailer.flatMap (· ++ CRLF) ++ CRLF))

/-- **A body from any peer.**  Its bytes are read, but one line only is skipped after the last
chunk: the session stands at the first byte after the body exactly if there is no trailer. -/
theorem readAll_body (b : Body) (rest : Bytes) (buffered : ℕ) (sizes lengths : ℕ → ℕ) :
    let stream := b.text ++ rest
    let session : HTTPSession := ⟨stream.take buffered, ⟨stream.drop buffered, sizes⟩⟩
    let result := Reader.readAll (stream.length + 1) lengths ⟨session, 0⟩
    result.1 = b.chunks.flatMap Chunk.data ∧
      (result.2.session.position = rest ↔ b.trailer = []) := by
  intro stream session result
  have hstr : stream = b.chunks.flatMap Chunk.text
      ++ (b.last.head ++ (b.trailer.flatMap (· ++ CRLF) ++ (CRLF ++ rest))) := by
    simp [stream, Body.text]
  obtain ⟨hdata, hends⟩ :=
    Reader.readAll_stream b.fits b.last_data buffered sizes lengths hstr
  refine ⟨hdata, ?_⟩
  cases htra : b.trailer with
  | nil =>
    rw [htra] at hends
    exact iff_of_true hends.position rfl
  | cons field fields =>
    refine iff_of_false ?_ (cons_ne_nil _ _)
    obtain ⟨s, hs, hses⟩ := hends
    have hsuf := suffix_skipLine (field ++ [0x0D]) (n := s.position.length + 1) (s := s)
      (l := fields.flatMap (· ++ CRLF) ++ (CRLF ++ rest)) (by simp [hs, htra, CRLF])
    intro hrest
    rw [← hses, hrest] at hsuf
    have := hsuf.length_le
    simp only [length_append, CRLF, length_cons] at this
    omega

/-- The chunk `a`, and a trailer with one field, `T:`. -/
def withTrailer : Body where
  chunks := [Chunk.written [0x61]]
  last := Chunk.written []
  trailer := [[0x54, 0x3A]]
  fits := by decide
  last_data := rfl
  trailer_ne := by decide

/-- The empty line after the trailer is left in the session. -/
theorem readAll_withTrailer :
    let result := Reader.readAll (withTrailer.text.length + 1) id ⟨⟨[], ⟨withTrailer.text, id⟩⟩, 0⟩
    result.1 = [0x61] ∧ result.2.session.position = CRLF := by
  decide

/-! ### Several bodies on one connection -/

structure Exchange extends Body where
  lengths : ℕ → ℕ
  noTrailer : trailer = []

def Exchange.data (e : Exchange) : Bytes := e.chunks.flatMap Chunk.data

def readBody (lengths : ℕ → ℕ) (s : HTTPSession) : Bytes × HTTPSession :=
  let result := Reader.readAll (s.position.length + 1) lengths ⟨s, 0⟩
  (result.1, result.2.session)

/-- **Bodies without trailers do not run into each other.**  Of those that are sent one after
another on one connection, each is read as it is, however the bytes arrive and are asked for. -/
theorem readBodies_in_order (es : List Exchange) (rest : Bytes) (buffered : ℕ) (sizes : ℕ → ℕ) :
    let stream := es.flatMap (fun e => e.text) ++ rest
    let session : HTTPSession := ⟨stream.take buffered, ⟨stream.drop buffered, sizes⟩⟩
    let result := Transport.receiveAll readBody (es.map Exchange.lengths) session
    result.1 = es.map Exchange.data ∧ result.2.position = rest := by
  intro stream session
  have hpos : session.position = stream := take_append_drop _ _
  refine Transport.receiveAll_eq ?_ hpos
  intro e s rest hs
  have hstr : s.position = e.chunks.flatMap Chunk.text ++ (e.last.head ++ (CRLF ++ rest)) := by
    rw [hs]
    simp [Body.text, e.noTrailer]
  have hread := Reader.readAll_stream e.fits e.last_data s.buffer.length s.transport.sizes
    e.lengths hstr
  simp only [HTTPSession.position, take_left, drop_left] at hread
  exact ⟨hread.1, hread.2.position⟩

/-- The byte `a` in a chunk of the size `01` with the extension `;x`, and then `bc`. -/
def threeBytes : Exchange where
  chunks := [⟨[0x30, 0x31], [0x3B, 0x78], [0x61], by decide, by decide, by decide, by decide,
    by decide⟩, Chunk.written [0x62, 0x63]]
  last := Chunk.written []
  trailer := []
  fits := by decide
  last_data := rfl
  trailer_ne := by decide
  lengths := id
  noTrailer := rfl

/-- The body comes twice, and the byte `x` after it; it arrives byte by byte. -/
theorem readBodies_in_order_twice :
    let session : HTTPSession := ⟨[], ⟨threeBytes.text ++ (threeBytes.text ++ [0x78]), fun _ => 0⟩⟩
    let result := Transport.receiveAll readBody [id, id] session
    result.1 = [[0x61, 0x62, 0x63], [0x61, 0x62, 0x63]] ∧ result.2.position = [0x78] :=
  readBodies_in_order [threeBytes, threeBytes] [0x78] 0 fun _ => 0

end HTTPChunkedStreamBuf

end Poco.Net
