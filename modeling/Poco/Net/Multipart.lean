import Poco.Lib.Outcome
import Poco.Net.MessageHeader

/-!
# Multipart messages

`MultipartWriter` and `MultipartReader` of `Net/src`.  The writer puts a delimiter, two
hyphens and the boundary on a line of their own, before every part.  The stream buffer of
the reader looks for the delimiter after every line break; the bytes that it has taken from
the stream by then are a part of the body if they are not a delimiter.

A stream is the list of bytes still to be read.  The buffer of `MultipartStreamBuf` has room
for `BUFFER_LENGTH` bytes; a call that stores more is undefined and modelled by `none`.

## Main definitions

* `readFromDevice`, `readBody`, `readAll`: a call of the stream buffer, a part and a message.
* `writeAll`: the parts of a message and its end, from a part on; `firstPart` is the flag of the
  writer.
* `Scan`: where the reader is: in a line, at the start of a line that may be a delimiter, after its
  first hyphen, or after both and a part of the boundary, with the rest of it.
* `slips`: the reader is in the middle of a delimiter at the end of a body.
* `Usable`: a boundary that the reader can find: of ASCII characters, on one line, and short enough
  for the buffer.

## Main results

* `readFromDevice_body`: one call in a body takes a part of it, and the reader is where it would be
  at the start of the rest; or it takes the whole of it and the carriage return after it.
* `readBody_body`, `readParts_writeAll`: a body and the delimiter after it, and the parts.
* `readAll_writeAll_iff`: when the bodies come back as they were.
-/

namespace Poco.Net

open List MessageHeader NameValueCollection

/-- What can go wrong in a `MultipartReader`: its two kinds of exceptions, a violated
assertion, and an overrun of the buffer. -/
inductive MultipartFailure where
  | multipartException (message : String)
  | messageException (e : MessageException)
  | assertionViolation
  | bufferOverrun
  deriving DecidableEq, Repr

namespace MultipartStreamBuf

/-! ### The stream buffer -/

def STREAM_BUFFER_SIZE : ℕ := 1024

/-- The bytes that `underflow` has room for: all but the four of the putback area. -/
def BUFFER_LENGTH : ℕ := STREAM_BUFFER_SIZE - 4

/-- What a call of `readFromDevice` returns: `-1`, `0`, or a number of bytes. -/
inductive Read where
  | eof
  | delimiter (lastPart : Bool)
  | data (bytes : Bytes)
  deriving DecidableEq, Repr

/-- The byte that is stored for a result of `sbumpc`, which is `-1` at the end. -/
def toChar (ch : Option UInt8) : UInt8 := ch.getD 0xFF

/-- `ch == *it`: a `char` above `0x7F` is negative, and `0xFF` is the same as the end of the
stream. -/
def sameChar (ch : Option UInt8) (it : UInt8) : Bool :=
  match ch with
  | some c => c == it && it < 0x80
  | none => it == 0xFF

structure Match where
  bytes : Bytes
  /-- The rest of the boundary. -/
  left : Bytes
  /-- The last byte taken from the stream. -/
  ch : Option UInt8
  rest : Bytes
  deriving DecidableEq, Repr

/-- The loop that compares the stream with the boundary.  The byte that differs is taken
from the stream, too. -/
def matchBoundary : Bytes → Bytes → Match
  | [], s => ⟨[toChar s.head?], [], s.head?, s.tail⟩
  | b :: it, s =>
    if sameChar s.head? b then
      let m := matchBoundary it s.tail
      { m with bytes := toChar s.head? :: m.bytes }
    else ⟨[toChar s.head?], b :: it, s.head?, s.tail⟩

/-- The loop at the end of `readFromDevice`, after the bytes already stored. -/
def restOfLine (bytes s : Bytes) : Option (Read × Bytes) :=
  if bytes.length > BUFFER_LENGTH then none
  else
    let line := (s.takeWhile inLine).take (BUFFER_LENGTH - bytes.length)
    some (.data (bytes ++ line), s.drop line.length)

/-- The part of `readFromDevice` after a line break and two hyphens. -/
def readDelimiter (boundary bytes s : Bytes) : Option (Read × Bytes) :=
  let m := matchBoundary boundary s
  let bytes := bytes ++ m.bytes
  if bytes.length > BUFFER_LENGTH then none
  else if m.left = [] ∧ m.ch = some 0x0A then some (.delimiter false, m.rest)
  else if m.left = [] ∧ m.ch = some 0x0D ∧ m.rest.head? = some 0x0A then
    some (.delimiter false, m.rest.tail)
  else if m.left = [] ∧ m.ch = some 0x2D ∧ m.rest.head? = some 0x2D then
    some (.delimiter true, m.rest.tail)
  else restOfLine bytes m.rest

/-- The line break at the front of a stream, and what follows. -/
def lineBreak : Bytes → Option (Bytes × Bytes)
  | [] => none
  | c :: s =>
    if c = 0x0A then some ([0x0A], s)
    else if c = 0x0D ∧ s.head? = some 0x0A then some ([0x0D, 0x0A], s.tail)
    else none

/-- The part of `readFromDevice` after a line break. -/
def readAfterBreak (boundary bytes s : Bytes) : Option (Read × Bytes) :=
  if s.head? = some 0x0D ∨ s.head? = some 0x0A then some (.data bytes, s)
  else if s.take 2 = [0x2D, 0x2D] then readDelimiter boundary (bytes ++ [0x2D, 0x2D]) (s.drop 2)
  else restOfLine (bytes ++ [toChar s.head?]) s.tail

def readFromDevice (boundary s : Bytes) : Option (Read × Bytes) :=
  if s = [] then some (.eof, [])
  else match lineBreak s with
    | some r => readAfterBreak boundary r.1 r.2
    | none => restOfLine (s.take 1) s.tail

/-- Reading a part to its end: its body, `lastPart`, and the stream after it.  Every call
takes a byte from the stream, so a fuel above its length suffices. -/
def readBody (boundary : Bytes) : ℕ → Bytes → Option (Bytes × Bool × Bytes)
  | 0, s => some ([], false, s)
  | fuel + 1, s =>
    match readFromDevice boundary s with
    | none => none
    | some (.eof, s) => some ([], false, s)
    | some (.delimiter lastPart, s) => some ([], lastPart, s)
    | some (.data bytes, s) => (readBody boundary fuel s).map fun r => (bytes ++ r.1, r.2)

end MultipartStreamBuf

/-! ### The reader -/

namespace MultipartReader

open MultipartStreamBuf

/-- `MultipartReader::readLine`: the line, the stream after it, and whether a line break
ended it. -/
def readLine (n : ℕ) (s : Bytes) : Bytes × Bytes × Bool :=
  let line := (s.takeWhile inLine).take n
  match lineBreak (s.dropWhile inLine) with
  | some r => (line, r.2, true)
  | none => (line, (s.dropWhile inLine).tail, s.dropWhile inLine ≠ [])

/-- `MultipartReader::findFirstBoundary`: the stream after the boundary.  Every round takes
a byte from the stream or is the last. -/
def findFirstBoundary (boundary : Bytes) : ℕ → Bytes →
    Except MultipartFailure Bytes
  | 0, _ => .error (.multipartException "No boundary line found")
  | fuel + 1, s =>
    let expect := [0x2D, 0x2D] ++ boundary
    let r := readLine expect.length s
    if r.2.2 = false then .error (.multipartException "No boundary line found")
    else if r.1 = expect then .ok r.2.1
    else findFirstBoundary boundary fuel r.2.1

/-- `MultipartReader::parseHeader`: the header, the stream after it, and whether it is still
good. -/
def parseHeader (s : Bytes) :
    Except MultipartFailure (NameValueCollection × Bytes × Bool) :=
  match MessageHeader.read DFL_FIELD_LIMIT [] s with
  | .error e => .error (.messageException e)
  | .ok (header, s) =>
    if s.head? = some 0x0D then
      if s.tail.head? = some 0x0A then .ok (header, s.tail.tail, true)
      else .ok (header, s.tail, s.tail ≠ [])
    else .ok (header, s.tail, s ≠ [])

/-- `MultipartReader::nextPart`, with a boundary that is not empty.  The state of the reader
is the `lastPart` of the stream of the part before, if there is one. -/
def nextPart (boundary : Bytes) (mpi : Option Bool) (s : Bytes) :
    Except MultipartFailure (NameValueCollection × Bytes × Bool) := do
  let s ← match mpi with
    | none => findFirstBoundary boundary (s.length + 1) s
    | some true => .error (.multipartException "No more parts available")
    | some false => .ok s
  let r ← parseHeader s
  if boundary ≠ [] ∧ boundary.length < STREAM_BUFFER_SIZE - 6 then .ok r
  else .error .assertionViolation

/-- Reading the parts of a message, each to its end, while `hasNextPart` holds.  Every round
takes a byte from the stream or finds its end. -/
def readParts (boundary : Bytes) : ℕ → Option Bool → Bool → Bytes →
    Except MultipartFailure (List (NameValueCollection × Bytes))
  | 0, _, _, _ => .ok []
  | fuel + 1, mpi, good, s =>
    if mpi ≠ some true ∧ good then
      match nextPart boundary mpi s with
      | .error e => .error e
      | .ok (header, s, good) =>
        match readBody boundary (s.length + 1) s with
        | none => .error .bufferOverrun
        | some (body, lastPart, s) =>
          (readParts boundary fuel (some lastPart) good s).map ((header, body) :: ·)
    else .ok []

def readAll (boundary s : Bytes) :
    Except MultipartFailure (List (NameValueCollection × Bytes)) :=
  readParts boundary (s.length + 2) none true s

end MultipartReader

/-! ### The writer -/

namespace MultipartWriter

/-- `MultipartWriter::nextPart`, after the line break that precedes all parts but the first. -/
def nextPart (boundary : Bytes) (header : NameValueCollection) : Bytes :=
  [0x2D, 0x2D] ++ boundary ++ CRLF ++ MessageHeader.write header ++ CRLF

def close (boundary : Bytes) : Bytes :=
  CRLF ++ [0x2D, 0x2D] ++ boundary ++ [0x2D, 0x2D] ++ CRLF

/-- A part with a header that is well formed and within the limit of `MessageHeader`. -/
structure Part where
  fields : List Field
  limit : fields.length ≤ DFL_FIELD_LIMIT
  body : Bytes

def Part.header (p : Part) : NameValueCollection := ofList (p.fields.map Field.pair)

def writeAll (boundary : Bytes) (firstPart : Bool) : List Part → Bytes
  | [] => close boundary
  | p :: ps =>
    (if firstPart then [] else CRLF) ++ nextPart boundary p.header ++ p.body
      ++ writeAll boundary false ps

end MultipartWriter

namespace MultipartStreamBuf

/-! ### Where the reader is in a body -/

inductive Scan where
  | line
  | lineStart
  | hyphen
  | matching (left : Bytes)
  deriving DecidableEq, Repr

/-- The reader after one more byte.  A byte that differs from the boundary is taken as one
of a line even if it is a line feed. -/
def Scan.step (boundary : Bytes) : Scan → UInt8 → Scan
  | .line, c => if c = 0x0A then .lineStart else .line
  | .lineStart, c => if c = 0x0A then .lineStart else if c = 0x2D then .hyphen else .line
  | .hyphen, c => if c = 0x0A then .lineStart else if c = 0x2D then .matching boundary else .line
  | .matching [], _ => .line
  | .matching (b :: left), c => if c = b then .matching left else .line

def Scan.isMatching : Scan → Bool
  | .matching _ => true
  | _ => false

/-- Whether the reader compares with the boundary after a text. -/
def slipsFrom (boundary : Bytes) (st : Scan) (s : Bytes) : Bool :=
  (s.foldl (Scan.step boundary) st).isMatching

def slips (boundary body : Bytes) : Bool := slipsFrom boundary .line body

/-- No line of a body but the first starts with the delimiter. -/
def NoDelimiter (boundary body : Bytes) : Prop :=
  ¬ (0x0A :: 0x2D :: 0x2D :: boundary) <:+: body

instance (boundary body : Bytes) : Decidable (NoDelimiter boundary body) :=
  inferInstanceAs (Decidable (¬ _))

structure Usable (boundary : Bytes) : Prop where
  ascii : ∀ c ∈ boundary, c < 0x80
  line : ∀ c ∈ boundary, inLine c = true
  length : boundary.length + 5 ≤ BUFFER_LENGTH

theorem slips_append (boundary : Bytes) (st : Scan) (s t : Bytes) :
    slipsFrom boundary st (s ++ t)
      = slipsFrom boundary (s.foldl (Scan.step boundary) st) t := by
  rw [slipsFrom, foldl_append, slipsFrom]

variable {boundary t : Bytes}

variable {bytes e nl s s' w : Bytes} {lastPart : Bool}

theorem foldl_step_line (hs : ∀ c ∈ s, inLine c = true) :
    s.foldl (Scan.step boundary) .line = .line := by
  induction s with
  | nil => rfl
  | cons c s ih =>
    have hc : c ≠ 0x0A := by
      have := hs c mem_cons_self
      simp only [inLine, Bool.and_eq_true, bne_iff_ne] at this
      exact this.2
    rw [foldl_cons, Scan.step, if_neg hc]
    exact ih fun d hd => hs d (mem_cons_of_mem _ hd)

theorem lineBreak_eq_some (h : lineBreak s = some (nl, t)) :
    (nl = [0x0A] ∨ nl = [0x0D, 0x0A]) ∧ s = nl ++ t := by
  cases s with
  | nil => cases h
  | cons c s =>
    rw [lineBreak] at h
    split_ifs at h with hc hc
    · cases h
      exact ⟨.inl rfl, by rw [hc]; rfl⟩
    · obtain ⟨rfl, hhead⟩ := hc
      obtain ⟨t, rfl⟩ := head?_eq_some_iff.mp hhead
      cases h
      exact ⟨.inr rfl, rfl⟩

/-- At the start of a line and after one hyphen nothing is lost if no (further) hyphen
follows. -/
theorem slipsFrom_of_head (hw : w.head? ≠ some 0x2D) :
    slipsFrom boundary .lineStart w = slips boundary w ∧
      slipsFrom boundary .hyphen w = slips boundary w := by
  cases w with
  | nil => exact ⟨rfl, rfl⟩
  | cons c w =>
    have hc : c ≠ 0x2D := by
      rintro rfl
      exact hw rfl
    simp [slips, slipsFrom, Scan.step, hc]

/-! ### One call in a body -/

section Body

variable {boundary : Bytes} (hb : Usable boundary) (rest : Bytes)

theorem restOfLine_append (hbyt : bytes.length ≤ BUFFER_LENGTH) (w : Bytes) :
    ∃ t w', w = t ++ w' ∧ (∀ c ∈ t, inLine c = true) ∧
      restOfLine bytes (w ++ 0x0D :: rest) = some (.data (bytes ++ t), w' ++ 0x0D :: rest) ∧
      (bytes.length < BUFFER_LENGTH → t = [] → ∀ c, w'.head? = some c → inLine c = false) := by
  have htake : (w ++ 0x0D :: rest).takeWhile inLine = w.takeWhile inLine := by
    induction w with
    | nil => rfl
    | cons c w ih => rw [cons_append, takeWhile_cons, takeWhile_cons, ih]
  obtain ⟨n, hn⟩ : ∃ n, BUFFER_LENGTH - bytes.length = n := ⟨_, rfl⟩
  have hpre : (w.takeWhile inLine).take n <+: w :=
    take_prefix _ _ |>.trans <| takeWhile_prefix _
  obtain ⟨w', hw'⟩ := hpre
  refine ⟨(w.takeWhile inLine).take n, w', hw'.symm, ?_, ?_, ?_⟩
  · intro c hc
    exact mem_takeWhile_imp (mem_of_mem_take hc)
  · have hdrop : (w ++ 0x0D :: rest).drop ((w.takeWhile inLine).take n).length
        = w' ++ 0x0D :: rest := by
      generalize (w.takeWhile inLine).take n = t at hw'
      rw [← hw', append_assoc, drop_left]
    rw [restOfLine, if_neg (by omega), htake, hn]
    show some (Read.data _, List.drop _ _) = _
    rw [hdrop]
  · intro hlt hnil c hc
    rw [hnil, nil_append] at hw'
    subst hw'
    obtain ⟨n, rfl⟩ : ∃ k, n = k + 1 := ⟨n - 1, by omega⟩
    cases w' with
    | nil => cases hc
    | cons d w =>
      cases hc
      rw [takeWhile_cons] at hnil
      by_contra hne
      rw [Bool.not_eq_false] at hne
      rw [if_pos hne] at hnil
      cases hnil

theorem readFromDevice_line (hne : w ≠ []) (hbrk : lineBreak (w ++ 0x0D :: rest) = none) :
    ∃ bytes w', w = bytes ++ w' ∧ bytes ≠ [] ∧
      readFromDevice boundary (w ++ 0x0D :: rest) = some (.data bytes, w' ++ 0x0D :: rest) ∧
      slips boundary w = slips boundary w' := by
  obtain ⟨c, w, rfl⟩ := exists_cons_of_ne_nil hne
  have hc : c ≠ 0x0A := by
    rintro rfl
    cases hbrk
  obtain ⟨t, w', rfl, ht, hread, -⟩ := restOfLine_append rest
    (show [c].length ≤ BUFFER_LENGTH by rw [length_singleton]; decide) w
  refine ⟨c :: t, w', rfl, cons_ne_nil _ _, ?_, ?_⟩
  · rw [readFromDevice, hbrk]
    exact hread
  · rw [slips, ← cons_append, slips_append, foldl_cons, Scan.step, if_neg hc,
      foldl_step_line ht, slips]

theorem readDelimiter_of_left (hleft : (matchBoundary boundary s).left ≠ [])
    (hlen : (bytes ++ (matchBoundary boundary s).bytes).length ≤ BUFFER_LENGTH) :
    readDelimiter boundary bytes s
      = restOfLine (bytes ++ (matchBoundary boundary s).bytes) (matchBoundary boundary s).rest := by
  rw [readDelimiter, if_neg (by omega), if_neg (by simp [hleft]), if_neg (by simp [hleft]),
    if_neg (by simp [hleft])]

include hb

/-- Comparing the boundary with a body that does not hold it here: either a byte of the body
differs, or the body ends and the carriage return after it is taken. -/
theorem matchBoundary_body : ∀ {it w : Bytes}, it <:+ boundary → ¬ it <+: w →
    (∃ t c w', w = t ++ c :: w' ∧ t.length < it.length ∧
      (matchBoundary it (w ++ 0x0D :: rest)).bytes = t ++ [c] ∧
      (matchBoundary it (w ++ 0x0D :: rest)).left ≠ [] ∧
      (matchBoundary it (w ++ 0x0D :: rest)).rest = w' ++ 0x0D :: rest ∧
      (t ++ [c]).foldl (Scan.step boundary) (.matching it) = .line) ∨
    (w.length < it.length ∧
      (matchBoundary it (w ++ 0x0D :: rest)).bytes = w ++ [0x0D] ∧
      (matchBoundary it (w ++ 0x0D :: rest)).left ≠ [] ∧
      (matchBoundary it (w ++ 0x0D :: rest)).rest = rest ∧
      slipsFrom boundary (.matching it) w = true) := by
  intro it
  induction it with
  | nil =>
    intro w _ hpre
    exact absurd nil_prefix hpre
  | cons b it ih =>
    intro w hit hpre
    have hmem : b ∈ boundary := hit.subset mem_cons_self
    cases w with
    | nil =>
      have hdif : sameChar (some 0x0D) b = false := by
        have hline := hb.line b hmem
        simp only [inLine, Bool.and_eq_true, bne_iff_ne] at hline
        simp [sameChar, Ne.symm hline.1]
      refine .inr ⟨by simp, ?_⟩
      rw [nil_append, matchBoundary, head?_cons, hdif, if_neg Bool.false_ne_true]
      exact ⟨rfl, cons_ne_nil _ _, rfl, rfl⟩
    | cons c w =>
      by_cases hc : c = b
      · subst hc
        have hsame : sameChar (some c) c = true := by
          simp [sameChar, hb.ascii c hmem]
        have hpre' : ¬ it <+: w := by
          intro h
          exact hpre (cons_prefix_cons.mpr ⟨rfl, h⟩)
        have hstep : Scan.step boundary (.matching (c :: it)) c = .matching it := by
          rw [Scan.step, if_pos rfl]
        rw [cons_append, matchBoundary, head?_cons, hsame, if_pos rfl, tail_cons]
        rcases ih ((suffix_cons c it).trans hit) hpre' with
          ⟨t, d, w', rfl, hlen, hbyt, hleft, hrest, hscan⟩ | ⟨hlen, hbyt, hleft, hrest, hscan⟩
        · refine .inl ⟨c :: t, d, w', rfl, Nat.succ_lt_succ hlen, ?_, hleft, hrest, ?_⟩
          · show toChar (some c) :: _ = _
            rw [hbyt]
            rfl
          · rw [cons_append, foldl_cons, hstep, hscan]
        · refine .inr ⟨Nat.succ_lt_succ hlen, ?_, hleft, hrest, ?_⟩
          · show toChar (some c) :: _ = _
            rw [hbyt]
            rfl
          · rw [slipsFrom, foldl_cons, hstep]
            exact hscan
      · have hdif : sameChar (some c) b = false := by simp [sameChar, hc]
        refine .inl ⟨[], c, w, rfl, by simp, ?_⟩
        rw [cons_append, matchBoundary, head?_cons, hdif, if_neg Bool.false_ne_true]
        refine ⟨rfl, cons_ne_nil _ _, rfl, ?_⟩
        show Scan.step boundary (.matching (b :: it)) c = .line
        rw [Scan.step, if_neg hc]

theorem readDelimiter_body (hnl : nl.length ≤ 2) (hw : ¬ boundary <+: w) :
    (∃ t w', w = t ++ w' ∧
      readDelimiter boundary (nl ++ [0x2D, 0x2D]) (w ++ 0x0D :: 0x0A :: rest)
        = some (.data (nl ++ [0x2D, 0x2D] ++ t), w' ++ 0x0D :: 0x0A :: rest) ∧
      slipsFrom boundary (.matching boundary) w = slips boundary w') ∨
    (readDelimiter boundary (nl ++ [0x2D, 0x2D]) (w ++ 0x0D :: 0x0A :: rest)
        = some (.data (nl ++ [0x2D, 0x2D] ++ w ++ [0x0D]), 0x0A :: rest) ∧
      slipsFrom boundary (.matching boundary) w = true) := by
  have hlen := hb.length
  rcases matchBoundary_body hb (0x0A :: rest) (suffix_refl boundary) hw with
    ⟨t, c, w', rfl, ht, hbyt, hleft, hrest, hscan⟩ | ⟨hlt, hbyt, hleft, hrest, hscan⟩
  · have hroom : (nl ++ [0x2D, 0x2D] ++ (t ++ [c])).length ≤ BUFFER_LENGTH := by
      simp only [length_append, length_cons, length_nil]
      omega
    obtain ⟨t', w'', rfl, ht', hread, -⟩ := restOfLine_append (0x0A :: rest) hroom w'
    refine .inl ⟨t ++ [c] ++ t', w'', by simp, ?_, ?_⟩
    · rw [readDelimiter_of_left hleft (by rw [hbyt]; exact hroom), hbyt, hrest, hread]
      simp
    · have hspl : t ++ c :: (t' ++ w'') = (t ++ [c]) ++ (t' ++ w'') := by simp
      rw [hspl, slips_append, hscan, slips_append, foldl_step_line ht', slips]
  · have hroom : (nl ++ [0x2D, 0x2D] ++ (w ++ [0x0D])).length ≤ BUFFER_LENGTH := by
      simp only [length_append, length_cons, length_nil]
      omega
    refine .inr ⟨?_, hscan⟩
    rw [readDelimiter_of_left hleft (by rw [hbyt]; exact hroom), hbyt, hrest, restOfLine,
      if_neg (by omega)]
    simp [inLine]

theorem readAfterBreak_body (hnl : nl.length ≤ 2) (hw : ¬ (0x2D :: 0x2D :: boundary) <+: w) :
    (∃ t w', w = t ++ w' ∧
      readAfterBreak boundary nl (w ++ 0x0D :: 0x0A :: rest)
        = some (.data (nl ++ t), w' ++ 0x0D :: 0x0A :: rest) ∧
      slipsFrom boundary .lineStart w = slips boundary w') ∨
    (readAfterBreak boundary nl (w ++ 0x0D :: 0x0A :: rest)
        = some (.data (nl ++ w ++ [0x0D]), 0x0A :: rest) ∧
      slipsFrom boundary .lineStart w = true) := by
  cases w with
  | nil =>
    refine .inl ⟨[], [], rfl, ?_, rfl⟩
    rw [readAfterBreak, nil_append, if_pos (.inl rfl), append_nil]
  | cons c w =>
    by_cases hbrk : c = 0x0D ∨ c = 0x0A
    · -- the call returns before the next line break
      refine .inl ⟨[], c :: w, rfl, ?_, ?_⟩
      · rw [readAfterBreak, cons_append, head?_cons, if_pos (by simpa using hbrk), append_nil]
      · refine (slipsFrom_of_head ?_).1
        rw [head?_cons, Ne, Option.some.injEq]
        rintro rfl
        exact absurd hbrk (by decide)
    · have hhead : ¬ ((c :: w ++ 0x0D :: 0x0A :: rest).head? = some 0x0D ∨
          (c :: w ++ 0x0D :: 0x0A :: rest).head? = some 0x0A) := by
        simpa using hbrk
      rw [not_or] at hbrk
      rw [readAfterBreak, if_neg hhead]
      by_cases hhyp : c = 0x2D ∧ w.head? = some 0x2D
      · obtain ⟨rfl, hhyn⟩ := hhyp
        obtain ⟨w, rfl⟩ : ∃ v, w = 0x2D :: v := head?_eq_some_iff.mp hhyn
        have hw' : ¬ boundary <+: w := by
          intro h
          exact hw (cons_prefix_cons.mpr ⟨rfl, cons_prefix_cons.mpr ⟨rfl, h⟩⟩)
        have hscan : slipsFrom boundary .lineStart (0x2D :: 0x2D :: w)
            = slipsFrom boundary (.matching boundary) w := rfl
        have htake : (0x2D :: 0x2D :: w ++ 0x0D :: 0x0A :: rest).take 2 = [0x2D, 0x2D] := rfl
        rw [if_pos htake, hscan]
        rcases readDelimiter_body hb rest hnl hw' with ⟨t, w', rfl, hread, hslp⟩ | ⟨hread, hslp⟩
        · refine .inl ⟨0x2D :: 0x2D :: t, w', rfl, ?_, hslp⟩
          show readDelimiter boundary (nl ++ [0x2D, 0x2D]) (t ++ w' ++ 0x0D :: 0x0A :: rest) = _
          rw [hread]
          simp
        · refine .inr ⟨?_, hslp⟩
          show readDelimiter boundary (nl ++ [0x2D, 0x2D]) (w ++ 0x0D :: 0x0A :: rest) = _
          rw [hread]
          simp
      · have htake : (c :: w ++ 0x0D :: 0x0A :: rest).take 2 ≠ [0x2D, 0x2D] := by
          cases w with
          | nil => simp
          | cons d w => simpa using hhyp
        have hroom : (nl ++ [c]).length < BUFFER_LENGTH := by
          rw [length_append, length_singleton]
          exact Nat.lt_of_le_of_lt (Nat.add_le_add_right hnl 1) (by decide)
        obtain ⟨t, w', rfl, ht, hread, hstop⟩ :=
          restOfLine_append (0x0A :: rest) (Nat.le_of_lt hroom) w
        refine .inl ⟨c :: t, w', rfl, ?_, ?_⟩
        · rw [if_neg htake]
          show restOfLine (nl ++ [c]) (t ++ w' ++ 0x0D :: 0x0A :: rest) = _
          rw [hread]
          simp
        have hstep : slipsFrom boundary .lineStart (c :: (t ++ w'))
            = slipsFrom boundary (if c = 0x2D then .hyphen else .line) (t ++ w') := by
          rw [slipsFrom, foldl_cons, Scan.step, if_neg hbrk.2, slipsFrom]
        rw [hstep]
        split
        · next hc =>
          cases t with
          | nil =>
            refine (slipsFrom_of_head ?_).2
            intro hw'
            exact absurd (hstop hroom rfl _ hw') (by decide)
          | cons d t =>
            have hd : d ≠ 0x2D := by
              rintro rfl
              exact hhyp ⟨hc, rfl⟩
            rw [(slipsFrom_of_head (by simpa using hd)).2, slips, slips_append,
              foldl_step_line ht, slips]
        · rw [slips_append, foldl_step_line ht, slips]

theorem readFromDevice_body (hne : w ≠ []) (hw : NoDelimiter boundary w) :
    (∃ bytes w', w = bytes ++ w' ∧ bytes ≠ [] ∧
      readFromDevice boundary (w ++ 0x0D :: 0x0A :: rest)
        = some (.data bytes, w' ++ 0x0D :: 0x0A :: rest) ∧
      slips boundary w = slips boundary w') ∨
    (readFromDevice boundary (w ++ 0x0D :: 0x0A :: rest)
        = some (.data (w ++ [0x0D]), 0x0A :: rest) ∧
      slips boundary w = true) := by
  cases hbrk : lineBreak (w ++ 0x0D :: 0x0A :: rest) with
  | none => exact .inl (readFromDevice_line (0x0A :: rest) hne hbrk)
  | some r =>
    obtain ⟨nl, t⟩ := r
    obtain ⟨hnl, hs⟩ := lineBreak_eq_some hbrk
    -- the line break is in the body, since that of the delimiter is not reached
    obtain ⟨v, rfl⟩ : ∃ v, w = nl ++ v := by
      match w, hne, hs with
      | [c], _, hs | c :: d :: w, _, hs => rcases hnl with rfl | rfl <;> cases hs <;> exact ⟨_, rfl⟩
    have hnone : ¬ (0x2D :: 0x2D :: boundary) <+: v := by
      intro h
      have hwit := (cons_prefix_cons.mpr ⟨rfl, h⟩ : _ <+: 0x0A :: v).isInfix
      rcases hnl with rfl | rfl
      · exact hw hwit
      · exact hw (hwit.trans (suffix_cons _ _).isInfix)
    obtain ⟨hread, hscan, hlen, hnlne⟩ : readFromDevice boundary (nl ++ v ++ 0x0D :: 0x0A :: rest)
        = readAfterBreak boundary nl (v ++ 0x0D :: 0x0A :: rest) ∧
        slips boundary (nl ++ v) = slipsFrom boundary .lineStart v ∧ nl.length ≤ 2 ∧ nl ≠ [] := by
      rcases hnl with rfl | rfl <;> exact ⟨rfl, rfl, by simp⟩
    rw [hread, hscan]
    rcases readAfterBreak_body hb rest hlen hnone with ⟨t, w', rfl, h, hslp⟩ | ⟨h, hslp⟩
    · exact .inl ⟨nl ++ t, w', by simp, by simp [hnlne], h, hslp⟩
    · exact .inr ⟨h, hslp⟩

/-! ### Reading a body -/

/-- What follows the boundary in a delimiter: a line break, or two hyphens in the last one. -/
inductive DelimiterEnd : Bytes → Bool → Bytes → Prop where
  | next (s : Bytes) : DelimiterEnd (0x0D :: 0x0A :: s) false s
  | last (s : Bytes) : DelimiterEnd (0x2D :: 0x2D :: s) true s

omit hb in
theorem matchBoundary_self (hit : ∀ c ∈ it, c < 0x80) (c : UInt8)
    (s : Bytes) : matchBoundary it (it ++ c :: s) = ⟨it ++ [c], [], some c, s⟩ := by
  induction it with
  | nil => rfl
  | cons b it ih =>
    have hsame : sameChar (some b) b = true := by
      simp [sameChar, hit b mem_cons_self]
    rw [cons_append, matchBoundary, head?_cons, hsame, if_pos rfl, tail_cons,
      ih fun d hd => hit d (mem_cons_of_mem _ hd)]
    rfl

theorem readAfterBreak_delimiter (hnl : nl.length ≤ 2) (he : DelimiterEnd e lastPart s) :
    readAfterBreak boundary nl (0x2D :: 0x2D :: (boundary ++ e)) =
      some (.delimiter lastPart, s) := by
  have hlen := hb.length
  have hread : readAfterBreak boundary nl (0x2D :: 0x2D :: (boundary ++ e))
      = readDelimiter boundary (nl ++ [0x2D, 0x2D]) (boundary ++ e) := by
    rw [readAfterBreak, if_neg (by simp), if_pos (by simp)]
    rfl
  rw [hread, readDelimiter]
  cases he with
  | next s =>
    rw [matchBoundary_self hb.ascii, if_neg, if_neg (by simp), if_pos (by simp)]
    · rfl
    · simp only [length_append, length_cons, length_nil]
      omega
  | last s =>
    rw [matchBoundary_self hb.ascii, if_neg, if_neg (by simp), if_neg (by simp), if_pos (by simp)]
    · rfl
    · simp only [length_append, length_cons, length_nil]
      omega

def slip (boundary body : Bytes) : Bytes := if slips boundary body then [0x0D] else []

theorem readBody_body (he : DelimiterEnd e lastPart s) :
    ∀ {fuel : ℕ} {w : Bytes}, NoDelimiter boundary w → w.length + 2 ≤ fuel →
      readBody boundary fuel (w ++ 0x0D :: 0x0A :: 0x2D :: 0x2D :: (boundary ++ e))
        = some (w ++ slip boundary w, lastPart, s) := by
  intro fuel
  induction fuel with
  | zero =>
    intro w _ hfuel
    exact absurd hfuel (by omega)
  | succ fuel ih =>
    intro w hw hfuel
    by_cases hne : w = []
    · subst hne
      have hread : readFromDevice boundary
          ([] ++ 0x0D :: 0x0A :: 0x2D :: 0x2D :: (boundary ++ e)) = some (.delimiter lastPart, s) :=
        readAfterBreak_delimiter hb (show [0x0D, 0x0A].length ≤ 2 by decide) he
      rw [readBody, hread]
      rfl
    · rw [readBody]
      rcases readFromDevice_body hb (0x2D :: 0x2D :: (boundary ++ e)) hne hw with
        ⟨bytes, w', rfl, hbyt, hread, hslp⟩ | ⟨hread, hslp⟩
      · have hw' : NoDelimiter boundary w' := by
          intro h
          exact hw (h.trans (suffix_append _ _).isInfix)
        have hslip : slip boundary (bytes ++ w') = slip boundary w' := by
          rw [slip, hslp, slip]
        have hlen := length_pos_iff.mpr hbyt
        rw [length_append] at hfuel
        rw [hread, hslip]
        show (readBody boundary fuel _).map _ = _
        rw [ih hw' (by omega)]
        show some (bytes ++ _, _) = _
        rw [append_assoc]
      · -- the delimiter is still recognised after the line feed
        obtain ⟨fuel, rfl⟩ : ∃ n, fuel = n + 1 := ⟨fuel - 1, by omega⟩
        have hdel : readFromDevice boundary
            (0x0A :: 0x2D :: 0x2D :: (boundary ++ e)) = some (.delimiter lastPart, s) :=
          readAfterBreak_delimiter hb (show [0x0A].length ≤ 2 by decide) he
        rw [hread, slip, hslp]
        show (readBody boundary (fuel + 1) _).map _ = _
        rw [readBody, hdel]
        show some (w ++ [0x0D] ++ [], _) = _
        rw [append_nil]
        rfl

end Body

/-! ### What any call does -/

/-- Comparing with the boundary stores what it takes from the stream; at the end of the
stream it stores more. -/
theorem matchBoundary_bytes : ∀ (it s : Bytes),
    (matchBoundary it s).bytes ++ (matchBoundary it s).rest = s ∨
      (matchBoundary it s).rest = [] ∧ s <+: (matchBoundary it s).bytes := by
  have hone : ∀ s : Bytes, [toChar s.head?] ++ s.tail = s ∨
      s.tail = [] ∧ s <+: [toChar s.head?] := by
    intro s
    cases s with
    | nil => exact .inr ⟨rfl, nil_prefix⟩
    | cons c s => exact .inl rfl
  intro it
  induction it with
  | nil => exact hone
  | cons b it ih =>
    intro s
    rw [matchBoundary]
    split
    · cases s with
      | nil =>
        rcases ih [] with h | ⟨h, -⟩
        · exact .inr ⟨(append_eq_nil_iff.mp h).2, nil_prefix⟩
        · exact .inr ⟨h, nil_prefix⟩
      | cons c s =>
        rcases ih s with h | ⟨h, h'⟩
        · exact .inl (congrArg (c :: ·) h)
        · exact .inr ⟨h, cons_prefix_cons.mpr ⟨rfl, h'⟩⟩
    · exact hone s

/-- The whole boundary is found only if it is of ASCII characters. -/
theorem matchBoundary_left_nil : ∀ {it s : Bytes} {c : UInt8},
    (matchBoundary it s).left = [] → (matchBoundary it s).ch = some c →
    (∀ b ∈ it, b < 0x80) ∧ (matchBoundary it s).bytes = it ++ [c] ∧
      s = it ++ c :: (matchBoundary it s).rest := by
  intro it
  induction it with
  | nil =>
    intro s c _ hch
    obtain ⟨s, rfl⟩ := head?_eq_some_iff.mp hch
    exact ⟨by simp, rfl, rfl⟩
  | cons b it ih =>
    intro s c hleft hch
    rw [matchBoundary] at hleft hch ⊢
    by_cases hsame : sameChar s.head? b = true
    · rw [if_pos hsame] at hleft hch ⊢
      obtain ⟨hasc, hbyt, hs⟩ := ih hleft hch
      cases s with
      | nil =>
        have := congrArg List.length hs
        simp at this
      | cons d s =>
        simp only [sameChar, head?_cons, Bool.and_eq_true, beq_iff_eq, decide_eq_true_eq] at hsame
        obtain ⟨rfl, hd⟩ := hsame
        refine ⟨?_, ?_, ?_⟩
        · intro e he
          rcases mem_cons.mp he with rfl | he
          · exact hd
          · exact hasc e he
        · exact congrArg (d :: ·) hbyt
        · exact congrArg (d :: ·) hs
    · rw [if_neg hsame] at hleft
      cases hleft

/-- The bytes of a call are those taken from the stream; at the end of the stream there can
be more. -/
def Taken (s bytes s' : Bytes) : Prop := bytes ++ s' = s ∨ s' = [] ∧ s <+: bytes

theorem Taken.restOfLine (h : Taken s bytes t) (hne : bytes ≠ [])
    (hr : restOfLine bytes t = some (r, s')) :
    ∃ bytes', r = .data bytes' ∧ bytes' ≠ [] ∧ Taken s bytes' s' := by
  rw [MultipartStreamBuf.restOfLine] at hr
  split at hr
  · cases hr
  cases hr
  refine ⟨_, rfl, append_ne_nil_of_left_ne_nil hne _, ?_⟩
  rcases h with h | ⟨rfl, h⟩
  · left
    obtain ⟨t', ht'⟩ := take_prefix (BUFFER_LENGTH - bytes.length) _ |>.trans
      <| takeWhile_prefix (l := t) inLine
    generalize (t.takeWhile inLine).take (BUFFER_LENGTH - bytes.length) = u at ht' ⊢
    rw [← ht', drop_left, append_assoc, ht', h]
  · exact .inr ⟨by simp, by simpa using h⟩

/-- The delimiter at the front of a stream, after a line break. -/
def AtDelimiter (boundary s : Bytes) : Prop :=
  ∃ nl e, (nl = [0x0A] ∨ nl = [0x0D, 0x0A]) ∧ s = nl ++ (0x2D :: 0x2D :: (boundary ++ e)) ∧
    (∀ c ∈ boundary, c < 0x80) ∧ nl.length + 3 + boundary.length ≤ BUFFER_LENGTH

theorem readAfterBreak_cases (hnl : nl = [0x0A] ∨ nl = [0x0D, 0x0A])
    (h : readAfterBreak boundary nl s = some (r, s')) :
    (∃ lastPart, r = .delimiter lastPart ∧ AtDelimiter boundary (nl ++ s)) ∨
      ∃ bytes, r = .data bytes ∧ bytes ≠ [] ∧ Taken (nl ++ s) bytes s' := by
  have hne : 0 < nl.length := by rcases hnl with rfl | rfl <;> decide
  rw [readAfterBreak] at h
  split at h
  · cases h
    exact .inr ⟨nl, rfl, length_pos_iff.mp hne, .inl rfl⟩
  split at h
  · next htake =>
    have hs : s = [0x2D, 0x2D] ++ s.drop 2 := by rw [← htake, take_append_drop]
    generalize s.drop 2 = t at hs h
    subst hs
    have hdel : ∀ c, (matchBoundary boundary t).left = [] →
        (matchBoundary boundary t).ch = some c →
        ¬ (nl ++ [0x2D, 0x2D] ++ (matchBoundary boundary t).bytes).length > BUFFER_LENGTH →
        AtDelimiter boundary (nl ++ ([0x2D, 0x2D] ++ t)) := by
      intro c hleft hch hroom
      obtain ⟨hasc, hbyt, ht⟩ := matchBoundary_left_nil hleft hch
      refine ⟨nl, c :: (matchBoundary boundary t).rest, hnl, ?_, hasc, ?_⟩
      · rw [← ht]
        rfl
      · rw [hbyt] at hroom
        simp only [length_append, length_cons, length_nil] at hroom
        omega
    rw [readDelimiter] at h
    split_ifs at h with hroom hlf hcr hhyp
    · cases h
      exact .inl ⟨_, rfl, hdel _ hlf.1 hlf.2 hroom⟩
    · cases h
      exact .inl ⟨_, rfl, hdel _ hcr.1 hcr.2.1 hroom⟩
    · cases h
      exact .inl ⟨_, rfl, hdel _ hhyp.1 hhyp.2.1 hroom⟩
    have htak : Taken (nl ++ ([0x2D, 0x2D] ++ t))
        (nl ++ [0x2D, 0x2D] ++ (matchBoundary boundary t).bytes)
        (matchBoundary boundary t).rest := by
      rcases matchBoundary_bytes boundary t with hm | ⟨hm, hpre⟩
      · left
        rw [append_assoc, hm, append_assoc]
      · refine .inr ⟨hm, ?_⟩
        rw [← append_assoc]
        exact prefix_append_right_inj _ |>.mpr hpre
    exact .inr (htak.restOfLine (by simp) h)
  · have htak : Taken (nl ++ s) (nl ++ [toChar s.head?]) s.tail := by
      cases s with
      | nil => exact .inr ⟨rfl, by simp⟩
      | cons c s => exact .inl (by simp [toChar])
    exact .inr (htak.restOfLine (by simp) h)

theorem readFromDevice_cases (h : readFromDevice boundary s = some (r, s')) :
    (r = .eof ∧ s = []) ∨ (∃ lastPart, r = .delimiter lastPart ∧ AtDelimiter boundary s) ∨
      ∃ bytes, r = .data bytes ∧ bytes ≠ [] ∧ Taken s bytes s' := by
  rw [readFromDevice] at h
  split at h
  · next hs =>
    cases h
    exact .inl ⟨rfl, hs⟩
  next hne =>
  obtain ⟨c, s, rfl⟩ := exists_cons_of_ne_nil hne
  right
  cases hbrk : lineBreak (c :: s) with
  | none =>
    rw [hbrk] at h
    have htak : Taken (c :: s) [c] s := .inl rfl
    exact .inr (htak.restOfLine (cons_ne_nil _ _) h)
  | some b =>
    rw [hbrk] at h
    obtain ⟨hnl, hs⟩ := lineBreak_eq_some hbrk
    rw [hs]
    exact readAfterBreak_cases hnl h

/-- A body is followed by a delimiter that the reader can find, or goes on to the end of the
stream. -/
theorem readBody_cases : ∀ {fuel : ℕ} {s body t : Bytes}
    {lastPart : Bool}, s.length < fuel → readBody boundary fuel s = some (body, lastPart, t) →
    (∃ u, s = body ++ u ∧ AtDelimiter boundary u) ∨ s <+: body := by
  intro fuel
  induction fuel with
  | zero =>
    intro s body t lastPart hfuel
    exact absurd hfuel (Nat.not_lt_zero _)
  | succ fuel ih =>
    intro s body t lastPart hfuel h
    rw [readBody] at h
    cases hread : readFromDevice boundary s with
    | none =>
      rw [hread] at h
      cases h
    | some r =>
      obtain ⟨r, s'⟩ := r
      rw [hread] at h
      rcases readFromDevice_cases hread with ⟨rfl, rfl⟩ | ⟨lastPart', rfl, hat⟩ |
        ⟨bytes, rfl, hbyt, htak⟩
      · exact .inr nil_prefix
      · cases h
        exact .inl ⟨s, rfl, hat⟩
      replace h : (readBody boundary fuel s').map (fun r => (bytes ++ r.1, r.2))
          = some (body, lastPart, t) := h
      cases hrest : readBody boundary fuel s' with
      | none =>
        rw [hrest] at h
        cases h
      | some q =>
        obtain ⟨body', lastPart', t'⟩ := q
        rw [hrest] at h
        cases h
        rcases htak with rfl | ⟨rfl, hpre⟩
        · have hlen := length_pos_iff.mpr hbyt
          rw [length_append] at hfuel
          rcases ih (by omega) hrest with ⟨u, rfl, hat⟩ | hpre
          · exact .inl ⟨u, by simp, hat⟩
          · exact .inr (prefix_append_right_inj _ |>.mpr hpre)
        · exact .inr (hpre.trans (prefix_append _ _))

/-- A body that comes back as it was shows that the boundary can be found. -/
theorem usable_of_readBody (hline : ∀ c ∈ boundary, inLine c = true)
    (hfuel : (w ++ 0x0D :: 0x0A :: 0x2D :: 0x2D :: (boundary ++ e)).length < fuel)
    (h : readBody boundary fuel (w ++ 0x0D :: 0x0A :: 0x2D :: 0x2D :: (boundary ++ e))
      = some (w, lastPart, t)) : Usable boundary := by
  rcases readBody_cases hfuel h with ⟨u, hu, nl, e', hnl, rfl, hasc, hlen⟩ | hpre
  · rw [append_cancel_left_eq] at hu
    rcases hnl with rfl | rfl
    · cases hu
    · exact ⟨hasc, hline, by simpa [Nat.add_comm] using hlen⟩
  · have hle := hpre.length_le
    rw [length_append, length_cons] at hle
    omega

end MultipartStreamBuf

namespace MultipartReader

open MultipartStreamBuf MultipartWriter

/-! ### Reading a message -/

theorem parseHeader_write (p : Part) (s : Bytes) :
    ∃ header, parseHeader (MessageHeader.write p.header ++ (CRLF ++ s)) =
      .ok (header, s, true) := by
  refine ⟨ofList p.header, ?_⟩
  rw [parseHeader, Part.header, read_write p.fields p.limit s]
  rfl

theorem readLine_boundary (hb : ∀ c ∈ boundary, inLine c = true) (s : Bytes) :
    readLine ([0x2D, 0x2D] ++ boundary).length ([0x2D, 0x2D] ++ boundary ++ (CRLF ++ s))
      = ([0x2D, 0x2D] ++ boundary, s, true) := by
  have hline : ∀ c ∈ [0x2D, 0x2D] ++ boundary, inLine c = true :=
    forall_mem_append.mpr ⟨by decide, hb⟩
  have htake : ([0x2D, 0x2D] ++ boundary ++ (CRLF ++ s)).takeWhile inLine
      = [0x2D, 0x2D] ++ boundary := by
    rw [takeWhile_append_of_pos hline]
    show _ ++ [] = _
    rw [append_nil]
  have hdrop : ([0x2D, 0x2D] ++ boundary ++ (CRLF ++ s)).dropWhile inLine = CRLF ++ s := by
    rw [dropWhile_append_of_pos hline]
    rfl
  rw [readLine, htake, hdrop, take_length]
  rfl

theorem line_of_findFirstBoundary : ∀ {fuel : ℕ} {s : Bytes},
    findFirstBoundary boundary fuel s = .ok t → ∀ c ∈ boundary, inLine c = true := by
  intro fuel
  induction fuel with
  | zero =>
    intro s h
    cases h
  | succ fuel ih =>
    intro s h c hc
    rw [findFirstBoundary] at h
    split at h
    · cases h
    split at h
    · next heq =>
      have hmem : c ∈ (readLine ([0x2D, 0x2D] ++ boundary).length s).1 := by
        rw [heq]
        exact mem_append_right _ hc
      have hfst : ∀ n, (readLine n s).1 = (s.takeWhile inLine).take n := by
        intro n
        rw [readLine]
        split <;> rfl
      rw [hfst] at hmem
      exact mem_takeWhile_imp (mem_of_mem_take hmem)
    · exact ih h c hc

theorem findFirstBoundary_boundary (hb : ∀ c ∈ boundary, inLine c = true) (fuel : ℕ)
    (s : Bytes) :
    findFirstBoundary boundary (fuel + 1) ([0x2D, 0x2D] ++ boundary ++ (CRLF ++ s)) = .ok s := by
  rw [findFirstBoundary, readLine_boundary hb]
  simp

/-- What follows the body of a part: the delimiter, and the text of the next part or the end
of the message. -/
theorem writeAll_false (boundary : Bytes) (ps : List Part) :
    ∃ e s, writeAll boundary false ps = 0x0D :: 0x0A :: 0x2D :: 0x2D :: (boundary ++ e) ∧
      DelimiterEnd e ps.isEmpty s ∧
      ∀ q qs, ps = q :: qs →
        s = MessageHeader.write q.header ++ (CRLF ++ (q.body ++ writeAll boundary false qs)) := by
  cases ps with
  | nil => exact ⟨[0x2D, 0x2D] ++ CRLF, CRLF, by simp [writeAll, close, CRLF], .last _, nofun⟩
  | cons q qs =>
    refine ⟨CRLF ++
      (MessageHeader.write q.header ++ (CRLF ++ (q.body ++ writeAll boundary false qs))),
      _, ?_, .next _, ?_⟩
    · simp [writeAll, MultipartWriter.nextPart, CRLF]
    · rintro q' qs' ⟨⟩
      rfl

/-- The first part is found by its boundary, a further one is where the delimiter ends. -/
theorem nextPart_write (hb : Usable boundary) (hne : boundary ≠ []) (p : Part) (s : Bytes) :
    ∃ header,
      nextPart boundary none ([0x2D, 0x2D] ++ boundary ++
          (CRLF ++ (MessageHeader.write p.header ++ (CRLF ++ s)))) = .ok (header, s, true) ∧
      nextPart boundary (some false) (MessageHeader.write p.header ++ (CRLF ++ s))
        = .ok (header, s, true) := by
  obtain ⟨header, hhd⟩ := parseHeader_write p s
  have hass : boundary ≠ [] ∧ boundary.length < STREAM_BUFFER_SIZE - 6 := by
    refine ⟨hne, ?_⟩
    have := hb.length
    rw [BUFFER_LENGTH, STREAM_BUFFER_SIZE] at this
    rw [STREAM_BUFFER_SIZE]
    omega
  refine ⟨header, ?_, ?_⟩
  · rw [nextPart, findFirstBoundary_boundary hb.line]
    show (parseHeader _ >>= fun r => _) = _
    rw [hhd]
    exact if_pos hass
  · show (parseHeader _ >>= fun r => _) = _
    rw [hhd]
    exact if_pos hass

def received (boundary : Bytes) (p : Part) : Bytes := p.body ++ slip boundary p.body

/-- One part is read, and the reader is where the next one starts. -/
theorem readParts_part (hb : Usable boundary) (hp : NoDelimiter boundary p.body)
    (ps : List Part) (fuel : ℕ) {mpi : Option Bool} (hmpi : mpi ≠ some true)
    (hnext : nextPart boundary mpi s = .ok (header, p.body ++ writeAll boundary false ps, true)) :
    ∃ t, readParts boundary (fuel + 1) mpi true s
        = (readParts boundary fuel (some ps.isEmpty) true t).map
            ((header, received boundary p) :: ·) ∧
      ∀ q qs, ps = q :: qs →
        t = MessageHeader.write q.header ++ (CRLF ++ (q.body ++ writeAll boundary false qs)) := by
  obtain ⟨e, t, htext, hend, hbeg⟩ := writeAll_false boundary ps
  have hfuel : p.body.length + 2 ≤ (p.body ++ writeAll boundary false ps).length + 1 := by
    rw [htext]
    simp only [length_append, length_cons]
    omega
  have hbody := readBody_body hb hend hp hfuel
  rw [← htext] at hbody
  refine ⟨t, ?_, hbeg⟩
  rw [readParts, if_pos ⟨hmpi, rfl⟩, hnext]
  dsimp only
  rw [hbody]
  rfl

theorem readParts_writeAll (hb : Usable boundary) (hne : boundary ≠ []) :
    ∀ (ps : List Part) (p : Part) (fuel : ℕ) (mpi : Option Bool) (s : Bytes),
      (∀ q ∈ p :: ps, NoDelimiter boundary q.body) → ps.length < fuel → mpi ≠ some true →
      (∃ header, nextPart boundary mpi s
        = .ok (header, p.body ++ writeAll boundary false ps, true)) →
      (readParts boundary fuel mpi true s).map (List.map Prod.snd)
        = .ok ((p :: ps).map (received boundary)) := by
  intro ps
  induction ps with
  | nil =>
    rintro p fuel mpi s hp hfuel hmpi ⟨header, hnext⟩
    obtain ⟨fuel, rfl⟩ := Nat.exists_eq_add_one_of_ne_zero (Nat.ne_zero_of_lt hfuel)
    obtain ⟨t, hread, -⟩ := readParts_part hb (hp p mem_cons_self) [] fuel hmpi hnext
    rw [hread]
    cases fuel <;> rfl
  | cons q ps ih =>
    rintro p fuel mpi s hp hfuel hmpi ⟨header, hnext⟩
    obtain ⟨fuel, rfl⟩ := Nat.exists_eq_add_one_of_ne_zero (Nat.ne_zero_of_lt hfuel)
    obtain ⟨t, hread, hbeg⟩ := readParts_part hb (hp p mem_cons_self) (q :: ps) fuel hmpi hnext
    obtain ⟨header', -, hnext'⟩ := nextPart_write hb hne q (q.body ++ writeAll boundary false ps)
    have hrest := ih q fuel (some false) t (fun q' hq' => hp q' (mem_cons_of_mem _ hq'))
      (Nat.lt_of_succ_lt_succ hfuel) (by simp) ⟨header', by rw [hbeg q ps rfl, hnext']⟩
    obtain ⟨l, hl, hsnd⟩ := Except.map_eq_ok.mp hrest
    rw [hread, isEmpty_cons, hl, map_cons, ← hsnd]
    rfl

theorem length_le_writeAll (boundary : Bytes) (firstPart : Bool) (ps : List Part) :
    ps.length ≤ (writeAll boundary firstPart ps).length := by
  induction ps generalizing firstPart with
  | nil => exact Nat.zero_le _
  | cons p ps ih =>
    have hrest := ih false
    simp only [writeAll, MultipartWriter.nextPart, length_append, length_cons] at hrest ⊢
    omega

theorem writeAll_true (boundary : Bytes) (p : Part) (ps : List Part) :
    writeAll boundary true (p :: ps) = [0x2D, 0x2D] ++ boundary ++
      (CRLF ++ (MessageHeader.write p.header ++
        (CRLF ++ (p.body ++ writeAll boundary false ps)))) := by
  simp [writeAll, MultipartWriter.nextPart]

theorem readAll_writeAll (hb : Usable boundary) (hne : boundary ≠ []) {ps : List Part}
    (hps : ps ≠ []) (hbody : ∀ p ∈ ps, NoDelimiter boundary p.body) :
    (readAll boundary (writeAll boundary true ps)).map (List.map Prod.snd)
      = .ok (ps.map (received boundary)) := by
  obtain ⟨p, ps, rfl⟩ := exists_cons_of_ne_nil hps
  have hlen := length_le_writeAll boundary true (p :: ps)
  rw [length_cons] at hlen
  obtain ⟨header, hnext, -⟩ := nextPart_write hb hne p (p.body ++ writeAll boundary false ps)
  rw [readAll]
  refine readParts_writeAll hb hne ps p _ none _ hbody (by omega) (by simp) ⟨header, ?_⟩
  rw [writeAll_true, hnext]

/-- A message of which the first body comes back shows that the boundary can be found. -/
theorem usable_of_readAll
    (h : (readAll boundary (writeAll boundary true (p :: ps))).map (List.map Prod.snd)
      = .ok (p.body :: bodies)) : Usable boundary := by
  obtain ⟨l, hl, hbod⟩ := Except.map_eq_ok.mp h
  rw [readAll, readParts, if_pos ⟨by simp, rfl⟩] at hl
  split at hl
  · cases hl
  next header s good hnext =>
  obtain ⟨t, hfst, hnext⟩ := Except.bind_eq_ok.mp hnext
  have hline := line_of_findFirstBoundary hfst
  rw [writeAll_true, findFirstBoundary_boundary hline] at hfst
  cases hfst
  obtain ⟨r, hhd, hnext⟩ := Except.bind_eq_ok.mp hnext
  obtain ⟨header', hhd'⟩ := parseHeader_write p (p.body ++ writeAll boundary false ps)
  cases hhd'.symm.trans hhd
  split at hnext
  · cases hnext
    split at hl
    · cases hl
    next body lastPart t' hread =>
    obtain ⟨l', -, rfl⟩ := Except.map_eq_ok.mp hl
    cases hbod
    obtain ⟨e, t, htext, -, -⟩ := writeAll_false boundary ps
    rw [htext] at hread
    exact usable_of_readBody hline (Nat.lt_succ_self _) hread
  · cases hnext

/-- **When the bodies come back as they were.**  The boundary has to be one that the reader
can find, and at the end of no body may the reader be in the middle of a delimiter. -/
theorem readAll_writeAll_iff {boundary : Bytes} (hne : boundary ≠ []) {ps : List Part}
    (hps : ps ≠ []) (hbody : ∀ p ∈ ps, NoDelimiter boundary p.body) :
    (readAll boundary (writeAll boundary true ps)).map (List.map Prod.snd)
        = .ok (ps.map Part.body) ↔
      ((∀ c ∈ boundary, c < 0x80 ∧ c ≠ 0x0D ∧ c ≠ 0x0A) ∧ boundary.length ≤ 1015) ∧
        ∀ p ∈ ps, slips boundary p.body = false := by
  have husa : ((∀ c ∈ boundary, c < 0x80 ∧ c ≠ 0x0D ∧ c ≠ 0x0A) ∧ boundary.length ≤ 1015) ↔
      Usable boundary := by
    constructor
    · rintro ⟨hchs, hlen⟩
      refine ⟨fun c hc => (hchs c hc).1, ?_, ?_⟩
      · intro c hc
        simp [inLine, (hchs c hc).2]
      · rw [BUFFER_LENGTH, STREAM_BUFFER_SIZE]
        omega
    · intro hb
      refine ⟨?_, ?_⟩
      · intro c hc
        have hline := hb.line c hc
        simp only [inLine, Bool.and_eq_true, bne_iff_ne] at hline
        exact ⟨hb.ascii c hc, hline⟩
      · have := hb.length
        rw [BUFFER_LENGTH, STREAM_BUFFER_SIZE] at this
        omega
  rw [husa]
  have hrec : ∀ p : Part, received boundary p = p.body ↔ slips boundary p.body = false := by
    intro p
    rw [received, append_right_eq_self, slip]
    cases slips boundary p.body <;> simp
  constructor
  · intro h
    have hb : Usable boundary := by
      obtain ⟨p, ps, rfl⟩ := exists_cons_of_ne_nil hps
      exact usable_of_readAll h
    refine ⟨hb, fun p hp => ?_⟩
    rw [readAll_writeAll hb hne hps hbody] at h
    exact (hrec p).mp (map_inj_left.mp (Except.ok.inj h) p hp)
  · rintro ⟨hb, hslp⟩
    rw [readAll_writeAll hb hne hps hbody]
    congr 1
    exact map_congr_left fun p hp => (hrec p).mpr (hslp p hp)

/-- A part with a header and an empty line in its body, and one without a header. -/
def twoParts : List Part :=
  [⟨hostTwice, by decide, [0x78, 0x0D, 0x0A, 0x0D, 0x0A, 0x79]⟩, ⟨[], by decide, []⟩]

theorem readAll_writeAll_iff_two :
    (readAll [0x62] (writeAll [0x62] true twoParts)).map (List.map Prod.snd)
      = .ok [[0x78, 0x0D, 0x0A, 0x0D, 0x0A, 0x79], []] :=
  (readAll_writeAll_iff (by simp) (by simp [twoParts]) (by decide)).mpr (by decide)

/-- With the boundary `b`, the body that ends with a line of two hyphens comes back with a
carriage return. -/
theorem readAll_writeAll_slips :
    NoDelimiter [0x62] [0x0A, 0x2D, 0x2D] ∧
    (readAll [0x62] (writeAll [0x62] true [⟨[], by decide, [0x0A, 0x2D, 0x2D]⟩])).map
      (List.map Prod.snd) = .ok [[0x0A, 0x2D, 0x2D, 0x0D]] := by
  refine ⟨?_, by decide⟩
  intro h
  exact absurd h.length_le (by decide)

end MultipartReader

end Poco.Net
