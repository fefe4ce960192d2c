import Mathlib.Data.List.TakeWhile
import Mathlib.Data.List.Induction
import Poco.Lib.Bytes

/-!
# Mail streams

`MailStreamBuf` of `Net/src/MailStream.cpp`: the escaping of dots at the beginning of a
line, and the terminator, in a message sent with the SMTP command `DATA`.  The writer and
the reader keep the bytes of an unfinished line break in a buffer.

A byte that the reader returns goes through the type `char`, which is signed, to the type
`int`, where `-1` is the end of file; the reader of `UnbufferedStreamBuf` stops there.

## Main definitions

* `Writer`, `Reader`: a `MailStreamBuf` on an output stream and on an input stream.
* `written`, `readBack`: what is written for a message, and what is read from an input.
* `stuff`: a message with its dots escaped.

## Main results

* `written_eq`: the message with its dots escaped, a line break if it does not end with one, and the
  terminator.
* `readMore_text`: the reader goes on to the next byte that is not part of a line break, or to the
  end of the message.
* `readAll_text`: of a message that is not empty the bytes up to the first `0xFF` are read.
* `mail_roundTrip_iff`: when a message survives.
-/

namespace Poco.Net.MailStream

open List

inductive State where
  | ST_DATA
  | ST_CR
  | ST_CR_LF
  | ST_CR_LF_DOT
  | ST_CR_LF_DOT_DOT
  | ST_CR_LF_DOT_CR
  | ST_CR_LF_DOT_CR_LF
  deriving DecidableEq, Repr

open State

def CRLF : Bytes := [0x0D, 0x0A]

def dotLine : Bytes := [0x2E, 0x0D, 0x0A]

/-! ### Writing -/

/-- A `MailStreamBuf` on an output stream; `out` is what the stream has got. -/
structure Writer where
  state : State
  buffer : Bytes
  out : Bytes
  deriving DecidableEq, Repr

open Writer

namespace Writer

def init : Writer := ⟨ST_CR_LF, [], []⟩

/-- The `switch (c)` of `writeToDevice`. -/
def next (state : State) (c : UInt8) : State :=
  if c = 0x0D then ST_CR
  else if c = 0x0A then if state = ST_CR then ST_CR_LF else ST_DATA
  else if c = 0x2E then if state = ST_CR_LF then ST_CR_LF_DOT else ST_DATA
  else ST_DATA

def writeToDevice (w : Writer) (c : UInt8) : Writer :=
  let state := next w.state c
  if state = ST_DATA then ⟨state, [], w.out ++ w.buffer ++ [c]⟩
  else if state = ST_CR_LF_DOT then ⟨ST_DATA, [], w.out ++ w.buffer ++ [0x2E, 0x2E]⟩
  else ⟨state, w.buffer ++ [c], w.out⟩

def close (w : Writer) : Writer :=
  if w.state ≠ ST_CR_LF_DOT_CR_LF then
    ⟨ST_CR_LF_DOT_CR_LF, w.buffer,
      w.out ++ w.buffer ++ (if w.state ≠ ST_CR_LF then CRLF else []) ++ dotLine⟩
  else w

end Writer

def written (m : Bytes) : Bytes := (m.foldl Writer.writeToDevice Writer.init).close.out

/-! ### Reading -/

def eof : ℤ := -1

/-- The conversion of a `char` to an `int`. -/
def charInt (c : UInt8) : ℤ := c.toInt8.toInt

/-- `std::char_traits<char>::to_char_type`. -/
def toChar (c : ℤ) : UInt8 := UInt8.ofNat (c % 256).toNat

/-- A `MailStreamBuf` on an input stream; `input` is what the stream still has. -/
structure Reader where
  state : State
  buffer : Bytes
  input : Bytes
  deriving DecidableEq, Repr

namespace Reader

def init (input : Bytes) : Reader := ⟨ST_CR_LF, [], input⟩

/-- The `switch (c)` of `readOne`. -/
def next (state : State) (c : UInt8) : State :=
  if c = 0x0D then if state = ST_CR_LF_DOT then ST_CR_LF_DOT_CR else ST_CR
  else if c = 0x0A then
    if state = ST_CR then ST_CR_LF
    else if state = ST_CR_LF_DOT_CR then ST_CR_LF_DOT_CR_LF
    else ST_DATA
  else if c = 0x2E then
    if state = ST_CR_LF then ST_CR_LF_DOT
    else if state = ST_CR_LF_DOT then ST_CR_LF_DOT_DOT
    else ST_DATA
  else ST_DATA

def readOne (r : Reader) : ℤ × Reader :=
  if r.state = ST_CR_LF_DOT_CR_LF then (eof, r)
  else match r.input with
    | [] => (eof, ⟨ST_DATA, r.buffer, []⟩)
    | c :: input =>
      let state := next r.state c
      if state = ST_CR_LF_DOT_DOT then (c.toNat, ⟨ST_DATA, r.buffer, input⟩)
      else if state = ST_CR_LF_DOT_CR_LF then
        (c.toNat, ⟨state, r.buffer.take (r.buffer.length - 2), input⟩)
      else (c.toNat, ⟨state, r.buffer ++ [c], input⟩)

/-- The calls of `readOne` in `readFromDevice`.  Each takes a byte of the input, so a fuel
above its length suffices. -/
def readMore : ℕ → Reader → ℤ × Reader
  | 0, r => (eof, r)
  | n + 1, r =>
    let (c, r) := r.readOne
    if c ≠ eof ∧ r.state ≠ ST_DATA ∧ r.state ≠ ST_CR_LF_DOT_CR_LF then readMore n r else (c, r)

def readFromDevice (r : Reader) : ℤ × Reader :=
  match r.buffer with
  | c :: buffer => (charInt c, { r with buffer := buffer })
  | [] =>
    let (c, r) := readMore (r.input.length + 1) r
    match r.buffer with
    | c :: buffer => (charInt c, { r with buffer := buffer })
    | [] => (c, r)

/-- Reading until the end of file, as `UnbufferedStreamBuf::uflow` does byte for byte. -/
def readAll : ℕ → Reader → Bytes
  | 0, _ => []
  | n + 1, r =>
    let (c, r) := r.readFromDevice
    if c = eof then [] else toChar c :: readAll n r

end Reader

/-- What is read from an input.  No call returns more bytes than it takes. -/
def readBack (input : Bytes) : Bytes := Reader.readAll (input.length + 1) (.init input)

/-! ### What is written -/

/-- The part of a line break that a message has come to, from `state` on. -/
def lineState (state : State) (c : UInt8) : State :=
  if c = 0x0D then ST_CR
  else if c = 0x0A ∧ state = ST_CR then ST_CR_LF
  else ST_DATA

def stuff : State → Bytes → Bytes
  | _, [] => []
  | state, c :: m =>
    (if c = 0x2E ∧ state = ST_CR_LF then [0x2E, 0x2E] else [c]) ++ stuff (lineState state c) m

def endState (state : State) (m : Bytes) : State := m.foldl lineState state

def lineEnd (state : State) (m : Bytes) : Bytes :=
  if endState state m = ST_CR_LF then [] else CRLF

/-- The states in which a message is between two bytes. -/
def Between (state : State) : Prop := state = ST_DATA ∨ state = ST_CR ∨ state = ST_CR_LF

theorem between_lineState (state : State) (c : UInt8) : Between (lineState state c) := by
  unfold lineState
  split
  · exact .inr (.inl rfl)
  · split
    · exact .inr (.inr rfl)
    · exact .inl rfl

theorem Between.ne {state : State} (h : Between state) :
    state ≠ ST_CR_LF_DOT_DOT ∧ state ≠ ST_CR_LF_DOT_CR_LF := by
  rcases h with rfl | rfl | rfl <;> decide

theorem writeToDevice_eq (w : Writer) (c : UInt8) :
    (w.writeToDevice c).state = lineState w.state c ∧
      (w.writeToDevice c).out ++ (w.writeToDevice c).buffer =
        w.out ++ w.buffer ++ if c = 0x2E ∧ w.state = ST_CR_LF then [0x2E, 0x2E] else [c] := by
  unfold writeToDevice Writer.next lineState
  by_cases h1 : c = 0x0D
  · subst h1
    simp
  by_cases h2 : c = 0x0A
  · subst h2
    by_cases hs : w.state = ST_CR <;> simp [hs]
  · by_cases h3 : c = 0x2E
    · subst h3
      by_cases hs : w.state = ST_CR_LF <;> simp [hs]
    · simp [h1, h2, h3]

theorem foldl_writeToDevice (m : Bytes) (w : Writer) :
    (m.foldl writeToDevice w).state = endState w.state m ∧
      (m.foldl writeToDevice w).out ++ (m.foldl writeToDevice w).buffer
        = w.out ++ w.buffer ++ stuff w.state m := by
  induction m generalizing w with
  | nil => simp [endState, stuff]
  | cons c m ih =>
    obtain ⟨hst, hout⟩ := writeToDevice_eq w c
    obtain ⟨ih1, ih2⟩ := ih (w.writeToDevice c)
    rw [hst] at ih1 ih2
    refine ⟨ih1, ?_⟩
    rw [foldl_cons, ih2, hout, stuff, append_assoc]

theorem between_endState {state : State} (h : Between state) (m : Bytes) :
    Between (endState state m) := by
  induction m generalizing state with
  | nil => exact h
  | cons c m ih => exact ih (between_lineState state c)

theorem written_eq (m : Bytes) :
    written m = stuff ST_CR_LF m ++ (lineEnd ST_CR_LF m ++ dotLine) := by
  obtain ⟨hst, hout⟩ := foldl_writeToDevice m init
  have hend : Between (endState init.state m) := between_endState (.inr (.inr rfl)) m
  unfold written close
  rw [hst, if_pos hend.ne.2, hout]
  unfold lineEnd
  simp only [init]
  split <;> simp_all

/-! ### What is read -/

/-- The text of the message `m` as it stands in the stream from `state` on. -/
def text (state : State) (m : Bytes) : Bytes :=
  stuff state m ++ (lineEnd state m ++ dotLine)

theorem text_cons (state : State) (c : UInt8) (m : Bytes) :
    text state (c :: m) = (if c = 0x2E ∧ state = ST_CR_LF then [0x2E, 0x2E] else [c])
      ++ text (lineState state c) m := by
  rw [text, stuff, append_assoc]
  rfl

namespace Reader

theorem next_of_not_dot {state : State} (h : Between state)
    (hc : ¬ (c = 0x2E ∧ state = ST_CR_LF)) : next state c = lineState state c := by
  unfold next lineState
  rcases h with rfl | rfl | rfl <;> simp_all

theorem readOne_of_not_dot {state : State} (h : Between state)
    (hc : ¬ (c = 0x2E ∧ state = ST_CR_LF)) (buffer input : Bytes) :
    readOne ⟨state, buffer, c :: input⟩
      = ((c.toNat : ℤ), (⟨lineState state c, buffer ++ [c], input⟩ : Reader)) := by
  have hne := (between_lineState state c).ne
  unfold readOne
  rw [if_neg h.ne.2]
  simp only [next_of_not_dot h hc]
  rw [if_neg hne.1, if_neg hne.2]

theorem toNat_ne_eof (c : UInt8) : (c.toNat : ℤ) ≠ eof := by
  unfold eof
  omega

theorem readMore_text : ∀ (m : Bytes) {state : State}, Between state →
    ∀ (buffer : Bytes) {n : ℕ}, (text state m).length ≤ n →
    ∃ c, c ≠ eof ∧
      ((∃ w m', m = w ++ m' ∧ w ≠ [] ∧ endState state w = ST_DATA ∧
          readMore n ⟨state, buffer, text state m⟩ = (c, ⟨ST_DATA, buffer ++ w, text ST_DATA m'⟩)) ∨
        readMore n ⟨state, buffer, text state m⟩
          = (c, ⟨ST_CR_LF_DOT_CR_LF, buffer ++ (m ++ lineEnd state m), []⟩)) := by
  intro m
  induction m with
  | nil =>
    intro state hst buffer n hn
    refine ⟨10, by decide, .inr ?_⟩
    obtain ⟨k, rfl⟩ := Nat.exists_eq_add_of_le' hn
    rcases hst with rfl | rfl | rfl <;>
      simp [text, stuff, lineEnd, endState, CRLF, dotLine, readMore, readOne, next, eof,
        take_length_add_append]
  | cons c m ih =>
    intro state hst buffer n hn
    rw [text_cons] at hn ⊢
    by_cases hdot : c = 0x2E ∧ state = ST_CR_LF
    · -- an escaped dot
      obtain ⟨rfl, rfl⟩ := hdot
      obtain ⟨n, rfl⟩ : ∃ k, n = k + 2 := ⟨n - 2, by simp at hn; omega⟩
      refine ⟨0x2E, by decide, .inl ⟨[0x2E], m, rfl, by simp, rfl, ?_⟩⟩
      simp [readMore, readOne, next, eof, lineState]
    · rw [if_neg hdot, singleton_append] at hn ⊢
      obtain ⟨n, rfl⟩ : ∃ k, n = k + 1 := ⟨n - 1, by simp at hn; omega⟩
      rw [readMore, readOne_of_not_dot hst hdot]
      dsimp only
      by_cases hdata : lineState state c = ST_DATA
      · rw [if_neg (by simp [hdata])]
        exact ⟨_, toNat_ne_eof c, .inl ⟨[c], m, rfl, by simp, hdata, by rw [hdata]⟩⟩
      have hbet := between_lineState state c
      rw [if_pos ⟨toNat_ne_eof c, hdata, hbet.ne.2⟩]
      obtain ⟨d, hd, hread⟩ := ih hbet (buffer ++ [c]) (by simpa using hn)
      refine ⟨d, hd, ?_⟩
      rcases hread with ⟨w, m', hm, hw, hend, hread⟩ | hread
      · refine .inl ⟨c :: w, m', by rw [hm]; rfl, by simp, hend, ?_⟩
        rw [hread, append_assoc]
        rfl
      · refine .inr ?_
        rw [hread, append_assoc]
        rfl

theorem charInt_eq_eof_iff : ∀ c : UInt8, charInt c = eof ↔ c = 0xFF := by decide

theorem toChar_charInt : ∀ c : UInt8, toChar (charInt c) = c := by decide

/-- The bytes in the buffer are returned first; the byte `0xFF` is taken for the end. -/
theorem readAll_buffer {state : State} {input y : Bytes} : ∀ {buffer : Bytes} {n : ℕ},
    buffer.length ≤ n →
    readAll (n - buffer.length) ⟨state, [], input⟩ = y.takeWhile (· ≠ 0xFF) →
      readAll n ⟨state, buffer, input⟩ = (buffer ++ y).takeWhile (· ≠ 0xFF) := by
  intro buffer
  induction buffer with
  | nil =>
    intro n _ hy
    exact hy
  | cons c buffer ih =>
    intro n hn hy
    rw [length_cons] at hn hy
    obtain ⟨n, rfl⟩ : ∃ k, n = k + 1 := ⟨n - 1, by omega⟩
    have hcall : readFromDevice ⟨state, c :: buffer, input⟩ = (charInt c, ⟨state, buffer, input⟩) :=
      rfl
    rw [Nat.add_sub_add_right] at hy
    rw [readAll, hcall, cons_append]
    dsimp only
    by_cases hc : c = 0xFF
    · rw [if_pos ((charInt_eq_eof_iff c).mpr hc), takeWhile_cons_of_neg (by simpa using hc)]
    · rw [if_neg fun h => hc ((charInt_eq_eof_iff c).mp h), toChar_charInt, ih (by omega) hy,
        takeWhile_cons_of_pos (by simpa using hc)]

theorem readAll_of_readMore (hr : r.buffer = [])
    (h : readMore (r.input.length + 1) r = (c, r')) (hr' : r'.buffer ≠ []) (n : ℕ) :
    readAll n r = readAll n r' := by
  cases n with
  | zero => rfl
  | succ n =>
    obtain ⟨d, buffer, hbuf⟩ := exists_cons_of_ne_nil hr'
    have hcall : readFromDevice r = readFromDevice r' := by
      unfold readFromDevice
      simp only [hr, h, hbuf]
    rw [readAll, readAll, hcall]

theorem readAll_end (n : ℕ) : readAll n ⟨ST_CR_LF_DOT_CR_LF, [], []⟩ = [] := by
  cases n with
  | zero | succ => rfl

end Reader

theorem stuff_append (state : State) (w m : Bytes) :
    stuff state (w ++ m) = stuff state w ++ stuff (endState state w) m := by
  induction w generalizing state with
  | nil => rfl
  | cons c w ih =>
    rw [cons_append, stuff, stuff, ih, append_assoc]
    rfl

theorem length_le_stuff (state : State) (m : Bytes) : m.length ≤ (stuff state m).length := by
  induction m generalizing state with
  | nil => exact Nat.zero_le _
  | cons c m ih =>
    rw [stuff, length_append, length_cons]
    have := ih (lineState state c)
    split <;> simp <;> omega

theorem lineEnd_append (state : State) (w m : Bytes) :
    lineEnd state (w ++ m) = lineEnd (endState state w) m := by
  unfold lineEnd endState
  rw [foldl_append]

theorem text_append (state : State) (w m : Bytes) :
    text state (w ++ m) = stuff state w ++ text (endState state w) m := by
  rw [text, stuff_append, lineEnd_append, append_assoc]
  rfl

theorem readAll_text : ∀ (k : ℕ) {m : Bytes} {state : State}, m.length < k → Between state →
    ¬ (m = [] ∧ state = ST_CR_LF) → ∀ {n : ℕ}, (text state m).length < n →
      Reader.readAll n ⟨state, [], text state m⟩
        = (m ++ lineEnd state m).takeWhile (· ≠ 0xFF) := by
  intro k
  induction k with
  | zero =>
    intro m state hm
    omega
  | succ k ih =>
    intro m state hm hst hne n hn
    obtain ⟨c, hc, hread⟩ :=
      Reader.readMore_text m hst [] (n := (text state m).length + 1) (Nat.le_succ _)
    rcases hread with ⟨w, m', hmw, hw, hend, hread⟩ | hread
    · have hlen := length_le_stuff state w
      have hpos := length_pos_iff.mpr hw
      rw [hmw, text_append, hend, length_append] at hn
      rw [hmw, length_append] at hm
      rw [Reader.readAll_of_readMore rfl hread (by simpa using hw), nil_append, hmw,
        lineEnd_append, hend, append_assoc]
      refine Reader.readAll_buffer (by omega) (ih (by omega) (.inl rfl) ?_ (by omega))
      rintro ⟨-, h⟩
      cases h
    · have hbuf : m ++ lineEnd state m ≠ [] := by
        intro h
        obtain ⟨hm0, hl0⟩ := append_eq_nil_iff.mp h
        refine hne ⟨hm0, ?_⟩
        subst hm0
        by_contra hs
        have hcrlf : lineEnd state [] = CRLF := if_neg hs
        rw [hcrlf] at hl0
        cases hl0
      have hlen := length_le_stuff state m
      rw [text, length_append, length_append] at hn
      have hall := Reader.readAll_buffer (y := []) (by rw [length_append]; omega)
        (Reader.readAll_end (n - (m ++ lineEnd state m).length))
      rw [append_nil] at hall
      rw [Reader.readAll_of_readMore rfl hread (by simpa using hbuf), nil_append, hall]

/-- The message that should be read: the one that was written, with a line break at its end
if it is not empty. -/
def terminated (m : Bytes) : Bytes :=
  if m = [] ∨ CRLF <:+ m then m else m ++ CRLF

theorem endState_eq_iff (m : Bytes) :
    endState ST_CR_LF m = ST_CR_LF ↔ m = [] ∨ CRLF <:+ m := by
  have hstep : ∀ w c, endState ST_CR_LF (w ++ [c]) = lineState (endState ST_CR_LF w) c := by
    intro w c
    rw [endState, foldl_append]
    rfl
  rcases eq_nil_or_concat' m with rfl | ⟨w, c, rfl⟩
  · exact iff_of_true rfl (.inl rfl)
  rcases eq_nil_or_concat' w with rfl | ⟨v, b, rfl⟩
  · refine iff_of_false ?_ (by simp [CRLF, suffix_cons_iff])
    show lineState ST_CR_LF c ≠ ST_CR_LF
    unfold lineState
    split_ifs <;> simp_all
  -- the last two bytes decide
  have hsuf : CRLF <:+ v ++ [b] ++ [c] ↔ [b, c] = CRLF := by
    rw [append_assoc]
    refine ⟨fun h => ?_, fun h => h ▸ suffix_append v _⟩
    exact (suffix_of_suffix_length_le (suffix_append v _) h le_rfl).eq_of_length rfl
  rw [hstep, hstep, hsuf]
  by_cases hb : b = 0x0D
  · by_cases hc : c = 0x0D <;> simp [lineState, CRLF, hb, hc]
  · unfold lineState
    split_ifs <;> simp_all [CRLF]

theorem append_lineEnd (m : Bytes) : m ++ lineEnd ST_CR_LF m = terminated m := by
  unfold lineEnd terminated
  simp only [endState_eq_iff]
  split <;> simp

theorem readBack_written (m : Bytes) : readBack (written m) =
    if m = [] then [0x0A] else (terminated m).takeWhile (· ≠ 0xFF) := by
  by_cases hm : m = []
  · subst hm
    rfl
  · rw [if_neg hm, written_eq, ← append_lineEnd]
    exact readAll_text _ (Nat.lt_succ_self _) (.inr (.inr rfl)) (fun h => hm h.1)
      (Nat.lt_succ_self _)

/-! ### The terminator -/

/-- The rest of a text after the first terminator, for a reader in a state. -/
def afterTerminator : State → Bytes → Option Bytes
  | _, [] => none
  | state, c :: s =>
    let state := Reader.next state c
    if state = ST_CR_LF_DOT_CR_LF then some s
    else afterTerminator (if state = ST_CR_LF_DOT_DOT then ST_DATA else state) s

theorem suffix_of_afterTerminator : ∀ {x : Bytes} {state : State},
    afterTerminator state (x ++ (CRLF ++ dotLine ++ y)) = some z → y <:+ z := by
  intro x
  induction x with
  | nil =>
    intro state h
    cases state <;> simp [afterTerminator, Reader.next, CRLF, dotLine] at h <;> subst h
    all_goals first
      | exact suffix_refl _
      | exact suffix_append [0x2E, 0x0D, 0x0A] y
  | cons c x ih =>
    intro state h
    rw [cons_append, afterTerminator] at h
    split at h
    · cases h
      rw [← append_assoc]
      exact suffix_append _ _
    · exact ih h

/-- The text of a message has one terminator, at its end. -/
theorem afterTerminator_text (m : Bytes) : ∀ {state : State}, Between state →
    afterTerminator state (text state m) = some [] := by
  induction m with
  | nil =>
    intro state h
    rcases h with rfl | rfl | rfl <;> rfl
  | cons c m ih =>
    intro state h
    have hbet := between_lineState state c
    have hrest := ih hbet
    rw [text_cons]
    by_cases hdot : c = 0x2E ∧ state = ST_CR_LF
    · obtain ⟨rfl, rfl⟩ := hdot
      exact hrest
    · rw [if_neg hdot, singleton_append, afterTerminator]
      simp only [Reader.next_of_not_dot h hdot]
      rw [if_neg hbet.ne.2, if_neg hbet.ne.1]
      exact hrest

/-- The terminator, a dot on a line of its own, stands at the end of a text only. -/
def TerminatorAtEnd (s : Bytes) : Prop :=
  (∀ x y, s = x ++ (CRLF ++ dotLine ++ y) → y = []) ∧ ∀ y, s = dotLine ++ y → y = []

theorem terminatorAtEnd_written (m : Bytes) : TerminatorAtEnd (written m) := by
  have hend : afterTerminator ST_CR_LF (written m) = some [] := by
    rw [written_eq]
    exact afterTerminator_text m (.inr (.inr rfl))
  constructor
  · intro x y hxy
    rw [hxy] at hend
    exact suffix_nil.mp (suffix_of_afterTerminator hend)
  · intro y hy
    rw [hy] at hend
    exact Option.some.inj hend

/-- **When a message survives**: exactly if it is not empty and has no byte `0xFF`. -/
theorem mail_roundTrip_iff (m : Bytes) :
    (readBack (written m) = terminated m ∧ TerminatorAtEnd (written m)) ↔
      m ≠ [] ∧ (0xFF : UInt8) ∉ m := by
  rw [readBack_written]
  constructor
  · rintro ⟨h, -⟩
    have hm : m ≠ [] := by
      rintro rfl
      exact absurd h (by decide)
    rw [if_neg hm, takeWhile_eq_self_iff] at h
    refine ⟨hm, ?_⟩
    intro hff
    have hmem : (0xFF : UInt8) ∈ terminated m := by
      unfold terminated
      split
      · exact hff
      · exact mem_append_left _ hff
    exact absurd (h _ hmem) (by simp)
  · rintro ⟨hm, hff⟩
    refine ⟨?_, terminatorAtEnd_written m⟩
    rw [if_neg hm, takeWhile_eq_self_iff]
    intro c hc
    have hne : c ≠ 0xFF := by
      rintro rfl
      unfold terminated at hc
      split at hc
      · exact hff hc
      · rcases mem_append.mp hc with h | h
        · exact hff h
        · exact absurd h (by decide)
    simpa using hne

/-- The empty message is read as a line feed, and a message with the byte `0xFF` is cut
short. -/
theorem readBack_written_fails :
    readBack (written []) = [0x0A] ∧ readBack (written [0x61, 0xFF, 0x62]) = [0x61] := by decide

end Poco.Net.MailStream
