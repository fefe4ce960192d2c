import Poco.JSON.Run
import Poco.Lib.TwoRuns

/-!
# Resetting a JSON parser

`Parser::reset` sets most members of a parser to what the constructor sets them to.  It does
not set the size of the mode stack, which makes no difference, and not the flag `_comment`,
which does.

## Main definitions

* `Alike`: parsers with the settings `σ` that differ in the size of their mode stacks only.  The
  stack of a parser without a limit of depth fits into its buffer; with a limit the buffer has the
  size it was constructed with.
* `Idle`: idle parsers that differ in their logs and in the mode on the stack.
* `afterParsing`, `renewed`: a parser that has been given some inputs, and one after `reset`.

## Main results

* `agrees_parse`: parsers that are alike give the same results.
* `Idle.run`: idle parsers fail in the same way.
* `reset_as_new_iff`: when a parser that has been reset is as good as new.
-/

namespace Poco.JSON.Parser

open Modes JSONType TwoRuns List

variable {D : Type}

structure Alike (σ : Settings) (p q : Parser D) : Prop where
  eq : q = { p with stackSize := q.stackSize }
  settings : p.settings = σ
  log : σ.handler = false → p.log = []
  fits : σ.depth < 0 → p.stack.length ≤ p.stackSize ∧ p.stack.length ≤ q.stackSize
  size_pos : 0 < p.stackSize ∧ 0 < q.stackSize
  limited : 0 ≤ σ.depth → p.stackSize = JSON_PARSER_STACK_SIZE ∧
    q.stackSize = JSON_PARSER_STACK_SIZE

namespace Alike

variable {σ : Settings} {p q : Parser D}

theorem depth (h : Alike σ p q) : p.depth = σ.depth := congrArg Settings.depth h.settings

theorem handler (h : Alike σ p q) : p.pHandler = σ.handler := congrArg Settings.handler h.settings

variable {f : Parser D → Parser D} {α : Type} {m : ParserM D α} {s : States} {a : Actions}

/-- A change that the size of the stack plays no part in, and that leaves the stack, the
settings and the log as they are. -/
theorem update (h : Alike σ p q)
    (hf : ∀ p n, f { p with stackSize := n } = { f p with stackSize := n })
    (hsize : (f p).stackSize = p.stackSize) (hstk : (f p).stack = p.stack)
    (hset : (f p).settings = p.settings) (hlog : (f p).log = p.log) : Alike σ (f p) (f q) := by
  have hq : f q = { f p with stackSize := q.stackSize } := by
    rw [h.eq, hf]
  refine ⟨?_, hset.trans h.settings, fun hh => hlog.trans (h.log hh), ?_, ?_, ?_⟩
  · rw [hq]
  · rw [hq, hstk, hsize]
    exact h.fits
  · rw [hq, hsize]
    exact h.size_pos
  · rw [hq, hsize]
    exact h.limited

end Alike

section Primitives

variable {σ : Settings}

/-- A program that reads the parser, and not the size of the stack. -/
theorem agrees_read {β : Type} {f : Parser D → ParserM D β}
    (hf : ∀ p n, f { p with stackSize := n } = f p) (h : ∀ p, Agrees (Alike σ) (f p)) :
    Agrees (Alike σ) (get >>= f) :=
  agrees_get_bind (fun p q hpq => by rw [hpq.eq, hf]) fun p _ _ => h p

theorem agrees_update (hf : ∀ p n, f { p with stackSize := n } = { f p with stackSize := n })
    (hkeep : ∀ p, ((f p).stackSize, (f p).stack, (f p).settings, (f p).log) =
      (p.stackSize, p.stack, p.settings, p.log)) :
    Agrees (Alike σ) (modify f : ParserM D PUnit) := by
  refine agrees_modify fun p _ h => ?_
  obtain ⟨hsize, hrest⟩ := Prod.mk.inj (hkeep p)
  obtain ⟨hstk, hrest⟩ := Prod.mk.inj hrest
  obtain ⟨hset, hlog⟩ := Prod.mk.inj hrest
  exact h.update hf hsize hstk hset hlog

theorem agrees_pocoAssert (a : Assertion) (c : Bool) :
    Agrees (Alike σ) (pocoAssert a c : ParserM D Unit) :=
  (agrees_pure ()).ite (agrees_throw _)

theorem agrees_emit (c : Callback D) : Agrees (Alike σ) (emit c) := by
  intro p q h
  obtain ⟨n, rfl⟩ : ∃ n, q = { p with stackSize := n } := ⟨_, h.eq⟩
  rw [emit_eq, emit_eq]
  refine .ok ⟨rfl, h.settings, ?_, h.fits, h.size_pos, h.limited⟩
  intro hh
  have hnot : ¬ p.pHandler = true := by
    rw [h.handler, hh]
    exact Bool.false_ne_true
  rw [h.log hh, callbacks, if_neg hnot]
  rfl

theorem agrees_clearBuffer : Agrees (Alike σ) (clearBuffer : ParserM D Unit) :=
  agrees_update (fun _ _ => rfl) fun _ => rfl

theorem agrees_setState (s : States) : Agrees (Alike σ) (setState s : ParserM D Unit) :=
  agrees_update (fun _ _ => rfl) fun _ => rfl

theorem agrees_setType (t : JSONType) : Agrees (Alike σ) (setType t : ParserM D Unit) :=
  agrees_update (fun _ _ => rfl) fun _ => rfl

theorem agrees_parseBufferPopBackChar :
    Agrees (Alike σ) (parseBufferPopBackChar : ParserM D Unit) := by
  refine agrees_read (fun _ _ => rfl) fun p => (agrees_pocoAssert _ _).bind fun _ => ?_
  exact agrees_update (fun _ _ => rfl) fun _ => rfl

theorem agrees_top : Agrees (Alike σ) (top : ParserM D Modes) := by
  intro p q h
  obtain ⟨n, rfl⟩ : ∃ n, q = { p with stackSize := n } := ⟨_, h.eq⟩
  have htop : ∀ q : Parser D, top q = match q.stack.head? with
      | some m => .ok m q
      | none => .error (.AssertionViolationException .stackIndex) q := by
    intro q
    unfold top
    cases q.stack with
    | nil | cons => rfl
  rw [htop, htop]
  cases p.stack.head? with
  | none => exact .error h
  | some m => exact .ok h

theorem agrees_pop (mode : Modes) : Agrees (Alike σ) (pop mode : ParserM D Bool) := by
  intro p q h
  obtain ⟨n, rfl⟩ : ∃ n, q = { p with stackSize := n } := ⟨_, h.eq⟩
  rw [pop_eq, pop_eq]
  split
  · refine .ok ⟨rfl, h.settings, h.log, ?_, h.size_pos, h.limited⟩
    intro hd
    have hlen : p.stack.tail.length ≤ p.stack.length := by simp
    exact ⟨hlen.trans (h.fits hd).1, hlen.trans (h.fits hd).2⟩
  · exact .ok h

/-- Without a limit a push succeeds, whatever the size is; with one the sizes are the same. -/
theorem agrees_push (mode : Modes) : Agrees (Alike σ) (push mode : ParserM D Bool) := by
  intro p q h
  obtain ⟨n, rfl⟩ : ∃ n, q = { p with stackSize := n } := ⟨_, h.eq⟩
  rw [push_eq, push_eq]
  rcases Int.lt_or_le σ.depth 0 with hd | hd
  · obtain ⟨hp, hq⟩ := h.fits hd
    have hp' := canPush_unlimited (h.depth.trans_lt hd) hp h.size_pos.1
    have hq' : CanPush { p with stackSize := n } p.stack (grown { p with stackSize := n }) :=
      canPush_unlimited (h.depth.trans_lt hd) hq h.size_pos.2
    rw [if_neg hp'.1, if_neg hp'.1, if_pos hp'.2.2, if_pos hq'.2.2]
    exact .ok ⟨rfl, h.settings, h.log, fun _ => ⟨hp'.2.2, hq'.2.2⟩,
      ⟨Nat.zero_lt_of_lt hp'.2.2, Nat.zero_lt_of_lt hq'.2.2⟩, fun hd' => by omega⟩
  · obtain ⟨hp, hq⟩ := h.limited hd
    have hgro : ∀ k, grown { p with stackSize := k } = k := by
      intro k
      rw [grown, if_neg]
      rw [show (({ p with stackSize := k } : Parser D)).depth = σ.depth from h.depth]
      omega
    have hn : n = p.stackSize := hq.trans hp.symm
    subst hn
    have hfits : ∀ ms : List Modes, σ.depth < 0 → ms.length ≤ p.stackSize ∧
        ms.length ≤ p.stackSize := fun _ hd' => by omega
    rw [show grown p = p.stackSize from hgro p.stackSize]
    split
    · exact .ok ⟨rfl, h.settings, h.log, hfits _, h.size_pos, h.limited⟩
    · split
      · exact .ok ⟨rfl, h.settings, h.log, hfits _, h.size_pos, h.limited⟩
      · exact .error ⟨rfl, h.settings, h.log, hfits _, h.size_pos, h.limited⟩

end Primitives

/-! ### The methods -/

section Methods

variable {σ : Settings}

theorem agrees_done : Agrees (Alike σ) (done : ParserM D Bool) :=
  agrees_read (fun _ _ => rfl) fun _ => (agrees_pop _).ite (agrees_pure _)

theorem agrees_addCharToParseBuffer (c : UInt8) (k : Classes) :
    Agrees (Alike σ) (addCharToParseBuffer c k : ParserM D Unit) := by
  refine agrees_read (fun _ _ => rfl) fun p => .ite ?_ (.ite (.ite ?_ ?_) (agrees_pure ()))
  · refine .bind ?_ fun _ => agrees_parseBufferPopBackChar.bind fun _ => ?_
    · exact agrees_update (fun _ _ => rfl) fun _ => rfl
    · exact agrees_update (fun _ _ => rfl) fun _ => rfl
  · exact agrees_update (fun _ _ => rfl) fun _ => rfl
  · exact agrees_pure ()

theorem agrees_appendUnicode (uc trailBytes : ℕ) :
    Agrees (Alike σ) (appendUnicode uc trailBytes : ParserM D Bool) := by
  refine .bind ?_ fun _ => agrees_pure true
  exact agrees_update (fun _ _ => rfl) fun _ => rfl

theorem agrees_decodeUnit (uc : ℕ) : Agrees (Alike σ) (decodeUnit uc : ParserM D Bool) := by
  refine agrees_read (fun _ _ => rfl) fun p => ?_
  have hset : ∀ hi, Agrees (Alike σ)
      (modify fun p => { p with utf16HighSurrogate := hi } : ParserM D PUnit) := fun _ =>
    agrees_update (fun _ _ => rfl) fun _ => rfl
  refine .ite (.ite ((hset 0).bind fun _ => agrees_appendUnicode _ _) (agrees_pure false)) ?_
  refine .ite (agrees_appendUnicode _ _) (.ite (agrees_appendUnicode _ _) ?_)
  exact .ite ((hset uc).bind fun _ => agrees_pure true)
    (.ite (agrees_pure false) (agrees_appendUnicode _ _))

theorem agrees_decodeUnicodeChar : Agrees (Alike σ) (decodeUnicodeChar : ParserM D Bool) := by
  refine agrees_read (fun _ _ => rfl) fun p => (agrees_pocoAssert _ _).bind fun _ =>
    (agrees_pocoAssert _ _).bind fun _ => .ite (agrees_pure false) (.bind ?_ fun _ => ?_)
  · exact agrees_update (fun _ _ => rfl) fun _ => rfl
  · exact agrees_decodeUnit _

theorem agrees_beginType (t : JSONType) (s : States) :
    Agrees (Alike σ) (beginType t s : ParserM D Bool) :=
  (agrees_setType t).bind fun _ => (agrees_setState s).bind fun _ => agrees_pure true

theorem agrees_beginFloat (s : States) : Agrees (Alike σ) (beginFloat s : ParserM D Bool) :=
  agrees_read (fun _ _ => rfl) fun _ => (agrees_pocoAssert _ _).bind fun _ => agrees_beginType _ _

theorem agrees_beginLiteral (t : JSONType) (s : States) :
    Agrees (Alike σ) (beginLiteral t s : ParserM D Bool) :=
  agrees_read (fun _ _ => rfl) fun _ => (agrees_pocoAssert _ _).bind fun _ => agrees_beginType _ _

theorem agrees_endComment : Agrees (Alike σ) (endComment : ParserM D Bool) := by
  refine .bind ?_ fun _ => agrees_read (fun _ _ => rfl) fun _ => (agrees_pocoAssert _ _).bind
    fun _ => agrees_read (fun _ _ => rfl) fun _ => (agrees_pocoAssert _ _).bind fun _ =>
      agrees_read (fun _ _ => rfl) fun _ => (agrees_setState _).bind fun _ => agrees_pure true
  exact agrees_update (fun _ _ => rfl) fun _ => rfl

theorem agrees_flip (old new : Modes) : Agrees (Alike σ) (flip old new : ParserM D Bool) :=
  (agrees_pop old).bind fun _ => .ite (agrees_pure false) (agrees_push new)

theorem agrees_colon : Agrees (Alike σ) (colon : ParserM D Bool) :=
  agrees_parseBufferPopBackChar.bind fun _ => (agrees_flip _ _).bind fun _ =>
    .ite (agrees_pure false) (agrees_read (fun _ _ => rfl) fun _ =>
      (agrees_pocoAssert _ _).bind fun _ => (agrees_setState _).bind fun _ => agrees_pure true)

theorem agrees_beginContainer (c : Callback D) (mode : Modes) (s : States) :
    Agrees (Alike σ) (beginContainer c mode s) :=
  agrees_parseBufferPopBackChar.bind fun _ => (agrees_emit c).bind fun _ =>
    (agrees_push mode).bind fun _ => .ite (agrees_pure false) (agrees_read (fun _ _ => rfl)
      fun _ => (agrees_pocoAssert _ _).bind fun _ => (agrees_setState s).bind fun _ =>
        agrees_pure true)

variable [StrToDouble D]

theorem agrees_parseBuffer : Agrees (Alike σ) (parseBuffer : ParserM D Unit) := by
  refine agrees_read (fun _ _ => rfl) fun p => ?_
  split
  · cases (bufferValue p.type p.buffer : Except Exception (Option (Callback D))) with
    | error e => exact (agrees_throw e).bind fun _ => agrees_clearBuffer
    | ok c =>
      cases c with
      | none => exact agrees_clearBuffer
      | some c => exact (agrees_emit c).bind fun _ => agrees_clearBuffer
  · exact (agrees_pure ()).bind fun _ => agrees_clearBuffer

theorem agrees_beginComment : Agrees (Alike σ) (beginComment : ParserM D Bool) := by
  refine agrees_read (fun _ _ => rfl) fun p => .ite (agrees_pure false) ?_
  refine agrees_parseBufferPopBackChar.bind fun _ => agrees_parseBuffer.bind fun _ => ?_
  refine agrees_read (fun _ _ => rfl) fun _ => (agrees_pocoAssert _ _).bind fun _ => ?_
  refine agrees_read (fun _ _ => rfl) fun _ => (agrees_pocoAssert _ _).bind fun _ => ?_
  refine agrees_top.bind fun m => .bind ?_ fun _ => (agrees_setType _).bind fun _ =>
    (agrees_setState _).bind fun _ => .bind ?_ fun _ => agrees_pure true
  · exact agrees_update (fun _ _ => rfl) fun _ => rfl
  · exact agrees_update (fun _ _ => rfl) fun _ => rfl

theorem agrees_endContainer (c : Callback D) (mode : Modes) :
    Agrees (Alike σ) (endContainer c mode) :=
  agrees_parseBufferPopBackChar.bind fun _ => agrees_parseBuffer.bind fun _ =>
    (agrees_emit c).bind fun _ => (agrees_pop mode).bind fun _ =>
      .ite (agrees_pure false) (agrees_beginType _ _)

theorem agrees_endString : Agrees (Alike σ) (endString : ParserM D Bool) := by
  refine agrees_parseBufferPopBackChar.bind fun _ => agrees_top.bind fun m => ?_
  have hval : Agrees (Alike σ) (do
      pocoAssert .typeString ((← get).type = JSON_T_STRING)
      parseBuffer
      beginType JSON_T_NONE .OK : ParserM D Bool) :=
    agrees_read (fun _ _ => rfl) fun _ => (agrees_pocoAssert _ _).bind fun _ =>
      agrees_parseBuffer.bind fun _ => agrees_beginType _ _
  cases m with
  | MODE_KEY =>
    refine agrees_read (fun _ _ => rfl) fun _ => (agrees_pocoAssert _ _).bind fun _ => ?_
    exact (agrees_setType _).bind fun _ => (agrees_setState _).bind fun _ =>
      agrees_read (fun _ _ => rfl) fun _ => (agrees_emit _).bind fun _ =>
        agrees_clearBuffer.bind fun _ => agrees_pure true
  | MODE_ARRAY | MODE_OBJECT => exact hval
  | MODE_DONE | MODE_UNSET => exact agrees_pure false

theorem agrees_comma : Agrees (Alike σ) (comma : ParserM D Bool) := by
  refine agrees_parseBufferPopBackChar.bind fun _ => agrees_parseBuffer.bind fun _ =>
    agrees_top.bind fun m => ?_
  have hnext : ∀ s, Agrees (Alike σ) (do
      pocoAssert .typeNotString ((← get).type ≠ JSON_T_STRING)
      beginType JSON_T_NONE s : ParserM D Bool) := fun s =>
    agrees_read (fun _ _ => rfl) fun _ => (agrees_pocoAssert _ _).bind fun _ => agrees_beginType _ _
  cases m with
  | MODE_OBJECT => exact (agrees_flip _ _).bind fun _ => .ite (agrees_pure false) (hnext .KE)
  | MODE_ARRAY => exact hnext .VA
  | MODE_KEY | MODE_DONE | MODE_UNSET => exact agrees_pure false

theorem agrees_perform (a : Actions) : Agrees (Alike σ) (perform a : ParserM D Bool) := by
  cases a with
  | UC =>
    exact agrees_decodeUnicodeChar.bind fun _ => .ite (agrees_pure false)
      (agrees_read (fun _ _ => rfl) fun _ => (agrees_setState _).bind fun _ => agrees_pure true)
  | EX =>
    refine .bind ?_ fun _ => (agrees_setState _).bind fun _ => agrees_pure true
    exact agrees_update (fun _ _ => rfl) fun _ => rfl
  | MX | ZX | IX => exact agrees_beginType _ _
  | DE | DF => exact agrees_beginFloat _
  | SB => exact agrees_clearBuffer.bind fun _ => agrees_beginLiteral _ _
  | NU | FA | TR => exact agrees_beginLiteral _ _
  | CE => exact agrees_endComment
  | CB => exact agrees_beginComment
  | m9 =>
    exact agrees_clearBuffer.bind fun _ => (agrees_emit _).bind fun _ => (agrees_pop _).bind
      fun _ => .ite (agrees_pure false) ((agrees_setState _).bind fun _ => agrees_pure true)
  | m8 | m7 => exact agrees_endContainer _ _
  | m6 | m5 => exact agrees_beginContainer _ _ _
  | m4 => exact agrees_endString
  | m3 => exact agrees_comma
  | m2 => exact agrees_colon
  | xx => exact agrees_pure false

theorem agrees_parseAscii (c : UInt8) : Agrees (Alike σ) (parseAscii c : ParserM D Bool) := by
  unfold parseAscii
  cases asciiClass c with
  | none => exact agrees_pure false
  | some k =>
    refine (agrees_addCharToParseBuffer c k).bind fun _ => agrees_read (fun _ _ => rfl) fun p => ?_
    cases transition p.state k with
    | next s => exact (agrees_setState s).bind fun _ => agrees_pure true
    | act a => exact agrees_perform a

theorem agrees_parseChar (c : UInt8) (source : Bytes) :
    Agrees (Alike σ) (parseChar c source : ParserM D (Bool × Bytes)) := by
  refine agrees_read (fun _ _ => rfl) fun p => .ite (agrees_pure _) (.ite ?_ ?_)
  · cases readSequence c source with
    | error e => exact agrees_throw e
    | ok r =>
      refine .bind ?_ fun _ => agrees_pure _
      exact agrees_update (fun _ _ => rfl) fun _ => rfl
  · exact (agrees_parseAscii c).bind fun _ => agrees_pure _

theorem agrees_parseLoop (n : ℕ) (source : Bytes) :
    Agrees (Alike σ) (parseLoop n source : ParserM D Unit) := by
  induction n generalizing source with
  | zero => exact agrees_pure ()
  | succ n ih =>
    cases source with
    | nil => exact agrees_pure ()
    | cons c source =>
      exact (agrees_parseChar c source).bind fun _ => .ite (ih _) (agrees_throw _)

theorem agrees_parse (json : Bytes) :
    Agrees (Alike σ) (parse json : ParserM D (Option (Var D))) :=
  (agrees_parseLoop _ _).bind fun _ => agrees_done.bind fun _ =>
    .ite (agrees_throw _) (agrees_read (fun _ _ => rfl) fun _ => agrees_pure _)

end Methods

/-! ### After some inputs -/

def outcome {α : Type} (m : ParserM D α) (p : Parser D) : Except Exception α :=
  match m p with
  | .ok a _ => .ok a
  | .error e _ => .error e

def stateOf {α : Type} : EStateM.Result Exception (Parser D) α → Parser D
  | .ok _ q => q
  | .error _ q => q

variable {σ : Settings} {p q : Parser D}

theorem Alike.outcome_eq (h : Alike σ p q) (hm : Agrees (Alike σ) m) :
    outcome m p = outcome m q := by
  unfold outcome
  have hres := hm h
  generalize m p = x at hres
  generalize m q = y at hres
  cases hres with
  | ok | error => rfl

theorem Alike.stateOf (h : Alike σ p q) (hm : Agrees (Alike σ) m) :
    Alike σ (stateOf (m p)) (stateOf (m q)) := by
  have hres := hm h
  generalize m p = x at hres
  generalize m q = y at hres
  cases hres with
  | ok h' | error h' => exact h'

theorem alike_fresh (σ : Settings) : Alike σ (fresh σ : Parser D) (fresh σ) :=
  have hsize : 0 < (fresh σ : Parser D).stackSize := Nat.succ_pos 127
  ⟨rfl, rfl, fun _ => rfl, fun _ => ⟨hsize, hsize⟩, ⟨hsize, hsize⟩, fun _ => ⟨rfl, rfl⟩⟩

section Reset

variable [StrToDouble D]

/-- A parser with the settings `σ` that has been given some inputs.  Each may have been
accepted, rejected, or have ended anywhere. -/
def afterParsing (σ : Settings) (prevs : List Bytes) : Parser D :=
  prevs.foldl (fun p s => stateOf (parse s p)) (fresh σ)

theorem alike_afterParsing (σ : Settings) (prevs : List Bytes) :
    Alike σ (afterParsing σ prevs : Parser D) (afterParsing σ prevs) := by
  have key : ∀ {p : Parser D}, Alike σ p p → Alike σ
      (prevs.foldl (fun p s => stateOf (parse s p)) p)
      (prevs.foldl (fun p s => stateOf (parse s p)) p) := by
    induction prevs with
    | nil => exact fun h => h
    | cons s prevs ih => exact fun h => ih (h.stateOf (agrees_parse s))
  exact key (alike_fresh σ)

end Reset

/-- A parser after `reset`.  With the depth 0 the mode `MODE_DONE` is not pushed. -/
def renewed (p : Parser D) : Parser D :=
  { p with
    log := if (ParseHandler.fresh.run p.log).isSome then [] else p.log
    state := .GO
    beforeCommentState := .GO
    type := JSON_T_NONE
    escaped := false
    utf16HighSurrogate := 0
    stack := [if p.depth = 0 then MODE_UNSET else MODE_DONE]
    buffer := [] }

theorem push_of_empty (hs : p.stack = []) (h : 0 < p.stackSize) (mode : Modes) :
    push mode p = .ok (decide (p.depth ≠ 0))
      { p with stack := [if p.depth = 0 then MODE_UNSET else mode] } := by
  have hgro : grown p = p.stackSize := by
    rw [grown, hs, if_neg]
    rintro ⟨-, hle⟩
    rw [length_nil] at hle
    omega
  rw [push_eq, hgro, hs]
  by_cases hd : p.depth = 0
  · rw [if_pos (by simp [hd])]
    simp [hd]
  · rw [if_neg (by simp only [length_nil]; omega),
      if_pos (show ([] : List Modes).length < p.stackSize from h)]
    simp [hd]

theorem reset_eq (h : 0 < p.stackSize) : reset p = .ok () (renewed p) := by
  unfold reset
  rw [bind_apply, modify_apply]
  dsimp only
  rw [bind_apply, push_of_empty (by rfl) (by exact h)]
  show EStateM.Result.ok () (if (ParseHandler.fresh.run p.log).isSome = true then _ else _) = _
  unfold renewed
  split
  · rfl
  · rfl

/-! ### A depth of 0 or 1

No container can be opened, so nothing is accepted; and neither the log nor the one mode on
the stack plays a part in how the parser fails. -/

/-- The states of a parser that has read white space and comments. -/
def isIdle : States → Bool
  | .GO | .C1 | .C2 | .C3 => true
  | _ => false

/-- An idle parser stays idle, begins or ends a comment, or is stopped. -/
theorem idle_next (hs : isIdle s = true) (h : transition s k = .next s') : isIdle s' = true := by
  revert hs
  revert s k s'
  apply forall_next
  decide

theorem idle_act (hs : isIdle s = true) (h : transition s k = .act a) :
    a = .xx ∨ a = .m6 ∨ a = .m5 ∨ (a = .CB ∧ s = .GO) ∨ a = .CE := by
  revert hs
  revert s k a
  apply forall_act
  decide

structure Idle (p q : Parser D) : Prop where
  eq : q = { p with log := q.log, stack := q.stack }
  state : isIdle p.state = true
  before : p.beforeCommentState = .GO
  type : p.type = JSON_T_NONE
  escaped : p.escaped = false
  depth : p.depth = 0 ∨ p.depth = 1
  stack : p.stack = [.MODE_DONE] ∨ p.stack = [.MODE_UNSET]
  stack' : q.stack = [.MODE_DONE] ∨ q.stack = [.MODE_UNSET]

/-- Results after which both parsers go on idle, or both stop in the same way. -/
inductive IdleStep : EStateM.Result Exception (Parser D) Bool →
    EStateM.Result Exception (Parser D) Bool → Prop where
  | goes {p q : Parser D} (h : Idle p q) : IdleStep (.ok true p) (.ok true q)
  | stops {p q : Parser D} : IdleStep (.ok false p) (.ok false q)
  | throws {e : Exception} {p q : Parser D} : IdleStep (.error e p) (.error e q)

section Idle

variable [StrToDouble D]

section

omit [StrToDouble D]

theorem push_idle (hd : p.depth = 0 ∨ p.depth = 1) (hs : p.stack.length = 1) (mode : Modes) :
    push mode p = .ok false { p with stack := MODE_UNSET :: p.stack } := by
  rw [push_eq, if_pos]
  omega

theorem Idle.length (h : Idle p q) : p.stack.length = 1 ∧ q.stack.length = 1 := by
  refine ⟨?_, ?_⟩
  · rcases h.stack with hs | hs <;> rw [hs] <;> rfl
  · rcases h.stack' with hs | hs <;> rw [hs] <;> rfl

theorem Idle.beginContainer (h : Idle p q) (c : Callback D) (mode : Modes) (s : States) :
    IdleStep (beginContainer c mode s p) (beginContainer c mode s q) := by
  obtain ⟨l, ms, rfl⟩ : ∃ l ms, q = { p with log := l, stack := ms } := ⟨_, _, h.eq⟩
  rw [beginContainer_eq, beginContainer_eq]
  split
  · exact .throws
  · rw [pushed, pushed, push_idle (by exact h.depth) (by exact h.length.1),
      push_idle (by exact h.depth) (by exact h.length.2)]
    exact .stops

end

theorem Idle.beginComment (h : Idle p q) (hst : p.state = .GO) :
    IdleStep (beginComment p) (beginComment q) := by
  obtain ⟨l, ms, rfl⟩ : ∃ l ms, q = { p with log := l, stack := ms } := ⟨_, _, h.eq⟩
  -- no value is pending, and no string, which `split` uses below
  have hdel : ∀ (l : List (Callback D)) (ms : List Modes) (b : Bytes),
      delivered { p with log := l, stack := ms, buffer := b } = .ok [] := by
    intro l ms b
    rw [delivered]
    rw [h.type]
    split
    · rfl
    · rfl
  have hstr : p.type ≠ JSON_T_STRING := by
    rw [h.type]
    simp
  have haft : ∀ {ms : List Modes}, ms = [.MODE_DONE] ∨ ms = [.MODE_UNSET] →
      ∃ m, ms = [m] ∧ stateAfterComment m p.state = .GO := by
    rintro ms (rfl | rfl)
    · exact ⟨_, rfl, hst⟩
    · exact ⟨_, rfl, hst⟩
  obtain ⟨m, hm, hm'⟩ := haft h.stack
  obtain ⟨n, hn, hn'⟩ := haft h.stack'
  rw [beginComment_eq, beginComment_eq]
  split
  · exact .stops
  rw [flushed, flushed]
  split
  · exact .throws
  rw [show delivered { p with buffer := p.buffer.dropLast } = .ok [] from hdel _ _ _,
    show delivered { p with log := l, stack := ms, buffer := p.buffer.dropLast } = .ok [] from
      hdel _ _ _]
  subst hn
  rw [hm]
  dsimp only
  rw [hm', hn']
  exact .goes ⟨rfl, rfl, rfl, rfl, h.escaped, h.depth, hm ▸ h.stack, h.stack'⟩

omit [StrToDouble D] in
theorem Idle.endComment (h : Idle p q) : IdleStep (endComment p) (endComment q) := by
  obtain ⟨l, ms, rfl⟩ : ∃ l ms, q = { p with log := l, stack := ms } := ⟨_, _, h.eq⟩
  rw [endComment_eq, endComment_eq]
  split
  · exact .throws
  · rw [if_neg (not_not.mpr h.type), if_neg (not_not.mpr h.type), h.before]
    exact .goes ⟨rfl, rfl, rfl, h.type, h.escaped, h.depth, h.stack, h.stack'⟩

theorem Idle.parseAscii (h : Idle p q) (c : UInt8) :
    IdleStep (parseAscii c p) (parseAscii c q) := by
  obtain ⟨l, ms, rfl⟩ : ∃ l ms, q = { p with log := l, stack := ms } := ⟨_, _, h.eq⟩
  cases hk : asciiClass c with
  | none =>
    rw [parseAscii_none hk, parseAscii_none hk]
    exact .stops
  | some k =>
    have hesc : ∀ q : Parser D, q.escaped = false → q.escaped = true → q.buffer ≠ [] := by
      intro q hq hq'
      rw [hq] at hq'
      cases hq'
    have hfed : ∀ q : Parser D, q.escaped = false →
        fed q c k = { q with buffer := q.buffer ++ appended q c k } := by
      intro q hq
      rw [fed, hq, if_neg Bool.false_ne_true]
    rw [parseAscii_eq hk p (hesc _ h.escaped),
      parseAscii_eq hk { p with log := l, stack := ms } (hesc _ h.escaped),
      hfed _ h.escaped, hfed { p with log := l, stack := ms } h.escaped]
    have hidle : Idle { p with buffer := p.buffer ++ appended p c k }
        { p with log := l, stack := ms, buffer := p.buffer ++ appended p c k } :=
      ⟨rfl, h.state, h.before, h.type, h.escaped, h.depth, h.stack, h.stack'⟩
    cases ht : transition p.state k with
    | next s =>
      exact .goes ⟨rfl, idle_next h.state ht, h.before, h.type, h.escaped, h.depth, h.stack,
        h.stack'⟩
    | act a =>
      rcases idle_act h.state ht with rfl | rfl | rfl | ⟨rfl, hgo⟩ | rfl
      · exact .stops
      · exact hidle.beginContainer _ _ _
      · exact hidle.beginContainer _ _ _
      · exact hidle.beginComment hgo
      · exact hidle.endComment

theorem Idle.run (s : Bytes) : ∀ {p q : Parser D}, Idle p q →
    (∃ e p' q', run s p = .error e p' ∧ run s q = .error e q') ∨
      ∃ p' q', run s p = .ok () p' ∧ run s q = .ok () q' ∧ Idle p' q' := by
  induction hn : s.length using Nat.strong_induction_on generalizing s with
  | _ n ih =>
    intro p q h
    cases s with
    | nil => exact .inr ⟨p, q, rfl, rfl, h⟩
    | cons c s =>
      rcases UInt8.lt_or_le c 0x80 with hc | hc
      · rw [run_ascii hc, run_ascii hc]
        have hstep := h.parseAscii c
        generalize Parser.parseAscii c p = x at hstep
        generalize Parser.parseAscii c q = y at hstep
        cases hstep with
        | goes h' => exact ih s.length (by rw [← hn]; simp) s rfl h'
        | stops | throws => exact .inl ⟨_, _, _, rfl, rfl⟩
      · obtain ⟨l, ms, rfl⟩ : ∃ l ms, q = { p with log := l, stack := ms } := ⟨_, _, h.eq⟩
        rw [run_cons, run_cons, parseChar_raw hc, parseChar_raw hc]
        cases hr : readSequence c s with
        | error e => exact .inl ⟨_, _, _, rfl, rfl⟩
        | ok r =>
          obtain ⟨bs, r⟩ := r
          have hlen : r.length < n := by
            rw [← hn]
            exact step_length (p := p) (q := { p with buffer := p.buffer ++ bs })
              ⟨c, s, rfl, by rw [parseChar_raw hc, hr]⟩
          exact ih r.length hlen r rfl
            ⟨rfl, h.state, h.before, h.type, h.escaped, h.depth, h.stack, h.stack'⟩

theorem Idle.outcome_eq (h : Idle p q) (s : Bytes) :
    outcome (parse s) p = outcome (parse s) q := by
  have hnot : ∀ q : Parser D, isIdle q.state = true →
      ¬ (q.state = .OK ∧ q.stack.head? = some .MODE_DONE) := by
    rintro q hq ⟨hok, -⟩
    rw [hok] at hq
    cases hq
  unfold outcome
  rw [parse_eq, parse_eq]
  rcases h.run s with ⟨e, p', q', hp, hq⟩ | ⟨p', q', hp, hq, h'⟩
  · rw [hp, hq]
  · have hst : q'.state = p'.state := by rw [h'.eq]
    rw [hp, hq]
    dsimp only
    rw [if_neg (hnot p' h'.state), if_neg (hnot q' (hst ▸ h'.state))]

end Idle

/-! ### When a parser is as good as new -/

section AsNew

variable [StrToDouble D]

theorem Performed.log_grows (h : Performed a p q) : p.log <+: q.log := by
  cases h with
  | CB | m9 | m6 | m5 | key | string | member | element => exact prefix_append _ _
  | m8 | m7 =>
    rw [append_assoc]
    exact prefix_append _ _
  | _ => exact prefix_refl _

theorem Reaches.log (h : Reaches (p, s) (q, r)) : p.log <+: q.log := by
  have hfed : ∀ (q : Parser D) (c : UInt8) (k : Classes), (fed q c k).log = q.log := by
    intro q c k
    unfold fed
    split
    · rfl
    · rfl
  refine Reaches.invariant (I := fun q _ => p.log <+: q.log) ?_ h (prefix_refl _)
  intro q q' s r hq hs
  rcases step_iff.mp hs with ⟨c, -, -, hc⟩ | ⟨bs, -, -, rfl⟩
  · obtain ⟨k, -, -, ⟨s, -, rfl⟩ | ⟨a, -, -, hP⟩⟩ := parseAscii_eq_true hc
    · rw [show ({ fed q c k with state := s } : Parser D).log = q.log from hfed q c k]
      exact hq
    · rw [← hfed q c k] at hq
      exact hq.trans hP.log_grows
  · exact hq

theorem outcome_reset (h : 0 < p.stackSize) (s : Bytes) :
    outcome (reset >>= fun _ => parse s) p = outcome (parse s) (renewed p) := by
  unfold outcome
  rw [bind_apply, reset_eq h]

omit [StrToDouble D] in
theorem fresh_eq (h : Alike σ p p) (hc : p.comment = false) :
    (fresh σ : Parser D) = { renewed p with
      log := [], stack := [.MODE_DONE], stackSize := JSON_PARSER_STACK_SIZE } := by
  obtain rfl := h.settings
  unfold fresh renewed
  rw [hc]
  rfl

/-- The first bracket, in a parser that is left in a comment: it is not put into the buffer,
and cannot be taken out of it. -/
theorem outcome_bracket_comment (hs : p.state = .GO) (he : p.escaped = false) (hb : p.buffer = [])
    (hc : p.comment = true) :
    outcome (parse [0x5B]) p = .error (.AssertionViolationException .popBackChar) := by
  have hfed : (fed p 0x5B .C_LSQRB).buffer = [] := by
    rw [fed, he, if_neg Bool.false_ne_true]
    rw [hb, appended, if_neg (by simp [hc])]
    rfl
  have hrun : run [0x5B] p = .error (.AssertionViolationException .popBackChar)
      (fed p 0x5B .C_LSQRB) := by
    rw [run_ascii (by decide), parseAscii_eq (k := .C_LSQRB) rfl p (by simp [he]), hs,
      show transition .GO .C_LSQRB = .act .m5 from rfl]
    dsimp only
    rw [perform, beginContainer_eq, if_pos hfed]
  unfold outcome
  rw [parse_eq, hrun]

theorem outcome_bracket_fresh (σ : Settings) : outcome (parse [0x5B]) (fresh σ : Parser D)
    ≠ .error (.AssertionViolationException .popBackChar) := by
  have hfed : fed (fresh σ : Parser D) 0x5B .C_LSQRB = { fresh σ with buffer := [0x5B] } := rfl
  unfold outcome
  rw [parse_eq, run_ascii (by decide), parseAscii_eq (k := .C_LSQRB) rfl _ (by rintro ⟨⟩), hfed,
    show transition (fresh σ : Parser D).state .C_LSQRB = .act .m5 from rfl]
  dsimp only
  rw [perform, beginContainer_eq, if_neg (by exact cons_ne_nil _ _), pushed, push_eq]
  -- the push is refused, succeeds, or violates another assertion
  by_cases hd : 0 ≤ σ.depth ∧ σ.depth ≤ ([.MODE_DONE] : List Modes).length
  · rw [if_pos (by exact hd)]
    simp
  rw [if_neg (by exact hd)]
  generalize hn : grown _ = n
  by_cases hl : ([.MODE_DONE] : List Modes).length < n
  · rw [if_pos (by exact hl)]
    rintro ⟨⟩
  · rw [if_neg (by exact hl)]
    rintro ⟨⟩

theorem outcome_array_fresh (hh : σ.handler = true) (hd : ¬ (σ.depth = 0 ∨ σ.depth = 1)) :
    outcome (parse [0x5B, 0x5D]) (fresh σ : Parser D) = .ok (some (.array [])) := by
  have hpush : CanPush (fed (fresh σ : Parser D) 0x5B .C_LSQRB) [.MODE_DONE]
      JSON_PARSER_STACK_SIZE := by
    refine ⟨?_, ?_, by decide⟩
    · rintro ⟨h0, h1⟩
      have h0 : 0 ≤ σ.depth := h0
      have h1 : σ.depth ≤ 1 := h1
      omega
    · rw [grown, if_neg]
      · rfl
      · rintro ⟨-, hle⟩
        have hle : JSON_PARSER_STACK_SIZE ≤ 1 := hle
        exact absurd hle (by decide)
  have hcall : ∀ (p : Parser D), p.pHandler = true → ∀ l, callbacks p l = l := by
    intro p hp l
    rw [callbacks, if_pos hp]
  let opened : Parser D := { (fresh σ : Parser D) with
    log := [.startArray], stack := [.MODE_ARRAY, .MODE_DONE], state := .AR }
  let closed : Parser D := { (fresh σ : Parser D) with
    log := [.startArray, .endArray], state := .OK }
  have hopen : Step ((fresh σ : Parser D), [0x5B, 0x5D]) (opened, [0x5D]) := by
    refine step_act (k := .C_LSQRB) rfl (fun h => absurd h Bool.false_ne_true) rfl ?_ [0x5D]
    have hP := Performed.m5 (p := fed (fresh σ : Parser D) 0x5B .C_LSQRB)
      (cons_ne_nil _ _) hpush rfl
    rw [hcall _ hh] at hP
    exact hP
  have hcls : Step (opened, [0x5D]) (closed, []) := by
    refine step_act (k := .C_RSQRB) rfl (fun h => absurd h Bool.false_ne_true) rfl ?_ []
    have hl : delivered { fed opened 0x5D .C_RSQRB with
        buffer := (fed opened 0x5D .C_RSQRB).buffer.dropLast } = .ok [] := by
      rw [delivered]
      split
      · rfl
      · rfl
    have hP := Performed.m7 (p := fed opened 0x5D .C_RSQRB) (cons_ne_nil _ _) hl rfl
    rw [hcall _ hh] at hP
    exact hP
  have hrun : run [0x5B, 0x5D] (fresh σ : Parser D) = .ok () closed :=
    run_eq_ok_iff.mpr ((Relation.ReflTransGen.single hopen).tail hcls)
  unfold outcome
  rw [parse_eq, hrun]
  rfl

/-- A handler that was driven into undefined behaviour gives no value any more. -/
theorem outcome_ne_some (hp : ParseHandler.fresh.run p.log = none) (s : Bytes) (v : Var D) :
    outcome (parse s) p ≠ .ok (some v) := by
  unfold outcome
  rw [parse_eq]
  cases hrun : run s p with
  | error e q => simp
  | ok u q =>
    obtain ⟨l, hl⟩ := (run_eq_ok_iff.mp hrun).log
    have hnone : asVar q = none := by
      rw [asVar, ← hl, ParseHandler.run_append_eq_none hp]
      rfl
    dsimp only
    by_cases hdone : q.state = .OK ∧ q.stack.head? = some .MODE_DONE
    · rw [if_pos hdone, hnone]
      simp
    · rw [if_neg hdone]
      simp

omit [StrToDouble D] in
theorem idle_renewed (h : Alike σ p p) (hc : p.comment = false) (hd : σ.depth = 0 ∨ σ.depth = 1) :
    Idle (renewed p) (fresh σ) := by
  have hsize : p.stackSize = JSON_PARSER_STACK_SIZE := (h.limited (by omega)).1
  refine ⟨?_, rfl, rfl, rfl, rfl, h.depth ▸ hd, ?_, .inl rfl⟩
  · rw [fresh_eq h hc, ← hsize]
    rfl
  · by_cases h0 : p.depth = 0
    · exact .inr (congrArg (fun m => [m]) (if_pos h0))
    · exact .inl (congrArg (fun m => [m]) (if_neg h0))

omit [StrToDouble D] in
/-- With any other depth they differ in the size of the stack at most. -/
theorem alike_renewed (h : Alike σ p p) (hc : p.comment = false) (hd : σ.depth ≠ 0)
    (hlog : (ParseHandler.fresh.run p.log).isSome = true) : Alike σ (renewed p) (fresh σ) := by
  have hstk : (renewed p).stack = [.MODE_DONE] := by
    show [if p.depth = 0 then MODE_UNSET else MODE_DONE] = _
    rw [h.depth, if_neg hd]
  have hnil : (renewed p).log = [] := if_pos hlog
  have hpos : 0 < JSON_PARSER_STACK_SIZE := by decide
  refine ⟨?_, h.settings, fun _ => hnil, fun _ => ?_, ⟨h.size_pos.1, hpos⟩, fun h0 => ?_⟩
  · rw [fresh_eq h hc, ← hstk, ← hnil]
  · exact ⟨h.size_pos.1, hpos⟩
  · exact ⟨(h.limited h0).1, rfl⟩

/-- **When a parser that has been reset is as good as new.**  After any inputs, `reset` and
then `parse` give the value or the exception that `parse` gives on a new parser, for every
input, if and only if no comment was open and the handler was not driven into undefined
behaviour.  With a depth of 0 or 1 the handler plays no part. -/
theorem reset_as_new_iff (σ : Settings) (prevs : List Bytes) :
    (∀ s : Bytes, outcome (reset >>= fun _ => parse s) (afterParsing σ prevs : Parser D)
      = outcome (parse s) (fresh σ)) ↔
    (afterParsing σ prevs : Parser D).comment = false ∧ (σ.depth = 0 ∨ σ.depth = 1 ∨
      (ParseHandler.fresh.run (afterParsing σ prevs : Parser D).log).isSome = true) := by
  have h := alike_afterParsing (D := D) σ prevs
  generalize (afterParsing σ prevs : Parser D) = p at h ⊢
  constructor
  · intro hall
    have hnew : ∀ s, outcome (parse s) (renewed p) = outcome (parse s) (fresh σ) := by
      intro s
      rw [← outcome_reset h.size_pos.1, hall s]
    refine ⟨?_, ?_⟩
    · -- an open comment shows on the first bracket
      cases hc : p.comment with
      | false => rfl
      | true =>
        have hbra := outcome_bracket_comment (p := renewed p) rfl rfl rfl hc
        rw [hnew] at hbra
        exact absurd hbra (outcome_bracket_fresh σ)
    · -- and a handler without a meaning on the empty array
      by_contra hn
      obtain ⟨h0, h1, hlog⟩ : ¬ σ.depth = 0 ∧ ¬ σ.depth = 1 ∧
          ParseHandler.fresh.run p.log = none := by
        simpa using hn
      have hh : σ.handler = true := by
        cases hσ : σ.handler with
        | true => rfl
        | false =>
          rw [h.log hσ] at hlog
          cases hlog
      have hren : ParseHandler.fresh.run (renewed p).log = none := by
        show ParseHandler.fresh.run (if (ParseHandler.fresh.run p.log).isSome then [] else p.log)
          = none
        rw [hlog]
        exact hlog
      refine outcome_ne_some hren [0x5B, 0x5D] (.array []) ?_
      rw [hnew]
      exact outcome_array_fresh hh (not_or.mpr ⟨h0, h1⟩)
  · rintro ⟨hc, hcase⟩ s
    rw [outcome_reset h.size_pos.1]
    by_cases hd : σ.depth = 0 ∨ σ.depth = 1
    · exact (idle_renewed h hc hd).outcome_eq s
    · have hlog := (hcase.resolve_left fun h0 => hd (.inl h0)).resolve_left fun h1 => hd (.inr h1)
      exact (alike_renewed h hc (fun h0 => hd (.inl h0)) hlog).outcome_eq (agrees_parse s)

/-- The input `[/*` leaves a comment open; after a reset, `[]` is then no array but a violated
assertion. -/
theorem reset_not_as_new :
    outcome (reset >>= fun _ => parse [0x5B, 0x5D])
        (afterParsing { allowComments := true } [[0x5B, 0x2F, 0x2A]] : Parser Bytes)
      = .error (.AssertionViolationException .popBackChar) ∧
    outcome (parse [0x5B, 0x5D]) (fresh { allowComments := true } : Parser Bytes)
      = .ok (some (.array [])) := by
  constructor
  · rfl
  · rfl

end AsNew

end Poco.JSON.Parser
