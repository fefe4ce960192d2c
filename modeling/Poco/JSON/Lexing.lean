import Poco.JSON.Integers
import Poco.JSON.Invariant
import Poco.JSON.Token

/-!
# From tokens to characters

The parser reads the bytes of a token with its table, its buffer and its flags, and makes
the step of the token machine.  A number or a literal stays in the buffer, together with
the white space after it, until the next structural character.

## Main definitions

* `Live`: the invariant, and the settings that texts are read with: a handler is set, the depth is
  unlimited and the null byte is allowed.
* `Feeds`: the input `l` takes the parser `p` to `q`, whatever comes after it.
* `Rests`: the parser is in a configuration of the token machine, after the lexeme `prev`; a scalar
  that is still in the buffer counts as delivered.

## Main results

* `Rests.ws`, `Rests.token`: white space changes nothing, and a token takes the parser where it
  takes the token machine.
* `Rests.reads`: so do the lexemes of a text, if the gaps between them change nothing.
* `parse_of_rests`: a text whose lexemes end the run of the token machine is accepted, and its
  value is built from the callbacks of the machine.
-/

namespace Poco.JSON

open List Grammar Modes JSONType

/-! ### The value of a scalar does not depend on the white space after it -/

theorem isspace_of_isWs : ∀ c : UInt8, isWs c = true → isspace c = true := by decide

theorem isDecDigit_of_isDigit19 : ∀ c : UInt8, isDigit19 c = true → isDecDigit c = true := by decide

theorem IsInt.digits (h : IsInt i) : Digits i ∧ i ≠ [] := by
  rcases h with rfl | ⟨d, ds, hd, hds, rfl⟩
  · exact ⟨by simp [Digits, isDecDigit], by simp⟩
  · refine ⟨?_, by simp⟩
    intro c hc
    rcases mem_cons.mp hc with rfl | hc
    · exact isDecDigit_of_isDigit19 _ hd
    · exact hds c hc

variable {l : Bytes}

theorem IsInteger.eq_append (h : IsInteger l) :
    ∃ (neg : Bool) (ds : Bytes), ds ≠ [] ∧ Digits ds ∧
      l = (if neg then [0x2D] else []) ++ ds := by
  obtain ⟨m, i, hm, hi, rfl⟩ := h
  obtain ⟨hds, hne⟩ := IsInt.digits hi
  rcases hm with rfl | rfl
  · exact ⟨false, i, hne, hds, rfl⟩
  · exact ⟨true, i, hne, hds, rfl⟩

theorem IsFloat.eq_concat (h : IsFloat l) : ∃ a d, isDecDigit d = true ∧ l = a ++ [d] := by
  -- both the fraction and the exponent end in a non-empty list of digits
  have key : ∀ {ds : Bytes} (b : Bytes), ds ≠ [] → Digits ds →
      ∃ a d, isDecDigit d = true ∧ b ++ ds = a ++ [d] := by
    intro ds b hne hds
    refine ⟨b ++ ds.dropLast, ds.getLast hne, hds _ (getLast_mem hne), ?_⟩
    rw [append_assoc, dropLast_append_getLast]
  rcases h with ⟨i, f, -, ⟨ds, hne, hds, rfl⟩, rfl⟩ |
    ⟨a, x, -, ⟨e, g, ds, -, -, hne, hds, rfl⟩, rfl⟩
  · rw [append_cons]
    exact key _ hne hds
  · rw [← cons_append, ← append_assoc]
    exact key _ hne hds

theorem isInteger_head (h : IsInteger l) : ∃ c r, isspace c = false ∧ l = c :: r := by
  have hdig : ∀ c : UInt8, isDecDigit c = true → isspace c = false := by decide
  obtain ⟨neg, ds, hne, hds, rfl⟩ := IsInteger.eq_append h
  cases neg with
  | true => exact ⟨0x2D, ds, rfl, rfl⟩
  | false =>
    cases ds with
    | nil => exact absurd rfl hne
    | cons d ds => exact ⟨d, ds, hdig d (hds d (by simp)), rfl⟩

theorem isFloat_head (h : IsFloat l) : ∃ c r, isspace c = false ∧ l = c :: r := by
  rcases h with ⟨i, f, hi, -, rfl⟩ | ⟨a, x, ⟨i, f, hi, -, rfl⟩, -, rfl⟩
  · obtain ⟨c, r, hc, rfl⟩ := isInteger_head hi
    exact ⟨c, _, hc, rfl⟩
  · obtain ⟨c, r, hc, rfl⟩ := isInteger_head hi
    exact ⟨c, _, hc, rfl⟩

def States.isEnd : States → Bool
  | .OK | .ZE | .IT | .FR | .E3 => true
  | _ => false

def HasExp (l : Bytes) : Prop := ∃ a x, IsMantissa a ∧ IsExp x ∧ l = a ++ x

/-- A number that has an exponent right after the digit `0`; the parser does not read it. -/
def ZeroExp (l : Bytes) : Prop :=
  ∃ m e r, IsMinus m ∧ isE e = true ∧ l = m ++ 0x30 :: e :: r

namespace Parser

variable {D : Type}

variable {d ds w prev : Bytes} {s s' : States} {c : UInt8} {p q : Parser D} {k : Classes}
  {A B : Config D}

theorem integerValue_append_ws (h : IsInteger l) (hw : Ws w) :
    integerValue (D := D) (l ++ w) = integerValue l := by
  obtain ⟨neg, ds, hne, hds, rfl⟩ := IsInteger.eq_append h
  have hsp : ∀ c ∈ w, isspace c = true := fun c hc => isspace_of_isWs c (hw c hc)
  have h64 := (IntLiteral.tryParse64_text ⟨neg, ds, w, hne, hds, hsp⟩).trans
    (IntLiteral.tryParse64_text ⟨neg, ds, [], hne, hds, (by simp)⟩).symm
  have hu64 := (IntLiteral.tryParseUnsigned64_text ⟨neg, ds, w, hne, hds, hsp⟩).trans
    (IntLiteral.tryParseUnsigned64_text ⟨neg, ds, [], hne, hds, (by simp)⟩).symm
  simp only [IntLiteral.text, append_nil] at h64 hu64
  unfold integerValue
  rw [h64, hu64]

theorem rdropWhile_append {p : UInt8 → Bool} (l : Bytes) (hw : ∀ c ∈ w, p c = true) :
    (l ++ w).rdropWhile p = l.rdropWhile p := by
  unfold rdropWhile
  rw [reverse_append, dropWhile_append_of_pos (by simpa using hw)]

variable [StrToDouble D]

theorem parseFloat_append_ws (h : IsFloat l) (hw : Ws w) :
    parseFloat (D := D) (l ++ w) = parseFloat l := by
  obtain ⟨c, r, hc, rfl⟩ := isFloat_head h
  have hsp : ∀ c ∈ w, isspace c = true := fun c hc => isspace_of_isWs c (hw c hc)
  unfold parseFloat
  simp only [cons_append, dropWhile_cons, hc, reduceCtorEq, if_false]
  rw [← cons_append, rdropWhile_append _ hsp]

/-- The buffer with the lexeme `l` of type `t` is delivered as `c`, whatever white space
has come after the lexeme. -/
def Valued (t : JSONType) (l : Bytes) (c : Callback D) : Prop :=
  ∀ w, Ws w → bufferValue t (l ++ w) = .ok (some c)

theorem valued_integer {c : Callback D} (h : IsInteger l) (hc : integerValue l = .ok c) :
    Valued JSON_T_INTEGER l c := by
  intro w hw
  rw [bufferValue, integerValue_append_ws h hw, hc]
  rfl

theorem valued_float {d : D} (h : IsFloat l) (hd : parseFloat l = some d) :
    Valued JSON_T_FLOAT l (.float d : Callback D) := by
  intro w hw
  have hlast : ∃ c, (l ++ w).getLast? = some c ∧ c ≠ 0x2E := by
    have hne : ∀ c : UInt8, isDecDigit c = true ∨ isWs c = true → c ≠ 0x2E := by decide
    obtain ⟨a, d, hdig, rfl⟩ := IsFloat.eq_concat h
    cases w using List.reverseRecOn with
    | nil => exact ⟨d, by simp, hne d (.inl hdig)⟩
    | append_singleton w c =>
      exact ⟨c, by rw [← append_assoc, getLast?_concat], hne c (.inr (hw c (by simp)))⟩
  obtain ⟨c, hc, hne⟩ := hlast
  unfold bufferValue floatValue
  simp only [hc, hne, parseFloat_append_ws h hw, hd]
  rfl

/-! ### The classes of characters -/

theorem asciiClass_digit : ∀ c : UInt8, isDecDigit c = true →
    asciiClass c = some .C_ZERO ∨ asciiClass c = some .C_DIGIT := by decide

theorem asciiClass_digit19 : ∀ c : UInt8, isDigit19 c = true → asciiClass c = some .C_DIGIT := by
  decide

theorem asciiClass_e : ∀ c : UInt8, isE c = true →
    asciiClass c = some .C_LOW_E ∨ asciiClass c = some .C_E := by decide

theorem asciiClass_ws : ∀ c : UInt8, isWs c = true →
    asciiClass c = some .C_SPACE ∨ asciiClass c = some .C_WHITE := by decide

theorem transition_escape : ∀ c : UInt8, isEscape c = true →
    ∃ k, asciiClass c = some k ∧ transition .EC k = .next .ST := by
  have key : ∀ c : UInt8, isEscape c = true →
      (asciiClass c).map (transition .EC) = some (.next .ST) := by decide
  intro c hc
  simpa using key c hc

theorem transition_hex : ∀ c : UInt8, isHexDigit c = true →
    ∃ k, asciiClass c = some k ∧ transition .U1 k = .next .U2 ∧ transition .U2 k = .next .U3 ∧
      transition .U3 k = .next .U4 ∧ transition .U4 k = .act .UC := by
  have key : ∀ c : UInt8, isHexDigit c = true → (asciiClass c).map (fun k =>
      (transition .U1 k, transition .U2 k, transition .U3 k, transition .U4 k)) =
        some (.next .U2, .next .U3, .next .U4, .act .UC) := by decide
  intro c hc
  simpa using key c hc

/-- The state after characters that perform no action. -/
def walk (s : States) : Bytes → Option States
  | [] => some s
  | c :: w => match asciiClass c with
    | none => none
    | some k => match transition s k with
      | .next s' => walk s' w
      | .act _ => none

theorem walk_cons (h : walk s (c :: w) = some s') :
    ∃ k s₁, asciiClass c = some k ∧ transition s k = .next s₁ ∧ walk s₁ w = some s' := by
  unfold walk at h
  split at h
  · cases h
  · next k hk =>
    split at h
    · next s₁ htr => exact ⟨k, s₁, hk, htr, h⟩
    · cases h

theorem walk_unescaped : ∀ c : UInt8, isUnescaped c = true → walk .ST [c] = some .ST := by decide

theorem walk_digit (hz : transition s .C_ZERO = .next s') (hd : transition s .C_DIGIT = .next s')
    (hc : isDecDigit c = true) (w : Bytes) : walk s (c :: w) = walk s' w := by
  rw [walk]
  rcases asciiClass_digit c hc with hk | hk
  · simp [hk, hz]
  · simp [hk, hd]

theorem walk_digits (hz : transition s .C_ZERO = .next s) (hd : transition s .C_DIGIT = .next s)
    (hds : Digits ds) : walk s ds = some s := by
  induction ds with
  | nil => rfl
  | cons d ds ih =>
    obtain ⟨hdig, hds⟩ := forall_mem_cons.mp hds
    rw [walk_digit hz hd hdig, ih hds]

theorem walk_digits_of_ne_nil (hds : Digits ds) (hne : ds ≠ []) :
    walk .FX ds = some .FR ∧ walk .E1 ds = some .E3 ∧ walk .E2 ds = some .E3 := by
  obtain ⟨d, ds, rfl⟩ := exists_cons_of_ne_nil hne
  obtain ⟨hdig, hds⟩ := forall_mem_cons.mp hds
  rw [walk_digit rfl rfl hdig, walk_digit rfl rfl hdig, walk_digit rfl rfl hdig]
  exact ⟨walk_digits rfl rfl hds, walk_digits rfl rfl hds, walk_digits rfl rfl hds⟩

/-! ### Live parsers -/

structure Live (p : Parser D) : Prop extends Inv p where
  handler : p.pHandler = true
  unlimited : p.depth < 0
  nullByte : p.allowNullByte = true
  size : p.stack.length ≤ p.stackSize

omit [StrToDouble D] in
theorem live_fresh (comments : Bool) : Live (fresh { allowComments := comments } : Parser D) :=
  { inv_fresh _ with
    handler := rfl
    unlimited := by simp [fresh]
    nullByte := rfl
    size := by simp [fresh, JSON_PARSER_STACK_SIZE] }

theorem Live.step {s r : Bytes} (hp : Live p) (h : Step (p, s) (q, r)) :
    Live q := by
  have hset := step_settings h
  simp only [settings, Settings.mk.injEq] at hset
  refine { hp.toInv.step h with
    handler := hset.1.trans hp.handler
    unlimited := hset.2.1 ▸ hp.unlimited
    nullByte := hset.2.2.1.trans hp.nullByte
    size := ?_ }
  rcases step_iff.mp h with ⟨c, -, -, h⟩ | ⟨bs, -, -, rfl⟩
  · obtain ⟨k, -, -, hk⟩ := parseAscii_eq_true h
    obtain ⟨b, hb⟩ := fed_eq p c k
    rw [hb] at hk
    rcases hk with ⟨s, -, rfl⟩ | ⟨a, -, -, hP⟩
    · exact hp.size
    · exact (hP.size hp.size).2
  · exact hp.size

theorem Live.reaches {s r : Bytes} (hp : Live p) (h : Reaches (p, s) (q, r)) :
    Live q :=
  Reaches.invariant (I := fun p _ => Live p) (fun hp hs => hp.step hs) h hp

omit [StrToDouble D] in
theorem Live.canPush (hp : Live p) (hms : ms.length ≤ p.stack.length) :
    CanPush p ms (grown { p with stack := ms }) := by
  have hpos : 0 < p.stackSize := by
    obtain ⟨m, ms, hs⟩ := hp.exists_mode
    have := hp.size
    rw [hs, length_cons] at this
    omega
  exact canPush_unlimited hp.unlimited (hms.trans hp.size) hpos

/-! ### Reading a piece of input -/

def Feeds (p : Parser D) (l : Bytes) (q : Parser D) : Prop := ∀ r, Reaches (p, l ++ r) (q, r)

theorem feeds_nil (p : Parser D) : Feeds p [] p := fun _ => .refl

theorem Feeds.append (h : Feeds p l q) (h' : Feeds q l' q') : Feeds p (l ++ l') q' := by
  intro r
  rw [append_assoc]
  exact Relation.ReflTransGen.trans (h _) (h' r)

theorem Feeds.live (h : Feeds p l q) (hp : Live p) : Live q :=
  hp.reaches (h [])

theorem feeds_of_step (h : ∀ r, Step (p, c :: r) (q, r)) :
    Feeds p [c] q := fun r => Relation.ReflTransGen.single (h r)

omit [StrToDouble D] in
theorem ne_nil_of_not_escaped (h : p.escaped = false) (h' : p.escaped = true) :
    p.buffer ≠ [] := by
  rw [h] at h'
  cases h'

def scalar (p : Parser D) (t : JSONType) (s : States) (b : Bytes) : Parser D :=
  { p with type := t, state := s, buffer := b }

section Scalar

variable (hesc : p.escaped = false) (hcom : p.comment = false)

include hesc hcom

variable {t : JSONType}

section

variable (ht : t ≠ JSON_T_NONE)
include ht

omit [StrToDouble D] in
theorem fed_scalar (s : States) (b : Bytes) (c : UInt8) (k : Classes) :
    fed (scalar p t s b) c k = scalar p t s (b ++ [c]) := by
  have hesc' : (scalar p t s b).escaped = false := hesc
  rw [fed_of_not_escaped hesc']
  simp [appended, scalar, hcom, ht]

theorem feeds_next (b : Bytes) (hk : asciiClass c = some k)
    (htr : transition s k = .next s') : Feeds (scalar p t s b) [c] (scalar p t s' (b ++ [c])) := by
  refine feeds_of_step fun r => ?_
  have h := step_next (p := scalar p t s b) hk (ne_nil_of_not_escaped hesc) htr r
  rwa [fed_scalar hesc hcom ht] at h

theorem feeds_act (b : Bytes) (hk : asciiClass c = some k) (htr : transition s k = .act a)
    (hP : Performed a (scalar p t s (b ++ [c])) (scalar p t' s' (b ++ [c]))) :
    Feeds (scalar p t s b) [c] (scalar p t' s' (b ++ [c])) := by
  refine feeds_of_step fun r =>
    step_act (p := scalar p t s b) hk (ne_nil_of_not_escaped hesc) htr ?_ r
  rwa [fed_scalar hesc hcom ht]

theorem feeds_walk (hw : walk s w = some s') (b : Bytes) :
    Feeds (scalar p t s b) w (scalar p t s' (b ++ w)) := by
  induction w generalizing s b with
  | nil =>
    cases hw
    simpa using feeds_nil _
  | cons c w ih =>
    obtain ⟨k, s₁, hk, htr, hw⟩ := walk_cons hw
    have hstep := feeds_next hesc hcom ht b hk htr
    have hrest := ih hw (b ++ [c])
    rw [← append_cons] at hrest
    exact hstep.append hrest

end

theorem feeds_frac (hs : s = .ZE ∨ s = .IT) (hf : IsFrac f) (b : Bytes) :
    Feeds (scalar p JSON_T_INTEGER s b) f (scalar p JSON_T_FLOAT .FR (b ++ f)) := by
  obtain ⟨ds, hne, hds, rfl⟩ := hf
  have hpoi : Feeds (scalar p JSON_T_INTEGER s b) [0x2E]
      (scalar p JSON_T_FLOAT .FX (b ++ [0x2E])) := by
    refine feeds_act hesc hcom (by decide) b (k := .C_POINT) (by rfl) (a := .DF) ?_ (.DF ?_)
    · rcases hs with rfl | rfl <;> rfl
    · simp [scalar]
  have hdigs := feeds_walk hesc hcom (by decide : JSON_T_FLOAT ≠ JSON_T_NONE)
    (walk_digits_of_ne_nil hds hne).1 (b ++ [0x2E])
  simpa using hpoi.append hdigs

theorem feeds_exp (hs : t = JSON_T_INTEGER ∧ s = .IT ∨ t = JSON_T_FLOAT ∧ s = .FR)
    (hx : IsExp x) (b : Bytes) :
    Feeds (scalar p t s b) x (scalar p JSON_T_FLOAT .E3 (b ++ x)) := by
  obtain ⟨e, g, ds, he, hg, hne, hds, rfl⟩ := hx
  have hlet : Feeds (scalar p t s b) [e] (scalar p JSON_T_FLOAT .E1 (b ++ [e])) := by
    obtain ⟨k, hk, hint, hfrac⟩ : ∃ k, asciiClass e = some k ∧ transition .IT k = .act .DE ∧
        transition .FR k = .next .E1 := by
      rcases asciiClass_e e he with hk | hk
      · exact ⟨_, hk, rfl, rfl⟩
      · exact ⟨_, hk, rfl, rfl⟩
    rcases hs with ⟨rfl, rfl⟩ | ⟨rfl, rfl⟩
    · exact feeds_act hesc hcom (by decide) b hk hint (.DE (by simp [scalar]))
    · exact feeds_next hesc hcom (by decide) b hk hfrac
  -- the sign, if there is one, and the digits
  have hwalk : walk .E1 (g ++ ds) = some .E3 := by
    obtain ⟨-, h1, h2⟩ := walk_digits_of_ne_nil hds hne
    rcases hg with rfl | rfl | rfl
    · exact h1
    · exact h2
    · exact h2
  simpa using hlet.append (feeds_walk hesc hcom (by decide) hwalk (b ++ [e]))

/-! ### The begin of a scalar -/

section Begin

variable (hstate : p.state = .VA ∨ p.state = .AR) (hbuf : p.buffer = [])

include hstate hbuf

theorem feeds_begin (hk : asciiClass c = some k) (hva : transition .VA k = .act a)
    (har : transition .AR k = .act a) (hws : k ≠ .C_SPACE ∧ k ≠ .C_WHITE)
    (hP : Performed a { p with buffer := [c] } (scalar p t s [c])) :
    Feeds p [c] (scalar p t s [c]) := by
  refine feeds_of_step fun r => step_act hk (ne_nil_of_not_escaped hesc) (a := a) ?_ ?_ r
  · rcases hstate with hs | hs
    · rw [hs, hva]
    · rw [hs, har]
  · rw [fed_of_not_escaped hesc]
    simpa [appended, hcom, hws, hbuf] using hP

theorem feeds_minus : Feeds p [0x2D] (scalar p JSON_T_INTEGER .MI [0x2D]) :=
  feeds_begin hesc hcom hstate hbuf (k := .C_MINUS) (by rfl) (by rfl) (by rfl) (by decide) .MX

theorem feeds_zero {m : Bytes} (hm : IsMinus m) :
    Feeds p (m ++ [0x30]) (scalar p JSON_T_INTEGER .ZE (m ++ [0x30])) := by
  rcases hm with rfl | rfl
  · exact feeds_begin hesc hcom hstate hbuf (by rfl) (by rfl) (by rfl)
      (by decide) .ZX
  · exact (feeds_minus hesc hcom hstate hbuf).append
      (feeds_next hesc hcom (by decide) _ (by rfl) (by rfl))

theorem feeds_integer (h : IsInteger l) :
    ∃ s, Feeds p l (scalar p JSON_T_INTEGER s l) ∧
      (s = .ZE ∧ (∃ m, IsMinus m ∧ l = m ++ [0x30]) ∨ s = .IT) := by
  obtain ⟨m, i, hm, rfl | ⟨d, ds, hd, hds, rfl⟩, rfl⟩ := h
  · exact ⟨.ZE, feeds_zero hesc hcom hstate hbuf hm, .inl ⟨rfl, m, hm, rfl⟩⟩
  refine ⟨.IT, ?_, .inr rfl⟩
  have hk := asciiClass_digit19 d hd
  have hfst : Feeds p (m ++ [d]) (scalar p JSON_T_INTEGER .IT (m ++ [d])) := by
    rcases hm with rfl | rfl
    · exact feeds_begin hesc hcom hstate hbuf hk (by rfl) (by rfl) (by decide) .IX
    · exact (feeds_minus hesc hcom hstate hbuf).append
        (feeds_next hesc hcom (by decide) _ hk (by rfl))
  have hrest := feeds_walk hesc hcom (by decide : JSON_T_INTEGER ≠ JSON_T_NONE)
    (walk_digits (s := .IT) rfl rfl hds) (m ++ [d])
  rw [append_cons]
  exact hfst.append hrest

theorem feeds_mantissa {a : Bytes} (h : IsMantissa a) :
    ∃ t s, Feeds p a (scalar p t s a) ∧
      (t = JSON_T_INTEGER ∧ s = .ZE ∧ (∃ m, IsMinus m ∧ a = m ++ [0x30]) ∨
        (t = JSON_T_INTEGER ∧ s = .IT ∨ t = JSON_T_FLOAT ∧ s = .FR)) := by
  obtain ⟨i, f, hi, hf, rfl⟩ := h
  obtain ⟨s, hfeed, hs⟩ := feeds_integer hesc hcom hstate hbuf hi
  rcases hf with rfl | hf
  · rw [append_nil]
    refine ⟨_, s, hfeed, ?_⟩
    rcases hs with ⟨rfl, hm⟩ | rfl
    · exact .inl ⟨rfl, rfl, hm⟩
    · exact .inr (.inl ⟨rfl, rfl⟩)
  · have hs' : s = .ZE ∨ s = .IT := hs.imp (fun h => h.1) id
    exact ⟨_, _, hfeed.append (feeds_frac hesc hcom hs' hf i), .inr (.inr ⟨rfl, rfl⟩)⟩

theorem feeds_float (h : IsFloat l) (hz : ¬ ZeroExp l) :
    ∃ s, Feeds p l (scalar p JSON_T_FLOAT s l) ∧ (s = .FR ∨ s = .E3 ∧ HasExp l) := by
  rcases h with ⟨i, f, hi, hf, rfl⟩ | ⟨a, x, ha, hx, rfl⟩
  · obtain ⟨s, hfeed, hs⟩ := feeds_integer hesc hcom hstate hbuf hi
    have hs' : s = .ZE ∨ s = .IT := hs.imp (fun h => h.1) id
    exact ⟨_, hfeed.append (feeds_frac hesc hcom hs' hf i), .inl rfl⟩
  · obtain ⟨t, s, hfeed, ⟨-, -, m, hm, rfl⟩ | hs⟩ := feeds_mantissa hesc hcom hstate hbuf ha
    · obtain ⟨e, g, ds, he, -, -, -, rfl⟩ := hx
      exact absurd ⟨m, e, g ++ ds, hm, he, by simp⟩ hz
    · exact ⟨_, hfeed.append (feeds_exp hesc hcom hs hx a), .inr ⟨rfl, a, x, ha, hx, rfl⟩⟩

theorem feeds_literal (htype : p.type = JSON_T_NONE) :
    Feeds p [0x66, 0x61, 0x6C, 0x73, 0x65]
        (scalar p JSON_T_FALSE .OK [0x66, 0x61, 0x6C, 0x73, 0x65]) ∧
      Feeds p [0x6E, 0x75, 0x6C, 0x6C] (scalar p JSON_T_NULL .OK [0x6E, 0x75, 0x6C, 0x6C]) ∧
      Feeds p [0x74, 0x72, 0x75, 0x65] (scalar p JSON_T_TRUE .OK [0x74, 0x72, 0x75, 0x65]) := by
  have hf : Feeds p [0x66] (scalar p JSON_T_FALSE .F1 [0x66]) :=
    feeds_begin hesc hcom hstate hbuf (k := .C_LOW_F) rfl rfl rfl (by decide) (.FA htype)
  have hn : Feeds p [0x6E] (scalar p JSON_T_NULL .N1 [0x6E]) :=
    feeds_begin hesc hcom hstate hbuf (k := .C_LOW_N) rfl rfl rfl (by decide) (.NU htype)
  have ht : Feeds p [0x74] (scalar p JSON_T_TRUE .T1 [0x74]) :=
    feeds_begin hesc hcom hstate hbuf (k := .C_LOW_T) rfl rfl rfl (by decide) (.TR htype)
  exact ⟨hf.append (feeds_walk hesc hcom (by decide) (w := [0x61, 0x6C, 0x73, 0x65]) rfl [0x66]),
    hn.append (feeds_walk hesc hcom (by decide) (w := [0x75, 0x6C, 0x6C]) rfl [0x6E]),
    ht.append (feeds_walk hesc hcom (by decide) (w := [0x72, 0x75, 0x65]) rfl [0x74])⟩

end Begin

/-! ### Strings -/

section String

theorem feeds_unescaped (hc : isUnescaped c = true) (b : Bytes) :
    Feeds (scalar p JSON_T_STRING .ST b) [c] (scalar p JSON_T_STRING .ST (b ++ [c])) :=
  feeds_walk hesc hcom (by decide) (walk_unescaped c hc) b

omit hesc hcom in
theorem feeds_sequence {bs : Bytes} (hbs : Utf8.isSeq bs = true) (t : JSONType) (s : States)
    (b : Bytes) : Feeds (scalar p t s b) bs (scalar p t s (b ++ bs)) := fun _ =>
  Relation.ReflTransGen.single (step_iff.mpr (.inr ⟨bs, legal_of_isSeq hbs, rfl, rfl⟩))

theorem feeds_backslash (hk : asciiClass c = some k) (htr : transition .EC k = .next s)
    (b : Bytes) :
    Feeds (scalar p JSON_T_STRING .ST b) [0x5C, c]
      (scalar p JSON_T_STRING s (b ++ escapeBytes c)) := by
  have h1 : Feeds (scalar p JSON_T_STRING .ST b) [0x5C]
      { scalar p JSON_T_STRING .EC (b ++ [0x5C]) with escaped := true } := by
    refine feeds_of_step fun r => step_act (p := scalar p JSON_T_STRING .ST b) (k := .C_BACKS)
      rfl (ne_nil_of_not_escaped hesc) (a := .EX) rfl ?_ r
    rw [fed_scalar hesc hcom (by decide)]
    exact .EX
  have hcons : [0x5C, c] = [0x5C] ++ [c] := rfl
  rw [hcons]
  refine h1.append (feeds_of_step fun r => ?_)
  have h2 := step_next
    (p := { scalar p JSON_T_STRING .EC (b ++ [0x5C]) with escaped := true }) hk (by simp [scalar])
    htr r
  have hfed : ({ fed { scalar p JSON_T_STRING .EC (b ++ [0x5C]) with escaped := true } c k with
      state := s } : Parser D) = scalar p JSON_T_STRING s (b ++ escapeBytes c) := by
    simp [fed, scalar, hesc]
  rwa [hfed] at h2

theorem feeds_escape (hc : isEscape c = true) (b : Bytes) :
    Feeds (scalar p JSON_T_STRING .ST b) [0x5C, c]
      (scalar p JSON_T_STRING .ST (b ++ escapeBytes c)) := by
  obtain ⟨k, hk, htr⟩ := transition_escape c hc
  exact feeds_backslash hesc hcom hk htr b

theorem feeds_hex (hnull : p.allowNullByte = true) (hds : IsHex4 ds)
    (h : decoded p.utf16HighSurrogate (hexValue ds) = some (bs, hi)) (b : Bytes) :
    Feeds (scalar p JSON_T_STRING .U1 (b ++ [0x5C, 0x75])) ds
      (scalar { p with utf16HighSurrogate := hi } JSON_T_STRING (if hi ≠ 0 then .D1 else .ST)
        (b ++ bs)) := by
  obtain ⟨hlen, hall⟩ := hds
  obtain ⟨d₁, d₂, d₃, d₄, rfl⟩ : ∃ d₁ d₂ d₃ d₄, ds = [d₁, d₂, d₃, d₄] := by
    match ds, hlen with
    | [d₁, d₂, d₃, d₄], _ => exact ⟨d₁, d₂, d₃, d₄, rfl⟩
  simp only [mem_cons, not_mem_nil, or_false, forall_eq_or_imp, forall_eq] at hall
  obtain ⟨h₁, h₂, h₃, h₄⟩ := hall
  have hwalk : walk .U1 [d₁, d₂, d₃] = some .U4 := by
    obtain ⟨k₁, hk₁, ht₁⟩ := transition_hex d₁ h₁
    obtain ⟨k₂, hk₂, ht₂⟩ := transition_hex d₂ h₂
    obtain ⟨k₃, hk₃, ht₃⟩ := transition_hex d₃ h₃
    simp [walk, hk₁, hk₂, hk₃, ht₁.1, ht₂.2.1, ht₃.2.2.1]
  have hfst := feeds_walk hesc hcom (by decide : JSON_T_STRING ≠ JSON_T_NONE) hwalk
    (b ++ [0x5C, 0x75])
  have hcons : [d₁, d₂, d₃, d₄] = [d₁, d₂, d₃] ++ [d₄] := rfl
  rw [hcons]
  refine hfst.append (feeds_of_step fun r => ?_)
  obtain ⟨k, hk, htr⟩ := transition_hex d₄ h₄
  refine step_act (p := scalar p JSON_T_STRING .U4 (b ++ [0x5C, 0x75] ++ [d₁, d₂, d₃])) hk
    (ne_nil_of_not_escaped hesc) htr.2.2.2 ?_ r
  rw [fed_scalar hesc hcom (by decide)]
  -- the escape is the last six bytes of the buffer
  have hbuf : b ++ [0x5C, 0x75] ++ [d₁, d₂, d₃] ++ [d₄] = b ++ [0x5C, 0x75, d₁, d₂, d₃, d₄] := by
    simp
  rw [hbuf]
  have hdrop : (b ++ [0x5C, 0x75, d₁, d₂, d₃, d₄]).drop
      ((b ++ [0x5C, 0x75, d₁, d₂, d₃, d₄]).length - 4) = [d₁, d₂, d₃, d₄] := by
    rw [append_cons, append_cons]
    exact drop_left' (by simp)
  have htake : (b ++ [0x5C, 0x75, d₁, d₂, d₃, d₄]).take
      ((b ++ [0x5C, 0x75, d₁, d₂, d₃, d₄]).length - 6) = b := take_left' (by simp)
  have hlt : ∀ c : UInt8, isHexDigit c = true → hexDigit c < 16 := by decide
  have hP := @Performed.UC D _ (scalar p JSON_T_STRING .U4 (b ++ [0x5C, 0x75, d₁, d₂, d₃, d₄]))
    bs hi (by simp [scalar]) (by simp [scalar, hlt, h₁, h₂, h₃, h₄])
    (fun hn => absurd (hnull.symm.trans hn) nofun)
    (by simpa [scalar, hdrop] using h)
  simpa [scalar, htake] using hP

theorem feeds_decodes (hnull : p.allowNullByte = true) (hsur : p.utf16HighSurrogate = 0)
    {t : Bytes} (h : Decodes t d) :
    Feeds (scalar p JSON_T_STRING .ST []) t (scalar p JSON_T_STRING .ST d) := by
  have hzero : ({ p with utf16HighSurrogate := 0 } : Parser D) = p := by rw [← hsur]
  have hu : ∀ b, Feeds (scalar p JSON_T_STRING .ST b) [0x5C, 0x75]
      (scalar p JSON_T_STRING .U1 (b ++ [0x5C, 0x75])) :=
    fun b => feeds_backslash hesc hcom (k := .C_LOW_U) rfl rfl b
  induction h with
  | nil => exact feeds_nil _
  | unescaped _ hc ih => exact ih.append (feeds_unescaped hesc hcom hc _)
  | sequence _ hbs ih => exact ih.append (feeds_sequence hbs _ _ _)
  | escape _ hc ih => exact ih.append (feeds_escape hesc hcom hc _)
  | @unit t d ds bs _ hds h ih =>
    have hhex := feeds_hex hesc hcom hnull hds (by rw [hsur]; exact h) d
    rw [hzero] at hhex
    exact ih.append ((hu d).append hhex)
  | @pair t d ds es bs hi _ hds hhi h1 hes h2 ih =>
    have hhex := feeds_hex hesc hcom hnull hds (by rw [hsur]; exact h1) d
    rw [if_pos hhi, append_nil] at hhex
    -- the second escape is read without a change of `_escaped`
    have hwalk := feeds_walk (p := { p with utf16HighSurrogate := hi }) hesc hcom
      (by decide : JSON_T_STRING ≠ JSON_T_NONE) (s := .D1) (w := [0x5C, 0x75]) rfl d
    have hhex' := feeds_hex (p := { p with utf16HighSurrogate := hi }) hesc hcom hnull hes h2 d
    rw [hzero] at hhex'
    have hall := (ih.append ((hu d).append hhex)).append (hwalk.append hhex')
    simpa using hall

end String

end Scalar

/-! ### Between two tokens -/

inductive Rests (prev : Bytes) (p : Parser D) (A : Config D) : Prop where
  | plain (hs : p.state.isResting) (ht : p.type = JSON_T_NONE) (hb : p.buffer = [])
      (hA : A = ⟨p.state, p.stack, p.log⟩)
  | pending {c : Callback D} {w : Bytes} (hs : p.state.isEnd)
      (hexp : p.state = .E3 → HasExp prev) (ht : p.type ≠ JSON_T_NONE ∧ p.type ≠ JSON_T_STRING)
      (hc : Valued p.type prev c) (hw : Ws w) (hb : p.buffer = prev ++ w)
      (hA : A = ⟨.OK, p.stack, p.log ++ [c]⟩)

theorem rests_fresh (comments : Bool) :
    Rests [] (fresh { allowComments := comments } : Parser D) .start :=
  .plain rfl rfl rfl rfl

theorem flags_of_rest : ∀ s : States, s.isResting ∨ s.isEnd →
    s ≠ .EC ∧ s.isComment = false ∧ s.isUnicode = false := by decide

theorem Rests.flags (h : Rests prev p A) (hp : Live p) :
    p.escaped = false ∧ p.comment = false ∧ p.utf16HighSurrogate = 0 := by
  have hs : p.state.isResting ∨ p.state.isEnd := by
    cases h with
    | plain hs => exact .inl hs
    | pending hs => exact .inr hs
  obtain ⟨h1, h2, h3⟩ := flags_of_rest _ hs
  exact hp.flags h1 h2 h3

theorem feeds_action (hesc : p.escaped = false) (hcom : p.comment = false)
    (hk : asciiClass c = some k) (hws : k ≠ .C_SPACE ∧ k ≠ .C_WHITE)
    (htr : transition p.state k = .act a)
    (hP : Performed a { p with buffer := p.buffer ++ [c] } q) : Feeds p [c] q := by
  refine feeds_of_step fun r => step_act hk (ne_nil_of_not_escaped hesc) htr ?_ r
  rw [fed_of_not_escaped hesc]
  simpa [appended, hcom, hws] using hP

theorem transition_ws : ∀ k : Classes, k = .C_SPACE ∨ k = .C_WHITE → ∀ s : States,
    (s.isResting → transition s k = .next s) ∧ (s.isEnd → transition s k = .next .OK) := by
  rintro k (rfl | rfl)
  · decide
  · decide

/-- A character of white space changes nothing, except that the state after a number is
left. -/
theorem Rests.space (hp : Live p) (h : Rests prev p A)
    (hc : isWs c = true) : ∃ q, Feeds p [c] q ∧ Rests prev q A ∧ q.state ≠ .E3 := by
  obtain ⟨k, hk, hkws⟩ : ∃ k, asciiClass c = some k ∧ (k = .C_SPACE ∨ k = .C_WHITE) := by
    rcases asciiClass_ws c hc with hk | hk
    · exact ⟨_, hk, .inl rfl⟩
    · exact ⟨_, hk, .inr rfl⟩
  obtain ⟨hesc, hcom, -⟩ := h.flags hp
  cases h with
  | plain hs ht hb hA =>
    refine ⟨p, feeds_of_step fun r => ?_, .plain hs ht hb hA, ?_⟩
    · have hstep := step_next hk (ne_nil_of_not_escaped hesc) ((transition_ws k hkws _).1 hs) r
      have happ : appended p c k = [] := by simp [appended, ht, hkws]
      rw [fed_of_not_escaped hesc, happ, append_nil] at hstep
      exact hstep
    · intro hE3
      rw [hE3] at hs
      cases hs
  | @pending e v hs hexp ht hv hw hb hA =>
    refine ⟨{ p with buffer := p.buffer ++ [c], state := .OK }, feeds_of_step fun r => ?_,
      .pending (w := v ++ [c]) rfl (by simp) ht hv ?_ (by simp [hb]) hA, (by simp)⟩
    · have hstep := step_next hk (ne_nil_of_not_escaped hesc) ((transition_ws k hkws _).2 hs) r
      rw [fed_of_not_escaped hesc] at hstep
      simpa [appended, ht.1, hcom] using hstep
    · refine hw.append fun x hx => ?_
      rw [mem_singleton.mp hx]
      exact hc

theorem Rests.ws (hw : Ws w) :
    ∀ {p : Parser D}, Live p → Rests prev p A → ∃ q, Feeds p w q ∧ Rests prev q A := by
  induction w with
  | nil =>
    intro p _ h
    exact ⟨p, feeds_nil p, h⟩
  | cons c w ih =>
    intro p hp h
    obtain ⟨q, hfeed, hq, -⟩ := h.space hp (hw c (by simp))
    obtain ⟨q', hfeed', hq'⟩ := ih (fun x hx => hw x (by simp [hx])) (hfeed.live hp) hq
    exact ⟨q', hfeed.append hfeed', hq'⟩

/-! ### Tokens -/

theorem Rests.flush (h : Rests prev p ⟨.OK, ms, cs⟩) (hp : Live p) :
    p.state.isEnd ∧ p.stack = ms ∧ p.type ≠ JSON_T_STRING ∧
      ∃ es, delivered p = .ok es ∧ cs = p.log ++ es := by
  unfold delivered
  rw [if_pos hp.handler]
  cases h with
  | plain hs ht hb hA =>
    rw [Config.mk.injEq] at hA
    obtain ⟨hOK, rfl, rfl⟩ := hA
    exact ⟨by rw [← hOK]; rfl, rfl, by simp [ht], [], by rw [ht]; rfl, by simp⟩
  | pending hs _ ht hc hw hb hA =>
    cases hA
    exact ⟨hs, rfl, ht.2, _, by rw [hb, hc _ hw]; rfl, rfl⟩

theorem Rests.plain_of_ne (h : Rests prev p A)
    (hA : A.place ≠ .OK) :
    p.type = JSON_T_NONE ∧ p.buffer = [] ∧
      A.place = p.state ∧ A.stack = p.stack ∧ A.log = p.log := by
  cases h with
  | plain _ ht hb hA => exact ⟨ht, hb, hA ▸ ⟨rfl, rfl, rfl⟩⟩
  | pending _ _ _ _ _ _ h => exact absurd (congrArg Config.place h) hA

theorem transition_structural : ∀ s : States,
    (s = .GO ∨ s = .VA ∨ s = .AR →
      transition s .C_LCURB = .act .m6 ∧ transition s .C_LSQRB = .act .m5) ∧
    (s = .OB ∨ s = .KE ∨ s = .VA ∨ s = .AR → transition s .C_QUOTE = .act .SB) ∧
    (s.isEnd → transition s .C_RCURB = .act .m8 ∧ transition s .C_RSQRB = .act .m7 ∧
      transition s .C_COMMA = .act .m3) := by decide

section

variable (hp : Live p)
include hp

theorem Rests.opening (h : Rests prev p ⟨s, ms, cs⟩)
    (hs : s = .GO ∨ s = .VA ∨ s = .AR) :
    (∃ q, Feeds p [0x7B] q ∧ Rests [0x7B] q ⟨.OB, MODE_KEY :: ms, cs ++ [.startObject]⟩) ∧
      ∃ q, Feeds p [0x5B] q ∧ Rests [0x5B] q ⟨.AR, MODE_ARRAY :: ms, cs ++ [.startArray]⟩ := by
  obtain ⟨hesc, hcom, -⟩ := h.flags hp
  obtain ⟨ht, hb, hA⟩ := h.plain_of_ne (by rcases hs with rfl | rfl | rfl <;> nofun)
  obtain ⟨rfl, rfl, rfl⟩ := hA
  obtain ⟨h6, h5⟩ := (transition_structural _).1 hs
  have hpush := hp.canPush (le_refl p.stack.length)
  constructor
  · refine ⟨_, feeds_action hesc hcom rfl (by decide) h6
      (.m6 (by simp) hpush ht), .plain rfl ht (by simp [hb]) ?_⟩
    simp [callbacks, hp.handler]
  · refine ⟨_, feeds_action hesc hcom rfl (by decide) h5
      (.m5 (by simp) hpush ht), .plain rfl ht (by simp [hb]) ?_⟩
    simp [callbacks, hp.handler]

theorem Rests.endEmpty (h : Rests prev p ⟨.OB, MODE_KEY :: ms, cs⟩) :
    ∃ q, Feeds p [0x7D] q ∧ Rests [0x7D] q ⟨.OK, ms, cs ++ [.endObject]⟩ := by
  obtain ⟨hesc, hcom, -⟩ := h.flags hp
  obtain ⟨ht, hb, hs, hms, rfl⟩ := h.plain_of_ne nofun
  refine ⟨_, feeds_action hesc hcom rfl (by decide) (by rw [← hs]; rfl)
    (.m9 hms.symm), .plain rfl ht rfl ?_⟩
  simp [callbacks, hp.handler]

theorem Rests.endEmptyArray (h : Rests prev p ⟨.AR, MODE_ARRAY :: ms, cs⟩) :
    ∃ q, Feeds p [0x5D] q ∧ Rests [0x5D] q ⟨.OK, ms, cs ++ [.endArray]⟩ := by
  obtain ⟨hesc, hcom, -⟩ := h.flags hp
  obtain ⟨ht, hb, hs, hms, rfl⟩ := h.plain_of_ne nofun
  have hdel : delivered { p with buffer := (p.buffer ++ [0x5D]).dropLast } = .ok [] := by
    simp [delivered, ht, bufferValue, Except.map]
  refine ⟨_, feeds_action hesc hcom rfl (by decide) (by rw [← hs]; rfl)
    (.m7 (by simp) hdel hms.symm), .plain rfl rfl rfl ?_⟩
  simp [callbacks, hp.handler]

theorem Rests.afterValue (h : Rests prev p ⟨.OK, m :: ms, cs⟩) :
    (m = MODE_OBJECT → ∃ q, Feeds p [0x7D] q ∧ Rests [0x7D] q ⟨.OK, ms, cs ++ [.endObject]⟩) ∧
    (m = MODE_ARRAY → ∃ q, Feeds p [0x5D] q ∧ Rests [0x5D] q ⟨.OK, ms, cs ++ [.endArray]⟩) ∧
    (m = MODE_OBJECT → ∃ q, Feeds p [0x2C] q ∧ Rests [0x2C] q ⟨.KE, MODE_KEY :: ms, cs⟩) ∧
    (m = MODE_ARRAY → ∃ q, Feeds p [0x2C] q ∧ Rests [0x2C] q ⟨.VA, MODE_ARRAY :: ms, cs⟩) := by
  obtain ⟨hesc, hcom, -⟩ := h.flags hp
  obtain ⟨hs, hms, hstr, es, hes, rfl⟩ := h.flush hp
  obtain ⟨h8, h7, h3⟩ := (transition_structural _).2.2 hs
  have hdel : ∀ c : UInt8, delivered { p with buffer := (p.buffer ++ [c]).dropLast } = .ok es := by
    intro c
    simpa using hes
  refine ⟨?_, ?_, ?_, ?_⟩
  · rintro rfl
    refine ⟨_, feeds_action hesc hcom rfl (by decide) h8
      (.m8 (by simp) (hdel _) hms), .plain rfl rfl rfl ?_⟩
    simp [callbacks, hp.handler]
  · rintro rfl
    refine ⟨_, feeds_action hesc hcom (k := .C_RSQRB) rfl (by decide) h7
      (.m7 (by simp) (hdel _) hms), .plain rfl rfl rfl ?_⟩
    simp [callbacks, hp.handler]
  · rintro rfl
    have hpush : CanPush p ms _ := hp.canPush (by rw [hms]; simp)
    exact ⟨_, feeds_action hesc hcom (k := .C_COMMA) rfl (by decide) h3
      (.member (by simp) (hdel _) hms hpush hstr), .plain rfl rfl rfl rfl⟩
  · rintro rfl
    exact ⟨_, feeds_action hesc hcom (k := .C_COMMA) rfl (by decide) h3
      (.element (by simp) (hdel _) hms hstr), .plain rfl rfl rfl (by rw [← hms])⟩

theorem Rests.colon (h : Rests prev p ⟨.CO, MODE_KEY :: ms, cs⟩) :
    ∃ q, Feeds p [0x3A] q ∧ Rests [0x3A] q ⟨.VA, MODE_OBJECT :: ms, cs⟩ := by
  obtain ⟨hesc, hcom, -⟩ := h.flags hp
  obtain ⟨ht, hb, hs, hms, rfl⟩ := h.plain_of_ne nofun
  have hpush : CanPush p ms _ := hp.canPush (by rw [← hms]; simp)
  exact ⟨_, feeds_action hesc hcom (k := .C_COLON) rfl (by decide) (by rw [← hs]; rfl)
    (.m2 (by simp) hms.symm hpush ht), .plain rfl ht (by simp [hb]) rfl⟩

theorem Rests.quoted (h : Rests prev p A)
    (hs : A.place = .OB ∨ A.place = .KE ∨ A.place = .VA ∨ A.place = .AR) (hd : Decodes t d) :
    Feeds p (0x22 :: t) (scalar p JSON_T_STRING .ST d) ∧
      A.place = p.state ∧ A.stack = p.stack ∧ A.log = p.log := by
  obtain ⟨hesc, hcom, hsur⟩ := h.flags hp
  obtain ⟨ht, hb, hA⟩ := h.plain_of_ne (by rcases hs with hs | hs | hs | hs <;> simp [hs])
  rw [hA.1] at hs
  have hqt : Feeds p [0x22] (scalar p JSON_T_STRING .ST []) :=
    feeds_action hesc hcom (k := .C_QUOTE) rfl (by decide) ((transition_structural _).2.1 hs)
      (.SB ht)
  exact ⟨hqt.append (feeds_decodes hesc hcom hp.nullByte hsur hd), hA⟩

theorem Rests.key (h : Rests prev p ⟨s, MODE_KEY :: ms, cs⟩)
    (hs : s = .OB ∨ s = .KE) (hd : Decodes t d) : ∃ q, Feeds p (0x22 :: (t ++ [0x22])) q ∧
      Rests (0x22 :: (t ++ [0x22])) q ⟨.CO, MODE_KEY :: ms, cs ++ [.key d]⟩ := by
  obtain ⟨hesc, hcom, -⟩ := h.flags hp
  obtain ⟨hfeed, rfl, hms, rfl⟩ := h.quoted hp (hs.imp id .inl) hd
  have hend := feeds_action (p := scalar p JSON_T_STRING .ST d) hesc hcom (c := 0x22)
    (k := .C_QUOTE) rfl (by decide) rfl (.key (by simp) rfl hms.symm)
  refine ⟨_, hfeed.append hend, .plain rfl rfl rfl ?_⟩
  simp [scalar, callbacks, hp.handler, ← hms]

theorem Rests.string (h : Rests prev p ⟨s, m :: ms, cs⟩)
    (hs : s = .VA ∨ s = .AR) (hm : m = MODE_ARRAY ∨ m = MODE_OBJECT) (hd : Decodes t d) :
    ∃ q, Feeds p (0x22 :: (t ++ [0x22])) q ∧
      Rests (0x22 :: (t ++ [0x22])) q ⟨.OK, m :: ms, cs ++ [.string d]⟩ := by
  obtain ⟨hesc, hcom, -⟩ := h.flags hp
  obtain ⟨hfeed, rfl, hms, rfl⟩ := h.quoted hp (.inr (.inr hs)) hd
  have hend := feeds_action (p := scalar p JSON_T_STRING .ST d) hesc hcom (c := 0x22)
    (k := .C_QUOTE) rfl (by decide) rfl (.string (by simp) rfl hms.symm hm)
  refine ⟨_, hfeed.append hend, .plain rfl rfl rfl ?_⟩
  simp [scalar, callbacks, hp.handler, ← hms]

theorem Rests.scalar (h : Rests prev p ⟨s, m :: ms, cs⟩)
    (hs : s = .VA ∨ s = .AR) {c : Callback D} (hc : Spelled (.scalar c) t)
    (hz : ¬ ZeroExp t) : ∃ q, Feeds p t q ∧ Rests t q ⟨.OK, m :: ms, cs ++ [c]⟩ := by
  obtain ⟨hesc, hcom, -⟩ := h.flags hp
  obtain ⟨ht, hb, rfl, hms, rfl⟩ := h.plain_of_ne (by rcases hs with rfl | rfl <;> nofun)
  obtain ⟨hfal, hnull, htrue⟩ := feeds_literal hesc hcom hs hb ht
  rw [show m :: ms = p.stack from hms]
  cases hc with
  | false | null | true =>
    refine ⟨_, by assumption, ?_⟩
    exact .pending rfl nofun ⟨nofun, nofun⟩ (fun _ _ => rfl) ws_nil rfl rfl
  | integer hi hv =>
    obtain ⟨s, hfeed, hs⟩ := feeds_integer hesc hcom hs hb hi
    refine ⟨_, hfeed, .pending ?_ ?_ ⟨nofun, nofun⟩ (valued_integer hi hv) ws_nil
      (append_nil t).symm rfl⟩
    · rcases hs with ⟨rfl, -⟩ | rfl <;> rfl
    · rcases hs with ⟨rfl, -⟩ | rfl <;> nofun
  | float hf hv =>
    obtain ⟨s, hfeed, hs⟩ := feeds_float hesc hcom hs hb hf hz
    refine ⟨_, hfeed, .pending ?_ ?_ ⟨nofun, nofun⟩ (valued_float hf hv) ws_nil
      (append_nil t).symm rfl⟩
    · rcases hs with rfl | ⟨rfl, -⟩ <;> rfl
    · rcases hs with rfl | ⟨rfl, hx⟩
      · nofun
      · exact fun _ => hx

theorem Rests.token {t : Token D} (h : Rests prev p A) (hl : Spelled t l)
    (ht : TokenStep A t B) (hz : ¬ ZeroExp l) : ∃ q, Feeds p l q ∧ Rests l q B := by
  cases ht with
  | beginObject hs => cases hl; exact (h.opening hp hs).1
  | beginArray hs => cases hl; exact (h.opening hp hs).2
  | endEmpty => cases hl; exact h.endEmpty hp
  | endObject => cases hl; exact (h.afterValue hp).1 rfl
  | endArray hs =>
    cases hl
    rcases hs with rfl | rfl
    · exact h.endEmptyArray hp
    · exact (h.afterValue hp).2.1 rfl
  | nameSeparator => cases hl; exact h.colon hp
  | member => cases hl; exact (h.afterValue hp).2.2.1 rfl
  | element => cases hl; exact (h.afterValue hp).2.2.2 rfl
  | key hs =>
    cases hl with
    | string hd => exact h.key hp hs hd
  | string hs hm =>
    cases hl with
    | string hd => exact h.string hp hs hm hd
  | scalar hs hm => exact h.scalar hp hs hl hz

end

/-- A parser that is about to read an exponent after the integer `0`. -/
def AtZeroExp (p : Parser D) (s : Bytes) : Prop :=
  p.state = .ZE ∧ ∃ e r, isE e = true ∧ s = e :: r

theorem atZeroExp_of_token (hp : Live p) (h : Rests prev p A) (hl : Spelled t l)
    (ht : TokenStep A t B) (hz : ZeroExp l) (r : Bytes) :
    ∃ q r', Reaches (p, l ++ r) (q, r') ∧ AtZeroExp q r' := by
  obtain ⟨m, e, x, hm, he, rfl⟩ := hz
  obtain ⟨c, rfl⟩ : ∃ c, t = .scalar c := by
    -- no other token begins with a digit or a minus sign
    generalize hy : m ++ 0x30 :: e :: x = y at hl
    cases hl with
    | false | null | true | integer | float => exact ⟨_, rfl⟩
    | _ => rcases hm with rfl | rfl <;> cases hy
  cases ht with
  | scalar hs hmode =>
    obtain ⟨hesc, hcom, -⟩ := h.flags hp
    obtain ⟨-, hb, hA⟩ := h.plain_of_ne (by rcases hs with rfl | rfl <;> nofun)
    have hfeed := feeds_zero hesc hcom (hA.1 ▸ hs) hb hm (e :: x ++ r)
    exact ⟨Parser.scalar p JSON_T_INTEGER .ZE (m ++ [0x30]), e :: x ++ r, by simpa using hfeed,
      rfl, e, x ++ r, he, rfl⟩

theorem Feeds.allowComments (h : Feeds p l q) : q.allowComments = p.allowComments :=
  congrArg Settings.allowComments (h []).settings

section Reads

variable {G : Bytes → Bytes → Prop} {comments : Bool}
  (hG : ∀ {prev w : Bytes} {p : Parser D} {A : Config D}, G prev w → Live p →
    p.allowComments = comments → Rests prev p A → ∃ q, Feeds p w q ∧ Rests prev q A)

include hG

theorem Rests.reads {ls : List Bytes} (hr : Reads A ls B) :
    ∀ {prev s : Bytes} {p : Parser D}, Live p → p.allowComments = comments →
      Rests prev p A → Spaced G prev ls s → (∀ l ∈ ls, ¬ ZeroExp l) →
      ∃ prev' q, Feeds p s q ∧ Rests prev' q B := by
  induction hr with
  | nil =>
    intro prev s p hp hac h hs _
    cases hs with
    | nil hw =>
      obtain ⟨q, hq⟩ := hG hw hp hac h
      exact ⟨prev, q, hq⟩
  | cons hl ht _ ih =>
    intro prev s p hp hac h hs hz
    cases hs with
    | cons hw hs =>
      obtain ⟨q₁, hf₁, h₁⟩ := hG hw hp hac h
      obtain ⟨q₂, hf₂, h₂⟩ := h₁.token (hf₁.live hp) hl ht (hz _ (by simp))
      have hf := hf₁.append hf₂
      obtain ⟨prev', q, hf', hq⟩ := ih (hf.live hp) (hf.allowComments.trans hac) h₂ hs
        fun l hl => hz l (mem_cons_of_mem _ hl)
      exact ⟨prev', q, hf.append hf', hq⟩

/-- If one of the lexemes has an exponent after the integer `0`, the parser gets there. -/
theorem atZeroExp_of_reads (hr : Reads A ls B) :
    ∀ {prev s : Bytes} {p : Parser D}, Live p → p.allowComments = comments →
      Rests prev p A → Spaced G prev ls s → (∃ l ∈ ls, ZeroExp l) → ∀ r,
      ∃ q r', Reaches (p, s ++ r) (q, r') ∧ AtZeroExp q r' := by
  induction hr with
  | nil =>
    intro prev s p _ _ _ _ hz
    simp at hz
  | @cons _ _ _ t l ls hl ht _ ih =>
    intro prev s p hp hac h hs hz r
    cases hs with
    | @cons _ w _ s' _ hw hs =>
      obtain ⟨q₁, hf₁, h₁⟩ := hG hw hp hac h
      have hp₁ := hf₁.live hp
      by_cases hzl : ZeroExp l
      · obtain ⟨q, r', hrch, hat⟩ := atZeroExp_of_token hp₁ h₁ hl ht hzl (s' ++ r)
        refine ⟨q, r', ?_, hat⟩
        have := hf₁ (l ++ (s' ++ r))
        simp only [append_assoc]
        exact this.trans hrch
      · obtain ⟨q₂, hf₂, h₂⟩ := h₁.token hp₁ hl ht hzl
        have hf := hf₁.append hf₂
        have hz' : ∃ l ∈ ls, ZeroExp l := by
          obtain ⟨x, hx, hzx⟩ := hz
          rcases mem_cons.mp hx with rfl | hx
          · exact absurd hzx hzl
          · exact ⟨x, hx, hzx⟩
        obtain ⟨q, r', hrch, hat⟩ := ih (hf.live hp) (hf.allowComments.trans hac) h₂ hs hz' r
        refine ⟨q, r', ?_, hat⟩
        have := hf (s' ++ r)
        simp only [append_assoc] at this ⊢
        exact this.trans hrch

end Reads

theorem end_of_text : ∀ s : States, s.isEnd → ∀ t : JSONType, s.modeOk t .MODE_DONE →
    s = .OK ∧ t = JSON_T_NONE := by decide

theorem parse_of_rests {s : Bytes} (hp : Live p) (hf : Feeds p s q)
    (h : Rests prev q ⟨.OK, [.MODE_DONE], cs⟩) :
    ∃ q', parse s p = .ok ((ParseHandler.fresh.run cs).bind (·.result)) q' ∧ q'.log = cs := by
  have hq := hf.live hp
  obtain ⟨hs, hms, -, es, hes, rfl⟩ := h.flush hq
  have hmode := hq.mode_of_state (flags_of_rest _ (.inr hs)).2.1 hms
  obtain ⟨hOK, htype⟩ := end_of_text _ hs _ hmode
  -- nothing is pending at the end of the text
  have hnil : es = [] := by
    have hdel : delivered q = .ok [] := by
      simp [delivered, hq.handler, htype, bufferValue, Except.map]
    rw [hdel] at hes
    cases hes
    rfl
  subst hnil
  have hrun : run s p = .ok () q := run_eq_ok_iff.mpr (by simpa using hf [])
  refine ⟨{ q with stack := q.stack.tail }, ?_, by simp⟩
  rw [parse_eq, hrun]
  dsimp only
  rw [if_pos ⟨hOK, by rw [hms]; rfl⟩, append_nil]
  rfl

end Parser

end Poco.JSON
