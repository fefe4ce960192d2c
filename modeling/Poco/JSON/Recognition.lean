import Poco.JSON.Derivation
import Poco.JSON.Scan

/-!
# What the JSON parser accepts

The parser accepts the texts of the grammar, over the unicode escapes and numbers that it
supports, on every input whose run meets none of the following.

* A byte above the ASCII range outside of a string: it is read and forgotten in most
  states, since it does not go through the transition table.
* A sequence that begins with `0xED` or `0xF4` and goes on with an ASCII byte.
* An exponent after the integer `0`, which the table has no entry for.
* A decimal point without a digit after it, before white space or an exponent.

## Main definitions

* `Slip`: the rounds in which the parser departs from the grammar.
* `Mid`: what has been read since the token machine was in a configuration.
* `Recognized`: the input `u` has been read, and it consists of the lexemes of a run of the token
  machine and of a piece of a token.

## Main results

* `Mid.step`, `recognized_of_reaches`: one round, and a run, extends what has been read.
* `accepts_iff_isText`: without a slip the input is accepted exactly if it is a JSON text over the
  supported lexicon.
-/

namespace Poco.JSON

open Grammar Modes JSONType List

/-! ### In the middle of a token -/

namespace Parser

variable {D : Type} [StrToDouble D]

def Slip (p : Parser D) : Bytes → Prop
  | [] => False
  | c :: s =>
    (0x80 ≤ c ∧ (p.state ≠ .ST ∨ ShortSecond (c :: s))) ∨
    (p.state = .ZE ∧ isE c = true) ∨
    (p.state = .FX ∧ (isWs c = true ∨ isE c = true))

instance (p : Parser D) (s : Bytes) : Decidable (Slip p s) :=
  match s with
  | [] => inferInstanceAs (Decidable False)
  | _ :: _ => inferInstanceAs (Decidable (_ ∨ _ ∨ _))

inductive Mid (p : Parser D) (A : Config D) : Bytes → Prop where
  /-- Nothing. -/
  | rest (hs : p.state.isResting) (ht : p.type = JSON_T_NONE) (hb : p.buffer = [])
      (hA : A = ⟨p.state, p.stack, p.log⟩) : Mid p A []
  /-- A piece of a number or a literal, or a whole one with white space after it. -/
  | scalar (hA : A.place = .VA ∨ A.place = .AR) (hs : A.stack = p.stack) (hl : A.log = p.log)
      (h : Scan p.type p.state p.buffer) : Mid p A p.buffer
  /-- A piece of a string. -/
  | string {t : Bytes} (hA : A.place = .OB ∨ A.place = .KE ∨ A.place = .VA ∨ A.place = .AR)
      (hm : ∀ m ms, p.stack = m :: ms → A.place.modeOk JSON_T_NONE m)
      (hs : A.stack = p.stack) (hl : A.log = p.log)
      (h : StrScan p.state p.utf16HighSurrogate p.buffer t) : Mid p A (0x22 :: t)

/-- The input `u` after `l`, in the configuration `A`, is made of lexemes of a run to
another configuration and of a piece of a token. -/
def Extends (A : Config D) (l u : Bytes) (q : Parser D) : Prop :=
  ∃ ls g B l', Reads A ls B ∧ WsSpaced ls g ∧ l ++ u = g ++ l' ∧ Mid q B l'

variable {p q : Parser D} {A : Config D}

variable {l r s u w x : Bytes}

theorem extends_of_mid (h : Mid q A (l ++ u)) : Extends A l u q :=
  ⟨[], [], A, l ++ u, .nil, .nil ws_nil, rfl, h⟩

theorem extends_of_reads (hrd : Reads A ls B) (hws : WsSpaced ls g) {t : Token D} (hx : Spelled t x)
    (ht : TokenStep B t C) (heq : l ++ u = g ++ x) (h : Mid q C []) : Extends A l u q := by
  exact ⟨ls ++ [x], g ++ x, C, [], hrd.concat hx ht, wsSpaced_append hws (wsSpaced_one x),
    by rw [heq, append_nil], h⟩

theorem extends_of_token {B : Config D} {t : Token D} (hx : Spelled t x) (ht : TokenStep A t B)
    (heq : l ++ u = x) (h : Mid q B []) : Extends A l u q :=
  extends_of_reads .nil (.nil ws_nil) hx ht heq h

/-- The end of a container or a comma.  Before it the value in the buffer has been delivered, if
there was one. -/
theorem extends_of_closing (hp : Live p) (ha : a = .m8 ∨ a = .m7 ∨ a = .m3)
    (hc : ∀ b ∈ a.char, c = b) (hP : Performed a { p with buffer := p.buffer ++ [c] } q)
    (hflu : ∀ d m ms, delivered p = .ok d → p.stack = m :: ms → m = MODE_ARRAY ∨ m = MODE_OBJECT →
      ∃ ls s, Reads A ls ⟨s, m :: ms, p.log ++ d⟩ ∧ WsSpaced ls l ∧ (s = .OK ∨ s = .AR ∧ a = .m7)) :
    Extends A l [c] q := by
  cases hP with
  | m8 _ hl hms =>
    obtain rfl := hc _ rfl
    rw [dropLast_concat] at hl
    obtain ⟨ls, s, hrd, hws, rfl | ⟨-, hm⟩⟩ := hflu _ _ _ hl hms (.inr rfl)
    · refine extends_of_reads hrd hws .endObject .endObject rfl (.rest rfl rfl rfl ?_)
      simp [callbacks, hp.handler]
    · cases hm
  | m7 _ hl hms =>
    obtain rfl := hc _ rfl
    rw [dropLast_concat] at hl
    obtain ⟨ls, s, hrd, hws, hs⟩ := hflu _ _ _ hl hms (.inl rfl)
    refine extends_of_reads hrd hws .endArray (.endArray (hs.symm.imp And.left id)) rfl
      (.rest rfl rfl rfl ?_)
    simp [callbacks, hp.handler]
  | member _ hl hms =>
    obtain rfl := hc _ rfl
    rw [dropLast_concat] at hl
    obtain ⟨ls, s, hrd, hws, rfl | ⟨-, hm⟩⟩ := hflu _ _ _ hl hms (.inr rfl)
    · exact extends_of_reads hrd hws .valueSeparator .member rfl (.rest rfl rfl rfl rfl)
    · cases hm
  | element _ hl hms =>
    obtain rfl := hc _ rfl
    rw [dropLast_concat] at hl
    obtain ⟨ls, s, hrd, hws, rfl | ⟨-, hm⟩⟩ := hflu _ _ _ hl hms (.inl rfl)
    · refine extends_of_reads hrd hws .valueSeparator .element rfl (.rest rfl rfl rfl ?_)
      rw [hms]
    · cases hm
  | _ => simp at ha

theorem resting_next : ∀ (s : States) (k : Classes) (s' : States), transition s k = .next s' →
    s.isResting → (k = .C_SPACE ∨ k = .C_WHITE) ∧ s' = s := by
  apply forall_next
  decide

theorem literal_state : ∀ s : States, literalBegin s ≠ [] → ∀ t : JSONType, s.typeOk t →
    t ≠ JSON_T_NONE ∧ s ≠ .ST ∧ s ≠ .EC ∧ s.isComment = false := by decide

theorem Scan.state {s : States} (h : Scan t s l) (ht : s.typeOk t) :
    t ≠ JSON_T_NONE ∧ s ≠ .ST ∧ s ≠ .EC ∧ s.isComment = false := by
  cases h with
  | literal hl => exact literal_state s hl t ht
  | done hl hw => cases hl <;> decide
  | _ => decide

theorem rest_of_closing : ∀ s : States, s.isResting → ∀ a : Actions, a = .m8 ∨ a = .m7 ∨ a = .m3 →
    a.from s → s = .OK ∨ s = .AR ∧ a = .m7 := by decide

theorem mid_of_rest (hp : Live p) (hac : p.allowComments = false) (hs : p.state.isResting)
    (ht : p.type = JSON_T_NONE) (hb : p.buffer = []) (h : parseAscii c p = .ok true q) :
    Extends ⟨p.state, p.stack, p.log⟩ [] [c] q := by
  obtain ⟨hEC, hcm, huni⟩ := flags_of_rest _ (.inl hs)
  obtain ⟨hesc, hcom, hsur⟩ := hp.flags hEC hcm huni
  obtain ⟨k, hk, -, ⟨s, htr, rfl⟩ | ⟨a, htr, hxx, hP⟩⟩ := parseAscii_eq_true h
  · -- only white space leads to a state, and it is the same state
    obtain ⟨hws, rfl⟩ := resting_next _ _ _ htr hs
    have happ : appended p c k = [] := by simp [appended, ht, hws]
    rw [fed_of_not_escaped hesc, happ, append_nil]
    refine ⟨[], [c], _, [], .nil, .nil fun x hx => ?_, by simp, .rest hs ht hb rfl⟩
    rw [mem_singleton.mp hx]
    exact isWs_of_class hk hws
  · obtain ⟨hfed, happ⟩ := hp.toInv.fed_act (c := c) htr hxx
    obtain ⟨hf, -⟩ := act_from _ _ _ htr hxx
    have hc := eq_of_act htr hk
    have hCE : a ≠ .CE := by
      rintro rfl
      have : p.state = .C3 := by simpa [Actions.from] using hf
      rw [this] at hs
      cases hs
    rw [hfed, happ hCE, hb] at hP
    by_cases ha : a = .m8 ∨ a = .m7 ∨ a = .m3
    · refine extends_of_closing hp ha hc (hb ▸ hP) fun d m ms hl hms _ => ?_
      have hdel : delivered p = .ok [] := by simp [delivered, ht, bufferValue, Except.map]
      cases hdel.symm.trans hl
      refine ⟨[], p.state, ?_, .nil ws_nil, rest_of_closing _ hs a ha hf⟩
      rw [hms, append_nil]
      exact .nil
    cases hP with
    | m9 hms =>
      obtain rfl := hc _ rfl
      have hst : p.state = .OB := by simpa [Actions.from] using hf
      rw [hst, hms]
      refine extends_of_token .endObject .endEmpty rfl (.rest rfl ht rfl ?_)
      simp [callbacks, hp.handler]
    | m6 | m5 =>
      obtain rfl := hc _ rfl
      have hst : p.state = .GO ∨ p.state = .VA ∨ p.state = .AR := of_decide_eq_true hf
      first
      | refine extends_of_token .beginObject (.beginObject hst) rfl (.rest rfl ht rfl ?_)
      | refine extends_of_token .beginArray (.beginArray hst) rfl (.rest rfl ht rfl ?_)
      simp [callbacks, hp.handler]
    | m2 _ hms =>
      obtain rfl := hc _ rfl
      have hst : p.state = .CO := by simpa [Actions.from] using hf
      rw [hst, hms]
      exact extends_of_token .nameSeparator .nameSeparator rfl (.rest rfl ht rfl rfl)
    | SB =>
      obtain rfl := hc _ rfl
      have hmode : ∀ m ms, p.stack = m :: ms → p.state.modeOk JSON_T_NONE m := fun m ms hms =>
        ht ▸ hp.mode_of_state hcm hms
      exact extends_of_mid (.string (of_decide_eq_true hf) hmode rfl rfl (hsur ▸ .chars .nil))
    | MX =>
      obtain rfl := hc _ rfl
      exact extends_of_mid (.scalar (of_decide_eq_true hf) rfl rfl .minus)
    | ZX =>
      obtain rfl := hc _ rfl
      exact extends_of_mid (.scalar (of_decide_eq_true hf) rfl rfl (.zero (.inl rfl)))
    | IX =>
      obtain rfl := of_decide_eq_true (on_of_act htr)
      exact extends_of_mid (.scalar (of_decide_eq_true hf) rfl rfl
        (.digits (.inl rfl) (fits_of_asciiClass hk) (forall_mem_nil _)))
    | NU | FA | TR =>
      obtain rfl := hc _ rfl
      exact extends_of_mid (.scalar (of_decide_eq_true hf) rfl rfl (.literal (cons_ne_nil _ _)))
    | CB hc' => rw [hac] at hc'; cases hc'
    | m8 | m7 | member | element => simp at ha
    | UC | EX | DE | DF | CE | key | string =>
      have key : ∀ s : States, s.isResting →
          (Actions.from .UC s || Actions.from .EX s || Actions.from .DE s || Actions.from .DF s ||
            Actions.from .CE s || Actions.from .m4 s) = false := by decide
      have := key _ hs
      simp_all

/-- A buffer that is delivered has been the spelling of a scalar. -/
theorem Lexeme.spelled (h : Lexeme t x) (hw : Ws w) {o : Option (Callback D)}
    (hv : bufferValue t (x ++ w) = .ok o) : ∃ v, o = some v ∧ Spelled (.scalar v) x := by
  cases h with
  | integer hi =>
    rw [bufferValue, integerValue_append_ws hi hw] at hv
    cases hc : integerValue (D := D) x with
    | error e => rw [hc] at hv; cases hv
    | ok c =>
      rw [hc] at hv
      cases hv
      exact ⟨c, rfl, .integer hi hc⟩
  | float hf =>
    cases hd : parseFloat (D := D) x with
    | some d =>
      have := valued_float hf hd w hw
      rw [hv] at this
      cases this
      exact ⟨_, rfl, .float hf hd⟩
    | none =>
      unfold bufferValue floatValue at hv
      simp only [parseFloat_append_ws hf hw, hd] at hv
      split at hv
      · cases hv
      · split at hv <;> cases hv
  | false | null | true =>
    cases hv
    exact ⟨_, rfl, by constructor⟩

/-- A number that ends in a decimal point is not delivered. -/
theorem floatValue_point (i : Bytes) :
    floatValue (D := D) (i ++ [0x2E]) = .error (.SyntaxException "JSON syntax error") := by
  simp [floatValue]

theorem flush_from : ∀ (s : States) (a : Actions), a = .m8 ∨ a = .m7 ∨ a = .m3 → a.from s →
    s.isEnd ∨ s = .FX ∨ s = .AR := by decide

theorem scalar_flush (hp : Live p) (h : Scan p.type p.state p.buffer)
    (hf : p.state.isEnd ∨ p.state = .FX ∨ p.state = .AR) {l : List (Callback D)}
    (hl : delivered p = .ok l) :
    ∃ x w v, l = [v] ∧ p.buffer = x ++ w ∧ Ws w ∧ Spelled (.scalar v) x := by
  rw [delivered, if_pos hp.handler] at hl
  rcases hf with hs | hs | hs
  · obtain ⟨x, w, hx, hw, heq⟩ := h.lexeme hs
    rw [heq] at hl
    cases hv : bufferValue (D := D) p.type (x ++ w) with
    | error e => rw [hv] at hl; cases hl
    | ok o =>
      rw [hv] at hl
      obtain ⟨v, rfl, hspe⟩ := Lexeme.spelled hx hw hv
      cases hl
      exact ⟨x, w, v, rfl, heq, hw, hspe⟩
  · rw [hs] at h
    generalize p.type = t at h hl
    generalize p.buffer = b at h hl
    cases h with
    | point hi =>
      rw [bufferValue, floatValue_point] at hl
      cases hl
    | literal hne => exact absurd rfl hne
  · rw [hs] at h
    generalize p.type = t at h hl
    generalize p.buffer = b at h hl
    cases h with
    | literal hne => exact absurd rfl hne

theorem Scan.integer {s : States} (h : Scan t s l) (hs : s = .ZE ∨ s = .IT) : IsInteger l := by
  cases h with
  | zero hm => exact isInteger_zero hm
  | digits hm hd hds => exact isInteger_digits hm hd hds
  | literal hl => rcases hs with rfl | rfl <;> exact absurd rfl hl
  | _ => rcases hs with hs | hs <;> cases hs

theorem Scan.mem {s : States} (h : Scan t s l) :
    literalBegin s ≠ [] ∨ s ∈ [States.MI, .ZE, .IT, .FX, .FR, .E1, .E2, .E3, .OK] := by
  cases h with
  | literal hl => exact .inl hl
  | _ => simp

theorem scan_actions : ∀ s : States,
    literalBegin s ≠ [] ∨ s ∈ [States.MI, .ZE, .IT, .FX, .FR, .E1, .E2, .E3, .OK] →
    ∀ a : Actions, a.from s → a ≠ .xx → a ∈ [Actions.DE, .DF, .m8, .m7, .m3, .CB] := by decide

theorem mid_of_scalar (hp : Live p) (hac : p.allowComments = false)
    (hA : A.place = .VA ∨ A.place = .AR) (hs : A.stack = p.stack) (hl : A.log = p.log)
    (hscan : Scan p.type p.state p.buffer) (hslip : ¬ Slip p (c :: r))
    (h : parseAscii c p = .ok true q) : Extends A p.buffer [c] q := by
  obtain ⟨hnone, -, hEC, hcm⟩ := Scan.state hscan hp.type
  have hesc : p.escaped = false := by simpa [hEC] using hp.escaped
  have hcom : p.comment = false := by rw [hp.comment, hcm]
  obtain ⟨k, hk, -, ⟨s, htr, rfl⟩ | ⟨a, htr, hxx, hP⟩⟩ := parseAscii_eq_true h
  · have happ : appended p c k = [c] := by simp [appended, hcom, hnone]
    rw [fed_of_not_escaped hesc, happ]
    refine extends_of_mid (.scalar hA hs hl (hscan.next hp.type hk htr fun hFX => ?_))
    by_contra hcon
    refine hslip (.inr (.inr ⟨hFX, ?_⟩))
    simp only [not_and_or, Bool.not_eq_false] at hcon
    exact hcon
  · obtain ⟨hfed, happ⟩ := hp.toInv.fed_act (c := c) htr hxx
    obtain ⟨hf, -⟩ := act_from _ _ _ htr hxx
    have hc := eq_of_act htr hk
    have hmem := scan_actions _ (Scan.mem hscan) a hf hxx
    have hCE : a ≠ .CE := by
      rintro rfl
      simp at hmem
    rw [hfed, happ hCE] at hP
    obtain ⟨place, stack, log⟩ := A
    dsimp only at hA hs hl
    subst hs hl
    by_cases ha : a = .m8 ∨ a = .m7 ∨ a = .m3
    · refine extends_of_closing hp ha hc hP fun d m ms hl hms hm => ?_
      obtain ⟨x, w, v, rfl, heq, hw, hx⟩ := scalar_flush hp hscan (flush_from _ a ha hf) hl
      rw [heq, hms]
      exact ⟨[x], .OK, reads_one hx (.scalar hA hm), wsSpaced_before hw, .inl rfl⟩
    cases hP with
    | DE =>
      have hst : p.state = .IT := by simpa [Actions.from] using hf
      exact extends_of_mid (.scalar hA rfl rfl (.e (Scan.integer hscan (.inr hst)).mantissa
        (isE_of_class hk (of_decide_eq_true (on_of_act htr)))))
    | DF =>
      obtain rfl := hc _ rfl
      exact extends_of_mid (.scalar hA rfl rfl (.point (Scan.integer hscan (of_decide_eq_true hf))))
    | CB hc' => rw [hac] at hc'; cases hc'
    | _ => simp_all

theorem string_actions : ∀ s ∈ [States.ST, .EC, .U1, .U2, .U3, .U4, .D1, .D2], ∀ a : Actions,
    a.from s → a ≠ .xx → a = .EX ∧ s = .ST ∨ a = .m4 ∧ s = .ST ∨ a = .UC ∧ s = .U4 := by decide

theorem string_type : ∀ s ∈ [States.ST, .EC, .U1, .U2, .U3, .U4, .D1, .D2], ∀ t : JSONType,
    s.typeOk t → t = JSON_T_STRING ∧ s.isComment = false := by decide

theorem place_of_mode :
    (∀ s : States, s = .OB ∨ s = .KE ∨ s = .VA ∨ s = .AR → s.modeOk JSON_T_NONE MODE_KEY →
      s = .OB ∨ s = .KE) ∧
    ∀ s : States, s = .OB ∨ s = .KE ∨ s = .VA ∨ s = .AR → ∀ m : Modes,
      m = MODE_ARRAY ∨ m = MODE_OBJECT → s.modeOk JSON_T_NONE m → s = .VA ∨ s = .AR := by decide

theorem mid_of_string (hp : Live p)
    (hA : A.place = .OB ∨ A.place = .KE ∨ A.place = .VA ∨ A.place = .AR)
    (hm : ∀ m ms, p.stack = m :: ms → A.place.modeOk JSON_T_NONE m) (hs : A.stack = p.stack)
    (hl : A.log = p.log) {t : Bytes} (hscan : StrScan p.state p.utf16HighSurrogate p.buffer t)
    (h : parseAscii c p = .ok true q) : Extends A (0x22 :: t) [c] q := by
  obtain ⟨htype, hcm⟩ := string_type _ hscan.mem _ hp.type
  have hcom : p.comment = false := by rw [hp.comment, hcm]
  obtain ⟨k, hk, -, ⟨s, htr, rfl⟩ | ⟨a, htr, hxx, hP⟩⟩ := parseAscii_eq_true h
  · have hfed : fed p c k = { p with escaped := false, buffer :=
        if p.state = .EC then p.buffer.dropLast ++ escapeBytes c else p.buffer ++ [c] } := by
      have hesc := hp.escaped
      by_cases hEC : p.state = .EC
      · have hesc : p.escaped = true := by simpa [hEC] using hp.escaped
        rw [fed, if_pos hesc, if_pos hEC]
      · have hesc : p.escaped = false := by simpa [hEC] using hp.escaped
        have happ : appended p c k = [c] := by simp [appended, hcom, htype]
        rw [fed_of_not_escaped hesc, happ, if_neg hEC, ← hesc]
    rw [hfed]
    exact extends_of_mid (.string hA hm hs hl (hscan.next hk htr))
  · obtain ⟨hfed, happ⟩ := hp.toInv.fed_act (c := c) htr hxx
    obtain ⟨hf, -⟩ := act_from _ _ _ htr hxx
    have hc := eq_of_act htr hk
    have hmem := string_actions _ hscan.mem a hf hxx
    have hCE : a ≠ .CE := by
      rintro rfl
      simp at hmem
    rw [hfed, happ hCE] at hP
    obtain ⟨place, stack, log⟩ := A
    dsimp only at hA hm hs hl
    subst hs hl
    cases hP with
    | EX =>
      obtain rfl := hc _ rfl
      have hst : p.state = .ST := by simpa using hmem
      rw [hst] at hscan
      exact extends_of_mid (.string hA hm rfl rfl hscan.escape)
    | UC _ _ _ hdec =>
      have hst : p.state = .U4 := by simpa using hmem
      rw [hst] at hscan
      exact extends_of_mid (.string hA hm rfl rfl
        (hscan.unicode (isHexDigit_of_class hk (on_of_act htr)) hdec))
    | key _ _ hms =>
      obtain rfl := hc _ rfl
      have hst : p.state = .ST := by simpa using hmem
      rw [hst] at hscan
      have hplc := place_of_mode.1 _ hA (hm _ _ hms)
      rw [hms, dropLast_concat]
      refine extends_of_token (.string hscan.decodes) (.key hplc) (by simp)
        (.rest rfl rfl rfl ?_)
      simp [callbacks, hp.handler]
    | string _ _ hms hmode =>
      obtain rfl := hc _ rfl
      have hst : p.state = .ST := by simpa using hmem
      rw [hst] at hscan
      have hplc := place_of_mode.2 _ hA _ hmode (hm _ _ hms)
      rw [hms, dropLast_concat]
      refine extends_of_token (.string hscan.decodes) (.string hplc hmode) (by simp)
        (.rest rfl rfl rfl ?_)
      simp [callbacks, hp.handler]
    | _ => simp at hmem

theorem Mid.step (hp : Live p) (hac : p.allowComments = false) (h : Mid p A l)
    (hstep : Step (p, s) (q, r)) (hslip : ¬ Slip p s) : ∃ u, s = u ++ r ∧ Extends A l u q := by
  rcases step_iff.mp hstep with ⟨c, -, rfl, hc⟩ | ⟨bs, hleg, rfl, rfl⟩
  · refine ⟨[c], rfl, ?_⟩
    cases h with
    | rest hs ht hb hA => exact hA ▸ mid_of_rest hp hac hs ht hb hc
    | scalar hA hs hl h => exact mid_of_scalar hp hac hA hs hl h hslip hc
    | string hA hm hs hl h => exact mid_of_string hp hA hm hs hl h hc
  · -- a byte above the ASCII range is in a string and begins a well-formed sequence
    refine ⟨bs, rfl, ?_⟩
    have hseq := hleg.isSeq_or
    obtain ⟨lead, rest, rfl, hlead, -, -⟩ := hleg
    obtain ⟨hst, hsh⟩ : p.state = .ST ∧ ¬ ShortSecond (lead :: rest ++ r) := by
      by_contra hcon
      refine hslip (.inl ⟨hlead, ?_⟩)
      exact (not_and_or.mp hcon).imp id not_not.mp
    cases h with
    | rest hs =>
      rw [hst] at hs
      cases hs
    | scalar _ _ _ h => exact absurd hst (Scan.state h hp.type).2.1
    | string hA hm hs hl h =>
      refine extends_of_mid (.string hA hm hs hl ?_)
      rcases hseq with hseq | hseq
      · dsimp only
        rw [hst] at h ⊢
        exact h.sequence hseq
      · refine absurd ?_ hsh
        cases rest with
        | nil => cases hseq
        | cons a rest => exact hseq

def Recognized (u : Bytes) (p : Parser D) : Prop :=
  ∃ ls g A l, Reads .start ls A ∧ WsSpaced ls g ∧ u = g ++ l ∧ Mid p A l

theorem Recognized.step (h : Recognized u p) (hp : Live p) (hac : p.allowComments = false)
    (hstep : Step (p, s) (q, r)) (hslip : ¬ Slip p s) :
    ∃ v, s = v ++ r ∧ Recognized (u ++ v) q := by
  obtain ⟨ls, g, A, l, hrd, hws, rfl, hmid⟩ := h
  obtain ⟨v, hv, ls', g', B, l', hrd', hws', heq, hmid'⟩ := hmid.step hp hac hstep hslip
  refine ⟨v, hv, ls ++ ls', g ++ g', B, l', hrd.append hrd',
    wsSpaced_append hws hws', ?_, hmid'⟩
  rw [append_assoc, heq, append_assoc]

/-- No round of the run departs from the grammar. -/
def SlipFree (p : Parser D) (s : Bytes) : Prop :=
  ∀ q r, Reaches (p, s) (q, r) → ¬ Slip q r

theorem recognized_of_reaches (hp : Live p) (hac : p.allowComments = false) (h0 : Recognized [] p)
    (hfree : SlipFree p s) (h : Reaches (p, s) (q, r)) : ∃ u, s = u ++ r ∧ Recognized u q := by
  -- along the run: the rest of the input, and that its rounds are rounds of the whole run
  have key := Reaches.invariant (I := fun q r => Reaches (p, s) (q, r) ∧
      ∃ u, s = u ++ r ∧ Recognized u q)
    (fun {q₁ q₂ s₁ s₂} h₁ hstep => by
      obtain ⟨hrch, u, hu, hrec⟩ := h₁
      have hac₁ : q₁.allowComments = false := by
        have := congrArg Settings.allowComments hrch.settings
        exact this.trans hac
      obtain ⟨v, rfl, hrec'⟩ := hrec.step (hp.reaches hrch) hac₁ hstep (hfree _ _ hrch)
      exact ⟨hrch.tail hstep, u ++ v, by rw [hu, append_assoc], hrec'⟩)
    h ⟨.refl, [], rfl, h0⟩
  exact key.2

/-! ### Acceptance -/

omit [StrToDouble D] in
theorem slip_of_atZeroExp (h : AtZeroExp p s) : Slip p s := by
  obtain ⟨hs, e, r, he, rfl⟩ := h
  exact .inr (.inl ⟨hs, he⟩)

/-- **The texts that are accepted.**  If no round of the run departs from the grammar, then
the input is accepted exactly if it is a JSON text over the supported lexicon. -/
theorem accepts_iff_isText {s : Bytes} (hfree : SlipFree (fresh {} : Parser D) s) :
    accepts (fresh {} : Parser D) s ↔ IsText (supported D) s := by
  have hlive : Live (fresh {} : Parser D) := live_fresh false
  constructor
  · intro h
    obtain ⟨q, hrun, hst, hdone⟩ := accepts_iff.mp h
    have hrch := run_eq_ok_iff.mp hrun
    have h0 : Recognized [] (fresh {} : Parser D) :=
      ⟨[], [], .start, [], .nil, .nil ws_nil, rfl, .rest rfl rfl rfl rfl⟩
    obtain ⟨u, hu, ls, g, A, l, hrd, hws, rfl, hmid⟩ :=
      recognized_of_reaches hlive rfl h0 hfree hrch
    have hq := hlive.reaches hrch
    cases hmid with
    | rest _ _ _ hA =>
      have hstk : q.stack = [.MODE_DONE] := by
        have := hq.stack
        rw [head?_eq_cons hdone] at this ⊢
        generalize q.stack.tail = ms at this
        cases ms with
        | nil => rfl
        | cons m ms => cases this
      refine isText_iff.mpr ⟨ls, q.log, by simpa [hu] using hws, ?_⟩
      rw [hA, hst, hstk] at hrd
      exact hrd
    | scalar _ _ _ h =>
      have hmode := hq.mode_of_state (by rw [hst]; rfl) (head?_eq_cons hdone)
      rw [hst] at hmode
      exact absurd (by simpa [States.modeOk] using hmode) (Scan.state h hq.type).1
    | string _ _ _ _ h =>
      have := h.mem
      rw [hst] at this
      simp at this
  · intro h
    obtain ⟨ls, l, hws, hrd⟩ := isText_iff.mp h
    have hrest : Rests [] (fresh {} : Parser D) .start := rests_fresh false
    by_cases hz : ∃ x ∈ ls, ZeroExp x
    · obtain ⟨q, r, hrch, hat⟩ := atZeroExp_of_reads (fun hw hp _ h => h.ws hw hp) hrd hlive
        rfl hrest hws hz []
      rw [List.append_nil] at hrch
      exact absurd (slip_of_atZeroExp hat) (hfree q r hrch)
    · obtain ⟨prev, q, hfeed, hq⟩ := Rests.reads (fun hw hp _ h => h.ws hw hp) hrd hlive rfl
        hrest hws fun x hx hzx => hz ⟨x, hx, hzx⟩
      obtain ⟨q', hprs, -⟩ := parse_of_rests hlive hfeed hq
      exact ⟨_, _, hprs⟩

/-- The text `["é", -0.5e2]`. -/
theorem accepts_iff_isText_array :
    SlipFree (fresh {} : Parser Bytes)
        [0x5B, 0x22, 0xC3, 0xA9, 0x22, 0x2C, 0x20, 0x2D, 0x30, 0x2E, 0x35, 0x65, 0x32, 0x5D] ∧
      IsText (supported Bytes)
        [0x5B, 0x22, 0xC3, 0xA9, 0x22, 0x2C, 0x20, 0x2D, 0x30, 0x2E, 0x35, 0x65, 0x32, 0x5D] := by
  have hfree : SlipFree (fresh {} : Parser Bytes)
      [0x5B, 0x22, 0xC3, 0xA9, 0x22, 0x2C, 0x20, 0x2D, 0x30, 0x2E, 0x35, 0x65, 0x32, 0x5D] := by
    intro q r h
    have key : ∀ y ∈ trace 14 (fresh {} : Parser Bytes)
        [0x5B, 0x22, 0xC3, 0xA9, 0x22, 0x2C, 0x20, 0x2D, 0x30, 0x2E, 0x35, 0x65, 0x32, 0x5D],
        ¬ Slip y.1 y.2 := by decide
    exact key _ (mem_trace le_rfl h)
  exact ⟨hfree, (accepts_iff_isText hfree).mp ⟨_, _, rfl⟩⟩

/-- The text `["\uD800"]` of the standard is rejected: a high surrogate does not stand
alone. -/
theorem not_accepts_surrogate :
    IsText rfc4627 [0x5B, 0x22, 0x5C, 0x75, 0x44, 0x38, 0x30, 0x30, 0x22, 0x5D] ∧
      ¬ accepts (fresh {} : Parser Bytes)
        [0x5B, 0x22, 0x5C, 0x75, 0x44, 0x38, 0x30, 0x30, 0x22, 0x5D] := by
  constructor
  · have hchs : IsChars rfc4627 [0x5C, 0x75, 0x44, 0x38, 0x30, 0x30] :=
      IsChars.nil.unicode ⟨[0x44, 0x38, 0x30, 0x30], by unfold IsHex4; decide, rfl⟩
    exact .inr (.elements (structural_mk ws_nil) (.one (.string ⟨_, hchs, rfl⟩))
      (structural_mk ws_nil))
  · rintro ⟨v, q, h⟩
    cases h

end Parser

end Poco.JSON
