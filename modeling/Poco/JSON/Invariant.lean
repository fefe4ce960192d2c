import Poco.JSON.Run

/-!
# The invariant of the JSON parser

The members of the parser that the transition table does not show (`_type`, `_escaped`,
`_comment`, `_utf16HighSurrogate`, the mode on the stack) are tied to the state it
shows.  The invariant does not say where bytes above the ASCII range have been read.

## Main definitions

* `States.typeOk`, `States.modeOk`: the types a parser can have in a state, and the modes the
  stack can have on top, given the type.
* `Inv`: the invariant.

## Main results

* `next_ok`, `act_from`: two checks of all entries of the table.
* `Inv.performed`: actions keep the invariant.
-/

namespace Poco.JSON

open Modes JSONType

/-! ### What a state says about the other members -/

def States.typeOk : States → JSONType → Bool
  | .GO, t | .OB, t | .KE, t | .CO, t | .VA, t | .AR, t | .C1, t | .C2, t | .C3, t =>
    t = JSON_T_NONE
  | .ST, t | .EC, t | .U1, t | .U2, t | .U3, t | .U4, t | .D1, t | .D2, t => t = JSON_T_STRING
  | .MI, t | .ZE, t | .IT, t => t = JSON_T_INTEGER
  | .FR, t | .E1, t | .E2, t | .E3, t | .FX, t => t = JSON_T_FLOAT
  | .T1, t | .T2, t | .T3, t => t = JSON_T_TRUE
  | .F1, t | .F2, t | .F3, t | .F4, t => t = JSON_T_FALSE
  | .N1, t | .N2, t | .N3, t => t = JSON_T_NULL
  | .OK, t => t ≠ JSON_T_STRING

def States.modeOk : States → JSONType → Modes → Bool
  | .GO, _, m => m = MODE_DONE
  | .OB, _, m | .KE, _, m | .CO, _, m => m = MODE_KEY
  | .AR, _, m => m = MODE_ARRAY
  | .ST, _, m | .EC, _, m | .U1, _, m | .U2, _, m | .U3, _, m | .U4, _, m | .D1, _, m
  | .D2, _, m => m = MODE_KEY ∨ m = MODE_ARRAY ∨ m = MODE_OBJECT
  | .OK, t, m => m = MODE_ARRAY ∨ m = MODE_OBJECT ∨ m = MODE_DONE ∧ t = JSON_T_NONE
  | .C1, _, _ | .C2, _, _ | .C3, _, _ => true
  | _, _, m => m = MODE_ARRAY ∨ m = MODE_OBJECT

def States.isComment : States → Bool
  | .C1 | .C2 | .C3 => true
  | _ => false

/-- A high surrogate can be pending. -/
def States.isUnicode : States → Bool
  | .D1 | .D2 | .U1 | .U2 | .U3 | .U4 => true
  | _ => false

/-- A comment can return to the state. -/
def States.isResting : States → Bool
  | .GO | .OK | .OB | .KE | .CO | .VA | .AR => true
  | _ => false

/-- What a transition to a state keeps. -/
def States.nextOk (s s' : States) : Bool :=
  (∀ t, s.typeOk t → s'.typeOk t) ∧ (∀ t m, s.typeOk t → s.modeOk t m → s'.modeOk t m) ∧
    s' ≠ .EC ∧ s'.isComment = s.isComment ∧ (s.isUnicode → s'.isUnicode)

theorem next_ok : ∀ (s : States) (k : Classes) (s' : States), transition s k = .next s' →
    s.nextOk s' := by
  apply forall_next
  decide

/-- The states that an action is performed in. -/
def Actions.from : Actions → States → Bool
  | .UC, s => s = .U4
  | .EX, s | .m4, s => s = .ST
  | .MX, s | .ZX, s | .IX, s | .NU, s | .FA, s | .TR, s => s = .VA ∨ s = .AR
  | .DE, s => s = .IT
  | .DF, s => s = .ZE ∨ s = .IT
  | .SB, s => s = .OB ∨ s = .KE ∨ s = .VA ∨ s = .AR
  | .CE, s => s = .C3
  | .CB, s => s = .GO ∨ s = .OK ∨ s = .OB ∨ s = .KE ∨ s = .CO ∨ s = .VA ∨ s = .AR ∨ s = .ZE ∨
      s = .IT ∨ s = .FR ∨ s = .T3 ∨ s = .F4 ∨ s = .N3
  | .m9, s => s = .OB
  | .m8, s | .m3, s => s = .OK ∨ s = .ZE ∨ s = .IT ∨ s = .FR ∨ s = .E3 ∨ s = .FX
  | .m7, s => s = .AR ∨ s = .OK ∨ s = .ZE ∨ s = .IT ∨ s = .FR ∨ s = .E3 ∨ s = .FX
  | .m6, s | .m5, s => s = .GO ∨ s = .VA ∨ s = .AR
  | .m2, s => s = .CO
  | .xx, _ => true

/-- The types that an action is performed with. -/
def Actions.typeOk : Actions → JSONType → Bool
  | .UC, t | .EX, t | .m4, t => t = JSON_T_STRING
  | .DE, t | .DF, t => t = JSON_T_INTEGER
  | .CB, t | .m8, t | .m7, t | .m3, t => t ≠ JSON_T_STRING
  | .xx, _ => true
  | _, t => t = JSON_T_NONE

theorem Actions.typeOk_of_from : ∀ (a : Actions) (s : States), a.from s →
    ∀ t : JSONType, s.typeOk t → a.typeOk t := by decide

/-- The states that an action is performed in, and that no action is performed on white
space. -/
theorem act_from : ∀ (s : States) (k : Classes) (a : Actions), transition s k = .act a →
    a ≠ .xx → a.from s ∧ k ≠ .C_SPACE ∧ k ≠ .C_WHITE := by
  apply forall_act
  decide

/-- The cells below the top of the stack: containers, and `MODE_DONE` at the bottom. -/
def stackBelow : List Modes → Bool
  | [.MODE_DONE] => true
  | MODE_ARRAY :: ms | MODE_OBJECT :: ms => stackBelow ms
  | _ => false

/-- The stack: at most the top is `MODE_KEY`. -/
def stackOk : List Modes → Bool
  | [.MODE_DONE] => true
  | MODE_KEY :: ms | MODE_ARRAY :: ms | MODE_OBJECT :: ms => stackBelow ms
  | _ => false

/-- The states and the types that an action may leave which makes no callback and keeps the
stack. -/
def Actions.quiet : Actions → JSONType → List (States × JSONType)
  | .UC, t => [(.ST, t), (.D1, t)]
  | .EX, t => [(.EC, t)]
  | .MX, _ => [(.MI, JSON_T_INTEGER)]
  | .ZX, _ => [(.ZE, JSON_T_INTEGER)]
  | .IX, _ => [(.IT, JSON_T_INTEGER)]
  | .DE, _ => [(.E1, JSON_T_FLOAT)]
  | .DF, _ => [(.FX, JSON_T_FLOAT)]
  | .SB, _ => [(.ST, JSON_T_STRING)]
  | .NU, _ => [(.N1, JSON_T_NULL)]
  | .FA, _ => [(.F1, JSON_T_FALSE)]
  | .TR, _ => [(.T1, JSON_T_TRUE)]
  | _, _ => []

theorem quiet_ok : ∀ (a : Actions) (s : States), a.from s → ∀ t : JSONType, s.typeOk t →
    ∀ m : Modes, s.modeOk t m → ∀ x ∈ a.quiet t, x.1.modeOk x.2 m := by decide +kernel

namespace Parser

variable {D : Type}

/-- The state a parser is in, or returns to from the comment it is in. -/
def outerState (p : Parser D) : States :=
  if p.state.isComment then p.beforeCommentState else p.state

structure Inv (p : Parser D) : Prop where
  type : p.state.typeOk p.type
  escaped : p.escaped = (p.state = .EC : Bool)
  comment : p.comment = p.state.isComment
  surrogate : p.utf16HighSurrogate ≠ 0 → p.state.isUnicode
  resting : p.state.isComment → p.beforeCommentState.isResting
  stack : stackOk p.stack
  mode : ∀ m ms, p.stack = m :: ms → p.outerState.modeOk p.type m
  /-- The backslash of an escape is in the buffer. -/
  backslash : p.state = .EC → p.buffer ≠ []
  /-- The first character of a number is in the buffer. -/
  number : p.type = JSON_T_INTEGER ∨ p.type = JSON_T_FLOAT → p.buffer ≠ []

theorem inv_fresh (σ : Settings) : Inv (fresh σ : Parser D) where
  type := rfl
  escaped := rfl
  comment := rfl
  surrogate h := absurd rfl h
  resting h := by cases h
  stack := rfl
  mode m ms h := by cases h; rfl
  backslash h := by cases h
  number h := by rcases h with h | h <;> cases h

/-! ### What a successful step does -/

theorem stackOk_of_below : ∀ {ms : List Modes}, stackBelow ms → stackOk ms
  | [.MODE_DONE], _ => rfl
  | MODE_ARRAY :: _, h => h
  | MODE_OBJECT :: _, h => h

variable {p q : Parser D}

/-- The buffer after `addCharToParseBuffer` has the bytes it had before, except that an
escape replaces its backslash. -/
theorem fed_of_not_escaped (h : p.escaped = false) :
    fed p c k = { p with buffer := p.buffer ++ appended p c k } := by
  simp [fed, h]

variable [StrToDouble D]

omit [StrToDouble D] in
theorem fed_eq (p : Parser D) (c : UInt8) (k : Classes) :
    ∃ b, fed p c k = { p with buffer := b, escaped := false } := by
  unfold fed
  by_cases h : p.escaped = true
  · exact ⟨_, if_pos h⟩
  · have hf : p.escaped = false := by simpa using h
    refine ⟨p.buffer ++ appended p c k, ?_⟩
    rw [if_neg h, ← hf]

omit [StrToDouble D] in
theorem Inv.next (hp : Inv p) (ht : transition p.state k = .next s) :
    Inv { fed p c k with state := s } := by
  have hok := next_ok _ _ _ ht
  simp only [States.nextOk, decide_eq_true_eq] at hok
  obtain ⟨htype, hmode, hne, hcom, huni⟩ := hok
  have hnum : p.type = JSON_T_INTEGER ∨ p.type = JSON_T_FLOAT → (fed p c k).buffer ≠ [] := by
    intro hn
    have hesc : p.escaped = false := by
      have h1 := hp.escaped
      have h2 := hp.type
      by_cases hs : p.state = .EC
      · rw [hs] at h2
        rcases hn with hn | hn <;> rw [hn] at h2 <;> cases h2
      · simpa [hs] using h1
    rw [fed_of_not_escaped hesc]
    simp [hp.number hn]
  obtain ⟨b, hb⟩ := fed_eq p c k
  rw [hb] at hnum ⊢
  exact {
    type := htype _ hp.type
    escaped := by simp [hne]
    comment := hp.comment.trans hcom.symm
    surrogate := fun h => huni (hp.surrogate h)
    resting := fun h => hp.resting (hcom ▸ h)
    stack := hp.stack
    mode := by
      intro m ms hs
      have hm := hp.mode m ms hs
      unfold outerState at hm ⊢
      simp only [hcom]
      split at hm
      · next hcm =>
        rw [if_pos hcm]
        -- a comment has no type, and neither has the state it leads to
        exact hm
      · next hcm =>
        rw [if_neg hcm]
        exact hmode _ _ hp.type hm
    backslash := fun h => absurd h hne
    number := hnum }

/-! ### Actions keep the invariant -/

theorem stateAfterComment_ok : ∀ s : States, Actions.from .CB s → ∀ t : JSONType, s.typeOk t →
    ∀ m : Modes, s.modeOk t m →
      (stateAfterComment m s).isResting ∧ (stateAfterComment m s).modeOk JSON_T_NONE m := by decide

theorem resting_typeOk : ∀ s : States, s.isResting →
    s.typeOk JSON_T_NONE ∧ s ≠ .EC ∧ s.isComment = false := by decide

theorem modeOk_of_below : ∀ {m : Modes} {ms : List Modes}, stackBelow (m :: ms) →
    States.modeOk .OK JSON_T_NONE m
  | MODE_DONE, _, _ => rfl
  | MODE_ARRAY, _, _ => rfl
  | MODE_OBJECT, _, _ => rfl

theorem below_of_ne_key : ∀ {ms : List Modes}, stackOk ms → ms.head? ≠ some MODE_KEY →
    stackBelow ms
  | [.MODE_DONE], _, _ => rfl
  | MODE_ARRAY :: _, h, _ => h
  | MODE_OBJECT :: _, h, _ => h
  | MODE_KEY :: _, _, h => absurd rfl h

section

omit [StrToDouble D]

theorem not_number {t : JSONType} {P : Prop}
    (h : decide (t = JSON_T_INTEGER ∨ t = JSON_T_FLOAT) = false) :
    t = JSON_T_INTEGER ∨ t = JSON_T_FLOAT → P :=
  fun hn => absurd hn (of_decide_eq_false h)

/-- The invariant of a parser that is neither in an escape nor in a comment, has no number
in its buffer and no surrogate pending. -/
theorem inv_of_plain (hs : p.state.isComment = false) (he : p.state ≠ .EC)
    (hesc : p.escaped = false) (hcom : p.comment = false) (hsur : p.utf16HighSurrogate = 0)
    (htype : p.state.typeOk p.type) (hstk : stackOk p.stack)
    (hmode : ∀ m ms, p.stack = m :: ms → p.state.modeOk p.type m)
    (hnum : p.type = JSON_T_INTEGER ∨ p.type = JSON_T_FLOAT → p.buffer ≠ []) : Inv p where
  type := htype
  escaped := by simp [he, hesc]
  comment := by rw [hcom, hs]
  surrogate h := absurd hsur h
  resting h := by rw [hs] at h; cases h
  stack := hstk
  mode m ms h := by
    unfold outerState
    rw [hs]
    exact hmode m ms h
  backslash h := absurd h he
  number := hnum

theorem Inv.flags (hp : Inv p) (h1 : p.state ≠ .EC) (h2 : p.state.isComment = false)
    (h3 : p.state.isUnicode = false) :
    p.escaped = false ∧ p.comment = false ∧ p.utf16HighSurrogate = 0 := by
  refine ⟨by simpa [h1] using hp.escaped, by rw [hp.comment, h2], ?_⟩
  by_contra h
  have := hp.surrogate h
  rw [h3] at this
  cases this

theorem Inv.mode_of_state (hp : Inv p) (h : p.state.isComment = false)
    (hs : p.stack = m :: ms) : p.state.modeOk p.type m := by
  have := hp.mode m ms hs
  unfold outerState at this
  rwa [h] at this

theorem Inv.below (hp : Inv p) (hs : p.stack = m :: ms) (hm : m ≠ MODE_DONE) : stackBelow ms := by
  have := hp.stack
  rw [hs] at this
  cases m with
  | MODE_DONE => exact absurd rfl hm
  | MODE_UNSET => cases this
  | MODE_KEY | MODE_ARRAY | MODE_OBJECT => exact this

theorem Inv.exists_mode (hp : Inv p) : ∃ m ms, p.stack = m :: ms := by
  cases hs : p.stack with
  | nil =>
    have := hp.stack
    rw [hs] at this
    cases this
  | cons m ms => exact ⟨m, ms, rfl⟩

end

theorem plain_of_from : ∀ (a : Actions) (s : States), a.from s → a ≠ .xx → a ≠ .CE →
    s ≠ .EC ∧ s.isComment = false := by decide

theorem not_isUnicode_of_from : ∀ (a : Actions) (s : States), a.from s → a ≠ .xx → a ≠ .UC →
    s.isUnicode = false := by decide

theorem forall_top {P : Modes → Prop} (hl : l = m :: ms) (h : P m) :
    ∀ m' ms', l = m' :: ms' → P m' := by
  intro m' ms' hl'
  cases hl.symm.trans hl'
  exact h

section

variable (hp : Inv p)
include hp

theorem Inv.endComment (hf : Actions.from .CE p.state)
    (h : Performed .CE { p with buffer := b } q) : Inv q := by
  have hst : p.state = .C3 := by simpa [Actions.from] using hf
  cases h with
  | CE hbuf ht =>
    have hcm : p.state.isComment = true := by rw [hst]; rfl
    obtain ⟨h1, h2, h3⟩ := resting_typeOk _ (hp.resting hcm)
    have hsur : p.utf16HighSurrogate = 0 := by
      by_contra hne
      have := hp.surrogate hne
      rw [hst] at this
      cases this
    have hesc : p.escaped = false := by simpa [hst] using hp.escaped
    refine inv_of_plain h3 h2 hesc rfl hsur (by rw [ht]; exact h1) hp.stack ?_
      (not_number (by rw [ht]; rfl))
    intro m ms hs
    have := hp.mode m ms hs
    unfold outerState at this
    rwa [hcm] at this

theorem Inv.unicode (hf : Actions.from .UC p.state)
    (h : Performed .UC { p with buffer := b } q) : Inv q := by
  obtain ⟨-, hcom⟩ := plain_of_from .UC _ hf nofun nofun
  obtain ⟨m, ms, hstk⟩ := hp.exists_mode
  have hmode := hp.mode_of_state hcom hstk
  have hst : p.state = .U4 := by simpa [Actions.from] using hf
  rw [hst] at hmode
  have htype : p.type = JSON_T_STRING := by simpa [hst, States.typeOk] using hp.type
  have hesc : p.escaped = false := by simpa [hst] using hp.escaped
  have hpcom : p.comment = false := by rw [hp.comment, hcom]
  cases h with
  | @UC _ bs hi =>
    by_cases hhi : hi = 0
    · subst hhi
      exact inv_of_plain rfl nofun hesc hpcom rfl (by rw [htype]; rfl) hp.stack
        (forall_top hstk hmode) (not_number (by rw [htype]; rfl))
    simp only [ne_eq, hhi, not_false_eq_true, if_true]
    exact {
      type := by simp [htype, States.typeOk]
      escaped := by simp [hesc]
      comment := hpcom
      surrogate := fun _ => rfl
      resting := nofun
      stack := hp.stack
      mode := forall_top hstk hmode
      backslash := nofun
      number := not_number (by rw [htype]; rfl) }

theorem Inv.performed {b : Bytes} {a : Actions} (hb : a ≠ .CE → b ≠ [])
    (hf : a.from p.state) (hxx : a ≠ .xx) (h : Performed a { p with buffer := b } q) : Inv q := by
  by_cases hCE : a = .CE
  · subst hCE
    exact hp.endComment hf h
  replace hb := hb hCE
  obtain ⟨hEC, hcom⟩ := plain_of_from a _ hf hxx hCE
  obtain ⟨m, ms, hstk⟩ := hp.exists_mode
  have hmode := hp.mode_of_state hcom hstk
  by_cases hUC : a = .UC
  · subst hUC
    exact hp.unicode hf h
  obtain ⟨hesc, hpcom, hsur⟩ := hp.flags hEC hcom (not_isUnicode_of_from a _ hf hxx hUC)
  have hbel : m ≠ MODE_DONE → stackBelow ms := hp.below hstk
  cases h with
  | CE => exact absurd rfl hCE
  | UC => exact absurd rfl hUC
  | EX =>
    have hst : p.state = .ST := by simpa [Actions.from] using hf
    rw [hst] at hmode
    have htype : p.type = JSON_T_STRING := by simpa [hst, States.typeOk] using hp.type
    exact {
      type := by simp [htype, States.typeOk]
      escaped := by simp
      comment := hpcom
      surrogate := fun h => absurd hsur h
      resting := nofun
      stack := hp.stack
      mode := forall_top hstk hmode
      backslash := fun _ => hb
      number := not_number (by rw [htype]; rfl) }
  | MX | ZX | IX | NU | FA | TR | DE | DF =>
    exact inv_of_plain rfl nofun hesc hpcom hsur rfl hp.stack
      (forall_top hstk (quiet_ok _ _ hf _ hp.type _ hmode _ (.head _))) fun _ => hb
  | SB =>
    exact inv_of_plain rfl nofun hesc hpcom hsur rfl hp.stack
      (forall_top hstk (quiet_ok _ _ hf _ hp.type _ hmode _ (.head _))) (not_number rfl)
  | CB hc _ hl ht hs =>
    cases hstk.symm.trans hs
    obtain ⟨h1, h2⟩ := stateAfterComment_ok _ hf _ hp.type _ hmode
    exact {
      type := rfl
      escaped := by simp [hesc]
      comment := rfl
      surrogate := fun h => absurd hsur h
      resting := fun _ => h1
      stack := hp.stack
      mode := forall_top hstk h2
      backslash := nofun
      number := not_number rfl }
  | m9 hs =>
    cases hstk.symm.trans hs
    have hst : p.state = .OB := by simpa [Actions.from] using hf
    have htype : p.type = JSON_T_NONE := by simpa [hst, States.typeOk] using hp.type
    have hms := hbel nofun
    exact inv_of_plain rfl nofun hesc hpcom hsur (by rw [htype]; rfl) (stackOk_of_below hms)
      (fun m' ms'' h => by
        subst h
        rw [htype]
        exact modeOk_of_below hms)
      (not_number (by rw [htype]; rfl))
  | m8 _ hl hs | m7 _ hl hs =>
    cases hstk.symm.trans hs
    have hms := hbel nofun
    exact inv_of_plain rfl nofun hesc hpcom hsur rfl (stackOk_of_below hms)
      (fun m' ms'' h => by subst h; exact modeOk_of_below hms)
      (not_number rfl)
  | m6 _ hn ht | m5 _ hn ht =>
    have hms : stackBelow p.stack := below_of_ne_key hp.stack (by
      have key : ∀ s : States, Actions.from .m6 s → ∀ (t : JSONType) (m : Modes), s.modeOk t m →
          m ≠ MODE_KEY := by decide
      rw [hstk]
      simpa using key _ hf _ _ hmode)
    exact inv_of_plain rfl nofun hesc hpcom hsur (by rw [ht]; rfl) hms
      (fun m' ms'' h => by cases h; rfl)
      (not_number (by rw [ht]; rfl))
  | key _ ht hs | element _ hl hs ht =>
    cases hstk.symm.trans hs
    exact inv_of_plain rfl nofun hesc hpcom hsur rfl hp.stack (forall_top hstk rfl)
      (not_number rfl)
  | string _ ht hs hm =>
    cases hstk.symm.trans hs
    exact inv_of_plain rfl nofun hesc hpcom hsur rfl hp.stack
      (forall_top hstk (by rcases hm with rfl | rfl <;> rfl))
      (not_number rfl)
  | member _ hl hs hn ht =>
    cases hstk.symm.trans hs
    exact inv_of_plain rfl nofun hesc hpcom hsur rfl (hbel nofun)
      (fun m' ms'' h => by cases h; rfl)
      (not_number rfl)
  | m2 _ hs hn ht =>
    cases hstk.symm.trans hs
    exact inv_of_plain rfl nofun hesc hpcom hsur (by rw [ht]; rfl) (hbel nofun)
      (fun m' ms'' h => by cases h; rfl)
      (not_number (by rw [ht]; rfl))

omit [StrToDouble D] in
theorem Inv.fed_act (ht : transition p.state k = .act a) (hxx : a ≠ .xx) :
    fed p c k = { p with buffer := p.buffer ++ appended p c k } ∧
      (a ≠ .CE → appended p c k = [c]) := by
  obtain ⟨hf, hk⟩ := act_from _ _ _ ht hxx
  have hEC : p.state ≠ .EC := by
    by_cases hCE : a = .CE
    · subst hCE
      have hst : p.state = .C3 := by simpa [Actions.from] using hf
      rw [hst]
      nofun
    · exact (plain_of_from a _ hf hxx hCE).1
  refine ⟨fed_of_not_escaped (by simpa [hEC] using hp.escaped), fun hCE => ?_⟩
  have hcom : p.comment = false := by rw [hp.comment, (plain_of_from a _ hf hxx hCE).2]
  simp [appended, hcom, hk]

theorem Inv.ascii (h : parseAscii c p = .ok true q) : Inv q := by
  obtain ⟨k, -, -, ⟨s, ht, rfl⟩ | ⟨a, ht, hxx, hP⟩⟩ := parseAscii_eq_true h
  · exact hp.next ht
  · obtain ⟨hfed, happ⟩ := hp.fed_act (c := c) ht hxx
    rw [hfed] at hP
    exact hp.performed (fun hCE => by simp [happ hCE]) (act_from _ _ _ ht hxx).1 hxx hP

omit [StrToDouble D] in
theorem Inv.raw (bs : Bytes) : Inv { p with buffer := p.buffer ++ bs } :=
  { hp with
    backslash := fun h => by simp [hp.backslash h]
    number := fun h => by simp [hp.number h] }

theorem Inv.step (h : Step (p, s) (q, r)) : Inv q := by
  rcases step_iff.mp h with ⟨c, -, -, h⟩ | ⟨bs, -, -, rfl⟩
  · exact hp.ascii h
  · exact hp.raw bs

end

end Parser

end Poco.JSON
