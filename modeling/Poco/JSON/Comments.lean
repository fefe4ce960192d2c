import Mathlib.Data.List.Infix
import Poco.JSON.Lexing

/-!
# Comments

At the begin of a comment the token before it is delivered, and the state to return to is chosen
by the mode on the stack; hence a comment inside a token ends it, and what is left of the token
is rejected.  The bytes of a comment are characters that have a class in the table, which has no
entry for a comment that begins right after the exponent of a number.

## Main definitions

* `IsComment`, `IsGap`: a comment of characters that have a class; white space and comments.
* `Commented`: `s'` is the text `s` with comments between its tokens.
* `SplitByComment`: the text `s` ends with a number or a literal that a comment splits into `l₁`
  and `l₂`; before it stand the tokens of a text.

## Main results

* `feeds_comment`: the buffer is delivered, and the state is the one that belongs to the mode on
  the stack.
* `Rests.gap`: white space and comments change nothing.
* `not_run_split`: what is left of a token after a comment is rejected.
* `comments_transparent`: comments between tokens are skipped, inside a token they are not.
-/

namespace Poco.JSON

open List Grammar Modes JSONType

/-! ### Comments -/

/-- The bytes of a comment do not contain the mark at its end. -/
def NoEnd (b : Bytes) : Prop := ¬ [0x2A, 0x2F] <:+: b

instance (b : Bytes) : Decidable (NoEnd b) := inferInstanceAs (Decidable (¬ _))

def IsComment (x : Bytes) : Prop :=
  ∃ b, (∀ c ∈ b, (asciiClass c).isSome) ∧ NoEnd b ∧ x = 0x2F :: 0x2A :: (b ++ [0x2A, 0x2F])

variable {c : UInt8}

theorem NoEnd.tail (h : NoEnd (c :: b)) : NoEnd b :=
  fun hb => h (hb.trans (suffix_cons c b).isInfix)

theorem NoEnd.ne_slash (h : NoEnd (0x2A :: c :: b)) : c ≠ 0x2F := by
  rintro rfl
  exact h ⟨[], b, rfl⟩

inductive IsGap : Bytes → Prop where
  | nil : IsGap []
  | space {c : UInt8} {w : Bytes} (hc : isWs c = true) (hw : IsGap w) : IsGap (c :: w)
  | comment {x w : Bytes} (hx : IsComment x) (hw : IsGap w) : IsGap (x ++ w)

/-- What may stand after the lexeme `prev`: no comment right after an exponent. -/
def CommentGap (prev w : Bytes) : Prop := IsGap w ∧ (HasExp prev → w.head? ≠ some 0x2F)

namespace Parser

variable {D : Type} [StrToDouble D] {p q : Parser D} {A : Config D} {prev : Bytes}

theorem walk_inside : ∀ c : UInt8, (asciiClass c).isSome →
    walk .C2 [c] = some (if c = 0x2A then .C3 else .C2) ∧
      (c ≠ 0x2F → walk .C3 [c] = some (if c = 0x2A then .C3 else .C2)) := by decide

variable {l s w x : Bytes} {u : Parser D}

omit [StrToDouble D] in
theorem walk_append {s s₁ s₂ : States} (h : walk s w = some s₁)
    (h' : walk s₁ w' = some s₂) : walk s (w ++ w') = some s₂ := by
  induction w generalizing s with
  | nil =>
    cases h
    exact h'
  | cons c w ih =>
    obtain ⟨k, t, hk, htr, hw⟩ := walk_cons h
    simp only [cons_append, walk, hk, htr]
    exact ih hw

/-- The bytes of a comment and the star at its end: the state remembers whether the last
byte was a star, so that the bytes after it are known not to be the mark. -/
theorem walk_comment (hb : ∀ c ∈ b, (asciiClass c).isSome) :
    (NoEnd b → walk .C2 (b ++ [0x2A]) = some .C3) ∧
      (NoEnd (0x2A :: b) → walk .C3 (b ++ [0x2A]) = some .C3) := by
  induction b with
  | nil => exact ⟨fun _ => rfl, fun _ => rfl⟩
  | cons c b ih =>
    obtain ⟨h2, h3⟩ := ih fun x hx => hb x (mem_cons_of_mem _ hx)
    obtain ⟨hc2, hc3⟩ := walk_inside c (hb c mem_cons_self)
    -- whichever state `c` is read in, it leads to the same one
    have hrest : NoEnd (c :: b) →
        walk (if c = 0x2A then .C3 else .C2) (b ++ [0x2A]) = some .C3 := by
      intro hno
      by_cases hstar : c = 0x2A
      · rw [if_pos hstar]
        exact h3 (hstar ▸ hno)
      · rw [if_neg hstar]
        exact h2 hno.tail
    constructor
    · intro hno
      exact walk_append (w := [c]) hc2 (hrest hno)
    · intro hno
      exact walk_append (w := [c]) (hc3 hno.ne_slash) (hrest hno.tail)

theorem feeds_walk_comment (hesc : p.escaped = false) (hcom : p.comment = true) {s : States}
    (hw : walk p.state w = some s) : Feeds p w { p with state := s } := by
  induction w generalizing p with
  | nil =>
    cases hw
    exact feeds_nil p
  | cons c w ih =>
    obtain ⟨k, t, hk, htr, hw⟩ := walk_cons hw
    have hstep : Feeds p [c] { p with state := t } := by
      refine feeds_of_step fun r => ?_
      have h := step_next hk (ne_nil_of_not_escaped hesc) htr r
      have happ : appended p c k = [] := by simp [appended, hcom]
      rwa [fed_of_not_escaped hesc, happ, append_nil] at h
    exact hstep.append (ih hesc hcom hw)

theorem feeds_endComment (hesc : p.escaped = false) (hcom : p.comment = true)
    (hs : p.state = .C3) (hb : p.buffer = []) (ht : p.type = JSON_T_NONE) :
    Feeds p [0x2F] { p with comment := false, state := p.beforeCommentState } := by
  refine feeds_of_step fun r => step_act (by rfl) (ne_nil_of_not_escaped hesc)
    (by rw [hs]; rfl) ?_ r
  have happ : appended p 0x2F .C_SLASH = [] := by simp [appended, hcom]
  rw [fed_of_not_escaped hesc, happ, append_nil]
  exact .CE hb ht

theorem feeds_comment (hac : p.allowComments = true) (hesc : p.escaped = false)
    (hcom : p.comment = false) (htr : transition p.state .C_SLASH = .act .CB)
    (htype : p.type ≠ JSON_T_STRING) {m : Modes} {ms : List Modes} (hms : p.stack = m :: ms)
    {l : List (Callback D)} (hl : delivered p = .ok l) (hx : IsComment x) :
    Feeds p x { p with
      log := p.log ++ l, buffer := [], beforeCommentState := stateAfterComment m p.state,
      type := JSON_T_NONE, state := stateAfterComment m p.state, comment := false } := by
  obtain ⟨b, hb, hno, rfl⟩ := hx
  have hbeg := feeds_action hesc hcom (c := 0x2F) rfl (by decide) htr
    (.CB hac (by simp) (by simpa using hl) htype hms)
  have hwalk : walk .C1 (0x2A :: (b ++ [0x2A])) = some .C3 :=
    walk_append (w := [0x2A]) rfl ((walk_comment hb).1 hno)
  have hspl : 0x2F :: 0x2A :: (b ++ [0x2A, 0x2F])
      = [0x2F] ++ (0x2A :: (b ++ [0x2A])) ++ [0x2F] := by simp
  rw [hspl]
  refine (hbeg.append (feeds_walk_comment ?_ rfl hwalk)).append
    (feeds_endComment ?_ rfl rfl rfl rfl)
  · exact hesc
  · exact hesc

/-! ### Between two tokens -/

theorem slash_between : ∀ s : States,
    (s.isResting → transition s .C_SLASH = .act .CB ∧
      ∀ m : Modes, s.modeOk JSON_T_NONE m → stateAfterComment m s = s) ∧
    (s.isEnd → s ≠ .E3 → transition s .C_SLASH = .act .CB ∧
      ∀ t : JSONType, t ≠ JSON_T_NONE → ∀ m : Modes, s.modeOk t m →
        stateAfterComment m s = .OK) := by decide

/-- A comment changes nothing, except that the token before it is delivered. -/
theorem Rests.comment (hp : Live p) (hac : p.allowComments = true) (h : Rests prev p A)
    (hE3 : p.state ≠ .E3) (hx : IsComment x) :
    ∃ q, Feeds p x q ∧ Rests prev q A ∧ q.state ≠ .E3 := by
  obtain ⟨hesc, hcom, -⟩ := h.flags hp
  obtain ⟨m, ms, hms⟩ := hp.exists_mode
  cases h with
  | plain hs ht hb hA =>
    obtain ⟨htr, hst⟩ := (slash_between p.state).1 hs
    have hmode := hp.mode_of_state (flags_of_rest _ (.inl hs)).2.1 hms
    rw [ht] at hmode
    have hdel : delivered p = .ok [] := by simp [delivered, ht, bufferValue, Except.map]
    have hfeed := feeds_comment hac hesc hcom htr (by simp [ht]) hms hdel hx
    rw [hst m hmode, append_nil] at hfeed
    exact ⟨_, hfeed, .plain hs rfl rfl hA, hE3⟩
  | @pending e w hs hexp ht hv hw hb hA =>
    obtain ⟨htr, hst⟩ := (slash_between p.state).2 hs hE3
    have hmode := hp.mode_of_state (flags_of_rest _ (.inr hs)).2.1 hms
    have hdel : delivered p = .ok [e] := by
      unfold delivered
      rw [if_pos hp.handler, hb, hv w hw]
      rfl
    have hfeed := feeds_comment hac hesc hcom htr ht.2 hms hdel hx
    rw [hst _ ht.1 m hmode] at hfeed
    exact ⟨_, hfeed, .plain rfl rfl rfl hA, (by simp)⟩

theorem Rests.gap (hw : IsGap w) :
    ∀ {p : Parser D}, Live p → p.allowComments = true → Rests prev p A →
      (p.state = .E3 → w.head? ≠ some 0x2F) → ∃ q, Feeds p w q ∧ Rests prev q A := by
  induction hw with
  | nil =>
    intro p _ _ h _
    exact ⟨p, feeds_nil p, h⟩
  | space hc _ ih =>
    intro p hp hac h _
    obtain ⟨q, hfeed, hq, hE3⟩ := h.space hp hc
    obtain ⟨q', hfeed', hq'⟩ := ih (hfeed.live hp) (hfeed.allowComments.trans hac) hq
      fun h => absurd h hE3
    exact ⟨q', hfeed.append hfeed', hq'⟩
  | comment hx _ ih =>
    intro p hp hac h hhead
    have hE3 : p.state ≠ .E3 := by
      obtain ⟨b, -, -, rfl⟩ := hx
      exact fun h => hhead h rfl
    obtain ⟨q, hfeed, hq, hE3⟩ := h.comment hp hac hE3 hx
    obtain ⟨q', hfeed', hq'⟩ := ih (hfeed.live hp) (hfeed.allowComments.trans hac) hq
      fun h => absurd h hE3
    exact ⟨q', hfeed.append hfeed', hq'⟩

theorem Rests.commentGap (hw : CommentGap prev w) (hp : Live p) (hac : p.allowComments = true)
    (h : Rests prev p A) : ∃ q, Feeds p w q ∧ Rests prev q A := by
  refine h.gap hw.1 hp hac fun hE3 => hw.2 ?_
  cases h with
  | plain hs =>
    rw [hE3] at hs
    cases hs
  | pending _ hexp => exact hexp hE3

/-! ### Inside a token -/

def isScalarChar (c : UInt8) : Bool :=
  isDecDigit c || c ∈ [0x2D, 0x2B, 0x2E, 0x65, 0x45, 0x61, 0x66, 0x6C, 0x6E, 0x72, 0x73, 0x74, 0x75]

def isScalarClass : Classes → Bool
  | .C_PLUS | .C_MINUS | .C_POINT | .C_ZERO | .C_DIGIT | .C_LOW_A | .C_LOW_E | .C_LOW_F | .C_LOW_L
  | .C_LOW_N | .C_LOW_R | .C_LOW_S | .C_LOW_T | .C_LOW_U | .C_E => true
  | _ => false

theorem class_of_scalarChar : ∀ c : UInt8, isScalarChar c = true →
    (asciiClass c).map isScalarClass = some true := by decide

/-- The actions that begin a number or a literal, or go on with a number. -/
def setsScalar : Actions → Bool
  | .MX | .ZX | .IX | .NU | .FA | .TR | .DE | .DF => true
  | _ => false

/-- The table on such a character, outside strings and comments: in a state between two
tokens the character begins a token or is rejected. -/
theorem table_scalarClass : ∀ (s : States) (k : Classes), isScalarClass k = true →
    s.typeOk JSON_T_STRING = false → s.isComment = false →
    match transition s k with
    | .next _ => s.isResting = false
    | .act a => a = .xx ∨ s ≠ .OK ∧ setsScalar a = true := by
  intro s k hk hs hc
  have := forall_entries (P := fun s k e => !isScalarClass k || s.typeOk JSON_T_STRING ||
      s.isComment || match e with
    | .next _ => !s.isResting
    | .act a => a = .xx || (s ≠ .OK && setsScalar a)) (by decide) s k
  rw [hk, hs, hc] at this
  cases htr : transition s k with
  | next _ | act a => simpa [htr] using this

/-- A parser in the middle of a number or a literal, or after one. -/
def InScalar (p : Parser D) : Prop := p.type ≠ JSON_T_NONE ∧ p.type ≠ JSON_T_STRING

theorem typeOk_scalar : ∀ (s : States) (t : JSONType), s.typeOk t →
    t ≠ JSON_T_NONE → t ≠ JSON_T_STRING →
    s.typeOk JSON_T_STRING = false ∧ s.isComment = false ∧ s ≠ .EC ∧ s.isUnicode = false := by
  decide

theorem typeOk_resting : ∀ s : States, s.isResting →
    s.typeOk JSON_T_STRING = false ∧ s.isComment = false := by decide

/-- **One character of a token** begins the token or goes on with it. -/
theorem inScalar_step (hp : Live p) (h : InScalar p ∨ p.state.isResting)
    (hc : isScalarChar c = true) (hstep : parseAscii c p = .ok true q) : InScalar q := by
  have hs : p.state.typeOk JSON_T_STRING = false ∧ p.state.isComment = false := by
    rcases h with h | h
    · obtain ⟨h1, h2, -⟩ := typeOk_scalar _ _ hp.type h.1 h.2
      exact ⟨h1, h2⟩
    · exact typeOk_resting _ h
  obtain ⟨k, hk, -, hcase⟩ := parseAscii_eq_true hstep
  have hcla : isScalarClass k = true := by simpa [hk] using class_of_scalarChar c hc
  have htbl := table_scalarClass _ _ hcla hs.1 hs.2
  rcases hcase with ⟨s, htr, rfl⟩ | ⟨a, htr, hxx, hP⟩
  · rw [htr] at htbl
    have hin : InScalar p := h.resolve_right (by rw [htbl]; decide)
    obtain ⟨b, hb⟩ := fed_eq p c k
    rw [hb]
    exact hin
  · rw [htr] at htbl
    have hset : setsScalar a = true := (htbl.resolve_left hxx).2
    cases hP with
    | MX | ZX | IX | NU | FA | TR | DE | DF => exact ⟨nofun, nofun⟩
    | _ => cases hset

theorem run_scalarChar (hp : Live p) (h : InScalar p ∨ p.state.isResting)
    (hc : isScalarChar c = true) (hrun : run (c :: s) p = .ok () u) :
    ∃ q, Live q ∧ q.allowComments = p.allowComments ∧ InScalar q ∧ run s q = .ok () u := by
  obtain ⟨k, hk, -⟩ := Option.map_eq_some_iff.mp (class_of_scalarChar c hc)
  have hlt := lt_of_asciiClass hk
  rw [run_ascii hlt] at hrun
  split at hrun
  · next q hq =>
    have hstep : Step (p, c :: s) (q, s) := step_iff.mpr (.inl ⟨c, hlt, rfl, hq⟩)
    exact ⟨q, hp.step hstep, congrArg Settings.allowComments (step_settings hstep),
      inScalar_step hp h hc hq, hrun⟩
  · cases hrun
  · cases hrun

theorem run_scalarChars (hl : ∀ c ∈ l, isScalarChar c = true) :
    ∀ {p : Parser D}, Live p → InScalar p → run (l ++ s) p = .ok () u →
      ∃ q, Live q ∧ q.allowComments = p.allowComments ∧ InScalar q ∧ run s q = .ok () u := by
  induction l with
  | nil =>
    intro p hp h hrun
    exact ⟨p, hp, rfl, h, hrun⟩
  | cons c l ih =>
    intro p hp h hrun
    obtain ⟨q, hq, hac, hin, hrun⟩ := run_scalarChar hp (.inl h) (hl c mem_cons_self) hrun
    obtain ⟨q', hq', hac', h'⟩ := ih (fun x hx => hl x (mem_cons_of_mem _ hx)) hq hin hrun
    exact ⟨q', hq', hac'.trans hac, h'⟩

theorem slash_inside : ∀ (s : States) (t : JSONType), s.typeOk t → t ≠ JSON_T_NONE →
    t ≠ JSON_T_STRING →
    (transition s .C_SLASH = .act .CB ∨ transition s .C_SLASH = .act .xx) ∧
      ∀ m : Modes, s.modeOk t m → stateAfterComment m s = .OK := by decide

theorem run_comment (hp : Live p) (hac : p.allowComments = true) (h : InScalar p) (hx : IsComment x)
    (hrun : run (x ++ s) p = .ok () u) :
    ∃ q, q.state = .OK ∧ q.escaped = false ∧ run s q = .ok () u := by
  obtain ⟨-, hcm, hEC, huni⟩ := typeOk_scalar _ _ hp.type h.1 h.2
  obtain ⟨hesc, hcom, -⟩ := hp.flags hEC hcm huni
  obtain ⟨m, ms, hms⟩ := hp.exists_mode
  obtain ⟨htr, hst⟩ := slash_inside _ _ hp.type h.1 h.2
  -- the run goes on after the slash, so the buffer has been delivered
  obtain ⟨htr, l, hl⟩ : transition p.state .C_SLASH = .act .CB ∧ ∃ l, delivered p = .ok l := by
    obtain ⟨b, -, -, rfl⟩ := id hx
    rw [cons_append, run_ascii (by decide)] at hrun
    split at hrun
    · next q hq =>
      obtain ⟨k, hk, -, hcase⟩ := parseAscii_eq_true hq
      cases hk
      rcases htr with htr | htr
      · rcases hcase with ⟨s, hs, -⟩ | ⟨a, ha, -, hP⟩
        · cases htr.symm.trans hs
        · cases htr.symm.trans ha
          have happ : appended p 0x2F .C_SLASH = [0x2F] := by simp [appended, hcom]
          rw [fed_of_not_escaped hesc, happ] at hP
          cases hP with
          | CB _ _ hl => exact ⟨htr, _, by simpa using hl⟩
      · rcases hcase with ⟨s, hs, -⟩ | ⟨a, ha, hxx, -⟩
        · cases htr.symm.trans hs
        · cases htr.symm.trans ha
          exact absurd rfl hxx
    · cases hrun
    · cases hrun
  have hfeed := feeds_comment hac hesc hcom htr h.2 hms hl hx
  rw [run_reaches (hfeed s)] at hrun
  refine ⟨_, ?_, ?_, hrun⟩
  · exact hst m (hp.mode_of_state hcm hms)
  · exact hesc

theorem not_run_split (hp : Live p) (hac : p.allowComments = true) (h : Rests prev p A)
    {l₁ l₂ : Bytes} (hl₁ : ∀ c ∈ l₁, isScalarChar c = true)
    (hl₂ : ∀ c ∈ l₂, isScalarChar c = true) (hne₁ : l₁ ≠ []) (hne₂ : l₂ ≠ []) (hx : IsComment x)
    (r : Bytes) (u : Parser D) : run (l₁ ++ x ++ l₂ ++ r) p ≠ .ok () u := by
  intro hrun
  have hin : InScalar p ∨ p.state.isResting := by
    cases h with
    | plain hs => exact .inr hs
    | pending _ _ ht => exact .inl ht
  obtain ⟨c, l₁, rfl⟩ := exists_cons_of_ne_nil hne₁
  obtain ⟨d, l₂, rfl⟩ := exists_cons_of_ne_nil hne₂
  simp only [append_assoc, cons_append] at hrun
  obtain ⟨q₁, hq₁, hac₁, hin₁, hrun⟩ := run_scalarChar hp hin (hl₁ c mem_cons_self) hrun
  obtain ⟨q₂, hq₂, hac₂, hin₂, hrun⟩ :=
    run_scalarChars (fun x hx => hl₁ x (mem_cons_of_mem _ hx)) hq₁ hin₁ hrun
  obtain ⟨q₃, hst, hesc, hrun⟩ :=
    run_comment hq₂ (hac₂.trans (hac₁.trans hac)) hin₂ hx hrun
  obtain ⟨k, hk, hcla⟩ :=
    Option.map_eq_some_iff.mp (class_of_scalarChar d (hl₂ d mem_cons_self))
  have htbl := table_scalarClass .OK k hcla rfl rfl
  have htr : transition q₃.state k = .act .xx := by
    rw [hst]
    cases htr : transition .OK k with
    | next s =>
      rw [htr] at htbl
      cases htbl
    | act a =>
      rw [htr] at htbl
      rcases htbl with rfl | ⟨h, -⟩
      · rfl
      · exact absurd rfl h
  rw [run_ascii (lt_of_asciiClass hk),
    parseAscii_eq hk q₃ (ne_nil_of_not_escaped hesc), htr] at hrun
  cases hrun

theorem isScalarChar_digit : ∀ c : UInt8, isDecDigit c = true → isScalarChar c = true := by decide

theorem scalarChars_digits {ds : Bytes} (h : Digits ds) : ∀ c ∈ ds, isScalarChar c = true :=
  fun c hc => isScalarChar_digit c (h c hc)

theorem isScalarChar_e : ∀ c : UInt8, isE c = true → isScalarChar c = true := by decide

theorem scalarChars_integer (h : IsInteger l) : ∀ c ∈ l, isScalarChar c = true := by
  obtain ⟨neg, ds, -, hds, rfl⟩ := IsInteger.eq_append h
  refine forall_mem_append.mpr ⟨?_, scalarChars_digits hds⟩
  cases neg <;> decide

theorem scalarChars_frac (h : IsFrac f) : ∀ c ∈ f, isScalarChar c = true := by
  obtain ⟨ds, -, hds, rfl⟩ := h
  exact forall_mem_cons.mpr ⟨rfl, scalarChars_digits hds⟩

theorem scalarChars_exp (h : IsExp x) : ∀ c ∈ x, isScalarChar c = true := by
  obtain ⟨e, g, ds, he, hg, -, hds, rfl⟩ := h
  refine forall_mem_cons.mpr ⟨isScalarChar_e e he,
    forall_mem_append.mpr ⟨?_, scalarChars_digits hds⟩⟩
  rcases hg with rfl | rfl | rfl <;> decide

theorem scalarChars_of_spelled {e : Callback D} (h : Spelled (.scalar e) l) :
    ∀ c ∈ l, isScalarChar c = true := by
  cases h with
  | false => decide
  | null => decide
  | true => decide
  | integer h => exact scalarChars_integer h
  | float h =>
    rcases h with ⟨i, f, hi, hf, rfl⟩ | ⟨a, x, ⟨i, f, hi, hf, rfl⟩, hx, rfl⟩
    · exact forall_mem_append.mpr ⟨scalarChars_integer hi, scalarChars_frac hf⟩
    · refine forall_mem_append.mpr ⟨forall_mem_append.mpr ⟨scalarChars_integer hi, ?_⟩,
        scalarChars_exp hx⟩
      rcases hf with rfl | hf
      · simp
      · exact scalarChars_frac hf

/-! ### Texts with comments -/

def Commented (D : Type) [StrToDouble D] (s s' : Bytes) : Prop :=
  ∃ (ls : List Bytes) (l : List (Callback D)), Reads .start ls ⟨.OK, [.MODE_DONE], l⟩ ∧
    WsSpaced ls s ∧ Spaced CommentGap [] ls s'

def SplitByComment (D : Type) [StrToDouble D] (s : Bytes) : Prop :=
  ∃ (ls : List Bytes) (A : Config D) (g l₁ x l₂ : Bytes) (c : Callback D),
    Reads .start ls A ∧ Spaced CommentGap [] ls g ∧ Spelled (.scalar c) (l₁ ++ l₂) ∧ l₁ ≠ [] ∧
      l₂ ≠ [] ∧ IsComment x ∧ s = g ++ l₁ ++ x ++ l₂

theorem not_accepts_of_atZeroExp (hp : Live p) (h : Reaches (p, s) (q, r))
    (hat : AtZeroExp q r) : ¬ accepts p s := by
  obtain ⟨hZE, e, r, he, rfl⟩ := hat
  have hq := hp.reaches h
  have hesc : q.escaped = false := by rw [hq.escaped, hZE]; rfl
  rcases asciiClass_e e he with hk | hk
  · exact not_accepts_of_xx h (ne_nil_of_not_escaped hesc) hk (by rw [hZE]; rfl)
  · exact not_accepts_of_xx h (ne_nil_of_not_escaped hesc) hk (by rw [hZE]; rfl)

/-- **Comments.**  If comments are allowed, an accepted text is accepted with comments
between its tokens, and has the same value; a text with a comment inside a token is
rejected, whatever follows. -/
theorem comments_transparent :
    (∀ s s', Commented D s s' → accepts (fresh { allowComments := true } : Parser D) s →
      ∃ v q q', parse s (fresh { allowComments := true } : Parser D) = .ok v q ∧
        parse s' (fresh { allowComments := true } : Parser D) = .ok v q') ∧
    ∀ s r, SplitByComment D s →
      ¬ accepts (fresh { allowComments := true } : Parser D) (s ++ r) := by
  have hlive : Live (fresh { allowComments := true } : Parser D) := live_fresh true
  have hrest : Rests [] (fresh { allowComments := true } : Parser D) .start := rests_fresh true
  constructor
  · rintro s s' ⟨ls, l, hrd, hs, hs'⟩ hacc
    have hz : ∀ x ∈ ls, ¬ ZeroExp x := by
      intro x hx hzx
      obtain ⟨q, r, hrch, hat⟩ := atZeroExp_of_reads (fun hw hp _ h => h.ws hw hp) hrd hlive
        rfl hrest hs ⟨x, hx, hzx⟩ []
      rw [append_nil] at hrch
      exact not_accepts_of_atZeroExp hlive hrch hat hacc
    obtain ⟨_, q, hfeed, hq⟩ :=
      Rests.reads (fun hw hp _ h => h.ws hw hp) hrd hlive rfl hrest hs hz
    obtain ⟨_, q', hfeed', hq'⟩ :=
      Rests.reads (fun hw hp hac h => h.commentGap hw hp hac) hrd hlive rfl hrest hs' hz
    obtain ⟨u, hu, -⟩ := parse_of_rests hlive hfeed hq
    obtain ⟨u', hu', -⟩ := parse_of_rests hlive hfeed' hq'
    exact ⟨_, u, u', hu, hu'⟩
  · rintro s r ⟨ls, A, g, l₁, x, l₂, c, hrd, hg, hl, hne₁, hne₂, hx, rfl⟩ hacc
    rw [append_assoc, append_assoc, append_assoc] at hacc
    by_cases hz : ∃ y ∈ ls, ZeroExp y
    · obtain ⟨q, r, hrch, hat⟩ := atZeroExp_of_reads
        (fun hw hp hac h => h.commentGap hw hp hac) hrd hlive rfl hrest hg hz
        (l₁ ++ (x ++ (l₂ ++ r)))
      exact not_accepts_of_atZeroExp hlive hrch hat hacc
    obtain ⟨prev, q, hfeed, hq⟩ := Rests.reads (fun hw hp hac h => h.commentGap hw hp hac) hrd
      hlive rfl hrest hg fun y hy hzy => hz ⟨y, hy, hzy⟩
    obtain ⟨u, hrun, -⟩ := accepts_iff.mp hacc
    rw [run_reaches (hfeed _)] at hrun
    have hchs := scalarChars_of_spelled hl
    refine not_run_split (hfeed.live hlive) hfeed.allowComments hq
      (fun c hc => hchs c (mem_append_left _ hc))
      (fun c hc => hchs c (mem_append_right _ hc)) hne₁ hne₂ hx r u ?_
    simpa using hrun

/-- The text `[true]` and ` /**/[ /* a* */true /**/]`; and the text `[tr/**/ue]`. -/
theorem comments_transparent_true :
    (∃ v q q',
      parse [0x5B, 0x74, 0x72, 0x75, 0x65, 0x5D]
        (fresh { allowComments := true } : Parser Bytes) = .ok v q ∧
      parse [0x20, 0x2F, 0x2A, 0x2A, 0x2F, 0x5B, 0x20, 0x2F, 0x2A, 0x20, 0x61, 0x2A, 0x20, 0x2A,
          0x2F, 0x74, 0x72, 0x75, 0x65, 0x20, 0x2F, 0x2A, 0x2A, 0x2F, 0x5D]
        (fresh { allowComments := true } : Parser Bytes) = .ok v q') ∧
    ¬ accepts (fresh { allowComments := true } : Parser Bytes)
      [0x5B, 0x74, 0x72, 0x2F, 0x2A, 0x2A, 0x2F, 0x75, 0x65, 0x5D] := by
  have hemp : IsComment [0x2F, 0x2A, 0x2A, 0x2F] := ⟨[], by decide, by decide, rfl⟩
  have hcom : IsComment [0x2F, 0x2A, 0x20, 0x61, 0x2A, 0x20, 0x2A, 0x2F] :=
    ⟨[0x20, 0x61, 0x2A, 0x20], by decide, by decide, rfl⟩
  have hopen : Reads (D := Bytes) .start [[0x5B]]
      ⟨.AR, [.MODE_ARRAY, .MODE_DONE], [.startArray]⟩ :=
    reads_one .beginArray (.beginArray (.inl rfl))
  constructor
  · refine comments_transparent.1 _ _ ⟨[[0x5B], [0x74, 0x72, 0x75, 0x65], [0x5D]],
      [.startArray, .bool true, .endArray], ?_, ?_, ?_⟩ ⟨_, _, rfl⟩
    · exact (hopen.concat .true (.scalar (.inr rfl) (.inl rfl))).concat .endArray
        (.endArray (.inr rfl))
    · exact wsSpaced_append (wsSpaced_one [0x5B])
        (wsSpaced_append (wsSpaced_one [0x74, 0x72, 0x75, 0x65]) (wsSpaced_one [0x5D]))
    · have hgap : ∀ {x : Bytes} (prev : Bytes), IsComment x →
          CommentGap prev (0x20 :: (x ++ [])) :=
        fun _ hx => ⟨.space rfl (.comment hx .nil), by simp⟩
      exact .cons (hgap _ hemp) (.cons (hgap _ hcom) (.cons (hgap _ hemp)
        (.nil ⟨.nil, by simp⟩)))
  · refine comments_transparent.2 [0x5B, 0x74, 0x72, 0x2F, 0x2A, 0x2A, 0x2F, 0x75, 0x65] [0x5D]
      ⟨[[0x5B]], _, [0x5B], [0x74, 0x72], [0x2F, 0x2A, 0x2A, 0x2F], [0x75, 0x65], .bool true,
        hopen, ?_, .true, by simp, by simp, hemp, rfl⟩
    exact .cons (w := []) ⟨.nil, by simp⟩ (.nil ⟨.nil, by simp⟩)

/-- A comment that contains the byte `0x01` is not skipped. -/
theorem comment_not_transparent :
    accepts (fresh { allowComments := true } : Parser Bytes) [0x5B, 0x5D] ∧
      ¬ accepts (fresh { allowComments := true } : Parser Bytes)
        [0x5B, 0x2F, 0x2A, 0x01, 0x2A, 0x2F, 0x5D] := by
  refine ⟨⟨_, _, rfl⟩, ?_⟩
  rintro ⟨v, q, h⟩
  cases h

end Parser

end Poco.JSON
