import Poco.JSON.Invariant

/-!
# The assertions of the JSON parser

A byte above the ASCII range that is read inside a comment or between the digits of a unicode
escape is appended to the buffer in a state that does not expect it, and assertions fail: that
the buffer is empty at the end of a comment, and that its last four bytes are hexadecimal digits.

## Main definitions

* `Safe`: the invariant that the assertions rest on.
* `RawOk`: no such byte is read in the round.

## Main results

* `Safe.noAssert_perform`: no action trips an assertion.
* `parse_no_assertion`: no input does, with unlimited depth and under `RawOk`.
-/

namespace Poco.JSON

open List Modes JSONType

def States.hexRead : States → Option ℕ
  | .U1 => some 0
  | .U2 => some 1
  | .U3 => some 2
  | .U4 => some 3
  | _ => none

def Classes.isHex : Classes → Bool
  | .C_ZERO | .C_DIGIT | .C_LOW_A | .C_LOW_B | .C_LOW_C | .C_LOW_D | .C_LOW_E | .C_LOW_F
  | .C_ABCDF | .C_E => true
  | _ => false

theorem hexRead_next : ∀ (s : States) (k : Classes) (s' : States), transition s k = .next s' →
    (∀ n, s'.hexRead = some n →
      (n = 0 ∧ (s = .EC ∨ s = .D2) ∧ k = .C_LOW_U) ∨
        ∃ m, n = m + 1 ∧ s.hexRead = some m ∧ k.isHex) ∧ (s' = .D2 → s = .D1 ∧ k = .C_BACKS) := by
  intro s k s' h
  have hk := forall_entries (P := fun s k e => match e with
    | .act _ => true
    | .next s' => (match s'.hexRead with
      | none => true
      | some 0 => decide ((s = .EC ∨ s = .D2) ∧ k = .C_LOW_U)
      | some (m + 1) => decide (s.hexRead = some m ∧ k.isHex)) &&
        decide (s' = .D2 → s = .D1 ∧ k = .C_BACKS)) (by decide) s k
  rw [h] at hk
  simp only [Bool.and_eq_true, decide_eq_true_eq] at hk
  refine ⟨fun n hn => ?_, hk.2⟩
  have h1 := hk.1
  rw [hn] at h1
  cases n with
  | zero => exact .inl ⟨rfl, of_decide_eq_true h1⟩
  | succ m => exact .inr ⟨m, rfl, of_decide_eq_true h1⟩

theorem isHex_of_UC : ∀ (s : States) (k : Classes), transition s k = .act .UC → k.isHex := by
  intro s k h
  exact forall_act (P := fun _ k a => a = .UC → k.isHex) (by decide) s k _ h rfl

theorem hexDigit_lt : ∀ (c : UInt8) (k : Classes), asciiClass c = some k → k.isHex →
    Parser.hexDigit c < 16 := by
  apply forall_class
  decide

theorem eq_of_class_u : ∀ c : UInt8, asciiClass c = some .C_LOW_U → c = 0x75 := by decide

namespace Parser

variable {D : Type}

structure Safe (p : Parser D) : Prop extends Inv p where
  unlimited : p.depth < 0
  size : p.stack.length ≤ p.stackSize
  /-- Nothing is kept of a comment. -/
  commentBuffer : p.state.isComment → p.buffer = []
  /-- The backslash of a second escape is in the buffer. -/
  second : p.state = .D2 → p.buffer ≠ []
  /-- So are the begin of a unicode escape and the digits that have been read. -/
  hex : ∀ n, p.state.hexRead = some n →
    ∃ b ds, p.buffer = b ++ ds ∧ 2 ≤ b.length ∧ ds.length = n ∧ ∀ d ∈ ds, hexDigit d < 16

theorem safe_fresh (σ : Settings) (h : σ.depth < 0) : Safe (fresh σ : Parser D) :=
  { inv_fresh σ with
    unlimited := h
    size := by simp [fresh, JSON_PARSER_STACK_SIZE]
    commentBuffer := nofun
    second := nofun
    hex := nofun }

variable {p q : Parser D} {c : UInt8} {k : Classes}

theorem Inv.fed_string (hp : Inv p) (he : p.state ≠ .EC) (ht : p.type = JSON_T_STRING)
    (hc : p.state.isComment = false) (c : UInt8) (k : Classes) :
    (fed p c k).buffer = p.buffer ++ [c] := by
  have hcom : p.comment = false := by rw [hp.comment, hc]
  rw [fed_of_not_escaped (by simpa [he] using hp.escaped)]
  simp [appended, ht, hcom]

theorem Safe.hex_next (hp : Safe p) (hk : asciiClass c = some k)
    (ht : transition p.state k = .next s) (hn : s.hexRead = some n) :
    ∃ b ds, (fed p c k).buffer = b ++ ds ∧ 2 ≤ b.length ∧ ds.length = n ∧
      ∀ d ∈ ds, hexDigit d < 16 := by
  rcases (hexRead_next _ _ _ ht).1 n hn with ⟨rfl, hs, rfl⟩ | ⟨m, rfl, hm, hhex⟩
  · obtain rfl := eq_of_class_u c hk
    rcases hs with hs | hs
    · -- the escape begins: the backslash is replaced by a backslash and `u`
      have hesc : p.escaped = true := by simpa [hs] using hp.escaped
      refine ⟨(fed p 0x75 .C_LOW_U).buffer, [], by simp, ?_, rfl, (by simp)⟩
      simp [fed, hesc, escapeBytes]
    have htype : p.type = JSON_T_STRING := by simpa [hs, States.typeOk] using hp.type
    refine ⟨p.buffer ++ [0x75], [], ?_, ?_, rfl, (by simp)⟩
    · rw [hp.fed_string (by simp [hs]) htype (by rw [hs]; rfl), append_nil]
    · have := length_pos_iff.mpr (hp.second hs)
      simp only [length_append, length_singleton]
      omega
  · obtain ⟨b, ds, hb, h2, hlen, hds⟩ := hp.hex m hm
    have hst : p.state ≠ .EC ∧ p.state.isComment = false ∧ p.type = JSON_T_STRING := by
      have key : ∀ s : States, ∀ t : JSONType, s.hexRead.isSome → s.typeOk t →
          s ≠ .EC ∧ s.isComment = false ∧ t = JSON_T_STRING := by decide
      exact key _ _ (by rw [hm]; rfl) hp.type
    refine ⟨b, ds ++ [c], ?_, h2, by simp [hlen], ?_⟩
    · rw [hp.fed_string hst.1 hst.2.2 hst.2.1, hb, append_assoc]
    · exact forall_mem_append.mpr ⟨hds, forall_mem_singleton.mpr (hexDigit_lt c k hk hhex)⟩

variable [StrToDouble D]

omit [StrToDouble D] in
theorem Safe.next (hp : Safe p) (hk : asciiClass c = some k)
    (ht : transition p.state k = .next s) : Safe { fed p c k with state := s } := by
  have hinv := hp.toInv.next (c := c) ht
  have hhex := fun n hn => hp.hex_next (n := n) hk ht hn
  have hcom : s.isComment → (fed p c k).buffer = [] := by
    intro h
    have hok := next_ok _ _ _ ht
    simp only [States.nextOk, decide_eq_true_eq] at hok
    rw [hok.2.2.2.1] at h
    have hst : p.state ≠ .EC := by
      rintro hs
      rw [hs] at h
      cases h
    rw [fed_of_not_escaped (by simpa [hst] using hp.escaped)]
    simp [appended, hp.comment, h, hp.commentBuffer h]
  have h2nd : s = .D2 → (fed p c k).buffer ≠ [] := by
    intro h
    have hs := ((hexRead_next _ _ _ ht).2 h).1
    have htype : p.type = JSON_T_STRING := by simpa [hs, States.typeOk] using hp.type
    rw [hp.fed_string (by simp [hs]) htype (by rw [hs]; rfl)]
    simp
  obtain ⟨b, hb⟩ := fed_eq p c k
  rw [hb] at hinv hhex hcom h2nd ⊢
  exact { hinv with
    unlimited := hp.unlimited
    size := hp.size
    commentBuffer := hcom
    second := h2nd
    hex := hhex }

theorem Performed.state (h : Performed a p q) :
    q.state.hexRead = none ∧ q.state ≠ .D2 ∨ a = .CE ∧ q.state = p.beforeCommentState := by
  cases h with
  | @UC _ bs hi =>
    by_cases hhi : hi = 0
    · simp [hhi, States.hexRead]
    · simp [hhi, States.hexRead]
  | CE => exact .inr ⟨rfl, rfl⟩
  | _ => exact .inl ⟨rfl, nofun⟩

theorem Safe.ascii (hp : Safe p) (h : parseAscii c p = .ok true q) : Safe q := by
  have hinv := hp.toInv.ascii h
  obtain ⟨k, hk, -, ⟨s, ht, rfl⟩ | ⟨a, ht, hxx, hP⟩⟩ := parseAscii_eq_true h
  · exact hp.next hk ht
  obtain ⟨hfed, -⟩ := hp.toInv.fed_act (c := c) ht hxx
  rw [hfed] at hP
  obtain ⟨hdep, hsize⟩ := hP.size hp.size
  have hrest : a = .CE → p.beforeCommentState.isResting := by
    rintro rfl
    have hs : p.state = .C3 := by simpa [Actions.from] using (act_from _ _ _ ht hxx).1
    exact hp.resting (by rw [hs]; rfl)
  have hq : q.state.hexRead = none ∧ q.state ≠ .D2 := by
    rcases hP.state with hq | ⟨rfl, hq⟩
    · exact hq
    · have key : ∀ s : States, s.isResting → s.hexRead = none ∧ s ≠ .D2 := by decide
      rw [hq]
      exact key _ (hrest rfl)
  refine { hinv with
    unlimited := hdep ▸ hp.unlimited
    size := hsize
    commentBuffer := ?_
    second := fun h => absurd h hq.2
    hex := fun n hn => by rw [hq.1] at hn; cases hn }
  intro hcm
  cases hP with
  | CB => rfl
  | CE =>
    have := (resting_typeOk _ (hrest rfl)).2.2
    rw [this] at hcm
    cases hcm
  | @UC _ bs hi =>
    by_cases hhi : hi = 0 <;> simp [hhi, States.isComment] at hcm
  | _ => cases hcm

/-! ### No assertion fails -/

def NoAssert {α : Type} : EStateM.Result Exception (Parser D) α → Prop
  | .error (.AssertionViolationException _) _ => False
  | _ => True

theorem noAssert_flushed (h : p.type = JSON_T_FLOAT → p.buffer ≠ [])
    {f : List (Callback D) → Result D} (hf : ∀ l, NoAssert (f l)) :
    NoAssert (flushed { p with buffer := p.buffer ++ [c] } f) := by
  rw [flushed, if_neg (by simp)]
  simp only [dropLast_concat]
  cases hd : delivered p with
  | ok l => exact hf l
  | error e =>
    unfold delivered at hd
    split at hd
    · unfold bufferValue at hd
      cases ht : p.type with
      | JSON_T_FLOAT =>
        rw [ht] at hd
        unfold floatValue at hd
        obtain ⟨c, hc⟩ : ∃ c, p.buffer.getLast? = some c :=
          ⟨_, getLast?_eq_getLast_of_ne_nil (h ht)⟩
        simp only [hc] at hd
        split at hd
        · cases hd; trivial
        · split at hd <;> cases hd
          trivial
      | JSON_T_INTEGER =>
        rw [ht] at hd
        unfold integerValue at hd
        dsimp only at hd
        split at hd
        · split at hd <;> cases hd
        · split at hd
          · split at hd <;> cases hd
          · cases hd; trivial
      | _ => rw [ht] at hd; cases hd
    · cases hd

omit [StrToDouble D] in
theorem Safe.stackSize_pos (hp : Safe p) : 0 < p.stackSize := by
  obtain ⟨m, ms, hs⟩ := hp.exists_mode
  have := hp.size
  rw [hs, length_cons] at this
  omega

theorem Safe.noAssert_UC (hp : Safe p) (hk : asciiClass c = some k)
    (ht : transition p.state k = .act .UC) :
    NoAssert (perform .UC { p with buffer := p.buffer ++ [c] }) := by
  have hs : p.state = .U4 := by
    simpa [Actions.from] using (act_from _ _ _ ht (by simp)).1
  obtain ⟨b, ds, hb, h2, hlen, hds⟩ := hp.hex 3 (by rw [hs]; rfl)
  have hd4 : (p.buffer ++ [c]).drop ((p.buffer ++ [c]).length - 4) = ds ++ [c] := by
    rw [hb, append_assoc]
    exact drop_left' (by simp; omega)
  rw [perform_UC, decodeUnicodeChar_eq]
  simp only [hd4]
  have h6 : ¬ (p.buffer ++ [c]).length < 6 := by
    rw [hb]
    simp
    omega
  have hall : (ds ++ [c]).all fun c => hexDigit c < 16 := by
    simp only [all_append, all_cons, all_nil, Bool.and_true, Bool.and_eq_true,
      all_eq_true, decide_eq_true_eq]
    exact ⟨hds, hexDigit_lt c k hk (isHex_of_UC _ _ ht)⟩
  rw [if_neg h6, if_neg (not_not.mpr hall)]
  split_ifs
  · trivial
  · cases decoded p.utf16HighSurrogate (hexValue (ds ++ [c])) <;> trivial

theorem Safe.noAssert_perform (hp : Safe p) {a : Actions} (hk : asciiClass c = some k)
    (ht : transition p.state k = .act a) : NoAssert (perform a (fed p c k)) := by
  by_cases hxx : a = .xx
  · subst hxx
    trivial
  obtain ⟨hfed, happ⟩ := hp.toInv.fed_act (c := c) ht hxx
  have hf := (act_from _ _ _ ht hxx).1
  by_cases hCE : a = .CE
  · subst hCE
    have hs : p.state = .C3 := by simpa [Actions.from] using hf
    have hcm : p.state.isComment = true := by rw [hs]; rfl
    have htype : p.type = JSON_T_NONE := by simpa [hs, States.typeOk] using hp.type
    have hbuf : p.buffer ++ appended p c k = [] := by
      simp [hp.commentBuffer hcm, appended, hp.comment, hcm]
    rw [hfed, perform, endComment_eq]
    simp [hbuf, htype, NoAssert]
  rw [hfed, happ hCE]
  have hne : p.buffer ++ [c] ≠ [] := by simp
  have hdrop : (p.buffer ++ [c]).dropLast = p.buffer := dropLast_concat
  have hflo : p.type = JSON_T_FLOAT → p.buffer ≠ [] := fun h => hp.number (.inr h)
  obtain ⟨m, ms, hstk⟩ := hp.exists_mode
  have htype := Actions.typeOk_of_from a _ hf _ hp.type
  have hsize := hp.size
  have hpos := hp.stackSize_pos
  cases a with
  | xx => exact absurd rfl hxx
  | CE => exact absurd rfl hCE
  | UC => exact hp.noAssert_UC hk ht
  | EX => rw [perform_EX]; trivial
  | MX | ZX | IX => rw [perform, beginType_eq]; trivial
  | DE | DF =>
    have hint : p.type = JSON_T_INTEGER := of_decide_eq_true htype
    rw [perform, beginFloat_eq]
    simp [hint, NoAssert]
  | SB =>
    have hnone : p.type = JSON_T_NONE := of_decide_eq_true htype
    rw [perform_SB]
    simp [hnone, NoAssert]
  | NU | FA | TR =>
    have hnone : p.type = JSON_T_NONE := of_decide_eq_true htype
    rw [perform, beginLiteral_eq]
    simp [hnone, NoAssert]
  | CB =>
    have hns : p.type ≠ JSON_T_STRING := of_decide_eq_true htype
    rw [perform, beginComment_eq]
    by_cases hc : p.allowComments = false
    · rw [if_pos hc]
      trivial
    · rw [if_neg hc]
      refine noAssert_flushed hflo fun l => ?_
      simp [hns, hstk, NoAssert]
  | m9 => rw [perform_m9]; split <;> trivial
  | m8 | m7 =>
    rw [perform, endContainer_eq]
    refine noAssert_flushed hflo fun l => ?_
    split <;> trivial
  | m6 | m5 =>
    have hnone : p.type = JSON_T_NONE := of_decide_eq_true htype
    rw [perform, beginContainer_eq, if_neg hne]
    dsimp only
    rw [pushed_of_canPush (canPush_unlimited hp.unlimited hsize hpos)]
    simp [hnone, NoAssert]
  | m4 =>
    have hstr : p.type = JSON_T_STRING := of_decide_eq_true htype
    rw [perform, endString_eq, if_neg hne, hstk]
    cases m <;> simp [hstr, NoAssert]
  | m3 =>
    have hns : p.type ≠ JSON_T_STRING := of_decide_eq_true htype
    rw [perform, comma_eq]
    refine noAssert_flushed hflo fun l => ?_
    cases m with
    | MODE_OBJECT =>
      have hms : ms.length ≤ p.stackSize := by
        rw [hstk, length_cons] at hsize
        omega
      simp only [hstk, pushed_of_canPush (canPush_unlimited hp.unlimited hms hpos)]
      simp [hns, NoAssert]
    | MODE_ARRAY => simp [hstk, hns, NoAssert]
    | _ => simp [hstk, NoAssert]
  | m2 =>
    have hnone : p.type = JSON_T_NONE := of_decide_eq_true htype
    have htail : p.stack.tail.length ≤ p.stackSize := by
      rw [length_tail]
      omega
    rw [perform, colon_eq, if_neg hne]
    simp only [hdrop, pushed_of_canPush (canPush_unlimited hp.unlimited htail hpos)]
    by_cases hkey : p.stack.head? = some MODE_KEY
    · simp [hkey, hnone, NoAssert]
    · simp [hkey, NoAssert]

theorem Safe.noAssert_ascii (hp : Safe p) (c : UInt8) : NoAssert (parseAscii c p) := by
  cases hk : asciiClass c with
  | none => rw [parseAscii_none hk]; trivial
  | some k =>
    have hbs : p.escaped = true → p.buffer ≠ [] := fun h =>
      hp.backslash (by simpa [hp.escaped] using h)
    rw [parseAscii_eq hk p hbs]
    cases ht : transition p.state k with
    | next s => trivial
    | act a => exact hp.noAssert_perform hk ht

/-! ### Runs -/

def RawOk (p : Parser D) : Bytes → Prop
  | [] => True
  | c :: _ => 0x80 ≤ c →
    p.state.isComment = false ∧ p.state ≠ .U2 ∧ p.state ≠ .U3 ∧ p.state ≠ .U4

instance (p : Parser D) : ∀ s : Bytes, Decidable (RawOk p s)
  | [] => inferInstanceAs (Decidable True)
  | _ :: _ => inferInstanceAs (Decidable (_ → _))

omit [StrToDouble D] in
theorem Safe.raw (hp : Safe p) {bs : Bytes}
    (hraw : p.state.isComment = false ∧ p.state ≠ .U2 ∧ p.state ≠ .U3 ∧ p.state ≠ .U4) :
    Safe { p with buffer := p.buffer ++ bs } :=
  { hp.toInv.raw bs with
    unlimited := hp.unlimited
    size := hp.size
    commentBuffer := fun h => by rw [hraw.1] at h; cases h
    second := fun h => by simp [hp.second h]
    hex := fun n hn => by
      have hU1 : n = 0 := by
        have key : ∀ s : States, s ≠ .U2 → s ≠ .U3 → s ≠ .U4 → s.hexRead.getD 0 = 0 := by decide
        have := key _ hraw.2.1 hraw.2.2.1 hraw.2.2.2
        rwa [show p.state.hexRead = some n from hn] at this
      subst hU1
      obtain ⟨b, ds, hb, h2, hlen, -⟩ := hp.hex 0 hn
      obtain rfl : ds = [] := length_eq_zero_iff.mp hlen
      exact ⟨b ++ bs, [], by simp [hb], by simp; omega, rfl, (by simp)⟩ }

theorem Safe.reaches (hp : Safe p)
    (hraw : ∀ q r, Reaches (p, s) (q, r) → RawOk q r) (h : Reaches (p, s) (q, r)) : Safe q := by
  have key : ∀ {y : Parser D × Bytes}, Reaches (p, s) y → Safe y.1 := by
    intro y hy
    induction hy with
    | refl => exact hp
    | @tail x y hx hxy ih =>
      rcases step_iff.mp hxy with ⟨c, -, -, h⟩ | ⟨bs, hl, hs, hq⟩
      · exact ih.ascii h
      · obtain ⟨lead, rest, rfl, hc, -⟩ := hl
        have hok := hraw _ _ hx
        rw [hs] at hok
        rw [hq]
        exact ih.raw (hok hc)
  exact key h

/-- **No input trips an assertion**, with any settings but a limited depth, as long as no
byte above the ASCII range is read inside a comment or between the digits of a unicode
escape. -/
theorem parse_no_assertion (σ : Settings) (hσ : σ.depth < 0) (s : Bytes)
    (hraw : ∀ q r, Reaches ((fresh σ : Parser D), s) (q, r) → RawOk q r) :
    NoAssert (parse s (fresh σ : Parser D)) := by
  have hsafe : ∀ {q : Parser D} {r}, Reaches (fresh σ, s) (q, r) → Safe q := fun h =>
    (safe_fresh σ hσ).reaches hraw h
  rw [parse_eq]
  rcases run_cases s (fresh σ : Parser D) with ⟨q, -, hq⟩ | ⟨p', c, r, q, e, hrch, hq, hend⟩
  · rw [hq]
    dsimp only
    split <;> trivial
  rw [hq]
  rcases hend with hend | ⟨rfl, -⟩
  · rcases UInt8.lt_or_le c 0x80 with hc | hc
    · have hna := (hsafe hrch).noAssert_ascii c
      rw [parseChar_ascii hc] at hend
      cases ha : parseAscii c p' with
      | ok b q' => rw [ha] at hend; cases hend
      | error e' q' =>
        rw [ha] at hend hna
        cases hend
        cases e with
        | AssertionViolationException a => exact hna.elim
        | JSONException | SyntaxException => trivial
    · -- the raw path reports malformed sequences by a `JSONException`
      rw [parseChar_raw hc] at hend
      unfold readSequence at hend
      dsimp only at hend
      split_ifs at hend <;> cases hend <;> trivial
  · trivial

/-- The bytes of `["\u00e9/é"]`. -/
theorem parse_no_assertion_string :
    NoAssert (parse [0x5B, 0x22, 0x5C, 0x75, 0x30, 0x30, 0x65, 0x39, 0x2F, 0xC3, 0xA9, 0x22, 0x5D]
      (fresh {} : Parser Bytes)) := by
  refine parse_no_assertion {} (by decide) _ fun q r h => ?_
  exact (show ∀ y ∈ trace 13 (fresh {}) _, RawOk y.1 y.2 by decide) _ (mem_trace le_rfl h)

/-- The condition is needed in both its parts: `[/*é*/]` fails the assertion that the buffer
is empty at the end of a comment, and `["\u00é41"]` the one on hexadecimal digits. -/
theorem parse_assertion_fails :
    ¬ NoAssert (parse [0x5B, 0x2F, 0x2A, 0xC3, 0xA9, 0x2A, 0x2F, 0x5D]
        (fresh { allowComments := true } : Parser Bytes)) ∧
    ¬ NoAssert (parse [0x5B, 0x22, 0x5C, 0x75, 0x30, 0x30, 0xC3, 0xA9, 0x34, 0x31, 0x22, 0x5D]
        (fresh {} : Parser Bytes)) :=
  ⟨id, id⟩

end Parser

end Poco.JSON
