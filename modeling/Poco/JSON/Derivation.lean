import Poco.JSON.Token

/-!
# The grammar and the token machine

One direction is by induction on the derivation.  For the other, `Upto` says what has been read
of each container that is still open; a token extends it.

## Main definitions

* `Yields`: the lexemes of a text take the machine from one configuration to the other, for every
  pair in the relation, and make the given callbacks on the way.
* `Opens`: the text up to an opening bracket, with the stack before the bracket.
* `Upto`: the texts that lead to a configuration.

## Main results

* `Upto.token`, `Upto.reads`: the text up to the configuration after a token, and after a run.
* `isText_iff`: a text is derivable over the supported lexicon exactly if its lexemes take the
  machine to the end of a text.
-/

namespace Poco.JSON

open List Grammar Modes

variable {D : Type} [StrToDouble D]

/-! ### From the grammar to the machine -/

def Yields (s : Bytes) (es : List (Callback D))
    (P : States → List Modes → List Modes → Prop) : Prop :=
  ∃ ls : List Bytes, WsSpaced ls s ∧
    ∀ p ms ms' l, P p ms ms' → Reads ⟨p, ms, l⟩ ls ⟨.OK, ms', l ++ es⟩

/-- Where a value can stand. -/
def AtValue (p : States) (ms ms' : List Modes) : Prop :=
  (p = .VA ∨ p = .AR) ∧ (∃ m ms₀, (m = MODE_ARRAY ∨ m = MODE_OBJECT) ∧ ms = m :: ms₀) ∧ ms' = ms

def AtContainer (p : States) (ms ms' : List Modes) : Prop :=
  (p = .GO ∨ p = .VA ∨ p = .AR) ∧ ms' = ms

def AtMember (p : States) (ms ms' : List Modes) : Prop :=
  (p = .OB ∨ p = .KE) ∧ ∃ ms₀, ms = MODE_KEY :: ms₀ ∧ ms' = MODE_OBJECT :: ms₀

def AtElement (p : States) (ms ms' : List Modes) : Prop :=
  (p = .VA ∨ p = .AR) ∧ (∃ ms₀, ms = MODE_ARRAY :: ms₀) ∧ ms' = ms

variable {b v w : Bytes} {es : List (Callback D)}

variable {k s t : Bytes}

theorem Yields.ws_append {P : States → List Modes → List Modes → Prop} (hw : Ws w)
    (h : Yields s es P) : Yields (w ++ s) es P := by
  obtain ⟨ls, hls, h⟩ := h
  exact ⟨ls, wsSpaced_ws_append hw hls, h⟩

theorem yields_scalar {c : Callback D} (h : Spelled (.scalar c) v) : Yields v [c] AtValue := by
  refine ⟨[v], wsSpaced_one v, ?_⟩
  rintro p ms ms' l ⟨hp, ⟨m, ms₀, hm, rfl⟩, rfl⟩
  exact reads_one h (.scalar hp hm)

theorem yields_string (h : Spelled (.string b : Token D) v) :
    Yields v ([.string b] : List (Callback D)) AtValue := by
  refine ⟨[v], wsSpaced_one v, ?_⟩
  rintro p ms ms' l ⟨hp, ⟨m, ms₀, hm, rfl⟩, rfl⟩
  exact reads_one h (.string hp hm)

theorem Yields.atValue (h : Yields v es AtContainer) : Yields v es AtValue := by
  obtain ⟨ls, hls, h⟩ := h
  exact ⟨ls, hls, fun p ms ms' l hP => h p ms ms' l ⟨.inr hP.1, hP.2.2⟩⟩

theorem Yields.atElement (h : Yields v es AtValue) : Yields v es AtElement := by
  obtain ⟨ls, hls, h⟩ := h
  refine ⟨ls, hls, ?_⟩
  rintro p ms _ l ⟨hp, ⟨ms₀, rfl⟩, rfl⟩
  exact h _ _ _ l ⟨hp, ⟨_, ms₀, .inl rfl, rfl⟩, rfl⟩

section Containers

variable {b e : Bytes}

theorem yields_emptyObject (hb : Structural 0x7B b) (he : Structural 0x7D e) :
    Yields (b ++ e) ([.startObject, .endObject] : List (Callback D)) AtContainer := by
  refine ⟨_, wsSpaced_append (wsSpaced_structural hb) (wsSpaced_structural he), ?_⟩
  rintro p _ ms l ⟨hp, rfl⟩
  refine .cons .beginObject (.beginObject hp) ?_
  have h : Reads ⟨.OB, MODE_KEY :: ms, l ++ [.startObject]⟩ _ _ :=
    reads_one .endObject .endEmpty
  rwa [append_assoc] at h

variable {m : Bytes}

theorem yields_object (hb : Structural 0x7B b) (h : Yields m es AtMember) (he : Structural 0x7D e) :
    Yields (b ++ m ++ e) (.startObject :: (es ++ [.endObject])) AtContainer := by
  obtain ⟨ls, hls, h⟩ := h
  refine ⟨_, wsSpaced_append (wsSpaced_append (wsSpaced_structural hb) hls)
    (wsSpaced_structural he), ?_⟩
  rintro p _ ms l ⟨hp, rfl⟩
  refine .cons .beginObject (.beginObject hp) ?_
  have h2 := (h .OB _ _ (l ++ [.startObject]) ⟨.inl rfl, ms, rfl, rfl⟩).concat .endObject .endObject
  simpa using h2

variable {c : Bytes}

theorem yields_member (hk : Spelled (.string k : Token D) t) (hc : Structural 0x3A c)
    (h : Yields v es AtValue) : Yields (t ++ c ++ v) (.key k :: es) AtMember := by
  obtain ⟨ls, hls, h⟩ := h
  refine ⟨_, wsSpaced_append (wsSpaced_append (wsSpaced_one _) (wsSpaced_structural hc)) hls, ?_⟩
  rintro p ms _ l ⟨hp, ms₀, rfl, rfl⟩
  refine .cons hk (.key hp) (.cons .nameSeparator .nameSeparator ?_)
  have h2 := h .VA _ _ (l ++ [.key k]) ⟨.inl rfl, ⟨_, ms₀, .inr rfl, rfl⟩, rfl⟩
  rwa [append_assoc] at h2

theorem Yields.members_append (h : Yields m es AtMember) (hc : Structural 0x2C c)
    (h' : Yields m' es' AtMember) : Yields (m ++ c ++ m') (es ++ es') AtMember := by
  obtain ⟨ls, hls, h⟩ := h
  obtain ⟨ls', hls', h'⟩ := h'
  refine ⟨_, wsSpaced_append (wsSpaced_append hls (wsSpaced_structural hc)) hls', ?_⟩
  rintro p ms _ l ⟨hp, ms₀, rfl, rfl⟩
  have h2 := ((h p _ _ l ⟨hp, ms₀, rfl, rfl⟩).concat .valueSeparator .member).append
    (h' .KE _ _ _ ⟨.inr rfl, ms₀, rfl, rfl⟩)
  simpa using h2

theorem yields_emptyArray (hb : Structural 0x5B b) (he : Structural 0x5D e) :
    Yields (b ++ e) ([.startArray, .endArray] : List (Callback D)) AtContainer := by
  refine ⟨_, wsSpaced_append (wsSpaced_structural hb) (wsSpaced_structural he), ?_⟩
  rintro p _ ms l ⟨hp, rfl⟩
  refine .cons .beginArray (.beginArray hp) ?_
  have h : Reads ⟨.AR, MODE_ARRAY :: ms, l ++ [.startArray]⟩ _ _ :=
    reads_one .endArray (.endArray (.inl rfl))
  rwa [append_assoc] at h

theorem yields_array (hb : Structural 0x5B b) (h : Yields v es AtElement) (he : Structural 0x5D e) :
    Yields (b ++ v ++ e) (.startArray :: (es ++ [.endArray])) AtContainer := by
  obtain ⟨ls, hls, h⟩ := h
  refine ⟨_, wsSpaced_append (wsSpaced_append (wsSpaced_structural hb) hls)
    (wsSpaced_structural he), ?_⟩
  rintro p _ ms l ⟨hp, rfl⟩
  refine .cons .beginArray (.beginArray hp) ?_
  have h2 := (h .AR _ _ (l ++ [.startArray]) ⟨.inr rfl, ⟨ms, rfl⟩, rfl⟩).concat .endArray
    (.endArray (.inr rfl))
  simpa using h2

theorem Yields.elements_append (h : Yields v es AtElement)
    (hc : Structural 0x2C c) (h' : Yields v' es' AtElement) :
    Yields (v ++ c ++ v') (es ++ es') AtElement := by
  obtain ⟨ls, hls, h⟩ := h
  obtain ⟨ls', hls', h'⟩ := h'
  refine ⟨_, wsSpaced_append (wsSpaced_append hls (wsSpaced_structural hc)) hls', ?_⟩
  rintro p ms _ l ⟨hp, ⟨ms₀, rfl⟩, rfl⟩
  have h2 := ((h _ _ _ l ⟨hp, ⟨ms₀, rfl⟩, rfl⟩).concat .valueSeparator .element).append
    (h' .VA _ _ _ ⟨.inl rfl, ⟨ms₀, rfl⟩, rfl⟩)
  simpa using h2

end Containers

/-- The lexemes of a text take the machine from one configuration to the other. -/
def Takes (D : Type) [StrToDouble D] (s : Bytes)
    (P : States → List Modes → List Modes → Prop) : Prop :=
  ∃ es : List (Callback D), Yields s es P

theorem takes_literal (h : v ∈ literals) : Takes D v AtValue := by
  simp only [literals, mem_cons, not_mem_nil, or_false] at h
  rcases h with rfl | rfl | rfl
  · exact ⟨_, yields_scalar .false⟩
  · exact ⟨_, yields_scalar .null⟩
  · exact ⟨_, yields_scalar .true⟩

theorem takes_number (h : (supported D).number v) : Takes D v AtValue := by
  rcases h with ⟨hi, c, hc⟩ | ⟨hf, d, hd⟩
  · exact ⟨_, yields_scalar (.integer hi hc)⟩
  · exact ⟨_, yields_scalar (.float hf hd)⟩

theorem IsString.spelled (h : IsString (supported D) k) : ∃ b, Spelled (.string b : Token D) k := by
  obtain ⟨t, ht, rfl⟩ := h
  obtain ⟨d, hd⟩ := exists_decodes_iff.mpr ht
  exact ⟨d, .string hd⟩

mutual

theorem IsValue.takes : ∀ {v : Bytes}, IsValue (supported D) v → Takes D v AtValue
  | _, .literal h => takes_literal h
  | _, .object h => (IsObject.takes h).imp fun _ h => h.atValue
  | _, .array h => (IsArray.takes h).imp fun _ h => h.atValue
  | _, .number h => takes_number h
  | _, .string h => by
    obtain ⟨b, hb⟩ := IsString.spelled h
    exact ⟨_, yields_string hb⟩

theorem IsObject.takes : ∀ {v : Bytes}, IsObject (supported D) v → Takes D v AtContainer
  | _, .empty hb he => ⟨_, yields_emptyObject hb he⟩
  | _, .members hb hms he => by
    obtain ⟨es, h⟩ := IsMembers.takes hms
    exact ⟨_, yields_object hb h he⟩

theorem IsMembers.takes : ∀ {ms : Bytes}, IsMembers (supported D) ms →
    Takes D ms AtMember
  | _, .one hm => IsMember.takes hm
  | _, .more hms hc hm => by
    obtain ⟨es, h⟩ := IsMembers.takes hms
    obtain ⟨es', h'⟩ := IsMember.takes hm
    exact ⟨_, h.members_append hc h'⟩

theorem IsMember.takes : ∀ {m : Bytes}, IsMember (supported D) m → Takes D m AtMember
  | _, .mk hk hc hv => by
    obtain ⟨b, hb⟩ := IsString.spelled hk
    obtain ⟨es, h⟩ := IsValue.takes hv
    exact ⟨_, yields_member hb hc h⟩

theorem IsArray.takes : ∀ {v : Bytes}, IsArray (supported D) v → Takes D v AtContainer
  | _, .empty hb he => ⟨_, yields_emptyArray hb he⟩
  | _, .elements hb hvs he => by
    obtain ⟨es, h⟩ := IsElements.takes hvs
    exact ⟨_, yields_array hb h he⟩

theorem IsElements.takes : ∀ {vs : Bytes}, IsElements (supported D) vs →
    Takes D vs AtElement
  | _, .one hv => (IsValue.takes hv).imp fun _ h => h.atElement
  | _, .more hvs hc hv => by
    obtain ⟨es, h⟩ := IsElements.takes hvs
    obtain ⟨es', h'⟩ := IsValue.takes hv
    exact ⟨_, h.elements_append hc h'.atElement⟩

end

/-! ### From the machine to the grammar -/

section Sound

variable {L : Lexicon}

/-- The members before a key, with the separator after them. -/
def BeforeKey (L : Lexicon) (m : Bytes) : Prop :=
  m = [] ∨ ∃ ms c, IsMembers L ms ∧ Structural 0x2C c ∧ m = ms ++ c

mutual

inductive Opens (L : Lexicon) : UInt8 → List Modes → Bytes → Prop where
  | mk {s : States} {ms : List Modes} {c : UInt8} {u w : Bytes}
      (hs : s = .GO ∨ s = .VA ∨ s = .AR) (hu : Upto L s ms u) (hw : Ws w) :
      Opens L c ms (u ++ c :: w)

inductive Upto (L : Lexicon) : States → List Modes → Bytes → Prop where
  | start {w : Bytes} (hw : Ws w) : Upto L .GO [.MODE_DONE] w
  | text {t : Bytes} (h : IsText L t) : Upto L .OK [.MODE_DONE] t
  | object {ms : List Modes} {b : Bytes} (hb : Opens L 0x7B ms b) :
      Upto L .OB (MODE_KEY :: ms) b
  | separator {ms : List Modes} {b es c : Bytes} (hb : Opens L 0x7B ms b)
      (hes : IsMembers L es) (hc : Structural 0x2C c) :
      Upto L .KE (MODE_KEY :: ms) (b ++ es ++ c)
  | key {ms : List Modes} {b m k w : Bytes} (hb : Opens L 0x7B ms b) (hm : BeforeKey L m)
      (hk : IsString L k) (hw : Ws w) : Upto L .CO (MODE_KEY :: ms) (b ++ m ++ k ++ w)
  | name {ms : List Modes} {b m k c : Bytes} (hb : Opens L 0x7B ms b) (hm : BeforeKey L m)
      (hk : IsString L k) (hc : Structural 0x3A c) :
      Upto L .VA (MODE_OBJECT :: ms) (b ++ m ++ k ++ c)
  | members {ms : List Modes} {b es w : Bytes} (hb : Opens L 0x7B ms b)
      (hes : IsMembers L es) (hw : Ws w) : Upto L .OK (MODE_OBJECT :: ms) (b ++ es ++ w)
  | array {ms : List Modes} {b : Bytes} (hb : Opens L 0x5B ms b) :
      Upto L .AR (MODE_ARRAY :: ms) b
  | next {ms : List Modes} {b es c : Bytes} (hb : Opens L 0x5B ms b)
      (hes : IsElements L es) (hc : Structural 0x2C c) :
      Upto L .VA (MODE_ARRAY :: ms) (b ++ es ++ c)
  | elements {ms : List Modes} {b es w : Bytes} (hb : Opens L 0x5B ms b)
      (hes : IsElements L es) (hw : Ws w) : Upto L .OK (MODE_ARRAY :: ms) (b ++ es ++ w)

end

theorem IsText.append_ws (h : IsText L t) (hw : Ws w) : IsText L (t ++ w) := by
  rcases h with h | h
  · exact .inl (by simpa using h.pad ws_nil hw)
  · exact .inr (by simpa using h.pad ws_nil hw)

variable {s : States} {u : Bytes}

theorem Opens.append_ws (h : Opens L c ms b) (hw : Ws w) : Opens L c ms (b ++ w) := by
  cases h with
  | mk hs hu hw' => simpa using mk hs hu (hw'.append hw)

theorem Upto.append_ws (h : Upto L s ms u) (hw : Ws w) : Upto L s ms (u ++ w) := by
  cases h with
  | start hw' => exact .start (hw'.append hw)
  | text h => exact .text (IsText.append_ws h hw)
  | object hb => exact .object (hb.append_ws hw)
  | separator hb hes hc => simpa using Upto.separator hb hes (hc.append_ws hw)
  | key hb hm hk hw' => simpa using key hb hm hk (hw'.append hw)
  | name hb hm hk hc => simpa using name hb hm hk (hc.append_ws hw)
  | members hb hes hw' => simpa using members hb hes (hw'.append hw)
  | array hb => exact .array (hb.append_ws hw)
  | next hb hes hc => simpa using Upto.next hb hes (hc.append_ws hw)
  | elements hb hes hw' => simpa using elements hb hes (hw'.append hw)

theorem Upto.value (h : Upto L s ms u) (hs : s = .VA ∨ s = .AR) (hv : IsValue L v) :
    Upto L .OK ms (u ++ v) := by
  cases h with
  | start | text | object | separator | key | members | elements =>
    rcases hs with hs | hs <;> cases hs
  | @name ms b m k c hb hm hk hc =>
    have hmem : IsMember L (k ++ c ++ v) := .mk hk hc hv
    rcases hm with rfl | ⟨es, c', hes, hc', rfl⟩
    · simpa using members hb (.one hmem) ws_nil
    · simpa using members hb (.more hes hc' hmem) ws_nil
  | array hb => simpa using elements hb (.one hv) ws_nil
  | next hb hes hc => simpa using elements hb (.more hes hc hv) ws_nil

/-- An object or an array may also be the whole text. -/
theorem Upto.container (h : Upto L s ms u) (hs : s = .GO ∨ s = .VA ∨ s = .AR) (hv : IsText L v) :
    Upto L .OK ms (u ++ v) := by
  have hval : IsValue L v := hv.elim .object .array
  rcases hs with rfl | hs
  · cases h with
    | start hw =>
      refine .text ?_
      rcases hv with hv | hv
      · exact .inl (by simpa using hv.pad hw ws_nil)
      · exact .inr (by simpa using hv.pad hw ws_nil)
  · exact h.value hs hval

/-- The text up to a closing bracket. -/
theorem Opens.close (h : Opens L c ms b) (hv : ∀ w, Ws w → IsText L (c :: w ++ v)) :
    Upto L .OK ms (b ++ v) := by
  cases h with
  | mk hs hu hw => simpa using hu.container hs (hv _ hw)

variable {t : Token D} {l : Bytes} {A B : Config D}

theorem Spelled.value (h : Spelled t l) :
    (∀ b, t = .string b → IsString (supported D) l) ∧
      ((∃ b, t = .string b) ∨ (∃ c, t = .scalar c) → IsValue (supported D) l) := by
  cases h with
  | string h =>
    have hs : IsString (supported D) (0x22 :: (_ ++ [0x22])) :=
      ⟨_, exists_decodes_iff.mp ⟨_, h⟩, rfl⟩
    exact ⟨fun _ _ => hs, fun _ => .string hs⟩
  | false | null | true => exact ⟨nofun, fun _ => .literal (by simp [literals])⟩
  | integer hi hv => exact ⟨nofun, fun _ => .number (.inl ⟨hi, _, hv⟩)⟩
  | float hf hv => exact ⟨nofun, fun _ => .number (.inr ⟨hf, _, hv⟩)⟩
  | _ => exact ⟨nofun, fun h => by rcases h with ⟨_, h⟩ | ⟨_, h⟩ <;> cases h⟩

theorem structural_of_ws (hw : Ws w) : Structural c (w ++ [c]) :=
  ⟨w, [], hw, ws_nil, by simp⟩

theorem Upto.token (hu : Upto (supported D) A.place A.stack u) (hl : Spelled t l)
    (ht : TokenStep A t B) : Upto (supported D) B.place B.stack (u ++ l) := by
  have hval := hl.value
  cases ht with
  | beginObject hs =>
    cases hl with
    | beginObject => exact .object (.mk hs hu ws_nil)
  | endEmpty =>
    cases hl with
    | endObject =>
      cases hu with
      | object hb =>
        exact hb.close fun w hw => .inl (.empty (structural_mk hw) (structural_mk ws_nil))
  | endObject =>
    cases hl with
    | endObject =>
      cases hu with
      | members hb hes hw =>
        rw [append_assoc, append_assoc]
        refine hb.close fun w' hw' => .inl ?_
        rw [← append_assoc]
        exact .members (structural_mk hw') hes (structural_of_ws hw)
  | beginArray hs =>
    cases hl with
    | beginArray => exact .array (.mk hs hu ws_nil)
  | endArray hs =>
    cases hl with
    | endArray =>
      cases hu with
      | array hb =>
        exact hb.close fun w hw => .inr (.empty (structural_mk hw) (structural_mk ws_nil))
      | elements hb hes hw =>
        rw [append_assoc, append_assoc]
        refine hb.close fun w' hw' => .inr ?_
        rw [← append_assoc]
        exact .elements (structural_mk hw') hes (structural_of_ws hw)
      | next => rcases hs with hs | hs <;> cases hs
  | nameSeparator =>
    cases hl with
    | nameSeparator =>
      cases hu with
      | key hb hm hk hw =>
        rw [append_assoc]
        exact .name hb hm hk (structural_of_ws hw)
  | member =>
    cases hl with
    | valueSeparator =>
      cases hu with
      | members hb hes hw =>
        rw [append_assoc]
        exact .separator hb hes (structural_of_ws hw)
  | element =>
    cases hl with
    | valueSeparator =>
      cases hu with
      | elements hb hes hw =>
        rw [append_assoc]
        exact .next hb hes (structural_of_ws hw)
  | key hs =>
    have hk := hval.1 _ rfl
    cases hu with
    | object hb => simpa using key hb (.inl rfl) hk ws_nil
    | separator hb hes hc => simpa using key hb (.inr ⟨_, _, hes, hc, rfl⟩) hk ws_nil
    | key => rcases hs with hs | hs <;> cases hs
  | string hs => exact hu.value hs (hval.2 (.inl ⟨_, rfl⟩))
  | scalar hs => exact hu.value hs (hval.2 (.inr ⟨_, rfl⟩))

theorem Upto.reads {ls : List Bytes} (h : Reads A ls B) :
    ∀ {u s : Bytes}, Upto (supported D) A.place A.stack u → WsSpaced ls s →
      Upto (supported D) B.place B.stack (u ++ s) := by
  induction h with
  | nil =>
    intro u s hu hs
    cases hs with
    | nil hw => exact hu.append_ws hw
  | cons hl ht _ ih =>
    intro u s hu hs
    obtain ⟨w, s', hw, hs', rfl⟩ := wsSpaced_cases hs
    rw [← append_assoc, ← append_assoc]
    exact ih ((hu.append_ws hw).token hl ht) hs'

end Sound

theorem isText_iff :
    IsText (supported D) s ↔
      ∃ ls l, WsSpaced ls s ∧ Reads (.start : Config D) ls ⟨.OK, [.MODE_DONE], l⟩ := by
  constructor
  · intro h
    have htak : Takes D s AtContainer := h.elim IsObject.takes IsArray.takes
    obtain ⟨es, ls, hls, h⟩ := htak
    exact ⟨ls, _, hls, h .GO _ _ [] ⟨.inl rfl, rfl⟩⟩
  · rintro ⟨ls, l, hls, h⟩
    have hu := Upto.reads h (.start ws_nil : Upto (supported D) .GO [.MODE_DONE] []) hls
    cases hu with
    | text h => exact h

end Poco.JSON
