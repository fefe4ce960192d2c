import Poco.JSON.Building
import Poco.JSON.Derivation
import Poco.JSON.Lexing
import Poco.JSON.Tree

/-!
# Reading what has been written

The text of a tree, with any indentation, consists of the lexemes of the tree with white space
between them, if no key needs an escape and no string has a null byte.

## Main definitions

* `Rereads`, `RereadsElements`, `RereadsMembers`: a text is read as the tree, as these elements or
  as more members of an object.

## Main results

* `Var.rereads`: the text of a tree is read as the tree.
* `parse_stringify`: the parser accepts it and builds the tree, with two integers wrapped around.
-/

namespace Poco.JSON

open List Grammar Stringifier

/-! ### Strings -/

variable {k t : Bytes}

theorem Decodes.append (h : Decodes t d) (h' : Decodes t' d') : Decodes (t ++ t') (d ++ d') := by
  induction h' with
  | nil => simpa using h
  | unescaped | sequence | escape | unit =>
    rw [← append_assoc, ← append_assoc]
    constructor <;> assumption
  | pair _ hds hhi h1 hes h2 ih =>
    rw [← append_assoc, ← append_assoc, ← append_assoc]
    exact ih.pair hds hhi h1 hes h2

theorem decodes_unescaped (hc : isUnescaped c = true) : Decodes [c] [c] :=
  Decodes.nil.unescaped hc

theorem decodes_sequence {bs : Bytes} (h : Utf8.isSeq bs = true) : Decodes bs bs :=
  Decodes.nil.sequence h

theorem decodes_key (hk : Utf8.WellFormed k) (hpl : PlainKey k) : Decodes k k := by
  induction hk with
  | nil => exact .nil
  | @ascii c s hc _ ih =>
    obtain ⟨h1, h2, h3⟩ := hpl c mem_cons_self
    have hun : isUnescaped c = true := by simp [isUnescaped, h1, h2, h3, hc]
    exact (decodes_unescaped hun).append (ih fun x hx => hpl x (mem_cons_of_mem _ hx))
  | seq hbs _ ih =>
    exact (decodes_sequence hbs).append (ih fun x hx => hpl x (mem_append_right _ hx))

/-- A character is written with an escape, with a unicode escape or as it is. -/
theorem formatChar_cases : ∀ c : UInt8, c < 0x80 → c ≠ 0 →
    (∃ e ∈ [0x22, 0x5C, 0x62, 0x66, 0x6E, 0x72, 0x74], isEscape e = true ∧
      formatChar c = [0x5C, e] ∧ Parser.escapeBytes e = [c]) ∨
    (([0x30, 0x30, hexUpper (c / 16), hexUpper (c % 16)].all isHexDigit) = true ∧
      formatChar c = [0x5C, 0x75, 0x30, 0x30, hexUpper (c / 16), hexUpper (c % 16)] ∧
      Parser.decoded 0 (Parser.hexValue [0x30, 0x30, hexUpper (c / 16), hexUpper (c % 16)])
        = some ([c], 0)) ∨
    isUnescaped c = true ∧ formatChar c = [c] := by decide

theorem decodes_formatChar (hc : c < 0x80) (h0 : c ≠ 0) : Decodes (formatChar c) [c] := by
  rcases formatChar_cases c hc h0 with ⟨e, -, he, hf, hb⟩ | ⟨hhex, hf, hdec⟩ | ⟨hu, hf⟩
  · rw [hf, ← hb]
    exact Decodes.nil.escape he
  · rw [hf]
    exact Decodes.nil.unit ⟨rfl, by simpa using hhex⟩ hdec
  · rw [hf]
    exact decodes_unescaped hu

variable {s : Bytes}

theorem decodes_formatString (hs : Utf8.WellFormed s) (h0 : 0 ∉ s) :
    Decodes (s.flatMap formatChar) s := by
  induction hs with
  | nil => exact .nil
  | @ascii c s hc _ ih =>
    rw [flatMap_cons]
    rw [mem_cons, not_or] at h0
    exact (decodes_formatChar hc (Ne.symm h0.1)).append (ih h0.2)
  | @seq bs s hbs _ ih =>
    rw [flatMap_append, flatMap_formatChar_raw (Utf8.le_of_mem_isSeq hbs)]
    exact (decodes_sequence hbs).append (ih fun h => h0 (mem_append_right _ h))

/-! ### Integers -/

theorem isInteger_format (v : ℤ) : IsInteger (NumberFormatter.format v) := by
  obtain ⟨ds, hds, hdec⟩ := NumberFormatter.format_eq v
  refine ⟨if v < 0 then [0x2D] else [], ds, ?_, ?_, hds⟩
  · split
    · exact .inr rfl
    · exact .inl rfl
  obtain ⟨d, t, rfl⟩ := exists_cons_of_ne_nil hdec.ne_nil
  by_cases h0 : d = 0x30
  · exact .inl (hdec.lead (by rw [h0]; rfl))
  · have key : ∀ c : UInt8, isDecDigit c = true → c ≠ 0x30 → isDigit19 c = true := by decide
    exact .inr ⟨d, t, key d (hdec.digits d mem_cons_self) h0,
      fun c hc => hdec.digits c (mem_cons_of_mem _ hc), rfl⟩

theorem Callback.value_of_intValue {c : Callback D} (h : c.intValue = some v) :
    c.value = some (.int v) := by
  cases c <;> cases h <;> rfl

theorem integerValue_format (D : Type) (hlo : IntType.int64.min ≤ v)
    (hhi : v ≤ IntType.uint64.max) :
    ∃ c : Callback D, Parser.integerValue (NumberFormatter.format v) = .ok c ∧
      c.intValue = some (rereadInt v) := by
  obtain ⟨ds, hds, hdec⟩ := NumberFormatter.format_eq v
  have hlo' : -2 ^ 63 ≤ v := hlo
  have hhi' : v ≤ 2 ^ 64 - 1 := hhi
  -- the text as a literal
  let t : IntLiteral := ⟨v < 0, ds, [], hdec.ne_nil, hdec.digits, (by simp)⟩
  have htext : NumberFormatter.format v = t.text := by simp [t, IntLiteral.text, hds]
  have hval : t.value = v := by
    simp only [t, IntLiteral.value, hdec.value, decide_eq_true_eq]
    split <;> omega
  have habs : decVal t.digits = v.natAbs := hdec.value
  have h64 := t.tryParse64_text
  have hu64 := t.tryParseUnsigned64_text
  rw [hval, ← htext] at h64 hu64
  rcases Parser.integerValue_cases (D := D) (NumberFormatter.format v) with
    ⟨w, c, hs, hok, hc⟩ | ⟨w, c, hs, hu, hok, hc⟩ | ⟨e, hs, hu, -⟩
  · refine ⟨c, hok, hc.trans ?_⟩
    rw [hs] at h64
    by_cases hov : Overflows .int64 t.digits
    · rw [if_pos hov] at h64
      cases h64
    have hle : v ≤ 2 ^ 63 + 1 := by
      by_contra hgt
      exact hov (t.overflows_int64 (by omega) (by omega))
    rw [if_neg hov, IntType.wrap_int64] at h64
    rw [h64, rereadInt, Option.some.injEq]
    split <;> omega
  · refine ⟨c, hok, hc.trans ?_⟩
    rw [hu] at hu64
    have hgt : 2 ^ 63 + 2 ≤ v.natAbs := by
      by_contra hle
      rw [if_neg (t.not_overflows_int64 (by omega)), hs] at h64
      cases h64
    rw [if_neg (t.not_overflows_uint64 (by omega)), IntType.wrap_uint64] at hu64
    rw [hu64, rereadInt, Option.some.injEq]
    split <;> omega
  · rw [if_neg (t.not_overflows_uint64 (by omega)), hu] at hu64
    cases hu64

/-! ### White space -/

theorem ws_spaces (n : UInt32) : Ws (spaces n) := by
  intro c hc
  rw [eq_of_mem_replicate hc]
  rfl

theorem ws_newline (b : Bool) : Ws (newline b) := by
  intro c hc
  cases b with
  | true =>
    rw [mem_singleton.mp hc]
    rfl
  | false => cases hc

section Trees

variable {D : Type} [StrToDouble D]

variable {es : List (Callback D)} {x : Var D} {vs : List (Var D)} {ms' : List (Bytes × Var D)}
  {t : Token D}

theorem Yields.append_ws {P : States → List Modes → List Modes → Prop} (hw : Ws w)
    (h : Yields s es P) : Yields (s ++ w) es P := by
  obtain ⟨ls, hls, h⟩ := h
  refine ⟨ls, ?_, h⟩
  simpa using wsSpaced_append hls (.nil hw : WsSpaced [] w)

/-- No floating-point number is delivered. -/
def NoFloat (es : List (Callback D)) : Prop := ∀ d, .float d ∉ es

def Rereads (s : Bytes) (x : Var D) (P : States → List Modes → List Modes → Prop) : Prop :=
  ∃ es, Yields s es P ∧ Builds es x ∧ NoFloat es

theorem Rereads.atValue (h : Rereads s x AtContainer) : Rereads s x AtValue := by
  obtain ⟨es, hy, h⟩ := h
  exact ⟨es, hy.atValue, h⟩

def RereadsElements (s : Bytes) (vs : List (Var D)) : Prop :=
  ∃ es, Yields s es AtElement ∧ BuildsElements es vs ∧ NoFloat es

def RereadsMembers (s : Bytes) (ms ms' : List (Bytes × Var D)) : Prop :=
  ∃ es, Yields s es AtMember ∧ BuildsMembers ms es ms' ∧ NoFloat es

theorem rereads_scalar {c : Callback D} (h : Spelled (.scalar c) s) (hx : c.value = some x)
    (hf : ∀ d, c ≠ .float d) : Rereads s x AtValue := by
  refine ⟨[c], yields_scalar h, .scalar hx, ?_⟩
  intro d hd
  exact hf d (mem_singleton.mp hd).symm

theorem rereads_string {b : Bytes} (h : Spelled (.string b : Token D) s) :
    Rereads s (.string b : Var D) AtValue :=
  ⟨[.string b], yields_string h, .scalar rfl, by simp [NoFloat]⟩

theorem rereads_array {loop : UInt32 → Int32 → Bytes}
    (h : ∀ indent step, (vs = [] ∧ loop indent step = []) ∨ RereadsElements (loop indent step) vs)
    (indent : UInt32) (step : Int32) :
    Rereads (Array.bracket loop indent step) (.array vs) AtContainer := by
  unfold Array.bracket
  dsimp only
  generalize (if step = -1 then indent.toInt32 else step) = step
  have hb : Structural 0x5B ([0x5B] ++ newline (indent > 0)) :=
    structural_mk (ws_newline _)
  have he :
    Structural 0x5D (newline (step > 0) ++ spaces (outdent indent step.toUInt32) ++ [0x5D]) :=
    ⟨_, [], (ws_newline _).append (ws_spaces _), ws_nil, rfl⟩
  rcases h indent step with ⟨rfl, hloop⟩ | ⟨es, hy, hbld, hf⟩
  · refine ⟨[.startArray, .endArray], ?_, .array (l := []) .nil, by simp [NoFloat]⟩
    rw [hloop]
    simpa using yields_emptyArray (D := D) hb he
  · refine ⟨.startArray :: (es ++ [.endArray]), ?_, .array hbld, by simpa [NoFloat] using hf⟩
    simpa using yields_array hb hy he

variable {ms : List (Bytes × Var D)} {v : Var D} {A B : Config D}

theorem rereads_object {loop : UInt32 → UInt32 → Bytes}
    (h : ∀ indent step, (ms = [] ∧ loop indent step = []) ∨ RereadsMembers (loop indent step) [] ms)
    (indent : UInt32) (step : Int32) :
    Rereads (Object.bracket loop indent step) (.object ms) AtContainer := by
  unfold Object.bracket Object.doStringify
  dsimp only
  generalize (if step < 0 then indent.toInt32 else step).toUInt32 = step
  have hb : Structural 0x7B ([0x7B] ++ newline (indent > 0)) :=
    structural_mk (ws_newline _)
  have he : Structural 0x7D (spaces (outdent indent step) ++ [0x7D]) :=
    ⟨_, [], ws_spaces _, ws_nil, rfl⟩
  rcases h indent step with ⟨rfl, hloop⟩ | ⟨es, hy, hbld, hf⟩
  · refine ⟨[.startObject, .endObject], ?_, .object (l := []) .nil, by simp [NoFloat]⟩
    rw [hloop]
    simpa using yields_emptyObject (D := D) hb he
  · refine ⟨.startObject :: (es ++ [.endObject]), ?_, .object hbld, by simpa [NoFloat] using hf⟩
    simpa using yields_object hb hy he

/-! ### Whole trees -/

omit [StrToDouble D] in
theorem NoFloat.append {es' : List (Callback D)} (h : NoFloat es) (h' : NoFloat es') :
    NoFloat (es ++ es') := fun d hd => (mem_append.mp hd).elim (h d) (h' d)

theorem rereads_int {v : ℤ} (hlo : IntType.int64.min ≤ v) (hhi : v ≤ IntType.uint64.max) :
    Rereads (NumberFormatter.format v) (.int (rereadInt v) : Var D) AtValue := by
  obtain ⟨c, hc, hv⟩ := integerValue_format D hlo hhi
  refine rereads_scalar (.integer (isInteger_format v) hc) (Callback.value_of_intValue hv) ?_
  rintro d rfl
  cases hv

theorem Rereads.element (h : Rereads s v AtValue) : RereadsElements s [v] := by
  obtain ⟨es, hy, hb, hf⟩ := h
  exact ⟨es, hy.atElement, by simpa using BuildsElements.cons hb .nil, hf⟩

theorem RereadsElements.append (h : Rereads s v AtValue) (hc : Structural 0x2C c)
    (h' : RereadsElements s' vs) : RereadsElements (s ++ c ++ s') (v :: vs) := by
  obtain ⟨es, hy, hb, hf⟩ := h
  obtain ⟨es', hy', hb', hf'⟩ := h'
  exact ⟨es ++ es', hy.atElement.elements_append hc hy', .cons hb hb', hf.append hf'⟩

theorem Rereads.member {k t : Bytes} (hk : Spelled (.string k : Token D) t)
    (hc : Structural 0x3A c) (h : Rereads s v AtValue) (ms : List (Bytes × Var D)) :
    RereadsMembers (t ++ c ++ s) ms (SortedAssoc.set ms k v) := by
  obtain ⟨es, hy, hb, hf⟩ := h
  refine ⟨.key k :: es, yields_member hk hc hy, by simpa using BuildsMembers.cons k hb .nil, ?_⟩
  simpa [NoFloat] using hf

theorem RereadsMembers.append {ms'' : List (Bytes × Var D)} (h : RereadsMembers s ms ms')
    (hc : Structural 0x2C c) (h' : RereadsMembers s' ms' ms'') :
    RereadsMembers (s ++ c ++ s') ms ms'' := by
  obtain ⟨es, hy, hb, hf⟩ := h
  obtain ⟨es', hy', hb', hf'⟩ := h'
  exact ⟨es ++ es', hy.members_append hc hy', hb.append hb', hf.append hf'⟩

theorem RereadsMembers.pad (hw : Ws w) (hw' : Ws w') (h : RereadsMembers s ms ms') :
    RereadsMembers (w ++ s ++ w') ms ms' := by
  obtain ⟨es, hy, h⟩ := h
  exact ⟨es, (hy.ws_append hw).append_ws hw', h⟩

variable [DoubleToStr D]

mutual

theorem Var.rereads : ∀ (x : Var D), x.Sorted → x.All jsonLeaves → x.All plainText →
    ∀ (indent : UInt32) (step : Int32),
      Rereads (Stringifier.stringify x indent step) x.reread AtValue
  | .null, _, _, _, _, _ => rereads_scalar .null rfl nofun
  | .bool true, _, _, _, _, _ => rereads_scalar .true rfl nofun
  | .bool false, _, _, _, _, _ => rereads_scalar .false rfl nofun
  | .int _, _, hv, _, _, _ => rereads_int hv.1 hv.2
  | .float _, _, hd, _, _, _ => hd.elim
  | .string _, _, hs, h0, _, _ => rereads_string (.string (decodes_formatString hs h0))
  | .array vs, hs, hl, hp, indent, step =>
    (rereads_array (Array.rereads_loop vs hs hl hp) indent
      (if step = -1 then indent.toInt32 else step)).atValue
  | .object ms, hs, hl, hp, indent, step =>
    (rereads_object (Object.rereads_loop ms hs.1 hs.2 hl hp [] nofun) indent
      (if step = -1 then indent.toInt32 else step)).atValue

theorem Array.rereads_loop : ∀ (vs : List (Var D)), SortedElements vs →
    AllElements jsonLeaves vs → AllElements plainText vs → ∀ (indent : UInt32) (step : Int32),
      (rereadElements vs = [] ∧ Array.loop vs indent step = []) ∨
        RereadsElements (Array.loop vs indent step) (rereadElements vs)
  | [], _, _, _, _, _ => .inl ⟨rfl, rfl⟩
  | v :: vs, hs, hl, hp, indent, step => by
    obtain ⟨es, hy, h⟩ := Var.rereads v hs.1 hl.1 hp.1 (indent + step.toUInt32) step
    have hv : Rereads (spaces indent ++ Stringifier.stringify v (indent + step.toUInt32) step)
        v.reread AtValue := ⟨es, hy.ws_append (ws_spaces indent), h⟩
    refine .inr ?_
    unfold Array.loop
    cases vs with
    | nil => simpa [Array.loop, rereadElements] using hv.element
    | cons u us =>
      rcases Array.rereads_loop (u :: us) hs.2 hl.2 hp.2 indent step with ⟨hnil, -⟩ | hvs
      · cases hnil
      · exact .append hv (structural_mk (ws_newline _)) hvs

theorem Object.rereads_loop : ∀ (ms : List (Bytes × Var D)),
    SortedAssoc.Sorted ms → SortedMembers ms → AllMembers jsonLeaves ms → AllMembers plainText ms →
    ∀ (ms₀ : List (Bytes × Var D)), (∀ a ∈ ms₀, ∀ b ∈ ms, a.1 < b.1) →
    ∀ (indent step : UInt32), (rereadMembers ms = [] ∧ Object.loop ms indent step = []) ∨
      RereadsMembers (Object.loop ms indent step) ms₀ (ms₀ ++ rereadMembers ms)
  | [], _, _, _, _, _, _, _, _ => .inl ⟨rfl, rfl⟩
  | (k, v) :: ms, hs, hs', hl, hp, ms₀, hlt, indent, step => by
    have hkey : Spelled (.string k : Token D) ([0x22] ++ k ++ [0x22]) :=
      .string (decodes_key hl.1 hp.1)
    have hcol : Structural 0x3A (if indent > 0 then [0x20, 0x3A, 0x20] else [0x3A]) := by
      split
      · exact ⟨[0x20], [0x20], by simp [Ws, isWs], by simp [Ws, isWs], rfl⟩
      · exact ⟨[], [], ws_nil, ws_nil, rfl⟩
    have hv := Var.rereads v hs'.1 hl.2.1 hp.2.1 (indent + step) step.toInt32
    have hm := Rereads.member hkey hcol hv ms₀
    -- the key is above the keys of the members before it
    rw [SortedAssoc.set_of_forall_lt ms₀ fun a ha => hlt a ha (k, v) mem_cons_self] at hm
    refine .inr ?_
    unfold Object.loop
    cases ms with
    | nil =>
      have hlast := hm.pad (ws_spaces indent) (ws_newline (step > 0))
      simpa [Object.loop, rereadMembers] using hlast
    | cons m ms =>
      have hlt' : ∀ a ∈ ms₀ ++ [(k, v.reread)], ∀ b ∈ m :: ms, a.1 < b.1 :=
        forall_mem_append.mpr ⟨fun a ha b hb => hlt a ha b (mem_cons_of_mem _ hb),
          forall_mem_singleton.mpr (pairwise_cons.mp hs).1⟩
      rcases Object.rereads_loop (m :: ms) (pairwise_cons.mp hs).2 hs'.2 hl.2.2 hp.2.2 _ hlt'
        indent step with ⟨hnil, -⟩ | hms
      · cases hnil
      · have hmore := (hm.pad (ws_spaces indent) ws_nil).append
          (structural_mk (ws_newline (step > 0))) hms
        simpa [rereadMembers] using hmore

end

theorem Tree.rereads (t : Tree D) (hp : t.root.toVar.All plainText) (indent : UInt32)
    (step : Int32) : Rereads (t.root.stringify indent step) t.root.toVar.reread AtContainer := by
  obtain ⟨root, hs, hl⟩ := t
  cases root with
  | array vs => exact rereads_array (Array.rereads_loop vs hs hl hp) indent step
  | object ms => exact rereads_object (Object.rereads_loop ms hs.1 hs.2 hl hp [] nofun) indent step

omit [DoubleToStr D] in
/-- A number with an exponent after the digit `0` is delivered as a floating-point number. -/
theorem float_of_zeroExp (hl : Spelled t l) (hz : ZeroExp l) : ∃ d, t = .scalar (.float d) := by
  obtain ⟨m, e, r, hm, he, rfl⟩ := hz
  generalize hy : m ++ 0x30 :: e :: r = y at hl
  cases hl with
  | float => exact ⟨_, rfl⟩
  | integer hi =>
    -- the digits of an integer are all decimal
    obtain ⟨neg, ds, -, hds, rfl⟩ := IsInteger.eq_append hi
    have hmem : e ∈ (if neg then [0x2D] else []) ++ ds := by
      rw [← hy]
      simp
    have hdec : isDecDigit e = false ∧ e ≠ 0x2D := by
      simp only [isE, Bool.or_eq_true, beq_iff_eq] at he
      rcases he with rfl | rfl <;> decide
    rcases mem_append.mp hmem with h | h
    · cases neg with
      | true => exact absurd (mem_singleton.mp h) hdec.2
      | false => cases h
    · rw [hds e h] at hdec
      cases hdec.1
  | _ => rcases hm with rfl | rfl <;> cases hy

omit [StrToDouble D] [DoubleToStr D] in
theorem TokenStep.log_subset (h : TokenStep A t B) : A.log ⊆ B.log := by
  cases h with
  | nameSeparator | member | element => exact List.Subset.refl _
  | _ => exact subset_append_left _ _

omit [DoubleToStr D] in
theorem Reads.log_subset (h : Reads A ls B) : A.log ⊆ B.log := by
  induction h with
  | nil => exact List.Subset.refl _
  | cons _ ht _ ih => exact fun c hc => ih (ht.log_subset hc)

omit [DoubleToStr D] in
theorem not_zeroExp_of_reads (h : Reads A ls B) (hf : NoFloat B.log) : ∀ l ∈ ls, ¬ ZeroExp l := by
  induction h with
  | nil => exact fun l hl => absurd hl not_mem_nil
  | cons hl ht h ih =>
    intro x hx hz
    rcases mem_cons.mp hx with rfl | hx
    · obtain ⟨d, rfl⟩ := float_of_zeroExp hl hz
      cases ht with
      | scalar => exact hf d (h.log_subset (mem_append_right _ mem_cons_self))
    · exact ih hf x hx hz

omit [StrToDouble D] [DoubleToStr D] in
theorem Builds.ne_singleton {l : List (Callback D)} {t : Container D}
    (h : Builds l t.toVar.reread) (c : Callback D) : l ≠ [c] := by
  rintro rfl
  generalize hx : t.toVar.reread = x at h
  generalize hl : [c] = l at h
  cases h with
  | scalar h => cases t <;> cases hx <;> cases c <;> cases hl <;> cases h
  | array | object => simp at hl

theorem parse_stringify (t : Tree D) (hp : t.root.toVar.All plainText) (indent : UInt32)
    (step : Int32) : ∃ q, Parser.parse (t.root.stringify indent step) (Parser.fresh {})
      = .ok (some t.root.toVar.reread) q := by
  obtain ⟨es, ⟨ls, hws, hrd⟩, hbld, hf⟩ := t.rereads hp indent step
  have hr := hrd .GO [.MODE_DONE] [.MODE_DONE] [] ⟨.inl rfl, rfl⟩
  have hlive : Parser.Live (Parser.fresh {} : Parser D) := Parser.live_fresh false
  obtain ⟨prev, q, hfeed, hq⟩ := Parser.Rests.reads (fun hw hp _ h => h.ws hw hp) hr hlive rfl
    (Parser.rests_fresh false) hws (not_zeroExp_of_reads hr hf)
  obtain ⟨q', hprs, -⟩ := Parser.parse_of_rests hlive hfeed hq
  refine ⟨q', ?_⟩
  rw [hprs, nil_append, hbld.document hbld.ne_singleton]
  rfl

end Trees

end Poco.JSON
