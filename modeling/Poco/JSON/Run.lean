import Mathlib.Logic.Relation
import Poco.JSON.Methods

/-!
# Runs of the JSON parser

`Parser::parse` takes its input apart into ASCII characters and the multi-byte sequences
that the UTF-8 check lets through, and steps over each.

## Main definitions

* `Step`: one round of the loop that goes on: what is left of the input and the parser.
* `Reaches`: any number of rounds.
* `accepts`: whether `parse` returns without an exception.

## Main results

* `step_iff`: a round reads an ASCII character or a legal multi-byte sequence.
* `Reaches.invariant`: what every step preserves, every run preserves.
* `run_cases`: how a run ends: at the end of the input, or in a round that does not go on.
-/

namespace Poco.JSON.Parser

open List

variable {D : Type} [StrToDouble D]

/-! ### One character -/

variable {c : UInt8} {r s : Bytes} {p q : Parser D}

theorem readSequence_eq_ok (hc : 0x80 ≤ c) :
    readSequence c s = .ok (bs, r) ↔ Legal bs ∧ c :: s = bs ++ r := by
  unfold readSequence
  constructor
  · intro h
    simp only at h
    split at h
    · cases h
    next h0 =>
    split at h
    · cases h
    next hlen =>
    split at h
    · cases h
    next hleg =>
    cases h
    refine ⟨⟨c, _, rfl, hc, ?_, by simpa using hleg⟩, ?_⟩
    · simp only [length_cons, length_take]
      omega
    · rw [cons_append, take_append_drop]
  · rintro ⟨⟨lead, rest, rfl, -, hlen, hleg⟩, heq⟩
    obtain ⟨rfl, rfl⟩ := heq
    simp only [length_cons] at hlen
    have hn : utf8CheckFirst c - 1 = rest.length := by omega
    have h0 : utf8CheckFirst c ≠ 0 := by omega
    simp [h0, hn, hleg]

theorem parseChar_ascii (hc : c < 0x80) (s : Bytes) (p : Parser D) :
    parseChar c s p = match parseAscii c p with
      | .ok b q => .ok (b, s) q
      | .error e q => .error e q := by
  have hge : ¬ c ≥ 0x80 := by simpa using hc
  unfold parseChar
  rw [bind_apply, get_apply]
  simp only [ite_apply]
  by_cases h0 : ¬ p.allowNullByte = true ∧ c = 0
  · rw [if_pos h0, h0.2]
    rfl
  · rw [if_neg h0, if_neg hge, bind_apply]
    cases parseAscii c p <;> rfl

theorem parseChar_raw (hc : 0x80 ≤ c) (s : Bytes) (p : Parser D) :
    parseChar c s p = match readSequence c s with
      | .ok (bs, r) => .ok (true, r) { p with buffer := p.buffer ++ bs }
      | .error e => .error e p := by
  have h0 : ¬ (¬ p.allowNullByte = true ∧ c = 0) := by
    rintro ⟨-, rfl⟩
    exact absurd hc (by decide)
  unfold parseChar
  rw [bind_apply, get_apply]
  simp only [ite_apply]
  rw [if_neg h0, if_pos hc]
  cases readSequence c s <;> simp

/-! ### Steps and runs -/

def Step (x y : Parser D × Bytes) : Prop :=
  ∃ c s, x.2 = c :: s ∧ parseChar c s x.1 = .ok (true, y.2) y.1

def Reaches : Parser D × Bytes → Parser D × Bytes → Prop := Relation.ReflTransGen Step

theorem step_iff :
    Step (p, s) (q, r) ↔
      (∃ c, c < 0x80 ∧ s = c :: r ∧ parseAscii c p = .ok true q) ∨
      (∃ bs, Legal bs ∧ s = bs ++ r ∧ q = { p with buffer := p.buffer ++ bs }) := by
  constructor
  · rintro ⟨c, t, rfl, h⟩
    rcases UInt8.lt_or_le c 0x80 with hc | hc
    · left
      rw [parseChar_ascii hc] at h
      cases hp : parseAscii c p with
      | error e q' => rw [hp] at h; cases h
      | ok b q' =>
        rw [hp] at h
        cases h
        exact ⟨c, hc, rfl, hp⟩
    · right
      rw [parseChar_raw hc] at h
      cases hr : readSequence c t with
      | error e => rw [hr] at h; cases h
      | ok bt =>
        obtain ⟨bs, t'⟩ := bt
        rw [hr] at h
        cases h
        obtain ⟨hl, heq⟩ := (readSequence_eq_ok hc).mp hr
        exact ⟨bs, hl, heq, rfl⟩
  · rintro (⟨c, hc, rfl, h⟩ | ⟨bs, hl, rfl, rfl⟩)
    · exact ⟨c, r, rfl, by rw [parseChar_ascii hc, h]⟩
    · obtain ⟨lead, rest, rfl, hc, -, -⟩ := id hl
      refine ⟨lead, rest ++ r, rfl, ?_⟩
      have hr : readSequence lead (rest ++ r) = .ok (lead :: rest, r) :=
        (readSequence_eq_ok hc).mpr ⟨hl, rfl⟩
      rw [parseChar_raw hc, hr]

theorem step_length (h : Step (p, s) (q, r)) : r.length < s.length := by
  rcases step_iff.mp h with ⟨c, -, rfl, -⟩ | ⟨bs, hl, rfl, -⟩
  · simp
  · obtain ⟨lead, rest, rfl, -⟩ := hl
    simp only [length_append, length_cons]
    omega

theorem Reaches.invariant {I : Parser D → Bytes → Prop}
    (hstep : ∀ {p q : Parser D} {s r : Bytes}, I p s → Step (p, s) (q, r) → I q r)
    (h : Reaches (p, s) (q, r)) (hI : I p s) : I q r := by
  have key : ∀ {x y : Parser D × Bytes}, Reaches x y → I x.1 x.2 → I y.1 y.2 := by
    intro x y hxy hx
    induction hxy with
    | refl => exact hx
    | tail _ hs ih => exact hstep ih hs
  exact key h hI

theorem lt_of_asciiClass : ∀ {c : UInt8} {k : Classes}, asciiClass c = some k → c < 0x80 := by
  have key : ∀ c : UInt8, (asciiClass c).isSome → c < 0x80 := by decide
  intro c k h
  exact key c (by rw [h]; rfl)

theorem step_next {s : States} (hk : asciiClass c = some k) (hp : p.escaped = true → p.buffer ≠ [])
    (ht : transition p.state k = .next s) (r : Bytes) :
    Step (p, c :: r) ({ fed p c k with state := s }, r) := by
  refine step_iff.mpr (.inl ⟨c, lt_of_asciiClass hk, rfl, ?_⟩)
  rw [parseAscii_eq hk p hp, ht]

theorem step_act (hk : asciiClass c = some k) (hp : p.escaped = true → p.buffer ≠ [])
    (ht : transition p.state k = .act a) (hP : Performed a (fed p c k) q) (r : Bytes) :
    Step (p, c :: r) (q, r) := by
  refine step_iff.mpr (.inl ⟨c, lt_of_asciiClass hk, rfl, ?_⟩)
  rw [parseAscii_eq hk p hp, ht]
  exact perform_of_performed hP

/-! ### The settings -/

theorem Performed.settings {a : Actions} (h : Performed a p q) : q.settings = p.settings := by
  cases h <;> rfl

omit [StrToDouble D] in
theorem fed_settings (p : Parser D) (c : UInt8) (k : Classes) :
    (fed p c k).settings = p.settings := by
  unfold fed
  split <;> rfl

theorem step_settings (h : Step (p, s) (q, r)) : q.settings = p.settings := by
  rcases step_iff.mp h with ⟨c, -, -, h⟩ | ⟨bs, -, -, rfl⟩
  · obtain ⟨k, -, -, ⟨s, -, rfl⟩ | ⟨a, -, -, hP⟩⟩ := parseAscii_eq_true h
    · exact fed_settings p c k
    · exact hP.settings.trans (fed_settings p c k)
  · rfl

theorem Reaches.settings (h : Reaches (p, s) (q, r)) : q.settings = p.settings :=
  Reaches.invariant (I := fun q _ => q.settings = p.settings)
    (fun hq hs => (step_settings hs).trans hq) h rfl

/-! ### Traces -/

/-- The rounds of a run, as far as it goes on, with at most the given number of steps. -/
def trace : ℕ → Parser D → Bytes → List (Parser D × Bytes)
  | 0, p, s => [(p, s)]
  | _ + 1, p, [] => [(p, [])]
  | n + 1, p, c :: s => (p, c :: s) :: match parseChar c s p with
    | .ok (true, r) q => trace n q r
    | _ => []

/-- A run goes through the configurations of its trace and no others. -/
theorem mem_trace : ∀ {n : ℕ} {p : Parser D} {s : Bytes} {y : Parser D × Bytes},
    s.length ≤ n → Reaches (p, s) y → y ∈ trace n p s := by
  intro n
  induction n with
  | zero =>
    intro p s y hn h
    obtain rfl : s = [] := length_eq_zero_iff.mp (by omega)
    rcases Relation.ReflTransGen.cases_head h with rfl | ⟨z, ⟨c, t, hs, -⟩, -⟩
    · simp [trace]
    · cases hs
  | succ n ih =>
    intro p s y hn h
    rcases Relation.ReflTransGen.cases_head h with rfl | ⟨z, hz, hzy⟩
    · cases s <;> simp [trace]
    obtain ⟨c, t, hs, hc⟩ := id hz
    subst hs
    have hlen := step_length hz
    simp only [trace, hc]
    exact mem_cons_of_mem _ (ih (by omega) hzy)

/-! ### The loop -/

theorem parseLoop_fuel : ∀ {n m : ℕ} {s : Bytes} (p : Parser D),
    s.length ≤ n → s.length ≤ m → parseLoop n s p = parseLoop m s p := by
  intro n
  induction n with
  | zero =>
    intro m s p hn _
    obtain rfl : s = [] := length_eq_zero_iff.mp (by omega)
    cases m <;> rfl
  | succ n ih =>
    intro m s p hn hm
    cases s with
    | nil => cases m <;> rfl
    | cons c s =>
      obtain ⟨m, rfl⟩ : ∃ k, m = k + 1 := ⟨m - 1, by simp at hm; omega⟩
      simp only [parseLoop, bind_apply]
      cases hc : parseChar c s p with
      | error e q => rfl
      | ok br q =>
        obtain ⟨b, r⟩ := br
        cases b with
        | false => rfl
        | true =>
          have hr : r.length < (c :: s).length := step_length ⟨c, s, rfl, hc⟩
          simp only [if_true]
          exact ih q (by omega) (by omega)

def run (s : Bytes) : ParserM D Unit := parseLoop s.length s

@[simp] theorem run_nil (p : Parser D) : run [] p = .ok () p := rfl

theorem run_cons (c : UInt8) (s : Bytes) (p : Parser D) :
    run (c :: s) p = match parseChar c s p with
      | .ok (true, r) q => run r q
      | .ok (false, _) q => .error (.SyntaxException "JSON syntax error") q
      | .error e q => .error e q := by
  unfold run
  simp only [length_cons, parseLoop, bind_apply]
  cases hc : parseChar c s p with
  | error e q => rfl
  | ok br q =>
    obtain ⟨b, r⟩ := br
    cases b with
    | false => rfl
    | true =>
      have hr : r.length < (c :: s).length := step_length (p := p) (q := q) ⟨c, s, rfl, hc⟩
      simp only [length_cons] at hr
      simp only [if_true]
      exact parseLoop_fuel q (by omega) le_rfl

theorem run_ascii (hc : c < 0x80) (s : Bytes) (p : Parser D) :
    run (c :: s) p = match parseAscii c p with
      | .ok true q => run s q
      | .ok false q => .error (.SyntaxException "JSON syntax error") q
      | .error e q => .error e q := by
  rw [run_cons, parseChar_ascii hc]
  cases parseAscii c p with
  | error e q => rfl
  | ok b q => cases b <;> rfl

theorem run_step (h : Step (p, s) (q, r)) : run s p = run r q := by
  obtain ⟨c, t, rfl, hc⟩ := h
  rw [run_cons, hc]

theorem run_reaches (h : Reaches (p, s) (q, r)) : run s p = run r q := by
  have key : ∀ {x y : Parser D × Bytes}, Reaches x y → run x.2 x.1 = run y.2 y.1 := by
    intro x y hxy
    induction hxy with
    | refl => rfl
    | tail _ hs ih => exact ih.trans (run_step hs)
  exact key h

theorem run_cases (s : Bytes) (p : Parser D) :
    (∃ q, Reaches (p, s) (q, []) ∧ run s p = .ok () q) ∨
    ∃ p' c r q e, Reaches (p, s) (p', c :: r) ∧ run s p = .error e q ∧
      (parseChar c r p' = .error e q ∨
        e = .SyntaxException "JSON syntax error" ∧ ∃ r', parseChar c r p' = .ok (false, r') q) := by
  induction hn : s.length using Nat.strong_induction_on generalizing s p with
  | _ n ih =>
    cases s with
    | nil => exact .inl ⟨p, .refl, rfl⟩
    | cons c s =>
      cases hc : parseChar c s p with
      | error e q => exact .inr ⟨p, c, s, q, e, .refl, by rw [run_cons, hc], .inl hc⟩
      | ok br q =>
        obtain ⟨b, r⟩ := br
        cases b with
        | false => exact .inr ⟨p, c, s, q, _, .refl, by rw [run_cons, hc], .inr ⟨rfl, r, hc⟩⟩
        | true =>
          have hs : Step (p, c :: s) (q, r) := ⟨c, s, rfl, hc⟩
          rcases ih r.length (hn ▸ step_length hs) r q rfl with
            ⟨q', hr, hq⟩ | ⟨p', c', r', q', e, hr, hq, hend⟩
          · exact .inl ⟨q', .head hs hr, (run_step hs).trans hq⟩
          · exact .inr ⟨p', c', r', q', e, .head hs hr, (run_step hs).trans hq, hend⟩

theorem run_eq_ok_iff : run s p = .ok () q ↔ Reaches (p, s) (q, []) := by
  constructor
  · intro h
    rcases run_cases s p with ⟨q', hr, hq⟩ | ⟨_, _, _, _, _, _, hq, _⟩
    · rw [h] at hq
      cases hq
      exact hr
    · rw [h] at hq
      cases hq
  · intro h
    rw [run_reaches h, run_nil]

theorem parse_eq (s : Bytes) (p : Parser D) :
    parse s p = match run s p with
      | .ok () q =>
        if q.state = .OK ∧ q.stack.head? = some .MODE_DONE then
          .ok (asVar q) { q with stack := q.stack.tail }
        else .error (.JSONException "JSON syntax error") q
      | .error e q => .error e q := by
  unfold parse
  rw [bind_apply, show parseLoop s.length s p = run s p from rfl]
  cases run s p with
  | error e q => rfl
  | ok u q =>
    by_cases h1 : q.state = .OK
    · by_cases h2 : q.stack.head? = some .MODE_DONE <;> simp [done, h1, h2, pop_eq, asVar]
    · simp [done, h1]

def accepts (p : Parser D) (s : Bytes) : Prop := ∃ v q, parse s p = .ok v q

theorem accepts_iff :
    accepts p s ↔
      ∃ q, run s p = .ok () q ∧ q.state = .OK ∧ q.stack.head? = some .MODE_DONE := by
  unfold accepts
  rw [parse_eq]
  cases run s p with
  | error e q => simp
  | ok u q =>
    by_cases h : q.state = .OK ∧ q.stack.head? = some .MODE_DONE
    · simp [h]
    · simp [h]

theorem not_accepts_of_xx (h : Reaches (p, s) (q, c :: r)) (hq : q.escaped = true → q.buffer ≠ [])
    (hk : asciiClass c = some k) (ht : transition q.state k = .act .xx) : ¬ accepts p s := by
  intro hacc
  obtain ⟨q', hrun, -⟩ := accepts_iff.mp hacc
  rw [run_reaches h, run_ascii (lt_of_asciiClass hk), parseAscii_eq hk q hq, ht] at hrun
  cases hrun

end Poco.JSON.Parser
