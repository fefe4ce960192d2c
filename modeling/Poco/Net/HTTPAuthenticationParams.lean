import Mathlib.Data.List.Nodup
import Poco.Net.MessageHeader

/-!
# Parameters of HTTP authentication

`toString` and `parse` of `Net/src/HTTPAuthenticationParams.cpp`.  Values are put between
quotes as they are, while the parser, a machine of seven states, takes a backslash between
quotes for the escape of the next character.

## Main definitions

* `toString`: the text of a collection of parameters.
* `Parser`, `step`: the variables of `parse`, with the collection it adds to, and one round of its
  loop.
* `Item`: an item of a list, with white space around it.

## Main results

* `mem_of_finish_special`: a value with a quote or a backslash is not read back.
* `parse_digest_iff`: when the parameters that were written are read back.
* `finish_items`: of a list of items all are added, but not one that the machine has not seen the
  end of.
* `parse_items_iff`: when every item is kept.
-/

namespace Poco.Net.HTTPAuthenticationParams

open List Ascii NameValueCollection

/-! ### Writing -/

inductive DigestName where
  | CNONCE | DOMAIN | NONCE | OPAQUE | QOP | REALM | RESPONSE | URI | USERNAME
  deriving DecidableEq, Repr

namespace DigestName

def text : DigestName → Bytes
  | CNONCE => [0x63, 0x6E, 0x6F, 0x6E, 0x63, 0x65]
  | DOMAIN => [0x64, 0x6F, 0x6D, 0x61, 0x69, 0x6E]
  | NONCE => [0x6E, 0x6F, 0x6E, 0x63, 0x65]
  | OPAQUE => [0x6F, 0x70, 0x61, 0x71, 0x75, 0x65]
  | QOP => [0x71, 0x6F, 0x70]
  | REALM => [0x72, 0x65, 0x61, 0x6C, 0x6D]
  | RESPONSE => [0x72, 0x65, 0x73, 0x70, 0x6F, 0x6E, 0x73, 0x65]
  | URI => [0x75, 0x72, 0x69]
  | USERNAME => [0x75, 0x73, 0x65, 0x72, 0x6E, 0x61, 0x6D, 0x65]

def all : List DigestName :=
  [CNONCE, DOMAIN, NONCE, OPAQUE, QOP, REALM, RESPONSE, URI, USERNAME]

theorem mem_all (n : DigestName) : n ∈ all := by
  cases n <;> decide

end DigestName

def mustBeQuoted (name : Bytes) : Bool :=
  DigestName.all.any fun n => icompare name n.text == 0

def formatParameter (name value : Bytes) : Bytes :=
  name ++ [0x3D] ++ if mustBeQuoted name then [0x22] ++ value ++ [0x22] else value

def toString : NameValueCollection → Bytes
  | [] => []
  | p :: params =>
    formatParameter p.1 p.2 ++ params.flatMap fun q => [0x2C, 0x20] ++ formatParameter q.1 q.2

/-! ### Parsing -/

inductive State where
  | STATE_SPACE
  | STATE_TOKEN
  | STATE_EQUALS
  | STATE_VALUE
  | STATE_VALUE_QUOTED
  | STATE_VALUE_ESCAPE
  | STATE_COMMA
  deriving DecidableEq, Repr

open State

/-- The states with the bit `STATE_FINAL`. -/
def State.final : State → Bool
  | STATE_VALUE => true
  | STATE_COMMA => true
  | _ => false

structure Parser where
  state : State
  token : Bytes
  value : Bytes
  params : NameValueCollection
  deriving DecidableEq, Repr

structure SyntaxException where
  message : String
  deriving DecidableEq, Repr

def invalid : SyntaxException := ⟨"Invalid authentication information"⟩

namespace Parser

/-- `add(token, value)`, after which both are cleared. -/
def addParam (p : Parser) (state : State) : Parser :=
  ⟨state, [], [], add p.token p.value p.params⟩

def step (p : Parser) (c : UInt8) : Except SyntaxException Parser :=
  match p.state with
  | STATE_SPACE =>
    if isAlphaNumeric c then .ok { p with token := p.token ++ [c], state := STATE_TOKEN }
    else if isSpace c then .ok p
    else .error invalid
  | STATE_TOKEN =>
    if c = 0x3D then .ok { p with state := STATE_EQUALS }
    else if isAlphaNumeric c then .ok { p with token := p.token ++ [c] }
    else .error invalid
  | STATE_EQUALS =>
    if isAlphaNumeric c then .ok { p with value := p.value ++ [c], state := STATE_VALUE }
    else if c = 0x22 then .ok { p with state := STATE_VALUE_QUOTED }
    else .error invalid
  | STATE_VALUE_QUOTED =>
    if c = 0x5C then .ok { p with state := STATE_VALUE_ESCAPE }
    else if c = 0x22 then .ok (p.addParam STATE_COMMA)
    else .ok { p with value := p.value ++ [c] }
  | STATE_VALUE_ESCAPE => .ok { p with value := p.value ++ [c], state := STATE_VALUE_QUOTED }
  | STATE_VALUE =>
    if isSpace c then .ok (p.addParam STATE_COMMA)
    else if c = 0x2C then .ok (p.addParam STATE_SPACE)
    else .ok { p with value := p.value ++ [c] }
  | STATE_COMMA =>
    if c = 0x2C then .ok { p with state := STATE_SPACE }
    else if isSpace c then .ok p
    else .error invalid

def run (p : Parser) : Bytes → Except SyntaxException Parser
  | [] => .ok p
  | c :: s =>
    match p.step c with
    | .error e => .error e
    | .ok q => q.run s

/-- The loop from `p` on and the test after it: the parameters. -/
def finish (p : Parser) (s : Bytes) : Except SyntaxException NameValueCollection :=
  match p.run s with
  | .error e => .error e
  | .ok q => if q.state.final then .ok q.params else .error invalid

end Parser

def parse (s : Bytes) : Except SyntaxException NameValueCollection :=
  Parser.finish ⟨STATE_SPACE, [], [], []⟩ s

/-! ### Steps -/

namespace Parser

variable {c : UInt8} {m params : NameValueCollection} {token : Bytes}

theorem finish_cons_of_step {p q : Parser} (s : Bytes) (h : p.step c = .ok q) :
    p.finish (c :: s) = q.finish s := by
  rw [finish, run, h]
  rfl

/-- A loop of the machine: each byte is appended to what was read. -/
theorem finish_append {f : Bytes → Parser}
    (h : ∀ x, ∀ c ∈ w, (f x).step c = .ok (f (x ++ [c]))) (x s : Bytes) :
    (f x).finish (w ++ s) = (f (x ++ w)).finish s := by
  induction w generalizing x with
  | nil => rw [nil_append, append_nil]
  | cons c w ih =>
    rw [cons_append, finish_cons_of_step _ (h x c mem_cons_self),
      ih fun x d hd => h x d (mem_cons_of_mem _ hd), append_assoc]
    rfl

/-- The parameters grow: what is in the collection stays there. -/
theorem mem_params_step {p q : Parser} (h : p.step c = .ok q) {e : Bytes × Bytes}
    (he : e ∈ p.params) : e ∈ q.params := by
  have hadd : ∀ state, e ∈ (p.addParam state).params :=
    fun _ => ListMap.mem_insert.mpr (.inr he)
  unfold step at h
  split at h <;> (repeat' split at h) <;> cases h <;> first | exact he | exact hadd _

theorem mem_of_finish {e : Bytes × Bytes} :
    ∀ {s : Bytes} {p : Parser}, p.finish s = .ok m → e ∈ p.params → e ∈ m := by
  intro s
  induction s with
  | nil =>
    intro p h he
    unfold finish run at h
    dsimp only at h
    split at h
    · cases h
      exact he
    · cases h
  | cons c s ih =>
    intro p h he
    cases hstep : p.step c with
    | error e =>
      rw [finish, run, hstep] at h
      cases h
    | ok q =>
      rw [finish_cons_of_step s hstep] at h
      exact ih h (mem_params_step hstep he)

theorem finish_name (n : DigestName) (s : Bytes) :
    finish ⟨STATE_SPACE, [], [], params⟩ (n.text ++ [0x3D] ++ 0x22 :: s)
      = finish ⟨STATE_VALUE_QUOTED, n.text, [], params⟩ s := by
  cases n <;> rfl

theorem finish_copy (token value : Bytes) (params : NameValueCollection)
    (hc : c ≠ 0x22 ∧ c ≠ 0x5C) (s : Bytes) :
    finish ⟨STATE_VALUE_QUOTED, token, value, params⟩ (c :: s)
      = finish ⟨STATE_VALUE_QUOTED, token, value ++ [c], params⟩ s := by
  apply finish_cons_of_step
  simp [step, hc]

theorem finish_plain {w value : Bytes} (s : Bytes) (hw : ∀ c ∈ w, c ≠ 0x22 ∧ c ≠ 0x5C) :
    finish ⟨STATE_VALUE_QUOTED, token, value, params⟩ (w ++ s)
      = finish ⟨STATE_VALUE_QUOTED, token, value ++ w, params⟩ s := by
  refine finish_append (f := fun value => ⟨STATE_VALUE_QUOTED, token, value, params⟩) ?_ value s
  intro x c hc
  simp [step, hw c hc]

theorem finish_quote (token value : Bytes) (params : NameValueCollection) (s : Bytes) :
    finish ⟨STATE_VALUE_QUOTED, token, value, params⟩ (0x22 :: s)
      = finish ⟨STATE_COMMA, [], [], add token value params⟩ s := rfl

theorem finish_comma (params : NameValueCollection) (s : Bytes) :
    finish ⟨STATE_COMMA, [], [], params⟩ (0x2C :: 0x20 :: s)
      = finish ⟨STATE_SPACE, [], [], params⟩ s := rfl

theorem finish_escape (token value : Bytes) (params : NameValueCollection) (c : UInt8)
    (s : Bytes) : finish ⟨STATE_VALUE_QUOTED, token, value, params⟩ (0x5C :: c :: s)
      = finish ⟨STATE_VALUE_QUOTED, token, value ++ [c], params⟩ s := rfl

/-! ### Values with quotes and backslashes -/

/-- Between quotes a value only grows, and it is added in the end. -/
theorem mem_of_finish_quoted {s value : Bytes} {state : State}
    (hst : state = STATE_VALUE_QUOTED ∨ state = STATE_VALUE_ESCAPE)
    (h : finish ⟨state, token, value, params⟩ s = .ok m) : ∃ y, (token, value ++ y) ∈ m := by
  induction s generalizing value state with
  | nil => rcases hst with rfl | rfl <;> cases h
  | cons c s ih =>
    have hcopy : finish ⟨STATE_VALUE_QUOTED, token, value ++ [c], params⟩ s = .ok m →
        ∃ y, (token, value ++ y) ∈ m := by
      intro h
      obtain ⟨y, hy⟩ := ih (.inl rfl) h
      exact ⟨c :: y, by simpa using hy⟩
    rcases hst with rfl | rfl
    · by_cases hesc : c = 0x5C
      · subst hesc
        exact ih (.inr rfl) h
      by_cases hqt : c = 0x22
      · subst hqt
        rw [finish_quote] at h
        exact ⟨[], mem_of_finish h (ListMap.mem_insert.mpr (.inl (by simp)))⟩
      · rw [finish_copy _ _ _ ⟨hqt, hesc⟩] at h
        exact hcopy h
    · exact hcopy h

/-- Backslashes that are missing in front of a text are not read from the text. -/
theorem mem_of_finish_backslashes {w s value : Bytes} {state : State}
    (hst : state = STATE_VALUE_QUOTED ∨ state = STATE_VALUE_ESCAPE)
    (h : finish ⟨state, token, value, params⟩ (w ++ 0x22 :: s) = .ok m) :
    ∃ x, (token, value ++ x) ∈ m ∧ ∀ k, x ≠ List.replicate (k + 1) 0x5C ++ w := by
  -- another character is read first
  have hoth : ∀ {c : UInt8} {w s value : Bytes}, c ≠ 0x5C →
      finish ⟨STATE_VALUE_QUOTED, token, value ++ [c], params⟩ s = .ok m →
      ∃ x, (token, value ++ x) ∈ m ∧ ∀ k, x ≠ List.replicate (k + 1) 0x5C ++ w := by
    intro c w s value hc h
    obtain ⟨y, hy⟩ := mem_of_finish_quoted (.inl rfl) h
    exact ⟨c :: y, by simpa using hy, fun k heq => hc (List.cons.inj heq).1⟩
  have hend : ∀ {w s value : Bytes},
      finish ⟨STATE_VALUE_QUOTED, token, value, params⟩ (0x22 :: s) = .ok m →
      ∃ x, (token, value ++ x) ∈ m ∧ ∀ k, x ≠ List.replicate (k + 1) 0x5C ++ w := by
    intro w s value h
    rw [finish_quote] at h
    exact ⟨[], mem_of_finish h (ListMap.mem_insert.mpr (.inl (by simp))), nofun⟩
  induction w generalizing value state with
  | nil =>
    rcases hst with rfl | rfl
    · exact hend h
    · exact hoth (by decide) h
  | cons c w ih =>
    rcases hst with rfl | rfl
    · by_cases hesc : c = 0x5C
      · subst hesc
        obtain ⟨x, hx, hne⟩ := ih (.inr rfl) h
        refine ⟨x, hx, fun k heq => hne (k + 1) ?_⟩
        rw [heq, append_cons, ← replicate_succ']
      · by_cases hqt : c = 0x22
        · subst hqt
          exact hend h
        · rw [cons_append, finish_copy _ _ _ ⟨hqt, hesc⟩] at h
          exact hoth hesc h
    · -- the character is read as it is
      obtain ⟨x, hx, hne⟩ := ih (.inl rfl) h
      refine ⟨c :: x, by simpa using hx, fun k heq => hne k ?_⟩
      rw [replicate_succ, cons_append] at heq
      obtain ⟨rfl, rfl⟩ := List.cons.inj heq
      rw [append_cons, ← replicate_succ']

def isSpecial (c : UInt8) : Bool := c == 0x22 || c == 0x5C

theorem mem_of_finish_special {v s : Bytes} (hv : ∃ c ∈ v, isSpecial c = true)
    (h : finish ⟨STATE_VALUE_QUOTED, token, [], params⟩ (v ++ 0x22 :: s) = .ok m) :
    ∃ x, x ≠ v ∧ (token, x) ∈ m := by
  -- the value up to the first quote or backslash
  obtain ⟨c, hc⟩ := Option.isSome_iff_exists.mp (find?_isSome.mpr hv)
  obtain ⟨hspe, α, β, rfl, hα⟩ := find?_eq_some_iff_append.mp hc
  rw [append_assoc, cons_append, finish_plain _ fun d hd => by simpa [isSpecial] using hα d hd] at h
  simp only [isSpecial, Bool.or_eq_true, beq_iff_eq] at hspe
  rcases hspe with rfl | rfl
  · -- the quote ends the value too early
    rw [finish_quote] at h
    exact ⟨α, by simp, mem_of_finish h (ListMap.mem_insert.mpr (.inl rfl))⟩
  · obtain ⟨x, hx, hne⟩ := mem_of_finish_backslashes (.inr rfl) h
    exact ⟨α ++ x, fun heq => hne 0 (append_cancel_left heq), hx⟩

end Parser

/-! ### The round trip -/

def pairs (ps : List (DigestName × Bytes)) : NameValueCollection :=
  ps.map fun p => (p.1.text, p.2)

def tailText (ps : List (DigestName × Bytes)) : Bytes :=
  (pairs ps).flatMap fun q => [0x2C, 0x20] ++ formatParameter q.1 q.2

theorem formatParameter_text (n : DigestName) (v : Bytes) :
    formatParameter n.text v = n.text ++ [0x3D] ++ 0x22 :: (v ++ [0x22]) := by
  have hquo : mustBeQuoted n.text = true := by
    rw [mustBeQuoted, any_eq_true]
    exact ⟨n, n.mem_all, by simp [icompare_eq_zero_iff]⟩
  simp [formatParameter, hquo]

/-- The text of a parameter brings the machine to its value. -/
theorem finish_tailText_cons (acc : NameValueCollection) (p : DigestName × Bytes)
    (ps : List (DigestName × Bytes)) :
    Parser.finish ⟨STATE_COMMA, [], [], acc⟩ (tailText (p :: ps))
      = Parser.finish ⟨STATE_VALUE_QUOTED, p.1.text, [], acc⟩ (p.2 ++ 0x22 :: tailText ps) := by
  have htext : tailText (p :: ps)
      = 0x2C :: 0x20 :: (p.1.text ++ [0x3D] ++ 0x22 :: (p.2 ++ 0x22 :: tailText ps)) := by
    simp [tailText, pairs, formatParameter_text]
  rw [htext, Parser.finish_comma, Parser.finish_name]

theorem parse_toString_cons (p : DigestName × Bytes) (ps : List (DigestName × Bytes)) :
    parse (toString (pairs (p :: ps)))
      = Parser.finish ⟨STATE_COMMA, [], [], []⟩ (tailText (p :: ps)) := rfl

theorem finish_tailText : ∀ {ps : List (DigestName × Bytes)} {acc : NameValueCollection},
    (∀ p ∈ ps, ∀ c ∈ p.2, c ≠ 0x22 ∧ c ≠ 0x5C) →
      Parser.finish ⟨STATE_COMMA, [], [], acc⟩ (tailText ps)
        = .ok (ListMap.insertAll sameName acc (pairs ps)) := by
  intro ps
  induction ps with
  | nil => intro acc _; rfl
  | cons p ps ih =>
    intro acc hps
    rw [finish_tailText_cons, Parser.finish_plain _ (hps p mem_cons_self),
      Parser.finish_quote, ih fun q hq => hps q (mem_cons_of_mem _ hq)]
    rfl

/-- The first parameter with a quote or a backslash gets another value. -/
theorem mem_of_finish_tailText : ∀ {ps : List (DigestName × Bytes)}
    {acc m : NameValueCollection}, (∃ p ∈ ps, ∃ c ∈ p.2, Parser.isSpecial c = true) →
      Parser.finish ⟨STATE_COMMA, [], [], acc⟩ (tailText ps) = .ok m →
      ∃ p ∈ ps, ∃ x, x ≠ p.2 ∧ (p.1.text, x) ∈ m := by
  intro ps
  induction ps with
  | nil =>
    rintro acc m ⟨p, hp, -⟩ -
    cases hp
  | cons p ps ih =>
    intro acc m hspe h
    rw [finish_tailText_cons] at h
    by_cases hp : ∃ c ∈ p.2, Parser.isSpecial c = true
    · exact ⟨p, mem_cons_self, Parser.mem_of_finish_special hp h⟩
    have hpl : ∀ c ∈ p.2, c ≠ 0x22 ∧ c ≠ 0x5C := by
      intro c hc
      have hno : Parser.isSpecial c ≠ true := fun hs => hp ⟨c, hc, hs⟩
      simpa [Parser.isSpecial] using hno
    rw [Parser.finish_plain _ hpl, Parser.finish_quote] at h
    have hrest := ((exists_mem_cons_iff _ p ps).mp hspe).resolve_left hp
    obtain ⟨q', hq', hx⟩ := ih hrest h
    exact ⟨q', mem_cons_of_mem _ hq', hx⟩

theorem sameName_text {n n' : DigestName} : sameName n.text n'.text = true ↔ n = n' := by
  cases n <;> cases n' <;> decide

theorem text_injective {n n' : DigestName} (h : n.text = n'.text) : n = n' :=
  sameName_text.mp (sameName_iff.mpr (by rw [h]))

/-- **When the parameters are read back**: exactly if there is one, and no value has a quote
or a backslash. -/
theorem parse_digest_iff (ps : List (DigestName × Bytes))
    (hdistinct : (ps.map Prod.fst).Nodup) :
    parse (toString (pairs ps)) = .ok (pairs ps) ↔
      ps ≠ [] ∧ ∀ p ∈ ps, ∀ c ∈ p.2, c ≠ 0x22 ∧ c ≠ 0x5C := by
  cases ps with
  | nil => exact iff_of_false (by decide) fun h => h.1 rfl
  | cons p ps =>
    rw [parse_toString_cons]
    constructor
    · intro h
      refine ⟨cons_ne_nil _ _, ?_⟩
      intro q hq c hc
      by_contra hbad
      have hspe : Parser.isSpecial c = true := by
        by_contra hno
        exact hbad (by simpa [Parser.isSpecial] using hno)
      obtain ⟨q', hq', x, hx, hmem⟩ := mem_of_finish_tailText ⟨q, hq, c, hc, hspe⟩ h
      -- the name is that of one parameter only
      obtain ⟨q'', hq'', heq⟩ := mem_map.mp hmem
      obtain ⟨hname, hval⟩ := Prod.mk.injEq _ _ _ _ ▸ heq
      have hsame : q'' = q' :=
        inj_on_of_nodup_map hdistinct hq'' hq' (text_injective hname)
      rw [hsame] at hval
      exact hx hval.symm
    · rintro ⟨-, hpl⟩
      rw [finish_tailText hpl, ListMap.insertAll_of_pairwise ?_ (by simp)]
      · rfl
      · rw [pairs, pairwise_map]
        refine (pairwise_map.mp hdistinct).imp ?_
        intro a b hab
        rw [← Bool.not_eq_true]
        exact fun h => hab (sameName_text.mp h)

/-- Two parameters, one of them with a comma in its value. -/
theorem parse_digest_iff_realm :
    ([(DigestName.REALM, [0x61, 0x2C, 0x62]), (DigestName.QOP, [])].map Prod.fst).Nodup ∧
      parse (toString (pairs [(.REALM, [0x61, 0x2C, 0x62]), (.QOP, [])]))
        = .ok (pairs [(.REALM, [0x61, 0x2C, 0x62]), (.QOP, [])]) :=
  ⟨by decide, (parse_digest_iff _ (by decide)).mpr ⟨by decide, by decide⟩⟩

/-- A user name `x", uri="y` becomes two parameters. -/
theorem parse_toString_injects :
    parse (toString
      (pairs [(.USERNAME, [0x78, 0x22, 0x2C, 0x20, 0x75, 0x72, 0x69, 0x3D, 0x22, 0x79])]))
      = .ok (pairs [(.USERNAME, [0x78]), (.URI, [0x79])]) := by decide

/-! ### Lists of items -/

inductive ItemValue where
  /-- Between quotes, where each character may have a backslash before it. -/
  | quoted (cs : List (Bool × UInt8)) (plain : ∀ e ∈ cs, e.1 = false → e.2 ≠ 0x22 ∧ e.2 ≠ 0x5C)
  /-- Without quotes. -/
  | token (c : UInt8) (cs : Bytes) (start : isAlphaNumeric c = true)
      (plain : ∀ d ∈ cs, isSpace d = false ∧ d ≠ 0x2C)

def ItemValue.text : ItemValue → Bytes
  | quoted cs _ => 0x22 :: ((cs.flatMap fun e => if e.1 then [0x5C, e.2] else [e.2]) ++ [0x22])
  | token c cs _ _ => c :: cs

/-- The value without escapes. -/
def ItemValue.unescaped : ItemValue → Bytes
  | quoted cs _ => cs.map Prod.snd
  | token c cs _ _ => c :: cs

structure Item where
  before : Bytes
  name : Bytes
  value : ItemValue
  after : Bytes
  name_ne : name ≠ []
  alphanumeric : ∀ c ∈ name, isAlphaNumeric c = true
  blank : ∀ c ∈ before ++ after, isSpace c = true

namespace Item

variable (i : Item) (is : List Item)

def text : Bytes := i.before ++ (i.name ++ 0x3D :: (i.value.text ++ i.after))

def entry : Bytes × Bytes := (i.name, i.value.unescaped)

/-- The machine sees the end of the value. -/
def closed : Bool :=
  match i.value with
  | .quoted _ _ => true
  | .token _ _ _ _ => i.after ≠ []

/-- A list of items that begins with `i`. -/
def listText : Bytes := i.text ++ is.flatMap fun j => 0x2C :: j.text

end Item

namespace Parser

variable {params : NameValueCollection}

theorem finish_skip {p : Parser} {w : Bytes} (h : ∀ c ∈ w, p.step c = .ok p)
    (s : Bytes) : p.finish (w ++ s) = p.finish s :=
  finish_append (f := fun _ => p) (fun _ => h) [] s

theorem finish_escaped {token : Bytes} {cs : List (Bool × UInt8)}
    (hcs : ∀ e ∈ cs, e.1 = false → e.2 ≠ 0x22 ∧ e.2 ≠ 0x5C) (value s : Bytes) :
    finish ⟨STATE_VALUE_QUOTED, token, value, params⟩
        ((cs.flatMap fun e => if e.1 then [0x5C, e.2] else [e.2]) ++ s)
      = finish ⟨STATE_VALUE_QUOTED, token, value ++ cs.map Prod.snd, params⟩ s := by
  induction cs generalizing value with
  | nil => rw [flatMap_nil, nil_append, map_nil, append_nil]
  | cons e cs ih =>
    have hstep : ∀ s, finish ⟨STATE_VALUE_QUOTED, token, value, params⟩
        ((if e.1 then [0x5C, e.2] else [e.2]) ++ s)
        = finish ⟨STATE_VALUE_QUOTED, token, value ++ [e.2], params⟩ s := by
      intro s
      cases he : e.1 with
      | false => exact finish_copy _ _ _ (hcs e mem_cons_self he) s
      | true => exact finish_escape _ _ _ _ s
    rw [flatMap_cons, append_assoc, hstep, ih fun d hd => hcs d (mem_cons_of_mem _ hd)]
    simp

theorem finish_after (hw : ∀ c ∈ w, isSpace c = true) (s : Bytes) :
    finish ⟨STATE_COMMA, [], [], params⟩ (w ++ s) = finish ⟨STATE_COMMA, [], [], params⟩ s := by
  refine finish_skip ?_ s
  intro c hc
  have hcma : c ≠ 0x2C := by
    rintro rfl
    cases hw _ hc
  simp [step, hcma, hw c hc]

/-- **An item** is added at the end of its value, or with what follows. -/
theorem finish_item (i : Item) (s : Bytes) :
    finish ⟨STATE_SPACE, [], [], params⟩ (i.text ++ s) =
      if i.closed then finish ⟨STATE_COMMA, [], [], add i.name i.value.unescaped params⟩ s
      else finish ⟨STATE_VALUE, i.name, i.value.unescaped, params⟩ s := by
  have hbla := forall_mem_append.mp i.blank
  obtain ⟨c, name, hname⟩ := exists_cons_of_ne_nil i.name_ne
  have haln := i.alphanumeric
  rw [hname] at haln
  have key : ∀ c : UInt8, isAlphaNumeric c = true → isSpace c = false ∧ c ≠ 0x3D := by decide
  -- the white space and the name
  have hbeg : finish ⟨STATE_SPACE, [], [], params⟩ (i.text ++ s)
      = finish ⟨STATE_EQUALS, i.name, [], params⟩ (i.value.text ++ (i.after ++ s)) := by
    have htext : i.text ++ s =
      i.before ++ c :: (name ++ 0x3D :: (i.value.text ++ (i.after ++ s))) := by
      simp [Item.text, hname]
    rw [htext, finish_skip, finish_cons_of_step _ (q := ⟨STATE_TOKEN, [c], [], params⟩),
      finish_append (f := fun token => ⟨STATE_TOKEN, token, [], params⟩), finish_cons_of_step _ rfl,
      hname]
    · rfl
    · intro x d hd
      have hd := haln d (mem_cons_of_mem _ hd)
      simp [step, hd, (key d hd).2]
    · simp [step, haln c mem_cons_self]
    · intro d hd
      have hspc := hbla.1 d hd
      have : isAlphaNumeric d ≠ true := fun h => by simp [(key d h).1] at hspc
      simp [step, hspc, this]
  rw [hbeg, Item.closed]
  cases i.value with
  | quoted cs plain =>
    rw [ItemValue.text, cons_append, append_assoc, finish_cons_of_step _ rfl,
      finish_escaped plain]
    exact (finish_quote _ _ _ _).trans (finish_after hbla.2 s)
  | token d ds start plain =>
    rw [ItemValue.text, cons_append, finish_cons_of_step _
      (q := ⟨STATE_VALUE, i.name, [d], params⟩) (by simp [step, start]),
      finish_append (f := fun value => ⟨STATE_VALUE, i.name, value, params⟩)
        (fun x e he => by simp [step, plain e he])]
    cases haft : i.after with
    | nil => rfl
    | cons a as =>
      rw [haft] at hbla
      obtain ⟨ha, has⟩ := forall_mem_cons.mp hbla.2
      have hstep : step ⟨STATE_VALUE, i.name, d :: ds, params⟩ a
          = .ok ⟨STATE_COMMA, [], [], add i.name (d :: ds) params⟩ := if_pos ha
      exact (finish_cons_of_step _ hstep).trans (finish_after has s)

theorem finish_items (is : List Item) (i : Item) (params : NameValueCollection) :
    ∃ js : List Item, finish ⟨STATE_SPACE, [], [], params⟩ (i.listText is)
        = .ok (ListMap.insertAll sameName params (js.map Item.entry)) ∧
      (js = i :: is ↔ ((i :: is).getLast (cons_ne_nil _ _)).closed = true) ∧
      (js ≠ i :: is → js.length < (i :: is).length) := by
  induction is generalizing i params with
  | nil =>
    rw [Item.listText, flatMap_nil, finish_item, getLast_singleton]
    cases i.closed with
    | true => exact ⟨[i], rfl, by simp⟩
    | false => exact ⟨[], rfl, by simp⟩
  | cons j is ih =>
    obtain ⟨js, hjs, hiff, hlen⟩ := ih j (add i.name i.value.unescaped params)
    refine ⟨i :: js, ?_, ?_, ?_⟩
    · rw [Item.listText, flatMap_cons, cons_append, finish_item, map_cons, ListMap.insertAll_cons]
      split
      · exact hjs
      · exact hjs
    · rw [getLast_cons_cons, ← hiff]
      simp
    · intro hne
      exact Nat.succ_lt_succ (hlen fun heq => hne (heq ▸ rfl))

end Parser

/-- **When every parameter is kept**: exactly if the last value has quotes or white space
after it. -/
theorem parse_items_iff (i : Item) (is : List Item) :
    (∃ m, parse (i.listText is) = .ok m ∧ m.Perm ((i :: is).map Item.entry)) ↔
      ((i :: is).getLast (cons_ne_nil _ _)).closed = true := by
  obtain ⟨js, hjs, hiff, hlen⟩ := Parser.finish_items is i []
  have hperm : (ListMap.insertAll sameName [] (js.map Item.entry)).Perm (js.map Item.entry) :=
    ListMap.insertAll_perm _ _
  constructor
  · rintro ⟨m, hm, hall⟩
    cases hm.symm.trans hjs
    by_contra hopen
    have hlt := hlen fun heq => hopen (hiff.mp heq)
    have heq := (hperm.symm.trans hall).length_eq
    rw [length_map, length_map] at heq
    omega
  · intro hclo
    rw [hiff.mpr hclo] at hjs hperm
    exact ⟨_, hjs, hperm⟩

def qopAuth : Item :=
  ⟨[], DigestName.QOP.text, .token 0x61 [0x75, 0x74, 0x68] (by decide) (by decide), [], by decide,
    by decide, by decide⟩

/-- A parameter without quotes at the end is lost. -/
theorem parse_qopAuth : parse (qopAuth.listText []) = .ok [] := by decide

end Poco.Net.HTTPAuthenticationParams
