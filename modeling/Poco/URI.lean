import Poco.Hexadecimal
import Poco.Lib.Outcome

/-!
# Uniform resource identifiers

`URI::parse`, `URI::encode` and `URI::decode` of `Foundation/src/URI.cpp`.  Parsing decodes
the path and the fragment and keeps the query as it is; the query is what stands between
the first question mark and the first number sign after it.

## Main definitions

* `encode`: what `URI::encode` appends.  A `char` above `0x7F` is negative, hence below `0x20`.
* `decode`: what `URI::decode` appends with `plusAsSpace` false, its default.
* `parse`: `URI::parse` into an empty identifier.
* `queryOf`: the query of a text, by its place.

## Main results

* `mem_encode_cases`: a byte of an encoded text is a printable character, and if it is reserved it
  is one that `encode` never replaces or the percent sign of an escape.
* `encode_exact`: percent encoding is exact.
* `parse_eq_ok`: what is left after the scheme and the authority, also if a query is added.
* `query_of_parse`: the query of an identifier is where `queryOf` looks for it.
-/

namespace Poco

open List Ascii

structure SyntaxException where
  message : String
  deriving DecidableEq, Repr

structure URI where
  scheme : Bytes := []
  userInfo : Bytes := []
  host : Bytes := []
  port : ℕ := 0
  path : Bytes := []
  query : Bytes := []
  fragment : Bytes := []
  deriving DecidableEq, Repr

namespace URI

/-! ### Percent encoding -/

def ILLEGAL : Bytes := [0x25, 0x3C, 0x3E, 0x7B, 0x7D, 0x7C, 0x5C, 0x22, 0x5E, 0x60]

def isUnreserved (c : UInt8) : Bool :=
  isAlphaNumeric c || c == 0x2D || c == 0x5F || c == 0x2E || c == 0x7E

def encodeByte (reserved : Bytes) (c : UInt8) : Bytes :=
  if isUnreserved c then [c]
  else if c.toInt8 ≤ 0x20 ∨ c.toInt8 ≥ 0x7F ∨ c ∈ ILLEGAL ∨ c ∈ reserved then
    0x25 :: NumberFormatter.formatHex c.toNat 2
  else [c]

def encode (str reserved : Bytes) : Bytes := str.flatMap (encodeByte reserved)

def RESERVED_QUERY : Bytes := [0x23]

def addQueryParameter (u : URI) (param val : Bytes) : URI :=
  let reserved := RESERVED_QUERY ++ [0x3D, 0x26]
  let query := if u.query ≠ [] then u.query ++ [0x26] else u.query
  { u with query := query ++ encode param reserved ++ [0x3D] ++ encode val reserved }

def hexDigit (c : UInt8) : Option UInt8 :=
  if 0x30 ≤ c ∧ c ≤ 0x39 then some (c - 0x30)
  else if 0x41 ≤ c ∧ c ≤ 0x46 then some (c - 0x41 + 10)
  else if 0x61 ≤ c ∧ c ≤ 0x66 then some (c - 0x61 + 10)
  else none

/-- Where `decode` stands: between two characters, after a percent sign, or after the first
digit. -/
inductive Pending where
  | none
  | percent
  | digit (hi : UInt8)

def decodeFrom : Pending → Bytes → Except SyntaxException Bytes
  | .none, [] => .ok []
  | .percent, [] => .error ⟨"URI encoding: no hex digit following percent sign"⟩
  | .digit _, [] => .error ⟨"URI encoding: two hex digits must follow percent sign"⟩
  | .none, c :: s =>
    if c = 0x25 then decodeFrom .percent s else (decodeFrom .none s).map (c :: ·)
  | .percent, c :: s => decodeFrom (.digit c) s
  | .digit hi, lo :: s =>
    match hexDigit hi, hexDigit lo with
    | some a, some b => (decodeFrom .none s).map ((a * 16 + b) :: ·)
    | _, _ => .error ⟨"URI encoding: not a hex digit"⟩

def decode (str : Bytes) : Except SyntaxException Bytes := decodeFrom .none str

/-! ### Parsing -/

def getWellKnownPort (scheme : Bytes) : ℕ :=
  if scheme = [0x66, 0x74, 0x70] then 21
  else if scheme = [0x73, 0x73, 0x68] then 22
  else if scheme = [0x74, 0x65, 0x6C, 0x6E, 0x65, 0x74] then 23
  else if scheme = [0x68, 0x74, 0x74, 0x70] then 80
  else if scheme = [0x6E, 0x6E, 0x74, 0x70] then 119
  else if scheme = [0x6C, 0x64, 0x61, 0x70] then 389
  else if scheme = [0x68, 0x74, 0x74, 0x70, 0x73] then 443
  else if scheme = [0x72, 0x74, 0x73, 0x70] then 554
  else if scheme = [0x73, 0x69, 0x70] then 5060
  else if scheme = [0x73, 0x69, 0x70, 0x73] then 5061
  else if scheme = [0x78, 0x6D, 0x70, 0x70] then 5222
  else 0

def setScheme (u : URI) (scheme : Bytes) : URI :=
  let scheme := scheme.map toLower
  { u with scheme := scheme, port := if u.port = 0 then getWellKnownPort scheme else u.port }

/-- The port of `parseHostAndPort`, from the text after the host. -/
def parsePort (u : URI) (s : Bytes) : Except SyntaxException ℕ :=
  match s with
  | [] => .ok (getWellKnownPort u.scheme)
  | c :: port =>
    -- text between the bracket of an address and the colon is ignored
    if c ≠ 0x3A ∨ port = [] then .ok (getWellKnownPort u.scheme)
    else match strToInt .int port NumberParser.NUM_BASE_DEC 0x2C with
      | some nport =>
        if 0 < nport ∧ nport < 65536 then .ok nport.toNat
        else .error ⟨"bad or invalid port number"⟩
      | none => .error ⟨"bad or invalid port number"⟩

def parseHostAndPort (u : URI) (part : Bytes) : Except SyntaxException URI :=
  if part = [] then .ok u
  else if part.head? = some 0x5B then
    -- an IPv6 address
    let host := part.tail.takeWhile (· ≠ 0x5D)
    let s := part.tail.dropWhile (· ≠ 0x5D)
    if s = [] then .error ⟨"unterminated IPv6 address"⟩
    else (parsePort u s.tail).map fun port => { u with port := port, host := host.map toLower }
  else
    let host := part.takeWhile (· ≠ 0x3A)
    (parsePort u (part.dropWhile (· ≠ 0x3A))).map fun port =>
      { u with port := port, host := host.map toLower }

/-- The user information and the rest of an authority: the text before the last `@`, from
the one before it on, and the text after it. -/
def splitUserInfo (authority : Bytes) : Bytes × Bytes :=
  authority.foldl (fun r c => if c = 0x40 then (r.2, []) else (r.1, r.2 ++ [c])) ([], [])

def inAuthority (c : UInt8) : Bool := c != 0x2F && c != 0x3F && c != 0x23

/-- `URI::parseAuthority`: the identifier, and the text after the authority. -/
def parseAuthority (u : URI) (s : Bytes) : Except SyntaxException (URI × Bytes) :=
  let r := splitUserInfo (s.takeWhile inAuthority)
  (parseHostAndPort u r.2).map fun u => ({ u with userInfo := r.1 }, s.dropWhile inAuthority)

def inPath (c : UInt8) : Bool := c != 0x3F && c != 0x23

/-- `URI::parsePath`, with the part of the text that is the path. -/
def parsePath (u : URI) (path : Bytes) : Except SyntaxException URI :=
  (decode path).map fun d => { u with path := u.path ++ d }

/-- `URI::parseQuery`: the identifier, and the text after the query. -/
def parseQuery (u : URI) (s : Bytes) : URI × Bytes :=
  ({ u with query := s.takeWhile (· ≠ 0x23) }, s.dropWhile (· ≠ 0x23))

def parseFragment (u : URI) (s : Bytes) : Except SyntaxException URI :=
  (decode s).map fun d => { u with fragment := u.fragment ++ d }

def parseQueryEtc (u : URI) (s : Bytes) : Except SyntaxException URI :=
  let r := if s.head? = some 0x3F then parseQuery u s.tail else (u, s)
  if r.2.head? = some 0x23 then parseFragment r.1 r.2.tail else .ok r.1

def parsePathEtc (u : URI) (s : Bytes) : Except SyntaxException URI :=
  if s = [] then .ok u
  else do
    let u ← if inPath (s.headD 0) then parsePath u (s.takeWhile inPath) else .ok u
    parseQueryEtc u (s.dropWhile inPath)

def inScheme (c : UInt8) : Bool := c != 0x3A && c != 0x3F && c != 0x23 && c != 0x2F

def parse (uri : Bytes) : Except SyntaxException URI :=
  match uri.head? with
  | none => .ok {}
  | some c =>
    if c ≠ 0x2F ∧ c ≠ 0x2E ∧ c ≠ 0x3F ∧ c ≠ 0x23 then
      let s := uri.dropWhile inScheme
      if s.head? = some 0x3A then
        let s := s.tail
        if s = [] then .error ⟨"URI scheme must be followed by authority or path"⟩
        else
          let u := setScheme {} (uri.takeWhile inScheme)
          if s.take 2 = [0x2F, 0x2F] then do
            let r ← parseAuthority u (s.drop 2)
            parsePathEtc r.1 r.2
          else parsePathEtc u s
      else parsePathEtc {} uri
    else parsePathEtc {} uri

/-! ### Decoding -/

theorem decodeFrom_append (h : decodeFrom p a = .ok x) :
    decodeFrom p (a ++ b) = (decode b).map (x ++ ·) := by
  induction a generalizing p x with
  | nil =>
    cases p with
    | none =>
      cases h
      exact (Except.map_of_forall_eq nil_append _).symm
    | percent | digit => cases h
  | cons c a ih =>
    cases p with
    | none =>
      rw [cons_append, decodeFrom]
      rw [decodeFrom] at h
      split at h
      · next hc =>
        rw [if_pos hc]
        exact ih h
      · next hc =>
        obtain ⟨y, hy, rfl⟩ := Except.map_eq_ok.mp h
        rw [if_neg hc, ih hy, Except.map_map]
        rfl
    | percent => exact ih h
    | digit hi =>
      rw [cons_append, decodeFrom]
      rw [decodeFrom] at h
      split at h
      · obtain ⟨y, hy, rfl⟩ := Except.map_eq_ok.mp h
        rw [ih hy, Except.map_map]
        rfl
      · cases h

theorem decode_append {a b x : Bytes} (h : decode a = .ok x) :
    decode (a ++ b) = (decode b).map (x ++ ·) :=
  decodeFrom_append h

/-- A byte stands for itself, or an escape of two digits for it. -/
theorem encodeByte_cases (reserved : Bytes) (c : UInt8) :
    encodeByte reserved c = [c] ∧ (c ≠ 0x25 ∧ 0x21 ≤ c ∧ c ≤ 0x7E) ∧
      (c ∈ reserved → isUnreserved c = true) ∨
    ∃ x y, encodeByte reserved c = [0x25, x, y] ∧ (hexDigit x).isSome = true ∧
      (hexDigit y).isSome = true ∧ decode [0x25, x, y] = .ok [c] := by
  have hpl : ∀ c : UInt8, (isUnreserved c ∨ ¬ (c.toInt8 ≤ 0x20 ∨ c.toInt8 ≥ 0x7F ∨ c ∈ ILLEGAL)) →
      c ≠ 0x25 ∧ 0x21 ≤ c ∧ c ≤ 0x7E := by
    decide
  have hesc : ∀ c : UInt8, (NumberFormatter.formatHex c.toNat 2).length = 2 ∧
      (∀ d ∈ NumberFormatter.formatHex c.toNat 2, (hexDigit d).isSome = true) ∧
      decode (0x25 :: NumberFormatter.formatHex c.toNat 2) = .ok [c] := by
    decide
  unfold encodeByte
  split
  · next hu => exact .inl ⟨rfl, hpl c (.inl hu), fun _ => hu⟩
  split
  · obtain ⟨hlen, hdig, hdec⟩ := hesc c
    obtain ⟨x, y, hxy⟩ := length_eq_two.mp hlen
    rw [hxy] at hdig hdec ⊢
    exact .inr ⟨x, y, rfl, hdig x (by simp), hdig y (by simp), hdec⟩
  · next hc =>
    simp only [← or_assoc] at hc
    rw [not_or] at hc
    exact .inl ⟨rfl, hpl c (.inr (by simpa only [← or_assoc] using hc.1)),
      fun h => absurd h hc.2⟩

theorem decode_encodeByte (reserved : Bytes) (c : UInt8) :
    decode (encodeByte reserved c) = .ok [c] := by
  rcases encodeByte_cases reserved c with ⟨h, hc, -⟩ | ⟨x, y, h, -, -, hdec⟩
  · rw [h]
    simp [decode, decodeFrom, hc.1, Except.map]
  · rw [h, hdec]

theorem isUnreserved_of_hexDigit : ∀ {c : UInt8}, (hexDigit c).isSome = true →
    isUnreserved c = true ∧ c ≠ 0x25 ∧ 0x21 ≤ c ∧ c ≤ 0x7E := by
  decide

/-- A percent sign of an encoded text starts an escape: the text before it ends between two
bytes of the original. -/
theorem encode_percent (h : encode str reserved = a ++ 0x25 :: b) :
    ∃ x y t, b = x :: y :: t ∧ (hexDigit x).isSome = true ∧ (hexDigit y).isSome = true := by
  induction str generalizing a with
  | nil => simp [encode] at h
  | cons c str ih =>
    rw [encode, flatMap_cons] at h
    rcases encodeByte_cases reserved c with ⟨hc, hne, -⟩ | ⟨x, y, hc, hx, hy, -⟩
    · rw [hc] at h
      cases a with
      | nil => exact absurd (cons.inj h).1 hne.1
      | cons d a => exact ih (cons.inj h).2
    rw [hc] at h
    match a, h with
    | [], h =>
      cases h
      exact ⟨x, y, _, rfl, hx, hy⟩
    | [_], h => exact absurd (cons.inj (cons.inj h).2).1 (isUnreserved_of_hexDigit hx).2.1
    | [_, _], h =>
      exact absurd (cons.inj (cons.inj (cons.inj h).2).2).1 (isUnreserved_of_hexDigit hy).2.1
    | _ :: _ :: _ :: a, h => exact ih (cons.inj (cons.inj (cons.inj h).2).2).2

theorem mem_encode_cases (h : d ∈ encode str reserved) :
    (0x21 ≤ d ∧ d ≤ 0x7E) ∧ (isUnreserved d = true ∨ d = 0x25 ∨ d ∈ str ∧ d ∉ reserved) := by
  obtain ⟨c, hmem, hd⟩ := mem_flatMap.mp h
  rcases encodeByte_cases reserved c with ⟨hc, hne, hr⟩ | ⟨x, y, hc, hx, hy, -⟩
  · rw [hc, mem_singleton] at hd
    subst hd
    by_cases hd : d ∈ reserved
    · exact ⟨hne.2, .inl (hr hd)⟩
    · exact ⟨hne.2, .inr (.inr ⟨hmem, hd⟩)⟩
  · rw [hc, mem_cons, mem_cons, mem_singleton] at hd
    rcases hd with rfl | rfl | rfl
    · exact ⟨by decide, .inr (.inl rfl)⟩
    · exact ⟨(isUnreserved_of_hexDigit hx).2.2, .inl (isUnreserved_of_hexDigit hx).1⟩
    · exact ⟨(isUnreserved_of_hexDigit hy).2.2, .inl (isUnreserved_of_hexDigit hy).1⟩

theorem decode_encode (str reserved : Bytes) : decode (encode str reserved) = .ok str := by
  induction str with
  | nil => rfl
  | cons c str ih =>
    rw [encode, flatMap_cons, decode_append (decode_encodeByte reserved c), ← encode, ih]
    rfl

/-- **Percent encoding is exact**: decoding undoes it, the encoded text has printable
characters only, no reserved ones but those that are never replaced and the percent sign, and
the percent sign only before two hexadecimal digits. -/
theorem encode_exact (str reserved : Bytes) :
    decode (encode str reserved) = .ok str ∧
    (∀ c ∈ encode str reserved, (0x21 ≤ c ∧ c ≤ 0x7E) ∧
      (c ∈ reserved → isUnreserved c = true ∨ c = 0x25)) ∧
    ∀ a b, encode str reserved = a ++ 0x25 :: b →
      ∃ x y t, b = x :: y :: t ∧ (hexDigit x).isSome = true ∧ (hexDigit y).isSome = true := by
  refine ⟨decode_encode str reserved, fun c hc => ?_, fun a b => encode_percent⟩
  obtain ⟨hran, h⟩ := mem_encode_cases hc
  refine ⟨hran, fun hr => ?_⟩
  rcases h with h | h | h
  · exact .inl h
  · exact .inr h
  · exact absurd hr h.2

/-- A percent sign that is reserved is in the text of its escape. -/
theorem encode_reserved_percent : ¬ ∀ c ∈ encode [0x25] [0x25], c ∈ [(0x25 : UInt8)] →
    isUnreserved c = true := by
  decide

/-! ### The place of the query -/

def queryOf (s : Bytes) : Bytes :=
  let t := s.dropWhile inPath
  if t.head? = some 0x3F then t.tail.takeWhile (· ≠ 0x23) else []

theorem dropWhile_append_stop {α : Type*} {p : α → Bool} {x : α} (hx : p x = false)
    (s t : List α) : (s ++ x :: t).dropWhile p = s.dropWhile p ++ x :: t := by
  induction s with
  | nil => simp [hx]
  | cons c s ih =>
    rw [cons_append, dropWhile_cons, dropWhile_cons]
    split
    · exact ih
    · rfl

theorem takeWhile_append_stop {α : Type*} {p : α → Bool} {x : α} (hx : p x = false)
    (s t : List α) : (s ++ x :: t).takeWhile p = s.takeWhile p := by
  induction s with
  | nil => simp [hx]
  | cons c s ih =>
    rw [cons_append, takeWhile_cons, takeWhile_cons, ih]

variable {q s : Bytes} {u v : URI}

theorem queryOf_append (hs : ∀ c ∈ s, inPath c) (t : Bytes) :
    queryOf (s ++ t) = queryOf t := by
  have hdrop : (s ++ t).dropWhile inPath = t.dropWhile inPath := by
    induction s with
    | nil => rfl
    | cons c s ih =>
      rw [cons_append, dropWhile_cons, if_pos (hs c (by simp))]
      exact ih fun d hd => hs d (by simp [hd])
  rw [queryOf, queryOf, hdrop]

theorem queryOf_question (t : Bytes) : queryOf (0x3F :: t) = t.takeWhile (· ≠ 0x23) :=
  rfl

/-- A number sign ends the text in which the query is looked for. -/
theorem queryOf_append_of_mem (hs : 0x23 ∈ s) (t : Bytes) : queryOf (s ++ t) = queryOf s := by
  obtain ⟨a, b, rfl⟩ := append_of_mem hs
  have hstop : inPath 0x23 = false := rfl
  rw [append_assoc, cons_append, queryOf, queryOf, dropWhile_append_stop hstop,
    dropWhile_append_stop hstop]
  cases hd : a.dropWhile inPath with
  | nil => rfl
  | cons c d =>
    by_cases hc : c = 0x3F
    · subst hc
      show ((d ++ 0x23 :: (b ++ t)).takeWhile _) = ((d ++ 0x23 :: b).takeWhile _)
      rw [takeWhile_append_stop (by simp), takeWhile_append_stop (by simp)]
    · simp [hc]

theorem query_parseQueryEtc (h : parseQueryEtc u s = .ok v) :
    v.query = if s.head? = some 0x3F then s.tail.takeWhile (· ≠ 0x23) else u.query := by
  rw [parseQueryEtc] at h
  have hfra : ∀ {w : URI} {t : Bytes},
      (if t.head? = some 0x23 then parseFragment w t.tail else .ok w) = .ok v →
      v.query = w.query := by
    intro w t hw
    split at hw
    · obtain ⟨d, -, rfl⟩ := Except.map_eq_ok.mp hw
      rfl
    · cases hw
      rfl
  rw [hfra h]
  split <;> rfl

theorem query_parsePathEtc (hu : u.query = []) (h : parsePathEtc u s = .ok v) :
    v.query = queryOf s := by
  rw [parsePathEtc] at h
  split at h
  · next hs =>
    subst hs
    cases h
    exact hu
  · split at h
    · obtain ⟨w, hw, h⟩ := Except.bind_eq_ok.mp h
      obtain ⟨d, -, rfl⟩ := Except.map_eq_ok.mp hw
      rw [query_parseQueryEtc h, queryOf, hu]
    · rw [query_parseQueryEtc h, queryOf, hu]

theorem query_parseHostAndPort (h : parseHostAndPort u part = .ok v) : v.query = u.query := by
  have hport : ∀ {s host : Bytes}, ((parsePort u s).map fun port =>
      ({ u with port := port, host := host.map toLower } : URI)) = .ok v → v.query = u.query := by
    intro s host hv
    obtain ⟨port, -, rfl⟩ := Except.map_eq_ok.mp hv
    rfl
  rw [parseHostAndPort] at h
  split at h
  · cases h
    rfl
  split at h
  · dsimp only at h
    split at h
    · cases h
    · exact hport h
  · exact hport h

theorem parseAuthority_ok {r : URI × Bytes} (h : parseAuthority u s = .ok r) :
    r.1.query = u.query ∧ r.2 = s.dropWhile inAuthority := by
  obtain ⟨v, hv, rfl⟩ := Except.map_eq_ok.mp h
  exact ⟨(query_parseHostAndPort hv : v.query = u.query), rfl⟩

/-! ### Adding a query -/

theorem parsePathEtc_append_query (hs : ∀ c ∈ s, inPath c) (hq : 0x23 ∉ q)
    (h : parsePathEtc u s = .ok v) :
    parsePathEtc u (s ++ 0x3F :: q) = .ok { v with query := q } := by
  have hque : inPath 0x3F = false := rfl
  have hend : ∀ c ∈ q, decide (c ≠ 0x23) = true :=
    fun c hc => decide_eq_true (ne_of_mem_of_not_mem hc hq)
  have hetc : ∀ w : URI, parseQueryEtc w (0x3F :: q) = .ok { w with query := q } := by
    intro w
    rw [parseQueryEtc, head?_cons, if_pos rfl, tail_cons, parseQuery,
      takeWhile_eq_self_iff.mpr hend, dropWhile_eq_nil_iff.mpr hend]
    rfl
  have htake : s.takeWhile inPath = s := takeWhile_eq_self_iff.mpr hs
  have hdrop : s.dropWhile inPath = [] := dropWhile_eq_nil_iff.mpr hs
  rw [parsePathEtc, if_neg (by simp), takeWhile_append_stop hque,
    dropWhile_append_stop hque, htake, hdrop, nil_append]
  cases s with
  | nil =>
    cases h
    exact hetc u
  | cons c s =>
    have hc : inPath c = true := hs c (by simp)
    rw [parsePathEtc, if_neg (by simp), htake, hdrop, headD_cons, if_pos hc] at h
    rw [cons_append, headD_cons, if_pos hc]
    obtain ⟨w, hw, h⟩ := Except.bind_eq_ok.mp h
    cases h
    rw [hw]
    exact hetc w

theorem parseAuthority_append_query :
    parseAuthority u (s ++ 0x3F :: q)
      = (parseAuthority u s).map fun r => (r.1, r.2 ++ 0x3F :: q) := by
  have hque : inAuthority 0x3F = false := rfl
  rw [parseAuthority, parseAuthority, takeWhile_append_stop hque,
    dropWhile_append_stop hque]
  cases parseHostAndPort u (splitUserInfo (s.takeWhile inAuthority)).2 <;> rfl

theorem queryOf_dropWhile {p : UInt8 → Bool} (hp : ∀ c, p c = true → inPath c = true)
    (s : Bytes) : queryOf s = queryOf (s.dropWhile p) := by
  conv_lhs => rw [← takeWhile_append_dropWhile (p := p) (l := s)]
  rw [queryOf_append]
  intro c hc
  exact hp c (mem_takeWhile_imp hc)

/-- **What is left after the scheme and the authority**, also if a query is added to the text. -/
theorem parse_eq_ok (h : parse s = .ok u) (q : Bytes) : ∃ (w : URI) (t : Bytes),
    t <:+ s ∧ queryOf s = queryOf t ∧ w.query = [] ∧ parsePathEtc w t = .ok u ∧
      parse (s ++ 0x3F :: q) = parsePathEtc w (t ++ 0x3F :: q) := by
  have hque : inScheme 0x3F = false := rfl
  cases s with
  | nil =>
    cases h
    exact ⟨{}, [], suffix_rfl, rfl, rfl, rfl, rfl⟩
  | cons c s =>
    rw [parse, head?_cons] at h
    rw [cons_append, parse, head?_cons, ← cons_append]
    dsimp only at h ⊢
    rw [dropWhile_append_stop hque, takeWhile_append_stop hque]
    split at h
    · next hc =>
      rw [if_pos hc]
      split at h
      · next hcol =>
        obtain ⟨t, ht⟩ := head?_eq_some_iff.mp hcol
        have hsuf : t <:+ c :: s := (suffix_cons _ t).trans (ht ▸ dropWhile_suffix inScheme)
        have hqry : queryOf (c :: s) = queryOf t := by
          rw [queryOf_dropWhile (p := inScheme) (by decide), ht]
          exact queryOf_append (s := [0x3A]) (by decide) t
        rw [ht, tail_cons] at h
        rw [ht, cons_append, head?_cons, if_pos rfl, tail_cons, if_neg (by simp)]
        split at h
        · cases h
        next hne =>
        split at h
        · next hsl =>
          obtain ⟨r, rfl⟩ : ∃ r, t = [0x2F, 0x2F] ++ r :=
            ⟨t.drop 2, by rw [← hsl, take_append_drop]⟩
          obtain ⟨w, hw, h⟩ := Except.bind_eq_ok.mp h
          obtain ⟨hnone, hrest⟩ := parseAuthority_ok hw
          refine ⟨w.1, w.2, ?_, ?_, hnone, h, ?_⟩
          · rw [hrest]
            exact (dropWhile_suffix _).trans ((suffix_append _ r).trans hsuf)
          · rw [hrest, hqry, queryOf_append (by decide)]
            exact queryOf_dropWhile (by decide) r
          · rw [if_pos (by simp)]
            show (parseAuthority _ (r ++ 0x3F :: q) >>= fun r => parsePathEtc r.1 r.2) = _
            rw [parseAuthority_append_query]
            exact hw ▸ rfl
        · next hsl =>
          refine ⟨_, t, hsuf, hqry, rfl, h, if_neg ?_⟩
          match t, hne, hsl with
          | [d], _, _ => simp
          | d :: e :: t, _, hsl => exact hsl
      · next hcol =>
        refine ⟨{}, c :: s, suffix_rfl, rfl, rfl, h, if_neg ?_⟩
        cases ht : (c :: s).dropWhile inScheme with
        | nil => simp
        | cons d t =>
          rw [ht] at hcol
          exact hcol
    · next hc => exact ⟨{}, c :: s, suffix_rfl, rfl, rfl, h, if_neg hc⟩

theorem query_of_parse (h : parse s = .ok u) : u.query = queryOf s := by
  obtain ⟨w, t, -, hqry, hw, h, -⟩ := parse_eq_ok h []
  rw [query_parsePathEtc hw h, hqry]

/-- A query can be put at the end of a text that has no query and no fragment. -/
theorem parse_append_query (hs : ∀ c ∈ s, inPath c) (hq : 0x23 ∉ q) (h : parse s = .ok u) :
    parse (s ++ 0x3F :: q) = .ok { u with query := q } := by
  obtain ⟨w, t, hsuf, -, -, h, heq⟩ := parse_eq_ok h q
  rw [heq]
  exact parsePathEtc_append_query (fun c hc => hs c (hsuf.subset hc)) hq h

end URI

end Poco
