import Poco.JSON.Assertions
import Poco.JSON.Building
import Poco.JSON.Integers
import Poco.JSON.Nesting
import Poco.JSON.Weight
import Poco.Lib.Outcome

/-!
# The parser does not deliver more than it reads

What the parser has delivered is never heavier than what it has read.  In the middle of an
escape the account rests on the two bytes before the digits, since the parser also appends bytes
above the ASCII range there.

## Main definitions

* `pending`: the weight of what is in the buffer.  A backslash in the buffer that begins an
  escape counts one, not two; a high surrogate that is pending counts five.
* `account`: what has been delivered, and what is pending.
* `Braced`: the buffer in the middle of an escape.

## Main results

* `balanced_next`, `balanced_act`: the account before and after a transition or an action.
* `account_reaches`: a run delivers, with what is pending, no more than it has read.
* `demand_le_of_parse`: the value of a well-formed text is not heavier than the text.
-/

namespace Poco.JSON

open List Grammar JSONType

variable {D : Type}

/-! ### The weight of the callbacks -/

def Callback.demand : Callback D → ℕ
  | .key k => JSON.demand k
  | .string s => JSON.demand s
  | .bool b => if b then 1 else 3
  | .int v | .int64 v | .unsigned v | .uint64 v => supply (NumberFormatter.format v)
  | _ => 0

def logDemand (l : List (Callback D)) : ℕ := (l.map Callback.demand).sum

@[simp] theorem logDemand_nil : logDemand ([] : List (Callback D)) = 0 := rfl

@[simp] theorem logDemand_cons (c : Callback D) (l : List (Callback D)) :
    logDemand (c :: l) = c.demand + logDemand l := by
  simp [logDemand]

@[simp] theorem logDemand_append (l l' : List (Callback D)) :
    logDemand (l ++ l') = logDemand l + logDemand l' := by
  simp [logDemand]

theorem membersDemand_eq (ms : List (Bytes × Var D)) :
    membersDemand ms = (ms.map fun m => demand m.1 + m.2.demand).sum := by
  induction ms with
  | nil => rfl
  | cons m ms ih => simp [membersDemand, ih]

theorem membersDemand_set_le (ms : List (Bytes × Var D)) (k : Bytes) (v : Var D) :
    membersDemand (SortedAssoc.set ms k v) ≤ membersDemand ms + (demand k + v.demand) := by
  rw [membersDemand_eq, membersDemand_eq]
  exact SortedAssoc.sum_set_le (fun m => demand m.1 + m.2.demand) k v ms

mutual

/-- **A tree is not heavier than the walk over it.** -/
theorem Builds.demand_le : ∀ {l : List (Callback D)} {x : Var D}, Builds l x →
    x.demand ≤ logDemand l
  | _, _, .scalar (c := c) h => by
    cases c <;> cases h <;> exact le_rfl
  | _, .array vs, .array hl => by
    have hle := BuildsElements.demand_le hl
    simpa [Var.demand, Callback.demand] using hle
  | _, .object ms, .object hl => by
    have hle := BuildsMembers.demand_le hl
    simpa [Var.demand, Callback.demand, membersDemand] using hle

theorem BuildsElements.demand_le : ∀ {l : List (Callback D)} {vs : List (Var D)},
    BuildsElements l vs → elementsDemand vs ≤ logDemand l
  | _, _, .nil => le_rfl
  | _, _, .cons he hl => by
    have h1 := Builds.demand_le he
    have h2 := BuildsElements.demand_le hl
    rw [elementsDemand, logDemand_append]
    omega

theorem BuildsMembers.demand_le : ∀ {ms : List (Bytes × Var D)} {l : List (Callback D)}
    {ms' : List (Bytes × Var D)}, BuildsMembers ms l ms' →
    membersDemand ms' ≤ membersDemand ms + logDemand l
  | _, _, _, .nil => le_rfl
  | ms, _, _, .cons (v := v) k he hl => by
    have h1 := Builds.demand_le he
    have h2 := BuildsMembers.demand_le hl
    have h3 := membersDemand_set_le ms k v
    simp only [logDemand_cons, logDemand_append, Callback.demand]
    omega

end

/-! ### The account -/

def States.inString : States → Bool
  | .ST | .EC | .U1 | .U2 | .U3 | .U4 | .D1 | .D2 => true
  | _ => false

/-- What the letters of a literal and the first digit of a number amount to. -/
def States.reserve : States → JSONType → ℕ
  | .F1, _ => 1
  | .F2, _ | .F3, _ | .F4, _ => 2
  | .OK, JSON_T_FALSE => 3
  | .ZE, _ | .IT, _ | .OK, JSON_T_INTEGER | .OK, JSON_T_TRUE => 1
  | _, _ => 0

def Classes.weight (k : Classes) : ℕ := if k.isHex ∨ k = .C_BACKS then 1 else 0

variable {c : UInt8} {k : Classes}

theorem weight_of_asciiClass (h : asciiClass c = some k) :
    supplyByte c = k.weight ∧
      (k ≠ .C_QUOTE → k ≠ .C_BACKS → k ≠ .C_WHITE → demandByte c = k.weight) := by
  revert c k
  apply forall_class
  decide

/-- The transitions to a state: outside strings the reserve grows by the weight of the
character at most, and inside they copy it, end an escape or go on with one. -/
theorem next_account : ∀ {s : States} {k : Classes} {s' : States}, transition s k = .next s' →
    (s.inString = false ∧ s'.inString = false ∧
      ∀ t, s.typeOk t → s'.reserve t ≤ s.reserve t + k.weight) ∨
    (s = .ST ∧ s' = .ST ∧ k ≠ .C_QUOTE ∧ k ≠ .C_BACKS ∧ k ≠ .C_WHITE) ∨
    (s = .EC ∧ s' = .ST ∧ k ≠ .C_LOW_U) ∨
    ((s = .EC ∨ s = .D2) ∧ s' = .U1 ∧ k = .C_LOW_U) ∨
    (s.hexRead.isSome ∧ s'.hexRead = s.hexRead.map (· + 1) ∧ k.isHex) ∨
    (s = .D1 ∧ s' = .D2 ∧ k = .C_BACKS) := by
  apply forall_next
  decide

namespace Parser

def pending (p : Parser D) : ℕ :=
  match p.state with
  | .ST => demand p.buffer
  | .EC => demand p.buffer - 1
  | .U1 | .U2 | .U3 | .U4 =>
    if p.utf16HighSurrogate = 0 then demand p.buffer - 1 else demand p.buffer + 4
  | .D1 => demand p.buffer + 5
  | .D2 => demand p.buffer + 4
  | s => max (s.reserve p.type)
      (if p.type = JSON_T_NONE ∨ p.type = JSON_T_INTEGER then supply p.buffer else 0)

def account (p : Parser D) : ℕ := logDemand p.log + p.pending

variable {p q : Parser D} {n : ℕ} {b bs : Bytes} {s : States}

theorem pending_of_not_inString (h : p.state.inString = false) :
    p.pending = max (p.state.reserve p.type)
      (if p.type = JSON_T_NONE ∨ p.type = JSON_T_INTEGER then supply p.buffer else 0) := by
  unfold pending
  cases hs : p.state <;> rw [hs] at h <;> first | rfl | cases h

theorem pending_of_hexRead (h : p.state.hexRead = some n) :
    p.pending = if p.utf16HighSurrogate = 0 then demand p.buffer - 1 else demand p.buffer + 4 := by
  unfold pending
  cases hs : p.state <;> rw [hs] at h <;> first | rfl | cases h

/-- The buffer in a unicode escape: two bytes that count as much as a backslash, and the
digits that have been read; or a byte above the ASCII range in place of a digit. -/
def Opened (n : ℕ) (b : Bytes) : Prop :=
  (∃ a x y ds, b = a ++ x :: y :: ds ∧ 2 ≤ demandByte x + demandByte y ∧ ds.length = n ∧
    n ≤ demand ds) ∨
  ∃ a ds, b = a ++ ds ∧ ds.length = n ∧ ∃ c ∈ ds, 0x80 ≤ c

structure Braced (p : Parser D) : Prop where
  /-- The backslash, or the end of a multi-byte sequence after it. -/
  escape : p.state = .EC ∨ p.state = .D2 → ∃ a c, p.buffer = a ++ [c] ∧ 2 ≤ demandByte c
  unicode : ∀ n, p.state.hexRead = some n → Opened n p.buffer

theorem braced_of_plain (h : p.state.inString = false ∨ p.state = .ST ∨
    p.state = .D1) : Braced p := by
  have key : ∀ s : States, s.inString = false ∨ s = .ST ∨ s = .D1 →
      ¬ (s = .EC ∨ s = .D2) ∧ s.hexRead = none := by decide
  obtain ⟨h1, h2⟩ := key _ h
  exact ⟨fun hs => absurd hs h1, fun n hn => by rw [h2] at hn; cases hn⟩

theorem Opened.digit (h : Opened n b) (hc : 1 ≤ demandByte c) : Opened (n + 1) (b ++ [c]) := by
  rcases h with ⟨a, x, y, ds, rfl, hxy, hlen, hds⟩ | ⟨a, ds, rfl, hlen, d, hd, hraw⟩
  · refine .inl ⟨a, x, y, ds ++ [c], by simp, hxy, by simp [hlen], ?_⟩
    simp only [demand_append, demand_cons]
    omega
  · exact .inr ⟨a, ds ++ [c], by simp, by simp [hlen], d, mem_append_left _ hd, hraw⟩

theorem demandByte_tail : ∀ c : UInt8, Utf8.isTail c = true → demandByte c = 2 ∧ 0x80 ≤ c := by
  decide

/-- A multi-byte sequence inside an escape takes the place of its begin, or of a digit. -/
theorem Opened.raw (h : Opened n b) (hbs : Utf8.isSeq bs = true) : Opened n (b ++ bs) := by
  obtain ⟨a', x, z, rfl, hz⟩ := Utf8.isSeq_eq_append hbs
  obtain ⟨hz2, hz80⟩ := demandByte_tail z hz
  have hlen : n ≤ b.length := by
    rcases h with ⟨a, x, y, ds, rfl, -, hlen, -⟩ | ⟨a, ds, rfl, hlen, -⟩
    · simp
      omega
    · simp [hlen]
  cases n with
  | zero => exact .inl ⟨b ++ a', x, z, [], by simp, by omega, rfl, le_rfl⟩
  | succ n =>
    -- the last of the `n + 1` bytes at the end is above the ASCII range
    generalize hu : b ++ a' ++ [x] = u
    have hlen' : n ≤ u.length := by
      rw [← hu]
      simp
      omega
    refine .inr ⟨u.take (u.length - n), u.drop (u.length - n) ++ [z], ?_, ?_, z, by simp, hz80⟩
    · rw [← append_assoc (u.take _), ← hu]
      simp
    · rw [length_append, length_drop, length_singleton]
      omega

/-- The six bytes that are removed at the end of a unicode escape. -/
theorem Opened.take (h : Opened 4 b)
    (hds : ((b.drop (b.length - 4)).all fun c => hexDigit c < 16) = true) :
    demand (b.take (b.length - 6)) + 6 ≤ demand b := by
  rcases h with ⟨a, x, y, ds, rfl, hxy, hlen, hd⟩ | ⟨a, ds, rfl, hlen, c, hc, hraw⟩
  · have htake : (a ++ x :: y :: ds).length - 6 = a.length := by
      simp [hlen]
    rw [htake, take_left']
    · simp only [demand_append, demand_cons]
      omega
    · rfl
  · have key : ∀ c : UInt8, 0x80 ≤ c → ¬ hexDigit c < 16 := by decide
    have hdrop : (a ++ ds).drop ((a ++ ds).length - 4) = ds := by
      rw [length_append, hlen, Nat.add_sub_cancel, drop_left]
    rw [hdrop, all_eq_true] at hds
    exact absurd (of_decide_eq_true (hds c hc)) (key c hraw)

/-! ### Transitions -/

def Balanced (p q : Parser D) (l : Bytes) : Prop := Braced q ∧ q.account ≤ p.account + supply l

theorem balanced_raw (hp : Braced p) (hbs : Utf8.isSeq bs = true) :
    Balanced p { p with buffer := p.buffer ++ bs } bs := by
  have hraw : demand bs = supply bs := demand_raw (Utf8.le_of_mem_isSeq hbs)
  constructor
  · constructor
    · intro hs
      obtain ⟨a, x, z, rfl, hz⟩ := Utf8.isSeq_eq_append hbs
      exact ⟨p.buffer ++ a ++ [x], z, by simp, (demandByte_tail z hz).1.ge⟩
    · exact fun n hn => (hp.unicode n hn).raw hbs
  · unfold account pending
    dsimp only
    split <;> simp only [demand_append, supply_append, hraw] <;> (try split_ifs) <;> omega

theorem balanced_next_plain (hi : Inv p) (hk : asciiClass c = some k)
    (hs : p.state.inString = false) (hs' : s.inString = false)
    (hres : ∀ t, p.state.typeOk t → s.reserve t ≤ p.state.reserve t + k.weight) :
    Balanced p { fed p c k with state := s } [c] := by
  have hEC : p.state ≠ .EC := by
    intro h
    rw [h] at hs
    cases hs
  have hbuf : supply (p.buffer ++ appended p c k) ≤ supply p.buffer + supplyByte c := by
    unfold appended
    split
    · simp
    · simp
  have hr := hres _ hi.type
  rw [← (weight_of_asciiClass hk).1] at hr
  rw [fed_of_not_escaped (by simpa [hEC] using hi.escaped)]
  refine ⟨braced_of_plain (.inl hs'), ?_⟩
  unfold account
  rw [pending_of_not_inString hs, pending_of_not_inString hs', supply_cons, supply_nil]
  dsimp only
  split <;> omega

theorem Inv.fed_inString (hi : Inv p) (hs : p.state.inString = true) (hEC : p.state ≠ .EC)
    (c : UInt8) (k : Classes) : fed p c k = { p with buffer := p.buffer ++ [c] } := by
  have key : ∀ (s : States) (t : JSONType), s.inString = true → s.typeOk t →
      t = JSON_T_STRING ∧ s.isComment = false := by decide
  obtain ⟨ht, hc⟩ := key _ _ hs hi.type
  have hcom : p.comment = false := by rw [hi.comment, hc]
  rw [fed_of_not_escaped (by simpa [hEC] using hi.escaped)]
  simp [appended, ht, hcom]

theorem balanced_copy (hi : Inv p) (hk : asciiClass c = some k) (hs : p.state = .ST)
    (h1 : k ≠ .C_QUOTE) (h2 : k ≠ .C_BACKS) (h3 : k ≠ .C_WHITE) :
    Balanced p { fed p c k with state := .ST } [c] := by
  obtain ⟨hsup, hdem⟩ := weight_of_asciiClass hk
  have hc := hdem h1 h2 h3
  rw [hi.fed_inString (by rw [hs]; rfl) (by simp [hs])]
  refine ⟨braced_of_plain (.inr (.inl rfl)), ?_⟩
  unfold account pending
  rw [hs]
  simp only [demand_append, demand_cons, demand_nil, supply_cons, supply_nil]
  omega

theorem fed_escape (hi : Inv p) (hs : p.state = .EC) (c : UInt8) (k : Classes) :
    fed p c k = { p with escaped := false, buffer := p.buffer.dropLast ++ escapeBytes c } := by
  have hesc : p.escaped = true := by simpa [hs] using hi.escaped
  rw [fed, if_pos hesc]

theorem balanced_escape (hi : Inv p) (hp : Braced p) (hk : asciiClass c = some k)
    (hs : p.state = .EC) (hu : k ≠ .C_LOW_U) : Balanced p { fed p c k with state := .ST } [c] := by
  have key : ∀ c : UInt8, c ≠ 0x75 → demand (escapeBytes c) ≤ supplyByte c + 1 := by decide
  have hc : demand (escapeBytes c) ≤ supplyByte c + 1 := by
    refine key c ?_
    rintro rfl
    cases hk
    exact hu rfl
  obtain ⟨a, x, hb, hx⟩ := hp.escape (.inl hs)
  rw [fed_escape hi hs]
  refine ⟨braced_of_plain (.inr (.inl rfl)), ?_⟩
  unfold account pending
  rw [hs]
  simp only [hb, dropLast_concat, demand_append, demand_cons, demand_nil, supply_cons, supply_nil]
  omega

theorem balanced_open (hi : Inv p) (hp : Braced p) (hk : asciiClass c = some .C_LOW_U)
    (hs : p.state = .EC ∨ p.state = .D2) :
    Balanced p { fed p c .C_LOW_U with state := .U1 } [c] := by
  obtain rfl := eq_of_class_u c hk
  obtain ⟨a, x, hb, hx⟩ := hp.escape hs
  have hu : demandByte 0x75 = 0 ∧ supplyByte 0x75 = 0 ∧ demandByte 0x5C = 2 := by decide
  rcases hs with hs | hs
  · -- the backslash is replaced by a backslash and `u`
    rw [fed_escape hi hs]
    refine ⟨⟨nofun, ?_⟩, ?_⟩
    · intro n hn
      cases hn
      refine .inl ⟨a, 0x5C, 0x75, [], ?_, by omega, rfl, le_rfl⟩
      rw [hb, dropLast_concat]
      rfl
    · have hsur : p.utf16HighSurrogate = 0 := by
        by_contra h
        have := hi.surrogate h
        rw [hs] at this
        cases this
      unfold account pending
      rw [hs, show escapeBytes 0x75 = [0x5C, 0x75] from rfl]
      simp only [hsur, hb, dropLast_concat, demand_append, demand_cons, demand_nil,
        supply_cons, supply_nil, if_true]
      omega
  · rw [hi.fed_inString (by rw [hs]; rfl) (by simp [hs])]
    refine ⟨⟨nofun, ?_⟩, ?_⟩
    · intro n hn
      cases hn
      refine .inl ⟨a, x, 0x75, [], ?_, by omega, rfl, le_rfl⟩
      rw [hb]
      simp
    · unfold account pending
      rw [hs]
      simp only [demand_append, demand_cons, demand_nil, supply_cons, supply_nil]
      split <;> omega

theorem weight_of_isHex (hk : asciiClass c = some k) (hhex : k.isHex) :
    demandByte c = 1 ∧ supplyByte c = 1 := by
  obtain ⟨hsup, hdem⟩ := weight_of_asciiClass hk
  have hw : k.weight = 1 := if_pos (.inl hhex)
  have hne : ∀ k : Classes, k.isHex → k ≠ .C_QUOTE ∧ k ≠ .C_BACKS ∧ k ≠ .C_WHITE := by
    intro k
    cases k <;> decide
  obtain ⟨h1, h2, h3⟩ := hne k hhex
  exact ⟨(hdem h1 h2 h3).trans hw, hsup.trans hw⟩

theorem balanced_digit (hi : Inv p) (hp : Braced p) (hk : asciiClass c = some k)
    (hn : p.state.hexRead = some n) (hs : s.hexRead = some (n + 1)) (hhex : k.isHex) :
    Balanced p { fed p c k with state := s } [c] := by
  have key : ∀ s : States, s.hexRead.isSome → s.inString = true ∧ ¬ (s = .EC ∨ s = .D2) := by decide
  obtain ⟨hstr, hEC⟩ := key p.state (by rw [hn]; rfl)
  obtain ⟨-, hEC'⟩ := key s (by rw [hs]; rfl)
  have hc := weight_of_isHex hk hhex
  rw [hi.fed_inString hstr (fun h => hEC (.inl h))]
  refine ⟨⟨fun h => absurd h hEC', ?_⟩, ?_⟩
  · intro m hm
    have hm : s.hexRead = some m := hm
    rw [hs] at hm
    cases hm
    exact (hp.unicode n hn).digit hc.1.ge
  · unfold account
    rw [pending_of_hexRead hn, pending_of_hexRead (by exact hs)]
    simp only [demand_append, demand_cons, demand_nil, supply_cons, supply_nil]
    split <;> omega

theorem weight_of_backslash : ∀ c : UInt8, asciiClass c = some .C_BACKS →
    demandByte c = 2 ∧ supplyByte c = 1 := by decide

theorem balanced_second (hi : Inv p) (hk : asciiClass c = some .C_BACKS) (hs : p.state = .D1) :
    Balanced p { fed p c .C_BACKS with state := .D2 } [c] := by
  obtain ⟨hdem, hsup⟩ := weight_of_backslash c hk
  rw [hi.fed_inString (by rw [hs]; rfl) (by simp [hs])]
  refine ⟨⟨fun _ => ⟨p.buffer, c, rfl, hdem.ge⟩, nofun⟩, ?_⟩
  unfold account pending
  rw [hs]
  simp only [demand_append, demand_cons, demand_nil, supply_cons, supply_nil]
  omega

theorem balanced_next (hi : Inv p) (hp : Braced p) (hk : asciiClass c = some k)
    (ht : transition p.state k = .next s) : Balanced p { fed p c k with state := s } [c] := by
  rcases next_account ht with ⟨hs, hs', hres⟩ | ⟨hs, rfl, h1, h2, h3⟩ | ⟨hs, rfl, hu⟩ |
    ⟨hs, rfl, rfl⟩ | ⟨hs, hs', hhex⟩ | ⟨hs, rfl, rfl⟩
  · exact balanced_next_plain hi hk hs hs' hres
  · exact balanced_copy hi hk hs h1 h2 h3
  · exact balanced_escape hi hp hk hs hu
  · exact balanced_open hi hp hk hs
  · obtain ⟨n, hn⟩ := Option.isSome_iff_exists.mp hs
    rw [hn] at hs'
    exact balanced_digit hi hp hk hn hs' hhex
  · exact balanced_second hi hk hs

/-! ### Actions -/

theorem supply_format_le (h : v.natAbs < 10 ^ b.countP isDecDigit) :
    supply (NumberFormatter.format v) ≤ max 1 (supply b) := by
  have hone : ∀ c : UInt8, isDecDigit c = true → supplyByte c = 1 := by decide
  have hdigs : ∀ ds : Bytes, (∀ c ∈ ds, isDecDigit c = true) → supply ds = ds.length := by
    intro ds hds
    rw [supply, map_congr_left fun c hc => hone c (hds c hc), map_const',
      sum_replicate_nat, mul_one]
  have hcnt : b.countP isDecDigit ≤ supply b := by
    rw [countP_eq_length_filter, ← hdigs _ fun c hc => (mem_filter.mp hc).2]
    exact (filter_sublist.map supplyByte).sum_le_sum fun _ _ => Nat.zero_le _
  obtain ⟨ds, hds, hdec⟩ := NumberFormatter.format_eq v
  have hsup : supply (NumberFormatter.format v) = ds.length := by
    rw [hds, supply_append, hdigs ds hdec.digits]
    split <;> exact Nat.zero_add _
  have hpow : v.natAbs < 10 ^ max 1 (b.countP isDecDigit) :=
    h.trans_le (Nat.pow_le_pow_right (by omega) (le_max_right _ _))
  have hlen := hdec.length_le hpow (le_max_left _ _)
  omega

theorem reserve_of_from : ∀ s : States, Actions.from .m7 s → ∀ t : JSONType, s.typeOk t →
    s.inString = false ∧ t ≠ JSON_T_STRING ∧ (t = JSON_T_FALSE → 3 ≤ s.reserve t) ∧
      (t = JSON_T_TRUE → 1 ≤ s.reserve t) ∧ (t = JSON_T_INTEGER → 1 ≤ s.reserve t) := by decide

variable [StrToDouble D]

theorem demand_of_floatValue {c : Callback D} (h : floatValue b = .ok c) :
    logDemand (some c).toList = 0 := by
  unfold floatValue at h
  split at h
  · cases h
  split at h
  · cases h
  · split at h
    · cases h
      rfl
    · cases h

omit [StrToDouble D] in
theorem demand_of_intValue {c : Callback D} (h : c.intValue = some v) :
    c.demand = supply (NumberFormatter.format v) := by
  cases c <;> cases h <;> rfl

/-- **What is delivered at the end of a value was pending.** -/
theorem logDemand_delivered_le (hi : Inv p) (hh : p.pHandler = true) (hs : Actions.from .m7 p.state)
    {l : List (Callback D)} (hl : delivered p = .ok l) : logDemand l ≤ p.pending := by
  obtain ⟨hstr, hne, hfal, htrue, hint⟩ := reserve_of_from _ hs _ hi.type
  rw [pending_of_not_inString hstr]
  rw [delivered, if_pos hh] at hl
  cases ht : p.type with
  | JSON_T_NONE | JSON_T_NULL =>
    rw [ht] at hl
    cases hl
    exact Nat.zero_le _
  | JSON_T_STRING => exact absurd ht hne
  | JSON_T_TRUE =>
    rw [ht] at hl
    cases hl
    rw [← ht]
    exact (htrue ht).trans (le_max_left _ _)
  | JSON_T_FALSE =>
    rw [ht] at hl
    cases hl
    rw [← ht]
    exact (hfal ht).trans (le_max_left _ _)
  | JSON_T_FLOAT =>
    rw [ht] at hl
    obtain ⟨o, hb, rfl⟩ := Except.map_eq_ok.mp hl
    obtain ⟨c, hf, rfl⟩ := Except.map_eq_ok.mp hb
    rw [demand_of_floatValue hf]
    exact Nat.zero_le _
  | JSON_T_INTEGER =>
    rw [ht] at hl
    obtain ⟨o, hb, rfl⟩ := Except.map_eq_ok.mp hl
    obtain ⟨c, hf, rfl⟩ := Except.map_eq_ok.mp hb
    obtain ⟨v, hv, hlt⟩ := integerValue_lt hf
    have hle := supply_format_le hlt
    have hres := hint ht
    rw [ht] at hres
    rw [if_pos (.inr rfl), Option.toList_some, logDemand_cons, logDemand_nil,
      demand_of_intValue hv]
    omega

omit [StrToDouble D] in
theorem hexValue_lt (hlen : ds.length = 4)
    (h : (ds.all fun c => hexDigit c < 16) = true) : hexValue ds < 0x10000 := by
  match ds, hlen with
  | [a, b, c, d], _ =>
    simp only [all_cons, Bool.and_eq_true, decide_eq_true_eq] at h
    simp only [hexValue, foldl_cons, foldl_nil]
    omega

theorem demandByte_trail (n : ℕ) : demandByte (UInt8.ofNat (0x80 + n % 64)) = 2 := by
  have key : ∀ n : Fin 64, demandByte (UInt8.ofNat (0x80 + n)) = 2 := by decide
  exact key ⟨n % 64, Nat.mod_lt _ (by omega)⟩

theorem demand_utf8Trail (uc : ℕ) : ∀ n : ℕ, demand (utf8Trail uc n) = 2 * n
  | 0 => rfl
  | n + 1 => by
    rw [utf8Trail, demand_cons, demandByte_trail, demand_utf8Trail uc n]
    omega

theorem demand_utf8Encode (h1 : 0xC0 ≤ utf8LeadBits trailBytes + uc / 64 ^ trailBytes)
    (h2 : utf8LeadBits trailBytes + uc / 64 ^ trailBytes < 0x100) :
    demand (utf8Encode uc trailBytes) = 2 * trailBytes := by
  have key : ∀ n : Fin 256, 0xC0 ≤ n.val → demandByte (UInt8.ofNat n) = 0 := by decide +kernel
  rw [utf8Encode, demand_cons, key ⟨_, h2⟩ h1, demand_utf8Trail, zero_add]

theorem demandByte_le : ∀ c : UInt8, demandByte c ≤ 5 := by decide

/-- A unit needs five at most, and so does the high surrogate that is kept; a pair of
surrogates needs six. -/
theorem demand_of_decoded (hn : n < 0x10000) (h : decoded hi n = some (bs, hi')) :
    (hi = 0 → demand bs + (if hi' = 0 then 0 else 5) ≤ 5) ∧
      (hi ≠ 0 → hi' = 0 ∧ demand bs ≤ 6) := by
  unfold decoded at h
  by_cases hhi : hi = 0
  · refine ⟨fun _ => ?_, fun hne => absurd hhi hne⟩
    rw [if_neg (fun hne => hne hhi)] at h
    split_ifs at h with h1 h2 h3 h4
    · cases h
      simpa [utf8Encode, utf8Trail] using demandByte_le _
    · cases h
      rw [demand_utf8Encode (show 0xC0 ≤ 0xC0 + n / 64 ^ 1 by omega)
        (show 0xC0 + n / 64 ^ 1 < 0x100 by omega)]
      decide
    · cases h
      rw [demand_nil]
      split <;> omega
    · cases h
      rw [demand_utf8Encode (show 0xC0 ≤ 0xE0 + n / 64 ^ 2 by omega)
        (show 0xE0 + n / 64 ^ 2 < 0x100 by omega)]
      decide
  · refine ⟨fun h0 => absurd h0 hhi, fun _ => ?_⟩
    split_ifs at h with h1
    cases h
    have hlt : decodeSurrogatePair hi n < 0x110000 := by
      unfold decodeSurrogatePair
      omega
    rw [demand_utf8Encode (show 0xC0 ≤ 0xF0 + decodeSurrogatePair hi n / 64 ^ 3 by omega)
      (show 0xF0 + decodeSurrogatePair hi n / 64 ^ 3 < 0x100 by omega)]
    decide

omit [StrToDouble D] in
theorem balanced_unicode (hp : Braced p) (hs : p.state = .U4) (hk : asciiClass c = some k)
    (hhex : k.isHex) (hlen : 6 ≤ (p.buffer ++ [c]).length)
    (hd : (((p.buffer ++ [c]).drop ((p.buffer ++ [c]).length - 4)).all
      fun c => hexDigit c < 16) = true)
    (hdec : decoded p.utf16HighSurrogate (hexValue ((p.buffer ++ [c]).drop
      ((p.buffer ++ [c]).length - 4))) = some (bs, hi)) : Balanced p { p with
      buffer := (p.buffer ++ [c]).take ((p.buffer ++ [c]).length - 6) ++ bs,
      utf16HighSurrogate := hi, state := if hi ≠ 0 then .D1 else .ST } [c] := by
  obtain ⟨hdem, hsup⟩ := weight_of_isHex hk hhex
  have htake := ((hp.unicode 3 (by rw [hs]; rfl)).digit hdem.ge).take hd
  have hlt := hexValue_lt (by rw [length_drop]; omega) hd
  obtain ⟨hzero, hpair⟩ := demand_of_decoded hlt hdec
  have hold : p.pending = if p.utf16HighSurrogate = 0 then demand p.buffer - 1
      else demand p.buffer + 4 := pending_of_hexRead (n := 3) (by rw [hs]; rfl)
  have hdmn : demand (p.buffer ++ [c]) = demand p.buffer + 1 := by
    rw [demand_append, demand_cons, demand_nil, hdem]
  constructor
  · refine braced_of_plain (.inr ?_)
    by_cases hhi : hi = 0
    · exact .inl (if_neg fun h => h hhi)
    · exact .inr (if_pos hhi)
  unfold account
  rw [hold, supply_cons, hsup]
  by_cases hhi : hi = 0
  · -- the character has been decoded
    subst hhi
    show logDemand p.log + demand (_ ++ bs) ≤ _
    rw [demand_append]
    by_cases h0 : p.utf16HighSurrogate = 0
    · rw [if_pos h0]
      omega
    · rw [if_neg h0]
      omega
  · -- a high surrogate is kept
    have h0 : p.utf16HighSurrogate = 0 := by
      by_contra h0
      exact hhi (hpair h0).1
    have hbs := hzero h0
    rw [if_neg hhi] at hbs
    rw [if_pos h0, if_pos hhi]
    show logDemand p.log + (demand (_ ++ bs) + 5) ≤ _
    rw [demand_append]
    omega

omit [StrToDouble D] in
theorem pending_of_none (hs : p.state.inString = false) (ht : p.type = JSON_T_NONE)
    (hr : p.state.reserve JSON_T_NONE = 0) : p.pending = supply p.buffer := by
  rw [pending_of_not_inString hs, ht, hr, if_pos (.inl rfl), Nat.zero_max]

theorem reserve_none : ∀ s : States, s.typeOk JSON_T_NONE → s.reserve JSON_T_NONE = 0 ∧
    s.inString = false := by decide

theorem isHex_of_begin (h : transition s k = .act a)
    (ha : a = .ZX ∨ a = .IX ∨ a = .FA) : k.isHex := by
  exact forall_act (P := fun _ k a => a = .ZX ∨ a = .IX ∨ a = .FA → k.isHex) (by decide) s k a h ha

omit [StrToDouble D] in
/-- An action that delivers a weight of `d`, and leaves the parser outside of strings with
`n` pending. -/
theorem balanced_of_account (hs : q.state.inString = false)
    (hd : logDemand q.log = logDemand p.log + d) (hn : q.pending = n)
    (h : d + n ≤ p.pending + supplyByte c) : Balanced p q [c] := by
  refine ⟨braced_of_plain (.inl hs), ?_⟩
  unfold account
  rw [hd, hn, supply_cons, supply_nil]
  omega

omit [StrToDouble D] in
theorem logDemand_callbacks (h : p.pHandler = true) (l l' : List (Callback D)) :
    logDemand (l ++ callbacks p l') = logDemand l + logDemand l' := by
  rw [callbacks, if_pos h, logDemand_append]

theorem class_of_EX (h : transition s k = .act .EX) : k = .C_BACKS := by
  exact forall_act (P := fun _ k a => a = .EX → k = .C_BACKS) (by decide) s k _ h rfl

omit [StrToDouble D] in
theorem balanced_backslash (hk : asciiClass c = some k) (hb : k = .C_BACKS) (hs : p.state = .ST) :
    Balanced p { p with buffer := p.buffer ++ [c], escaped := true, state := .EC } [c] := by
  subst hb
  obtain ⟨hdem, hsup⟩ := weight_of_backslash c hk
  refine ⟨⟨fun _ => ⟨p.buffer, c, rfl, hdem.ge⟩, nofun⟩, ?_⟩
  unfold account pending
  rw [hs]
  simp only [demand_append, demand_cons, demand_nil, supply_cons, supply_nil]
  omega

/-- **An action.**  Without comments, what it delivers has been pending. -/
theorem balanced_act (hi : Inv p) (hh : p.pHandler = true) (hac : p.allowComments = false)
    (hp : Braced p) {a : Actions} (hk : asciiClass c = some k) (ht : transition p.state k = .act a)
    (hxx : a ≠ .xx) (hP : Performed a (fed p c k) q) : Balanced p q [c] := by
  obtain ⟨hfrom, hk1, hk2⟩ := act_from _ _ _ ht hxx
  obtain ⟨hfed, happ⟩ := hi.fed_act (c := c) ht hxx
  have htype := Actions.typeOk_of_from _ _ hfrom _ hi.type
  rw [hfed] at hP
  -- before a value, and at a bracket that opens, the parser has no type
  have hnone : p.type = JSON_T_NONE → p.pending = supply p.buffer := by
    intro hn
    have hok := hi.type
    rw [hn] at hok
    obtain ⟨hr, hstr⟩ := reserve_none _ hok
    exact pending_of_none hstr hn hr
  have hlast : (p.buffer ++ [c]).dropLast = p.buffer := dropLast_concat
  cases hP with
  | UC hlen hd h0 hdec =>
    rw [happ (by simp)] at hlen hd hdec ⊢
    have hs : p.state = .U4 := by simpa [Actions.from] using hfrom
    exact balanced_unicode hp hs hk (isHex_of_UC _ _ ht) hlen hd hdec
  | EX =>
    have hs : p.state = .ST := by simpa [Actions.from] using hfrom
    rw [happ (by simp)]
    exact balanced_backslash hk (class_of_EX ht) hs
  | MX =>
    have hn := hnone (by simpa [Actions.typeOk] using htype)
    rw [happ (by simp)]
    refine balanced_of_account (d := 0) (n := max 0 (supply (p.buffer ++ [c]))) rfl rfl rfl ?_
    rw [hn, supply_append, supply_cons, supply_nil]
    omega
  | ZX | IX =>
    have hn := hnone (by simpa [Actions.typeOk] using htype)
    obtain ⟨-, hsup⟩ := weight_of_isHex hk (isHex_of_begin ht (by simp))
    rw [happ (by simp)]
    refine balanced_of_account (d := 0) (n := max 1 (supply (p.buffer ++ [c]))) rfl rfl rfl ?_
    rw [hn, supply_append, supply_cons, supply_nil]
    omega
  | DE | DF | NU | TR =>
    exact balanced_of_account (d := 0) (n := 0) rfl rfl rfl (Nat.zero_le _)
  | SB =>
    refine ⟨braced_of_plain (.inr (.inl rfl)), ?_⟩
    show logDemand p.log + 0 ≤ logDemand p.log + p.pending + _
    omega
  | FA =>
    obtain ⟨-, hsup⟩ := weight_of_isHex hk (isHex_of_begin ht (by simp))
    refine balanced_of_account (d := 0) (n := 1) rfl rfl rfl ?_
    omega
  | CE hb htype =>
    have hsta : p.state = .C3 := by simpa [Actions.from] using hfrom
    obtain ⟨hok, -, -⟩ := resting_typeOk _ (hi.resting (by rw [hsta]; rfl))
    obtain ⟨hr, hstr⟩ := reserve_none _ hok
    exact balanced_of_account (d := 0) (n := 0) hstr rfl
      ((pending_of_none (by exact hstr) (by exact htype) (by exact hr)).trans (congrArg supply hb))
      (Nat.zero_le _)
  | CB hc =>
    rw [show p.allowComments = true from hc] at hac
    cases hac
  | m9 =>
    have hn : p.type = JSON_T_NONE := by simpa [Actions.typeOk] using htype
    exact balanced_of_account (d := 0) (n := 0) rfl (logDemand_callbacks (by exact hh) _ _)
      (pending_of_none rfl hn rfl) (Nat.zero_le _)
  | m8 hb hl | m7 hb hl =>
    rw [happ (by simp), hlast] at hl
    have hm7 : Actions.from .m7 p.state := by first | exact hfrom | exact from_m7_of_m8 _ hfrom
    have hle := logDemand_delivered_le hi hh hm7 hl
    refine balanced_of_account (n := 0) rfl ?_ rfl (hle.trans (Nat.le_add_right _ _))
    exact (logDemand_callbacks (by exact hh) _ _).trans (logDemand_append _ _)
  | m6 | m5 | m2 =>
    have hn : p.type = JSON_T_NONE := by simpa [Actions.typeOk] using htype
    rw [happ (by simp), hlast]
    refine balanced_of_account (d := 0) (n := supply p.buffer) rfl ?_
      (pending_of_none rfl hn rfl) (by rw [hnone hn]; omega)
    first
    | rfl
    | exact logDemand_callbacks (by exact hh) _ _
  | key | string =>
    have hs : p.state = .ST := by simpa [Actions.from] using hfrom
    have hst : p.pending = demand p.buffer := by
      unfold pending
      rw [hs]
    rw [happ (by simp), hlast]
    refine balanced_of_account (d := demand p.buffer) (n := 0) rfl ?_ rfl ?_
    · exact logDemand_callbacks (by exact hh) _ _
    · rw [hst]
      exact Nat.le_add_right _ _
  | member hb hl | element hb hl =>
    rw [happ (by simp), hlast] at hl
    have hle := logDemand_delivered_le hi hh (from_m7_of_m8 _ hfrom) hl
    exact balanced_of_account (n := 0) rfl (logDemand_append _ _) rfl
      (hle.trans (Nat.le_add_right _ _))

/-! ### Runs -/

theorem account_step {s r : Bytes} (hf : Follows p) (hac : p.allowComments = false)
    (hp : Braced p) (hw : Utf8.WellFormed s) (h : Step (p, s) (q, r)) :
    Braced q ∧ Utf8.WellFormed r ∧ q.account + supply r ≤ p.account + supply s := by
  rcases step_iff.mp h with ⟨c, hc, rfl, hq⟩ | ⟨bs, hl, rfl, rfl⟩
  · have hbal : Balanced p q [c] := by
      obtain ⟨k, hk, -, ⟨s, ht, rfl⟩ | ⟨a, ht, hxx, hP⟩⟩ := parseAscii_eq_true hq
      · exact balanced_next hf.toInv hp hk ht
      · exact balanced_act hf.toInv hf.handler hac hp hk ht hxx hP
    obtain ⟨hb, hle⟩ := hbal
    refine ⟨hb, hw.of_cons hc, ?_⟩
    simp only [supply_cons, supply_nil] at hle ⊢
    omega
  · obtain ⟨hseq, hr⟩ := hl.of_wellFormed hw
    obtain ⟨hb, hle⟩ := balanced_raw hp hseq
    refine ⟨hb, hr, ?_⟩
    rw [supply_append]
    omega

theorem account_reaches {s r : Bytes} (hw : Utf8.WellFormed s)
    (h : Reaches ((fresh {} : Parser D), s) (q, r)) : q.account + supply r ≤ supply s := by
  have hfr : Follows (fresh {} : Parser D) := follows_fresh _ rfl
  have hbeg : (fresh {} : Parser D).account + supply s ≤ supply s := by
    show 0 + (max 0 0) + supply s ≤ supply s
    omega
  have hinv := Reaches.invariant (I := fun p t => Follows p ∧ p.allowComments = false ∧ Braced p ∧
      Utf8.WellFormed t ∧ p.account + supply t ≤ supply s) ?_ h
    ⟨hfr, rfl, braced_of_plain (.inl rfl), hw, hbeg⟩
  · exact hinv.2.2.2.2
  · rintro p q s r ⟨hf, hac, hp, hw, hle⟩ hs
    obtain ⟨hb, hr, hle'⟩ := account_step hf hac hp hw hs
    have hset : q.allowComments = p.allowComments :=
      congrArg Settings.allowComments (step_settings hs)
    exact ⟨hf.step hs, hset.trans hac, hb, hr, hle'.trans hle⟩

theorem demand_le_of_parse {s : Bytes} {x : Var D} (hw : Utf8.WellFormed s)
    (h : parse s (fresh {}) = .ok (some x) q) : x.demand ≤ supply s := by
  rw [parse_eq] at h
  cases hrun : run s (fresh {} : Parser D) with
  | error e q' =>
    rw [hrun] at h
    cases h
  | ok u q' =>
    rw [hrun] at h
    dsimp only at h
    split at h
    · next hdone =>
      have hrch := run_eq_ok_iff.mp hrun
      have hf := (follows_fresh (D := D) {} rfl).reaches hrch
      have hle := account_reaches hw hrch
      -- the callbacks are the walk over a document, whose tree is the value
      have hpos : q'.position = .finished := by
        rw [position_of_done (head?_eq_cons hdone.2), outerState_of_plain (by rw [hdone.1]; rfl),
          hdone.1]
        rfl
      have hdoc : Document q'.log := At.run (hf.log.trans (congrArg some hpos))
      obtain ⟨y, hy⟩ := hdoc.1.builds
      have hrun' := hy.document hdoc.2
      have hval : asVar q' = some y := by
        rw [asVar, hrun']
        rfl
      rw [hval] at h
      cases h
      have hbld := hy.demand_le
      unfold account at hle
      omega
    · cases h

end Parser

end Poco.JSON
