import Mathlib.Data.List.Basic
import Mathlib.Data.Fintype.Basic

/-!
# The transition table of the JSON parser

The enumerations of `JSON/include/Poco/JSON/Parser.h` and the two tables of
`JSON/src/Parser.cpp` that drive `Parser::parseChar`.  The source codes the actions as negative
numbers, of which `-2` to `-9` have no name (here `m2` to `m9`) and `-1` is `xx`.

## Main definitions

* `Classes`, `States`, `Actions`: the character classes, the state codes and the actions.
* `Entry`: a next state or an action.
* `asciiClass`, `transition`: the entries of the two tables.

## Main results

* `forall_class`, `forall_entries`: a property of every character that has a class, and of every
  entry of the table, checked row by row.
-/

namespace Poco.JSON

inductive Classes where
  | C_SPACE | C_WHITE | C_LCURB | C_RCURB | C_LSQRB | C_RSQRB | C_COLON | C_COMMA | C_QUOTE
  | C_BACKS | C_SLASH | C_PLUS | C_MINUS | C_POINT | C_ZERO | C_DIGIT | C_LOW_A | C_LOW_B
  | C_LOW_C | C_LOW_D | C_LOW_E | C_LOW_F | C_LOW_L | C_LOW_N | C_LOW_R | C_LOW_S | C_LOW_T
  | C_LOW_U | C_ABCDF | C_E | C_ETC | C_STAR
  deriving DecidableEq, Repr

inductive States where
  | GO | OK | OB | KE | CO | VA | AR | ST | EC | U1 | U2 | U3 | U4 | MI | ZE | IT | FR | E1
  | E2 | E3 | T1 | T2 | T3 | F1 | F2 | F3 | F4 | N1 | N2 | N3 | C1 | C2 | C3 | FX | D1 | D2
  deriving DecidableEq, Repr

inductive Actions where
  /-- Comment begin. -/
  | CB
  /-- Comment end. -/
  | CE
  /-- `false` begins. -/
  | FA
  /-- `true` begins. -/
  | TR
  /-- `null` begins. -/
  | NU
  /-- Double detected by exponent. -/
  | DE
  /-- Double detected by fraction. -/
  | DF
  /-- String begin. -/
  | SB
  /-- Integer detected by minus. -/
  | MX
  /-- Integer detected by zero. -/
  | ZX
  /-- Integer detected by a digit from 1 to 9. -/
  | IX
  /-- Next character is escaped. -/
  | EX
  /-- Unicode character read. -/
  | UC
  /-- `-9`: the end of an empty object. -/
  | m9
  /-- `-8`: the end of an object. -/
  | m8
  /-- `-7`: the end of an array. -/
  | m7
  /-- `-6`: the begin of an object. -/
  | m6
  /-- `-5`: the begin of an array. -/
  | m5
  /-- `-4`: the end of a string. -/
  | m4
  /-- `-3`: a comma. -/
  | m3
  /-- `-2`: a colon. -/
  | m2
  /-- `-1`: no transition. -/
  | xx
  deriving DecidableEq, Repr

inductive Entry where
  | next (s : States)
  | act (a : Actions)
  deriving DecidableEq, Repr

instance : Coe States Entry := ⟨.next⟩

instance : Coe Actions Entry := ⟨.act⟩

def Classes.all : List Classes :=
  [.C_SPACE, .C_WHITE, .C_LCURB, .C_RCURB, .C_LSQRB, .C_RSQRB, .C_COLON, .C_COMMA, .C_QUOTE,
    .C_BACKS, .C_SLASH, .C_PLUS, .C_MINUS, .C_POINT, .C_ZERO, .C_DIGIT, .C_LOW_A, .C_LOW_B,
    .C_LOW_C, .C_LOW_D, .C_LOW_E, .C_LOW_F, .C_LOW_L, .C_LOW_N, .C_LOW_R, .C_LOW_S, .C_LOW_T,
    .C_LOW_U, .C_ABCDF, .C_E, .C_ETC, .C_STAR]

instance : Fintype States := Fintype.ofList
  [.GO, .OK, .OB, .KE, .CO, .VA, .AR, .ST, .EC, .U1, .U2, .U3, .U4, .MI, .ZE, .IT, .FR, .E1,
    .E2, .E3, .T1, .T2, .T3, .F1, .F2, .F3, .F4, .N1, .N2, .N3, .C1, .C2, .C3, .FX, .D1, .D2]
  fun s => by cases s <;> decide

instance : Fintype Actions := Fintype.ofList
  [.CB, .CE, .FA, .TR, .NU, .DE, .DF, .SB, .MX, .ZX, .IX, .EX, .UC, .m9, .m8, .m7, .m6, .m5,
    .m4, .m3, .m2, .xx]
  fun a => by cases a <;> decide

/-- The column of a class: its enumeration value. -/
def Classes.toNat (c : Classes) : ℕ := c.ctorIdx

open Classes in
/-- `Parser::_asciiClass`: the class of each ASCII character, eight to a row. -/
def asciiClassTable : List (List (Option Classes)) :=
  [[none, none, none, none, none, none, none, none],
   [none, C_WHITE, C_WHITE, none, none, C_WHITE, none, none],
   [none, none, none, none, none, none, none, none],
   [none, none, none, none, none, none, none, none],
   [C_SPACE, C_ETC, C_QUOTE, C_ETC, C_ETC, C_ETC, C_ETC, C_ETC],
   [C_ETC, C_ETC, C_STAR, C_PLUS, C_COMMA, C_MINUS, C_POINT, C_SLASH],
   [C_ZERO, C_DIGIT, C_DIGIT, C_DIGIT, C_DIGIT, C_DIGIT, C_DIGIT, C_DIGIT],
   [C_DIGIT, C_DIGIT, C_COLON, C_ETC, C_ETC, C_ETC, C_ETC, C_ETC],
   [C_ETC, C_ABCDF, C_ABCDF, C_ABCDF, C_ABCDF, C_E, C_ABCDF, C_ETC],
   [C_ETC, C_ETC, C_ETC, C_ETC, C_ETC, C_ETC, C_ETC, C_ETC],
   [C_ETC, C_ETC, C_ETC, C_ETC, C_ETC, C_ETC, C_ETC, C_ETC],
   [C_ETC, C_ETC, C_ETC, C_LSQRB, C_BACKS, C_RSQRB, C_ETC, C_ETC],
   [C_ETC, C_LOW_A, C_LOW_B, C_LOW_C, C_LOW_D, C_LOW_E, C_LOW_F, C_ETC],
   [C_ETC, C_ETC, C_ETC, C_ETC, C_LOW_L, C_ETC, C_LOW_N, C_ETC],
   [C_ETC, C_ETC, C_LOW_R, C_LOW_S, C_LOW_T, C_LOW_U, C_ETC, C_ETC],
   [C_ETC, C_ETC, C_ETC, C_LCURB, C_ETC, C_RCURB, C_ETC, C_ETC]]

def asciiClass (c : UInt8) : Option Classes :=
  (asciiClassTable.getD (c.toNat / 8) []).getD (c.toNat % 8) none

theorem forall_class {P : UInt8 → Classes → Prop} [∀ c k, Decidable (P c k)]
    (h : ∀ c, (asciiClass c).all fun k => P c k) : ∀ c k, asciiClass c = some k → P c k := by
  intro c k hc
  have hk := h c
  rw [hc] at hk
  exact of_decide_eq_true hk

open States Actions in
def stateTransitionTable : States → List Entry
  | .GO => [GO, GO, m6, xx, m5, xx, xx, xx, xx, xx, CB, xx, xx, xx, xx, xx,
      xx, xx, xx, xx, xx, xx, xx, xx, xx, xx, xx, xx, xx, xx, xx, xx]
  | .OK => [OK, OK, xx, m8, xx, m7, xx, m3, xx, xx, CB, xx, xx, xx, xx, xx,
      xx, xx, xx, xx, xx, xx, xx, xx, xx, xx, xx, xx, xx, xx, xx, xx]
  | .OB => [OB, OB, xx, m9, xx, xx, xx, xx, SB, xx, CB, xx, xx, xx, xx, xx,
      xx, xx, xx, xx, xx, xx, xx, xx, xx, xx, xx, xx, xx, xx, xx, xx]
  | .KE => [KE, KE, xx, xx, xx, xx, xx, xx, SB, xx, CB, xx, xx, xx, xx, xx,
      xx, xx, xx, xx, xx, xx, xx, xx, xx, xx, xx, xx, xx, xx, xx, xx]
  | .CO => [CO, CO, xx, xx, xx, xx, m2, xx, xx, xx, CB, xx, xx, xx, xx, xx,
      xx, xx, xx, xx, xx, xx, xx, xx, xx, xx, xx, xx, xx, xx, xx, xx]
  | .VA => [VA, VA, m6, xx, m5, xx, xx, xx, SB, xx, CB, xx, MX, xx, ZX, IX,
      xx, xx, xx, xx, xx, FA, xx, NU, xx, xx, TR, xx, xx, xx, xx, xx]
  | .AR => [AR, AR, m6, xx, m5, m7, xx, xx, SB, xx, CB, xx, MX, xx, ZX, IX,
      xx, xx, xx, xx, xx, FA, xx, NU, xx, xx, TR, xx, xx, xx, xx, xx]
  | .ST => [ST, xx, ST, ST, ST, ST, ST, ST, m4, EX, ST, ST, ST, ST, ST, ST,
      ST, ST, ST, ST, ST, ST, ST, ST, ST, ST, ST, ST, ST, ST, ST, ST]
  | .EC => [xx, xx, xx, xx, xx, xx, xx, xx, ST, ST, ST, xx, xx, xx, xx, xx,
      xx, ST, xx, xx, xx, ST, xx, ST, ST, xx, ST, U1, xx, xx, xx, xx]
  | .U1 => [xx, xx, xx, xx, xx, xx, xx, xx, xx, xx, xx, xx, xx, xx, U2, U2,
      U2, U2, U2, U2, U2, U2, xx, xx, xx, xx, xx, xx, U2, U2, xx, xx]
  | .U2 => [xx, xx, xx, xx, xx, xx, xx, xx, xx, xx, xx, xx, xx, xx, U3, U3,
      U3, U3, U3, U3, U3, U3, xx, xx, xx, xx, xx, xx, U3, U3, xx, xx]
  | .U3 => [xx, xx, xx, xx, xx, xx, xx, xx, xx, xx, xx, xx, xx, xx, U4, U4,
      U4, U4, U4, U4, U4, U4, xx, xx, xx, xx, xx, xx, U4, U4, xx, xx]
  | .U4 => [xx, xx, xx, xx, xx, xx, xx, xx, xx, xx, xx, xx, xx, xx, UC, UC,
      UC, UC, UC, UC, UC, UC, xx, xx, xx, xx, xx, xx, UC, UC, xx, xx]
  | .MI => [xx, xx, xx, xx, xx, xx, xx, xx, xx, xx, xx, xx, xx, xx, ZE, IT,
      xx, xx, xx, xx, xx, xx, xx, xx, xx, xx, xx, xx, xx, xx, xx, xx]
  | .ZE => [OK, OK, xx, m8, xx, m7, xx, m3, xx, xx, CB, xx, xx, DF, xx, xx,
      xx, xx, xx, xx, xx, xx, xx, xx, xx, xx, xx, xx, xx, xx, xx, xx]
  | .IT => [OK, OK, xx, m8, xx, m7, xx, m3, xx, xx, CB, xx, xx, DF, IT, IT,
      xx, xx, xx, xx, DE, xx, xx, xx, xx, xx, xx, xx, xx, DE, xx, xx]
  | .FR => [OK, OK, xx, m8, xx, m7, xx, m3, xx, xx, CB, xx, xx, xx, FR, FR,
      xx, xx, xx, xx, E1, xx, xx, xx, xx, xx, xx, xx, xx, E1, xx, xx]
  | .E1 => [xx, xx, xx, xx, xx, xx, xx, xx, xx, xx, xx, E2, E2, xx, E3, E3,
      xx, xx, xx, xx, xx, xx, xx, xx, xx, xx, xx, xx, xx, xx, xx, xx]
  | .E2 => [xx, xx, xx, xx, xx, xx, xx, xx, xx, xx, xx, xx, xx, xx, E3, E3,
      xx, xx, xx, xx, xx, xx, xx, xx, xx, xx, xx, xx, xx, xx, xx, xx]
  | .E3 => [OK, OK, xx, m8, xx, m7, xx, m3, xx, xx, xx, xx, xx, xx, E3, E3,
      xx, xx, xx, xx, xx, xx, xx, xx, xx, xx, xx, xx, xx, xx, xx, xx]
  | .T1 => [xx, xx, xx, xx, xx, xx, xx, xx, xx, xx, xx, xx, xx, xx, xx, xx,
      xx, xx, xx, xx, xx, xx, xx, xx, T2, xx, xx, xx, xx, xx, xx, xx]
  | .T2 => [xx, xx, xx, xx, xx, xx, xx, xx, xx, xx, xx, xx, xx, xx, xx, xx,
      xx, xx, xx, xx, xx, xx, xx, xx, xx, xx, xx, T3, xx, xx, xx, xx]
  | .T3 => [xx, xx, xx, xx, xx, xx, xx, xx, xx, xx, CB, xx, xx, xx, xx, xx,
      xx, xx, xx, xx, OK, xx, xx, xx, xx, xx, xx, xx, xx, xx, xx, xx]
  | .F1 => [xx, xx, xx, xx, xx, xx, xx, xx, xx, xx, xx, xx, xx, xx, xx, xx,
      F2, xx, xx, xx, xx, xx, xx, xx, xx, xx, xx, xx, xx, xx, xx, xx]
  | .F2 => [xx, xx, xx, xx, xx, xx, xx, xx, xx, xx, xx, xx, xx, xx, xx, xx,
      xx, xx, xx, xx, xx, xx, F3, xx, xx, xx, xx, xx, xx, xx, xx, xx]
  | .F3 => [xx, xx, xx, xx, xx, xx, xx, xx, xx, xx, xx, xx, xx, xx, xx, xx,
      xx, xx, xx, xx, xx, xx, xx, xx, xx, F4, xx, xx, xx, xx, xx, xx]
  | .F4 => [xx, xx, xx, xx, xx, xx, xx, xx, xx, xx, CB, xx, xx, xx, xx, xx,
      xx, xx, xx, xx, OK, xx, xx, xx, xx, xx, xx, xx, xx, xx, xx, xx]
  | .N1 => [xx, xx, xx, xx, xx, xx, xx, xx, xx, xx, xx, xx, xx, xx, xx, xx,
      xx, xx, xx, xx, xx, xx, xx, xx, xx, xx, xx, N2, xx, xx, xx, xx]
  | .N2 => [xx, xx, xx, xx, xx, xx, xx, xx, xx, xx, xx, xx, xx, xx, xx, xx,
      xx, xx, xx, xx, xx, xx, N3, xx, xx, xx, xx, xx, xx, xx, xx, xx]
  | .N3 => [xx, xx, xx, xx, xx, xx, xx, xx, xx, xx, CB, xx, xx, xx, xx, xx,
      xx, xx, xx, xx, xx, xx, OK, xx, xx, xx, xx, xx, xx, xx, xx, xx]
  | .C1 => [xx, xx, xx, xx, xx, xx, xx, xx, xx, xx, xx, xx, xx, xx, xx, xx,
      xx, xx, xx, xx, xx, xx, xx, xx, xx, xx, xx, xx, xx, xx, xx, C2]
  | .C2 => [C2, C2, C2, C2, C2, C2, C2, C2, C2, C2, C2, C2, C2, C2, C2, C2,
      C2, C2, C2, C2, C2, C2, C2, C2, C2, C2, C2, C2, C2, C2, C2, C3]
  | .C3 => [C2, C2, C2, C2, C2, C2, C2, C2, C2, C2, CE, C2, C2, C2, C2, C2,
      C2, C2, C2, C2, C2, C2, C2, C2, C2, C2, C2, C2, C2, C2, C2, C3]
  | .FX => [OK, OK, xx, m8, xx, m7, xx, m3, xx, xx, xx, xx, xx, xx, FR, FR,
      xx, xx, xx, xx, E1, xx, xx, xx, xx, xx, xx, xx, xx, E1, xx, xx]
  | .D1 => [xx, xx, xx, xx, xx, xx, xx, xx, xx, D2, xx, xx, xx, xx, xx, xx,
      xx, xx, xx, xx, xx, xx, xx, xx, xx, xx, xx, xx, xx, xx, xx, xx]
  | .D2 => [xx, xx, xx, xx, xx, xx, xx, xx, xx, xx, xx, xx, xx, xx, xx, xx,
      xx, xx, xx, xx, xx, xx, xx, xx, xx, xx, xx, U1, xx, xx, xx, xx]

/-- `_stateTransitionTable[state][nextClass]`. -/
def transition (s : States) (c : Classes) : Entry :=
  (stateTransitionTable s).getD c.toNat Actions.xx

theorem forall_entries {P : States → Classes → Entry → Bool}
    (h : ∀ s, ((stateTransitionTable s).zip Classes.all).all fun ek => P s ek.2 ek.1) :
    ∀ s k, P s k (transition s k) := by
  intro s k
  have hlen : (stateTransitionTable s).length = 32 := by cases s <;> rfl
  have hk : Classes.all[k.toNat]? = some k := by cases k <;> rfl
  have hlt : k.toNat < 32 := by cases k <;> decide
  have hmem : (transition s k, k) ∈ (stateTransitionTable s).zip Classes.all := by
    apply List.mem_of_getElem?
    rw [List.getElem?_zip_eq_some]
    refine ⟨?_, hk⟩
    unfold transition
    rw [List.getD_eq_getElem?_getD, List.getElem?_eq_getElem (by omega)]
    rfl
  exact List.all_eq_true.mp (h s) _ hmem

theorem forall_next {P : States → Classes → States → Prop} [∀ s k s', Decidable (P s k s')]
    (h : ∀ s, ((stateTransitionTable s).zip Classes.all).all fun ek => match ek.1 with
      | .next s' => P s ek.2 s'
      | .act _ => true) : ∀ s k s', transition s k = .next s' → P s k s' := by
  intro s k s' htr
  have hent := forall_entries (P := fun s k e => match e with
    | .next s' => P s k s'
    | .act _ => true) h s k
  rw [htr] at hent
  exact of_decide_eq_true hent

theorem forall_act {P : States → Classes → Actions → Prop} [∀ s k a, Decidable (P s k a)]
    (h : ∀ s, ((stateTransitionTable s).zip Classes.all).all fun ek => match ek.1 with
      | .next _ => true
      | .act a => P s ek.2 a) : ∀ s k a, transition s k = .act a → P s k a := by
  intro s k a htr
  have hent := forall_entries (P := fun s k e => match e with
    | .next _ => true
    | .act a => P s k a) h s k
  rw [htr] at hent
  exact of_decide_eq_true hent

end Poco.JSON
