import Poco.MongoDB.Document
import Poco.NumberFormatter

/-!
# Arrays

`MongoDB::Array` of `MongoDB/src/Array.cpp`: a document whose elements are named by the
decimal texts of their indices.  The elements of a document are kept in the order of their
names as texts, in which `10` comes before `2`.

## Main definitions

* `addAll`, `ofValues`: values are added under the names that follow.
* `InOrder`: an array holds the values at their indices, and both its texts have them in the order
  of the indices.

## Main results

* `ofValues_inOrder_iff`: arrays keep the order of their values if there are at most ten.
-/

namespace Poco.MongoDB

open List

namespace Array

def name (pos : ℕ) : Name := NumberFormatter.format pos

/-- Adding values under the names that follow `pos`, with `Document::addElement`. -/
def addAll (pos : ℕ) (d : Document) : List Value → Document
  | [] => d
  | v :: vs => addAll (pos + 1) (SortedAssoc.insert d (name pos) v) vs

def ofValues (vs : List Value) : Document := addAll 0 [] vs

def get (d : Document) (pos : ℕ) : Option Value :=
  (d.find? fun e => e.1 = name pos).map Prod.snd

def toStringLoop (toString : Value → Bytes) (indent : ℕ) : Bool → Document → Bytes
  | _, [] => []
  | first, e :: d =>
    (if first then [] else 0x2C :: if indent > 0 then [0x0A] else []) ++
      replicate indent 0x20 ++ toString e.2 ++ toStringLoop toString indent false d

/-- `Array::toString`.  An indentation below zero is written like none. -/
def toString (toString : Value → Bytes) (indent : ℕ) (d : Document) : Bytes :=
  [0x5B] ++ (if indent > 0 then [0x0A] else []) ++ toStringLoop toString indent true d ++
    (if indent > 0 then
      0x0A :: replicate (if indent ≥ 2 then indent - 2 else indent) 0x20 else []) ++ [0x5D]

/-! ### The order of the indices -/

/-- The values under the names that follow `pos`, in the order of the indices. -/
def indexed (pos : ℕ) : List Value → Document
  | [] => []
  | v :: vs => (name pos, v) :: indexed (pos + 1) vs

structure InOrder (π : Platform) (order : StreamByteOrder) (vs : List Value) (d : Document) :
    Prop where
  get : ∀ i v, vs[i]? = some v → Array.get d i = some v
  toString : ∀ text indent, toString text indent d = Array.toString text indent (indexed 0 vs)
  write : Document.write π order d = Document.write π order (indexed 0 vs)

theorem name_lt_name : ∀ i j : Fin 10, i < j → name i < name j := by decide

theorem get_indexed (hpos : pos + vs.length ≤ 10)
    (hi : vs[i]? = some v) : get (indexed pos vs) (pos + i) = some v := by
  induction vs generalizing pos i with
  | nil => cases hi
  | cons w vs ih =>
    rw [length_cons] at hpos
    cases i with
    | zero =>
      cases hi
      simp [get, indexed]
    | succ i =>
      have hlen := (List.getElem?_eq_some_iff.mp hi).1
      rw [length_cons] at hlen
      have hlt := name_lt_name ⟨pos, by omega⟩ ⟨pos + (i + 1), by omega⟩ (by simp)
      have hne : ¬ name pos = name (pos + (i + 1)) := fun h => List.lt_irrefl _ (h ▸ hlt)
      rw [get, indexed, find?_cons_of_neg (by simpa using hne)]
      have hrest : get (indexed (pos + 1) vs) (pos + 1 + i) = some v := ih (by omega) hi
      rwa [Nat.add_right_comm, Nat.add_assoc] at hrest

theorem addAll_eq (hpos : pos + vs.length ≤ 10)
    (hd : ∀ e ∈ d, ∃ i < pos, e.1 = name i) : addAll pos d vs = d ++ indexed pos vs := by
  induction vs generalizing pos d with
  | nil => exact (append_nil d).symm
  | cons v vs ih =>
    rw [length_cons] at hpos
    have hlast : SortedAssoc.insert d (name pos) v = d ++ [(name pos, v)] := by
      apply SortedAssoc.insert_of_forall_lt
      intro e he
      obtain ⟨i, hi, hname⟩ := hd e he
      rw [hname]
      exact name_lt_name ⟨i, by omega⟩ ⟨pos, by omega⟩ hi
    rw [addAll, hlast, ih (by omega), append_assoc]
    · rfl
    · rw [forall_mem_append, forall_mem_singleton]
      exact ⟨fun e he => (hd e he).imp fun i hi => ⟨by omega, hi.2⟩, pos, by omega, rfl⟩

theorem name_ten_lt (hn : 11 ≤ n) : name 10 < name n := by
  obtain ⟨ds, hds, hdec⟩ := NumberFormatter.format_eq n
  rw [if_neg (by omega)] at hds
  have hdig : ∀ c : UInt8, isDecDigit c = true → c = 0x30 ∨ c = 0x31 ∨ 0x31 < c := by decide
  have hval : decVal ds = n := hdec.value
  rw [name, name, hds, show NumberFormatter.format (10 : ℕ) = [0x31, 0x30] by decide]
  -- the first digit is not zero, and the digits are not those of one and of ten
  match ds with
  | [] => exact absurd rfl hdec.ne_nil
  | c :: ds =>
    rcases hdig c (hdec.digits c mem_cons_self) with rfl | rfl | hc
    · rw [hdec.lead rfl, show decVal [0x30] = 0 from rfl] at hval
      omega
    · match ds with
      | [] =>
        rw [show decVal [0x31] = 1 from rfl] at hval
        omega
      | d :: ds =>
        rcases hdig d (hdec.digits d (by simp)) with rfl | rfl | hd
        · cases ds with
          | nil =>
            rw [show decVal [0x31, 0x30] = 10 from rfl] at hval
            omega
          | cons e ds => simp
        · exact cons_lt_cons_iff.mpr (.inr ⟨rfl, cons_lt_cons_iff.mpr (.inl (by decide))⟩)
        · have hlt : (0x30 : UInt8) < d := UInt8.lt_trans (by decide) hd
          exact cons_lt_cons_iff.mpr (.inr ⟨rfl, cons_lt_cons_iff.mpr (.inl hlt)⟩)
    · exact cons_lt_cons_iff.mpr (.inl hc)

/-- From the eleventh value on the third element is that of index ten. -/
theorem addAll_ten {a b c : Name × Value} (ha : a.1 < name 10) (hb : b.1 < name 10)
    (hc : c.1 = name 10) (hpos : 11 ≤ pos) (d : Document) (vs : List Value) :
    ∃ d', addAll pos (a :: b :: c :: d) vs = a :: b :: c :: d' := by
  induction vs generalizing pos d with
  | nil => exact ⟨d, rfl⟩
  | cons v vs ih =>
    have hlt := name_ten_lt hpos
    have hskip : ∀ (e : Name × Value) (d : Document), e.1 < name pos →
        SortedAssoc.insert (e :: d) (name pos) v = e :: SortedAssoc.insert d (name pos) v := by
      intro e d he
      rw [SortedAssoc.insert, if_neg (List.lt_asymm he), if_neg]
      exact fun h => List.lt_irrefl _ (h ▸ he)
    rw [addAll, hskip _ _ (List.lt_trans ha hlt), hskip _ _ (List.lt_trans hb hlt),
      hskip _ _ (hc ▸ hlt)]
    exact ih (by omega) _

/-- **Arrays keep the order of their values** if there are at most ten. -/
theorem ofValues_inOrder_iff (π : Platform) (order : StreamByteOrder) (vs : List Value) :
    InOrder π order vs (ofValues vs) ↔ vs.length ≤ 10 := by
  constructor
  · intro h
    by_contra hlen
    rcases vs with _ | ⟨v₀, _ | ⟨v₁, _ | ⟨v₂, _ | ⟨v₃, _ | ⟨v₄, _ | ⟨v₅, _ | ⟨v₆, _ | ⟨v₇, _ |
      ⟨v₈, _ | ⟨v₉, _ | ⟨v₁₀, vs⟩⟩⟩⟩⟩⟩⟩⟩⟩⟩⟩
    iterate 11 exact hlen (by simp)
    obtain ⟨d, hd⟩ : ∃ d, ofValues (v₀ :: v₁ :: v₂ :: v₃ :: v₄ :: v₅ :: v₆ :: v₇ :: v₈ :: v₉ ::
        v₁₀ :: vs) = (name 0, v₀) :: (name 1, v₁) :: (name 10, v₁₀) :: d :=
      addAll_ten (show name 0 < name 10 by decide) (show name 1 < name 10 by decide) rfl
        (by decide) _ vs
    have hwr := h.write
    rw [hd, Document.write, Document.write, bracket, bracket] at hwr
    -- the bytes differ in the name of the third element
    have hele := (append_inj (append_cancel_right hwr) (by simp)).2
    simp only [indexed, writeElements, cons_append, cons.injEq, true_and,
      append_cancel_left_eq] at hele
    exact absurd (cons.inj hele.2).1 (by decide)
  · intro hlen
    have hvs : ofValues vs = indexed 0 vs := by
      apply addAll_eq (by omega)
      exact fun e he => by cases he
    rw [hvs]
    refine ⟨fun i v hi => ?_, fun _ _ => rfl, rfl⟩
    have hget : get (indexed 0 vs) (0 + i) = some v := get_indexed (by omega) hi
    rwa [Nat.zero_add] at hget

def numberText : Value → Bytes
  | .int32 v => name v.toNat
  | _ => []

/-- The numbers from zero to ten come out as `[0,1,10,2,3,4,5,6,7,8,9]`. -/
theorem ofValues_eleven :
    let vs : List Value := (range 11).map fun i => .int32 (.ofNat 32 i)
    toString numberText 0 (ofValues vs) = [0x5B, 0x30, 0x2C, 0x31, 0x2C, 0x31, 0x30, 0x2C, 0x32,
        0x2C, 0x33, 0x2C, 0x34, 0x2C, 0x35, 0x2C, 0x36, 0x2C, 0x37, 0x2C, 0x38, 0x2C, 0x39, 0x5D] ∧
      ¬ InOrder .amd64 .NATIVE_BYTE_ORDER vs (ofValues vs) :=
  ⟨by decide, fun h => absurd (h.toString numberText 0) (by decide)⟩

end Array

end Poco.MongoDB
