import Mathlib.Data.List.Perm.Subperm
import Poco.Net.MessageHeader
import Poco.URI

/-!
# HTML forms in the query of a request

`HTMLForm::prepareSubmit` and `HTMLForm::load` of `Net/src/HTMLForm.cpp` for requests that
carry the form in their URI, that is all but `POST` and `PUT`.  The fields are appended to
the URI after a question mark, and read from the query that `URI` finds in it.

## Main definitions

* `writeUrl`, `readUrl`: the text of fields, and its reader.
* `prepareSubmit`, `load`: the URI of the request, and the form in it, with the default limit.
* `Reads`: the text `s` consists of the fields `fs`.

## Main results

* `readUrl_eq_ok_iff`: `readUrl` adds the fields of its text, if the limit allows it.
* `reads_writeUrl`: the text of a form consists of its fields.
* `load_prepareSubmit_iff`: when a form comes back.
-/

namespace Poco.Net

open List URI

/-- The exceptions of `load`: `HTMLFormException`, and those of `URI`. -/
inductive FormException where
  | htmlFormException (message : String)
  | syntaxException (e : SyntaxException)
  deriving DecidableEq, Repr

namespace HTMLForm

/-! ### Writing and reading -/

def DFL_FIELD_LIMIT : ℕ := 100

/-- The characters that `writeUrl` has encoded: `=&+;`. -/
def RESERVED : Bytes := [0x3D, 0x26, 0x2B, 0x3B]

def writeField (f : Bytes × Bytes) : Bytes :=
  URI.encode f.1 RESERVED ++ 0x3D :: URI.encode f.2 RESERVED

def writeUrl : NameValueCollection → Bytes
  | [] => []
  | [f] => writeField f
  | f :: g :: fs => writeField f ++ 0x26 :: writeUrl (g :: fs)

def plusToSpace (ch : UInt8) : UInt8 := if ch = 0x2B then 0x20 else ch

/-- The name and the value in the text of one field, decoded. -/
def readField (s : Bytes) : Except SyntaxException (Bytes × Bytes) := do
  let name := (s.takeWhile (· ≠ 0x3D)).map plusToSpace
  let value := (s.dropWhile (· ≠ 0x3D)).tail.map plusToSpace
  let decodedName ← URI.decode name
  let decodedValue ← URI.decode value
  return (decodedName, decodedValue)

/-- The loop of `readUrl`.  A round takes a byte from the stream, so a fuel above its length
suffices. -/
def readUrlLoop (fieldLimit : ℕ) :
    ℕ → ℕ → NameValueCollection → Bytes → Except FormException NameValueCollection
  | 0, _, form, _ => .ok form
  | fuel + 1, fields, form, s =>
    if s = [] then .ok form
    else if fieldLimit > 0 ∧ fields = fieldLimit then
      .error (.htmlFormException "Too many form fields")
    else match readField (s.takeWhile (· ≠ 0x26)) with
      | .error e => .error (.syntaxException e)
      | .ok f =>
        readUrlLoop fieldLimit fuel (fields + 1) (NameValueCollection.add f.1 f.2 form)
          (s.dropWhile (· ≠ 0x26)).tail

def readUrl (fieldLimit : ℕ) (form : NameValueCollection) (s : Bytes) :
    Except FormException NameValueCollection :=
  readUrlLoop fieldLimit (s.length + 1) 0 form s

def prepareSubmit (form : NameValueCollection) (uri : Bytes) : Bytes :=
  uri ++ 0x3F :: writeUrl form

def load (uri : Bytes) : Except FormException NameValueCollection :=
  match URI.parse uri with
  | .error e => .error (.syntaxException e)
  | .ok u => if u.query ≠ [] then readUrl DFL_FIELD_LIMIT [] u.query else .ok []

/-! ### The fields of a text -/

inductive Reads : Bytes → List (Bytes × Bytes) → Prop where
  | nil : Reads [] []
  | last {s : Bytes} {f : Bytes × Bytes} (hne : s ≠ []) (hs : 0x26 ∉ s)
      (hf : readField s = .ok f) : Reads s [f]
  | cons {s t : Bytes} {f : Bytes × Bytes} {fs : List (Bytes × Bytes)}
      (hs : 0x26 ∉ s) (hf : readField s = .ok f) (ht : Reads t fs) :
      Reads (s ++ 0x26 :: t) (f :: fs)

variable {c : UInt8} {s t uri : Bytes} {fs : List (Bytes × Bytes)} {limit : ℕ}

theorem takeWhile_of_notMem (hs : c ∉ s) : s.takeWhile (· ≠ c) = s :=
  takeWhile_eq_self_iff.mpr fun _ hd => decide_eq_true (ne_of_mem_of_not_mem hd hs)

theorem dropWhile_of_notMem (hs : c ∉ s) : s.dropWhile (· ≠ c) = [] :=
  dropWhile_eq_nil_iff.mpr fun _ hd => decide_eq_true (ne_of_mem_of_not_mem hd hs)

theorem takeWhile_append_cons (hs : c ∉ s) (t : Bytes) :
    (s ++ c :: t).takeWhile (· ≠ c) = s := by
  rw [takeWhile_append_stop (by simp), takeWhile_of_notMem hs]

theorem dropWhile_append_cons (hs : c ∉ s) (t : Bytes) :
    (s ++ c :: t).dropWhile (· ≠ c) = c :: t := by
  rw [dropWhile_append_stop (by simp), dropWhile_of_notMem hs, nil_append]

/-- A text is cut at its first byte `c`, or does not hold that byte. -/
theorem split_at_first (c : UInt8) (s : Bytes) : c ∉ s ∨ ∃ a t, c ∉ a ∧ s = a ++ c :: t := by
  by_cases hc : c ∈ s
  · right
    obtain ⟨a, t, rfl, ha⟩ := eq_append_cons_of_mem hc
    exact ⟨a, t, ha, rfl⟩
  · exact .inl hc

def fieldCount (s : Bytes) : ℕ :=
  s.count 0x26 + if s.getLast?.getD 0x26 = 0x26 then 0 else 1

theorem getLast?_append_ampersand (s t : Bytes) :
    (s ++ 0x26 :: t).getLast?.getD 0x26 = t.getLast?.getD 0x26 := by
  cases t with
  | nil => simp
  | cons c t => simp [getLast?_cons]

theorem fieldCount_append (s : Bytes) (ht : t ≠ []) :
    fieldCount (s ++ t) = s.count 0x26 + fieldCount t := by
  rw [fieldCount, getLast?_append_of_ne_nil _ ht, count_append, fieldCount, Nat.add_assoc]

theorem Reads.length_eq (h : Reads s fs) : fs.length = fieldCount s := by
  induction h with
  | nil => rfl
  | @last s f hne hs hf =>
    have hlast : s.getLast?.getD 0x26 ≠ 0x26 := by
      rw [getLast?_eq_some_getLast hne]
      intro h
      exact hs (h ▸ getLast_mem hne)
    rw [fieldCount, count_eq_zero_of_not_mem hs, if_neg hlast, length_singleton]
  | @cons s t f fs hs hf ht ih =>
    rw [fieldCount, getLast?_append_ampersand, count_append, count_eq_zero_of_not_mem hs,
      count_cons_self, length_cons, ih, fieldCount]
    omega

theorem Reads.readUrlLoop (h : Reads s fs) :
    ∀ {fuel fields : ℕ} {form : NameValueCollection}, s.length < fuel →
      (0 < limit → fields + fs.length ≤ limit) →
      readUrlLoop limit fuel fields form s = .ok (ListMap.insertAll sameName form fs) := by
  induction h with
  | nil =>
    intro fuel fields form hfuel _
    obtain ⟨fuel, rfl⟩ := Nat.exists_eq_add_one_of_ne_zero (Nat.ne_of_gt hfuel)
    rfl
  | @last s f hne hs hf =>
    intro fuel fields form hfuel hlim
    rw [length_singleton] at hlim
    obtain ⟨fuel, rfl⟩ := Nat.exists_eq_add_one_of_ne_zero (Nat.ne_zero_of_lt hfuel)
    rw [HTMLForm.readUrlLoop, if_neg hne, if_neg (by omega), takeWhile_of_notMem hs,
      dropWhile_of_notMem hs, hf]
    cases fuel <;> rfl
  | @cons s t f fs hs hf ht ih =>
    intro fuel fields form hfuel hlim
    rw [length_cons] at hlim
    rw [length_append, length_cons] at hfuel
    obtain ⟨fuel, rfl⟩ := Nat.exists_eq_add_one_of_ne_zero (Nat.ne_zero_of_lt hfuel)
    rw [HTMLForm.readUrlLoop, if_neg (by simp), if_neg (by omega), takeWhile_append_cons hs,
      dropWhile_append_cons hs, hf]
    exact ih (by omega) (by omega)

theorem reads_of_readUrlLoop : ∀ {fuel fields : ℕ} {form l : NameValueCollection}
    {s : Bytes}, s.length < fuel → (0 < limit → fields ≤ limit) →
    readUrlLoop limit fuel fields form s = .ok l →
    ∃ fs, Reads s fs ∧ (0 < limit → fields + fs.length ≤ limit) ∧
      l = ListMap.insertAll sameName form fs := by
  intro fuel
  induction fuel with
  | zero =>
    intro _ _ _ _ hfuel
    exact absurd hfuel (Nat.not_lt_zero _)
  | succ fuel ih =>
    intro fields form l s hfuel hfie h
    rw [readUrlLoop] at h
    split at h
    · next hs =>
      subst hs
      cases h
      exact ⟨[], .nil, hfie, rfl⟩
    next hne =>
    split at h
    · cases h
    next hlim =>
    cases hf : readField (s.takeWhile (· ≠ 0x26)) with
    | error e =>
      rw [hf] at h
      cases h
    | ok f =>
      rw [hf] at h
      rcases split_at_first 0x26 s with hs | ⟨a, t, ha, rfl⟩
      · rw [dropWhile_of_notMem hs] at h
        rw [takeWhile_of_notMem hs] at hf
        have hlen : 0 < s.length := length_pos_iff.mpr hne
        obtain ⟨fs, hfs, hcnt, rfl⟩ := ih (s := []) (by simp; omega) (by omega) h
        obtain rfl : fs = [] := length_eq_zero_iff.mp hfs.length_eq
        refine ⟨[f], .last hne hs hf, ?_, rfl⟩
        rw [length_singleton]
        omega
      · rw [dropWhile_append_cons ha] at h
        rw [takeWhile_append_cons ha] at hf
        rw [length_append, length_cons] at hfuel
        obtain ⟨fs, hfs, hcnt, rfl⟩ := ih (s := t) (by omega) (by omega) h
        refine ⟨f :: fs, .cons ha hf hfs, ?_, rfl⟩
        rw [length_cons]
        omega

theorem readUrl_eq_ok_iff {form l : NameValueCollection} :
    readUrl limit form s = .ok l ↔
      ∃ fs, Reads s fs ∧ (0 < limit → fs.length ≤ limit) ∧
        l = ListMap.insertAll sameName form fs := by
  constructor
  · intro h
    obtain ⟨fs, hfs, hlim, hl⟩ := reads_of_readUrlLoop (Nat.lt_succ_self _) (by omega) h
    exact ⟨fs, hfs, by omega, hl⟩
  · rintro ⟨fs, hfs, hlim, rfl⟩
    exact hfs.readUrlLoop (Nat.lt_succ_self _) (by omega)

theorem Reads.of_append (ha : 0x26 ∉ a) (h : Reads (a ++ 0x26 :: t) fs) :
    ∃ f gs, readField a = .ok f ∧ Reads t gs ∧ fs = f :: gs := by
  generalize hs : a ++ 0x26 :: t = s at h
  cases h with
  | nil => simp at hs
  | last hne hmem hf =>
    subst hs
    exact absurd (by simp) hmem
  | @cons b u f gs hb hf hu =>
    have htake := congrArg (List.takeWhile (· ≠ 0x26)) hs
    rw [takeWhile_append_cons ha, takeWhile_append_cons hb] at htake
    subst htake
    rw [append_cancel_left_eq, List.cons.injEq] at hs
    obtain ⟨-, rfl⟩ := hs
    exact ⟨f, gs, hf, hu, rfl⟩

theorem Reads.of_notMem (hne : s ≠ []) (hs : 0x26 ∉ s) (h : Reads s fs) :
    ∃ f, readField s = .ok f ∧ fs = [f] := by
  cases h with
  | nil => exact absurd rfl hne
  | @last s f hne hs hf => exact ⟨f, hf, rfl⟩
  | cons _ _ _ => exact absurd (by simp) hs

theorem Reads.unique {gs : List (Bytes × Bytes)} (hf : Reads s fs) (hg : Reads s gs) :
    fs = gs := by
  induction hf generalizing gs with
  | nil => exact (length_eq_zero_iff.mp hg.length_eq).symm
  | @last s f hne hs hf =>
    obtain ⟨g, hg', rfl⟩ := hg.of_notMem hne hs
    rw [hf] at hg'
    cases hg'
    rfl
  | @cons s t f fs hs hf ht ih =>
    obtain ⟨g, gs, hg', ht', rfl⟩ := hg.of_append hs
    rw [hf] at hg'
    cases hg'
    rw [ih ht']

/-- After a text that is empty or ends with an ampersand another text begins a new field. -/
theorem Reads.append {gs : List (Bytes × Bytes)} (hf : Reads s fs)
    (hs : s.getLast?.getD 0x26 = 0x26) (hg : Reads t gs) : Reads (s ++ t) (fs ++ gs) := by
  induction hf with
  | nil => exact hg
  | @last s f hne hmem hf =>
    rw [getLast?_eq_some_getLast hne, Option.getD_some] at hs
    exact absurd (hs ▸ getLast_mem hne) hmem
  | @cons s u f fs hmem hf hu ih =>
    rw [getLast?_append_ampersand] at hs
    rw [append_assoc, cons_append]
    exact .cons hmem hf (ih hs)

/-! ### The text of a form -/

variable {r : Bytes}

/-- A byte that `encode` may have to replace comes from the text, if it is not reserved. -/
theorem mem_encode (hd : c ∈ encode s r) (hc : isUnreserved c = false) (hne : c ≠ 0x25) :
    c ∈ s ∧ c ∉ r :=
  ((mem_encode_cases hd).2.resolve_left (by simp [hc])).resolve_left hne

theorem notMem_encode (hr : c ∈ r) (hc : isUnreserved c = false) (hne : c ≠ 0x25) :
    c ∉ encode s r :=
  fun h => (mem_encode h hc hne).2 hr

/-- What is read for a byte that was encoded. -/
def asRead (r : Bytes) (c : UInt8) : UInt8 := if 0x2B ∈ r then c else plusToSpace c

theorem decode_encodeByte_plusToSpace (r : Bytes) (c : UInt8) :
    decode ((encodeByte r c).map plusToSpace) = .ok [asRead r c] := by
  by_cases hc : c = 0x2B ∧ 0x2B ∉ r
  · obtain ⟨rfl, hr⟩ := hc
    rw [encodeByte, if_neg (by decide), if_neg (by simp [hr]; decide), asRead, if_neg hr]
    rfl
  have hplus : ∀ d ∈ encodeByte r c, plusToSpace d = d := by
    intro d hd
    rw [plusToSpace, if_neg]
    rintro rfl
    have hmem := mem_encode (s := [c]) (r := r) (by simpa [encode] using hd) (by decide)
      (by decide)
    exact hc ⟨(mem_singleton.mp hmem.1).symm, hmem.2⟩
  have hread : asRead r c = c := by
    rw [asRead, plusToSpace]
    split_ifs with hr h
    · rfl
    · exact absurd ⟨h, hr⟩ hc
    · rfl
  rw [map_congr_left hplus, map_id', decode_encodeByte, hread]

theorem decode_plusToSpace_encode (r s : Bytes) :
    decode ((encode s r).map plusToSpace) = .ok (s.map (asRead r)) := by
  induction s with
  | nil => rfl
  | cons c s ih =>
    rw [encode, flatMap_cons, map_append, decode_append (decode_encodeByte_plusToSpace r c),
      ← encode, ih]
    rfl

def fieldText (r : Bytes) (f : Bytes × Bytes) : Bytes :=
  encode f.1 r ++ 0x3D :: encode f.2 r

def fieldTexts (r : Bytes) : List (Bytes × Bytes) → Bytes
  | [] => []
  | f :: fs => fieldText r f ++ fs.flatMap fun g => 0x26 :: fieldText r g

section Texts

variable (heq : 0x3D ∈ r)

include heq

theorem readField_encode (name : Bytes) :
    readField (encode name r) = .ok (name.map (asRead r), []) := by
  have hname := notMem_encode (s := name) heq (by decide) (by decide)
  rw [readField, takeWhile_of_notMem hname, dropWhile_of_notMem hname, decode_plusToSpace_encode]
  rfl

theorem readField_fieldText (f : Bytes × Bytes) :
    readField (fieldText r f) = .ok ((f.1.map (asRead r), f.2.map (asRead r))) := by
  have hname := notMem_encode (s := f.1) heq (by decide) (by decide)
  rw [readField, fieldText, takeWhile_append_cons hname, dropWhile_append_cons hname, tail_cons,
    decode_plusToSpace_encode, decode_plusToSpace_encode]
  rfl

variable (hamp : 0x26 ∈ r)

omit heq in
include hamp in
theorem ampersand_notMem_fieldText (f : Bytes × Bytes) : 0x26 ∉ fieldText r f := by
  rw [fieldText, mem_append, mem_cons]
  rintro (h | h | h)
  · exact notMem_encode hamp (by decide) (by decide) h
  · exact absurd h (by decide)
  · exact notMem_encode hamp (by decide) (by decide) h

include hamp in
theorem reads_fieldTexts (fs : List (Bytes × Bytes)) :
    Reads (fieldTexts r fs) (fs.map (Prod.map (map (asRead r)) (map (asRead r)))) := by
  cases fs with
  | nil => exact .nil
  | cons f fs =>
    have hf := ampersand_notMem_fieldText hamp
    induction fs generalizing f with
    | nil =>
      rw [fieldTexts, flatMap_nil, append_nil]
      exact .last (by simp [fieldText]) (hf f) (readField_fieldText heq f)
    | cons g fs ih => exact .cons (hf f) (readField_fieldText heq f) (ih g)

end Texts

theorem asRead_RESERVED : asRead RESERVED = id := funext fun _ => if_pos (by decide)

theorem writeUrl_eq (fs : List (Bytes × Bytes)) :
    writeUrl fs = fieldTexts RESERVED fs := by
  cases fs with
  | nil => rfl
  | cons f fs =>
    induction fs generalizing f with
    | nil => exact (append_nil _).symm
    | cons g fs ih =>
      rw [writeUrl, ih g]
      rfl

theorem reads_writeUrl (fs : List (Bytes × Bytes)) : Reads (writeUrl fs) fs := by
  have h := reads_fieldTexts (r := RESERVED) (by decide) (by decide) fs
  rwa [← writeUrl_eq, asRead_RESERVED, map_id_fun, Prod.map_id, map_id] at h

/-- A question mark before the text of a form is one before its first name. -/
theorem question_cons_writeUrl (name value : Bytes) (fs : List (Bytes × Bytes)) :
    0x3F :: writeUrl ((name, value) :: fs) = writeUrl ((0x3F :: name, value) :: fs) := by
  have hfie : writeField (0x3F :: name, value) = 0x3F :: writeField (name, value) := by
    simp [writeField, encode, show encodeByte RESERVED 0x3F = [0x3F] by decide]
  cases fs with
  | nil => exact hfie.symm
  | cons g fs =>
    rw [writeUrl, writeUrl, hfie]
    rfl

theorem hash_mem_encode (h : 0x23 ∈ encode s r) : 0x23 ∈ s :=
  (mem_encode h (by decide) (by decide)).1

theorem hash_mem_writeField {f : Bytes × Bytes} (h : 0x23 ∈ writeField f) :
    0x23 ∈ f.1 ∨ 0x23 ∈ f.2 := by
  rw [writeField, mem_append, mem_cons] at h
  rcases h with h | h | h
  · exact .inl (hash_mem_encode h)
  · exact absurd h (by decide)
  · exact .inr (hash_mem_encode h)

theorem hash_mem_writeUrl (h : 0x23 ∈ writeUrl fs) : ∃ f ∈ fs, 0x23 ∈ f.1 ∨ 0x23 ∈ f.2 := by
  rw [writeUrl_eq] at h
  cases fs with
  | nil => cases h
  | cons f fs =>
    rcases mem_append.mp h with h | h
    · exact ⟨f, mem_cons_self, hash_mem_writeField h⟩
    · obtain ⟨g, hg, h⟩ := mem_flatMap.mp h
      rcases mem_cons.mp h with h | h
      · exact absurd h (by decide)
      · exact ⟨g, mem_cons_of_mem _ hg, hash_mem_writeField h⟩

/-! ### The text up to a number sign -/

def Plain (f : Bytes × Bytes) : Prop := 0x23 ∉ f.1 ∧ 0x23 ∉ f.2

instance (f : Bytes × Bytes) : Decidable (Plain f) :=
  inferInstanceAs (Decidable (_ ∧ _))

theorem takeWhile_append_of_notMem (hs : c ∉ s) (t : Bytes) :
    (s ++ t).takeWhile (· ≠ c) = s ++ t.takeWhile (· ≠ c) := by
  rw [takeWhile_append, takeWhile_of_notMem hs, if_pos rfl]

theorem takeWhile_encode (hs : 0x23 ∈ s) (t : Bytes) :
    ∃ a, 0x23 ∉ a ∧ (encode s RESERVED ++ t).takeWhile (· ≠ 0x23) = encode a RESERVED := by
  obtain ⟨a, b, rfl, ha⟩ := eq_append_cons_of_mem hs
  have hspl : encode (a ++ 0x23 :: b) RESERVED ++ t
      = encode a RESERVED ++ 0x23 :: (encode b RESERVED ++ t) := by
    simp [encode, show encodeByte RESERVED 0x23 = [0x23] by decide]
  refine ⟨a, ha, ?_⟩
  rw [hspl, takeWhile_append_cons]
  exact fun h => ha (hash_mem_encode h)

/-- The text up to the first number sign consists of fields without a number sign, at most
as many as those of the whole text. -/
theorem reads_takeWhile_writeUrl (fs : List (Bytes × Bytes)) :
    ∃ gs, Reads ((writeUrl fs).takeWhile (· ≠ 0x23)) gs ∧ (∀ g ∈ gs, Plain g) ∧
      gs.length ≤ fs.length := by
  induction fs with
  | nil => exact ⟨[], .nil, by simp, le_rfl⟩
  | cons f fs ih =>
    obtain ⟨t, ht⟩ : ∃ t, writeUrl (f :: fs) = writeField f ++ t := by
      cases fs with
      | nil => exact ⟨[], (append_nil _).symm⟩
      | cons g fs => exact ⟨_, rfl⟩
    by_cases hname : 0x23 ∈ f.1
    · obtain ⟨a, ha, hcut⟩ := takeWhile_encode hname (0x3D :: encode f.2 RESERVED ++ t)
      rw [ht, writeField, append_assoc, hcut]
      by_cases hnil : encode a RESERVED = []
      · rw [hnil]
        exact ⟨[], .nil, by simp, by simp⟩
      · have hread := readField_encode (r := RESERVED) (by decide) a
        rw [asRead_RESERVED, map_id] at hread
        refine ⟨[(a, [])], .last hnil ?_ hread, ?_, by simp⟩
        · exact notMem_encode (by decide) (by decide) (by decide)
        · simp [Plain, ha]
    · have henc : 0x23 ∉ encode f.1 RESERVED ++ [0x3D] := by
        rw [mem_append, mem_singleton]
        rintro (h | h)
        · exact hname (hash_mem_encode h)
        · exact absurd h (by decide)
      by_cases hval : 0x23 ∈ f.2
      · obtain ⟨a, ha, hcut⟩ := takeWhile_encode hval t
        have htext : (writeUrl (f :: fs)).takeWhile (· ≠ 0x23) = writeField (f.1, a) := by
          rw [ht, writeField, append_cons, append_assoc,
            takeWhile_append_of_notMem henc, hcut, append_assoc]
          rfl
        rw [htext]
        refine ⟨[(f.1, a)], ?_, ?_, by simp⟩
        · exact reads_writeUrl [(f.1, a)]
        · simp [Plain, ha, hname]
      · have hpl : 0x23 ∉ writeField f := fun h => (hash_mem_writeField h).elim hname hval
        cases fs with
        | nil =>
          refine ⟨[f], ?_, ?_, le_rfl⟩
          · rw [takeWhile_of_notMem (s := writeUrl [f]) hpl]
            exact reads_writeUrl [f]
          · simp [Plain, hname, hval]
        | cons g fs =>
          obtain ⟨gs, hgs, hall, hlen⟩ := ih
          refine ⟨f :: gs, ?_, ?_, Nat.succ_le_succ hlen⟩
          · rw [writeUrl, takeWhile_append_of_notMem hpl, takeWhile_cons, if_pos (by simp)]
            have hread := readField_fieldText (r := RESERVED) (by decide) f
            rw [asRead_RESERVED, map_id, map_id] at hread
            exact .cons (ampersand_notMem_fieldText (by decide) f) hread hgs
          · exact forall_mem_cons.mpr ⟨⟨hname, hval⟩, hall⟩

/-! ### Submitting and loading -/

theorem load_of_parse (h : URI.parse uri = .ok u) :
    load uri = readUrl DFL_FIELD_LIMIT [] (queryOf uri) := by
  rw [load, h, ← query_of_parse h]
  show (if u.query ≠ [] then _ else _) = _
  split
  · rfl
  · next hnil =>
    rw [not_not] at hnil
    rw [hnil]
    rfl

/-- What `load` yields is a permutation of the fields of the query. -/
theorem reads_of_load (h : load uri = .ok l) : ∃ fs, Reads (queryOf uri) fs ∧ l.Perm fs := by
  cases hprs : parse uri with
  | error e =>
    rw [load, hprs] at h
    cases h
  | ok u =>
    rw [load_of_parse hprs, readUrl_eq_ok_iff] at h
    obtain ⟨fs, hfs, -, rfl⟩ := h
    exact ⟨fs, hfs, ListMap.insertAll_perm [] fs⟩

/-- A form comes back from a URI without a query and a fragment, if no field holds a number
sign. -/
theorem load_prepareSubmit (hlim : fs.length ≤ DFL_FIELD_LIMIT) (hpl : ∀ f ∈ fs, Plain f)
    (hprs : URI.parse uri = .ok u) (huri : ∀ c ∈ uri, URI.inPath c) :
    load (prepareSubmit fs uri) = .ok (NameValueCollection.ofList fs) := by
  have hhash : 0x23 ∉ writeUrl fs := by
    intro h
    obtain ⟨f, hf, h⟩ := hash_mem_writeUrl h
    exact h.elim (hpl f hf).1 (hpl f hf).2
  have hqry : queryOf (prepareSubmit fs uri) = writeUrl fs := by
    rw [prepareSubmit, queryOf_append huri, queryOf_question, takeWhile_of_notMem hhash]
  have hload := load_of_parse (parse_append_query huri hhash hprs)
  show load (uri ++ 0x3F :: writeUrl fs) = _
  rw [hload, ← prepareSubmit, hqry, readUrl_eq_ok_iff]
  exact ⟨fs, reads_writeUrl fs, fun _ => hlim, rfl⟩

/-- After a question mark the query goes on, so no form comes back from it. -/
theorem not_subperm_of_question {es ls : List (Bytes × Bytes)}
    (hne : fs ≠ []) (hes : Reads q es)
    (hls : Reads (q ++ 0x3F :: (writeUrl fs).takeWhile (· ≠ 0x23)) ls) :
    ¬ (es ++ fs).Subperm ls := by
  intro hsub
  obtain ⟨⟨name, value⟩, fs, rfl⟩ := exists_cons_of_ne_nil hne
  have htext : 0x3F :: (writeUrl ((name, value) :: fs)).takeWhile (· ≠ 0x23)
      = (writeUrl ((0x3F :: name, value) :: fs)).takeWhile (· ≠ 0x23) := by
    rw [← question_cons_writeUrl, takeWhile_cons, if_pos (by simp)]
  obtain ⟨gs, hgs, hpl, hlen⟩ := reads_takeWhile_writeUrl ((0x3F :: name, value) :: fs)
  rw [← htext] at hgs
  by_cases hq : q.getLast?.getD 0x26 = 0x26
  · -- the question mark becomes a part of the first name
    obtain rfl := hls.unique (hes.append hq hgs)
    have hsub' := subperm_append_left es |>.mp hsub
    have hhash : 0x23 ∉ writeUrl ((0x3F :: name, value) :: fs) := by
      rw [← question_cons_writeUrl, mem_cons]
      rintro (h | h)
      · exact absurd h (by decide)
      · obtain ⟨f, hf, h⟩ := hash_mem_writeUrl h
        have := hpl f (hsub'.subset hf)
        exact h.elim this.1 this.2
    rw [htext, takeWhile_of_notMem hhash] at hgs
    obtain rfl := hgs.unique (reads_writeUrl _)
    have hperm := hsub'.perm_of_length_le le_rfl
    have hcan := (@perm_append_right_iff _ [_] [_] fs).mp hperm
    have hname := congrArg List.length (Prod.mk.inj (singleton_perm_singleton.mp hcan)).1
    rw [length_cons] at hname
    omega
  · -- the first field becomes a part of the last one of the query
    have hcnt := fieldCount_append q (t := 0x3F :: (writeUrl ((name, value) :: fs)).takeWhile
      (· ≠ 0x23)) (by simp)
    rw [← hls.length_eq, ← hgs.length_eq] at hcnt
    have hqry := hes.length_eq
    rw [fieldCount, if_neg hq] at hqry
    have hle := hsub.length_le
    rw [length_append, length_cons] at hle
    rw [length_cons] at hlen
    omega

/-- **When a form comes back.**  The URI may have no query and no fragment, since the fields
are appended to it with a question mark whatever it holds, and no field may hold a number
sign, since `encode` leaves it as it is. -/
theorem load_prepareSubmit_iff {fs : List (Bytes × Bytes)} (hne : fs ≠ [])
    (hnames : fs.Pairwise fun f g => sameName f.1 g.1 = false)
    (hlimit : fs.length ≤ DFL_FIELD_LIMIT) {uri : Bytes} {u : URI}
    (hparse : URI.parse uri = .ok u) :
    (∃ e l, load uri = .ok e ∧
        load (prepareSubmit (NameValueCollection.ofList fs) uri) = .ok l ∧ (e ++ fs).Subperm l) ↔
      0x3F ∉ uri ∧ 0x23 ∉ uri ∧ ∀ f ∈ fs, 0x23 ∉ f.1 ∧ 0x23 ∉ f.2 := by
  have hform : NameValueCollection.ofList fs = fs :=
    ListMap.insertAll_of_pairwise hnames (by simp)
  have hinP : ∀ {s : Bytes}, 0x3F ∉ s → 0x23 ∉ s → ∀ c ∈ s, inPath c = true := by
    intro s hque hhash c hc
    rw [inPath, Bool.and_eq_true, bne_iff_ne, bne_iff_ne]
    exact ⟨ne_of_mem_of_not_mem hc hque, ne_of_mem_of_not_mem hc hhash⟩
  rw [hform]
  constructor
  · rintro ⟨e, l, he, hl, hsub⟩
    obtain ⟨es, hes, hperm⟩ := reads_of_load he
    obtain ⟨ls, hls, hperm'⟩ := reads_of_load hl
    have hsub' : (es ++ fs).Subperm ls :=
      (hperm.append_right fs).symm.subperm.trans (hsub.trans hperm'.subperm)
    have hhash : 0x23 ∉ uri := by
      intro hhash
      rw [prepareSubmit, queryOf_append_of_mem hhash] at hls
      obtain rfl := hls.unique hes
      have hle := hsub'.length_le
      have hpos := length_pos_iff.mpr hne
      rw [length_append] at hle
      omega
    rcases split_at_first 0x3F uri with hque | ⟨a, q, ha, rfl⟩
    · refine ⟨hque, hhash, fun f hf => ?_⟩
      rw [prepareSubmit, queryOf_append (hinP hque hhash), queryOf_question] at hls
      obtain ⟨gs, hgs, hpl, -⟩ := reads_takeWhile_writeUrl fs
      obtain rfl := hls.unique hgs
      exact hpl f (hsub'.subset (mem_append_right es hf))
    · rw [mem_append, mem_cons, not_or, not_or] at hhash
      obtain ⟨hhash, -, hq⟩ := hhash
      have hapa := hinP ha hhash
      rw [queryOf_append hapa, queryOf_question, takeWhile_of_notMem hq] at hes
      rw [prepareSubmit, append_assoc, queryOf_append hapa, cons_append,
        queryOf_question, takeWhile_append_of_notMem hq, takeWhile_cons,
        if_pos (by simp)] at hls
      exact absurd hsub' (not_subperm_of_question hne hes hls)
  · rintro ⟨hque, hhash, hpl⟩
    have hpath := hinP hque hhash
    refine ⟨[], fs, ?_, ?_, .refl fs⟩
    · rw [load_of_parse hparse, ← append_nil uri, queryOf_append hpath]
      rfl
    · rw [load_prepareSubmit hlimit hpl hparse hpath, hform]

/-- The fields `a` with the value `1` and `b` with the value `&=`, submitted to `/p`. -/
theorem load_prepareSubmit_iff_path :
    let fs : List (Bytes × Bytes) := [([0x61], [0x31]), ([0x62], [0x26, 0x3D])]
    load (prepareSubmit (NameValueCollection.ofList fs) [0x2F, 0x70]) = .ok fs ∧
    ((∃ e l, load [0x2F, 0x70] = .ok e ∧
        load (prepareSubmit (NameValueCollection.ofList fs) [0x2F, 0x70]) = .ok l ∧
        (e ++ fs).Subperm l) ↔
      0x3F ∉ [(0x2F : UInt8), 0x70] ∧ 0x23 ∉ [(0x2F : UInt8), 0x70] ∧
        ∀ f ∈ fs, 0x23 ∉ f.1 ∧ 0x23 ∉ f.2) :=
  ⟨by rfl, load_prepareSubmit_iff (by simp) (by decide) (by decide)
    (u := { path := [0x2F, 0x70] }) (by rfl)⟩

/-- The field `a` with the value `#`, submitted to `/p`, comes back with the empty value. -/
theorem load_prepareSubmit_loses :
    load (prepareSubmit (NameValueCollection.ofList [([0x61], [0x23])]) [0x2F, 0x70])
      = .ok [([0x61], [])] ∧
    ¬ ∃ e l, load [0x2F, 0x70] = .ok e ∧
      load (prepareSubmit (NameValueCollection.ofList [([0x61], [0x23])]) [0x2F, 0x70]) = .ok l ∧
      (e ++ [([0x61], [0x23])]).Subperm l := by
  have hloa : load (prepareSubmit (NameValueCollection.ofList [([0x61], [0x23])]) [0x2F, 0x70])
      = .ok [([0x61], [])] := rfl
  refine ⟨hloa, ?_⟩
  rintro ⟨e, l, -, hl, hsub⟩
  rw [hloa] at hl
  cases hl
  have hmem := hsub.subset (mem_append_right e (mem_singleton_self _))
  simp at hmem

end HTMLForm

end Poco.Net
