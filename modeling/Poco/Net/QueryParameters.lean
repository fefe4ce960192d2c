import Poco.Net.HTMLForm

/-!
# Query parameters read as a form

`URI::addQueryParameter` of `Foundation/src/URI.cpp` writes a query, and `HTMLForm::readUrl` of
`Net/src/HTMLForm.cpp` reads it.  The writer leaves a plus sign as it is and the reader takes it
for a space; fields of one name are read in the reverse of their order.

## Main definitions

* `addQueryParameters`: the identifier after adding parameters one after another.
* `readParameter`: a parameter as it is read.

## Main results

* `readUrl_addQueryParameters`: what is read of the query.
* `readUrl_addQueryParameters_iff`: when query parameters reach a form.
-/

namespace Poco.Net.HTMLForm

open List URI

def addQueryParameters (u : URI) (ps : List (Bytes × Bytes)) : URI :=
  ps.foldl (fun u p => addQueryParameter u p.1 p.2) u

/-- What `addQueryParameter` has encoded: `#=&`. -/
def PARAMETER : Bytes := RESERVED_QUERY ++ [0x3D, 0x26]

variable {ps : List (Bytes × Bytes)}

theorem query_addQueryParameters (hu : u.query ≠ []) : (addQueryParameters u ps).query =
      u.query ++ ps.flatMap fun p => 0x26 :: fieldText PARAMETER p := by
  induction ps generalizing u with
  | nil => exact (append_nil _).symm
  | cons p ps ih =>
    have hqry : (addQueryParameter u p.1 p.2).query =
        u.query ++ 0x26 :: fieldText PARAMETER p := by
      simp [addQueryParameter, hu, fieldText, PARAMETER]
    rw [addQueryParameters, foldl_cons, ← addQueryParameters, ih (by simp [hqry]), hqry,
      flatMap_cons, append_assoc]

/-- The query consists of the texts of the parameters. -/
theorem query_addQueryParameters_nil (hu : u.query = []) :
    (addQueryParameters u ps).query = fieldTexts PARAMETER ps := by
  cases ps with
  | nil => exact hu
  | cons p ps =>
    have hqry : (addQueryParameter u p.1 p.2).query = fieldText PARAMETER p := by
      simp [addQueryParameter, hu, fieldText, PARAMETER]
    have hne : fieldText PARAMETER p ≠ [] := by simp [fieldText]
    rw [addQueryParameters, foldl_cons, ← addQueryParameters,
      query_addQueryParameters (hqry ▸ hne), hqry, fieldTexts]

def readParameter (p : Bytes × Bytes) : Bytes × Bytes :=
  (p.1.map plusToSpace, p.2.map plusToSpace)

theorem readUrl_addQueryParameters (hu : u.query = []) (hlim : ps.length ≤ DFL_FIELD_LIMIT) :
    readUrl DFL_FIELD_LIMIT [] (addQueryParameters u ps).query =
      .ok (NameValueCollection.ofList (ps.map readParameter)) := by
  have hrd := reads_fieldTexts (r := PARAMETER) (by decide) (by decide) ps
  have hread : asRead PARAMETER = plusToSpace := funext fun _ => if_neg (by decide)
  rw [query_addQueryParameters_nil hu, readUrl_eq_ok_iff]
  exact ⟨_, hrd, fun _ => by rwa [length_map], rfl⟩

def NoPlus (p : Bytes × Bytes) : Prop := 0x2B ∉ p.1 ∧ 0x2B ∉ p.2

theorem map_plusToSpace_of_notMem {s : Bytes} (hs : 0x2B ∉ s) : s.map plusToSpace = s := by
  have hid : ∀ c ∈ s, plusToSpace c = c := fun c hc => if_neg (ne_of_mem_of_not_mem hc hs)
  rw [map_congr_left hid, map_id']

theorem noPlus_readParameter (p : Bytes × Bytes) : NoPlus (readParameter p) := by
  have hbyte : ∀ c : UInt8, plusToSpace c ≠ 0x2B := by decide
  have hmap : ∀ s : Bytes, 0x2B ∉ s.map plusToSpace := fun s h =>
    let ⟨c, _, hc⟩ := mem_map.mp h
    hbyte c hc
  exact ⟨hmap p.1, hmap p.2⟩

/-- **When query parameters reach a form**: no plus sign may be among them, and those of one
name, compared without case, must read the same in both directions. -/
theorem readUrl_addQueryParameters_iff {u : URI} (hu : u.query = [])
    {ps : List (Bytes × Bytes)} (hlimit : ps.length ≤ 100) :
    (∃ form, readUrl DFL_FIELD_LIMIT [] (addQueryParameters u ps).query = .ok form ∧
        form.Perm ps ∧
        ∀ name, ListMap.entries sameName name form = ListMap.entries sameName name ps) ↔
      (∀ p ∈ ps, 0x2B ∉ p.1 ∧ 0x2B ∉ p.2) ∧
        ∀ name, (ListMap.entries sameName name ps).reverse =
          ListMap.entries sameName name ps := by
  have hent := ListMap.entries_ofList (V := Bytes) sameName_equivalence
  have hsame : (∀ p ∈ ps, NoPlus p) → ps.map readParameter = ps := by
    intro hplus
    have hid : ∀ p ∈ ps, readParameter p = p := fun p hp =>
      Prod.ext (map_plusToSpace_of_notMem (hplus p hp).1) (map_plusToSpace_of_notMem (hplus p hp).2)
    rw [map_congr_left hid, map_id']
  constructor
  · rintro ⟨form, hform, hperm, hord⟩
    cases (readUrl_addQueryParameters hu hlimit).symm.trans hform
    have hplus : ∀ p ∈ ps, NoPlus p := by
      intro p hp
      have hread := (ListMap.insertAll_perm [] _).mem_iff.mp (hperm.mem_iff.mpr hp)
      obtain ⟨q, -, rfl⟩ := mem_map.mp hread
      exact noPlus_readParameter q
    rw [hsame hplus] at hord
    exact ⟨hplus, fun name => (hent ps name).symm.trans (hord name)⟩
  · rintro ⟨hplus, hord⟩
    refine ⟨_, readUrl_addQueryParameters hu hlimit, ?_⟩
    rw [hsame hplus]
    refine ⟨ListMap.insertAll_perm [] ps, fun name => ?_⟩
    rw [NameValueCollection.ofList, hent, hord]

/-- The parameter `a` with the value `&#`, before and after another one. -/
theorem readUrl_addQueryParameters_iff_three :
    let ps : List (Bytes × Bytes) := [([0x61], [0x26, 0x23]), ([0x62], []), ([0x61], [0x26, 0x23])]
    ∃ form, readUrl DFL_FIELD_LIMIT [] (addQueryParameters {} ps).query = .ok form ∧
      form.Perm ps ∧
      ∀ name, ListMap.entries sameName name form = ListMap.entries sameName name ps := by
  refine (readUrl_addQueryParameters_iff rfl (by decide)).mpr ⟨by decide, fun name => ?_⟩
  simp only [ListMap.entries, filter_cons]
  split <;> split <;> rfl

/-- The parameter `a` with the value `+` is read with a space, and of two parameters `a` the
second comes first. -/
theorem readUrl_addQueryParameters_changes :
    (readUrl DFL_FIELD_LIMIT [] (addQueryParameters {} [([0x61], [0x2B])]).query =
        .ok [([0x61], [0x20])] ∧
      ¬ [([(0x61 : UInt8)], [(0x20 : UInt8)])].Perm [([0x61], [0x2B])]) ∧
    readUrl DFL_FIELD_LIMIT []
        (addQueryParameters {} [([0x61], [0x31]), ([0x61], [0x32])]).query =
      .ok [([0x61], [0x32]), ([0x61], [0x31])] :=
  ⟨⟨rfl, by decide⟩, rfl⟩

end Poco.Net.HTMLForm
