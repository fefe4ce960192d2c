import Mathlib.Data.List.Basic
import Mathlib.Data.List.Induction

/-!
# Association lists that keep equal keys together

`ListMap` of `Foundation/include/Poco/ListMap.h`: a list of entries, searched from its
front with an equality of keys that need not be identity.  A new entry whose key is
present goes *before* the first entry of that key, so the entries of one key stand in the
reverse of the order in which they came.

## Main definitions

* `insertAll`, `ofList`: the map after inserting the entries of a list, from the map `l` or the
  empty map on.
* `Grouped`: the entries of one key stand together.

## Main results

* `entries_ofList`: the entries of one key come out reversed.
* `ofList_ofList_iff`: when inserting the entries of a map again gives that map.
-/

namespace Poco.ListMap

open List

variable {K V : Type*} (isEqual : K → K → Bool)

def insert (val : K × V) : List (K × V) → List (K × V)
  | [] => [val]
  | e :: l => if isEqual e.1 val.1 then val :: e :: l else e :: insert val l

def insertAll (l : List (K × V)) (es : List (K × V)) : List (K × V) :=
  es.foldl (fun l e => insert isEqual e l) l

def ofList (es : List (K × V)) : List (K × V) := insertAll isEqual [] es

def entries (key : K) (l : List (K × V)) : List (K × V) := l.filter fun e => isEqual e.1 key

inductive Grouped : List (K × V) → Prop where
  | nil : Grouped []
  | block {b l : List (K × V)} (same : ∀ e ∈ b, ∀ e' ∈ b, isEqual e.1 e'.1)
      (other : ∀ e ∈ b, ∀ e' ∈ l, isEqual e.1 e'.1 = false) (rest : Grouped l) :
      Grouped (b ++ l)

variable {isEqual}

variable {l : List (K × V)}

theorem insert_append {m : List (K × V)} (h : ∀ e ∈ l, isEqual e.1 val.1 = false) :
    insert isEqual val (l ++ m) = l ++ insert isEqual val m := by
  induction l with
  | nil => rfl
  | cons e l ih =>
    rw [cons_append, insert, h e mem_cons_self, ih fun e' he' => h e' (mem_cons_of_mem _ he')]
    rfl

theorem insert_of_forall (h : ∀ e ∈ l, isEqual e.1 val.1 = false) :
    insert isEqual val l = l ++ [val] := by
  have := insert_append (m := []) h
  rwa [append_nil] at this

theorem insert_perm (val : K × V) (l : List (K × V)) : (insert isEqual val l).Perm (val :: l) := by
  induction l with
  | nil => exact .refl _
  | cons e l ih =>
    unfold insert
    split
    · exact .refl _
    · exact (ih.cons e).trans (.swap val e l)

theorem mem_insert {e : K × V} : e ∈ insert isEqual val l ↔ e = val ∨ e ∈ l :=
  (insert_perm val l).mem_iff.trans mem_cons

theorem insertAll_cons (l : List (K × V)) (e : K × V) (es : List (K × V)) :
    insertAll isEqual l (e :: es) = insertAll isEqual (insert isEqual e l) es := rfl

theorem insertAll_perm (l es : List (K × V)) : (insertAll isEqual l es).Perm (l ++ es) := by
  induction es generalizing l with
  | nil => exact .of_eq (append_nil l).symm
  | cons e es ih =>
    calc insertAll isEqual (insert isEqual e l) es
      _ |>.Perm (insert isEqual e l ++ es) := ih _
      _ |>.Perm (e :: l ++ es) := (insert_perm e l).append_right es
      _ |>.Perm (l ++ e :: es) := perm_middle.symm

theorem mem_insertAll {e : K × V} {es : List (K × V)} :
    e ∈ insertAll isEqual l es ↔ e ∈ l ∨ e ∈ es :=
  (insertAll_perm l es).mem_iff.trans mem_append

theorem length_insertAll (l es : List (K × V)) :
    (insertAll isEqual l es).length = l.length + es.length :=
  (insertAll_perm l es).length_eq.trans length_append

theorem insertAll_of_pairwise {es l : List (K × V)}
    (hes : es.Pairwise fun e e' => isEqual e.1 e'.1 = false)
    (hl : ∀ e ∈ l, ∀ e' ∈ es, isEqual e.1 e'.1 = false) : insertAll isEqual l es = l ++ es := by
  induction es generalizing l with
  | nil => exact (append_nil l).symm
  | cons e es ih =>
    obtain ⟨he, hes⟩ := pairwise_cons.mp hes
    rw [insertAll_cons, insert_of_forall fun e' he' => hl e' he' e mem_cons_self, ih hes,
      append_assoc, singleton_append]
    rw [forall_mem_append, forall_mem_singleton]
    exact ⟨fun e₁ he₁ e₂ he₂ => hl e₁ he₁ e₂ (mem_cons_of_mem _ he₂), he⟩

theorem entries_append (key : K) (l m : List (K × V)) :
    entries isEqual key (l ++ m) = entries isEqual key l ++ entries isEqual key m :=
  filter_append l m

theorem entries_eq_self {key : K} (h : ∀ e ∈ l, isEqual e.1 key = true) :
    entries isEqual key l = l :=
  filter_eq_self.mpr h

theorem entries_eq_nil {key : K} (h : ∀ e ∈ l, isEqual e.1 key = false) :
    entries isEqual key l = [] :=
  filter_eq_nil_iff.mpr fun e he => Bool.eq_false_iff.mp (h e he)

section Equivalence

variable (hequiv : Equivalence fun a b => isEqual a b = true)

include hequiv

theorem isEqual_congr (h : isEqual a b = true) (c : K) : isEqual a c = isEqual b c := by
  rw [Bool.eq_iff_iff]
  exact ⟨hequiv.trans (hequiv.symm h), hequiv.trans h⟩

theorem isEqual_comm (a b : K) : isEqual a b = isEqual b a := by
  rw [Bool.eq_iff_iff]
  exact ⟨hequiv.symm, hequiv.symm⟩

theorem entries_insert (val : K × V) (l : List (K × V)) (key : K) :
    entries isEqual key (insert isEqual val l) =
      entries isEqual key [val] ++ entries isEqual key l := by
  induction l with
  | nil => simp [insert, entries]
  | cons e l ih =>
    unfold insert
    split
    · exact entries_append key [val] (e :: l)
    next hne =>
    have hcons : ∀ m, entries isEqual key (e :: m) = entries isEqual key [e] ++ _ :=
      entries_append key [e]
    rw [hcons, ih, hcons l]
    -- the two entries have different keys, so at most one of them is kept
    by_cases hkey : isEqual e.1 key = true
    · have hval : isEqual val.1 key = false := by
        rw [← Bool.not_eq_true]
        exact fun h => hne (hequiv.trans hkey (hequiv.symm h))
      simp [entries, hval]
    · simp [entries, hkey]

theorem entries_insertAll (es l : List (K × V)) (key : K) :
    entries isEqual key (insertAll isEqual l es)
      = (entries isEqual key es).reverse ++ entries isEqual key l := by
  induction es generalizing l with
  | nil => rfl
  | cons e es ih =>
    rw [insertAll_cons, ih, entries_insert hequiv]
    simp only [entries, filter_cons]
    split <;> simp

theorem entries_ofList (es : List (K × V)) (key : K) :
    entries isEqual key (ofList isEqual es) = (entries isEqual key es).reverse := by
  rw [ofList, entries_insertAll hequiv]
  exact append_nil _

theorem Grouped.insert (val : K × V) (h : Grouped isEqual l) :
    Grouped isEqual (insert isEqual val l) := by
  induction h with
  | nil =>
    refine .block (b := [val]) ?_ (fun _ _ => nofun) .nil
    intro e he e' he'
    rw [mem_singleton.mp he, mem_singleton.mp he']
    exact hequiv.refl _
  | @block b l same other rest ih =>
    cases b with
    | nil => exact ih
    | cons e b =>
      by_cases hval : isEqual e.1 val.1 = true
      · have hins : ListMap.insert isEqual val ((e :: b) ++ l) = (val :: e :: b) ++ l := by
          rw [cons_append, ListMap.insert, if_pos hval]
          rfl
        have hsame : ∀ e' ∈ val :: e :: b, isEqual val.1 e'.1 = true := by
          intro e' he'
          rcases mem_cons.mp he' with rfl | he'
          · exact hequiv.refl _
          · exact hequiv.trans (hequiv.symm hval) (same e mem_cons_self e' he')
        rw [hins]
        refine .block ?_ ?_ rest
        · intro e₁ he₁ e₂ he₂
          exact hequiv.trans (hequiv.symm (hsame e₁ he₁)) (hsame e₂ he₂)
        · intro e₁ he₁ e₂ he₂
          rw [← isEqual_congr hequiv (hsame e₁ he₁), ← isEqual_congr hequiv hval]
          exact other e mem_cons_self e₂ he₂
      · have hout : ∀ e' ∈ e :: b, isEqual e'.1 val.1 = false := by
          intro e' he'
          rw [← isEqual_congr hequiv (same e mem_cons_self e' he')]
          simpa using hval
        rw [insert_append hout]
        refine .block same ?_ ih
        intro e₁ he₁ e₂ he₂
        rcases mem_insert.mp he₂ with rfl | he₂
        · exact hout e₁ he₁
        · exact other e₁ he₁ e₂ he₂

theorem grouped_ofList (es : List (K × V)) : Grouped isEqual (ofList isEqual es) := by
  have key : ∀ l, Grouped isEqual l → Grouped isEqual (insertAll isEqual l es) := by
    induction es with
    | nil => exact fun l h => h
    | cons e es ih => exact fun l h => ih _ (h.insert hequiv e)
  exact key [] .nil

omit hequiv in
theorem insertAll_block {b : List (K × V)} (same : ∀ e ∈ b, ∀ e' ∈ b, isEqual e.1 e'.1)
    (hl : ∀ e ∈ l, ∀ e' ∈ b, isEqual e.1 e'.1 = false) :
    insertAll isEqual l b = l ++ b.reverse := by
  induction b using List.reverseRecOn with
  | nil => exact (append_nil l).symm
  | append_singleton b e ih =>
    have hb := ih (fun e₁ h₁ e₂ h₂ => same e₁ (mem_append_left _ h₁) e₂ (mem_append_left _ h₂))
      (fun e₁ h₁ e₂ h₂ => hl e₁ h₁ e₂ (mem_append_left _ h₂))
    have hstep : insertAll isEqual l (b ++ [e]) =
      ListMap.insert isEqual e (insertAll isEqual l b) := by
      simp [insertAll]
    have hlast : e ∈ b ++ [e] := by simp
    rw [hstep, hb, insert_append fun e' he' => hl e' he' e hlast, reverse_append]
    congr 1
    cases hrev : b.reverse with
    | nil => rfl
    | cons e' b' =>
      have hmem : e' ∈ b := by
        rw [← mem_reverse, hrev]
        exact mem_cons_self
      rw [ListMap.insert, if_pos (same e' (mem_append_left _ hmem) e hlast)]
      rfl

theorem insertAll_of_grouped (h : Grouped isEqual l) :
    ∀ {m : List (K × V)}, (∀ e ∈ m, ∀ e' ∈ l, isEqual e.1 e'.1 = false) →
      (∀ e ∈ l, (entries isEqual e.1 l).reverse = entries isEqual e.1 l) →
      insertAll isEqual m l = m ++ l := by
  induction h with
  | nil => intro m _ _; exact (append_nil m).symm
  | @block b l same other rest ih =>
    intro m hm hpal
    have hb : b.reverse = b := by
      cases b with
      | nil => rfl
      | cons e b =>
        have := hpal e (by simp)
        rwa [entries_append, entries_eq_self fun e' he' => same e' he' e mem_cons_self,
          entries_eq_nil fun e' he' => isEqual_comm hequiv e.1 e'.1 ▸ other e mem_cons_self e' he',
          append_nil] at this
    have hspl : insertAll isEqual m (b ++ l) = insertAll isEqual (insertAll isEqual m b) l :=
      foldl_append
    rw [hspl, insertAll_block same fun e he e' he' => hm e he e' (by simp [he']), hb, ih,
      append_assoc]
    · intro e he e' he'
      rcases mem_append.mp he with h | h
      · exact hm e h e' (by simp [he'])
      · exact other e h e' he'
    · intro e he
      have := hpal e (by simp [he])
      rwa [entries_append, entries_eq_nil fun e' he' => other e' he' e he, nil_append] at this

/-- **Inserting the entries of a map again**, in the order in which they stand. -/
theorem ofList_ofList_iff (es : List (K × V)) :
    ofList isEqual (ofList isEqual es) = ofList isEqual es ↔
      ∀ e ∈ es, (entries isEqual e.1 es).reverse = entries isEqual e.1 es := by
  constructor
  · intro h e _
    have := congrArg (entries isEqual e.1) h
    rw [entries_ofList hequiv, entries_ofList hequiv, reverse_reverse] at this
    exact this.symm
  intro h
  have hpal := insertAll_of_grouped hequiv (grouped_ofList hequiv es) (m := []) (fun _ => nofun) ?_
  · exact hpal
  intro e he
  have hmem : e ∈ es := by
    rcases mem_insertAll.mp he with h | h
    · cases h
    · exact h
  rw [entries_ofList hequiv, reverse_reverse, h e hmem]

end Equivalence

end Poco.ListMap
