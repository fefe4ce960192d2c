import Mathlib.Data.List.Perm.Basic
import Mathlib.Order.Lattice

/-!
# Multimaps

A multimap as the list of its elements in the order in which it is walked.

## Main definitions

* `insert`: an element goes behind those whose keys are not greater.

## Main results

* `insert_perm`, `sorted_insert`: nothing is lost, and the order is kept.
-/

universe u v

namespace Multimap

open List

variable {α : Type u} [LinearOrder K] (key : α → K)

def insert (a : α) : List α → List α
  | [] => [a]
  | b :: l => if key a < key b then a :: b :: l else b :: insert a l

variable {key}

theorem insert_perm (l : List α) : (insert key a l).Perm (a :: l) := by
  induction l with
  | nil => exact .refl _
  | cons b l ih =>
    unfold insert
    split
    · exact .refl _
    · exact (ih.cons b).trans (.swap a b l)

theorem mem_insert {b : α} : b ∈ insert key a l ↔ b = a ∨ b ∈ l := by
  rw [(insert_perm l).mem_iff, mem_cons]

theorem exists_insert (key : α → K) (a : α) (l : List α) :
    ∃ l₁ l₂, l = l₁ ++ l₂ ∧ insert key a l = l₁ ++ a :: l₂ := by
  induction l with
  | nil => exact ⟨[], [], rfl, rfl⟩
  | cons b l ih =>
    by_cases hb : key a < key b
    · exact ⟨[], b :: l, rfl, if_pos hb⟩
    · obtain ⟨l₁, l₂, hl, hins⟩ := ih
      exact ⟨b :: l₁, l₂, congrArg _ hl, (if_neg hb).trans (congrArg _ hins)⟩

theorem insert_append (hl : ∀ b ∈ l, key b ≤ key a) (l' : List α) :
    insert key a (l ++ l') = l ++ insert key a l' := by
  induction l with
  | nil => rfl
  | cons b l ih =>
    have hb : ¬ key a < key b := not_lt.mpr (hl b (mem_cons_self ..))
    rw [cons_append, insert, if_neg hb, ih fun c hc => hl c (mem_cons_of_mem b hc)]
    rfl

theorem sorted_insert (hl : l.Pairwise fun b c => key b ≤ key c) :
    (insert key a l).Pairwise fun b c => key b ≤ key c := by
  induction l with
  | nil => exact pairwise_singleton _ _
  | cons b l ih =>
    obtain ⟨hb, htail⟩ := pairwise_cons.mp hl
    unfold insert
    split
    · next hab =>
      refine pairwise_cons.mpr ⟨fun c hc => ?_, hl⟩
      rcases mem_cons.mp hc with rfl | hc
      · exact hab.le
      · exact hab.le.trans (hb c hc)
    · next hab =>
      refine pairwise_cons.mpr ⟨fun c hc => ?_, ih htail⟩
      rcases mem_insert.mp hc with rfl | hc
      · exact not_lt.mp hab
      · exact hb c hc

end Multimap
