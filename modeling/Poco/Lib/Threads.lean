import Mathlib.Logic.Function.Basic

/-!
# Threads and their places

A function says where each thread is in the code, and a step moves one thread.  What a
step keeps of a property of threads is reduced here to the thread that moves.

## Main results

* `place_cases`: a thread has moved, or is where it was.
* `forall_place`, `exists_place`: every thread, or some thread, is at a place of some kind.
* `owns_move`: a move changes what the thread that moves owns.
-/

universe u v w

namespace Threads

open Function

variable [DecidableEq T] {pc : T → P}

theorem place_cases (h : update pc t c t' = c') :
    t' = t ∧ c = c' ∨ t' ≠ t ∧ pc t' = c' := by
  by_cases htt : t' = t
  · subst htt
    rw [update_self] at h
    exact .inl ⟨rfl, h⟩
  · rw [update_of_ne htt] at h
    exact .inr ⟨htt, h⟩

/-- Every thread is at a good place, if the thread that moves comes to one and the other
threads are at one. -/
theorem forall_place {Q : T → P → Prop} (hc : Q t c) (h : ∀ t' ≠ t, Q t' (pc t')) (t' : T) :
    Q t' (update pc t c t') := by
  by_cases htt : t' = t
  · subst htt
    rwa [update_self]
  · rw [update_of_ne htt]
    exact h t' htt

/-- Some thread is at a place of some kind, if one was and the thread that moves does not
leave these places. -/
theorem exists_place {Q : P → Prop} (h : ∃ t', Q (pc t')) (hc : Q (pc t) → Q c) :
    ∃ t', Q (update pc t c t') := by
  obtain ⟨t', ht'⟩ := h
  refine ⟨t', ?_⟩
  by_cases htt : t' = t
  · subst htt
    rw [update_self]
    exact hc ht'
  · rwa [update_of_ne htt]

theorem owns_move {α : Type w} (own : P → α) (pc : T → P) (t : T) (c : P) :
    (fun t' => own (update pc t c t')) =
      update (fun t' => own (pc t')) t (own c) :=
  comp_update own pc t c

/-- What the threads own stays, if the thread that moves owns the same as before. -/
theorem owns_move_of_eq {α : Type w} {own : P → α} (h : own c = own (pc t)) :
    (fun t' => own (update pc t c t')) = fun t' => own (pc t') := by
  rw [owns_move, h]
  exact update_eq_self t _

end Threads
