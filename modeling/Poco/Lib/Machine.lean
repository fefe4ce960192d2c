import Mathlib.Data.List.Basic

/-!
# Machines

Transition systems in which every action has at most one outcome.  Several threads are several
sources of actions, so that a list of actions is an interleaving.

## Main definitions

* `Machine`: where it starts, and what each action does, if it can be taken.
* `Machine.exec`, `Machine.execBy`: the state after a list of actions.
* `Machine.ReachedBy`: the states reached from the start by steps that all meet a condition,
  which may speak of the action and of the state before it.

## Main results

* `ReachedBy.invariant`: what holds at the start and is kept by every step holds in every state
  reached.
* `exists_reachedBy_of_execBy`: what a replayed run shows of its last state holds of a state
  that is reached.
-/

universe u v

structure Machine (σ : Type u) (α : Type v) where
  start : σ
  step : σ → α → Option σ

namespace Machine

variable {σ : Type u} {α : Type v} (M : Machine σ α)

/-! ### Replaying a run -/

/-- The state after a list of actions, if each can be taken in its turn. -/
def exec : σ → List α → Option σ
  | s, [] => some s
  | s, a :: as => (M.step s a).bind fun s' => exec s' as

/-! ### States reached -/

inductive ReachedBy (G : σ → α → Prop) : σ → Prop
  | start : ReachedBy G M.start
  | step {s s' : σ} {a : α} : ReachedBy G s → G s a → M.step s a = some s' → ReachedBy G s'

def Reached (s : σ) : Prop := M.ReachedBy (fun _ _ => True) s

variable {M} {G : σ → α → Prop} {I : σ → Prop}

theorem ReachedBy.invariant (hbeg : I M.start)
    (hstep : ∀ s a s', I s → G s a → M.step s a = some s' → I s') {s : σ}
    (h : M.ReachedBy G s) : I s := by
  induction h with
  | start => exact hbeg
  | step _ hg hs ih => exact hstep _ _ _ ih hg hs

/-- A condition that holds of the steps in the states reached may replace the one they were
reached under. -/
theorem ReachedBy.imp {G' : σ → α → Prop} (hg : ∀ s a, M.ReachedBy G s → G s a → G' s a) {s : σ}
    (h : M.ReachedBy G s) : M.ReachedBy G' s := by
  induction h with
  | start => exact .start
  | step hs ha hstep ih => exact .step ih (hg _ _ hs ha) hstep

theorem reached_of_exec {s s' : σ} (hs : M.Reached s) (h : M.exec s as = some s') :
    M.Reached s' := by
  induction as generalizing s with
  | nil => cases h; exact hs
  | cons a as ih =>
    obtain ⟨t, ht, h⟩ := Option.bind_eq_some_iff.mp h
    exact ih (.step hs trivial ht) h

theorem exec_concat {s s' s'' : σ} (h : M.exec s as = some s') (hstep : M.step s' a = some s'') :
    M.exec s (as ++ [a]) = some s'' := by
  induction as generalizing s with
  | nil =>
    cases h
    rw [List.nil_append, exec, hstep]
    rfl
  | cons b as ih =>
    obtain ⟨t, ht, h⟩ := Option.bind_eq_some_iff.mp h
    exact Option.bind_eq_some_iff.mpr ⟨t, ht, ih h⟩

section ExecBy

variable (M) (G) [∀ s a, Decidable (G s a)]

/-- The state after a list of actions, if each can be taken and meets a condition. -/
def execBy : σ → List α → Option σ
  | s, [] => some s
  | s, a :: as => if G s a then (M.step s a).bind fun s' => execBy s' as else none

variable {M G}

theorem reachedBy_of_execBy {s s' : σ} (hs : M.ReachedBy G s)
    (h : M.execBy G s as = some s') : M.ReachedBy G s' := by
  induction as generalizing s with
  | nil => cases h; exact hs
  | cons a as ih =>
    by_cases hg : G s a
    · rw [execBy, if_pos hg] at h
      obtain ⟨t, ht, h⟩ := Option.bind_eq_some_iff.mp h
      exact ih (.step hs hg ht) h
    · rw [execBy, if_neg hg] at h
      cases h

theorem exists_reachedBy_of_execBy {β : Type*} {f : σ → β} {b : β}
    (h : (M.execBy G M.start as).map f = some b) : ∃ s, M.ReachedBy G s ∧ f s = b := by
  obtain ⟨s, hs, hb⟩ := Option.map_eq_some_iff.mp h
  exact ⟨s, reachedBy_of_execBy .start hs, hb⟩

end ExecBy

/-! ### Along a run -/

variable (M)

def Along (P : σ → Prop) : σ → List α → Prop
  | s, [] => P s
  | s, a :: as => P s ∧ ∀ s', M.step s a = some s' → Along P s' as

def Steps (G : σ → α → Prop) : σ → List α → Prop
  | _, [] => True
  | s, a :: as => ∀ s', M.step s a = some s' → G s a ∧ Steps G s' as

end Machine
