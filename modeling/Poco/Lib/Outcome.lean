import Mathlib.Data.List.Basic

/-!
# Computations that can fail

What it takes for one computation after another to succeed.

## Main results

* `bind_eq_ok`, `bind_eq_error`: a computation after one that returned, or that threw.
-/

namespace Except

variable {x : Except ε α}

theorem map_eq_ok {f : α → β} : x.map f = .ok b ↔ ∃ a, x = .ok a ∧ f a = b := by
  cases x <;> simp [Except.map]

theorem bind_eq_ok {f : α → Except ε β} : x.bind f = .ok b ↔ ∃ a, x = .ok a ∧ f a = .ok b := by
  cases x <;> simp [Except.bind]

theorem bind_eq_error {f : α → Except ε β} {e : ε} :
    x.bind f = .error e ↔ x = .error e ∨ ∃ a, x = .ok a ∧ f a = .error e := by
  cases x <;> simp [Except.bind]

theorem ite_error_eq_ok [Decidable c] {e : ε} {a : α} :
    (if c then .error e else x) = .ok a ↔ ¬ c ∧ x = .ok a := by
  by_cases hc : c <;> simp [hc]

theorem toOption_eq_some {a : α} : x.toOption = some a ↔ x = .ok a := by
  cases x <;> simp [Except.toOption]

theorem map_map (g : β → γ) (f : α → β) (x : Except ε α) :
    (x.map f).map g = x.map fun a => g (f a) := by
  cases x <;> rfl

theorem map_of_forall_eq {f : α → α} (h : ∀ a, f a = a) (x : Except ε α) : x.map f = x := by
  cases x <;> simp [Except.map, h]

end Except
