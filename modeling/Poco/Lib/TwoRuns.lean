import Mathlib.Logic.Basic

/-!
# Two runs of a program

Programs with a state and exceptions, run from two states that are related.  With the relation
"equal, and satisfies `I`" agreement says that `I` is kept, also where the program throws.

## Main definitions

* `Same`: the same value or the same exception, and related states.
* `Agrees`: the results from related states agree.

## Main results

* `Agrees.bind`, `agrees_get_bind`: agreement is put together from the parts of a program.
-/

namespace TwoRuns

variable {ε σ α β : Type} {R : σ → σ → Prop}

inductive Same (R : σ → σ → Prop) : EStateM.Result ε σ α → EStateM.Result ε σ α → Prop where
  | ok {a : α} {s t : σ} (h : R s t) : Same R (.ok a s) (.ok a t)
  | error {e : ε} {s t : σ} (h : R s t) : Same R (.error e s) (.error e t)

def Agrees (R : σ → σ → Prop) (m : EStateM ε σ α) : Prop := ∀ ⦃s t⦄, R s t → Same R (m s) (m t)

theorem agrees_pure (a : α) : Agrees R (pure a : EStateM ε σ α) := fun _ _ h => .ok h

theorem agrees_throw (e : ε) : Agrees R (throw e : EStateM ε σ α) := fun _ _ h => .error h

theorem Agrees.bind {m : EStateM ε σ α} {f : α → EStateM ε σ β} (hm : Agrees R m)
    (hf : ∀ a, Agrees R (f a)) : Agrees R (m >>= f) := by
  intro s t h
  show Same R (EStateM.bind m f s) (EStateM.bind m f t)
  unfold EStateM.bind
  have hres := hm h
  generalize m s = x at hres
  generalize m t = y at hres
  cases hres with
  | ok h' => exact hf _ h'
  | error h' => exact .error h'

/-- A program that reads the state, and depends on what is the same in related states. -/
theorem agrees_get_bind {f : σ → EStateM ε σ β} (hf : ∀ ⦃s t⦄, R s t → f t = f s)
    (h : ∀ ⦃s t⦄, R s t → Agrees R (f s)) : Agrees R (get >>= f) := by
  intro s t hst
  show Same R (f s s) (f t t)
  rw [hf hst]
  exact h hst hst

theorem agrees_modify {f : σ → σ} (hf : ∀ ⦃s t⦄, R s t → R (f s) (f t)) :
    Agrees R (modify f : EStateM ε σ PUnit) :=
  fun _ _ h => .ok (hf h)

theorem Agrees.ite [Decidable c] {m n : EStateM ε σ α} (hm : Agrees R m)
    (hn : Agrees R n) : Agrees R (if c then m else n) := by
  split
  · exact hm
  · exact hn

end TwoRuns
