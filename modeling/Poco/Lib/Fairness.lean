import Poco.Lib.Machine
import Mathlib.Order.Lattice
import Mathlib.Order.Nat
import Mathlib.Data.Nat.Init

/-!
# Infinite runs and fairness

What a machine does in the long run.  A run that ends is a behaviour in which nothing happens
any more.  Weak fairness says of a kind of actions that they are not put off forever while they
can be taken.

## Main definitions

* `Behaviour`: an infinite run, in which nothing happens at the times without an action.
* `Behaviour.Fair`: again and again an action of some kind is taken, or none can be taken.
* `Behaviour.halting`: the behaviour that is over after a run.

## Main results

* `Behaviour.leadsTo_of_rank`: something happens, if until then an action of a fair kind can be
  taken, every such action lowers a rank, and no action raises it.
* `Behaviour.halting_fair`: a behaviour that is over is fair if nothing of the kind can be done
  in the last state.
-/

universe u v

namespace Machine

variable {σ : Type u} {α : Type v} {M : Machine σ α}

structure Behaviour (M : Machine σ α) where
  state : ℕ → σ
  action : ℕ → Option α
  start : state 0 = M.start
  next : ∀ n a, action n = some a → M.step (state n) a = some (state (n + 1))
  stay : ∀ n, action n = none → state (n + 1) = state n

namespace Behaviour

/-- Every step of a behaviour meets a condition. -/
def Meets (b : M.Behaviour) (G : σ → α → Prop) : Prop :=
  ∀ n a, b.action n = some a → G (b.state n) a

def Fair (b : M.Behaviour) (A : α → Prop) : Prop :=
  ∀ n, ∃ m, n ≤ m ∧ ((∃ a, b.action m = some a ∧ A a) ∨ ∀ a, A a → M.step (b.state m) a = none)

variable {b : M.Behaviour} {G : σ → α → Prop} {P Q I : σ → Prop}

theorem invariant (hb : b.Meets G) (hbeg : I M.start)
    (hstep : ∀ s a s', I s → G s a → M.step s a = some s' → I s') (n : ℕ) : I (b.state n) := by
  induction n with
  | zero =>
    rw [b.start]
    exact hbeg
  | succ n ih =>
    cases ha : b.action n with
    | none =>
      rw [b.stay n ha]
      exact ih
    | some a => exact hstep _ a _ ih (hb n a ha) (b.next n a ha)

/-- What every step from some time on keeps, until something else happens. -/
theorem holds_until (hp : P (b.state n))
    (hstep : ∀ m a, n ≤ m → P (b.state m) → b.action m = some a →
      Q (b.state (m + 1)) ∨ P (b.state (m + 1))) (hm : n ≤ m) :
    (∃ k, n ≤ k ∧ Q (b.state k)) ∨ P (b.state m) := by
  induction m, hm using Nat.le_induction with
  | base => exact .inr hp
  | succ m hm ih =>
    rcases ih with hq | hp
    · exact .inl hq
    cases ha : b.action m with
    | none =>
      rw [b.stay m ha]
      exact .inr hp
    | some a =>
      rcases hstep m a hm hp ha with hq | hp
      · exact .inl ⟨m + 1, Nat.le_succ_of_le hm, hq⟩
      · exact .inr hp

theorem leadsTo_of_rank (hfair : b.Fair A) (rank : σ → ℕ)
    (hena : ∀ n, n₀ ≤ n → P (b.state n) → ∃ a, A a ∧ M.step (b.state n) a ≠ none)
    (hstep : ∀ n a, n₀ ≤ n → P (b.state n) → b.action n = some a →
      Q (b.state (n + 1)) ∨ P (b.state (n + 1)) ∧
        rank (b.state (n + 1)) ≤ rank (b.state n) ∧
        (A a → rank (b.state (n + 1)) < rank (b.state n)))
    (hn : n₀ ≤ n) (hp : P (b.state n)) : ∃ m, n ≤ m ∧ Q (b.state m) := by
  -- by induction on the rank, from the time of a fair action to the next one
  induction hr : rank (b.state n) using Nat.strong_induction_on generalizing n with
  | _ r ih =>
    obtain ⟨m, hnm, hm⟩ := hfair n
    have hkeep : (∃ k, n ≤ k ∧ Q (b.state k)) ∨
        (P (b.state m) ∧ rank (b.state m) ≤ rank (b.state n)) := by
      refine holds_until (P := fun s => P s ∧ rank s ≤ rank (b.state n)) ⟨hp, le_rfl⟩ ?_ hnm
      intro k a hk hpk ha
      rcases hstep k a (hn.trans hk) hpk.1 ha with hq | ⟨hp', hle, -⟩
      · exact .inl hq
      · exact .inr ⟨hp', hle.trans hpk.2⟩
    rcases hkeep with hq | ⟨hpm, hle⟩
    · exact hq
    rcases hm with ⟨a, ha, hA⟩ | hnone
    · rcases hstep m a (hn.trans hnm) hpm ha with hq | ⟨hp', -, hlt⟩
      · exact ⟨m + 1, Nat.le_succ_of_le hnm, hq⟩
      · have hlow : rank (b.state (m + 1)) < r := hr ▸ (hlt hA).trans_le hle
        obtain ⟨k, hk, hq⟩ := ih _ hlow (hn.trans (Nat.le_succ_of_le hnm)) hp' rfl
        exact ⟨k, (Nat.le_succ_of_le hnm).trans hk, hq⟩
    · obtain ⟨a, hA, hsome⟩ := hena m (hn.trans hnm) hpm
      exact absurd (hnone a hA) hsome

end Behaviour

/-! ### Runs that end -/

variable {G : σ → α → Prop} [∀ s a, Decidable (G s a)]

theorem execBy_append (s : σ) (as bs : List α) :
    M.execBy G s (as ++ bs) = (M.execBy G s as).bind fun s' => M.execBy G s' bs := by
  induction as generalizing s with
  | nil => rfl
  | cons a as ih =>
    simp only [List.cons_append, execBy]
    split
    · cases M.step s a with
      | none => rfl
      | some s' => exact ih s'
    · rfl

/-- The states of a run that can be replayed, one after another. -/
theorem execBy_take_succ {s s' : σ} (h : M.execBy G s as = some s') {a : α} (ha : as[n]? = some a) :
    ∃ s₁ s₂, M.execBy G s (as.take n) = some s₁ ∧ G s₁ a ∧ M.step s₁ a = some s₂ ∧
      M.execBy G s (as.take (n + 1)) = some s₂ := by
  have htake : as.take (n + 1) = as.take n ++ [a] := by
    rw [List.take_add_one, ha]
    rfl
  rw [← List.take_append_drop (n + 1) as, execBy_append] at h
  obtain ⟨s₂, h₂, -⟩ := Option.bind_eq_some_iff.mp h
  have hlast := h₂
  rw [htake, execBy_append] at hlast
  obtain ⟨s₁, h₁, hstep⟩ := Option.bind_eq_some_iff.mp hlast
  by_cases hg : G s₁ a
  · rw [execBy, if_pos hg] at hstep
    obtain ⟨s₃, hs₃, h₃⟩ := Option.bind_eq_some_iff.mp hstep
    exact ⟨s₁, s₂, h₁, hg, hs₃.trans h₃, h₂⟩
  · rw [execBy, if_neg hg] at hstep
    cases hstep

def Behaviour.halting (as : List α) {s : σ} (h : M.execBy G M.start as = some s) : M.Behaviour where
  state n := (M.execBy G M.start (as.take n)).getD M.start
  action n := as[n]?
  start := by rw [List.take_zero]; rfl
  next n a ha := by
    obtain ⟨s₁, s₂, h₁, -, hstep, h₂⟩ := execBy_take_succ h ha
    rw [h₁, h₂]
    exact hstep
  stay n hn := by
    have hlen : as.length ≤ n := List.getElem?_eq_none_iff.mp hn
    rw [List.take_of_length_le hlen, List.take_of_length_le (Nat.le_succ_of_le hlen)]

variable {as : List α} {s : σ} (h : M.execBy G M.start as = some s)

theorem Behaviour.halting_meets : (Behaviour.halting as h).Meets G := by
  intro n a ha
  obtain ⟨s₁, s₂, h₁, hg, -⟩ := execBy_take_succ h ha
  show G ((M.execBy G M.start (as.take n)).getD M.start) a
  rw [h₁]
  exact hg

theorem Behaviour.halting_state (hn : as.length ≤ n) : (Behaviour.halting as h).state n = s := by
  show (M.execBy G M.start (as.take n)).getD M.start = s
  rw [List.take_of_length_le hn, h, Option.getD_some]

theorem Behaviour.halting_action {n : ℕ} (hn : as.length ≤ n) :
    (Behaviour.halting as h).action n = none :=
  List.getElem?_eq_none hn

theorem Behaviour.halting_fair {A : α → Prop} (hnone : ∀ a, A a → M.step s a = none) :
    (Behaviour.halting as h).Fair A := by
  intro n
  refine ⟨max n as.length, le_max_left .., .inr fun a hA => ?_⟩
  rw [halting_state h (le_max_right ..)]
  exact hnone a hA

end Machine
