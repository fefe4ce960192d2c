import Mathlib.Data.List.Basic

/-!
# Texts with separators

A text is read component by component.  The components are those of `List.splitOnP`.

## Main definitions

* `scan`: what stands before a separator is handed over, which changes the state, and what
  stands after the last one is left.

## Main results

* `scan_eq`: all components but the last are handed over, in their order.
* `splitOnP_flatMap`: components that are put together with separators are read again.
-/

namespace Separated

open List

variable {α σ : Type*} {isSep : α → Bool} {push : σ → List α → σ}

def scan (isSep : α → Bool) (push : σ → List α → σ) : σ → List α → List α → σ × List α
  | s, part, [] => (s, part)
  | s, part, c :: t =>
    if isSep c then scan isSep push (push s part) [] t else scan isSep push s (part ++ [c]) t

theorem scan_eq_splitOnPPrepend (s : σ) (part t : List α) :
    scan isSep push s part t = ((t.splitOnPPrepend isSep part.reverse).dropLast.foldl push s,
      (t.splitOnPPrepend isSep part.reverse).getLast (splitOnPPrepend_ne_nil _ _ _)) := by
  induction t generalizing s part with
  | nil => simp [scan]
  | cons c t ih =>
    rw [scan]
    split_ifs with hc
    · have hne := splitOnP_ne_nil isSep t
      simp [ih, splitOnPPrepend_cons_pos hc, reverse_nil, dropLast_cons_of_ne_nil hne, foldl_cons]
    · simp [ih, splitOnPPrepend_cons_neg (Bool.not_eq_true _ ▸ hc)]

theorem scan_eq (s : σ) (t : List α) :
    scan isSep push s [] t = ((t.splitOnP isSep).dropLast.foldl push s,
      (t.splitOnP isSep).getLast (splitOnP_ne_nil _ _)) := by
  rw [scan_eq_splitOnPPrepend]
  simp

theorem splitOnP_flatMap {c : α} (hc : isSep c = true) {ds : List (List α)}
    (hds : ∀ d ∈ ds, ∀ x ∈ d, isSep x = false) (hd : ∀ x ∈ d, isSep x = false) :
    (ds.flatMap (fun d => d ++ [c]) ++ d).splitOnP isSep = ds ++ [d] := by
  induction ds with
  | nil => exact splitOnP_eq_singleton hd
  | cons e ds ih =>
    have he := hds e mem_cons_self
    have happ : (e :: ds).flatMap (fun d => d ++ [c]) ++ d =
        e ++ c :: (ds.flatMap (fun d => d ++ [c]) ++ d) := by simp
    rw [happ, splitOnP_append_cons_of_forall_mem he c hc,
      ih fun d hd => hds d (mem_cons_of_mem _ hd)]
    rfl

theorem scan_flatMap {c : α} (hc : isSep c = true) {ds : List (List α)}
    (hds : ∀ d ∈ ds, ∀ x ∈ d, isSep x = false) (hd : ∀ x ∈ d, isSep x = false) (s : σ) :
    scan isSep push s [] (ds.flatMap (fun d => d ++ [c]) ++ d) = (ds.foldl push s, d) := by
  rw [scan_eq]
  simp [splitOnP_flatMap hc hds hd]

theorem notMem_of_mem_splitOnP {t d : List α} (hd : d ∈ t.splitOnP isSep) :
    ∀ x ∈ d, isSep x = false := by
  induction t generalizing d with
  | nil =>
    rw [mem_singleton.mp hd]
    exact fun x hx => absurd hx not_mem_nil
  | cons c t ih =>
    rw [splitOnP_cons_eq_if_modifyHead] at hd
    split_ifs at hd with hc
    · rcases mem_cons.mp hd with rfl | hd
      · exact fun x hx => absurd hx not_mem_nil
      · exact ih hd
    obtain ⟨e, es, hes⟩ := exists_cons_of_ne_nil (splitOnP_ne_nil isSep t)
    rw [hes] at hd
    rcases mem_cons.mp hd with rfl | hd
    · intro x hx
      rcases mem_cons.mp hx with rfl | hx
      · exact Bool.not_eq_true _ ▸ hc
      · refine ih ?_ x hx
        rw [hes]
        exact mem_cons_self
    · refine ih ?_
      rw [hes]
      exact mem_cons_of_mem _ hd

/-- What holds at first, and is kept by handing over a component, holds in the end. -/
theorem scan_invariant {P : σ → Prop} {s : σ} (hs : P s)
    (hpush : ∀ s part, P s → (∀ x ∈ part, isSep x = false) → P (push s part)) (t : List α) :
    P (scan isSep push s [] t).1 ∧ ∀ x ∈ (scan isSep push s [] t).2, isSep x = false := by
  rw [scan_eq]
  refine ⟨foldlRecOn _ _ hs fun s hs part hpart => ?_, notMem_of_mem_splitOnP (getLast_mem _)⟩
  exact hpush s part hs (notMem_of_mem_splitOnP (dropLast_subset _ hpart))

end Separated
