import Mathlib.Data.Fintype.Card
import Mathlib.Logic.Function.Basic
import Mathlib.Logic.Relation

/-!
# Chains of pointers

A field that holds a pointer or null is a function `I → Option I` on the objects.  Following
it from a pointer goes through a list of objects: this is how a singly linked list is stored,
and how a tree is climbed if the field is that of the parent.

## Main definitions

* `Seg`: from the pointer `a` the field leads through the objects of a list to the pointer `b`.
* `before`: the loop that goes on, at most `n` times, as long as there is an object and its field
  is not the pointer looked for; the outer `none` says that it has not ended.
* `Ends`: following the field from an object comes to null.

## Main results

* `Seg.unique`, `Seg.nodup`: a list that ends with null is determined by where it starts, and
  has no repetition.
* `before_eq_some`, `before_eq_none`: where the loop ends.
* `Ends.of_moved`: if objects are put below `p`, which is not below them, every object can still
  be climbed from.
-/

namespace Pointers

open List

variable {I : Type*}

/-! ### Segments -/

def Seg (next : I → Option I) : Option I → List I → Option I → Prop
  | a, [], b => a = b
  | a, x :: l, b => a = some x ∧ Seg next (next x) l b

instance [DecidableEq I] (next : I → Option I) :
    ∀ (a : Option I) (l : List I) (b : Option I), Decidable (Seg next a l b)
  | a, [], b => decEq a b
  | a, x :: l, b =>
    have := instDecidableSegOfDecidableEq next (next x) l b
    inferInstanceAs (Decidable (a = some x ∧ Seg next (next x) l b))

variable {next next' : I → Option I} {a b c : Option I} {l l' l₁ l₂ : List I} {x y : I}

@[simp] theorem seg_nil : Seg next a [] b ↔ a = b := Iff.rfl

@[simp] theorem seg_cons : Seg next a (x :: l) b ↔ a = some x ∧ Seg next (next x) l b := Iff.rfl

theorem seg_append : Seg next a (l₁ ++ l₂) c ↔ ∃ b, Seg next a l₁ b ∧ Seg next b l₂ c := by
  induction l₁ generalizing a with
  | nil => simp
  | cons x l₁ ih => simp [ih, and_assoc]

theorem seg_concat : Seg next a (l ++ [y]) b ↔ Seg next a l (some y) ∧ next y = b := by
  simp [seg_append]

theorem Seg.congr (h : Seg next a l b) (heq : ∀ x ∈ l, next' x = next x) : Seg next' a l b := by
  induction l generalizing a with
  | nil => exact h
  | cons x l ih =>
    refine ⟨h.1, ?_⟩
    rw [heq x mem_cons_self]
    exact ih h.2 fun y hy => heq y (mem_cons_of_mem x hy)

theorem Seg.eq_nil (h : Seg next none l b) : l = [] := by
  cases l with
  | nil => rfl
  | cons x l => cases h.1

theorem Seg.unique (h : Seg next a l none) (h' : Seg next a l' none) : l = l' := by
  induction l generalizing a l' with
  | nil =>
    cases h
    exact h'.eq_nil.symm
  | cons x l ih =>
    cases l' with
    | nil =>
      cases h'
      cases h.1
    | cons y l' =>
      obtain ⟨rfl, h⟩ := h
      obtain ⟨heq, h'⟩ := h'
      cases heq
      rw [ih h h']

/-- A list that ends with null has no repetition: from both occurrences of an object the field
would lead through the same list. -/
theorem Seg.nodup (h : Seg next a l none) : l.Nodup := by
  induction l generalizing a with
  | nil => exact nodup_nil
  | cons x l ih =>
    refine nodup_cons.mpr ⟨fun hx => ?_, ih h.2⟩
    obtain ⟨l₁, l₂, rfl⟩ := append_of_mem hx
    obtain ⟨b, -, rfl, hrest⟩ := seg_append.mp h.2
    have hlen := congrArg length (h.2.unique hrest)
    simp only [length_append, length_cons] at hlen
    omega

theorem Seg.length_le [Fintype I] (h : Seg next a l none) : l.length ≤ Fintype.card I :=
  h.nodup.length_le_card

section Update

variable [DecidableEq I]

theorem seg_update (hx : x ∉ l) (v : Option I) :
    Seg (Function.update next x v) a l b ↔ Seg next a l b := by
  have hne : ∀ y ∈ l, Function.update next x v y = next y := by
    intro y hy
    have hyx : y ≠ x := fun h => hx (h ▸ hy)
    exact Function.update_of_ne hyx v next
  exact ⟨fun h => h.congr fun y hy => (hne y hy).symm, fun h => h.congr hne⟩

theorem Seg.update_last (h : Seg next a (l ++ [y]) b) (hy : y ∉ l) (c : Option I) :
    Seg (Function.update next y c) a (l ++ [y]) c := by
  obtain ⟨hl, -⟩ := seg_concat.mp h
  exact seg_concat.mpr ⟨(seg_update hy c).mpr hl, Function.update_self y c next⟩

end Update

/-! ### Looking for the object before another one -/

def before [DecidableEq I] (next : I → Option I) (target : Option I) :
    ℕ → Option I → Option (Option I)
  | _, none => some none
  | 0, some _ => none
  | n + 1, some x => if next x = target then some (some x) else before next target n (next x)

section Before

variable [DecidableEq I]

theorem before_none : before next target n none = some none := by
  cases n <;> rfl

theorem before_eq_some (h : Seg next a (l ++ [y]) target)
    (hnot : ∀ z ∈ l ++ [y], target ≠ some z) (hn : l.length < n) :
    before next target n a = some (some y) := by
  induction l generalizing a n with
  | nil =>
    obtain ⟨rfl, hy⟩ := h
    obtain ⟨n, rfl⟩ := Nat.exists_eq_succ_of_ne_zero (ne_of_gt hn)
    exact if_pos hy
  | cons x l ih =>
    obtain ⟨rfl, h⟩ := h
    obtain ⟨n, rfl⟩ := Nat.exists_eq_succ_of_ne_zero (ne_of_gt (Nat.zero_lt_of_lt hn))
    rw [before, if_neg]
    · exact ih h (fun z hz => hnot z (mem_cons_of_mem x hz)) (Nat.lt_of_succ_lt_succ hn)
    -- the object after `x` is another one of the list
    cases l with
    | nil =>
      intro heq
      exact hnot y (by simp) (heq ▸ h.1)
    | cons x' l =>
      intro heq
      exact hnot x' (by simp) (heq ▸ h.1)

theorem before_eq_none (h : Seg next a l none) (hnot : x ∉ l) (hn : l.length ≤ n) :
    before next (some x) n a = some none := by
  induction l generalizing a n with
  | nil =>
    cases h
    exact before_none
  | cons y l ih =>
    obtain ⟨rfl, h⟩ := h
    obtain ⟨n, rfl⟩ := Nat.exists_eq_succ_of_ne_zero (ne_of_gt (Nat.zero_lt_of_lt hn))
    have hrest : x ∉ l := fun hx => hnot (mem_cons_of_mem y hx)
    rw [before, if_neg]
    · exact ih h hrest (Nat.le_of_succ_le_succ hn)
    intro heq
    cases l with
    | nil => exact absurd (heq.symm.trans h) (by simp)
    | cons z l =>
      cases heq.symm.trans h.1
      exact hrest mem_cons_self

end Before

/-! ### Lists of objects -/

section Lists

variable [DecidableEq I]

/-- Objects are put before another one, or at the end. -/
def placeBefore (new : List I) (ref : Option I) : List I → List I
  | [] => new
  | x :: l => if ref = some x then new ++ x :: l else x :: placeBefore new ref l

/-- Objects are put in place of another one. -/
def substitute (new : List I) (old : I) : List I → List I
  | [] => []
  | x :: l => if x = old then new ++ l else x :: substitute new old l

theorem mem_placeBefore : y ∈ placeBefore new ref l ↔ y ∈ new ∨ y ∈ l := by
  fun_induction placeBefore new ref l with
  | case1 | case2 => simp
  | case3 x l _ ih => simp [ih, or_left_comm]

theorem placeBefore_nil (ref : Option I) (l : List I) : placeBefore [] ref l = l := by
  fun_induction placeBefore [] ref l with
  | case1 | case2 => rfl
  | case3 x l _ ih => rw [ih]

theorem exists_placeBefore (new : List I) (hhead : ref ≠ some x) (href : ∀ r ∈ ref, r ∈ x :: l) :
    ∃ l₁ y l₂, x :: l = l₁ ++ [y] ++ l₂ ∧ l₂.head? = ref ∧
      (∀ z ∈ l₁ ++ [y], ref ≠ some z) ∧ placeBefore new ref (x :: l) = l₁ ++ [y] ++ new ++ l₂ := by
  induction l generalizing x with
  | nil =>
    have hnone : ref = none := by
      cases href' : ref with
      | none => rfl
      | some r =>
        subst href'
        have hr := href r rfl
        rw [mem_singleton] at hr
        exact absurd (congrArg some hr) hhead
    subst hnone
    exact ⟨[], x, [], rfl, rfl, by simp, by simp [placeBefore]⟩
  | cons x' l ih =>
    by_cases hnext : ref = some x'
    · subst hnext
      refine ⟨[], x, x' :: l, rfl, rfl, ?_, ?_⟩
      · simpa using hhead
      · simp [placeBefore, hhead]
    have href' : ∀ r ∈ ref, r ∈ x' :: l := by
      intro r hr
      rcases mem_cons.mp (href r hr) with rfl | hmem
      · exact absurd hr hhead
      · exact hmem
    obtain ⟨l₁, y, l₂, heq, hl₂, hnot, hplc⟩ := ih hnext href'
    refine ⟨x :: l₁, y, l₂, by rw [heq]; rfl, hl₂, ?_, ?_⟩
    · intro z hz
      rcases mem_cons.mp hz with rfl | hz
      · exact hhead
      · exact hnot z hz
    · rw [placeBefore, if_neg hhead, hplc]
      rfl

theorem substitute_append (hold : old ∉ l₁) :
    substitute new old (l₁ ++ old :: l₂) = l₁ ++ new ++ l₂ := by
  induction l₁ with
  | nil => simp [substitute]
  | cons x l₁ ih =>
    have hx : x ≠ old := fun h => hold (h ▸ mem_cons_self)
    rw [cons_append, substitute, if_neg hx, ih fun h => hold (mem_cons_of_mem x h)]
    rfl

theorem mem_substitute (hl : l.Nodup) (hold : old ∈ l) :
    y ∈ substitute new old l ↔ y ∈ new ∨ y ∈ l ∧ y ≠ old := by
  have hkept : y ∈ l.erase old ↔ y ∈ l ∧ y ≠ old := by rw [hl.mem_erase_iff, and_comm]
  obtain ⟨l₁, l₂, rfl, hnot⟩ := eq_append_cons_of_mem hold
  rw [← hkept, substitute_append hnot, erase_append_right _ hnot, erase_cons_head]
  simp only [mem_append]
  tauto

theorem placeBefore_append (hold : old ∉ l₁) :
    placeBefore new (some old) (l₁ ++ old :: l₂) = l₁ ++ new ++ old :: l₂ := by
  induction l₁ with
  | nil => simp [placeBefore]
  | cons x l₁ ih =>
    have hx : some old ≠ some x := fun h => hold (Option.some.inj h ▸ mem_cons_self)
    rw [cons_append, placeBefore, if_neg hx, ih fun h => hold (mem_cons_of_mem x h)]
    rfl

/-- Putting objects before another one and then removing that one puts them in its place. -/
theorem erase_placeBefore (hold : old ∈ l) (hnew : old ∉ new) :
    (placeBefore new (some old) l).erase old = substitute new old l := by
  obtain ⟨l₁, l₂, rfl, hnot⟩ := eq_append_cons_of_mem hold
  rw [placeBefore_append hnot, substitute_append hnot,
    erase_append_right _ (by simp [hnot, hnew]), erase_cons_head]

theorem erase_append_cons (hold : old ∉ l₁) : (l₁ ++ old :: l₂).erase old = l₁ ++ l₂ := by
  rw [erase_append_right _ hold, erase_cons_head]

end Lists

/-! ### Climbing -/

inductive Ends (f : I → Option I) : I → Prop
  | root {x : I} : f x = none → Ends f x
  | step {x y : I} : f x = some y → Ends f y → Ends f x

/-- Following the field from one object leads to another one, perhaps the same. -/
def Above (f : I → Option I) (x y : I) : Prop := Relation.ReflTransGen (fun a b => f a = some b) x y

/-- Following the field within a circle does not end. -/
theorem not_ends_of_circle {S : I → Prop} (hS : ∀ x, S x → ∃ y, f x = some y ∧ S y)
    (hx : S x) : ¬Ends f x := by
  intro hends
  induction hends with
  | @root x hnone =>
    obtain ⟨y, hy, -⟩ := hS x hx
    rw [hnone] at hy
    cases hy
  | @step x y hy _ ih =>
    obtain ⟨z, hz, hmem⟩ := hS x hx
    cases hy.symm.trans hz
    exact ih hmem

/-- If the field is null now, or unchanged, wherever an object is climbed from, then it can
still be climbed from it. -/
theorem Ends.of_kept (h : Ends f p) (hkept : ∀ y, Above f p y → f' y = f y ∨ f' y = none) :
    Ends f' p := by
  induction h with
  | @root x hx =>
    rcases hkept x .refl with h | h
    · exact .root (h.trans hx)
    · exact .root h
  | @step x y hx _ ih =>
    rcases hkept x .refl with h | h
    · exact .step (h.trans hx) (ih fun z hz => hkept z (.head hx hz))
    · exact .root h

theorem Ends.of_moved (h : ∀ x, Ends f x)
    (hmov : ∀ y, f' y = f y ∨ f' y = none ∨ f' y = some p ∧ ¬Above f p y) (x : I) :
    Ends f' x := by
  have hp : Ends f' p := by
    refine (h p).of_kept fun y hy => ?_
    rcases hmov y with h | h | ⟨-, h⟩
    · exact .inl h
    · exact .inr h
    · exact absurd hy h
  induction h x with
  | @root x hx =>
    rcases hmov x with h | h | ⟨h, -⟩
    · exact .root (h.trans hx)
    · exact .root h
    · exact .step h hp
  | @step x y hx _ ih =>
    rcases hmov x with h | h | ⟨h, -⟩
    · exact .step (h.trans hx) ih
    · exact .root h
    · exact .step h hp

end Pointers
