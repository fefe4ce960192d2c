import Poco.Lib.Threads
import Mathlib.Data.List.Nodup
import Mathlib.Data.List.Range
import Mathlib.Data.List.Perm.Basic

/-!
# Objects that are created and deleted

A pointer is the number of an object in the order of creation and is never used twice, so that
an access through a pointer whose object is gone is seen as such.

## Main definitions

* `Heap`: the objects there are, and the pointer the next one will have.
* `Heap.gather`: what the objects have of some part, in the order of their pointers.
* `Heap.Owners`: every object has exactly one owner.

## Main results

* `gather_set_gain`, `gather_set_lose`, `gather_delete_perm`: what a change of one object does
  to what is gathered.
* `Owners.move`, `Owners.move_new`, `Owners.move_delete`: owners after the step of a thread.
-/

universe u v

structure Heap (α : Type u) where
  /-- The object behind a pointer, if it has not been deleted. -/
  get : ℕ → Option α
  /-- The pointer of the next object. -/
  next : ℕ
  /-- There is nothing behind pointers that have not been given out. -/
  get_of_le : ∀ w, next ≤ w → get w = none

namespace Heap

open List Function Option

variable {α : Type u} {β : Type v}

def empty : Heap α := ⟨fun _ => none, 0, fun _ _ => rfl⟩

def fill (n : ℕ) (a : α) : Heap α where
  get w := if w < n then some a else none
  next := n
  get_of_le _ hw := if_neg (Nat.not_lt.mpr hw)

def new (h : Heap α) (a : α) : Heap α where
  get w := if w = h.next then some a else h.get w
  next := h.next + 1
  get_of_le w hw := by
    rw [if_neg (by omega)]
    exact h.get_of_le w (by omega)

/-- An object is changed; there is no effect if it is gone. -/
def set (h : Heap α) (w : ℕ) (a : α) : Heap α where
  get v := if v = w then (h.get w).map fun _ => a else h.get v
  next := h.next
  get_of_le v hv := by
    have hnone := h.get_of_le v hv
    split
    · next hvw => rw [← hvw, hnone, Option.map_none]
    · exact hnone

def delete (h : Heap α) (w : ℕ) : Heap α where
  get v := if v = w then none else h.get v
  next := h.next
  get_of_le v hv := by
    split
    · rfl
    · exact h.get_of_le v hv

variable {h : Heap α} {v w : ℕ} {a b : α}

theorem get_fill {n : ℕ} (hw : w < n) : (fill n a).get w = some a := if_pos hw

theorem eq_of_get_fill (hw : (fill n a).get w = some b) : b = a := by
  have hget : (if w < n then some a else none) = some b := hw
  split at hget
  · exact (some.inj hget).symm
  · cases hget

@[simp] theorem get_next : h.get h.next = none := h.get_of_le _ le_rfl

@[simp] theorem get_new_next : (h.new a).get h.next = some a := if_pos rfl

theorem get_new_of_ne (hv : v ≠ h.next) : (h.new a).get v = h.get v := if_neg hv

theorem get_set_self (hw : h.get w = some b) : (h.set w a).get w = some a := by
  show (if w = w then (h.get w).map fun _ => a else h.get w) = some a
  rw [if_pos rfl, hw, map_some]

theorem get_set_of_ne (hv : v ≠ w) : (h.set w a).get v = h.get v := if_neg hv

@[simp] theorem get_delete_self : (h.delete w).get w = none := if_pos rfl

theorem get_delete_of_ne (hv : v ≠ w) : (h.delete w).get v = h.get v := if_neg hv

theorem get_new_cases (hv : (h.new a).get v = some b) :
    v = h.next ∧ b = a ∨ v ≠ h.next ∧ h.get v = some b := by
  by_cases hne : v = h.next
  · subst hne
    rw [get_new_next] at hv
    exact .inl ⟨rfl, (some.inj hv).symm⟩
  · rw [get_new_of_ne hne] at hv
    exact .inr ⟨hne, hv⟩

theorem get_set_cases {c : α} (hw : h.get w = some b) (hv : (h.set w a).get v = some c) :
    v = w ∧ c = a ∨ v ≠ w ∧ h.get v = some c := by
  by_cases hne : v = w
  · subst hne
    rw [get_set_self hw] at hv
    exact .inl ⟨rfl, (some.inj hv).symm⟩
  · rw [get_set_of_ne hne] at hv
    exact .inr ⟨hne, hv⟩

theorem get_of_get_delete (hv : (h.delete w).get v = some b) : v ≠ w ∧ h.get v = some b := by
  by_cases hne : v = w
  · subst hne
    rw [get_delete_self] at hv
    cases hv
  · rw [get_delete_of_ne hne] at hv
    exact ⟨hne, hv⟩

theorem get_delete_of_none (hv : h.get v = none) : (h.delete w).get v = none := by
  by_cases hne : v = w
  · rw [hne, get_delete_self]
  · rw [get_delete_of_ne hne, hv]

theorem ne_of_get (hv : h.get v = some a) (hw : h.get w = some b) (hab : a ≠ b) : v ≠ w := by
  rintro rfl
  exact hab (some.inj (hv.symm.trans hw))

theorem ne_next_of_get (hv : h.get v = some a) : v ≠ h.next := by
  rintro rfl
  rw [get_next] at hv
  cases hv

theorem lt_next_of_get (hv : h.get v = some a) : v < h.next := by
  by_contra hle
  rw [h.get_of_le v (not_lt.mp hle)] at hv
  cases hv

theorem isSome_get_set : ((h.set w a).get v).isSome = (h.get v).isSome := by
  unfold set
  by_cases hv : v = w
  · subst hv
    simp
  · simp [hv]

theorem get_set_of_none (hv : h.get v = none) : (h.set w a).get v = none := by
  rw [← not_isSome_iff_eq_none, isSome_get_set, hv]
  exact Bool.false_ne_true

def Has (h : Heap α) (w : ℕ) (Q : α → Prop) : Prop := ∃ a, h.get w = some a ∧ Q a

variable {Q R : α → Prop}

section

variable (hv : h.Has v Q)
include hv

theorem Has.imp (hqr : ∀ a, Q a → R a) : h.Has v R := by
  obtain ⟨a, ha, hq⟩ := hv
  exact ⟨a, ha, hqr a hq⟩

theorem Has.of_get (ha : h.get v = some a) : Q a := by
  obtain ⟨b, hb, hq⟩ := hv
  cases hb.symm.trans ha
  exact hq

theorem Has.new : (h.new a).Has v Q := by
  obtain ⟨b, hb, hq⟩ := hv
  exact ⟨b, by rw [get_new_of_ne (ne_next_of_get hb), hb], hq⟩

theorem Has.set_of_ne (hne : v ≠ w) : (h.set w a).Has v Q := by
  obtain ⟨b, hb, hq⟩ := hv
  exact ⟨b, by rw [get_set_of_ne hne, hb], hq⟩

theorem Has.set (hw : h.get w = some b) (hq : Q b → Q a) : (h.set w a).Has v Q := by
  by_cases hne : v = w
  · subst hne
    exact ⟨a, get_set_self hw, hq (hv.of_get hw)⟩
  · exact hv.set_of_ne hne

theorem Has.delete_of_ne (hne : v ≠ w) : (h.delete w).Has v Q := by
  obtain ⟨b, hb, hq⟩ := hv
  exact ⟨b, by rw [get_delete_of_ne hne, hb], hq⟩

end

/-! ### A part of every object -/

def gather (h : Heap α) (f : α → Option β) : List β :=
  (List.range h.next).filterMap fun w => (h.get w).bind f

/-- The same without one object. -/
def others (h : Heap α) (f : α → Option β) (w : ℕ) : List β :=
  ((List.range h.next).erase w).filterMap fun w => (h.get w).bind f

theorem gather_new : (h.new a).gather f = h.gather f ++ (f a).toList := by
  have hold : (List.range h.next).filterMap (fun w => ((h.new a).get w).bind f) = h.gather f := by
    apply filterMap_congr
    intro w hw
    rw [get_new_of_ne (mem_range.mp hw).ne]
  rw [gather, show (h.new a).next = h.next + 1 from rfl, range_succ, filterMap_append, hold]
  cases hfa : f a <;> simp [hfa]

/-- The part of one object comes apart. -/
theorem gather_perm_others (hw : h.get w = some b) :
    (h.gather f).Perm ((f b).toList ++ h.others f w) := by
  have hperm : (List.range h.next).Perm (w :: (List.range h.next).erase w) :=
    perm_cons_erase (mem_range.mpr (lt_next_of_get hw))
  refine (hperm.filterMap _).trans ?_
  rw [filterMap_cons, hw, bind_some]
  cases f b with
  | none | some => exact .refl _

theorem others_congr {h' : Heap α} (hnext : h'.next = h.next)
    (hget : ∀ v ≠ w, h'.get v = h.get v) : h'.others f w = h.others f w := by
  unfold others
  rw [hnext]
  apply filterMap_congr
  intro v hv
  rw [hget v]
  rintro rfl
  exact absurd hv (nodup_range.not_mem_erase)

theorem gather_congr {h' : Heap α} (hnext : h'.next = h.next)
    (hget : ∀ v, (h'.get v).bind f = (h.get v).bind f) : h'.gather f = h.gather f := by
  unfold gather
  rw [hnext]
  apply filterMap_congr
  intro v _
  exact hget v

section

variable (hw : h.get w = some b)
include hw

theorem gather_set_perm : ((h.set w a).gather f).Perm ((f a).toList ++ h.others f w) := by
  have hoth : (h.set w a).others f w = h.others f w :=
    others_congr rfl fun v hv => get_set_of_ne hv
  have hperm := gather_perm_others (f := f) (get_set_self (a := a) hw)
  rwa [hoth] at hperm

theorem gather_delete_perm : ((h.delete w).gather f).Perm (h.others f w) := by
  have hperm : (List.range h.next).Perm (w :: (List.range h.next).erase w) :=
    perm_cons_erase (mem_range.mpr (lt_next_of_get hw))
  have hoth : (h.delete w).others f w = h.others f w :=
    others_congr rfl fun v hv => get_delete_of_ne hv
  rw [← hoth]
  refine (hperm.filterMap _).trans ?_
  rw [filterMap_cons, get_delete_self]
  exact .refl _

theorem gather_set_of_eq (hab : f a = f b) : (h.set w a).gather f = h.gather f := by
  refine gather_congr rfl ?_
  intro v
  by_cases hv : v = w
  · subst hv
    rw [get_set_self hw, hw, bind_some, bind_some, hab]
  · rw [get_set_of_ne hv]

theorem gather_delete_of_none (hb : f b = none) : (h.delete w).gather f = h.gather f := by
  refine gather_congr rfl ?_
  intro v
  by_cases hv : v = w
  · subst hv
    rw [get_delete_self, hw, bind_none, bind_some, hb]
  · rw [get_delete_of_ne hv]

theorem gather_set_gain {x : β} (hb : f b = none) (ha : f a = some x) :
    ((h.set w a).gather f).Perm (x :: h.gather f) := by
  have hbef := gather_perm_others (f := f) hw
  have haft := gather_set_perm (f := f) (a := a) hw
  rw [hb] at hbef
  rw [ha] at haft
  exact haft.trans (hbef.symm.cons x)

theorem gather_set_lose {x : β} (hb : f b = some x) (ha : f a = none) :
    (h.gather f).Perm (x :: (h.set w a).gather f) := by
  have hbef := gather_perm_others (f := f) hw
  have haft := gather_set_perm (f := f) (a := a) hw
  rw [hb] at hbef
  rw [ha] at haft
  exact hbef.trans (haft.symm.cons x)

end

theorem mem_gather {x : β} : x ∈ h.gather f ↔ ∃ w a, h.get w = some a ∧ f a = some x := by
  simp only [gather, mem_filterMap, mem_range, bind_eq_some_iff]
  constructor
  · rintro ⟨w, -, a, hw, ha⟩
    exact ⟨w, a, hw, ha⟩
  · rintro ⟨w, a, hw, ha⟩
    exact ⟨w, lt_next_of_get hw, a, hw, ha⟩

theorem gather_eq_nil (hf : ∀ w a, h.get w = some a → f a = none) : h.gather f = [] := by
  rw [eq_nil_iff_forall_not_mem]
  intro x hx
  obtain ⟨w, a, hw, ha⟩ := mem_gather.mp hx
  rw [hf w a hw] at ha
  cases ha

theorem gather_sublist {g : α → Option β} (hfg : ∀ a x, f a = some x → g a = some x) :
    (h.gather f).Sublist (h.gather g) := by
  unfold gather
  induction List.range h.next with
  | nil => exact .slnil
  | cons w ws ih =>
    simp only [filterMap_cons]
    cases hf : (h.get w).bind f with
    | none =>
      refine ih.trans ?_
      split
      · exact .refl _
      · exact sublist_cons_self _ _
    | some x =>
      have hg : (h.get w).bind g = some x := by
        obtain ⟨a, ha, hx⟩ := bind_eq_some_iff.mp hf
        rw [ha, bind_some, hfg a x hx]
      rw [hg]
      exact ih.cons_cons x

/-! ### Owners -/

variable {T : Type v}

/-- Every object has exactly one owner, where `own` says what each owner has. -/
structure Owners (own : T → Option ℕ) (h : Heap α) : Prop where
  live : ∀ t w, own t = some w → ∃ a, h.get w = some a
  unique : ∀ t t' w, own t = some w → own t' = some w → t = t'
  owned : ∀ w a, h.get w = some a → ∃ t, own t = some w

namespace Owners

theorem empty : Owners (fun _ : T => none) (Heap.empty : Heap α) :=
  ⟨nofun, nofun, nofun⟩

/-- Owners stay as they are while the same objects are there. -/
theorem congr (ho : Owners own h) {h' : Heap α}
    (hget : ∀ v, (h'.get v).isSome = (h.get v).isSome) : Owners own h' := by
  refine ⟨fun t w htw => ?_, ho.unique, fun w a hw => ?_⟩
  · obtain ⟨a, ha⟩ := ho.live t w htw
    exact isSome_iff_exists.mp (by rw [hget, ha]; rfl)
  · obtain ⟨b, hb⟩ := isSome_iff_exists.mp (by rw [← hget, hw]; rfl : (h.get w).isSome)
    exact ho.owned w b hb

theorem set (ho : Owners own h) : Owners own (h.set w a) :=
  ho.congr fun _ => isSome_get_set

variable [DecidableEq T] {t : T}

theorem new (ho : Owners own h) (ht : own t = none) :
    Owners (update own t (some h.next)) (h.new a) := by
  have hne : ∀ t' w, own t' = some w → t' ≠ t ∧ w ≠ h.next := by
    intro t' w htw
    obtain ⟨b, hb⟩ := ho.live t' w htw
    refine ⟨?_, ne_next_of_get hb⟩
    rintro rfl
    rw [ht] at htw
    cases htw
  have hown : ∀ t' w, update own t (some h.next) t' = some w →
      t' = t ∧ w = h.next ∨ own t' = some w := by
    intro t' w htw
    by_cases htt : t' = t
    · subst htt
      rw [update_self] at htw
      exact .inl ⟨rfl, (some.inj htw).symm⟩
    · rw [update_of_ne htt] at htw
      exact .inr htw
  refine ⟨fun t' w htw => ?_, fun t₁ t₂ w h₁ h₂ => ?_, fun w b hw => ?_⟩
  · rcases hown t' w htw with ⟨-, rfl⟩ | htw
    · exact ⟨a, get_new_next⟩
    · rw [get_new_of_ne (hne t' w htw).2]
      exact ho.live t' w htw
  · rcases hown t₁ w h₁ with ⟨ht₁, hw₁⟩ | ho₁ <;> rcases hown t₂ w h₂ with ⟨ht₂, hw₂⟩ | ho₂
    · exact ht₁.trans ht₂.symm
    · exact absurd hw₁ (hne t₂ w ho₂).2
    · exact absurd hw₂ (hne t₁ w ho₁).2
    · exact ho.unique t₁ t₂ w ho₁ ho₂
  · by_cases hwn : w = h.next
    · subst hwn
      exact ⟨t, update_self ..⟩
    · rw [get_new_of_ne hwn] at hw
      obtain ⟨t', htw⟩ := ho.owned w b hw
      exact ⟨t', by rw [update_of_ne (hne t' w htw).1, htw]⟩

theorem delete (ho : Owners own h) (ht : own t = some w) :
    Owners (update own t none) (h.delete w) := by
  have hown : ∀ t' v, update own t none t' = some v → own t' = some v ∧ v ≠ w := by
    intro t' v htv
    by_cases htt : t' = t
    · subst htt
      rw [update_self] at htv
      cases htv
    · rw [update_of_ne htt] at htv
      refine ⟨htv, ?_⟩
      rintro rfl
      exact htt (ho.unique t' t v htv ht)
  refine ⟨fun t' v htv => ?_, fun t₁ t₂ v h₁ h₂ => ?_, fun v b hv => ?_⟩
  · obtain ⟨htv, hvw⟩ := hown t' v htv
    rw [get_delete_of_ne hvw]
    exact ho.live t' v htv
  · exact ho.unique t₁ t₂ v (hown t₁ v h₁).1 (hown t₂ v h₂).1
  obtain ⟨hvw, hv⟩ := get_of_get_delete hv
  obtain ⟨t', htv⟩ := ho.owned v b hv
  refine ⟨t', ?_⟩
  rw [update_of_ne, htv]
  rintro rfl
  exact hvw (some.inj (htv.symm.trans ht))

/-! ### Threads that own objects -/

variable {P : Type v} {pc : T → P} {own : P → Option ℕ}

section

variable (ho : Owners (fun t => own (pc t)) h)
include ho

theorem move (hc : own c = own (pc t)) : Owners (fun t' => own (update pc t c t')) h := by
  rw [Threads.owns_move_of_eq hc]
  exact ho

theorem move_new (ht : own (pc t) = none)
    (hc : own c = some h.next) : Owners (fun t' => own (update pc t c t')) (h.new a) := by
  rw [Threads.owns_move, hc]
  exact ho.new ht

theorem move_delete (ht : own (pc t) = some w)
    (hc : own c = none) : Owners (fun t' => own (update pc t c t')) (h.delete w) := by
  rw [Threads.owns_move, hc]
  exact ho.delete ht

end

end Owners

end Heap
