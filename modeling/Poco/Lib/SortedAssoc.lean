import Mathlib.Data.List.Pairwise
import Mathlib.Algebra.BigOperators.Group.List.Basic
import Mathlib.Algebra.Order.Ring.Nat

/-!
# Association lists sorted by key

A finite map as the list of its entries in strictly increasing order of key, which is
the order an ordered map iterates in.

## Main definitions

* `set`, `insert`: an entry is inserted; if there is one of its key, its value is replaced, or
  kept.
* `Sorted`: the keys are strictly increasing.

## Main results

* `mem_set`, `lookup_set`, `set_perm`: the entries afterwards.
* `lookup_foldl_set`: what a loop of `set` leaves under a key.
-/

namespace SortedAssoc

open List

variable {K V : Type} [LT K] [DecidableEq K] [DecidableLT K]

def set : List (K × V) → K → V → List (K × V)
  | [], k, v => [(k, v)]
  | e :: m, k, v =>
    if k < e.1 then (k, v) :: e :: m
    else if k = e.1 then (k, v) :: m
    else e :: set m k v

def insert : List (K × V) → K → V → List (K × V)
  | [], k, v => [(k, v)]
  | e :: m, k, v =>
    if k < e.1 then (k, v) :: e :: m
    else if k = e.1 then e :: m
    else e :: insert m k v

def Sorted (m : List (K × V)) : Prop := m.Pairwise fun a b => a.1 < b.1

instance (m : List (K × V)) : Decidable (Sorted m) := by
  unfold Sorted; infer_instance

variable {m : List (K × V)}

theorem set_of_forall_lt [Std.Asymm (α := K) (· < ·)] :
    ∀ m : List (K × V), (∀ a ∈ m, a.1 < k) → set m k v = m ++ [(k, v)] := by
  intro m
  induction m with
  | nil => intro _; rfl
  | cons e m ih =>
    intro h
    have he : e.1 < k := h e (by simp)
    have hne : k ≠ e.1 := by
      rintro rfl
      exact Std.Asymm.asymm _ _ he he
    simp [set, Std.Asymm.asymm _ _ he, hne, ih fun a ha => h a (by simp [ha])]

theorem set_perm (h : k ∉ m.map Prod.fst) (v : V) : (set m k v).Perm ((k, v) :: m) := by
  induction m with
  | nil => exact .refl _
  | cons e m ih =>
    rw [map_cons, mem_cons, not_or] at h
    unfold set
    split
    · exact .refl _
    · rw [if_neg h.1]
      exact ((ih h.2).cons e).trans (.swap _ _ _)

theorem set_of_mem [Std.Asymm (α := K) (· < ·)] (hm : Sorted m) (h : k ∈ m.map Prod.fst) (v : V) :
    set m k v = m.map fun e => if e.1 = k then (k, v) else e := by
  induction m with
  | nil => cases h
  | cons e m ih =>
    obtain ⟨hlt, hm⟩ := pairwise_cons.mp hm
    unfold set
    split
    · next hk =>
      -- all keys of the list are above this one
      rcases mem_cons.mp h with h | h
      · exact absurd (h ▸ hk) (Std.Asymm.asymm _ _ (h ▸ hk))
      · obtain ⟨a, ha, rfl⟩ := mem_map.mp h
        exact absurd hk (Std.Asymm.asymm _ _ (hlt a ha))
    · split
      · next hk =>
        subst hk
        rw [map_cons, if_pos rfl]
        refine congrArg _ ((map_id m).symm.trans (map_congr_left fun a ha => ?_))
        rw [if_neg, id]
        intro heq
        exact Std.Asymm.asymm _ _ (hlt a ha) (heq ▸ hlt a ha)
      · next hk =>
        have hne : ¬e.1 = k := fun heq => hk heq.symm
        rw [map_cons, if_neg hne, ih hm ((mem_cons.mp h).resolve_left hk)]

theorem lookup_set [BEq K] [LawfulBEq K] (m : List (K × V)) (k : K) (v : V) (k' : K) :
    (set m k v).lookup k' = if k' = k then some v else m.lookup k' := by
  induction m with
  | nil =>
    by_cases h : k' = k
    · simp [set, h]
    · simp [set, h]
  | cons e m ih =>
    unfold set
    split
    · by_cases h : k' = k
      · simp [h]
      · rw [lookup_cons, beq_false_of_ne h, if_neg h]
    split
    · next hk =>
      by_cases h : k' = k
      · simp [h]
      · rw [lookup_cons, beq_false_of_ne h, if_neg h, lookup_cons, beq_false_of_ne (hk ▸ h)]
    next hk =>
    rw [lookup_cons, lookup_cons, ih]
    by_cases h : k' = e.1
    · have hne : k' ≠ k := fun heq => hk (heq ▸ h)
      simp [h, h ▸ hne]
    · simp [beq_false_of_ne h]

omit [DecidableEq K] [DecidableLT K] in
theorem lookup_of_mem [BEq K] [LawfulBEq K] [Std.Asymm (α := K) (· < ·)] (hm : Sorted m)
    (h : (k, v) ∈ m) : m.lookup k = some v := by
  induction m with
  | nil => cases h
  | cons e m ih =>
    obtain ⟨hlt, hm⟩ := pairwise_cons.mp hm
    rw [lookup_cons]
    rcases mem_cons.mp h with rfl | h
    · simp
    have hlt' : e.1 < k := hlt (k, v) h
    have hne : k ≠ e.1 := by
      intro heq
      rw [heq] at hlt'
      exact Std.Asymm.asymm _ _ hlt' hlt'
    rw [beq_false_of_ne hne]
    exact ih hm h

theorem mem_of_mem_set {e : K × V} (h : e ∈ set m k v) : e = (k, v) ∨ e ∈ m := by
  induction m with
  | nil => exact .inl (mem_singleton.mp h)
  | cons a m ih =>
    unfold set at h
    split at h
    · exact mem_cons.mp h
    split at h
    · rcases mem_cons.mp h with h | h
      · exact .inl h
      · exact .inr (mem_cons_of_mem _ h)
    · rcases mem_cons.mp h with h | h
      · exact .inr (h ▸ mem_cons_self)
      · exact (ih h).imp_right (mem_cons_of_mem _)

theorem sorted_set [Std.Trichotomous (α := K) (· < ·)] [IsTrans K (· < ·)] (hm : Sorted m) (k : K)
    (v : V) : Sorted (set m k v) := by
  induction m with
  | nil => exact pairwise_singleton _ _
  | cons e m ih =>
    obtain ⟨hlt, hm⟩ := pairwise_cons.mp hm
    unfold set
    split
    · next hk =>
      refine pairwise_cons.mpr ⟨forall_mem_cons.mpr ⟨hk, fun a ha => ?_⟩,
        pairwise_cons.mpr ⟨hlt, hm⟩⟩
      exact IsTrans.trans _ _ _ hk (hlt a ha)
    next hk =>
    split
    · next heq =>
      subst heq
      exact pairwise_cons.mpr ⟨hlt, hm⟩
    next hne =>
    refine pairwise_cons.mpr ⟨?_, ih hm⟩
    intro a ha
    rcases mem_of_mem_set ha with rfl | ha
    · by_contra hnot
      exact hne (Std.Trichotomous.trichotomous _ _ hk hnot)
    · exact hlt a ha

theorem lookup_foldl_set [BEq K] [LawfulBEq K] (f : B → K) (g : B → V) (l : List B)
    (m : List (K × V)) (k : K) :
    ((∀ b ∈ l, f b ≠ k) ∧ (l.foldl (fun m b => set m (f b) (g b)) m).lookup k = m.lookup k) ∨
    ∃ b ∈ l, f b = k ∧ (l.foldl (fun m b => set m (f b) (g b)) m).lookup k = some (g b) := by
  induction l generalizing m with
  | nil => exact .inl ⟨nofun, rfl⟩
  | cons b l ih =>
    rw [foldl_cons]
    rcases ih (set m (f b) (g b)) with ⟨hl, h⟩ | ⟨c, hc, hk, h⟩
    · rw [h, lookup_set]
      by_cases hb : k = f b
      · exact .inr ⟨b, mem_cons_self, hb.symm, if_pos hb⟩
      · exact .inl ⟨forall_mem_cons.mpr ⟨Ne.symm hb, hl⟩, if_neg hb⟩
    · exact .inr ⟨c, mem_cons_of_mem b hc, hk, h⟩

theorem mem_foldl_set {f : B → K} {g : B → V} {l : List B} {e : K × V}
    (h : e ∈ l.foldl (fun m b => set m (f b) (g b)) m) : e ∈ m ∨ ∃ b ∈ l, e = (f b, g b) := by
  induction l generalizing m with
  | nil => exact .inl h
  | cons b l ih =>
    rcases ih h with h | ⟨c, hc, heq⟩
    · rcases mem_of_mem_set h with heq | h
      · exact .inr ⟨b, mem_cons_self, heq⟩
      · exact .inl h
    · exact .inr ⟨c, mem_cons_of_mem b hc, heq⟩

omit [LT K] [DecidableEq K] [DecidableLT K] in
theorem mem_of_lookup [BEq K] [LawfulBEq K] (h : m.lookup k = some v) : (k, v) ∈ m := by
  obtain ⟨l₁, l₂, heq, -⟩ := lookup_eq_some_iff.mp h
  simp [heq]

section

variable [Std.Asymm (α := K) (· < ·)] [Std.Trichotomous (α := K) (· < ·)] [IsTrans K (· < ·)]
  (hm : Sorted m)
include hm

theorem mem_set {e : K × V} : e ∈ set m k v ↔ e = (k, v) ∨ e ∈ m ∧ e.1 ≠ k := by
  have hlk : ∀ {m : List (K × V)}, Sorted m → (e ∈ m ↔ m.lookup e.1 = some e.2) :=
    fun hm => ⟨lookup_of_mem hm, mem_of_lookup⟩
  rw [hlk (sorted_set hm k v), hlk hm, lookup_set]
  by_cases h : e.1 = k
  · simp [Prod.ext_iff, h, eq_comm]
  · simp [Prod.ext_iff, h]

/-- What holds of any two entries still does if it holds of the entry that is set and those of
other keys. -/
theorem pairwise_set {R : K × V → K × V → Prop} (hsymm : ∀ {a b}, R a b → R b a)
    (hnew : ∀ e ∈ m, e.1 ≠ k → R (k, v) e) (hold : m.Pairwise R) : (set m k v).Pairwise R := by
  refine (sorted_set hm k v).imp_of_mem fun {a b} ha hb hlt => ?_
  have hne : a.1 ≠ b.1 := by
    intro heq
    rw [heq] at hlt
    exact Std.Asymm.asymm _ _ hlt hlt
  rcases (mem_set hm).mp ha with rfl | ⟨ha, hak⟩
  · rcases (mem_set hm).mp hb with rfl | ⟨hb, hbk⟩
    · exact absurd rfl hne
    · exact hnew b hb hbk
  · rcases (mem_set hm).mp hb with rfl | ⟨hb, -⟩
    · exact hsymm (hnew a ha hak)
    · have : Std.Symm R := ⟨fun _ _ => hsymm⟩
      exact hold.forall ha hb fun heq => hne (congrArg Prod.fst heq)

end

theorem insert_of_forall_lt [Std.Asymm (α := K) (· < ·)] :
    ∀ m : List (K × V), (∀ a ∈ m, a.1 < k) → insert m k v = m ++ [(k, v)] := by
  intro m
  induction m with
  | nil => intro _; rfl
  | cons e m ih =>
    intro h
    have he : e.1 < k := h e (by simp)
    have hne : k ≠ e.1 := by
      rintro rfl
      exact Std.Asymm.asymm _ _ he he
    simp [insert, Std.Asymm.asymm _ _ he, hne, cons_append, ih fun a ha => h a (by simp [ha])]

/-- Inserting changes nothing if the key is present, and adds the entry otherwise. -/
theorem insert_cases (m : List (K × V)) (k : K) (v : V) :
    (insert m k v = m ∧ k ∈ m.map Prod.fst) ∨ (insert m k v).Perm ((k, v) :: m) := by
  induction m with
  | nil => exact .inr (.refl _)
  | cons e m ih =>
    unfold insert
    split
    · exact .inr (.refl _)
    · split
      · next hk => exact .inl ⟨rfl, by simp [hk]⟩
      · rcases ih with ⟨h, hk⟩ | h
        · exact .inl ⟨by rw [h], by simpa using .inr (by simpa using hk)⟩
        · exact .inr ((h.cons e).trans (.swap _ _ _))

theorem map_fst_insert_perm (h : k ∉ m.map Prod.fst) (v : V) :
    ((insert m k v).map Prod.fst).Perm (k :: m.map Prod.fst) := by
  rcases insert_cases m k v with ⟨-, hk⟩ | hperm
  · exact absurd hk h
  · exact hperm.map Prod.fst

theorem map_fst_insert {m' : List (K × W)} (h : m.map Prod.fst = m'.map Prod.fst) (k : K)
    (v : V) (w : W) : (insert m k v).map Prod.fst = (insert m' k w).map Prod.fst := by
  induction m generalizing m' with
  | nil =>
    cases m' with
    | nil => rfl
    | cons e' m' => cases h
  | cons e m ih =>
    cases m' with
    | nil => cases h
    | cons e' m' =>
      obtain ⟨he, hm⟩ := List.cons.inj h
      unfold insert
      rw [← he]
      split
      · exact congrArg (k :: ·) h
      · split
        · exact h
        · exact cons_eq_cons.mpr ⟨he, ih hm⟩

theorem mem_of_mem_insert {e : K × V} (h : e ∈ insert m k v) : e = (k, v) ∨ e ∈ m := by
  rcases insert_cases m k v with ⟨heq, -⟩ | hperm
  · exact .inr (heq ▸ h)
  · exact mem_cons.mp (hperm.mem_iff.mp h)

theorem sum_insert_le (w : K × V → ℕ) (m : List (K × V)) (k : K) (v : V) :
    ((insert m k v).map w).sum ≤ (m.map w).sum + w (k, v) := by
  rcases insert_cases m k v with ⟨heq, -⟩ | hperm
  · rw [heq]
    exact Nat.le_add_right _ _
  · refine Nat.le_of_eq ?_
    rw [(hperm.map w).sum_eq, map_cons, sum_cons, Nat.add_comm]

theorem sum_set_le (w : K × V → ℕ) (k : K) (v : V) :
    ∀ m : List (K × V), ((set m k v).map w).sum ≤ (m.map w).sum + w (k, v) := by
  intro m
  induction m with
  | nil => simp [set]
  | cons e m ih =>
    rw [set]
    split_ifs <;> simp only [map_cons, sum_cons] <;> omega

end SortedAssoc
