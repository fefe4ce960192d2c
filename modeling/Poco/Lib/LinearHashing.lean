import Mathlib.Data.List.Basic
import Mathlib.Data.List.Nodup
import Mathlib.Data.List.Perm.Basic
import Mathlib.Data.List.Flatten
import Mathlib.Tactic.Ring

/-!
# Linear hashing: addresses and buckets

In linear hashing the number of buckets grows by one at a time.  A table has completed a round
of doublings, which left it with `front` buckets, and has since split the first `split` of them
in two; a hash addresses its residue modulo `front`, or modulo `2 * front` when that bucket has
already been split.

## Main definitions

* `address`: the bucket that a hash addresses.
* `scatter`: the loop that appends each element of a bucket to the one its new address names.
* `Addressed`: every element lies in the bucket that `f` names.

## Main results

* `address_wrap`: when every bucket of a round has been split, the table addresses like one that
  starts the next round.
* `scatter_eq`: the closed form of the loop.
* `Addressed.scattered`: elements in place stay there, and each moved one reaches its bucket.
-/

namespace LinearHashing

open List

/-! ### Addresses -/

def address (front split n : ℕ) : ℕ :=
  if n % front ≥ split then n % front else n % (2 * front)

theorem mod_two_mul (n front : ℕ) :
    n % (2 * front) = n % front ∨ n % (2 * front) = n % front + front := by
  rcases Nat.eq_zero_or_pos front with rfl | hf
  · simp
  have hlt : n % (2 * front) < 2 * front := Nat.mod_lt _ (by omega)
  have hmod : n % (2 * front) % front = n % front := by
    rw [Nat.mod_mul_left_mod]
  rcases Nat.lt_or_ge (n % (2 * front)) front with h | h
  · left; rw [← hmod, Nat.mod_eq_of_lt h]
  · right
    have hsub : n % (2 * front) % front = n % (2 * front) - front := by
      rw [Nat.mod_eq_sub_mod h, Nat.mod_eq_of_lt (by omega)]
    omega

theorem address_lt (hf : 0 < front) (split n : ℕ) : address front split n < split + front := by
  have hlt : n % front < front := Nat.mod_lt _ hf
  unfold address
  split
  · omega
  · rcases mod_two_mul n front with h | h <;> omega

theorem address_wrap (front n : ℕ) : address front front n = address (2 * front) 0 n := by
  unfold address
  rcases Nat.eq_zero_or_pos front with rfl | hf
  · simp
  · have hlt : n % front < front := Nat.mod_lt _ hf
    rw [if_neg (by omega), if_pos (by omega)]

/-- Splitting bucket `split` changes no address that named another bucket. -/
theorem address_succ_of_ne (h : address front split n ≠ split) :
    address front (split + 1) n = address front split n := by
  unfold address at h ⊢
  by_cases hge : n % front ≥ split
  · rw [if_pos hge] at h ⊢
    rw [if_pos (by omega)]
  · rw [if_neg hge, if_neg (by omega)]

/-- Undoing a split changes no address except those of the last bucket. -/
theorem address_of_succ (h : address front (split + 1) n ≠ split + front) :
    address front split n = address front (split + 1) n := by
  unfold address at h ⊢
  by_cases hge : n % front ≥ split + 1
  · rw [if_pos hge, if_pos (by omega)]
  rw [if_neg hge] at h
  rw [if_neg hge]
  by_cases hge' : n % front ≥ split
  · rw [if_pos hge']
    rcases mod_two_mul n front with h' | h' <;> omega
  · rw [if_neg hge']

/-! ### Moving elements between buckets -/

section Buckets

variable {α : Type*}

/-- Append one element to the bucket at index `i`; `none` when there is no such
bucket. -/
def pushAt (bs : List (List α)) (i : ℕ) (a : α) : Option (List (List α)) :=
  if i < bs.length then some (bs.modify i (· ++ [a])) else none

def scatter (f : α → ℕ) (tmp : List α) (bs : List (List α)) : Option (List (List α)) :=
  tmp.foldlM (fun bs a => pushAt bs (f a) a) bs

def Addressed (f : α → ℕ) (bs : List (List α)) : Prop :=
  ∀ i b, bs[i]? = some b → ∀ a ∈ b, f a = i

/-- The buckets after `scatter`: each is extended by its share of `tmp`. -/
def scattered (f : α → ℕ) (tmp : List α) (bs : List (List α)) : List (List α) :=
  bs.mapIdx fun i b => b ++ tmp.filter (f · = i)

@[simp] theorem scattered_nil (f : α → ℕ) (bs : List (List α)) : scattered f [] bs = bs := by
  apply ext_getElem?
  simp [scattered]

@[simp] theorem length_scattered (f : α → ℕ) (tmp : List α) (bs : List (List α)) :
    (scattered f tmp bs).length = bs.length := by
  simp [scattered]

theorem getElem?_scattered (f : α → ℕ) (tmp : List α) (bs : List (List α)) (i : ℕ) :
    (scattered f tmp bs)[i]? = bs[i]?.map (· ++ tmp.filter (f · = i)) := by
  simp [scattered]

/-- **The closed form of the loop.**  If every address is in range, the loop
never leaves the bucket vector and hands each bucket its share, in order. -/
theorem scatter_eq (f : α → ℕ) : ∀ (tmp : List α) (bs : List (List α)),
    (∀ a ∈ tmp, f a < bs.length) → scatter f tmp bs = some (scattered f tmp bs) := by
  intro tmp
  induction tmp with
  | nil => intro bs _; simp [scatter]
  | cons a tmp ih =>
    intro bs h
    have ha : f a < bs.length := h a (by simp)
    have hstep : scatter f (a :: tmp) bs = scatter f tmp (bs.modify (f a) (· ++ [a])) := by
      simp [scatter, pushAt, ha]
    rw [hstep, ih _ (by intro x hx; simpa using h x (by simp [hx]))]
    congr 1
    apply ext_getElem?
    intro i
    rw [getElem?_scattered, getElem?_scattered, getElem?_modify]
    by_cases hi : f a = i
    · cases bs[i]? <;> simp [hi]
    · cases bs[i]? <;> simp [hi]

/-- Appending a share to each bucket adds exactly the elements of `tmp`. -/
theorem flatten_scattered (f : α → ℕ) : ∀ (tmp : List α) (bs : List (List α)),
    (∀ a ∈ tmp, f a < bs.length) →
      (scattered f tmp bs).flatten.Perm (bs.flatten ++ tmp) := by
  intro tmp
  induction tmp with
  | nil => intro bs _; simp
  | cons a tmp ih =>
    intro bs h
    have ha : f a < bs.length := h a (by simp)
    have hcons : scattered f (a :: tmp) bs = scattered f tmp (bs.modify (f a) (· ++ [a])) := by
      have h1 := scatter_eq f (a :: tmp) bs h
      have h2 := scatter_eq f tmp (bs.modify (f a) (· ++ [a]))
        (by intro x hx; simpa using h x (by simp [hx]))
      have hstep : scatter f (a :: tmp) bs = scatter f tmp (bs.modify (f a) (· ++ [a])) := by
        simp [scatter, pushAt, ha]
      rw [hstep, h2] at h1
      exact (Option.some.inj h1).symm
    rw [hcons]
    refine (ih _ (by intro x hx; simpa using h x (by simp [hx]))).trans ?_
    have hmod : (bs.modify (f a) (· ++ [a])).flatten.Perm (bs.flatten ++ [a]) := by
      rw [modify_eq_take_cons_drop ha]
      have hspl : bs = bs.take (f a) ++ bs[f a] :: bs.drop (f a + 1) := by simp
      conv_rhs => rw [hspl]
      simp only [flatten_append, flatten_cons, append_assoc]
      exact ((perm_append_comm.append_left _).append_left _)
    refine (hmod.append_right tmp).trans ?_
    simp

theorem Addressed.scattered {f : α → ℕ} {bs : List (List α)} (h : Addressed f bs)
    (tmp : List α) : Addressed f (scattered f tmp bs) := by
  intro i b hb a ha
  rw [getElem?_scattered] at hb
  cases hi : bs[i]? with
  | none => rw [hi] at hb; simp at hb
  | some b' =>
    rw [hi] at hb
    simp only [Option.map_some, Option.some.injEq] at hb
    subst hb
    rcases mem_append.mp ha with ha | ha
    · exact h i b' hi a ha
    · simpa using (mem_filter.mp ha).2

/-- An element of an addressed vector is found in the bucket of its address. -/
theorem Addressed.mem_flatten_iff {f : α → ℕ} {bs : List (List α)} (h : Addressed f bs)
    (a : α) : a ∈ bs.flatten ↔ ∃ b, bs[f a]? = some b ∧ a ∈ b := by
  constructor
  · intro ha
    obtain ⟨b, hb, hab⟩ := mem_flatten.mp ha
    obtain ⟨i, hi, rfl⟩ := mem_iff_getElem.mp hb
    have hfa : f a = i := h i _ (getElem?_eq_getElem hi) a hab
    exact ⟨bs[i], by rw [hfa, getElem?_eq_getElem hi], hab⟩
  · rintro ⟨b, hb, hab⟩
    exact mem_flatten.mpr ⟨b, mem_of_getElem? hb, hab⟩

end Buckets

end LinearHashing
