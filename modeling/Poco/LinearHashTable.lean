import Mathlib.Data.Finset.Basic
import Poco.Lib.LinearHashing

/-!
# The linear hash table

`LinearHashTable<Value, HashFunc>` of `Foundation/include/Poco/LinearHashTable.h`.
Every insertion splits one bucket and every erasure merges one, so the addressing
function changes under the stored values at each operation.  The operations below
return `none` where the code would index outside its bucket vector, dereference an
iterator that points nowhere or let `_split` underflow; that none of these happens
is part of the result.

## Main definitions

* `LinearHashTable`, `Iterator`: the members of a table, and positions in the bucket vector and in a
  bucket.
* `insert`, `erase`, `find`, `split`, `merge`: the functions.
* `Reaches`: the tables that calls reach from an empty one, with their abstract set.
* `WF`: a well formed table holding the values of `S`.  Every operation that changes `_size` also
  adds or removes a bucket, so the two counts stay one apart; that is why a table with a value to
  erase has a second bucket to merge.
* `visit`: the values met by a loop from an iterator to `end()`, in `n` rounds at most.

## Main results

* `split_spec`, `merge_spec`: reorganising adds or removes a bucket and loses nothing.
* `WF.apply`: a valid call on a well formed table succeeds and keeps it well formed.
* `linearHashTable_refines_finset`: a table refines a finite set.
* `visit_begin`: a loop over a table meets every value once.
-/

namespace Poco

open List LinearHashing

structure LinearHashTable (Value : Type) where
  buckets : List (List Value)
  /-- `_split`: the next bucket to split. -/
  splitIdx : ℕ
  /-- `_front`: the number of buckets at the start of this round of splits. -/
  front : ℕ
  size : ℕ
  deriving Repr, DecidableEq

namespace LinearHashTable

structure Iterator where
  vecIt : ℕ
  endIt : ℕ
  buckIt : ℕ
  deriving Repr, DecidableEq

def Iterator.ne (a b : Iterator) : Bool :=
  a.vecIt != b.vecIt || (a.vecIt != a.endIt && a.buckIt != b.buckIt)

variable {Value : Type}

def empty : LinearHashTable Value := ⟨[[]], 0, 1, 0⟩

/-- `end()`: past the last bucket, with `_buckets.front().end()` as bucket position. -/
def «end» (t : LinearHashTable Value) : Iterator :=
  ⟨t.buckets.length, t.buckets.length, (t.buckets.headD []).length⟩

def deref (t : LinearHashTable Value) (it : Iterator) : Option Value :=
  t.buckets[it.vecIt]? >>= fun b => b[it.buckIt]?

/-- An iterator obtained from this table and not invalidated since. -/
def ValidIterator (t : LinearHashTable Value) (it : Iterator) : Prop :=
  it.endIt = t.buckets.length ∧ (it.vecIt = t.buckets.length ∨ (t.deref it).isSome)

def bucketAddressForHash (t : LinearHashTable Value) (hash : ℕ) : ℕ :=
  if hash % t.front ≥ t.splitIdx then hash % t.front else hash % (2 * t.front)

section Hash

variable (hash : Value → ℕ)

def bucketAddress (t : LinearHashTable Value) (value : Value) : ℕ :=
  let n := hash value
  if n % t.front ≥ t.splitIdx then n % t.front else n % (2 * t.front)

/-- `split()`: make room for one more bucket and spread bucket `_split` over it. -/
def split (t : LinearHashTable Value) : Option (LinearHashTable Value) := do
  let (splitIdx, front) :=
    if t.splitIdx = t.front then (0, t.front * 2) else (t.splitIdx, t.front)
  let buckets := t.buckets ++ [[]]
  let tmp ← buckets[splitIdx]?
  let t' : LinearHashTable Value := ⟨buckets.set splitIdx [], splitIdx + 1, front, t.size⟩
  let buckets' ← scatter (t'.bucketAddress hash) tmp t'.buckets
  some { t' with buckets := buckets' }

def merge (t : LinearHashTable Value) : Option (LinearHashTable Value) := do
  let (splitIdx, front) :=
    if t.splitIdx = 0 then (t.front / 2, t.front / 2) else (t.splitIdx, t.front)
  -- `--_split` would wrap around
  if splitIdx = 0 then none
  let tmp ← t.buckets.getLast?
  let t' : LinearHashTable Value := ⟨t.buckets.dropLast, splitIdx - 1, front, t.size⟩
  let buckets' ← scatter (t'.bucketAddress hash) tmp t'.buckets
  some { t' with buckets := buckets' }

variable [DecidableEq Value]

def find (t : LinearHashTable Value) (value : Value) : Option Iterator := do
  let addr := t.bucketAddress hash value
  let b ← t.buckets[addr]?
  let buckIt := b.idxOf value
  if buckIt ≠ b.length then some ⟨addr, t.buckets.length, buckIt⟩ else some t.end

def count (t : LinearHashTable Value) (value : Value) : Option ℕ := do
  let it ← t.find hash value
  some (if it.ne t.end then 1 else 0)

/-- `insert(value)`: the table, the position of the element and whether it is new. -/
def insert (t : LinearHashTable Value) (value : Value) :
    Option (LinearHashTable Value × Iterator × Bool) := do
  let n := hash value
  let addr := t.bucketAddressForHash n
  let b ← t.buckets[addr]?
  let buckIt := b.idxOf value
  if buckIt = b.length then
    let t' ← t.split hash
    let addr' := t'.bucketAddressForHash n
    let b' ← t'.buckets[addr']?
    let buckets' ← pushAt t'.buckets addr' value
    some ({ t' with buckets := buckets', size := t'.size + 1 },
      ⟨addr', t'.buckets.length, b'.length⟩, true)
  else
    some (t, ⟨addr, t.buckets.length, buckIt⟩, false)

omit [DecidableEq Value] in
def erase (t : LinearHashTable Value) (it : Iterator) : Option (LinearHashTable Value) := do
  if it.ne t.end then
    let b ← t.buckets[it.vecIt]?
    if it.buckIt < b.length then
      merge hash { t with
        buckets := t.buckets.set it.vecIt (b.eraseIdx it.buckIt), size := t.size - 1 }
    else none
  else some t

def eraseValue (t : LinearHashTable Value) (value : Value) : Option (LinearHashTable Value) := do
  let it ← t.find hash value
  t.erase hash it

omit [DecidableEq Value] in
def clear (_ : LinearHashTable Value) : LinearHashTable Value := empty

end Hash

/-! ### The two reorganisations

`split` and `merge` change `_front`, `_split` and the number of buckets together.
What they rely on and restore is `Shape`; that `_front` is a power of two is what
lets `merge` halve it exactly. -/

section Shape

variable {hash : Value → ℕ}

theorem bucketAddress_eq (t : LinearHashTable Value) (v : Value) :
    t.bucketAddress hash v = address t.front t.splitIdx (hash v) := rfl

/-- The counters agree with the bucket vector and every value is addressed. -/
structure Shape (hash : Value → ℕ) (t : LinearHashTable Value) : Prop where
  length : t.buckets.length = t.splitIdx + t.front
  split_le : t.splitIdx ≤ t.front
  /-- `_front` is a power of two. -/
  pow : ∃ k, t.front = 2 ^ k
  /-- Every value sits in the bucket of its address. -/
  addressed : Addressed (t.bucketAddress hash) t.buckets

namespace Shape

variable {t : LinearHashTable Value}

theorem front_pos (h : Shape hash t) : 0 < t.front := by
  obtain ⟨k, hk⟩ := h.pow
  rw [hk]
  exact Nat.two_pow_pos k

theorem address_lt (h : Shape hash t) (v : Value) : t.bucketAddress hash v < t.buckets.length := by
  rw [h.length]
  exact LinearHashing.address_lt h.front_pos _ _

theorem empty : Shape hash (empty : LinearHashTable Value) where
  length := rfl
  split_le := Nat.zero_le _
  pow := ⟨0, rfl⟩
  addressed := by
    intro i b hb a ha
    cases i with
    | zero =>
      obtain rfl : b = [] := by simpa [LinearHashTable.empty] using hb.symm
      simp at ha
    | succ i => simp [LinearHashTable.empty] at hb

theorem wrap (h : Shape hash t) (hs : t.splitIdx = t.front) :
    Shape hash { t with splitIdx := 0, front := t.front * 2 } where
  length := by simp only [h.length]; omega
  split_le := Nat.zero_le _
  pow := by
    obtain ⟨k, hk⟩ := h.pow
    exact ⟨k + 1, by simp [hk, pow_succ]⟩
  addressed := by
    intro i b hb a ha
    have := h.addressed i b hb a ha
    rw [bucketAddress_eq, hs, address_wrap, Nat.mul_comm] at this
    exact this

theorem unwrap (h : Shape hash t) (hs : t.splitIdx = 0) (h2 : 2 ≤ t.buckets.length) :
    Shape hash { t with splitIdx := t.front / 2, front := t.front / 2 } ∧ 0 < t.front / 2 := by
  obtain ⟨k, hk⟩ := h.pow
  have hlen := h.length
  -- there are at least two buckets, so the power of two is not the first one
  obtain ⟨j, rfl⟩ : ∃ j, k = j + 1 := by
    cases k with
    | zero => simp only [pow_zero] at hk; omega
    | succ j => exact ⟨j, rfl⟩
  have hf : t.front = 2 * (t.front / 2) := by rw [pow_succ] at hk; omega
  refine ⟨⟨?_, le_rfl, ⟨j, ?_⟩, ?_⟩, ?_⟩
  · simp only; omega
  · simp only; rw [pow_succ] at hk; omega
  · intro i b hb a ha
    have := h.addressed i b hb a ha
    rw [bucketAddress_eq, hs, hf, ← address_wrap] at this
    exact this
  · omega

theorem scattered (h : Shape hash t) (b : List Value) :
    ∃ bs, scatter (t.bucketAddress hash) b t.buckets = some bs ∧
      bs.length = t.buckets.length ∧ Shape hash { t with buckets := bs } ∧
      bs.flatten.Perm (t.buckets.flatten ++ b) := by
  have hran : ∀ a ∈ b, t.bucketAddress hash a < t.buckets.length := fun a _ => h.address_lt a
  have hlen := length_scattered (t.bucketAddress hash) b t.buckets
  exact ⟨_, scatter_eq _ _ _ hran, hlen,
    ⟨hlen.trans h.length, h.split_le, h.pow, h.addressed.scattered b⟩,
    flatten_scattered _ _ _ hran⟩

end Shape

/-- What a reorganisation preserves: the shape, and the stored values up to order. -/
structure Reorganises (hash : Value → ℕ) (t t' : LinearHashTable Value) : Prop where
  shape : Shape hash t'
  perm : t'.buckets.flatten.Perm t.buckets.flatten
  size : t'.size = t.size

variable {t : LinearHashTable Value} {S : Finset Value}

/-- The body of `split` after the wrap: bucket `_split` is not the last of its round. -/
theorem split_of_lt (h : Shape hash t) (hlt : t.splitIdx < t.front) :
    ∃ t', t.split hash = some t' ∧ Reorganises hash t t' ∧
      t'.buckets.length = t.buckets.length + 1 := by
  have hlen := h.length
  have hidx : t.splitIdx < t.buckets.length := by omega
  set b := t.buckets[t.splitIdx] with hb
  set t₁ : LinearHashTable Value :=
    ⟨(t.buckets ++ [[]]).set t.splitIdx [], t.splitIdx + 1, t.front, t.size⟩ with ht₁
  have hlen₁ : t₁.buckets.length = t.buckets.length + 1 := by simp [ht₁]
  -- the values left in place keep their address
  have haddr₁ : Addressed (t₁.bucketAddress hash) t₁.buckets := by
    intro i c hc a ha
    by_cases hi : i = t.splitIdx
    · subst hi
      rw [ht₁, getElem?_set_self (by simp; omega)] at hc
      simp only [Option.some.injEq] at hc
      simp [← hc] at ha
    rw [ht₁, getElem?_set_ne (Ne.symm hi), getElem?_append] at hc
    split at hc
    · have hold : address t.front t.splitIdx (hash a) = i := h.addressed i c hc a ha
      rw [bucketAddress_eq]
      show address t.front (t.splitIdx + 1) (hash a) = i
      rw [address_succ_of_ne (by omega), hold]
    · rw [getElem?_singleton] at hc
      split at hc
      · simp only [Option.some.injEq] at hc
        simp [← hc] at ha
      · simp at hc
  have hshp₁ : Shape hash t₁ := by
    refine ⟨?_, hlt, h.pow, haddr₁⟩
    rw [hlen₁, hlen]
    exact Nat.add_right_comm _ _ _
  obtain ⟨bs, hsca, hbs, hshp, hperm⟩ := hshp₁.scattered b
  refine ⟨{ t₁ with buckets := bs }, ?_, ⟨hshp, hperm.trans ?_, rfl⟩, hbs.trans hlen₁⟩
  · have hget : (t.buckets ++ [[]])[t.splitIdx]? = some b := by
      rw [getElem?_append_left hidx, getElem?_eq_getElem hidx]
    unfold LinearHashTable.split
    simp only [if_neg (Nat.ne_of_lt hlt), hget, Option.bind_eq_bind, Option.bind_some]
    rw [← ht₁, hsca]
    rfl
  · have hset : t₁.buckets = t.buckets.set t.splitIdx [] ++ [[]] := by
      rw [ht₁, set_append_left _ _ hidx]
    have hcut : t.buckets = t.buckets.take t.splitIdx ++ b :: t.buckets.drop (t.splitIdx + 1) := by
      simp [hb]
    rw [hset, set_eq_take_cons_drop _ hidx]
    conv_rhs => rw [hcut]
    simp only [flatten_append, flatten_cons, flatten_nil, nil_append, append_nil, append_assoc]
    exact perm_append_comm.append_left _

theorem split_spec (h : Shape hash t) :
    ∃ t', t.split hash = some t' ∧ Reorganises hash t t' ∧
      t'.buckets.length = t.buckets.length + 1 := by
  by_cases hs : t.splitIdx = t.front
  · have hpos := h.front_pos
    obtain ⟨t', ht', hr, hl⟩ := split_of_lt (h.wrap hs) (by simp only; omega)
    refine ⟨t', ?_, ⟨hr.shape, hr.perm, hr.size⟩, hl⟩
    rw [← ht']
    unfold LinearHashTable.split
    simp only [if_pos hs]
    rw [if_neg (by omega)]
  · exact split_of_lt h (Nat.lt_of_le_of_ne h.split_le hs)

/-- The body of `merge` after the wrap: some bucket of this round has been split. -/
theorem merge_of_pos (h : Shape hash t) (hpos : 0 < t.splitIdx) :
    ∃ t', t.merge hash = some t' ∧ Reorganises hash t t' ∧
      t'.buckets.length + 1 = t.buckets.length := by
  have hlen := h.length
  have hne : t.buckets ≠ [] := by
    intro h0
    rw [h0, length_nil] at hlen
    omega
  set b := t.buckets.getLast hne with hb
  set t₁ : LinearHashTable Value :=
    ⟨t.buckets.dropLast, t.splitIdx - 1, t.front, t.size⟩ with ht₁
  have hlen₁ : t₁.buckets.length + 1 = t.buckets.length := by
    simp only [ht₁, length_dropLast]
    omega
  have haddr₁ : Addressed (t₁.bucketAddress hash) t₁.buckets := by
    intro i c hc a ha
    have hi : i < t₁.buckets.length := (List.getElem?_eq_some_iff.mp hc).1
    rw [ht₁, List.getElem?_dropLast, if_pos (by omega)] at hc
    have hold : address t.front t.splitIdx (hash a) = i := h.addressed i c hc a ha
    have hsucc : t.splitIdx = t.splitIdx - 1 + 1 := by omega
    rw [hsucc] at hold
    rw [bucketAddress_eq]
    show address t.front (t.splitIdx - 1) (hash a) = i
    rw [address_of_succ (by omega), hold]
  have hshp₁ : Shape hash t₁ := by
    refine ⟨?_, (Nat.sub_le _ _).trans h.split_le, h.pow, haddr₁⟩
    show t₁.buckets.length = t.splitIdx - 1 + t.front
    omega
  obtain ⟨bs, hsca, hbs, hshp, hperm⟩ := hshp₁.scattered b
  refine ⟨{ t₁ with buckets := bs }, ?_, ⟨hshp, hperm.trans ?_, rfl⟩, ?_⟩
  · unfold LinearHashTable.merge
    simp only [if_neg (Nat.ne_of_gt hpos), getLast?_eq_some_getLast hne,
      Option.bind_eq_bind, Option.bind_some]
    rw [← ht₁, ← hb, hsca]
    rfl
  · have hcut : t.buckets = t.buckets.dropLast ++ [b] := (dropLast_append_getLast hne).symm
    conv_rhs => rw [hcut]
    simp [ht₁]
  · exact (congrArg (· + 1) hbs).trans hlen₁

theorem merge_spec (h : Shape hash t) (h2 : 2 ≤ t.buckets.length) :
    ∃ t', t.merge hash = some t' ∧ Reorganises hash t t' ∧
      t'.buckets.length + 1 = t.buckets.length := by
  by_cases hs : t.splitIdx = 0
  · obtain ⟨hw, hf⟩ := h.unwrap hs h2
    obtain ⟨t', ht', hr, hl⟩ := merge_of_pos hw hf
    refine ⟨t', ?_, ⟨hr.shape, hr.perm, hr.size⟩, hl⟩
    rw [← ht']
    unfold LinearHashTable.merge
    simp only [if_pos hs, if_neg (Nat.ne_of_gt hf)]
  · exact merge_of_pos h (Nat.pos_of_ne_zero hs)

end Shape

/-! ### The operations on a well formed table -/

section WellFormed

variable {hash : Value → ℕ}

structure WF (hash : Value → ℕ) (t : LinearHashTable Value) (S : Finset Value) : Prop where
  shape : Shape hash t
  nodup : t.buckets.flatten.Nodup
  size : t.size = t.buckets.flatten.length
  load : t.buckets.length = t.size + 1
  mem_iff : ∀ v, v ∈ t.buckets.flatten ↔ v ∈ S

theorem WF.empty : WF hash (empty : LinearHashTable Value) ∅ where
  shape := Shape.empty
  nodup := by simp [LinearHashTable.empty]
  size := by simp [LinearHashTable.empty]
  load := rfl
  mem_iff := by simp [LinearHashTable.empty]

theorem Shape.exists_bucket (h : Shape hash t) (v : Value) :
    ∃ b, t.buckets[t.bucketAddress hash v]? = some b :=
  ⟨_, getElem?_eq_getElem (h.address_lt v)⟩

theorem Iterator.end_ne_end (t : LinearHashTable Value) : t.end.ne t.end = false := by
  simp [Iterator.ne, LinearHashTable.end]

variable {t : LinearHashTable Value} {S : Finset Value}

variable {it : Iterator}

theorem ne_end_of_lt (h : it.vecIt < t.buckets.length) : it.ne t.end = true := by
  simp [Iterator.ne, LinearHashTable.end, Nat.ne_of_lt h]

variable [DecidableEq Value]

variable {v : Value}

theorem find_of_mem (h : Shape hash t) (hv : v ∈ t.buckets.flatten) :
    ∃ it, t.find hash v = some it ∧ it.vecIt < t.buckets.length ∧ t.deref it = some v ∧
      it.endIt = t.buckets.length := by
  obtain ⟨b, hb, hvb⟩ := (h.addressed.mem_flatten_iff v).mp hv
  have hidx : b.idxOf v < b.length := idxOf_lt_length_iff.mpr hvb
  refine ⟨⟨t.bucketAddress hash v, t.buckets.length, b.idxOf v⟩, ?_, h.address_lt v, ?_, rfl⟩
  · simp [find, hb, Nat.ne_of_lt hidx]
  · simp [deref, hb, getElem?_eq_getElem hidx]

theorem find_of_notMem (h : Shape hash t) (hv : v ∉ t.buckets.flatten) :
    t.find hash v = some t.end := by
  obtain ⟨b, hb⟩ := h.exists_bucket v
  have hvb : v ∉ b := fun hvb => hv ((h.addressed.mem_flatten_iff v).mpr ⟨b, hb, hvb⟩)
  have hidx : b.idxOf v = b.length := idxOf_eq_length_iff.mpr hvb
  simp [find, hb, hidx]

theorem insert_of_mem (h : Shape hash t) (hv : v ∈ t.buckets.flatten) :
    ∃ it, t.insert hash v = some (t, it, false) ∧ t.deref it = some v := by
  obtain ⟨b, hb, hvb⟩ := (h.addressed.mem_flatten_iff v).mp hv
  have hidx : b.idxOf v < b.length := idxOf_lt_length_iff.mpr hvb
  have hb' : t.buckets[t.bucketAddressForHash (hash v)]? = some b := hb
  refine ⟨⟨t.bucketAddressForHash (hash v), t.buckets.length, b.idxOf v⟩, ?_, ?_⟩
  · simp [insert, hb', Nat.ne_of_lt hidx]
  · simp [deref, hb', getElem?_eq_getElem hidx]

theorem insert_of_notMem (h : WF hash t S) (hv : v ∉ S) :
    ∃ t' it, t.insert hash v = some (t', it, true) ∧ WF hash t' (Insert.insert v S) := by
  have hnot : v ∉ t.buckets.flatten := fun hm => hv ((h.mem_iff v).mp hm)
  obtain ⟨b, hb⟩ := h.shape.exists_bucket v
  have hvb : v ∉ b := fun hvb => hnot ((h.shape.addressed.mem_flatten_iff v).mpr ⟨b, hb, hvb⟩)
  have hidx : b.idxOf v = b.length := idxOf_eq_length_iff.mpr hvb
  obtain ⟨t₁, ht₁, hr, hlen₁⟩ := split_spec h.shape
  have hlt := hr.shape.address_lt v
  set i := t₁.bucketAddress hash v with hi
  obtain ⟨bs, hsca, hbs, hshp, hperm₁⟩ := hr.shape.scattered [v]
  have hpush : pushAt t₁.buckets i v = some bs := by
    rw [← hsca]
    simp [scatter, hi]
  have hperm : bs.flatten.Perm (t.buckets.flatten ++ [v]) :=
    hperm₁.trans (hr.perm.append_right [v])
  refine ⟨{ t₁ with buckets := bs, size := t₁.size + 1 },
    ⟨i, t₁.buckets.length, t₁.buckets[i].length⟩, ?_, ?_⟩
  · have hb' : t.buckets[t.bucketAddressForHash (hash v)]? = some b := hb
    have hi' : t₁.bucketAddressForHash (hash v) = i := rfl
    simp [insert, hb', hidx, ht₁, hi', getElem?_eq_getElem hlt, hpush]
  refine ⟨⟨hshp.length, hshp.split_le, hshp.pow, hshp.addressed⟩, ?_, ?_, ?_, ?_⟩
  · rw [hperm.nodup_iff, nodup_append]
    refine ⟨h.nodup, by simp, ?_⟩
    intro a ha c hc hac
    rw [mem_singleton] at hc
    exact hnot (hc ▸ hac ▸ ha)
  · rw [hperm.length_eq, length_append, length_singleton, ← h.size, ← hr.size]
  · simp [hbs, hlen₁, h.load, hr.size]
  · intro a
    rw [hperm.mem_iff, mem_append, mem_singleton, h.mem_iff, Finset.mem_insert]
    exact or_comm

omit [DecidableEq Value] in
theorem flatten_eraseIdx {bs : List (List Value)} (hb : bs[i]? = some b)
    (hv : b[j]? = some v) : (v :: (bs.set i (b.eraseIdx j)).flatten).Perm bs.flatten := by
  obtain ⟨hi, rfl⟩ := List.getElem?_eq_some_iff.mp hb
  obtain ⟨hj, rfl⟩ := List.getElem?_eq_some_iff.mp hv
  have hcut : bs = bs.take i ++ bs[i] :: bs.drop (i + 1) := by simp
  conv_rhs => rw [hcut]
  rw [set_eq_take_cons_drop _ hi]
  simp only [flatten_append, flatten_cons]
  have hbuc : (bs[i][j] :: bs[i].eraseIdx j).Perm bs[i] := getElem_cons_eraseIdx_perm hj
  refine perm_middle.symm.trans (List.Perm.append_left _ ?_)
  exact hbuc.append_right _

theorem erase_of_deref (h : WF hash t S) (hv : t.deref it = some v) :
    ∃ t', t.erase hash it = some t' ∧ WF hash t' (S.erase v) := by
  -- the bucket the iterator points into
  obtain ⟨b, hb, hbv⟩ : ∃ b, t.buckets[it.vecIt]? = some b ∧ b[it.buckIt]? = some v := by
    simpa [deref, Option.bind_eq_some_iff] using hv
  have hi : it.vecIt < t.buckets.length := (List.getElem?_eq_some_iff.mp hb).1
  have hj : it.buckIt < b.length := (List.getElem?_eq_some_iff.mp hbv).1
  have hperm := flatten_eraseIdx hb hbv
  set t₁ : LinearHashTable Value := { t with
    buckets := t.buckets.set it.vecIt (b.eraseIdx it.buckIt), size := t.size - 1 } with ht₁
  have hsize : t.size = t₁.buckets.flatten.length + 1 := by
    rw [h.size, ← hperm.length_eq, length_cons]
  have hshp : Shape hash t₁ := by
    refine ⟨by simpa [ht₁] using h.shape.length, h.shape.split_le, h.shape.pow, ?_⟩
    intro i c hc a ha
    by_cases hii : it.vecIt = i
    · subst hii
      rw [ht₁, getElem?_set_self hi, Option.some.injEq] at hc
      exact h.shape.addressed _ b hb a (mem_of_mem_eraseIdx (hc ▸ ha))
    · rw [ht₁, getElem?_set_ne hii] at hc
      exact h.shape.addressed i c hc a ha
  have hload : t₁.buckets.length = t.size + 1 := by simpa [ht₁] using h.load
  obtain ⟨t', ht', hr, hlen⟩ := merge_spec hshp (by omega)
  refine ⟨t', ?_, ⟨hr.shape, ?_, ?_, ?_, ?_⟩⟩
  · simp [erase, ne_end_of_lt hi, hb, hj, ← ht₁, ht']
  · rw [hr.perm.nodup_iff]
    exact (nodup_cons.mp (hperm.nodup_iff.mpr h.nodup)).2
  · rw [hr.perm.length_eq, hr.size]
    show t.size - 1 = _
    omega
  · rw [hr.size]
    show _ = t.size - 1 + 1
    omega
  intro a
  have hnd := nodup_cons.mp (hperm.nodup_iff.mpr h.nodup)
  rw [hr.perm.mem_iff, Finset.mem_erase, ← h.mem_iff, ← hperm.mem_iff, mem_cons]
  constructor
  · intro ha
    exact ⟨fun hav => hnd.1 (hav ▸ ha), .inr ha⟩
  · rintro ⟨hne, rfl | ha⟩
    · exact absurd rfl hne
    · exact ha

omit [DecidableEq Value] in
theorem erase_of_end (hv : it.vecIt = t.buckets.length) (he : it.endIt = t.buckets.length) :
    t.erase hash it = some t := by
  simp [erase, Iterator.ne, LinearHashTable.end, hv, he]

end WellFormed

/-! ### Refinement of a finite set -/

inductive Op (Value : Type) where
  | insert (v : Value)
  | eraseValue (v : Value)
  | erase (it : Iterator)
  | clear
  deriving Repr, DecidableEq

/-- The only precondition: an iterator passed to `erase` belongs to the table. -/
def Op.Valid (t : LinearHashTable Value) : Op Value → Prop
  | .erase it => t.ValidIterator it
  | _ => True

section Run

variable [DecidableEq Value] (hash : Value → ℕ)

def Op.apply (t : LinearHashTable Value) : Op Value → Option (LinearHashTable Value)
  | .insert v => (t.insert hash v).map (·.1)
  | .eraseValue v => t.eraseValue hash v
  | .erase it => t.erase hash it
  | .clear => some t.clear

/-- What the call does to the set of values inserted and not yet erased. -/
def Op.effect (t : LinearHashTable Value) (S : Finset Value) : Op Value → Finset Value
  | .insert v => Insert.insert v S
  | .eraseValue v => S.erase v
  | .erase it => (t.deref it).elim S S.erase
  | .clear => ∅

inductive Reaches : LinearHashTable Value → Finset Value → Prop
  | empty : Reaches empty ∅
  | step {t t' : LinearHashTable Value} {S : Finset Value} (op : Op Value) :
      Reaches t S → op.Valid t → op.apply hash t = some t' → Reaches t' (op.effect t S)

variable {hash}

theorem WF.apply (h : WF hash t S) (op : Op Value) (hop : op.Valid t) :
    ∃ t', op.apply hash t = some t' ∧ WF hash t' (op.effect t S) := by
  cases op with
  | insert v =>
    by_cases hv : v ∈ S
    · obtain ⟨it, hit, -⟩ := insert_of_mem h.shape ((h.mem_iff v).mpr hv)
      refine ⟨t, by simp [Op.apply, hit], ?_⟩
      simpa [Op.effect, Finset.insert_eq_of_mem hv] using h
    · obtain ⟨t', it, ht', hw⟩ := insert_of_notMem h hv
      exact ⟨t', by simp [Op.apply, ht'], hw⟩
  | eraseValue v =>
    by_cases hv : v ∈ S
    · obtain ⟨it, hit, -, hd, -⟩ := find_of_mem h.shape ((h.mem_iff v).mpr hv)
      obtain ⟨t', ht', hw⟩ := erase_of_deref h hd
      exact ⟨t', by simp [Op.apply, eraseValue, hit, ht'], hw⟩
    · have hf := find_of_notMem h.shape (fun hm => hv ((h.mem_iff v).mp hm))
      refine ⟨t, ?_, ?_⟩
      · have he : t.erase hash t.end = some t := erase_of_end rfl rfl
        simp [Op.apply, eraseValue, hf, he]
      · simpa [Op.effect, Finset.erase_eq_of_notMem hv] using h
  | erase it =>
    obtain ⟨hend, hpos | hd⟩ := hop
    · refine ⟨t, erase_of_end hpos hend, ?_⟩
      have hd : t.deref it = none := by simp [deref, hpos]
      simpa [Op.effect, hd] using h
    · obtain ⟨v, hv⟩ := Option.isSome_iff_exists.mp hd
      obtain ⟨t', ht', hw⟩ := erase_of_deref h hv
      exact ⟨t', ht', by simpa [Op.effect, hv] using hw⟩
  | clear => exact ⟨LinearHashTable.empty, rfl, WF.empty⟩

theorem Reaches.wf (h : Reaches hash t S) : WF hash t S := by
  induction h with
  | empty => exact WF.empty
  | step op _ hop happ ih =>
    obtain ⟨t', ht', hw⟩ := ih.apply op hop
    rw [happ, Option.some.injEq] at ht'
    exact ht' ▸ hw

structure Inv (hash : Value → ℕ) (t : LinearHashTable Value) : Prop where
  length : t.buckets.length = t.splitIdx + t.front
  split_nonneg : 0 ≤ t.splitIdx
  split_le : t.splitIdx ≤ t.front
  front_pos : t.front ≥ 1
  /-- Every stored value sits in bucket `bucketAddress(v)`. -/
  addressed : ∀ i b, t.buckets[i]? = some b → ∀ v ∈ b, t.bucketAddress hash v = i
  nodup : t.buckets.flatten.Nodup
  /-- `_size` is the number of stored values. -/
  size : t.size = t.buckets.flatten.length

omit [DecidableEq Value] in
theorem WF.inv (h : WF hash t S) : Inv hash t where
  length := h.shape.length
  split_nonneg := Nat.zero_le _
  split_le := h.shape.split_le
  front_pos := h.shape.front_pos
  addressed := h.shape.addressed
  nodup := h.nodup
  size := h.size

theorem WF.find_iff (h : WF hash t S) (v : Value) :
    ∃ it, t.find hash v = some it ∧ (it.ne t.end = true ↔ v ∈ S) := by
  by_cases hv : v ∈ S
  · obtain ⟨it, hit, hlt, -, -⟩ := find_of_mem h.shape ((h.mem_iff v).mpr hv)
    exact ⟨it, hit, by simp [ne_end_of_lt hlt, hv]⟩
  · have hf := find_of_notMem h.shape (fun hm => hv ((h.mem_iff v).mp hm))
    exact ⟨t.end, hf, by simp [Iterator.end_ne_end, hv]⟩

theorem WF.count_eq (h : WF hash t S) (v : Value) :
    t.count hash v = some (if v ∈ S then 1 else 0) := by
  obtain ⟨it, hit, hiff⟩ := h.find_iff v
  simp [count, hit, hiff]

/-- **`LinearHashTable` refines a finite set.**  For every hash function and every
sequence of calls from an empty table, the reached table satisfies the
representation invariant, addresses only buckets it has, finds and counts exactly
the values inserted and not yet erased, and lets every further call run without an
index out of range. -/
theorem linearHashTable_refines_finset (hash : Value → ℕ) (t : LinearHashTable Value)
    (S : Finset Value) (h : Reaches hash t S) :
    Inv hash t ∧
      (∀ v, t.bucketAddress hash v < t.buckets.length) ∧
      (∀ v, ∃ it, t.find hash v = some it ∧ (it.ne t.end = true ↔ v ∈ S)) ∧
      (∀ v, t.count hash v = some (if v ∈ S then 1 else 0)) ∧
      (∀ op : Op Value, op.Valid t → ∃ t', op.apply hash t = some t') := by
  have hw := h.wf
  refine ⟨hw.inv, hw.shape.address_lt, hw.find_iff, hw.count_eq, ?_⟩
  intro op hop
  obtain ⟨t', ht', -⟩ := hw.apply op hop
  exact ⟨t', ht'⟩

/-- Two insertions, the second of which starts a new round, and an erasure. -/
theorem linearHashTable_refines_finset_run :
    Reaches id (⟨[[], [1]], 0, 2, 1⟩ : LinearHashTable ℕ)
      (Finset.erase (Insert.insert 2 (Insert.insert 1 ∅)) 2) ∧
      Inv id (⟨[[], [1]], 0, 2, 1⟩ : LinearHashTable ℕ) ∧
      (⟨[[], [1]], 0, 2, 1⟩ : LinearHashTable ℕ).count id 2 = some 0 := by
  have h : Reaches id (⟨[[], [1]], 0, 2, 1⟩ : LinearHashTable ℕ)
      (Finset.erase (Insert.insert 2 (Insert.insert 1 ∅)) 2) :=
    .step (.eraseValue 2)
      (.step (.insert 2) (.step (.insert 1) .empty trivial rfl) trivial rfl) trivial rfl
  exact ⟨h, (linearHashTable_refines_finset id _ _ h).1,
    ((linearHashTable_refines_finset id _ _ h).2.2.2.1 2).trans (by decide)⟩

end Run

/-! ### Iteration -/

section Iteration

def skipEmpty : List (List Value) → ℕ → ℕ
  | [], it => it
  | b :: bs, it => if b.isEmpty then skipEmpty bs (it + 1) else it

def begin (t : LinearHashTable Value) : Iterator :=
  let it := skipEmpty t.buckets 0
  if it = t.buckets.length then t.end else ⟨it, t.buckets.length, 0⟩

/-- The loop of `operator ++`, with the buckets from `_vecIt` on. -/
def Iterator.settle (endIt : ℕ) : List (List Value) → ℕ → ℕ → Iterator
  | [], vecIt, buckIt => ⟨vecIt, endIt, buckIt⟩
  | b :: bs, vecIt, buckIt =>
    if buckIt = b.length then settle endIt bs (vecIt + 1) (if bs.isEmpty then buckIt else 0)
    else ⟨vecIt, endIt, buckIt⟩

def next (t : LinearHashTable Value) (it : Iterator) : Iterator :=
  if it.vecIt ≠ it.endIt then
    .settle it.endIt (t.buckets.drop it.vecIt) it.vecIt (it.buckIt + 1)
  else it

def visit (t : LinearHashTable Value) : ℕ → Iterator → Option (List Value)
  | 0, _ => some []
  | n + 1, it =>
    if it.ne t.end then do
      let v ← t.deref it
      let vs ← t.visit n (t.next it)
      some (v :: vs)
    else some []

variable {t : LinearHashTable Value}

theorem visit_of_end (n buckIt : ℕ) :
    t.visit n ⟨t.buckets.length, t.buckets.length, buckIt⟩ = some [] := by
  cases n with
  | zero => rfl
  | succ n => simp [visit, Iterator.ne, LinearHashTable.end]

theorem visit_succ {pre bs : List (List Value)} {b : List Value} {n buckIt : ℕ}
    (hbs : t.buckets = pre ++ b :: bs) (hlt : buckIt < b.length) :
    t.visit (n + 1) ⟨pre.length, t.buckets.length, buckIt⟩ =
      (t.visit n (.settle t.buckets.length (b :: bs) pre.length (buckIt + 1))).map
        (b[buckIt] :: ·) := by
  have hpos : pre.length < t.buckets.length := by simp [hbs]
  have hder : t.deref ⟨pre.length, t.buckets.length, buckIt⟩ = some b[buckIt] := by
    simp [deref, hbs, hlt]
  rw [visit, if_pos (ne_end_of_lt hpos), hder, next, if_pos hpos.ne, hbs, drop_left, ← hbs]
  cases t.visit n _ <;> rfl

theorem visit_settle {n : ℕ} : ∀ {pre bs : List (List Value)} {buckIt : ℕ}, t.buckets = pre ++ bs →
    (∀ b ∈ bs.head?, buckIt ≤ b.length) →
      t.visit n (.settle t.buckets.length bs pre.length buckIt)
        = some ((bs.flatten.drop buckIt).take n) := by
  induction n with
  | zero =>
    intro pre bs buckIt _ _
    rfl
  | succ n ih =>
    intro pre bs
    induction bs generalizing pre with
    | nil =>
      intro buckIt hbs _
      have hlen : pre.length = t.buckets.length := by rw [hbs, append_nil]
      rw [Iterator.settle, hlen, visit_of_end]
      simp
    | cons b bs ihb =>
      intro buckIt hbs hle
      have hle := hle b rfl
      rw [Iterator.settle]
      split
      · next heq =>
        -- the loop of `operator ++` goes on to the next bucket
        have hnext := @ihb (pre ++ [b]) (if bs.isEmpty then buckIt else 0)
          (by rw [hbs, append_cons])
          (by cases bs <;> simp)
        rw [length_append, length_singleton] at hnext
        rw [hnext, flatten_cons, heq, drop_left]
        cases bs <;> simp
      · next hne =>
        have hlt : buckIt < b.length := lt_of_le_of_ne hle hne
        rw [visit_succ hbs hlt, ih hbs (by simpa using Nat.succ_le_of_lt hlt), flatten_cons,
          drop_append_of_le_length hle, drop_append_of_le_length hlt, drop_eq_getElem_cons hlt]
        rfl

theorem settle_zero (endIt : ℕ) (bs : List (List Value)) : ∀ vecIt : ℕ,
    Iterator.settle endIt bs vecIt 0 = ⟨skipEmpty bs vecIt, endIt, 0⟩ := by
  induction bs with
  | nil => exact fun _ => rfl
  | cons b bs ih =>
    intro vecIt
    cases b with
    | nil => simp [Iterator.settle, skipEmpty, ih]
    | cons v b => simp [Iterator.settle, skipEmpty]

theorem visit_begin_eq (n : ℕ) : t.visit n t.begin = some (t.buckets.flatten.take n) := by
  have hall := @visit_settle _ t n [] t.buckets 0 rfl (by simp)
  rw [length_nil, settle_zero, drop_zero] at hall
  rw [← hall, begin]
  split
  · next hend =>
    rw [hend]
    exact (visit_of_end n _).trans (visit_of_end n _).symm
  · rfl

/-- **A loop over a table meets every value once.**  In every table that is reached, the loop
from `begin()` to `end()` ends, and dereferences only iterators that point to a value. -/
theorem visit_begin [DecidableEq Value] (hash : Value → ℕ) (t : LinearHashTable Value)
    (S : Finset Value) (h : Reaches hash t S) :
    ∃ vs : List Value, vs.Nodup ∧ (∀ v, v ∈ vs ↔ v ∈ S) ∧
      ∀ n ≥ t.size, t.visit n t.begin = some vs := by
  refine ⟨t.buckets.flatten, h.wf.nodup, h.wf.mem_iff, ?_⟩
  intro n hn
  rw [visit_begin_eq, take_of_length_le (h.wf.size ▸ hn)]

/-- A table of three values, from which another one was erased. -/
theorem visit_begin_three : ∃ t : LinearHashTable ℕ, t.size = 3 ∧ ∃ vs, vs.Nodup ∧
    (∀ v, v ∈ vs ↔ v = 1 ∨ v = 4 ∨ v = 6) ∧ ∀ n ≥ 3, t.visit n t.begin = some vs := by
  have hreach : ∃ t S, Reaches (id : ℕ → ℕ) t S ∧ t = ⟨[[4], [1], [6], []], 0, 4, 3⟩ ∧
      S = {1, 4, 6} :=
    ⟨_, _, .step (.eraseValue 3) (.step (.insert 6) (.step (.insert 4) (.step (.insert 3)
      (.step (.insert 1) .empty trivial rfl) trivial rfl) trivial rfl) trivial rfl) trivial rfl,
      by decide, by decide⟩
  obtain ⟨t, S, hr, rfl, rfl⟩ := hreach
  refine ⟨⟨[[4], [1], [6], []], 0, 4, 3⟩, rfl, ?_⟩
  simpa using visit_begin id _ _ hr

end Iteration

end LinearHashTable

end Poco
