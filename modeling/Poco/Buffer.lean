import Poco.Lib.Bytes
import Poco.Lib.Machine

/-!
# Buffers

`Buffer` of `Foundation/include/Poco/Buffer.h`.  Its sizes count elements, its storage is
bytes, and an element is the `w` bytes it lies in; `std::memcpy` and `std::memcmp` count
bytes.  Storage that `new` returns holds bytes that nothing determines: an operation that
may allocate is given them.

## Main definitions

* `Op`, `step`: the operations.  What is given to one lies outside of the buffer's own storage.
* `Refines`: what an operation should do to the elements; those that a larger size adds are not
  determined, and `assign` of an empty array does nothing.
* `machine`: a buffer of `n` elements in storage that was allocated or given, and operations.

## Main results

* `reached_refines_list`: a buffer whose elements are single bytes is a list of them.
* `wide_elements_lost`: this is not so for wider elements.
-/

namespace Poco

open List

/-- `std::memcpy` of `n` bytes to the offset `off` of a block of storage. -/
def memcpy (dst : Bytes) (off : ℕ) (src : Bytes) (n : ℕ) : Bytes :=
  dst.take off ++ src.take n ++ dst.drop (off + n)

section memcpy

variable {off n : ℕ}

theorem length_memcpy (hdst : off + n ≤ dst.length) (hsrc : n ≤ src.length) :
    (memcpy dst off src n).length = dst.length := by
  simp only [memcpy, length_append, length_take, length_drop]
  omega

theorem take_memcpy (hdst : off ≤ dst.length) (hsrc : n ≤ src.length) :
    (memcpy dst off src n).take (off + n) = dst.take off ++ src.take n := by
  rw [memcpy, take_left' (by simp only [length_append, length_take]; omega)]

end memcpy

structure Buffer where
  capacity : ℕ
  used : ℕ
  ptr : Bytes
  ownMem : Bool
deriving DecidableEq

namespace Buffer

variable (w : ℕ) (fresh : ℕ → UInt8) (b : Buffer)

def alloc (n : ℕ) : Bytes := (List.range (n * w)).map fresh

/-- `Buffer::resize`; storage that is not owned is an `InvalidAccessException`. -/
def resize (newCapacity : ℕ) (preserveContent : Bool) : Option Buffer :=
  if !b.ownMem then none
  else if newCapacity > b.capacity then
    let ptr := alloc w fresh newCapacity
    some { b with
      capacity := newCapacity, used := newCapacity
      ptr := if preserveContent then memcpy ptr 0 b.ptr b.used else ptr }
  else some { b with used := newCapacity }

def setCapacity (newCapacity : ℕ) (preserveContent : Bool) : Option Buffer :=
  if !b.ownMem then none
  else if newCapacity ≠ b.capacity then
    let ptr := alloc w fresh newCapacity
    let n := min b.used newCapacity
    some { b with
      capacity := newCapacity, used := n
      ptr := if preserveContent then memcpy ptr 0 b.ptr n else ptr }
  else some b

def assign (buf : Bytes) (sz : ℕ) : Option Buffer :=
  if sz = 0 then some b
  else (if sz > b.capacity then b.resize w fresh sz false else some b).map fun b =>
    { b with ptr := memcpy b.ptr 0 buf sz, used := sz }

def appendArray (buf : Bytes) (sz : ℕ) : Option Buffer :=
  if sz = 0 then some b
  else (b.resize w fresh (b.used + sz) true).map fun b =>
    { b with ptr := memcpy b.ptr ((b.used - sz) * w) buf sz }

/-- `Buffer::append` of an element, which is assigned and not copied by `std::memcpy`. -/
def append (val : Bytes) : Option Buffer :=
  (b.resize w fresh (b.used + 1) true).map fun b =>
    { b with ptr := memcpy b.ptr ((b.used - 1) * w) val w }

def eq (c : Buffer) : Bool := b.used = c.used && b.ptr.take b.used = c.ptr.take b.used

inductive Op
  | append (val : Bytes)
  | appendArray (buf : Bytes) (sz : ℕ)
  | appendBuffer (buf : Buffer)
  | assign (buf : Bytes) (sz : ℕ)
  | resize (newCapacity : ℕ)
  | setCapacity (newCapacity : ℕ)

def step : Op → Option Buffer
  | .append val => b.append w fresh val
  | .appendArray buf sz => b.appendArray w fresh buf sz
  | .appendBuffer buf => b.appendArray w fresh buf.ptr buf.used
  | .assign buf sz => b.assign w fresh buf sz
  | .resize n => b.resize w fresh n true
  | .setCapacity n => b.setCapacity w fresh n true

/-! ### Buffers as lists of elements -/

def elements : Bytes := b.ptr.take (b.used * w)

def Refines (l : Bytes) : Op → Bytes → Prop
  | .append buf, l' | .appendArray buf _, l' => l' = l ++ buf
  | .appendBuffer buf, l' => l' = l ++ elements w buf
  | .assign buf sz, l' => l' = if sz = 0 then l else buf
  | .resize n, l' => l'.length = n * w ∧ l.take (n * w) <+: l'
  | .setCapacity n, l' => l' = l.take (n * w)

/-- The storage has room for the capacity, and the size is within it. -/
structure Valid : Prop where
  length_ptr : b.ptr.length = b.capacity * w
  used_le : b.used ≤ b.capacity

def Op.Valid : Op → Prop
  | .append val => val.length = w
  | .appendArray buf sz | .assign buf sz => buf.length = sz * w
  | .appendBuffer buf => buf.Valid w
  | .resize _ | .setCapacity _ => True

def machine (ptr : Bytes) (n : ℕ) (ownMem : Bool) : Machine Buffer (Op × (ℕ → UInt8)) where
  start := ⟨n, n, ptr, ownMem⟩
  step b a := b.step w a.2 a.1

/-! ### Elements of one byte -/

section OneByte

variable {fresh} {b} {b' : Buffer} {n sz : ℕ}

theorem elements_one (b : Buffer) : b.elements 1 = b.ptr.take b.used := by
  rw [elements, Nat.mul_one]

section

variable (hb : b.Valid 1)
include hb

theorem resize_spec (h : b.resize 1 fresh n preserve = some b') : b'.Valid 1 ∧ b'.used = n ∧
      (preserve = true → b'.ptr.take (min b.used n) = b.ptr.take (min b.used n)) := by
  obtain ⟨hlen, hused⟩ := hb
  have hal : (alloc 1 fresh n).length = n * 1 := by simp [alloc]
  rw [resize] at h
  split_ifs at h with _ hn hpre
  · cases h
    have hmin : min b.used n = 0 + b.used := by omega
    refine ⟨⟨?_, Nat.le_refl n⟩, rfl, fun _ => ?_⟩
    · rw [length_memcpy (by omega) (by omega), hal]
    · rw [hmin, take_memcpy (Nat.zero_le _) (by omega), Nat.zero_add]
      rfl
  · cases h
    exact ⟨⟨hal, Nat.le_refl n⟩, rfl, fun h => absurd h hpre⟩
  · cases h
    exact ⟨⟨hlen, Nat.le_of_not_lt hn⟩, rfl, fun _ => rfl⟩

/-- Both kinds of `append` copy what they are given behind the elements there are. -/
theorem extend_spec (hbuf : sz ≤ buf.length) (h : (b.resize 1 fresh (b.used + sz) true).map
      (fun b => { b with ptr := memcpy b.ptr ((b.used - sz) * 1) buf sz }) = some b') :
    b'.Valid 1 ∧ b'.elements 1 = b.elements 1 ++ buf.take sz := by
  obtain ⟨c, hc, rfl⟩ := Option.map_eq_some_iff.mp h
  obtain ⟨⟨hlen, hle⟩, hused, hkeep⟩ := resize_spec hb hc
  have hoff : (c.used - sz) * 1 = b.used := by omega
  rw [Nat.min_eq_left (Nat.le_add_right ..)] at hkeep
  rw [hoff]
  refine ⟨⟨by rw [length_memcpy (by omega) hbuf, hlen], hle⟩, ?_⟩
  simp only [elements_one]
  rw [hused, take_memcpy (by omega) hbuf, hkeep rfl]

theorem appendArray_spec (hbuf : sz ≤ buf.length) (h : b.appendArray 1 fresh buf sz = some b') :
    b'.Valid 1 ∧ b'.elements 1 = b.elements 1 ++ buf.take sz := by
  rw [appendArray] at h
  split_ifs at h with hsz
  · cases h
    rw [hsz, take_zero, append_nil]
    exact ⟨hb, rfl⟩
  · exact extend_spec hb hbuf h

theorem assign_spec (hbuf : sz ≤ buf.length) (h : b.assign 1 fresh buf sz = some b') :
    b'.Valid 1 ∧ b'.elements 1 = if sz = 0 then b.elements 1 else buf.take sz := by
  rw [assign] at h
  split_ifs at h ⊢ with hsz hcap
  · cases h
    exact ⟨hb, rfl⟩
  all_goals
    obtain ⟨c, hc, rfl⟩ := Option.map_eq_some_iff.mp h
    obtain ⟨hlen, hle⟩ : c.ptr.length = c.capacity * 1 ∧ sz ≤ c.capacity := by
      first
      | obtain ⟨hval, hused, -⟩ := resize_spec hb hc
        exact ⟨hval.length_ptr, hused ▸ hval.used_le⟩
      | cases hc
        exact ⟨hb.length_ptr, Nat.le_of_not_lt hcap⟩
    refine ⟨⟨by rw [length_memcpy (by omega) hbuf, hlen], hle⟩, ?_⟩
    have htake := take_memcpy (Nat.zero_le c.ptr.length) hbuf
    rw [Nat.zero_add] at htake
    rwa [elements_one]

theorem setCapacity_spec (h : b.setCapacity 1 fresh n true = some b') :
    b'.Valid 1 ∧ b'.elements 1 = (b.elements 1).take (n * 1) := by
  obtain ⟨hlen, hused⟩ := hb
  have hal : (alloc 1 fresh n).length = n * 1 := by simp [alloc]
  rw [elements_one, elements_one, take_take, Nat.mul_one, Nat.min_comm]
  simp only [setCapacity, ↓reduceIte] at h
  split_ifs at h with _ hn
  · cases h
    have hsrc : min b.used n ≤ b.ptr.length := by omega
    refine ⟨⟨?_, Nat.min_le_right ..⟩, ?_⟩
    · rw [length_memcpy (by omega) hsrc, hal]
    · have htake := take_memcpy (Nat.zero_le (alloc 1 fresh n).length) hsrc
      rwa [Nat.zero_add] at htake
  · cases h
    rw [Nat.min_eq_left (by omega)]
    exact ⟨⟨hlen, hused⟩, rfl⟩

theorem step_spec (hop : op.Valid 1) (h : b.step 1 fresh op = some b') :
    b'.Valid 1 ∧ Refines 1 (b.elements 1) op (b'.elements 1) := by
  cases op with
  | append val =>
    have hspec := extend_spec hb (Nat.le_of_eq hop.symm) h
    rwa [take_of_length_le (Nat.le_of_eq hop)] at hspec
  | appendArray buf sz =>
    have hlen : buf.length = sz := hop.trans (Nat.mul_one sz)
    have hspec := appendArray_spec hb (Nat.le_of_eq hlen.symm) h
    rwa [take_of_length_le (Nat.le_of_eq hlen)] at hspec
  | appendBuffer c =>
    rw [Refines, elements_one c]
    exact appendArray_spec hb (hop.length_ptr ▸ Nat.mul_one _ ▸ hop.used_le) h
  | assign buf sz =>
    have hlen : buf.length = sz := hop.trans (Nat.mul_one sz)
    have hspec := assign_spec hb (Nat.le_of_eq hlen.symm) h
    rwa [take_of_length_le (Nat.le_of_eq hlen)] at hspec
  | resize n =>
    obtain ⟨hval, rfl, hkeep⟩ := resize_spec hb h
    have hlen := hval.length_ptr
    have hle := hval.used_le
    rw [Refines, elements_one, elements_one, take_take, length_take, Nat.mul_one,
      Nat.min_comm _ b.used, ← hkeep rfl]
    exact ⟨hval, by omega, take_prefix_take_left (Nat.min_le_right ..)⟩
  | setCapacity n => exact setCapacity_spec hb h

end

/-- Only storage that is not owned keeps an operation from returning. -/
theorem exists_step (h : b.ownMem = true) (op : Op) : ∃ b', b.step 1 fresh op = some b' := by
  cases op <;> simp only [step, append, appendArray, assign, resize, setCapacity, h]
  all_goals split_ifs <;> simp_all

theorem eq_iff (hb : b.Valid 1) (hc : c.Valid 1) : b.eq c = true ↔ b.elements 1 = c.elements 1 := by
  rw [eq, Bool.and_eq_true, decide_eq_true_eq, decide_eq_true_eq, elements_one, elements_one]
  refine ⟨fun ⟨hused, h⟩ => hused ▸ h, fun h => ?_⟩
  have hused : b.used = c.used := by
    have hlen := congrArg length h
    rw [length_take, length_take, hb.length_ptr, hc.length_ptr] at hlen
    have := hb.used_le
    have := hc.used_le
    omega
  exact ⟨hused, hused ▸ h⟩

end OneByte

/-- **A buffer whose elements are single bytes** is a list of them: in every state that
operations lead to, the next one does to the elements what it should, unless the storage is
not owned, and `operator ==` compares the elements. -/
theorem reached_refines_list (hw : w = 1) {ptr : Bytes} {n : ℕ} {ownMem : Bool}
    (hptr : ptr.length = n * w) {b : Buffer}
    (h : (machine w ptr n ownMem).ReachedBy (fun _ a => a.1.Valid w) b) :
    (∀ (op : Op) (fresh : ℕ → UInt8), op.Valid w →
      (b.ownMem = true → ∃ b', b.step w fresh op = some b') ∧
        ∀ b', b.step w fresh op = some b' → Refines w (b.elements w) op (b'.elements w)) ∧
    ∀ c : Buffer, c.Valid w → (b.eq c = true ↔ b.elements w = c.elements w) := by
  subst hw
  have hval : b.Valid 1 := h.invariant (I := Valid 1) ⟨hptr, Nat.le_refl n⟩
    fun _ _ _ hs ha hstep => (step_spec hs ha hstep).1
  exact ⟨fun op fresh hop => ⟨fun hown => exists_step hown op,
    fun _ hstep => (step_spec hval hop hstep).2⟩, fun _ hc => eq_iff hval hc⟩

/-- A buffer of two bytes to which a third is appended. -/
theorem reached_refines_list_append :
    Refines 1 [1, 2] (.append [3]) (elements 1 ⟨3, 3, [1, 2, 3], true⟩) := by
  have hbeg : (machine 1 [1, 2] 2 true).ReachedBy (fun _ a => a.1.Valid 1) _ := .start
  exact ((reached_refines_list 1 rfl rfl hbeg).1 (.append [3]) (fun _ => 0) rfl).2 _ rfl

/-- Of an element of two bytes the first one only is kept when another is appended, and the
second bytes are not compared. -/
theorem wide_elements_lost :
    step 2 (fun _ => 0) ⟨1, 1, [1, 2], true⟩ (.append [3, 4]) =
        some ⟨2, 2, [1, 0, 3, 4], true⟩ ∧
      ¬ Refines 2 [1, 2] (.append [3, 4]) (elements 2 ⟨2, 2, [1, 0, 3, 4], true⟩) ∧
      eq ⟨1, 1, [1, 2], true⟩ ⟨1, 1, [1, 5], true⟩ = true :=
  ⟨rfl, by simp only [Refines]; decide, rfl⟩

end Buffer

end Poco
