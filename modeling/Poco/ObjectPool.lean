import Poco.Lib.Machine
import Mathlib.Data.List.Nodup
import Mathlib.Data.List.Range

/-!
# The object pool

`ObjectPool` of `ObjectPool.h`, together with a ledger of what its factory was asked to
do: how many objects it created and which ones it destroyed.  A client borrows objects
and returns the ones it has; the factory decides at each call whether activating an
object throws and whether an object is still valid.

An object that leaves the pool because its activation throws or because it is no longer
valid is destroyed, but `_size` still counts it.  The surplus of `_size` over the live
objects never shrinks, so these two events are exactly what breaks the accounting.

## Main definitions

* `ObjectPool`: a pool and the ledger of its factory.  Objects are numbered in the order of their
  creation.
* `borrowObject`, `returnObject`: where `throws` says whether the activation throws, and `valid` is
  the answer of `validateObject`.
* `clients`: a new pool, and any sequence of calls.
* `Keeps`: the call destroys no object that `_size` goes on counting: a pooled object is activated
  without an exception, and an object that is returned is valid.
* `Ledger`: what holds in every run, whatever the factory does.

## Main results

* `surplus_step`: a call keeps the surplus of `_size` over the live objects if it destroys none that
  is still counted, and enlarges it by one otherwise.
* `accounts_iff`: which sequences of calls account for every object in each of their states.
* `lends_exclusively`: no object is lent twice, pooled while it is lent, or destroyed while live.
-/

namespace Poco

open List

/-- The capacities a pool is constructed with; the constructor asserts their order. -/
structure ObjectPool.Limits where
  capacity : ℕ
  /-- How many objects may exist at a time. -/
  peakCapacity : ℕ
  /-- The assertion of the constructor. -/
  le : capacity ≤ peakCapacity

structure ObjectPool where
  size : ℕ
  pool : List ℕ
  created : ℕ
  destroyed : List ℕ
deriving DecidableEq

namespace ObjectPool

/-- What `borrowObject` does: it returns an object or null, or the exception of the
factory passes through it. -/
inductive Result
  | object (p : ℕ)
  | null
  | exception
deriving DecidableEq

variable (limits : Limits)

def createObject (s : ObjectPool) : ℕ × ObjectPool :=
  (s.created, { s with created := s.created + 1 })

def destroyObject (s : ObjectPool) (p : ℕ) : ObjectPool :=
  { s with destroyed := p :: s.destroyed }

/-- `activateObject`: an object whose activation throws is destroyed. -/
def activateObject (throws : Bool) (s : ObjectPool) (p : ℕ) : Result × ObjectPool :=
  if throws then (.exception, s.destroyObject p) else (.object p, s)

def borrowObject (throws : Bool) (s : ObjectPool) : Result × ObjectPool :=
  match s.pool.getLast? with
  | some p => activateObject throws { s with pool := s.pool.dropLast } p
  | none =>
    if s.size < limits.peakCapacity then
      let (p, s) := s.createObject
      match activateObject throws s p with
      | (.object p, s) => (.object p, { s with size := s.size + 1 })
      | (r, s) => (r, s)
    else (.null, s)

def returnObject (valid : Bool) (p : ℕ) (s : ObjectPool) : ObjectPool :=
  if valid then
    if s.pool.length < limits.capacity then { s with pool := s.pool ++ [p] }
    else { s.destroyObject p with size := s.size - 1 }
  else s.destroyObject p

/-! ### The clients -/

structure InUse where
  objects : ObjectPool
  /-- The objects that were borrowed and not returned since. -/
  borrowed : List ℕ
deriving DecidableEq

inductive Call
  | borrowObject (throws : Bool)
  | returnObject (p : ℕ) (valid : Bool)

/-- What the clients hold after a result of `borrowObject`. -/
def Result.grant (borrowed : List ℕ) : Result → List ℕ
  | .object p => p :: borrowed
  | .null => borrowed
  | .exception => borrowed

/-- A call.  Only an object that is borrowed may be returned. -/
def InUse.call (u : InUse) : Call → Option InUse
  | .borrowObject throws =>
    let (r, s) := u.objects.borrowObject limits throws
    some ⟨s, r.grant u.borrowed⟩
  | .returnObject p valid =>
    if p ∈ u.borrowed then
      some ⟨u.objects.returnObject limits valid p, u.borrowed.erase p⟩
    else none

def clients : Machine InUse Call where
  start := ⟨⟨0, [], 0, []⟩, []⟩
  step := InUse.call limits

/-- The number of live objects: those in the pool and those borrowed. -/
def InUse.live (u : InUse) : ℕ := u.objects.pool.length + u.borrowed.length

structure Accounts (u : InUse) : Prop where
  size_eq : u.objects.size = u.live
  size_le : u.objects.size ≤ limits.peakCapacity
  pool_le : u.objects.pool.length ≤ limits.capacity
  /-- An object is live or destroyed, and destroyed at most once. -/
  ledger : (u.objects.pool ++ u.borrowed ++ u.objects.destroyed).Perm
    (List.range u.objects.created)
  /-- Null is returned only when the peak capacity is live. -/
  null_only : ∀ throws, (u.objects.borrowObject limits throws).1 = .null →
    u.live = limits.peakCapacity

def Keeps (u : InUse) : Call → Prop
  | .borrowObject throws => u.objects.pool ≠ [] → throws = false
  | .returnObject _ valid => valid = true

/-! ### What a call does -/

/-- Everything a call can do, one constructor for each path through the two functions. -/
inductive Outcome (u : InUse) : Call → InUse → Prop
  | lend {q : List ℕ} {p : ℕ} (hpool : u.objects.pool = q ++ [p]) :
    Outcome u (.borrowObject false) ⟨{ u.objects with pool := q }, p :: u.borrowed⟩
  | discard {q : List ℕ} {p : ℕ} (hpool : u.objects.pool = q ++ [p]) :
    Outcome u (.borrowObject true) ⟨{ u.objects with
      pool := q, destroyed := p :: u.objects.destroyed }, u.borrowed⟩
  | create (hpool : u.objects.pool = []) (hsize : u.objects.size < limits.peakCapacity) :
    Outcome u (.borrowObject false) ⟨{ u.objects with
      created := u.objects.created + 1, size := u.objects.size + 1 },
      u.objects.created :: u.borrowed⟩
  | abort (hpool : u.objects.pool = []) (hsize : u.objects.size < limits.peakCapacity) :
    Outcome u (.borrowObject true) ⟨{ u.objects with
      created := u.objects.created + 1
      destroyed := u.objects.created :: u.objects.destroyed }, u.borrowed⟩
  | refuse {throws : Bool} (hpool : u.objects.pool = [])
    (hsize : limits.peakCapacity ≤ u.objects.size) : Outcome u (.borrowObject throws) u
  | keep {p : ℕ} (hp : p ∈ u.borrowed) (hpool : u.objects.pool.length < limits.capacity) :
    Outcome u (.returnObject p true) ⟨{ u.objects with pool := u.objects.pool ++ [p] },
      u.borrowed.erase p⟩
  | release {p : ℕ} (hp : p ∈ u.borrowed) (hpool : limits.capacity ≤ u.objects.pool.length) :
    Outcome u (.returnObject p true) ⟨{ u.objects with
      destroyed := p :: u.objects.destroyed, size := u.objects.size - 1 },
      u.borrowed.erase p⟩
  | reject {p : ℕ} (hp : p ∈ u.borrowed) :
    Outcome u (.returnObject p false) ⟨{ u.objects with
      destroyed := p :: u.objects.destroyed }, u.borrowed.erase p⟩

variable {u u' : InUse}

theorem outcome_of_call (h : u.call limits c = some u') : Outcome limits u c u' := by
  cases c with
  | borrowObject throws =>
    obtain rfl := Option.some.inj h
    rcases eq_nil_or_concat u.objects.pool with hpool | ⟨q, p, hpool⟩
    · have hlast : u.objects.pool.getLast? = none := by rw [hpool]; rfl
      by_cases hsize : u.objects.size < limits.peakCapacity
      · cases throws with
        | false =>
          simpa [hlast, hsize, createObject, activateObject, Result.grant]
            using Outcome.create hpool hsize
        | true =>
          simpa [hlast, hsize, createObject, activateObject, Result.grant,
            destroyObject] using Outcome.abort hpool hsize
      · simpa [hlast, hsize, Result.grant]
          using Outcome.refuse hpool (not_lt.mp hsize)
    · rw [concat_eq_append] at hpool
      have hlast : u.objects.pool.getLast? = some p := by rw [hpool]; simp
      have hinit : u.objects.pool.dropLast = q := by rw [hpool]; simp
      cases throws with
      | false =>
        simpa [hlast, hinit, activateObject, Result.grant] using Outcome.lend hpool
      | true =>
        simpa [borrowObject, hlast, hinit, activateObject, Result.grant, destroyObject]
          using Outcome.discard hpool
  | returnObject p valid =>
    by_cases hp : p ∈ u.borrowed
    · rw [InUse.call, if_pos hp] at h
      obtain rfl := Option.some.inj h
      cases valid with
      | false => exact .reject hp
      | true =>
        by_cases hpool : u.objects.pool.length < limits.capacity
        · simpa [returnObject, hpool] using Outcome.keep hp hpool
        · simpa [returnObject, hpool, destroyObject] using Outcome.release hp (not_lt.mp hpool)
    · rw [InUse.call, if_neg hp] at h
      cases h

/-! ### Invariants of every run -/

structure Ledger (u : InUse) : Prop where
  perm : (u.objects.pool ++ u.borrowed ++ u.objects.destroyed).Perm
    (List.range u.objects.created)
  live_le : u.live ≤ u.objects.size
  size_le : u.objects.size ≤ limits.peakCapacity
  pool_le : u.objects.pool.length ≤ limits.capacity

theorem ledger_start : Ledger limits (clients limits).start :=
  ⟨.refl _, le_rfl, Nat.zero_le _, Nat.zero_le _⟩

variable {limits}

/-- The live objects and the ones destroyed, counted one number at a time. -/
theorem ledger_perm_iff :
    (u.objects.pool ++ u.borrowed ++ u.objects.destroyed).Perm
      (List.range u.objects.created) ↔
    ∀ p, u.objects.pool.count p + u.borrowed.count p + u.objects.destroyed.count p =
      (List.range u.objects.created).count p := by
  simp only [perm_iff_count, count_append]

theorem Ledger.step (hu : Ledger limits u) (h : Outcome limits u c u') : Ledger limits u' := by
  obtain ⟨hperm, hlive, hsize, hpool⟩ := hu
  rw [ledger_perm_iff] at hperm
  unfold InUse.live at hlive
  cases h with
  | lend h | discard h =>
    rw [h, length_append, length_singleton] at hlive hpool
    refine ⟨ledger_perm_iff.mpr fun a => ?_, ?_, hsize, by simp; omega⟩
    · have ha := hperm a
      rw [h, count_append] at ha
      simp only [count_cons, count_nil] at ha ⊢
      omega
    · simp [InUse.live]; omega
  | create h hs =>
    refine ⟨ledger_perm_iff.mpr fun a => ?_, ?_, hs, hpool⟩
    · have ha := hperm a
      simp only [range_succ, count_append, count_cons, count_nil] at ha ⊢
      omega
    · simp [InUse.live]; omega
  | abort h hs =>
    refine ⟨ledger_perm_iff.mpr fun a => ?_, hlive, hsize, hpool⟩
    have ha := hperm a
    simp only [range_succ, count_append, count_cons, count_nil] at ha ⊢
    omega
  | refuse h hs => exact ⟨ledger_perm_iff.mpr hperm, hlive, hsize, hpool⟩
  | keep hp | release hp | reject hp =>
    have hlen := length_erase_add_one hp
    refine ⟨ledger_perm_iff.mpr fun a => ?_, ?_, by dsimp only; omega, ?_⟩
    · have ha := hperm a
      have hcnt := (perm_cons_erase hp).count_eq a
      simp only [count_append, count_cons, count_nil] at ha hcnt ⊢
      omega
    · simp only [InUse.live, length_append, length_singleton]
      omega
    · first
      | exact hpool
      | simp; omega

theorem surplus_step (hu : Ledger limits u) (h : Outcome limits u c u') :
    u'.objects.size - u'.live = u.objects.size - u.live ∧ Keeps u c ∨
    u'.objects.size - u'.live = u.objects.size - u.live + 1 ∧ ¬ Keeps u c := by
  have hlive := hu.live_le
  unfold InUse.live at hlive
  cases h with
  | lend h =>
    rw [h, length_append, length_singleton] at hlive
    refine .inl ⟨?_, fun _ => rfl⟩
    simp only [InUse.live, h, length_append, length_cons, length_nil]
    omega
  | discard h =>
    rw [h, length_append, length_singleton] at hlive
    refine .inr ⟨?_, fun hk => Bool.noConfusion (hk (by simp [h]))⟩
    simp only [InUse.live, h, length_append, length_cons, length_nil]
    omega
  | create h hs =>
    refine .inl ⟨?_, fun _ => rfl⟩
    simp only [InUse.live, length_cons]
    omega
  | abort h hs | refuse h hs => exact .inl ⟨rfl, fun hne => absurd h hne⟩
  | keep hp | release hp =>
    have hlen := length_erase_add_one hp
    refine .inl ⟨?_, rfl⟩
    simp only [InUse.live, length_append, length_singleton]
    omega
  | reject hp =>
    have hlen := length_erase_add_one hp
    refine .inr ⟨?_, nofun⟩
    simp only [InUse.live]
    omega

/-! ### The accounting -/

/-- Null is the answer to an empty pool with `_size` at the peak capacity. -/
theorem borrowObject_eq_null {s : ObjectPool} (h : (s.borrowObject limits throws).1 = .null) :
    s.pool = [] ∧ limits.peakCapacity ≤ s.size := by
  unfold borrowObject at h
  split at h
  · cases throws <;> cases h
  · next hlast =>
    split at h
    · cases throws <;> cases h
    · next hsize => exact ⟨getLast?_eq_none_iff.mp hlast, not_lt.mp hsize⟩

/-- In every run, the pool accounts for its objects exactly if there is no surplus. -/
theorem Ledger.accountsFor_iff (hu : Ledger limits u) :
    Accounts limits u ↔ u.objects.size - u.live = 0 := by
  constructor
  · intro h
    rw [h.size_eq, Nat.sub_self]
  · intro h
    have hsize : u.objects.size = u.live := le_antisymm (Nat.sub_eq_zero_iff_le.mp h) hu.live_le
    refine ⟨hsize, hu.size_le, hu.pool_le, hu.perm, ?_⟩
    intro throws hnull
    exact le_antisymm (hsize ▸ hu.size_le) (hsize ▸ (borrowObject_eq_null hnull).2)

/-- From a state without surplus, the states of a run account for every object exactly if
its steps keep the count. -/
theorem along_iff_steps (as : List Call) (u : InUse) (hu : Ledger limits u)
    (hs : u.objects.size - u.live = 0) :
    (clients limits).Along (Accounts limits) u as ↔ (clients limits).Steps Keeps u as := by
  induction as generalizing u with
  | nil => exact ⟨fun _ => trivial, fun _ => hu.accountsFor_iff.mpr hs⟩
  | cons c as ih =>
    simp only [Machine.Along, Machine.Steps, hu.accountsFor_iff.mpr hs, true_and]
    refine forall_congr' fun u' => forall_congr' fun h => ?_
    have ho := outcome_of_call limits h
    have hu' := hu.step ho
    rcases surplus_step hu ho with ⟨hs', hk⟩ | ⟨hs', hk⟩
    · rw [ih u' hu' (hs'.trans hs)]
      exact ⟨fun h => ⟨hk, h⟩, fun h => h.2⟩
    refine ⟨fun h => ?_, fun h => absurd h.1 hk⟩
    have hacc : Accounts limits u' := by
      cases as with
      | nil => exact h
      | cons => exact h.1
    have := hu'.accountsFor_iff.mp hacc
    omega

variable (limits) in
/-- Whatever the capacities and whatever the factory does, a sequence of calls accounts
for every object in each state it passes through exactly if no pooled object fails to be
activated and every object returned is valid. -/
theorem accounts_iff (as : List Call) :
    (clients limits).Along (Accounts limits) (clients limits).start as ↔
      (clients limits).Steps Keeps (clients limits).start as :=
  along_iff_steps as _ (ledger_start limits) rfl

def one : Limits := ⟨1, 1, le_rfl⟩

/-- What a client sees after a run: `size()`, the number of live objects, and what the
next `borrowObject` returns. -/
def InUse.observe (limits : Limits) (u : InUse) : ℕ × ℕ × Result :=
  (u.objects.size, u.live, (u.objects.borrowObject limits false).1)

/-- An object that is found invalid when it is returned, or cannot be activated when it
is borrowed again, is destroyed but still counted: no object is live, `size()` is one,
and the next `borrowObject` returns null. -/
theorem destroyed_object_counted :
    ((clients one).exec (clients one).start
      [.borrowObject false, .returnObject 0 false]).map (InUse.observe one) =
      some (1, 0, .null) ∧
    ((clients one).exec (clients one).start
      [.borrowObject false, .returnObject 0 true, .borrowObject true]).map (InUse.observe one) =
      some (1, 0, .null) := by decide

/-! ### Lending -/

theorem ledger_of_reached (h : (clients limits).Reached u) : Ledger limits u := by
  apply h.invariant (ledger_start limits)
  intro s c s' hs _ hstep
  exact hs.step (outcome_of_call limits hstep)

variable (limits) in
/-- Whatever the factory does, the peak capacity bounds the live objects of every run, and
no object is lent twice, pooled while it is lent, or destroyed while it is live: what
`borrowObject` returns nobody holds. -/
theorem lends_exclusively :
    (∀ u, (clients limits).Reached u → u.live ≤ limits.peakCapacity ∧
      (u.objects.pool ++ u.borrowed ++ u.objects.destroyed).Nodup) ∧
    ∀ u throws p, (clients limits).Reached u →
      (u.objects.borrowObject limits throws).1 = .object p → p ∉ u.borrowed := by
  refine ⟨fun u h => ?_, fun u throws p h hp => ?_⟩
  · have hu := ledger_of_reached h
    exact ⟨hu.live_le.trans hu.size_le, hu.perm.nodup_iff.mpr nodup_range⟩
  · have hcall : (clients limits).step u (.borrowObject throws) =
        some ⟨(u.objects.borrowObject limits throws).2, p :: u.borrowed⟩ := by
      simp only [clients, InUse.call, hp, Result.grant]
    have hnext := (ledger_of_reached (.step h trivial hcall)).perm.nodup_iff.mpr nodup_range
    exact (nodup_cons.mp hnext.of_append_left.of_append_right).1

end ObjectPool

end Poco
