import Poco.Lib.Machine
import Poco.Lib.Multimap
import Poco.Lib.Threads
import Mathlib.Data.Fintype.Basic
import Mathlib.Data.Int.Order.Basic
import Mathlib.Data.List.Nodup

/-!
# Timed notification queues

`TimedNotificationQueue` of `Foundation/src`: a multimap of notifications ordered by the
clock values at which they are due.  A thread that waits for a notification takes an
iterator to the first element under the mutex, unlocks the mutex, looks at the element,
perhaps sleeps, and erases the element through the iterator under a new lock.

An iterator is modelled by the number of the element's node, which is never used twice, so
that the use of an iterator whose element was erased is seen as such.  A section under the
mutex is one step, and so is a look at an element.  Time passes in steps of its own.  A
timed wait for the event may end at any point while the event is not set, so that only the
clock bounds how long a thread has slept.

The documentation of the class allows one thread at a time to dequeue notifications, and
no `clear()` while a thread does so.

## Main definitions

* `PC`, `move`: where a thread is in `waitDequeueNotification`, and its steps.  The time limit, in
  milliseconds, is missing in the form without one, and `now` is the clock value from which the time
  that is spent is counted.
* `State`, `threads`: a queue and the threads that use it, in any interleaving.
* `KeepsHeld`: a step does not erase an element to which another thread has an iterator.
* `OneConsumer`: no thread begins to dequeue, or clears the queue, while another thread dequeues.
* `PC.Sound`: what a thread can count on where it is: its iterator is good, and the interval it
  still means to sleep is not too short.

## Main results

* `Inv.step`, `Alone.keepsHeld`: the first condition keeps the invariant, the second one implies it.
* `safe_with_one_consumer`: the queue is safe under each of them.
* `stale_iterator`: two threads that dequeue at the same time may use an iterator to an erased
  element.
-/

namespace Poco

open List

structure TimedNotificationQueue.Element (N : Type) where
  /-- The clock value at which the notification is due. -/
  due : ℤ
  /-- The node of the element, which is what an iterator points to. -/
  node : ℕ
  nf : N
deriving DecidableEq

structure TimedNotificationQueue (N : Type) where
  nfQueue : List (TimedNotificationQueue.Element N)
  /-- The flag of `_nfAvailable`. -/
  nfAvailable : Bool
  /-- The number of nodes there have been. -/
  nodes : ℕ

namespace TimedNotificationQueue

variable {N T : Type}

def new : TimedNotificationQueue N := ⟨[], false, 0⟩

section Queue

variable (q : TimedNotificationQueue N)

/-- The element that `enqueueNotification` inserts. -/
def element (n : N) (due : ℤ) : Element N := ⟨due, q.nodes, n⟩

/-- `enqueueNotification`.  The form with a timestamp converts it to a clock value first. -/
def enqueueNotification (n : N) (due : ℤ) : TimedNotificationQueue N where
  nfQueue := Multimap.insert Element.due (q.element n due) q.nfQueue
  nfAvailable := true
  nodes := q.nodes + 1

def dequeueNotification (clock : ℤ) : Option (Element N) × TimedNotificationQueue N :=
  match q.nfQueue with
  | [] => (none, q)
  | e :: rest =>
    let sleep := -(clock - e.due)
    if sleep ≤ 0 then (some e, { q with nfQueue := rest }) else (none, q)

def clear : TimedNotificationQueue N := { q with nfQueue := [] }

/-- The element an iterator points to, if it has not been erased. -/
def find (it : ℕ) : Option (Element N) := q.nfQueue.find? fun e => e.node = it

def erase (it : ℕ) : TimedNotificationQueue N :=
  { q with nfQueue := q.nfQueue.eraseP fun e => e.node = it }

end Queue

/-! ### A thread in `waitDequeueNotification` -/

inductive PC
  | idle
  /-- Before the queue is locked, in each round of the loop. -/
  | looping (milliseconds : Option ℤ)
  /-- With an iterator to the first element, the queue being unlocked again. -/
  | holding (it : ℕ) (milliseconds : Option ℤ)
  /-- In `wait(interval)`, at the beginning of a round. -/
  | measuring (it : ℕ) (interval : ℤ) (milliseconds : Option ℤ) (now : ℤ)
  /-- In `wait(interval)`, in `_nfAvailable.tryWait()` since a clock value. -/
  | sleeping (it : ℕ) (interval started : ℤ) (milliseconds : Option ℤ) (now : ℤ)
  /-- Before `dequeueOne(it)`. -/
  | taking (it : ℕ)
  /-- There is nothing to take yet. -/
  | pausing (milliseconds : Option ℤ)
  /-- In `_nfAvailable.wait()`, or in `_nfAvailable.tryWait(milliseconds)`. -/
  | blocked (milliseconds : Option ℤ) (now : ℤ)
deriving DecidableEq

def PC.it : PC → Option ℕ
  | idle | looping _ | pausing _ | blocked _ _ => none
  | holding it _ | measuring it _ _ _ | sleeping it _ _ _ _ | taking it => some it

inductive Move
  /-- `_mutex.lock()`, `_nfQueue.begin()`, `_mutex.unlock()`. -/
  | begin
  /-- The thread looks when the element is due. -/
  | inspect
  /-- A round of `wait` begins. -/
  | sleep
  | wake
  | expire
  | dequeueOne
  /-- The thread begins to wait for a notification. -/
  | pause
deriving DecidableEq

inductive Moved (N : Type)
  /-- The thread goes on, or returns null if it goes to `idle`. -/
  | goes (q : TimedNotificationQueue N) (c : PC)
  /-- The thread returns the notification of an element. -/
  | takes (q : TimedNotificationQueue N) (e : Element N)
  /-- The thread uses an iterator whose element was erased. -/
  | stale

def spend (milliseconds : Option ℤ) (elapsed : ℤ) : Option ℤ :=
  milliseconds.map fun m => m - (elapsed + 999) / 1000

def move (q : TimedNotificationQueue N) (clock : ℤ) : PC → Move → Option (Moved N)
  | .looping milliseconds, .begin =>
    if milliseconds.any (· < 0) then some (.goes q .idle)
    else match q.nfQueue with
      | [] => some (.goes q (.pausing milliseconds))
      | e :: _ => some (.goes q (.holding e.node milliseconds))
  | .holding it milliseconds, .inspect =>
    match q.find it with
    | none => some .stale
    | some e =>
      let sleep := e.due - clock
      if sleep ≤ 0 then some (.goes q (.taking it))
      -- without a time limit the thread sleeps as long as it takes
      else if milliseconds.all (sleep ≤ 1000 * ·) then
        some (.goes q (.measuring it sleep milliseconds clock))
      else some (.goes q (.pausing milliseconds))
  | .measuring it interval milliseconds now, .sleep =>
    some (.goes q (.sleeping it interval clock milliseconds now))
  | .sleeping _ _ _ milliseconds now, .wake =>
    if q.nfAvailable then
      some (.goes { q with nfAvailable := false } (.looping (spend milliseconds (clock - now))))
    else none
  | .sleeping it interval started milliseconds now, .expire =>
    if q.nfAvailable then none
    else
      let interval := interval - (clock - started)
      if interval > 0 then some (.goes q (.measuring it interval milliseconds now))
      else some (.goes q (.taking it))
  | .taking it, .dequeueOne =>
    match q.find it with
    | none => some .stale
    | some e => some (.takes (q.erase it) e)
  | .pausing none, .pause => some (.goes q (.blocked none clock))
  | .pausing (some m), .pause =>
    if m > 0 then some (.goes q (.blocked (some m) clock)) else some (.goes q .idle)
  | .blocked milliseconds now, .wake =>
    if q.nfAvailable then
      some (.goes { q with nfAvailable := false } (.looping (spend milliseconds (clock - now))))
    else none
  | .blocked (some m) now, .expire =>
    if q.nfAvailable then none else some (.goes q (.looping (spend (some m) (clock - now))))
  | _, _ => none

/-! ### Threads -/

structure Returned (N T : Type) where
  thread : T
  /-- The clock value at which it was taken out of the queue. -/
  time : ℤ
  element : Element N
deriving DecidableEq

structure State (N T : Type) where
  queue : TimedNotificationQueue N
  clock : ℤ
  pc : T → PC
  enqueued : List (Element N)
  returned : List (Returned N T)
  cleared : List (Element N)
  /-- An iterator was used after its element was erased. -/
  fault : Bool

inductive Action (N T : Type)
  | tick (d : ℕ)
  | enqueueNotification (t : T) (n : N) (due : ℤ)
  | dequeueNotification (t : T)
  /-- A call of `waitDequeueNotification`, with or without a time limit. -/
  | waitDequeueNotification (t : T) (milliseconds : Option ℤ)
  | move (t : T) (m : Move)
  | clear (t : T)

variable [DecidableEq T]

namespace State

variable (s : State N T)

def fresh (clock : ℤ) : State N T := ⟨.new, clock, fun _ => .idle, [], [], [], false⟩

def goto (t : T) (q : TimedNotificationQueue N) (c : PC) : State N T :=
  { s with queue := q, pc := Function.update s.pc t c }

/-- A thread returns the notification of an element. -/
def take (t : T) (q : TimedNotificationQueue N) (e : Element N) : State N T :=
  { s.goto t q .idle with returned := ⟨t, s.clock, e⟩ :: s.returned }

/-- What comes of a step of a thread. -/
def settle (t : T) : Moved N → State N T
  | .goes q c => s.goto t q c
  | .takes q e => s.take t q e
  | .stale => { s with fault := true }

end State

/-- What a step does, if the thread is at the right place and is not blocked. -/
def step (s : State N T) : Action N T → Option (State N T)
  | .tick d => some { s with clock := s.clock + d }
  | .enqueueNotification t n due =>
    if s.pc t = .idle then
      some { s with
        queue := s.queue.enqueueNotification n due
        enqueued := s.queue.element n due :: s.enqueued }
    else none
  | .dequeueNotification t =>
    if s.pc t = .idle then
      match s.queue.dequeueNotification s.clock with
      | (none, _) => some s
      | (some e, q) => some (s.take t q e)
    else none
  | .waitDequeueNotification t milliseconds =>
    if s.pc t = .idle then some (s.goto t s.queue (.looping milliseconds)) else none
  | .move t m => (s.queue.move s.clock (s.pc t) m).map (s.settle t)
  | .clear t =>
    if s.pc t = .idle then
      some { s with queue := s.queue.clear, cleared := s.queue.nfQueue ++ s.cleared }
    else none

def threads (N T : Type) [DecidableEq T] (clock : ℤ) : Machine (State N T) (Action N T) where
  start := .fresh clock
  step := step

/-! ### Conditions on the steps -/

def erases (s : State N T) : Action N T → List ℕ
  | .dequeueNotification _ =>
    match s.queue.dequeueNotification s.clock with
    | (some e, _) => [e.node]
    | (none, _) => []
  | .move t .dequeueOne => (s.pc t).it.toList
  | .clear _ => s.queue.nfQueue.map Element.node
  | _ => []

def Action.thread : Action N T → Option T
  | tick _ => none
  | enqueueNotification t _ _ => some t
  | dequeueNotification t => some t
  | waitDequeueNotification t _ => some t
  | move t _ => some t
  | clear t => some t

def KeepsHeld (s : State N T) (a : Action N T) : Prop :=
  ∀ t, a.thread ≠ some t → ∀ it, (s.pc t).it = some it → it ∉ erases s a

def OneConsumer (s : State N T) : Action N T → Prop
  | .dequeueNotification t => ∀ t', t' ≠ t → s.pc t' = .idle
  | .waitDequeueNotification t _ => ∀ t', t' ≠ t → s.pc t' = .idle
  | .clear t => ∀ t', t' ≠ t → s.pc t' = .idle
  | _ => True

/-! ### What a thread can count on -/

/-- An iterator points to an element of the queue for which something holds. -/
def Points (q : TimedNotificationQueue N) (it : ℕ) (P : Element N → Prop) : Prop :=
  ∃ e ∈ q.nfQueue, e.node = it ∧ P e

def PC.Sound (q : TimedNotificationQueue N) (clock : ℤ) : PC → Prop
  | idle | looping _ | pausing _ | blocked _ _ => True
  | holding it _ => Points q it fun _ => True
  | measuring it interval _ _ => Points q it fun e => e.due - interval ≤ clock
  | sleeping it interval started _ _ =>
    started ≤ clock ∧ Points q it fun e => e.due - interval ≤ started
  | taking it => Points q it fun e => e.due ≤ clock

variable {q : TimedNotificationQueue N} {clock : ℤ} {c : PC} {e : Element N} {t : T}

omit [DecidableEq T] in
theorem Points.mono {q' : TimedNotificationQueue N} {P Q : Element N → Prop}
    (h : Points q it P) (hq : ∀ e ∈ q.nfQueue, e.node = it → e ∈ q'.nfQueue) (hP : ∀ e, P e → Q e) :
    Points q' it Q := by
  obtain ⟨e, he, hit, hPe⟩ := h
  exact ⟨e, hq e he hit, hit, hP e hPe⟩

/-- A thread can still count on it when time passes and its element stays. -/
theorem PC.Sound.mono {q' : TimedNotificationQueue N} (h : c.Sound q clock)
    (hq : ∀ e ∈ q.nfQueue, c.it = some e.node → e ∈ q'.nfQueue) (hclk : clock ≤ clock') :
    c.Sound q' clock' := by
  have hkeep : ∀ it, c.it = some it → ∀ e ∈ q.nfQueue, e.node = it → e ∈ q'.nfQueue :=
    fun it hit e he heq => hq e he (heq ▸ hit)
  cases c with
  | idle | looping milliseconds | pausing milliseconds | blocked milliseconds now => trivial
  | holding it milliseconds => exact Points.mono h (hkeep it rfl) fun _ he => he
  | measuring it interval milliseconds now =>
    exact Points.mono h (hkeep it rfl) fun _ he => le_trans he hclk
  | sleeping it interval started milliseconds now =>
    exact ⟨le_trans h.1 hclk, Points.mono h.2 (hkeep it rfl) fun _ he => he⟩
  | taking it => exact Points.mono h (hkeep it rfl) fun _ he => le_trans he hclk

theorem find_of_mem (hq : (q.nfQueue.map Element.node).Nodup) (he : e ∈ q.nfQueue) :
    q.find e.node = some e := by
  have hinj : ∀ e' ∈ q.nfQueue, e'.node = e.node → e' = e :=
    fun e' he' hnode => inj_on_of_nodup_map hq he' he hnode
  unfold find
  cases hfind : q.nfQueue.find? fun e' => e'.node = e.node with
  | none =>
    have hnone := find?_eq_none.mp hfind e he
    simp at hnone
  | some e' =>
    have hnode : e'.node = e.node := by simpa using find?_some hfind
    rw [hinj e' (mem_of_find?_eq_some hfind) hnode]

theorem erase_perm (hq : (q.nfQueue.map Element.node).Nodup) (he : e ∈ q.nfQueue) :
    q.nfQueue.Perm (e :: (q.erase e.node).nfQueue) := by
  obtain ⟨e', l₁, l₂, -, hnode, hspl, hera⟩ :=
    exists_of_eraseP (p := fun e' => decide (e'.node = e.node)) he (by simp)
  have hmem : e' ∈ q.nfQueue := hspl ▸ mem_append_right _ (mem_cons_self ..)
  obtain rfl : e' = e := inj_on_of_nodup_map hq hmem he (by simpa using hnode)
  rw [erase, hera]
  exact hspl ▸ perm_middle

/-- What comes of a step of a thread that can count on what it should. -/
inductive MoveSpec (q : TimedNotificationQueue N) (clock : ℤ) (c : PC) : Move → Moved N → Prop
  /-- The thread goes on, and the elements stay. -/
  | goes {m : Move} {nfAvailable : Bool} {c' : PC} : c'.Sound q clock →
      MoveSpec q clock c m (.goes { q with nfAvailable := nfAvailable } c')
  /-- The thread takes the element it has an iterator to, which is due. -/
  | takes {e : Element N} : e ∈ q.nfQueue → c.it = some e.node → e.due ≤ clock →
      MoveSpec q clock c .dequeueOne (.takes (q.erase e.node) e)

theorem moveSpec (hq : (q.nfQueue.map Element.node).Nodup) (hc : c.Sound q clock)
    {r : Moved N} (h : q.move clock c m = some r) : MoveSpec q clock c m r := by
  have hgoes : ∀ {c'}, c'.Sound q clock →
      MoveSpec q clock c m (.goes { q with nfAvailable := q.nfAvailable } c') :=
        fun hc' => .goes hc'
  unfold move at h
  split at h
  · -- `begin`
    split at h
    · cases h
      exact hgoes trivial
    · split at h <;> cases h
      · exact hgoes trivial
      · next e _ hqu =>
        exact hgoes ⟨e, hqu ▸ mem_cons_self .., rfl, trivial⟩
  · -- `inspect`
    obtain ⟨e, he, rfl, -⟩ := hc
    rw [find_of_mem hq he] at h
    dsimp only at h
    split at h
    · next hsle =>
      cases h
      exact hgoes ⟨e, he, rfl, by omega⟩
    · split at h <;> cases h
      · exact hgoes ⟨e, he, rfl, by omega⟩
      · exact hgoes trivial
  · -- `sleep`
    cases h
    exact hgoes ⟨le_rfl, hc⟩
  · -- `wake`, from `wait`
    split at h <;> cases h
    exact .goes trivial
  · -- `expire`, in `wait`
    obtain ⟨hsta, e, he, rfl, hint⟩ := hc
    split at h
    · cases h
    dsimp only at h
    split at h
    · cases h
      exact hgoes ⟨e, he, rfl, by omega⟩
    · cases h
      exact hgoes ⟨e, he, rfl, by omega⟩
  · -- `dequeueOne`
    obtain ⟨e, he, rfl, hdue⟩ := hc
    rw [find_of_mem hq he] at h
    cases h
    exact .takes he rfl hdue
  · cases h
    exact hgoes trivial
  · split at h <;> cases h
    · exact hgoes trivial
    · exact hgoes trivial
  · -- `wake`
    split at h <;> cases h
    exact .goes trivial
  · -- `expire`
    split at h <;> cases h
    exact hgoes trivial
  · cases h

/-! ### The invariant -/

structure Inv (s : State N T) : Prop where
  nodes : (s.enqueued.map Element.node).Nodup
  /-- The nodes are those there have been. -/
  below : ∀ e ∈ s.enqueued, e.node < s.queue.nodes
  ledger : s.enqueued.Perm (s.queue.nfQueue ++ s.returned.map Returned.element ++ s.cleared)
  sound : ∀ t, (s.pc t).Sound s.queue s.clock
  punctual : ∀ r ∈ s.returned, r.element.due ≤ r.time
  noFault : s.fault = false

variable {s s' : State N T}

omit [DecidableEq T] in
theorem inv_fresh (clock : ℤ) : Inv (.fresh clock : State N T) where
  nodes := .nil
  below := nofun
  ledger := .refl _
  sound := fun _ => trivial
  punctual := nofun
  noFault := rfl

section

variable (hs : Inv s)
include hs

section

omit [DecidableEq T]

theorem Inv.queueNodes : (s.queue.nfQueue.map Element.node).Nodup := by
  have hall := (hs.ledger.map Element.node).nodup hs.nodes
  rw [map_append, map_append, append_assoc] at hall
  exact hall.of_append_left

theorem Inv.tick (d : ℕ) : Inv { s with clock := s.clock + d } :=
  { hs with
    sound := fun t => (hs.sound t).mono (fun _ he _ => he)
      (by show s.clock ≤ s.clock + (d : ℤ); omega) }

theorem Inv.enqueueNotification (n : N) (due : ℤ) :
    Inv { s with
      queue := s.queue.enqueueNotification n due
      enqueued := s.queue.element n due :: s.enqueued } where
  nodes := by
    refine nodup_cons.mpr ⟨fun hmem => ?_, hs.nodes⟩
    obtain ⟨e, he, hnode⟩ := mem_map.mp hmem
    exact Nat.ne_of_lt (hs.below e he) hnode
  below := by
    intro e he
    rcases mem_cons.mp he with rfl | he
    · exact Nat.lt_succ_self _
    · exact Nat.lt_succ_of_lt (hs.below e he)
  ledger := by
    have hins : (s.queue.element n due :: s.queue.nfQueue).Perm
        (s.queue.enqueueNotification n due).nfQueue := (Multimap.insert_perm _).symm
    exact (hs.ledger.cons _).trans ((hins.append_right _).append_right _)
  sound := fun t =>
    (hs.sound t).mono (fun _ he _ => Multimap.mem_insert.mpr (.inr he)) le_rfl
  punctual := hs.punctual
  noFault := hs.noFault

end

theorem Inv.goto {nfAvailable : Bool} (hc : c.Sound s.queue s.clock) :
    Inv (s.goto t { s.queue with nfAvailable := nfAvailable } c) :=
  { hs with
    sound := by
      -- the flag of the event plays no role in what threads count on
      have hkeep : ∀ {c : PC}, c.Sound s.queue s.clock →
          c.Sound { s.queue with nfAvailable := nfAvailable } s.clock :=
        fun h => h.mono (fun _ he _ => he) le_rfl
      exact Threads.forall_place (hkeep hc)
        fun t' _ => hkeep (hs.sound t') }

theorem Inv.take (hq : s.queue.nfQueue.Perm (e :: q.nfQueue))
    (hnod : q.nodes = s.queue.nodes) (hdue : e.due ≤ s.clock)
    (hoth : ∀ t', t' ≠ t → (s.pc t').it ≠ some e.node) : Inv (s.take t q e) where
  nodes := hs.nodes
  below := fun e he => lt_of_lt_of_eq (hs.below e he) hnod.symm
  ledger := by
    refine hs.ledger.trans (List.Perm.append_right _ ?_)
    exact (hq.append_right _).trans perm_middle.symm
  sound := by
    refine Threads.forall_place trivial fun t' hne => ?_
    refine (hs.sound t').mono (fun e' he' hit => ?_) le_rfl
    rcases mem_cons.mp (hq.mem_iff.mp he') with rfl | hmem
    · exact absurd hit (hoth t' hne)
    · exact hmem
  punctual := by
    intro r hr
    rcases mem_cons.mp hr with rfl | hr
    · exact hdue
    · exact hs.punctual r hr
  noFault := hs.noFault

omit [DecidableEq T] in
theorem Inv.clear (hnone : ∀ t, ∀ e ∈ s.queue.nfQueue, (s.pc t).it ≠ some e.node) :
    Inv { s with queue := s.queue.clear, cleared := s.queue.nfQueue ++ s.cleared } where
  nodes := hs.nodes
  below := hs.below
  ledger := by
    refine hs.ledger.trans ?_
    rw [← append_assoc]
    exact perm_append_comm.append_right _
  sound := fun t => (hs.sound t).mono (fun e he hit => absurd hit (hnone t e he)) le_rfl
  punctual := hs.punctual
  noFault := hs.noFault

theorem Inv.step (hg : KeepsHeld s a) (h : TimedNotificationQueue.step s a = some s') : Inv s' := by
  cases a with
  | tick d =>
    cases h
    exact hs.tick d
  | enqueueNotification t n due =>
    simp only [TimedNotificationQueue.step] at h
    split at h <;> cases h
    exact hs.enqueueNotification n due
  | dequeueNotification t =>
    simp only [TimedNotificationQueue.step] at h
    split at h
    · simp only [KeepsHeld, erases] at hg
      cases hqu : s.queue.nfQueue with
      | nil =>
        simp only [dequeueNotification, hqu] at h
        cases h
        exact hs
      | cons e rest =>
        simp only [dequeueNotification, hqu] at h hg
        by_cases hdue : -(s.clock - e.due) ≤ 0
        · simp only [if_pos hdue] at h hg
          cases h
          refine hs.take (hqu ▸ .refl _) rfl (by omega) fun t' hne hit => ?_
          exact hg t' (fun ht => hne (Option.some.inj ht).symm) e.node hit (mem_singleton_self _)
        · simp only [if_neg hdue] at h
          cases h
          exact hs
    · cases h
  | waitDequeueNotification t milliseconds =>
    simp only [TimedNotificationQueue.step] at h
    split at h <;> cases h
    exact hs.goto trivial
  | move t m =>
    obtain ⟨r, hr, rfl⟩ := Option.map_eq_some_iff.mp h
    cases moveSpec hs.queueNodes (hs.sound t) hr with
    | goes hc => exact hs.goto hc
    | @takes e he hit hdue =>
      refine hs.take (erase_perm hs.queueNodes he) rfl hdue fun t' hne hit' => ?_
      exact hg t' (fun ht => hne (Option.some.inj ht).symm) e.node hit' (by simp [erases, hit])
  | clear t =>
    simp only [TimedNotificationQueue.step] at h
    split at h
    · next ht =>
      cases h
      refine hs.clear fun t' e he hit => ?_
      by_cases htt : t' = t
      · rw [htt, ht] at hit
        cases hit
      · exact hg t' (fun h => htt (Option.some.inj h).symm) e.node hit (mem_map_of_mem he)
    · cases h

end

theorem inv_of_reachedBy (h : (threads N T clock).ReachedBy KeepsHeld s) : Inv s :=
  h.invariant (inv_fresh clock) fun _ _ _ hs hg hstep => hs.step hg hstep

/-! ### The documented restriction -/

def Alone (s : State N T) : Prop := ∀ t t', s.pc t ≠ .idle → s.pc t' ≠ .idle → t = t'

/-- A thread that is the only one to dequeue, or that returns, leaves it so. -/
theorem Alone.goto (hs : Alone s) (ht : c = .idle ∨ ∀ t', t' ≠ t → s.pc t' = .idle) :
    Alone (s.goto t q c) := by
  intro t₁ t₂ h₁ h₂
  rcases ht with rfl | hoth
  · -- the thread that moves has returned, so both were there before
    have hbef : ∀ t', (s.goto t q .idle).pc t' ≠ .idle → s.pc t' ≠ .idle := by
      intro t' ht' hidle
      rcases Threads.place_cases (rfl : Function.update s.pc t .idle t' = _) with
        ⟨-, heq⟩ | ⟨-, heq⟩
      · exact ht' heq.symm
      · exact ht' (heq.symm.trans hidle)
    exact hs t₁ t₂ (hbef t₁ h₁) (hbef t₂ h₂)
  · have hself : ∀ t', (s.goto t q c).pc t' ≠ .idle → t' = t := by
      intro t' ht'
      by_contra hne
      exact ht' ((Function.update_of_ne hne _ _).trans (hoth t' hne))
    exact (hself t₁ h₁).trans (hself t₂ h₂).symm

omit [DecidableEq T] in
theorem Alone.idle (hs : Alone s) (ht : s.pc t ≠ .idle) (hne : t' ≠ t) : s.pc t' = .idle := by
  by_contra h
  exact hne (hs t' t h ht)

theorem Alone.step (hs : Alone s) (hg : OneConsumer s a)
    (h : TimedNotificationQueue.step s a = some s') : Alone s' := by
  cases a with
  | tick d =>
    cases h
    exact hs
  | enqueueNotification t n due | clear t =>
    simp only [TimedNotificationQueue.step] at h
    split at h <;> cases h
    exact hs
  | dequeueNotification t =>
    simp only [TimedNotificationQueue.step] at h
    split at h
    · split at h <;> cases h
      · exact hs
      · exact hs.goto (q := s.queue) (.inl rfl)
    · cases h
  | waitDequeueNotification t milliseconds =>
    simp only [TimedNotificationQueue.step] at h
    split at h <;> cases h
    exact hs.goto (.inr hg)
  | move t m =>
    obtain ⟨r, hr, rfl⟩ := Option.map_eq_some_iff.mp h
    -- a thread outside the functions of the queue has no such step
    have ht : s.pc t ≠ .idle := by
      intro hidle
      rw [hidle] at hr
      cases hr
    cases r with
    | goes q c => exact hs.goto (.inr fun t' hne => hs.idle ht hne)
    | takes q e => exact hs.goto (q := q) (.inl rfl)
    | stale => exact hs

omit [DecidableEq T] in
theorem PC.ne_idle_of_it {it : ℕ} (h : c.it = some it) : c ≠ .idle := by
  rintro rfl
  cases h

omit [DecidableEq T] in
theorem Alone.keepsHeld (hs : Alone s) (hg : OneConsumer s a) : KeepsHeld s a := by
  intro t' hthr it hit hmem
  have hbusy : s.pc t' ≠ .idle := PC.ne_idle_of_it hit
  cases a with
  | tick d | enqueueNotification t n due
  | waitDequeueNotification t milliseconds => exact absurd hmem not_mem_nil
  | dequeueNotification t | clear t => exact hbusy (hg t' fun h => hthr (congrArg some h.symm))
  | move t m =>
    cases m with
    | dequeueOne =>
      have hmine : (s.pc t).it = some it := Option.mem_toList.mp hmem
      exact hthr (congrArg some (hs t t' (PC.ne_idle_of_it hmine) hbusy))
    | _ => exact absurd hmem not_mem_nil

theorem alone_of_reachedBy (h : (threads N T clock).ReachedBy OneConsumer s) : Alone s :=
  h.invariant (fun _ _ ht => absurd rfl ht) fun _ _ _ hs hg hstep => hs.step hg hstep

/-! ### Safety -/

structure Safe (s : State N T) : Prop where
  /-- No iterator was used after its element was erased. -/
  noFault : s.fault = false
  /-- Every element that was inserted is in the queue, was returned, or was cleared, and at
  one of these places once. -/
  once : s.enqueued.Perm (s.queue.nfQueue ++ s.returned.map Returned.element ++ s.cleared)
  /-- Inserting makes an element of its own for each notification. -/
  distinct : (s.enqueued.map Element.node).Nodup
  /-- Nothing was returned before it was due. -/
  punctual : ∀ r ∈ s.returned, r.element.due ≤ r.time

omit [DecidableEq T] in
theorem Inv.safe (hs : Inv s) : Safe s := ⟨hs.noFault, hs.ledger, hs.nodes, hs.punctual⟩

/-- A timed notification queue is safe with any number of threads if no thread erases an
element to which another thread has an iterator.  That is so if no thread begins to
dequeue, or clears the queue, while another thread dequeues. -/
theorem safe_with_one_consumer (N T : Type) [DecidableEq T] (clock : ℤ) :
    (∀ s, (threads N T clock).ReachedBy OneConsumer s →
      (threads N T clock).ReachedBy KeepsHeld s) ∧
    (∀ s, (threads N T clock).ReachedBy KeepsHeld s → Safe s) := by
  constructor
  · intro s h
    exact h.imp fun s a hs hg => (alone_of_reachedBy hs).keepsHeld hg
  · intro s h
    exact (inv_of_reachedBy h).safe

instance [Fintype T] (s : State N T) : DecidablePred (OneConsumer s)
  | .dequeueNotification t | .waitDequeueNotification t _ | .clear t =>
    inferInstanceAs (Decidable (∀ t', t' ≠ t → s.pc t' = .idle))
  | .tick _ | .enqueueNotification .. | .move .. => isTrue trivial

/-- While a thread sleeps until a notification is due, another one with an earlier time wakes
it; it takes that one, and the other is cleared. -/
theorem safe_with_one_consumer_woken : ∃ s, (threads Bool (Fin 2) 0).ReachedBy OneConsumer s ∧
    (s.returned, s.cleared) = ([⟨1, 1000, ⟨1000, 1, false⟩⟩], [⟨2000, 0, true⟩]) ∧ Safe s := by
  have hrun : ((threads Bool (Fin 2) 0).execBy OneConsumer (threads Bool (Fin 2) 0).start
      [.enqueueNotification 0 true 2000, .waitDequeueNotification 1 none, .move 1 .begin,
        .move 1 .inspect, .move 1 .sleep, .enqueueNotification 0 false 1000, .move 1 .wake,
        .move 1 .begin, .move 1 .inspect, .move 1 .sleep, .tick 1000, .move 1 .expire,
        .move 1 .dequeueOne, .clear 0]).map (fun s => (s.returned, s.cleared)) =
      some ([⟨1, 1000, ⟨1000, 1, false⟩⟩], [⟨2000, 0, true⟩]) := by decide
  obtain ⟨s, hs, heq⟩ := Machine.exists_reachedBy_of_execBy hrun
  obtain ⟨hkeeps, hsafe⟩ := safe_with_one_consumer Bool (Fin 2) 0
  exact ⟨s, hs, heq, hsafe s (hkeeps s hs)⟩

/-- Two threads take an iterator to the same element.  One returns its notification and
erases it, and the other one looks at it afterwards. -/
theorem stale_iterator :
    ((threads Unit (Fin 3) 0).exec (threads Unit (Fin 3) 0).start
      [.enqueueNotification 0 () 0, .waitDequeueNotification 1 none, .move 1 .begin,
        .waitDequeueNotification 2 none, .move 2 .begin, .move 1 .inspect, .move 1 .dequeueOne,
        .move 2 .inspect]).map (fun s => (s.returned, s.fault)) =
      some ([⟨1, 0, ⟨0, 0, ()⟩⟩], true) := by decide

end TimedNotificationQueue

end Poco
