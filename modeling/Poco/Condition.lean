import Poco.Lib.Heap
import Poco.Lib.Machine
import Mathlib.Data.Fintype.Basic

/-!
# Condition variables

`Condition` of `Foundation/include/Poco/Condition.h` and `Foundation/src/Condition.cpp`,
used by any number of threads with any mutexes.  A call of `wait` or `tryWait` puts an
event of its own into a queue and waits for it; `signal` sets the event at the front and
takes it out, `broadcast` does so with all events.

A section under `_mutex` is one step, except for that of `wait` and `tryWait`: these unlock
the caller's mutex inside the section, and other threads may go on from there.  Calls are
numbered in the order in which their events enter the queue.  A thread leaves `tryWait` of
the event because the event is set, or because the time is up while the event is not
set; once the time is up an event that is set later makes no difference.

## Main definitions

* `State`: a condition, the mutexes it is used with, and the threads; it notes which calls were
  chosen by `signal` and `broadcast` and what calls returned.
* `threads`: a new condition and any interleaving of threads.
* `Inv`: what holds in every state that is reached.
* `OnItsWay`: the thread of a call has been woken, or its event is set.
* `FrontWaits`: when a signal is given, the call at the front of the queue has not timed out.

## Main results

* `OnItsWay.step`: a call that is on its way stays so until it returns successfully.
* `signal_not_lost`: no signal is lost in a run in which `FrontWaits` holds.
* `signal_lost`: otherwise one may be.
-/

namespace Poco

open List Threads Heap

namespace Condition

variable {M T : Type}

inductive PC (M : Type)
  | idle
  /-- In `wait` or `tryWait`, with `_mutex` locked and the caller's mutex unlocked, before
  `enqueue(event)`. -/
  | released (mutex : M) (timed : Bool)
  /-- In `event.wait()`, or in `event.tryWait()`. -/
  | waiting (mutex : M) (call : ℕ) (timed : Bool)
  /-- The time is up, and the thread does not have `_mutex` yet. -/
  | timedOut (mutex : M) (call : ℕ)
  /-- About to lock the caller's mutex again and to return. -/
  | returning (mutex : M) (call : ℕ) (result : Bool)
deriving DecidableEq

def PC.call : PC M → Option ℕ
  | idle => none
  | released _ _ => none
  | waiting _ w _ => some w
  | timedOut _ w => some w
  | returning _ w _ => some w

structure State (M T : Type) where
  /-- Who has locked the caller's mutexes. -/
  owner : M → Option T
  /-- Who has locked `_mutex`, between steps. -/
  mutex : Option T
  waitQueue : List ℕ
  /-- The calls that have not returned, with the flags of their events. -/
  calls : Heap Bool
  pc : T → PC M
  /-- The calls chosen by `signal`, the last one first. -/
  signals : List ℕ
  /-- The calls chosen by `broadcast`. -/
  broadcasts : List ℕ
  returned : List (ℕ × Bool)

def State.fresh : State M T :=
  ⟨fun _ => none, none, [], .empty, fun _ => .idle, [], [], []⟩

variable [DecidableEq M] [DecidableEq T]

namespace State

variable (s : State M T)

def goto (t : T) (c : PC M) : State M T := { s with pc := Function.update s.pc t c }

/-- `wait` and `tryWait` up to `mutex.unlock()`. -/
def wait (t : T) (m : M) (timed : Bool) : State M T :=
  { s.goto t (.released m timed) with
    mutex := some t
    owner := Function.update s.owner m none }

def enqueue (t : T) (m : M) (timed : Bool) : State M T :=
  { s.goto t (.waiting m s.calls.next timed) with
    mutex := none
    calls := s.calls.new false
    waitQueue := s.waitQueue ++ [s.calls.next] }

/-- The event is set, and the waiting thread resets it. -/
def wake (t : T) (m : M) (w : ℕ) : State M T :=
  { s.goto t (.returning m w true) with calls := s.calls.set w false }

def dequeue (t : T) (m : M) (w : ℕ) : State M T :=
  { s.goto t (.returning m w false) with waitQueue := s.waitQueue.erase w }

/-- The caller's mutex is locked again, and the call returns. -/
def relock (t : T) (m : M) (w : ℕ) (result : Bool) : State M T :=
  { s.goto t .idle with
    owner := Function.update s.owner m (some t)
    calls := s.calls.delete w
    returned := (w, result) :: s.returned }

def signal : State M T :=
  match s.waitQueue with
  | [] => s
  | w :: ws =>
    { s with
      calls := s.calls.set w true
      waitQueue := ws
      signals := w :: s.signals }

def setAll : List ℕ → Heap Bool → Heap Bool
  | [], h => h
  | w :: ws, h => setAll ws (h.set w true)

def broadcast : State M T :=
  { s with
    calls := setAll s.waitQueue s.calls
    waitQueue := []
    broadcasts := s.waitQueue ++ s.broadcasts }

end State

inductive Action (M T : Type)
  | lock (t : T) (m : M)
  | unlock (t : T) (m : M)
  /-- The beginning of `wait`, or of `tryWait`, up to `mutex.unlock()`. -/
  | wait (t : T) (m : M) (timed : Bool)
  | enqueue (t : T)
  | wake (t : T)
  | expire (t : T)
  /-- The section after the time was up. -/
  | dequeue (t : T)
  | relock (t : T)
  | signal (t : T)
  | broadcast (t : T)
deriving DecidableEq

/-- What a step does, if the thread is at the right place and is not blocked. -/
def step (s : State M T) : Action M T → Option (State M T)
  | .lock t m =>
    if s.pc t = .idle ∧ s.owner m = none then
      some { s with owner := Function.update s.owner m (some t) }
    else none
  | .unlock t m =>
    if s.pc t = .idle ∧ s.owner m = some t then
      some { s with owner := Function.update s.owner m none }
    else none
  | .wait t m timed =>
    if s.pc t = .idle ∧ s.owner m = some t ∧ s.mutex = none then some (s.wait t m timed)
    else none
  | .enqueue t =>
    match s.pc t with
    | .released m timed => some (s.enqueue t m timed)
    | _ => none
  | .wake t =>
    match s.pc t with
    | .waiting m w _ => if s.calls.get w = some true then some (s.wake t m w) else none
    | _ => none
  | .expire t =>
    match s.pc t with
    | .waiting m w true =>
      if s.calls.get w = some false then some (s.goto t (.timedOut m w)) else none
    | _ => none
  | .dequeue t =>
    match s.pc t with
    | .timedOut m w => if s.mutex = none then some (s.dequeue t m w) else none
    | _ => none
  | .relock t =>
    match s.pc t with
    | .returning m w result => if s.owner m = none then some (s.relock t m w result) else none
    | _ => none
  | .signal t => if s.pc t = .idle ∧ s.mutex = none then some s.signal else none
  | .broadcast t => if s.pc t = .idle ∧ s.mutex = none then some s.broadcast else none

def threads (M T : Type) [DecidableEq M] [DecidableEq T] : Machine (State M T) (Action M T) where
  start := .fresh
  step := step

/-! ### What a step does -/

inductive Outcome (s : State M T) : Action M T → State M T → Prop
  | lock {t : T} {m : M} {owner : M → Option T} : Outcome s (.lock t m) { s with owner := owner }
  | unlock {t : T} {m : M} {owner : M → Option T} :
      Outcome s (.unlock t m) { s with owner := owner }
  | wait {t : T} {m : M} {timed : Bool} : s.pc t = .idle → s.mutex = none →
      Outcome s (.wait t m timed) (s.wait t m timed)
  | enqueue {t : T} {m : M} {timed : Bool} : s.pc t = .released m timed →
      Outcome s (.enqueue t) (s.enqueue t m timed)
  | wake {t : T} {m : M} {w : ℕ} {timed : Bool} : s.pc t = .waiting m w timed →
      s.calls.get w = some true → Outcome s (.wake t) (s.wake t m w)
  | expire {t : T} {m : M} {w : ℕ} : s.pc t = .waiting m w true → s.calls.get w = some false →
      Outcome s (.expire t) (s.goto t (.timedOut m w))
  | dequeue {t : T} {m : M} {w : ℕ} : s.pc t = .timedOut m w →
      Outcome s (.dequeue t) (s.dequeue t m w)
  | relock {t : T} {m : M} {w : ℕ} {result : Bool} : s.pc t = .returning m w result →
      Outcome s (.relock t) (s.relock t m w result)
  | signal {t : T} {w : ℕ} {ws : List ℕ} : s.waitQueue = w :: ws →
      Outcome s (.signal t)
        { s with calls := s.calls.set w true, waitQueue := ws, signals := w :: s.signals }
  | signalNobody {t : T} : s.waitQueue = [] → Outcome s (.signal t) s
  | broadcast {t : T} : Outcome s (.broadcast t) s.broadcast

variable {s s' : State M T}

variable {a : Action M T} {w : ℕ} {c : PC M} {t : T} {m : M} {timed : Bool}

theorem outcome_of_step (h : step s a = some s') : Outcome s a s' := by
  cases a with
  | lock t m | unlock t m | broadcast t =>
    simp only [step] at h
    split at h <;> cases h
    constructor
  | wait t m timed =>
    simp only [step] at h
    split at h <;> cases h
    next hc => exact .wait hc.1 hc.2.2
  | enqueue t =>
    cases ht : s.pc t <;> simp only [step, ht] at h <;> cases h
    exact .enqueue ht
  | wake t =>
    cases ht : s.pc t <;> simp only [step, ht] at h <;> try cases h
    split at h <;> cases h
    next hget => exact .wake ht hget
  | expire t =>
    cases ht : s.pc t <;> simp only [step, ht] at h <;> try cases h
    next m w timed =>
    cases timed <;> simp only at h <;> try cases h
    split at h <;> cases h
    next hget => exact .expire ht hget
  | dequeue t | relock t =>
    cases ht : s.pc t <;> simp only [step, ht] at h <;> try cases h
    split at h <;> cases h
    constructor
    exact ht
  | signal t =>
    simp only [step] at h
    split at h <;> cases h
    cases hw : s.waitQueue with
    | nil =>
      rw [State.signal, hw]
      exact .signalNobody hw
    | cons w ws =>
      simp only [State.signal, hw]
      exact .signal hw

/-! ### The invariant of all runs -/

/-- A thread waits with an event that may be in the queue. -/
def PC.Queued (w : ℕ) : PC M → Prop
  | waiting _ v _ => v = w
  | timedOut _ v => v = w
  | _ => False

omit [DecidableEq M] in
theorem PC.Queued.call (h : c.Queued w) : c.call = some w := by
  cases c with
  | idle | released m timed | returning m v result => exact h.elim
  | waiting m v timed | timedOut m v => exact congrArg some h

def State.chosen (s : State M T) : List ℕ := s.signals ++ s.broadcasts

def PC.Sound (s : State M T) (t : T) : PC M → Prop
  -- it has unlocked its mutex and is not in the queue, so it has `_mutex`
  | released _ _ => s.mutex = some t
  | waiting _ w _ => w ∈ s.waitQueue ∨ s.calls.get w = some true
  | returning _ w true => w ∈ s.chosen
  | _ => True

omit [DecidableEq M] [DecidableEq T] in
theorem PC.Sound.mono (h : c.Sound s t) (hmtx : s.mutex = some t → s'.mutex = some t)
    (hwt : ∀ w, c.call = some w → w ∈ s.waitQueue ∨ s.calls.get w = some true →
      w ∈ s'.waitQueue ∨ s'.calls.get w = some true) (hcho : s.chosen ⊆ s'.chosen) :
    c.Sound s' t := by
  cases c with
  | idle => trivial
  | released m timed => exact hmtx h
  | waiting m w timed => exact hwt w rfl h
  | timedOut m w => trivial
  | returning m w result =>
    cases result with
    | false => trivial
    | true => exact hcho h

structure Inv (s : State M T) : Prop where
  /-- Each call is that of one thread. -/
  owners : Heap.Owners (fun t => (s.pc t).call) s.calls
  sound : ∀ t, (s.pc t).Sound s t
  /-- An event in the queue is not set, and its thread is still in the call. -/
  queued : ∀ w ∈ s.waitQueue, s.calls.get w = some false ∧ ∃ t, (s.pc t).Queued w
  /-- The queue is in the order of enqueueing. -/
  sorted : s.waitQueue.Pairwise (· < ·)
  /-- The chosen calls were enqueued before all that are in the queue. -/
  older : ∀ v ∈ s.chosen, v < s.calls.next ∧ ∀ w ∈ s.waitQueue, v < w
  fifo : s.signals.Pairwise (· > ·)
  nodup : s.chosen.Nodup
  cause : ∀ w, s.calls.get w = some true → w ∈ s.chosen
  /-- A call that has returned is over, and only a chosen one was successful. -/
  gone : ∀ w b, (w, b) ∈ s.returned →
    w < s.calls.next ∧ s.calls.get w = none ∧ (b = true → w ∈ s.chosen)
  once : (s.returned.map Prod.fst).Nodup

omit [DecidableEq M] [DecidableEq T] in
theorem inv_fresh : Inv (.fresh : State M T) where
  owners := .empty
  sound := fun _ => trivial
  queued := nofun
  sorted := .nil
  older := nofun
  fifo := .nil
  nodup := .nil
  cause := nofun
  gone := nofun
  once := .nil

section

variable (hs : Inv s)
include hs

omit [DecidableEq M] [DecidableEq T] in
theorem Inv.call_ne (hne : t' ≠ t) (ht' : (s.pc t').call = some v)
    (ht : (s.pc t).call = some w) : v ≠ w := by
  rintro rfl
  exact hne (hs.owners.unique t' t v ht' ht)

omit [DecidableEq M] [DecidableEq T] in
theorem Inv.queueNodup : s.waitQueue.Nodup := hs.sorted.imp ne_of_lt

omit [DecidableEq M] in
/-- A thread moves without leaving its call or the places of queued threads, and the
condition stays as it is. -/
theorem Inv.goto (hcall : c.call = (s.pc t).call)
    (hqd : ∀ w ∈ s.waitQueue, (s.pc t).Queued w → c.Queued w) (hsnd : c.Sound s t) :
    Inv (s.goto t c) :=
  { hs with
    owners := hs.owners.move hcall
    sound := forall_place hsnd fun t' _ => hs.sound t'
    queued := fun w hw => ⟨(hs.queued w hw).1,
      exists_place (Q := PC.Queued _) (hs.queued w hw).2 (hqd w hw)⟩ }

theorem Inv.wait (ht : s.pc t = .idle) (hmtx : s.mutex = none) : Inv (s.wait t m timed) :=
  { hs with
    owners := hs.owners.move (by rw [ht]; rfl)
    sound := by
      refine forall_place rfl ?_
      intro t' _
      refine (hs.sound t').mono (fun hmine => ?_) (fun _ _ h => h) fun _ h => h
      cases hmtx.symm.trans hmine
    queued := by
      intro w hw
      obtain ⟨hget, hex⟩ := hs.queued w hw
      refine ⟨hget, exists_place hex ?_⟩
      rw [ht]
      exact False.elim }

section

omit [DecidableEq M]

theorem Inv.enqueue (ht : s.pc t = .released m timed) : Inv (s.enqueue t m timed) where
  owners := hs.owners.move_new (by rw [ht]; rfl) rfl
  sound := by
    have hmine : s.mutex = some t := by
      have hsnd := hs.sound t
      rwa [ht] at hsnd
    refine forall_place ?_ ?_
    · exact .inl (mem_append_right _ (mem_singleton_self _))
    -- `_mutex` was this thread's, so no other thread is between unlocking and enqueueing
    intro t' hne
    refine (hs.sound t').mono (fun h => ?_) (fun w _ hw => ?_) fun _ h => h
    · exact absurd (Option.some.inj (h.symm.trans hmine)) hne
    · rcases hw with hw | hget
      · exact .inl (mem_append_left _ hw)
      · exact .inr ((get_new_of_ne (ne_next_of_get hget)).trans hget)
  queued := by
    intro w hw
    rcases mem_append.mp hw with hw | hw
    · obtain ⟨hget, hex⟩ := hs.queued w hw
      refine ⟨?_, exists_place hex ?_⟩
      · exact (get_new_of_ne (ne_next_of_get hget)).trans hget
      · rw [ht]
        exact False.elim
    · obtain rfl := mem_singleton.mp hw
      exact ⟨get_new_next, t, by simp [State.enqueue, State.goto, PC.Queued]⟩
  sorted := by
    refine pairwise_append.mpr ⟨hs.sorted, pairwise_singleton _ _, ?_⟩
    intro v hv w hw
    obtain rfl := mem_singleton.mp hw
    exact lt_next_of_get (hs.queued v hv).1
  older := by
    intro v hv
    obtain ⟨hlt, hqu⟩ := hs.older v hv
    exact ⟨Nat.lt_succ_of_lt hlt, forall_mem_append.mpr ⟨hqu, forall_mem_singleton.mpr hlt⟩⟩
  fifo := hs.fifo
  nodup := hs.nodup
  cause := by
    intro w hw
    rcases get_new_cases hw with ⟨-, hset⟩ | ⟨-, hw⟩
    · cases hset
    · exact hs.cause w hw
  gone := by
    intro w b hw
    obtain ⟨hlt, hget, hb⟩ := hs.gone w b hw
    exact ⟨Nat.lt_succ_of_lt hlt, (get_new_of_ne hlt.ne).trans hget, hb⟩
  once := hs.once

theorem Inv.wake (ht : s.pc t = .waiting m w timed) (hget : s.calls.get w = some true) :
    Inv (s.wake t m w) :=
  { hs with
    owners := (hs.owners.move (by rw [ht]; rfl)).set
    sound := by
      refine forall_place
        (hs.cause w hget) fun t' hne => ?_
      refine (hs.sound t').mono id (fun v hv h => ?_) fun _ h => h
      have hvw : v ≠ w := hs.call_ne hne hv (by rw [ht]; rfl)
      exact h.imp_right (get_set_of_ne hvw).trans
    queued := by
      intro v hv
      obtain ⟨hgetv, hex⟩ := hs.queued v hv
      have hne : v ≠ w := ne_of_get hgetv hget nofun
      refine ⟨(get_set_of_ne hne).trans hgetv, exists_place hex ?_⟩
      rw [ht]
      exact fun hwv => absurd hwv.symm hne
    cause := by
      intro v hv
      rcases get_set_cases hget hv with ⟨-, hset⟩ | ⟨-, hv⟩
      · cases hset
      · exact hs.cause v hv
    gone := by
      intro v b hv
      obtain ⟨hlt, hgetv, hb⟩ := hs.gone v b hv
      exact ⟨hlt, get_set_of_none hgetv, hb⟩ }

theorem Inv.expire (ht : s.pc t = .waiting m w true) : Inv (s.goto t (.timedOut m w)) := by
  refine hs.goto (by rw [ht]; rfl) (fun v _ hv => ?_) trivial
  rw [ht] at hv
  exact hv

theorem Inv.dequeue (ht : s.pc t = .timedOut m w) : Inv (s.dequeue t m w) :=
  { hs with
    owners := hs.owners.move (by rw [ht]; rfl)
    sound := by
      refine forall_place trivial fun t' hne => ?_
      refine (hs.sound t').mono id (fun v hv h => ?_) fun _ h => h
      have hvw : v ≠ w := hs.call_ne hne hv (by rw [ht]; rfl)
      exact h.imp_left (mem_erase_of_ne hvw).mpr
    queued := by
      intro v hv
      have hne : v ≠ w := by
        rintro rfl
        exact hs.queueNodup.not_mem_erase hv
      obtain ⟨hget, hex⟩ := hs.queued v (mem_of_mem_erase hv)
      refine ⟨hget, exists_place hex ?_⟩
      rw [ht]
      exact fun hwv => absurd hwv.symm hne
    sorted := hs.sorted.sublist erase_sublist
    older := fun v hv => ⟨(hs.older v hv).1,
      fun u hu => (hs.older v hv).2 u (mem_of_mem_erase hu)⟩ }

end

theorem Inv.relock (ht : s.pc t = .returning m w result) : Inv (s.relock t m w result) := by
  have hcall : (s.pc t).call = some w := by rw [ht]; rfl
  obtain ⟨flag, hget⟩ := hs.owners.live t w hcall
  have hres : result = true → w ∈ s.chosen := by
    rintro rfl
    have hsnd := hs.sound t
    rwa [ht] at hsnd
  exact
    { hs with
      owners := hs.owners.move_delete hcall rfl
      sound := by
        refine forall_place (Q := fun t' => PC.Sound (s.relock t m w result) t') trivial
          fun t' hne => ?_
        refine (hs.sound t').mono id (fun v hv h => ?_) fun _ h => h
        exact h.imp_right (get_delete_of_ne (hs.call_ne hne hv hcall)).trans
      queued := by
        intro v hv
        obtain ⟨hgetv, hex⟩ := hs.queued v hv
        have hne : v ≠ w := by
          obtain ⟨t', ht'⟩ := hex
          rintro rfl
          obtain rfl := hs.owners.unique t' t v ht'.call hcall
          rw [ht] at ht'
          exact ht'
        refine ⟨(get_delete_of_ne hne).trans hgetv, exists_place (Q := PC.Queued _) hex ?_⟩
        rw [ht]
        exact False.elim
      cause := fun v hv => hs.cause v (get_of_get_delete hv).2
      gone := by
        intro v b hv
        rcases mem_cons.mp hv with hv | hv
        · cases hv
          have hlt : w < s.calls.next := lt_next_of_get hget
          exact ⟨hlt, get_delete_self, hres⟩
        · obtain ⟨hlt, hgetv, hb⟩ := hs.gone v b hv
          exact ⟨hlt, get_delete_of_none hgetv, hb⟩
      once := by
        refine nodup_cons.mpr ⟨fun hmem => ?_, hs.once⟩
        obtain ⟨⟨v, b⟩, hv, rfl⟩ := mem_map.mp hmem
        cases (hs.gone v b hv).2.1.symm.trans hget }

end

/-! ### Signal and broadcast -/

omit [DecidableEq M] [DecidableEq T] in
theorem Inv.signal (hs : Inv s) (hw : s.waitQueue = w :: ws) :
    Inv { s with calls := s.calls.set w true, waitQueue := ws, signals := w :: s.signals } := by
  have hfro : w ∈ s.waitQueue := hw ▸ mem_cons_self ..
  have hrest : ∀ v ∈ ws, v ∈ s.waitQueue := fun v hv => hw ▸ mem_cons_of_mem w hv
  have hsor : (w :: ws).Pairwise (· < ·) := hw ▸ hs.sorted
  obtain ⟨hget, -⟩ := hs.queued w hfro
  have hcho : ∀ v ∈ s.chosen, v ∈ w :: s.chosen := fun v hv => mem_cons_of_mem w hv
  exact
    { hs with
      owners := hs.owners.set
      sound := by
        intro t
        refine (hs.sound t).mono id (fun v _ h => ?_) hcho
        rw [hw] at h
        by_cases hvw : v = w
        · subst hvw
          exact .inr (get_set_self hget)
        · rcases h with h | h
          · exact .inl (mem_of_ne_of_mem hvw h)
          · exact .inr ((get_set_of_ne hvw).trans h)
      queued := by
        intro v hv
        have hne : v ≠ w := (rel_of_pairwise_cons hsor hv).ne'
        obtain ⟨hgetv, hex⟩ := hs.queued v (hrest v hv)
        exact ⟨(get_set_of_ne hne).trans hgetv, hex⟩
      sorted := hsor.of_cons
      older := by
        intro v hv
        rcases mem_cons.mp hv with rfl | hv
        · have hlt : v < s.calls.next := lt_next_of_get hget
          exact ⟨hlt, fun u hu => rel_of_pairwise_cons hsor hu⟩
        · exact ⟨(hs.older v hv).1, fun u hu => (hs.older v hv).2 u (hrest u hu)⟩
      fifo := by
        refine pairwise_cons.mpr ⟨fun v hv => ?_, hs.fifo⟩
        exact (hs.older v (mem_append_left _ hv)).2 w hfro
      nodup := by
        refine nodup_cons.mpr ⟨fun hmem => ?_, hs.nodup⟩
        exact lt_irrefl w ((hs.older w hmem).2 w hfro)
      cause := by
        intro v hv
        rcases get_set_cases hget hv with ⟨rfl, -⟩ | ⟨-, hv⟩
        · exact mem_cons_self ..
        · exact hcho v (hs.cause v hv)
      gone := by
        intro v b hv
        obtain ⟨hlt, hgetv, hb⟩ := hs.gone v b hv
        exact ⟨hlt, get_set_of_none hgetv, fun h => hcho v (hb h)⟩ }

/-- The events of the calls in the queue are set, the others stay. -/
theorem get_setAll {h : Heap Bool} :
    (State.setAll ws h).get v = if v ∈ ws then (h.get v).map fun _ => true else h.get v := by
  induction ws generalizing h with
  | nil => rfl
  | cons w ws ih =>
    rw [State.setAll, ih]
    by_cases hvw : v = w
    · subst hvw
      cases hget : h.get v with
      | none | some => simp [Heap.set, hget]
    · rw [Heap.get_set_of_ne hvw]
      simp [hvw]

theorem next_setAll {h : Heap Bool} : (State.setAll ws h).next = h.next := by
  induction ws generalizing h with
  | nil => rfl
  | cons w ws ih => exact ih

omit [DecidableEq M] [DecidableEq T] in
theorem Inv.broadcast (hs : Inv s) : Inv s.broadcast := by
  have hmem : ∀ v ∈ s.chosen, v ∈ s.broadcast.chosen := by
    intro v hv
    rcases mem_append.mp hv with hv | hv
    · exact mem_append_left _ hv
    · exact mem_append_right _ (mem_append_right _ hv)
  have hqu : ∀ v ∈ s.waitQueue, v ∈ s.broadcast.chosen := fun v hv =>
    mem_append_right _ (mem_append_left _ hv)
  exact
    { hs with
      owners := by
        refine hs.owners.congr fun v => ?_
        rw [show s.broadcast.calls.get v = _ from get_setAll]
        split <;> simp
      sound := by
        intro t
        refine (hs.sound t).mono id (fun v _ h => .inr ?_) hmem
        rw [show s.broadcast.calls.get v = _ from get_setAll]
        rcases h with h | h
        · rw [if_pos h, (hs.queued v h).1, Option.map_some]
        · split <;> simp [h]
      queued := nofun
      sorted := .nil
      older := by
        intro v hv
        refine ⟨?_, nofun⟩
        rw [show s.broadcast.calls.next = _ from next_setAll]
        rcases mem_append.mp (perm_append_comm_assoc _ _ _ |>.mem_iff.mp hv) with hv | hv
        · exact lt_next_of_get (hs.queued v hv).1
        · exact (hs.older v hv).1
      nodup := by
        have hperm : s.broadcast.chosen.Perm (s.waitQueue ++ s.chosen) :=
          perm_append_comm_assoc _ _ _
        refine hperm.nodup_iff.mpr (hs.queueNodup.append hs.nodup ?_)
        intro v hv hv'
        exact lt_irrefl v ((hs.older v hv').2 v hv)
      cause := by
        intro v hv
        rw [show s.broadcast.calls.get v = _ from get_setAll] at hv
        by_cases hvq : v ∈ s.waitQueue
        · exact hqu v hvq
        · rw [if_neg hvq] at hv
          exact hmem v (hs.cause v hv)
      gone := by
        intro v b hv
        obtain ⟨hlt, hgetv, hb⟩ := hs.gone v b hv
        refine ⟨hlt.trans_eq next_setAll.symm, ?_, fun h => hmem v (hb h)⟩
        rw [show s.broadcast.calls.get v = _ from get_setAll, hgetv]
        split <;> rfl }

theorem Inv.step (hs : Inv s) (h : Condition.step s a = some s') : Inv s' := by
  cases outcome_of_step h with
  | lock | unlock => exact { hs with }
  | wait ht hmtx => exact hs.wait ht hmtx
  | enqueue ht => exact hs.enqueue ht
  | wake ht hget => exact hs.wake ht hget
  | expire ht => exact hs.expire ht
  | dequeue ht => exact hs.dequeue ht
  | relock ht => exact hs.relock ht
  | signal hw => exact hs.signal hw
  | signalNobody => exact hs
  | broadcast => exact hs.broadcast

/-! ### Calls that will be successful -/

/-- A thread at this place returns successfully from the given call, whatever others do. -/
def PC.Succeeds (s : State M T) (w : ℕ) : PC M → Prop
  | waiting _ v _ => v = w ∧ s.calls.get w = some true
  | returning _ v true => v = w
  | _ => False

omit [DecidableEq M] [DecidableEq T] in
theorem PC.Succeeds.call (h : c.Succeeds s w) : c.call = some w := by
  cases c with
  | idle | released m timed | timedOut m v => exact h.elim
  | waiting m v timed => exact congrArg some h.1
  | returning m v result =>
    cases result with
    | false => exact h.elim
    | true => exact congrArg some h

omit [DecidableEq M] [DecidableEq T] in
theorem PC.Succeeds.mono (h : c.Succeeds s w)
    (hget : s.calls.get w = some true → s'.calls.get w = some true) : c.Succeeds s' w := by
  cases c with
  | idle | released | timedOut => exact h
  | waiting m v timed => exact ⟨h.1, hget h.2⟩
  | returning m v result =>
    cases result with
    | false | true => exact h

def OnItsWay (s : State M T) (w : ℕ) : Prop := ∃ t, (s.pc t).Succeeds s w

theorem OnItsWay.step (hs : Inv s) (hw : OnItsWay s w) (h : Condition.step s a = some s') :
    OnItsWay s' w ∨ (w, true) ∈ s'.returned := by
  obtain ⟨t', ht'⟩ := hw
  cases outcome_of_step h with
  | lock | unlock | signalNobody => exact .inl ⟨t', ht'⟩
  | wait ht | dequeue ht =>
    refine .inl (exists_place (Q := PC.Succeeds s w) ⟨t', ht'⟩ ?_)
    rw [ht]
    exact False.elim
  | @enqueue t m timed ht =>
    refine .inl (exists_place (Q := PC.Succeeds (s.enqueue t m timed) w)
      ⟨t', ht'.mono fun hget => ?_⟩ ?_)
    · exact (get_new_of_ne (ne_next_of_get hget)).trans hget
    · rw [ht]
      exact False.elim
  | @wake t m v timed ht =>
    by_cases hvw : v = w
    · -- this is the call's own thread
      exact .inl ⟨t, by simp [State.wake, State.goto, PC.Succeeds, hvw]⟩
    · refine .inl (exists_place (Q := PC.Succeeds (s.wake t m v) w)
        ⟨t', ht'.mono (get_set_of_ne (Ne.symm hvw)).trans⟩ ?_)
      rw [ht]
      exact fun hv => absurd hv.1 hvw
  | @expire t m v ht hget =>
    refine .inl (exists_place (Q := PC.Succeeds s w) ⟨t', ht'⟩ ?_)
    rw [ht]
    rintro ⟨rfl, htrue⟩
    cases hget.symm.trans htrue
  | @relock t m v result ht =>
    by_cases hvw : v = w
    · subst hvw
      obtain rfl := hs.owners.unique t' t v ht'.call (by rw [ht]; rfl)
      rw [ht] at ht'
      cases result with
      | false => exact ht'.elim
      | true => exact .inr (mem_cons_self ..)
    · refine .inl (exists_place (Q := PC.Succeeds (s.relock t m v result) w)
        ⟨t', ht'.mono (get_delete_of_ne (Ne.symm hvw)).trans⟩ ?_)
      rw [ht]
      exact fun hv => absurd (Option.some.inj hv.call) hvw
  | @signal t v vs hv =>
    refine .inl ⟨t', ht'.mono fun hget => ?_⟩
    by_cases hvw : w = v
    · exact hvw ▸ get_set_self hget
    · exact (get_set_of_ne hvw).trans hget
  | broadcast =>
    refine .inl ⟨t', ht'.mono fun hget => ?_⟩
    rw [show s.broadcast.calls.get w = _ from get_setAll]
    split <;> simp [hget]

/-! ### Signals -/

def FrontWaits (s : State M T) : Action M T → Prop
  | .signal _ => ∀ w ∈ s.waitQueue.head?, ∀ t m, s.pc t ≠ .timedOut m w
  | _ => True

/-- Every call that a signal chose has returned successfully or is on its way. -/
def Delivered (s : State M T) : Prop := ∀ w ∈ s.signals, (w, true) ∈ s.returned ∨ OnItsWay s w

theorem returned_subset (h : step s a = some s') : s.returned ⊆ s'.returned := by
  cases outcome_of_step h with
  | relock => exact subset_cons_self ..
  | _ => exact List.Subset.refl _

omit [DecidableEq M] [DecidableEq T] in
/-- The call at the front of the queue is on its way once its event is set, if it has not
timed out. -/
theorem Inv.onItsWay_front (hs : Inv s) (hw : s.waitQueue = w :: ws)
    (hwt : ∀ t m, s.pc t ≠ .timedOut m w) :
    OnItsWay { s with
      calls := s.calls.set w true
      waitQueue := ws
      signals := w :: s.signals } w := by
  obtain ⟨hget, t, ht⟩ := hs.queued w (hw ▸ mem_cons_self ..)
  refine ⟨t, ?_⟩
  show (s.pc t).Succeeds _ w
  cases hpc : s.pc t with
  | waiting m v timed =>
    rw [hpc] at ht
    exact ⟨ht, get_set_self hget⟩
  | timedOut m v =>
    rw [hpc] at ht
    exact absurd (hpc.trans (congrArg _ ht)) (hwt t m)
  | idle | released m timed | returning m v result =>
    rw [hpc] at ht
    exact ht.elim

theorem Delivered.step (hs : Inv s) (hd : Delivered s) (hg : FrontWaits s a)
    (h : Condition.step s a = some s') : Delivered s' := by
  intro u hu
  -- a call that was chosen before
  have hold : u ∈ s.signals → (u, true) ∈ s'.returned ∨ OnItsWay s' u := by
    intro hu
    rcases hd u hu with hret | hway
    · exact .inl (returned_subset h hret)
    · exact (hway.step hs h).symm
  cases outcome_of_step h with
  | @signal t w ws hw =>
    rcases mem_cons.mp hu with rfl | hu
    · exact .inr (hs.onItsWay_front hw (hg u (by rw [hw]; rfl)))
    · exact hold hu
  | _ => exact hold hu

structure LosesNoSignal (s : State M T) : Prop where
  /-- A signal that is given while calls are enqueued chooses one of them, the one at the
  front. -/
  chooses : ∀ t s' w, step s (.signal t) = some s' → s.waitQueue.head? = some w →
    s'.signals = w :: s.signals
  /-- Signals choose in the order of enqueueing. -/
  fifo : s.signals.Pairwise (· > ·) ∧ ∀ v ∈ s.signals, ∀ w ∈ s.waitQueue, v < w
  /-- No call is chosen twice, by signals or broadcasts. -/
  distinct : (s.signals ++ s.broadcasts).Nodup
  /-- A call that a signal chose has returned successfully, or it is on its way. -/
  delivered : ∀ w ∈ s.signals, (w, true) ∈ s.returned ∨ OnItsWay s w
  /-- It has not returned without success. -/
  unfailing : ∀ w ∈ s.signals, (w, false) ∉ s.returned
  /-- A call that has returned successfully was chosen. -/
  caused : ∀ w, (w, true) ∈ s.returned → w ∈ s.signals ++ s.broadcasts
  once : (s.returned.map Prod.fst).Nodup
  /-- While a thread has unlocked its mutex and is not enqueued, no signal and no broadcast
  can be given. -/
  closed : ∀ t m timed, s.pc t = .released m timed →
    ∀ t', step s (.signal t') = none ∧ step s (.broadcast t') = none
  /-- From then on it is enqueued, until it is chosen or its time is up. -/
  enqueued : ∀ t m w timed, s.pc t = .waiting m w timed →
    w ∈ s.waitQueue ∨ s.calls.get w = some true

theorem Inv.losesNoSignal (hs : Inv s) (hd : Delivered s) : LosesNoSignal s where
  chooses := by
    intro t s' w h hw
    cases outcome_of_step h with
    | signal hq =>
      rw [hq] at hw
      exact congrArg (· :: s.signals) (Option.some.inj hw)
    | signalNobody hq =>
      rw [hq] at hw
      cases hw
  fifo := ⟨hs.fifo, fun v hv => (hs.older v (mem_append_left _ hv)).2⟩
  distinct := hs.nodup
  delivered := hd
  unfailing := by
    intro w hw hfal
    obtain ⟨-, hnone, -⟩ := hs.gone w false hfal
    rcases hd w hw with htrue | ⟨t, ht⟩
    · cases inj_on_of_nodup_map hs.once htrue hfal rfl
    · obtain ⟨b, hb⟩ := hs.owners.live t w ht.call
      cases hnone.symm.trans hb
  caused := fun w hw => (hs.gone w true hw).2.2 rfl
  once := hs.once
  closed := by
    intro t m timed ht t'
    have hmtx : s.mutex = some t := by
      have hsnd := hs.sound t
      rwa [ht] at hsnd
    constructor <;> simp [Condition.step, hmtx]
  enqueued := by
    intro t m w timed ht
    have hsnd := hs.sound t
    rwa [ht] at hsnd

/-- No signal is lost in a run in which signals are given only while the call at the front
of the queue has not timed out. -/
theorem signal_not_lost (h : (threads M T).ReachedBy FrontWaits s) : LosesNoSignal s := by
  have hfr : Delivered (.fresh : State M T) := fun _ hw => absurd hw not_mem_nil
  have hboth : Inv s ∧ Delivered s :=
    h.invariant (I := fun s => Inv s ∧ Delivered s) ⟨inv_fresh, hfr⟩
      fun _ _ _ hs hg hstep => ⟨hs.1.step hstep, hs.2.step hs.1 hg hstep⟩
  exact hboth.1.losesNoSignal hboth.2

instance [Fintype M] [Fintype T] (s : State M T) : DecidablePred (FrontWaits s)
  | .signal _ =>
    inferInstanceAs (Decidable (∀ w ∈ s.waitQueue.head?, ∀ t m, s.pc t ≠ .timedOut m w))
  | .lock _ _ | .unlock _ _ | .wait _ _ _ | .enqueue _ | .wake _ | .expire _ | .dequeue _
  | .relock _ | .broadcast _ => inferInstanceAs (Decidable True)

/-- What can be seen of signals: the calls they chose, what calls returned, and who is
still in the queue. -/
def State.observe (s : State M T) : List ℕ × List (ℕ × Bool) × List ℕ :=
  (s.signals, s.returned, s.waitQueue)

/-- Two threads wait and two signals are given; both calls return successfully. -/
theorem two_signals : ∃ s, (threads Unit (Fin 3)).ReachedBy FrontWaits s ∧
    s.observe = ([1, 0], [(1, true), (0, true)], []) ∧ LosesNoSignal s := by
  have hrun : ((threads Unit (Fin 3)).execBy FrontWaits (threads Unit (Fin 3)).start
      [.lock 0 (), .wait 0 () true, .enqueue 0, .lock 1 (), .wait 1 () false, .enqueue 1,
        .signal 2, .signal 2, .wake 0, .relock 0, .unlock 0 (), .wake 1,
        .relock 1]).map State.observe = some ([1, 0], [(1, true), (0, true)], []) := by decide
  obtain ⟨s, hs, hobs⟩ := Machine.exists_reachedBy_of_execBy hrun
  exact ⟨s, hs, hobs, signal_not_lost hs⟩

/-- The time of the first thread is up when the signal is given.  The signal goes to that
thread, whose `tryWait` returns false, while the second thread goes on waiting. -/
theorem signal_lost :
    ((threads Unit (Fin 3)).exec (threads Unit (Fin 3)).start
      [.lock 0 (), .wait 0 () true, .enqueue 0, .lock 1 (), .wait 1 () false, .enqueue 1,
        .expire 0, .signal 2, .dequeue 0, .relock 0]).map State.observe =
      some ([0], [(0, false)], [1]) := by decide

end Condition

end Poco
