import Poco.Lib.Heap
import Poco.Lib.Machine
import Poco.Lib.Multimap
import Poco.Lib.Threads
import Mathlib.Data.Int.Order.Basic
import Mathlib.Data.List.Count

/-!
# Notification queues

`NotificationQueue` and `PriorityNotificationQueue` of `Foundation/src`, used by any number
of threads.  The two classes have the same code up to the container of notifications: a
deque in one, a multimap ordered by priority in the other.  Both take notifications from
the front, so only inserting differs.

A thread that finds no notification waits on a record of its own, a `WaitInfo` with an
event.  A thread that enqueues a notification while another one waits hands it over
through the record and takes the record out of the queue of waiting threads.  A section
under the mutex is one step.  The event of a record is a flag that waiting resets.  A
thread may stop waiting at any point, if its call has a time limit.

## Main definitions

* `Discipline`: a container from the front of which notifications are taken, and where a
  notification goes in it.  `κ` is what `enqueueNotification` is told besides the notification.
* `deque`, `multimap`: the containers of the two classes.
* `State`, `threads`: a queue and the threads that use it, in any interleaving.  What has been
  enqueued and returned is noted, and whether a record was used after it was deleted.
* `Inv`, `Outcome`: what holds in every state that is reached, and what steps do in such a state.
* `Handed`: a notification is in the record of a thread.
* `Leaves`: a step by which a notification leaves for a thread: the thread takes it from the front
  of the queue, or it is handed to the thread that has waited longest.

## Main results

* `Handed.step`, `Handed.returns`: what was handed to a thread stays with it until the thread
  returns it, and the thread is not blocked.
* `delivers_exactly_once`: both queues deliver every notification exactly once.
* `takes_most_urgent`: what a `PriorityNotificationQueue` returns was the most urgent notification
  when it left.
-/

namespace Poco

open List Heap Threads

structure Discipline (κ N : Type) where
  Entry : Type
  nf : Entry → N
  insert : κ → N → List Entry → List Entry
  insert_perm : ∀ k n q, ((insert k n q).map nf).Perm (n :: q.map nf)

/-- Which of the two functions of `NotificationQueue` enqueues a notification. -/
inductive Urgency
  | normal
  | urgent
deriving DecidableEq

def deque (N : Type) : Discipline Urgency N where
  Entry := N
  nf := id
  insert
    | .normal, n, q => q ++ [n]
    | .urgent, n, q => n :: q
  insert_perm k n q := by
    cases k with
    | normal =>
      simp only [List.map_id]
      exact List.perm_append_singleton n q
    | urgent => exact .refl _

def multimap (N : Type) : Discipline ℤ N where
  Entry := ℤ × N
  nf := Prod.snd
  insert priority n := Multimap.insert Prod.fst (priority, n)
  insert_perm _ _ q := (Multimap.insert_perm q).map Prod.snd

namespace NotificationQueue

variable {κ N T : Type}

structure WaitInfo (N : Type) where
  pNf : Option N
  /-- The flag of the event `nfAvailable`. -/
  nfAvailable : Bool

inductive PC (N : Type)
  | idle
  /-- In `nfAvailable.wait()`, or in `nfAvailable.tryWait()`. -/
  | waiting (pWI : ℕ) (timed : Bool)
  /-- After waiting, before `pNf = pWI->pNf`. -/
  | woken (pWI : ℕ)
  /-- After `tryWait` returned false, before it has the mutex. -/
  | timedOut (pWI : ℕ)
  /-- Before `delete pWI`, with what will be returned. -/
  | deleting (pWI : ℕ) (pNf : Option N)

def PC.pWI : PC N → Option ℕ
  | idle => none
  | waiting w _ => some w
  | woken w => some w
  | timedOut w => some w
  | deleting w _ => some w

structure State (D : Discipline κ N) (T : Type) where
  nfQueue : List D.Entry
  waitQueue : List ℕ
  heap : Heap (WaitInfo N)
  pc : T → PC N
  enqueued : List N
  returned : List (T × N)
  /-- A record was used after it was deleted. -/
  fault : Bool

variable [DecidableEq T] (D : Discipline κ N)

namespace State

variable {D} (s : State D T)

def fresh : State D T := ⟨[], [], .empty, fun _ => .idle, [], [], false⟩

def goto (t : T) (c : PC N) : State D T := { s with pc := Function.update s.pc t c }

def access (w : ℕ) (use : WaitInfo N → State D T) : State D T :=
  match s.heap.get w with
  | some i => use i
  | none => { s with fault := true }

def give (t : T) (pNf : Option N) : State D T :=
  { s.goto t .idle with returned := (pNf.map (t, ·)).toList ++ s.returned }

def enqueueNotification (k : κ) (n : N) : State D T :=
  let s := { s with enqueued := n :: s.enqueued }
  match s.waitQueue with
  | [] => { s with nfQueue := D.insert k n s.nfQueue }
  | w :: ws =>
    let s := { s with waitQueue := ws }
    s.access w fun _ => { s with heap := s.heap.set w ⟨some n, true⟩ }

def dequeueOne : Option N × State D T :=
  match s.nfQueue with
  | [] => (none, s)
  | e :: q => (some (D.nf e), { s with nfQueue := q })

def dequeueNotification (t : T) : State D T :=
  let (pNf, s) := s.dequeueOne
  s.give t pNf

/-- The first section of `waitDequeueNotification`, in both forms. -/
def waitDequeueNotification (t : T) (timed : Bool) : State D T :=
  match s.dequeueOne with
  | (some n, s) => s.give t (some n)
  | (none, s) =>
    let pWI := s.heap.next
    { s.goto t (.waiting pWI timed) with
      heap := s.heap.new ⟨none, false⟩
      waitQueue := s.waitQueue ++ [pWI] }

def setAll : List ℕ → State D T → State D T
  | [], s => s
  | w :: ws, s => setAll ws
    (s.access w fun i => { s with heap := s.heap.set w { i with nfAvailable := true } })

def wakeUpAll : State D T := { setAll s.waitQueue s with waitQueue := [] }

end State

inductive Action (κ N T : Type)
  | enqueueNotification (t : T) (k : κ) (n : N)
  | dequeueNotification (t : T)
  /-- The beginning of `waitDequeueNotification`, with or without a time limit. -/
  | waitDequeueNotification (t : T) (timed : Bool)
  | wake (t : T)
  | expire (t : T)
  /-- `pNf = pWI->pNf` after waiting. -/
  | take (t : T)
  /-- The section after the time was up. -/
  | remove (t : T)
  /-- `delete pWI`, and the return. -/
  | delete (t : T)
  | wakeUpAll (t : T)

/-- What a step does, if the thread is at the right place and is not blocked. -/
def step (s : State D T) : Action κ N T → Option (State D T)
  | .enqueueNotification t k n =>
    match s.pc t with
    | .idle => some (s.enqueueNotification k n)
    | _ => none
  | .dequeueNotification t =>
    match s.pc t with
    | .idle => some (s.dequeueNotification t)
    | _ => none
  | .waitDequeueNotification t timed =>
    match s.pc t with
    | .idle => some (s.waitDequeueNotification t timed)
    | _ => none
  | .wake t =>
    match s.pc t with
    | .waiting w _ =>
      match s.heap.get w with
      | none => some { s with fault := true }
      | some ⟨pNf, true⟩ => some { s.goto t (.woken w) with heap := s.heap.set w ⟨pNf, false⟩ }
      | some ⟨_, false⟩ => none
    | _ => none
  | .expire t =>
    match s.pc t with
    | .waiting w true => some (s.access w fun _ => s.goto t (.timedOut w))
    | _ => none
  | .take t =>
    match s.pc t with
    | .woken w => some (s.access w fun i => s.goto t (.deleting w i.pNf))
    | _ => none
  | .remove t =>
    match s.pc t with
    | .timedOut w => some (s.access w fun i =>
        { s.goto t (.deleting w i.pNf) with waitQueue := s.waitQueue.erase w })
    | _ => none
  | .delete t =>
    match s.pc t with
    | .deleting w pNf => some (s.access w fun _ =>
        { s.give t pNf with heap := s.heap.delete w })
    | _ => none
  | .wakeUpAll t =>
    match s.pc t with
    | .idle => some s.wakeUpAll
    | _ => none

def threads (D : Discipline κ N) (T : Type) [DecidableEq T] :
    Machine (State D T) (Action κ N T) where
  start := .fresh
  step := step D

/-! ### The invariant -/

/-- A thread waits with a record that may be in the queue of waiting threads. -/
def PC.Queued (w : ℕ) : PC N → Prop
  | waiting v _ => v = w
  | timedOut v => v = w
  | _ => False

variable {w : ℕ} {t : T} {i : WaitInfo N} {a : Action κ N T} {s' : State D T} {n : N}

theorem PC.Queued.pWI {c : PC N} (h : c.Queued w) : c.pWI = some w := by
  cases c with
  | idle | woken v | deleting v _ => exact h.elim
  | waiting v _ | timedOut v => exact congrArg some h

structure Inv (s : State D T) : Prop where
  /-- Each record belongs to one thread. -/
  owners : Heap.Owners (fun t => (s.pc t).pWI) s.heap
  /-- A record in the queue is that of a waiting thread, and nothing has been done to it. -/
  queued : ∀ w ∈ s.waitQueue, s.heap.get w = some ⟨none, false⟩ ∧ ∃ t, (s.pc t).Queued w
  nodup : s.waitQueue.Nodup
  /-- What a thread is about to return is what its record holds. -/
  kept : ∀ t w pNf, s.pc t = .deleting w pNf → ∃ i, s.heap.get w = some i ∧ i.pNf = pNf
  /-- A thread that was handed a notification while it waits finds its event set. -/
  told : ∀ t w timed i, s.pc t = .waiting w timed → s.heap.get w = some i → i.pNf ≠ none →
    i.nfAvailable = true
  empty : s.waitQueue ≠ [] → s.nfQueue = []
  ledger : s.enqueued.Perm
    (s.nfQueue.map D.nf ++ s.heap.gather WaitInfo.pNf ++ s.returned.map Prod.snd)
  noFault : s.fault = false

variable {D} {s : State D T}

section

omit [DecidableEq T]

theorem inv_fresh : Inv D (.fresh : State D T) where
  owners := .empty
  queued := nofun
  nodup := .nil
  kept := nofun
  told := nofun
  empty := fun h => absurd rfl h
  ledger := .refl _
  noFault := rfl

theorem Inv.notMem_waitQueue (hs : Inv D s) (ht : (s.pc t).pWI = some w)
    (hq : ¬ (s.pc t).Queued w) :
    w ∉ s.waitQueue := by
  intro hw
  obtain ⟨-, t', ht'⟩ := hs.queued w hw
  obtain rfl := hs.owners.unique t t' w ht ht'.pWI
  exact hq ht'

theorem Inv.access (hs : Inv D s) (ht : (s.pc t).pWI = some w) (use : WaitInfo N → State D T) :
    ∃ i, s.heap.get w = some i ∧ s.access w use = use i := by
  obtain ⟨i, hi⟩ := hs.owners.live t w ht
  exact ⟨i, hi, by rw [State.access, hi]⟩

end

/-! ### Enqueueing -/

omit [DecidableEq T] in
theorem Inv.insert (hs : Inv D s) (k : κ) (n : N) :
    Inv D { s with
      enqueued := n :: s.enqueued
      waitQueue := []
      nfQueue := D.insert k n s.nfQueue } where
  owners := hs.owners
  queued := nofun
  nodup := .nil
  kept := hs.kept
  told := hs.told
  empty := fun h => absurd rfl h
  ledger := by
    have hperm : (n :: s.nfQueue.map D.nf).Perm ((D.insert k n s.nfQueue).map D.nf) :=
      (D.insert_perm k n s.nfQueue).symm
    exact (hs.ledger.cons n).trans ((hperm.append_right _).append_right _)
  noFault := hs.noFault

omit [DecidableEq T] in
theorem Inv.handOver (hs : Inv D s) (hw : s.waitQueue = w :: ws) (n : N) : Inv D { s with
      enqueued := n :: s.enqueued
      waitQueue := ws
      heap := s.heap.set w ⟨some n, true⟩ } := by
  have hmem : ∀ v ∈ ws, v ∈ s.waitQueue := fun v hv => hw ▸ mem_cons_of_mem w hv
  obtain ⟨hget, t, ht⟩ := hs.queued w (hw ▸ mem_cons_self ..)
  have hnd : (w :: ws).Nodup := hw ▸ hs.nodup
  refine ⟨hs.owners.set, fun v hv => ?_, hnd.of_cons, fun t' v pNf hpc => ?_,
    fun t' v timed i hpc hi hne => ?_, fun h => ?_, ?_, hs.noFault⟩
  · have hne : v ≠ w := by
      rintro rfl
      exact (nodup_cons.mp hnd).1 hv
    rw [get_set_of_ne hne]
    exact hs.queued v (hmem v hv)
  · -- the record of a thread that is about to return is not in the queue
    have hne : v ≠ w := by
      rintro rfl
      refine hs.notMem_waitQueue (by rw [hpc]; rfl) (by rw [hpc]; exact id) ?_
      exact hw ▸ mem_cons_self ..
    rw [get_set_of_ne hne]
    exact hs.kept t' v pNf hpc
  · rcases get_set_cases hget hi with ⟨-, rfl⟩ | ⟨-, hi⟩
    · rfl
    · exact hs.told t' v timed i hpc hi hne
  · obtain ⟨v, hv⟩ := exists_mem_of_ne_nil ws h
    exact hs.empty (ne_nil_of_mem (hmem v hv))
  · have hgat := gather_set_gain (f := WaitInfo.pNf) (a := ⟨some n, true⟩) hget rfl rfl
    refine (hs.ledger.cons n).trans (.trans ?_ ((hgat.symm.append_left _).append_right _))
    exact perm_middle.symm.append_right _

/-! ### Dequeueing -/

theorem give_of_idle (ht : s.pc t = .idle) (pNf : Option N) :
    s.give t pNf = { s with returned := (pNf.map (t, ·)).toList ++ s.returned } := by
  have hpc : Function.update s.pc t .idle = s.pc := ht ▸ Function.update_eq_self t s.pc
  simp [State.give, State.goto, hpc]

omit [DecidableEq T] in
theorem Inv.takeFront (hs : Inv D s) (t : T) {q : List D.Entry} (hq : s.nfQueue = e :: q) :
    Inv D { s with nfQueue := q, returned := (t, D.nf e) :: s.returned } where
  owners := hs.owners
  queued := hs.queued
  nodup := hs.nodup
  kept := hs.kept
  told := hs.told
  empty := by
    intro hw
    have hnil := hs.empty hw
    rw [hq] at hnil
    cases hnil
  ledger := by
    have hled := hs.ledger
    rw [hq] at hled
    exact hled.trans perm_middle.symm
  noFault := hs.noFault

theorem Inv.enroll (hs : Inv D s) (ht : s.pc t = .idle) (hq : s.nfQueue = []) (timed : Bool) :
    Inv D { s.goto t (.waiting s.heap.next timed) with
      heap := s.heap.new ⟨none, false⟩
      waitQueue := s.waitQueue ++ [s.heap.next] } where
  owners := hs.owners.move_new (by rw [ht]; rfl) rfl
  queued := by
    intro w hw
    rcases mem_append.mp hw with hw | hw
    · obtain ⟨hget, hex⟩ := hs.queued w hw
      refine ⟨?_, exists_place hex ?_⟩
      · exact (get_new_of_ne (ne_next_of_get hget)).trans hget
      · rw [ht]
        exact False.elim
    · obtain rfl := mem_singleton.mp hw
      exact ⟨get_new_next, t, by simp [State.goto, PC.Queued]⟩
  nodup := by
    refine hs.nodup.append (nodup_singleton _) ?_
    intro w hw hw'
    obtain rfl := mem_singleton.mp hw'
    exact ne_next_of_get (hs.queued _ hw).1 rfl
  kept := by
    intro t' w pNf hpc
    rcases place_cases hpc with ⟨-, hc⟩ | ⟨-, hc⟩
    · cases hc
    · exact Has.new (hs.kept t' w pNf hc)
  told := by
    intro t' w timed' i hpc hi hne
    rcases get_new_cases hi with ⟨-, rfl⟩ | ⟨hw, hi⟩
    · exact absurd rfl hne
    · rcases place_cases hpc with ⟨-, hc⟩ | ⟨-, hc⟩
      · cases hc
        exact absurd rfl hw
      · exact hs.told t' w timed' i hc hi hne
  empty := fun _ => hq
  ledger := by
    have hgat := gather_new (h := s.heap) (a := ⟨none, false⟩) (f := WaitInfo.pNf)
    show s.enqueued.Perm (s.nfQueue.map D.nf ++ (s.heap.new ⟨none, false⟩).gather WaitInfo.pNf ++
      s.returned.map Prod.snd)
    rw [hgat]
    simpa using hs.ledger
  noFault := hs.noFault

/-! ### A thread that waits -/

/-- A thread that waits goes on to a place where it does not, and changes at most its record. -/
theorem Inv.move (hs : Inv D s) (ht : (s.pc t).pWI = some w) {c : PC N} {heap : Heap (WaitInfo N)}
    {returned : List (T × N)}
    (hown : Heap.Owners (fun t' => (Function.update s.pc t c t').pWI) heap)
    (hfrm : ∀ v, v ≠ w → heap.get v = s.heap.get v) (hq : q.Sublist s.waitQueue)
    (hw : w ∈ q → heap.get w = some ⟨none, false⟩ ∧ c.Queued w)
    (hkept : ∀ v pNf, c = .deleting v pNf → ∃ i, heap.get v = some i ∧ i.pNf = pNf)
    (hc : ∀ v timed, c ≠ .waiting v timed) (hled : s.enqueued.Perm
      (s.nfQueue.map D.nf ++ heap.gather WaitInfo.pNf ++ returned.map Prod.snd)) :
    Inv D { s.goto t c with heap := heap, waitQueue := q, returned := returned } := by
  -- the records of the other threads are other ones
  have hoth : ∀ {t' v}, t' ≠ t → (s.pc t').pWI = some v → heap.get v = s.heap.get v := by
    intro t' v htt hv
    refine hfrm v fun h => htt (hs.owners.unique t' t w (h ▸ hv) ht)
  refine ⟨hown, fun v hv => ?_, hq.nodup hs.nodup, fun t' v p hpc => ?_,
    fun t' v timed i hpc hi hne => ?_, fun hne => hs.empty fun hnil => ?_, hled, hs.noFault⟩
  · by_cases hvw : v = w
    · subst hvw
      exact ⟨(hw hv).1, t, by simpa [State.goto] using (hw hv).2⟩
    · obtain ⟨hget, hex⟩ := hs.queued v (hq.mem hv)
      refine ⟨(hfrm v hvw).trans hget, exists_place hex fun hqd => ?_⟩
      exact absurd (Option.some.inj (hqd.pWI.symm.trans ht)) hvw
  · rcases place_cases hpc with ⟨-, hpc⟩ | ⟨htt, hpc⟩
    · exact hkept v p hpc
    · rw [hoth htt (by rw [hpc]; rfl)]
      exact hs.kept t' v p hpc
  · rcases place_cases hpc with ⟨-, hpc⟩ | ⟨htt, hpc⟩
    · exact absurd hpc (hc v timed)
    · exact hs.told t' v timed i hpc ((hoth htt (by rw [hpc]; rfl)).symm.trans hi) hne
  · exact hne (sublist_nil.mp (hnil ▸ hq))

theorem Inv.wake (hs : Inv D s) {pNf : Option N} (ht : s.pc t = .waiting w timed)
    (hget : s.heap.get w = some ⟨pNf, true⟩) :
    Inv D { s.goto t (.woken w) with heap := s.heap.set w ⟨pNf, false⟩ } := by
  refine hs.move (by rw [ht]; rfl) (hs.owners.move (by rw [ht]; rfl)).set
    (fun v hne => get_set_of_ne hne) (.refl _) (fun hw => ?_) nofun nofun ?_
  · -- the event of a record in the queue is not set
    cases (hs.queued w hw).1.symm.trans hget
  · have hgat : (s.heap.set w ⟨pNf, false⟩).gather WaitInfo.pNf = _ := gather_set_of_eq hget rfl
    rw [hgat]
    exact hs.ledger

/-- Waiting ends because the time is up; the record stays in the queue. -/
theorem Inv.expire (hs : Inv D s) (ht : s.pc t = .waiting w true) :
    Inv D (s.goto t (.timedOut w)) :=
  hs.move (by rw [ht]; rfl) (hs.owners.move (by rw [ht]; rfl)) (fun _ _ => rfl) (.refl _)
    (fun hw => ⟨(hs.queued w hw).1, rfl⟩) nofun nofun hs.ledger

/-- A thread reads its record, and the record leaves the queue if it is still there. -/
theorem Inv.read (hs : Inv D s) (ht : (s.pc t).pWI = some w) (hget : s.heap.get w = some i) :
    Inv D { s.goto t (.deleting w i.pNf) with waitQueue := s.waitQueue.erase w } := by
  refine hs.move ht (hs.owners.move (by rw [ht]; rfl)) (fun _ _ => rfl) erase_sublist
    (fun hw => absurd hw hs.nodup.not_mem_erase) ?_ nofun hs.ledger
  rintro v p ⟨⟩
  exact ⟨i, hget, rfl⟩

theorem Inv.delete (hs : Inv D s) {pNf : Option N} (ht : s.pc t = .deleting w pNf) :
    Inv D { s.give t pNf with heap := s.heap.delete w } := by
  have hpWI : (s.pc t).pWI = some w := by rw [ht]; rfl
  have hw : w ∉ s.waitQueue := hs.notMem_waitQueue hpWI (by rw [ht]; exact id)
  refine hs.move hpWI (hs.owners.move_delete hpWI rfl) (fun v hne => get_delete_of_ne hne)
    (.refl _) (fun h => absurd h hw) nofun nofun ?_
  -- what the record held is now among what was returned
  obtain ⟨i, hget, rfl⟩ := hs.kept t w pNf ht
  have hbef := gather_perm_others (f := WaitInfo.pNf) hget
  have haft := gather_delete_perm (f := WaitInfo.pNf) hget
  have hgat : (s.heap.gather WaitInfo.pNf).Perm
      ((s.heap.delete w).gather WaitInfo.pNf ++ i.pNf.toList) :=
    (hbef.trans perm_append_comm).trans (haft.symm.append_right _)
  have hret : (s.give t i.pNf).returned.map Prod.snd =
      i.pNf.toList ++ s.returned.map Prod.snd := by
    cases i.pNf <;> rfl
  rw [hret, ← append_assoc, append_assoc (s.nfQueue.map D.nf)]
  exact hs.ledger.trans ((hgat.append_left _).append_right _)

/-! ### Waking all threads -/

section

omit [DecidableEq T]

theorem Inv.setEvent (hs : Inv D s) (hget : s.heap.get w = some i) (hw : w ∉ s.waitQueue) :
    Inv D { s with heap := s.heap.set w { i with nfAvailable := true } } := by
  refine ⟨hs.owners.set, fun v hv => ?_, hs.nodup, fun t v p hpc => ?_,
    fun t v timed j hpc hj hne => ?_, hs.empty, ?_, hs.noFault⟩
  · have hne : v ≠ w := ne_of_mem_of_not_mem hv hw
    rw [get_set_of_ne hne]
    exact hs.queued v hv
  · exact Has.set (hs.kept t v p hpc) hget id
  · rcases get_set_cases hget hj with ⟨-, rfl⟩ | ⟨-, hj⟩
    · rfl
    · exact hs.told t v timed j hpc hj hne
  · have hgat : (s.heap.set w { i with nfAvailable := true }).gather WaitInfo.pNf = _ :=
      gather_set_of_eq hget rfl
    exact hgat.symm ▸ hs.ledger

theorem Inv.setAll (hs : Inv D s) (hlive : ∀ w ∈ ws, ∃ i, s.heap.get w = some i)
    (hws : ∀ w ∈ ws, w ∉ s.waitQueue) : Inv D (State.setAll ws s) := by
  induction ws generalizing s with
  | nil => exact hs
  | cons w ws ih =>
    obtain ⟨i, hi⟩ := hlive w (mem_cons_self ..)
    simp only [State.setAll, State.access, hi]
    apply ih (hs.setEvent hi (hws w (mem_cons_self ..)))
    · intro v hv
      obtain ⟨j, hj⟩ := hlive v (mem_cons_of_mem w hv)
      apply Option.isSome_iff_exists.mp
      rw [isSome_get_set, hj]
      rfl
    · exact fun v hv => hws v (mem_cons_of_mem w hv)

theorem setAll_waitQueue (ws q : List ℕ) :
    { State.setAll ws s with waitQueue := q } = State.setAll ws { s with waitQueue := q } := by
  induction ws generalizing s with
  | nil => rfl
  | cons w ws ih =>
    simp only [State.setAll, State.access]
    cases s.heap.get w with
    | none | some => exact ih

theorem Inv.wakeUpAll (hs : Inv D s) : Inv D s.wakeUpAll := by
  have hnil : Inv D { s with waitQueue := [] } :=
    ⟨hs.owners, nofun, .nil, hs.kept, hs.told, fun h => absurd rfl h, hs.ledger, hs.noFault⟩
  rw [State.wakeUpAll, setAll_waitQueue]
  exact hnil.setAll (fun w hw => ⟨_, (hs.queued w hw).1⟩) fun w _ => not_mem_nil

end

/-! ### Every step of every thread -/

inductive Outcome (s : State D T) : Action κ N T → State D T → Prop
  | insert {t : T} {k : κ} {n : N} : s.waitQueue = [] →
      Outcome s (.enqueueNotification t k n) { s with
        enqueued := n :: s.enqueued
        waitQueue := []
        nfQueue := D.insert k n s.nfQueue }
  | handOver {t : T} {k : κ} {n : N} {w : ℕ} {ws : List ℕ} : s.waitQueue = w :: ws →
      Outcome s (.enqueueNotification t k n) { s with
        enqueued := n :: s.enqueued
        waitQueue := ws
        heap := s.heap.set w ⟨some n, true⟩ }
  | dequeueNone {t : T} : Outcome s (.dequeueNotification t) s
  | dequeueFront {t : T} {e : D.Entry} {q : List D.Entry} : s.nfQueue = e :: q →
      Outcome s (.dequeueNotification t)
        { s with nfQueue := q, returned := (t, D.nf e) :: s.returned }
  | waitDequeueFront {t : T} {timed : Bool} {e : D.Entry} {q : List D.Entry} :
      s.nfQueue = e :: q → Outcome s (.waitDequeueNotification t timed)
        { s with nfQueue := q, returned := (t, D.nf e) :: s.returned }
  | enroll {t : T} {timed : Bool} : s.pc t = .idle → s.nfQueue = [] →
      Outcome s (.waitDequeueNotification t timed) { s.goto t (.waiting s.heap.next timed) with
        heap := s.heap.new ⟨none, false⟩
        waitQueue := s.waitQueue ++ [s.heap.next] }
  | wake {t : T} {w : ℕ} {timed : Bool} {pNf : Option N} : s.pc t = .waiting w timed →
      s.heap.get w = some ⟨pNf, true⟩ →
      Outcome s (.wake t) { s.goto t (.woken w) with heap := s.heap.set w ⟨pNf, false⟩ }
  | expire {t : T} {w : ℕ} : s.pc t = .waiting w true →
      Outcome s (.expire t) (s.goto t (.timedOut w))
  | take {t : T} {w : ℕ} {i : WaitInfo N} : s.pc t = .woken w → s.heap.get w = some i →
      Outcome s (.take t)
        { s.goto t (.deleting w i.pNf) with waitQueue := s.waitQueue.erase w }
  | remove {t : T} {w : ℕ} {i : WaitInfo N} : s.pc t = .timedOut w → s.heap.get w = some i →
      Outcome s (.remove t)
        { s.goto t (.deleting w i.pNf) with waitQueue := s.waitQueue.erase w }
  | delete {t : T} {w : ℕ} {pNf : Option N} : s.pc t = .deleting w pNf →
      Outcome s (.delete t) { s.give t pNf with heap := s.heap.delete w }
  | wakeUpAll {t : T} : Outcome s (.wakeUpAll t) s.wakeUpAll

theorem Inv.outcome (hs : Inv D s) (h : step D s a = some s') : Outcome s a s' := by
  cases a with
  | enqueueNotification t k n =>
    cases ht : s.pc t <;> simp only [step, ht] at h <;> cases h
    cases hw : s.waitQueue with
    | nil =>
      simp only [State.enqueueNotification, hw]
      exact .insert hw
    | cons w ws =>
      obtain ⟨hget, -⟩ := hs.queued w (hw ▸ mem_cons_self ..)
      simp only [State.enqueueNotification, hw, State.access, hget]
      exact .handOver hw
  | dequeueNotification t =>
    cases ht : s.pc t <;> simp only [step, ht] at h <;> cases h
    cases hq : s.nfQueue with
    | nil =>
      simp only [State.dequeueNotification, State.dequeueOne, hq]
      rw [give_of_idle ht]
      exact .dequeueNone
    | cons e q =>
      simp only [State.dequeueNotification, State.dequeueOne, hq]
      rw [give_of_idle (s := { s with nfQueue := q }) ht]
      exact .dequeueFront hq
  | waitDequeueNotification t timed =>
    cases ht : s.pc t <;> simp only [step, ht] at h <;> cases h
    cases hq : s.nfQueue with
    | nil =>
      simp only [State.waitDequeueNotification, State.dequeueOne, hq]
      exact .enroll ht hq
    | cons e q =>
      simp only [State.waitDequeueNotification, State.dequeueOne, hq]
      rw [give_of_idle (s := { s with nfQueue := q }) ht]
      exact .waitDequeueFront hq
  | wake t =>
    cases ht : s.pc t <;> simp only [step, ht] at h <;> try cases h
    next w timed =>
    obtain ⟨⟨pNf, flag⟩, hget⟩ := hs.owners.live t w (by rw [ht]; rfl)
    cases flag <;> simp only [hget] at h <;> cases h
    exact .wake ht hget
  | expire t =>
    cases ht : s.pc t <;> simp only [step, ht] at h <;> try cases h
    next w timed =>
    obtain ⟨i, -, hi⟩ := hs.access (t := t) (w := w) (by rw [ht]; rfl)
      fun _ => s.goto t (.timedOut w)
    cases timed <;> simp only [hi] at h <;> cases h
    exact .expire ht
  | take t =>
    cases ht : s.pc t <;> simp only [step, ht] at h <;> try cases h
    next w =>
    have hpWI : (s.pc t).pWI = some w := by rw [ht]; rfl
    obtain ⟨i, hget, hi⟩ := hs.access hpWI fun i => s.goto t (.deleting w i.pNf)
    -- the record of a thread that was woken has left the queue
    have hw : w ∉ s.waitQueue := hs.notMem_waitQueue hpWI (by rw [ht]; exact id)
    have htake := Outcome.take ht hget
    rw [erase_of_not_mem hw] at htake
    rw [hi]
    exact htake
  | remove t =>
    cases ht : s.pc t <;> simp only [step, ht] at h <;> try cases h
    next w =>
    obtain ⟨i, hget, hi⟩ := hs.access (t := t) (w := w) (by rw [ht]; rfl) fun i =>
      { s.goto t (.deleting w i.pNf) with waitQueue := s.waitQueue.erase w }
    rw [hi]
    exact .remove ht hget
  | delete t =>
    cases ht : s.pc t <;> simp only [step, ht] at h <;> try cases h
    next w pNf =>
    obtain ⟨i, -, hi⟩ := hs.access (t := t) (w := w) (by rw [ht]; rfl)
      fun _ => { s.give t pNf with heap := s.heap.delete w }
    rw [hi]
    exact .delete ht
  | wakeUpAll t =>
    cases ht : s.pc t <;> simp only [step, ht] at h <;> cases h
    exact .wakeUpAll

theorem Inv.step (hs : Inv D s) (h : NotificationQueue.step D s a = some s') : Inv D s' := by
  cases hs.outcome h with
  | insert => exact hs.insert _ _
  | handOver hw => exact hs.handOver hw _
  | dequeueNone => exact hs
  | dequeueFront hq | waitDequeueFront hq => exact hs.takeFront _ hq
  | enroll ht hq => exact hs.enroll ht hq _
  | wake ht hget => exact hs.wake ht hget
  | expire ht => exact hs.expire ht
  | take ht hget | remove ht hget => exact hs.read (by rw [ht]; rfl) hget
  | delete ht => exact hs.delete ht
  | wakeUpAll => exact hs.wakeUpAll

theorem inv_of_reached (h : (threads D T).Reached s) : Inv D s :=
  h.invariant inv_fresh fun _ _ _ hs _ hstep => hs.step hstep

/-! ### Notifications that were handed over -/

def Handed (s : State D T) (t : T) (n : N) : Prop :=
  ∃ w i, (s.pc t).pWI = some w ∧ s.heap.get w = some i ∧ i.pNf = some n

omit [DecidableEq T] in
/-- What was handed over stays so while threads and records keep what they have. -/
theorem Handed.mono (h : Handed s t n) (hpc : (s'.pc t).pWI = (s.pc t).pWI)
    (hheap : ∀ w i, s.heap.get w = some i → i.pNf = some n →
      ∃ j, s'.heap.get w = some j ∧ j.pNf = some n) : Handed s' t n := by
  obtain ⟨w, i, hw, hi, hn⟩ := h
  obtain ⟨j, hj, hjn⟩ := hheap w i hi hn
  exact ⟨w, j, hpc.trans hw, hj, hjn⟩

theorem exists_get_set {h : Heap (WaitInfo N)} {j : WaitInfo N} (hv : h.get v = some j)
    (hj : j.pNf = none ∨ i.pNf = j.pNf) (w : ℕ) (k : WaitInfo N) (hw : h.get w = some k)
    (hk : k.pNf = some n) : ∃ l, (h.set v i).get w = some l ∧ l.pNf = some n := by
  refine Has.set ⟨k, hw, hk⟩ hv fun hn => ?_
  rcases hj with hnone | heq
  · rw [hnone] at hn
    cases hn
  · exact heq.trans hn

omit [DecidableEq T] in
theorem Handed.setAll (h : Handed s t n) (ws : List ℕ) : Handed (State.setAll ws s) t n := by
  induction ws generalizing s with
  | nil => exact h
  | cons w ws ih =>
    simp only [State.setAll, State.access]
    cases hw : s.heap.get w with
    | none => exact ih h
    | some i => exact ih (h.mono rfl (exists_get_set hw (.inr rfl)))

theorem Handed.step (hs : Inv D s) (h : Handed s t n)
    (hstep : NotificationQueue.step D s a = some s') :
    Handed s' t n ∨ a = .delete t ∧ s'.returned = (t, n) :: s.returned := by
  have hsame : ∀ w i, s.heap.get w = some i → i.pNf = some n →
      ∃ j, s.heap.get w = some j ∧ j.pNf = some n := fun w i hi hn => ⟨i, hi, hn⟩
  have hgoto : ∀ t' c, c.pWI = (s.pc t').pWI →
      ((s.goto t' c).pc t).pWI = (s.pc t).pWI := fun t' c hc => congrFun (owns_move_of_eq hc) t
  cases hs.outcome hstep with
  | insert | dequeueNone | dequeueFront | waitDequeueFront => exact .inl h
  | handOver hw =>
    obtain ⟨hget, -⟩ := hs.queued _ (hw ▸ mem_cons_self ..)
    exact .inl (h.mono rfl (exists_get_set hget (.inl rfl)))
  | @enroll t' _ ht' =>
    refine .inl (h.mono ?_ fun w i hi hn => ?_)
    · have hne : t ≠ t' := by
        rintro rfl
        obtain ⟨w, _, hw, -⟩ := h
        rw [ht'] at hw
        cases hw
      simp [State.goto, hne]
    · exact ⟨i, (get_new_of_ne (ne_next_of_get hi)).trans hi, hn⟩
  | wake ht' hget =>
    exact .inl (h.mono (hgoto _ _ (by rw [ht']; rfl)) (exists_get_set hget (.inr rfl)))
  | expire ht' | take ht' | remove ht' => exact .inl (h.mono (hgoto _ _ (by rw [ht']; rfl)) hsame)
  | @delete t' w pNf ht' =>
    obtain ⟨v, i, hv, hi, hn⟩ := h
    by_cases htt : t = t'
    · subst htt
      obtain ⟨j, hj, rfl⟩ := hs.kept t w pNf ht'
      rw [ht'] at hv
      cases hv
      cases hi.symm.trans hj
      refine .inr ⟨rfl, ?_⟩
      simp [State.give, hn]
    · have hvw : v ≠ w := by
        rintro rfl
        exact htt (hs.owners.unique t t' v hv (by rw [ht']; rfl))
      refine .inl ⟨v, i, ?_, (get_delete_of_ne hvw).trans hi, hn⟩
      simpa [State.give, State.goto, htt] using hv
  | wakeUpAll => exact .inl (h.setAll s.waitQueue)

/-- A thread can, by steps of its own, return a notification. -/
def Returns (s : State D T) (t : T) (n : N) : Prop :=
  ∃ as s', (∀ a ∈ as, a = .wake t ∨ a = .take t ∨ a = .remove t ∨ a = .delete t) ∧
    (threads D T).exec s as = some s' ∧ s'.returned = (t, n) :: s.returned

theorem Returns.cons (ha : a = .wake t ∨ a = .take t ∨ a = .remove t ∨ a = .delete t)
    (hstep : step D s a = some s') (hret : s'.returned = s.returned) (h : Returns s' t n) :
    Returns s t n := by
  obtain ⟨as, s'', hmem, hexec, hrtr⟩ := h
  refine ⟨a :: as, s'', forall_mem_cons.mpr ⟨ha, hmem⟩, ?_, hret ▸ hrtr⟩
  rw [Machine.exec, show (threads D T).step s a = some s' from hstep]
  exact hexec

theorem returns_of_deleting (ht : s.pc t = .deleting w (some n)) (hi : s.heap.get w = some i) :
    Returns s t n := by
  refine ⟨[.delete t], { s.give t (some n) with heap := s.heap.delete w }, by simp, ?_, rfl⟩
  simp [Machine.exec, threads, step, ht, State.access, hi]

theorem returns_of_woken (ht : s.pc t = .woken w)
    (hi : s.heap.get w = some ⟨some n, flag⟩) : Returns s t n := by
  have hstep : step D s (.take t) = some (s.goto t (.deleting w (some n))) := by
    simp [step, ht, State.access, hi]
  exact .cons (by simp) hstep rfl (returns_of_deleting (by simp [State.goto]) hi)

/-- A thread that was handed a notification is not blocked and returns it, whether its
waiting was ended by the event or by the time. -/
theorem Handed.returns (hs : Inv D s) (h : Handed s t n) : Returns s t n := by
  obtain ⟨w, ⟨_, flag⟩, hw, hi, rfl⟩ := h
  cases ht : s.pc t with
  | idle =>
    rw [ht] at hw
    cases hw
  | waiting v timed =>
    rw [ht] at hw
    cases hw
    obtain rfl : flag = true := hs.told t w timed _ ht hi nofun
    have hstep : NotificationQueue.step D s (.wake t) = some
        { s.goto t (.woken w) with heap := s.heap.set w ⟨some n, false⟩ } := by
      simp [NotificationQueue.step, ht, hi]
    exact .cons (by simp) hstep rfl (returns_of_woken (by simp [State.goto]) (get_set_self hi))
  | woken v =>
    rw [ht] at hw
    cases hw
    exact returns_of_woken ht hi
  | timedOut v =>
    rw [ht] at hw
    cases hw
    have hstep : NotificationQueue.step D s (.remove t) = some
        { s.goto t (.deleting w (some n)) with waitQueue := s.waitQueue.erase w } := by
      simp [NotificationQueue.step, ht, State.access, hi]
    exact .cons (by simp) hstep rfl (returns_of_deleting (by simp [State.goto]) hi)
  | deleting v pNf =>
    rw [ht] at hw
    cases hw
    obtain ⟨j, hj, rfl⟩ := hs.kept t w pNf ht
    cases hi.symm.trans hj
    exact returns_of_deleting ht hi

/-! ### Delivery -/

structure Delivers (s : State D T) : Prop where
  /-- Every notification is in the queue, in a record, or was returned, and at one of these
  places once. -/
  once : s.enqueued.Perm
    (s.nfQueue.map D.nf ++ s.heap.gather WaitInfo.pNf ++ s.returned.map Prod.snd)
  /-- Every record is that of exactly one thread, which has not returned. -/
  waiter : ∀ w i, s.heap.get w = some i → ∃! t, (s.pc t).pWI = some w
  /-- Threads are queued only while there is no notification. -/
  empty : s.waitQueue ≠ [] → s.nfQueue = []
  /-- A notification that was handed to a thread stays with it until the thread returns it,
  also after its time is up. -/
  stays : ∀ t n a s', Handed s t n → step D s a = some s' →
    Handed s' t n ∨ a = .delete t ∧ s'.returned = (t, n) :: s.returned
  /-- A thread that was handed a notification is not blocked. -/
  returns : ∀ t n, Handed s t n → Returns s t n
  /-- No record was used after it was deleted. -/
  noFault : s.fault = false

theorem Inv.delivers (hs : Inv D s) : Delivers s where
  once := hs.ledger
  waiter := by
    intro w i hi
    obtain ⟨t, ht⟩ := hs.owners.owned w i hi
    exact ⟨t, ht, fun t' ht' => hs.owners.unique t' t w ht' ht⟩
  empty := hs.empty
  stays := fun _ _ _ _ h hstep => h.step hs hstep
  returns := fun _ _ h => h.returns hs
  noFault := hs.noFault

theorem delivers_exactly_once :
    (∀ (N T : Type) [DecidableEq T] (s : State (deque N) T),
      (threads (deque N) T).Reached s → Delivers s) ∧
    (∀ (N T : Type) [DecidableEq T] (s : State (multimap N) T),
      (threads (multimap N) T).Reached s → Delivers s) :=
  ⟨fun _ _ _ _ h => (inv_of_reached h).delivers, fun _ _ _ _ h => (inv_of_reached h).delivers⟩

/-! ### Priorities -/

omit [DecidableEq T] in
theorem setAll_frame (ws : List ℕ) : ∀ s : State D T,
    (s.setAll ws).nfQueue = s.nfQueue ∧ (s.setAll ws).returned = s.returned := by
  induction ws with
  | nil => exact fun _ => ⟨rfl, rfl⟩
  | cons w ws ih =>
    intro s
    rw [State.setAll, (ih _).1, (ih _).2, State.access]
    split <;> exact ⟨rfl, rfl⟩

theorem sorted_of_reached {s : State (multimap N) T} (h : (threads (multimap N) T).Reached s) :
    s.nfQueue.Pairwise fun e e' => e.1 ≤ e'.1 := by
  induction h with
  | start => exact .nil
  | step hr _ hstep ih =>
    have hout := (inv_of_reached hr).outcome hstep
    cases hout with
    | insert => exact Multimap.sorted_insert ih
    | dequeueFront hq | waitDequeueFront hq => exact (pairwise_cons.mp (hq ▸ ih)).2
    | wakeUpAll => exact (setAll_frame _ _).1.symm ▸ ih
    | handOver | dequeueNone | enroll | wake | expire | take | remove | delete => exact ih

omit [DecidableEq T] in
theorem Handed.of_setAll (ws : List ℕ) (h : Handed (State.setAll ws s) t n) : Handed s t n := by
  induction ws generalizing s with
  | nil => exact h
  | cons w ws ih =>
    simp only [State.setAll, State.access] at h
    cases hw : s.heap.get w with
    | none =>
      simp only [hw] at h
      exact ih (s := { s with fault := true }) h
    | some i =>
      simp only [hw] at h
      refine (ih h).mono ?_ fun v j hj hn => ?_
      · rfl
      rcases get_set_cases hw hj with ⟨rfl, rfl⟩ | ⟨-, hj⟩
      · exact ⟨i, hw, hn⟩
      · exact ⟨j, hj, hn⟩

inductive Leaves (s : State (multimap N) T) (priority : ℤ) (n : N) (t : T) : Action ℤ N T → Prop
  | dequeueNotification : s.nfQueue.head? = some (priority, n) →
      Leaves s priority n t (.dequeueNotification t)
  | waitDequeueNotification {timed : Bool} : s.nfQueue.head? = some (priority, n) →
      Leaves s priority n t (.waitDequeueNotification t timed)
  | handOver {t' : T} {w : ℕ} : s.waitQueue.head? = some w → (s.pc t).pWI = some w →
      Leaves s priority n t (.enqueueNotification t' priority n)

section Priority

variable {s s' : State (multimap N) T} {a : Action ℤ N T} {priority : ℤ}

/-- What a step returns, or hands to a thread, leaves by it or was handed over before. -/
theorem Inv.leaves (hs : Inv (multimap N) s)
    (hstep : NotificationQueue.step (multimap N) s a = some s')
    (hn : (t, n) ∈ s'.returned ∨ Handed s' t n) :
    ((t, n) ∈ s.returned ∨ Handed s t n) ∨ ∃ priority, Leaves s priority n t a := by
  have hgoto : ∀ t' c, c.pWI = (s.pc t').pWI → (s.pc t).pWI = ((s.goto t' c).pc t).pWI :=
    fun t' c hc => (congrFun (owns_move_of_eq hc) t).symm
  cases hs.outcome hstep with
  | insert | dequeueNone => exact .inl hn
  | @handOver _ k _ w _ hw =>
    rcases hn with hn | ⟨v, i, hv, hi, hin⟩
    · exact .inl (.inl hn)
    · obtain ⟨hget, -⟩ := hs.queued w (hw ▸ mem_cons_self ..)
      rcases get_set_cases hget hi with ⟨rfl, rfl⟩ | ⟨-, hi⟩
      · cases hin
        exact .inr ⟨k, .handOver (by rw [hw]; rfl) hv⟩
      · exact .inl (.inr ⟨v, i, hv, hi, hin⟩)
  | @dequeueFront _ e _ hq | @waitDequeueFront _ _ e _ hq =>
    rcases hn with hn | hn
    · rcases mem_cons.mp hn with hn | hn
      · cases hn
        refine .inr ⟨e.1, ?_⟩
        constructor
        rw [hq]
        rfl
      · exact .inl (.inl hn)
    · exact .inl (.inr hn)
  | @enroll t' =>
    rcases hn with hn | ⟨w, i, hw, hi, hin⟩
    · exact .inl (.inl hn)
    · rcases get_new_cases hi with ⟨-, rfl⟩ | ⟨hne, hi⟩
      · cases hin
      · rcases place_cases (Eq.refl ((s.goto t' _).pc t)) with ⟨-, hc⟩ | ⟨-, hc⟩
        · rw [← hc] at hw
          cases hw
          exact absurd rfl hne
        · exact .inl (.inr ⟨w, i, hc ▸ hw, hi, hin⟩)
  | wake ht' hget =>
    refine .inl (hn.imp id fun hn => hn.mono (hgoto _ _ (by rw [ht']; rfl)) fun v i hi hin => ?_)
    rcases get_set_cases hget hi with ⟨rfl, rfl⟩ | ⟨-, hi⟩
    · exact ⟨_, hget, hin⟩
    · exact ⟨i, hi, hin⟩
  | expire ht' | take ht' | remove ht' =>
    refine .inl (hn.imp id fun hn => hn.mono (hgoto _ _ (by rw [ht']; rfl)) fun v i hi hin => ?_)
    exact ⟨i, hi, hin⟩
  | @delete t' w pNf ht' =>
    obtain ⟨j, hj, rfl⟩ := hs.kept t' w pNf ht'
    rcases hn with hn | ⟨v, i, hv, hi, hin⟩
    · rcases mem_append.mp hn with hn | hn
      · obtain ⟨m, hm, hmn⟩ := Option.map_eq_some_iff.mp (Option.mem_toList.mp hn)
        cases hmn
        exact .inl (.inr ⟨w, j, by rw [ht']; rfl, hj, hm⟩)
      · exact .inl (.inl hn)
    · rcases place_cases (Eq.refl ((s.goto t' _).pc t)) with ⟨-, hc⟩ | ⟨-, hc⟩
      · rw [State.give, ← hc] at hv
        cases hv
      · exact .inl (.inr ⟨v, i, hc ▸ hv, (get_of_get_delete hi).2, hin⟩)
  | wakeUpAll =>
    refine .inl (hn.imp (fun hn => ?_) (Handed.of_setAll s.waitQueue))
    exact (setAll_frame s.waitQueue s).2 ▸ hn

/-- A notification that leaves is at least as urgent as those in the queue: it is the first of
them, or there are none. -/
theorem Leaves.le (hr : (threads (multimap N) T).Reached s) (h : Leaves s priority n t a) :
    ∀ e ∈ s.nfQueue, priority ≤ e.1 := by
  intro e he
  cases h with
  | dequeueNotification hq | waitDequeueNotification hq =>
    obtain ⟨q, hq⟩ := head?_eq_some_iff.mp hq
    have hsrt := sorted_of_reached hr
    rw [hq] at he hsrt
    rcases mem_cons.mp he with rfl | he
    · exact le_rfl
    · exact (pairwise_cons.mp hsrt).1 e he
  | handOver hw =>
    have hne : s.waitQueue ≠ [] := by
      intro hnil
      rw [hnil] at hw
      cases hw
    rw [(inv_of_reached hr).empty hne] at he
    cases he

/-- **The most urgent notification is taken.**  In every interleaving, whatever a
`PriorityNotificationQueue` returned to a thread left for it by some earlier step, and then
no notification in the queue was more urgent. -/
theorem takes_most_urgent (N T : Type) [DecidableEq T] (s : State (multimap N) T)
    (hr : (threads (multimap N) T).Reached s) (t : T) (n : N) (hn : (t, n) ∈ s.returned) :
    ∃ u a as priority, (threads (multimap N) T).Reached u ∧
      (threads (multimap N) T).exec u (a :: as) = some s ∧ Leaves u priority n t a ∧
      ∀ e ∈ u.nfQueue, priority ≤ e.1 := by
  -- a notification that was handed over has left too
  have hleft : (t, n) ∈ s.returned ∨ Handed s t n := .inl hn
  clear hn
  induction hr with
  | start =>
    rcases hleft with hn | ⟨w, i, hw, -⟩
    · cases hn
    · cases hw
  | @step s s' a hr _ hstep ih =>
    rcases (inv_of_reached hr).leaves hstep hleft with hleft | ⟨priority, h⟩
    · obtain ⟨u, b, as, priority, hu, hexec, h⟩ := ih hleft
      exact ⟨u, b, as ++ [a], priority, hu, Machine.exec_concat hexec hstep, h⟩
    · refine ⟨s, a, [], priority, hr, ?_, h, h.le hr⟩
      rw [Machine.exec, hstep]
      rfl

/-- Two notifications in the queue, of which the later one is more urgent, and one that is
handed to a thread that waits. -/
theorem takes_most_urgent_three : ∃ s : State (multimap ℕ) Bool,
    (threads (multimap ℕ) Bool).Reached s ∧ s.returned = [(true, 7), (true, 5), (true, 3)] ∧
      ∀ t n, (t, n) ∈ s.returned → ∃ u a as priority, (threads (multimap ℕ) Bool).Reached u ∧
        (threads (multimap ℕ) Bool).exec u (a :: as) = some s ∧ Leaves u priority n t a ∧
        ∀ e ∈ u.nfQueue, priority ≤ e.1 := by
  have hrun : ((threads (multimap ℕ) Bool).execBy (fun _ _ => True) .fresh
      [.enqueueNotification false 5 5, .enqueueNotification false 3 3,
        .waitDequeueNotification true false, .dequeueNotification true,
        .waitDequeueNotification true true, .enqueueNotification false 7 7, .expire true,
        .remove true, .delete true]).map State.returned =
      some [(true, 7), (true, 5), (true, 3)] := by decide
  obtain ⟨s, hr, hs⟩ := Machine.exists_reachedBy_of_execBy hrun
  exact ⟨s, hr, hs, fun t n => takes_most_urgent ℕ Bool s hr t n⟩

end Priority

end NotificationQueue

end Poco
