import Poco.TimedNotificationQueue

/-!
# Timers

`Util::Timer` of `Util/src/Timer.cpp`: a thread that takes notifications from a
`TimedNotificationQueue` and executes them.  Tasks that are scheduled are such
notifications, and so are the requests of `cancel` and of the destructor, which are due at
once.  Executing a request clears the queue.

Any number of threads schedule tasks and cancel them; `cancel(true)` waits until its
request was executed, and the destructor waits until the timer's thread has ended.  A task
may take any number of steps of others to run, and may itself be a source of calls that do
not wait.

## Main definitions

* `State`, `threads`: a timer and the threads that use it, in any interleaving.  Clock values are
  not negative, and no function is called after the destructor.
* `timerStep`: what a step of the timer's thread does.
* `QueueInv`: the queue is in order, its nodes are distinct, and requests are due at clock value 0.
* `Watch`: what the timer's thread, which waits without a time limit, can count on: unless the event
  is set, nothing was enqueued since it looked at the queue.
* `Dequeue`, `TimerOutcome`, `Outcome`: the outcomes of steps, with what they need.
* `Inv`: what holds in every state that is reached.

## Main results

* `QueueInv.enqueue_behind`: what is not due before clock value 0 goes behind a request.
* `Watch.enqueue`: an event that is set keeps the thread from missing what is enqueued.
-/

namespace Poco

open Multimap TimedNotificationQueue List

namespace Util

namespace Timer

open TimedNotificationQueue (Element PC Move Moved)

variable {T : Type}

inductive Repeat
  /-- `TaskNotification`. -/
  | once
  /-- `PeriodicTaskNotification`. -/
  | periodic (interval : ℤ)
  /-- `FixedRateTaskNotification`. -/
  | fixedRate (interval nextExecution : ℤ)
deriving DecidableEq

inductive TimerNotification
  /-- `StopNotification`. -/
  | stop
  /-- `CancelNotification`, with the number of the call. -/
  | cancel (call : ℕ)
  | task (pTask : ℕ) (repeats : Repeat)
deriving DecidableEq

def TimerNotification.isRequest : TimerNotification → Bool
  | stop => true
  | cancel _ => true
  | task _ _ => false

inductive Place
  /-- In `_queue.waitDequeueNotification()`. -/
  | dequeueing (c : PC)
  /-- Before `pNf->execute()`. -/
  | executing (pNf : TimerNotification)
  /-- In `_pTask->run()`. -/
  | running (pTask : ℕ) (repeats : Repeat)
  /-- After `TaskNotification::execute()`. -/
  | ran (pTask : ℕ) (repeats : Repeat)
  /-- In `CancelNotification::execute()`, before `_finished.set()`. -/
  | purged (call : ℕ)
  | ended
  /-- An iterator was used after its element was erased. -/
  | undefined
deriving DecidableEq

def Place.again : Place := .dequeueing (.looping none)

inductive Client
  | idle
  /-- In `pNf->wait()` of `cancel(true)`. -/
  | cancelling (call : ℕ)
  /-- In `_thread.join()` of the destructor. -/
  | joining
deriving DecidableEq

structure State (T : Type) where
  queue : TimedNotificationQueue TimerNotification
  clock : ℤ
  thread : Place
  isCancelled : ℕ → Bool
  /-- The number of calls of `cancel` so far. -/
  calls : ℕ
  /-- The flags of the events `_finished`. -/
  finished : ℕ → Bool
  client : T → Client
  destroyed : Bool

/-- When a task is executed next, and the notification for it. -/
def nextExecution (clock : ℤ) (pTask : ℕ) : Repeat → Option (TimerNotification × ℤ)
  | .once => none
  | .periodic interval =>
    let next := clock + interval * 1000
    let next := if next < clock then clock else next
    some (.task pTask (.periodic interval), next)
  | .fixedRate interval last =>
    let next := last + interval * 1000
    let next := if next < clock then clock else next
    some (.task pTask (.fixedRate interval next), next)

inductive TimerStep
  /-- A step in `waitDequeueNotification()`. -/
  | dequeue (m : Move)
  /-- The beginning of `execute()`: the queue is cleared, or the task begins to run. -/
  | execute
  | finish
  /-- A periodic task is enqueued again, unless it is cancelled. -/
  | reschedule
  /-- `_finished.set()`. -/
  | set
deriving DecidableEq

namespace State

variable (s : State T)

def settle : Moved TimerNotification → State T
  | .goes q c => { s with queue := q, thread := .dequeueing c }
  | .takes q e => { s with queue := q, thread := .executing e.nf }
  | .stale => { s with thread := .undefined }

def execute : TimerNotification → State T
  | .stop => { s with queue := s.queue.clear, thread := .ended }
  | .cancel call => { s with queue := s.queue.clear, thread := .purged call }
  | .task pTask repeats =>
    if s.isCancelled pTask then { s with thread := .ran pTask repeats }
    else { s with thread := .running pTask repeats }

def reschedule (pTask : ℕ) (repeats : Repeat) : State T :=
  match nextExecution s.clock pTask repeats with
  | none => { s with thread := .again }
  | some (pNf, next) =>
    if s.isCancelled pTask then { s with thread := .again }
    else { s with queue := s.queue.enqueueNotification pNf next, thread := .again }

def timerStep : TimerStep → Option (State T)
  | .dequeue m =>
    match s.thread with
    | .dequeueing c => (s.queue.move s.clock c m).map s.settle
    | _ => none
  | .execute =>
    match s.thread with
    | .executing pNf => some (s.execute pNf)
    | _ => none
  | .finish =>
    match s.thread with
    | .running pTask repeats => some { s with thread := .ran pTask repeats }
    | _ => none
  | .reschedule =>
    match s.thread with
    | .ran pTask repeats => some (s.reschedule pTask repeats)
    | _ => none
  | .set =>
    match s.thread with
    | .purged call =>
      some { s with finished := Function.update s.finished call true, thread := .again }
    | _ => none

end State

inductive Action (T : Type)
  | tick (d : ℕ)
  /-- A task is scheduled for a clock value, by any of the functions for that. -/
  | schedule (pTask : ℕ) (repeats : Repeat) (clock : ℤ)
  /-- `TimerTask::cancel`. -/
  | cancelTask (pTask : ℕ)
  | cancel
  /-- The beginning of `cancel(true)`. -/
  | cancelWait (t : T)
  | cancelled (t : T)
  | destroy (t : T)
  | joined (t : T)
  | timer (m : TimerStep)

variable [DecidableEq T]

def step (s : State T) : Action T → Option (State T)
  | .tick d => some { s with clock := s.clock + d }
  | .schedule pTask repeats clock =>
    if s.destroyed then none
    else some { s with queue := s.queue.enqueueNotification (.task pTask repeats) clock }
  | .cancelTask pTask =>
    some { s with isCancelled := Function.update s.isCancelled pTask true }
  | .cancel =>
    if s.destroyed then none
    else some { s with
      queue := s.queue.enqueueNotification (.cancel s.calls) 0
      calls := s.calls + 1 }
  | .cancelWait t =>
    if s.destroyed ∨ s.client t ≠ .idle then none
    else some { s with
      queue := s.queue.enqueueNotification (.cancel s.calls) 0
      calls := s.calls + 1
      client := Function.update s.client t (.cancelling s.calls) }
  | .cancelled t =>
    match s.client t with
    | .cancelling call =>
      if s.finished call then
        some { s with
          finished := Function.update s.finished call false
          client := Function.update s.client t .idle }
      else none
    | _ => none
  | .destroy t =>
    if s.destroyed ∨ s.client t ≠ .idle then none
    else some { s with
      queue := s.queue.enqueueNotification .stop 0
      client := Function.update s.client t .joining
      destroyed := true }
  | .joined t =>
    if s.client t = .joining ∧ s.thread = .ended then
      some { s with client := Function.update s.client t .idle }
    else none
  | .timer m => s.timerStep m

def threads (T : Type) [DecidableEq T] (clock : ℕ) : Machine (State T) (Action T) where
  start := ⟨.new, clock, .again, fun _ => false, 0, fun _ => false, fun _ => .idle, false⟩
  step := step

inductive Outcome (s : State T) : Action T → State T → Prop
  | tick {d : ℕ} : Outcome s (.tick d) { s with clock := s.clock + d }
  | schedule {pTask : ℕ} {repeats : Repeat} {clock : ℤ} :
      Outcome s (.schedule pTask repeats clock)
        { s with queue := s.queue.enqueueNotification (.task pTask repeats) clock }
  | cancelTask {pTask : ℕ} {isCancelled : ℕ → Bool} :
      Outcome s (.cancelTask pTask) { s with isCancelled := isCancelled }
  | cancel : Outcome s .cancel { s with
      queue := s.queue.enqueueNotification (.cancel s.calls) 0
      calls := s.calls + 1 }
  | cancelWait {t : T} : s.destroyed = false → Outcome s (.cancelWait t) { s with
      queue := s.queue.enqueueNotification (.cancel s.calls) 0
      calls := s.calls + 1
      client := Function.update s.client t (.cancelling s.calls) }
  | cancelled {t : T} {call : ℕ} : s.client t = .cancelling call →
      Outcome s (.cancelled t) { s with
        finished := Function.update s.finished call false
        client := Function.update s.client t .idle }
  | destroy {t : T} : s.destroyed = false → Outcome s (.destroy t) { s with
      queue := s.queue.enqueueNotification .stop 0
      client := Function.update s.client t .joining
      destroyed := true }
  | joined {t : T} : s.client t = .joining →
      Outcome s (.joined t) { s with client := Function.update s.client t .idle }
  | timer {m : TimerStep} {s' : State T} : s.timerStep m = some s' → Outcome s (.timer m) s'

variable {a : Action T} {l₁ l₂ : List (Element TimerNotification)} {m : Move}

theorem outcome_of_step (h : step s a = some s') : Outcome s a s' := by
  cases a with
  | tick d =>
    cases h
    exact .tick
  | schedule pTask repeats clock | cancel =>
    simp only [step] at h
    split at h <;> cases h
    constructor
  | cancelTask pTask =>
    cases h
    exact .cancelTask
  | cancelWait t | destroy t =>
    simp only [step] at h
    split at h <;> cases h
    next hc =>
      constructor
      exact Bool.not_eq_true _ ▸ (not_or.mp hc).1
  | cancelled t =>
    cases hc : s.client t <;> simp only [step, hc] at h <;> try cases h
    split at h <;> cases h
    exact .cancelled hc
  | joined t =>
    simp only [step] at h
    split at h <;> cases h
    next hc => exact .joined hc.1
  | timer m => exact .timer h

/-! ### The queue of a timer -/

structure QueueInv (q : TimedNotificationQueue TimerNotification) : Prop where
  sorted : q.nfQueue.Pairwise fun e e' => e.due ≤ e'.due
  nodes : (q.nfQueue.map Element.node).Nodup
  below : ∀ e ∈ q.nfQueue, e.node < q.nodes
  due : ∀ e ∈ q.nfQueue, e.nf.isRequest = true → e.due = 0

/-- An element with nothing but tasks before it. -/
def First (q : TimedNotificationQueue TimerNotification) (e : Element TimerNotification) : Prop :=
  ∃ l₁ l₂, q.nfQueue = l₁ ++ e :: l₂ ∧ ∀ e' ∈ l₁, e'.nf.isRequest = false

variable {q : TimedNotificationQueue TimerNotification} {e e' : Element TimerNotification}

theorem queueInv_new : QueueInv .new := ⟨.nil, .nil, nofun, nofun⟩

variable {clock due : ℤ} {c : PC}

theorem QueueInv.enqueue (hq : QueueInv q) (hdue : pNf.isRequest = true → due = 0) :
    QueueInv (q.enqueueNotification pNf due) where
  sorted := sorted_insert hq.sorted
  nodes := by
    have hperm : (q.enqueueNotification pNf due).nfQueue.Perm
        (q.element pNf due :: q.nfQueue) := insert_perm q.nfQueue
    refine (hperm.map Element.node).nodup_iff.mpr (nodup_cons.mpr ⟨fun hmem => ?_, hq.nodes⟩)
    obtain ⟨e, he, hnode⟩ := mem_map.mp hmem
    exact Nat.ne_of_lt (hq.below e he) hnode
  below := by
    intro e he
    rcases mem_insert.mp he with rfl | he
    · exact Nat.lt_succ_self _
    · exact Nat.lt_succ_of_lt (hq.below e he)
  due := by
    intro e he hreq
    rcases mem_insert.mp he with rfl | he
    · exact hdue hreq
    · exact hq.due e he hreq

theorem QueueInv.sublist (hq : QueueInv q) (hsub : q'.nfQueue.Sublist q.nfQueue)
    (hnod : q'.nodes = q.nodes) : QueueInv q' where
  sorted := hq.sorted.sublist hsub
  nodes := hq.nodes.sublist (hsub.map _)
  below := fun e he => lt_of_lt_of_eq (hq.below e (hsub.subset he)) hnod.symm
  due := fun e he => hq.due e (hsub.subset he)

theorem First.mem (h : First q e) : e ∈ q.nfQueue := by
  obtain ⟨l₁, l₂, hq, -⟩ := h
  exact hq ▸ mem_append_right _ (mem_cons_self ..)

/-- What stands before a request is due at clock value 0 at the latest. -/
theorem QueueInv.due_le (hq : QueueInv q) (hspl : q.nfQueue = l₁ ++ e :: l₂)
    (hreq : e.nf.isRequest = true) : ∀ e' ∈ l₁ ++ [e], e'.due ≤ 0 := by
  have hdue : e.due = 0 := hq.due e (hspl ▸ mem_append_right _ (mem_cons_self ..)) hreq
  intro e' he'
  rcases mem_append.mp he' with he' | he'
  · have hsor := hq.sorted
    rw [hspl] at hsor
    exact hdue ▸ (pairwise_append.mp hsor).2.2 e' he' e (mem_cons_self ..)
  · obtain rfl := mem_singleton.mp he'
    exact hdue.le

theorem First.unique (h : First q e) (h' : First q e') (hreq : e.nf.isRequest = true)
    (hreq' : e'.nf.isRequest = true) : e = e' := by
  have hfind : ∀ {e}, First q e → e.nf.isRequest = true →
      q.nfQueue.find? (fun e => e.nf.isRequest) = some e := by
    rintro e ⟨l₁, l₂, hq, hl₁⟩ hreq
    exact find?_eq_some_iff_append.mpr ⟨hreq, l₁, l₂, hq, by simpa using hl₁⟩
  exact Option.some.inj ((hfind h hreq).symm.trans (hfind h' hreq'))

theorem QueueInv.enqueue_behind (hq : QueueInv q) (hspl : q.nfQueue = l₁ ++ e :: l₂)
    (hreq : e.nf.isRequest = true) (pNf : TimerNotification) (hdue : 0 ≤ due) :
    (q.enqueueNotification pNf due).nfQueue =
      l₁ ++ e :: insert Element.due (q.element pNf due) l₂ := by
  have hall : ∀ e' ∈ l₁ ++ [e], e'.due ≤ (q.element pNf due).due :=
    fun e' he' => (hq.due_le hspl hreq e' he').trans hdue
  change insert Element.due (q.element pNf due) q.nfQueue = _
  rw [hspl, append_cons, insert_append hall, ← append_cons]

theorem First.enqueue (h : First q e) (hq : QueueInv q) (hreq : e.nf.isRequest = true)
    (hdue : pNf.isRequest = true → due = 0) : First (q.enqueueNotification pNf due) e := by
  obtain ⟨l₁, l₂, hspl, hl₁⟩ := h
  cases hp : pNf.isRequest with
  | true => exact ⟨l₁, _, hq.enqueue_behind hspl hreq pNf (hdue hp).ge, hl₁⟩
  | false =>
    -- a task may go anywhere
    obtain ⟨m₁, m₂, hm, hins⟩ := exists_insert Element.due (q.element pNf due) q.nfQueue
    have hbef : ∀ e' ∈ l₁ ++ [q.element pNf due], e'.nf.isRequest = false :=
      forall_mem_append.mpr ⟨hl₁, forall_mem_singleton.mpr hp⟩
    rcases append_eq_append_iff.mp (hm.symm.trans hspl) with
      ⟨c, rfl, hc⟩ | ⟨c, rfl, hc⟩
    · -- before one of the tasks that stand before the request
      refine ⟨m₁ ++ q.element pNf due :: c, l₂, ?_, fun e' he' => ?_⟩
      · exact hins.trans (by rw [hc]; simp)
      · refine hbef e' ?_
        simp only [mem_append, mem_cons] at he' ⊢
        tauto
    · cases c with
      | nil =>
        refine ⟨l₁ ++ [q.element pNf due], l₂, ?_, hbef⟩
        exact hins.trans (by rw [hc]; simp)
      | cons e'' c =>
        cases hc
        exact ⟨l₁, c ++ q.element pNf due :: m₂, hins.trans (by simp), hl₁⟩

/-! ### The timer's thread in the queue -/

/-- The event is set, or there is no element that is due at clock value 0. -/
def Unready (q : TimedNotificationQueue TimerNotification) : Prop :=
  q.nfAvailable = true ∨ ∀ e ∈ q.nfQueue.head?, 0 < e.due

def Watch (q : TimedNotificationQueue TimerNotification) : PC → Prop
  | .looping none => True
  | .holding it none => q.nfAvailable = true ∨ ∃ e ∈ q.nfQueue.head?, e.node = it
  | .measuring _ _ none _ | .sleeping _ _ _ none _ => Unready q
  | .pausing none | .blocked none _ => Unready q
  | .taking _ => True
  | _ => False

inductive Dequeue (q : TimedNotificationQueue TimerNotification) (clock : ℤ) :
    PC → Move → Moved TimerNotification → Prop
  | empty : q.nfQueue = [] → Dequeue q clock (.looping none) .begin (.goes q (.pausing none))
  | begin {e : Element TimerNotification} : e ∈ q.nfQueue.head? →
      Dequeue q clock (.looping none) .begin (.goes q (.holding e.node none))
  | due {e : Element TimerNotification} : e ∈ q.nfQueue →
      Dequeue q clock (.holding e.node none) .inspect (.goes q (.taking e.node))
  | later {e : Element TimerNotification} : e ∈ q.nfQueue → clock < e.due →
      Dequeue q clock (.holding e.node none) .inspect
        (.goes q (.measuring e.node (e.due - clock) none clock))
  | sleep {it : ℕ} {interval now : ℤ} :
      Dequeue q clock (.measuring it interval none now) .sleep
        (.goes q (.sleeping it interval clock none now))
  | wake {it : ℕ} {interval started now : ℤ} : q.nfAvailable = true →
      Dequeue q clock (.sleeping it interval started none now) .wake
        (.goes { q with nfAvailable := false } (.looping none))
  | more {it : ℕ} {interval interval' started now : ℤ} : q.nfAvailable = false →
      Dequeue q clock (.sleeping it interval started none now) .expire
        (.goes q (.measuring it interval' none now))
  | expire {it : ℕ} {interval started now : ℤ} : q.nfAvailable = false →
      Dequeue q clock (.sleeping it interval started none now) .expire (.goes q (.taking it))
  | dequeueOne {e : Element TimerNotification} : e ∈ q.nfQueue →
      Dequeue q clock (.taking e.node) .dequeueOne (.takes (q.erase e.node) e)
  | pause : Dequeue q clock (.pausing none) .pause (.goes q (.blocked none clock))
  | resume {now : ℤ} : q.nfAvailable = true →
      Dequeue q clock (.blocked none now) .wake
        (.goes { q with nfAvailable := false } (.looping none))

theorem dequeue_of_move (hq : QueueInv q) (hc : c.Sound q clock) (hw : Watch q c)
    {r : Moved TimerNotification} (h : q.move clock c m = some r) : Dequeue q clock c m r := by
  cases c with
  | idle => exact hw.elim
  | looping milliseconds =>
    cases milliseconds with
    | some m => exact hw.elim
    | none =>
      cases m <;> try cases h
      cases hqu : q.nfQueue with
      | nil =>
        simp only [move, hqu] at h
        cases h
        exact .empty hqu
      | cons e l =>
        simp only [move, hqu] at h
        cases h
        exact .begin (by rw [hqu]; rfl)
  | holding it milliseconds =>
    cases milliseconds with
    | some m => exact hw.elim
    | none =>
      cases m <;> try cases h
      obtain ⟨e, he, rfl, -⟩ := hc
      simp only [move, find_of_mem hq.nodes he] at h
      split at h
      · cases h
        exact .due he
      · next hlat =>
        cases h
        exact .later he (by omega)
  | measuring it interval milliseconds now =>
    cases milliseconds with
    | some m => exact hw.elim
    | none =>
      cases m <;> cases h
      exact .sleep
  | sleeping it interval started milliseconds now =>
    cases milliseconds with
    | some m => exact hw.elim
    | none =>
      cases m <;> try cases h
      · simp only [move] at h
        split at h <;> cases h
        next hset => exact .wake hset
      simp only [move] at h
      split at h
      · cases h
      · next hset =>
        have huns : q.nfAvailable = false := Bool.not_eq_true _ ▸ hset
        split at h <;> cases h
        · exact .more huns
        · exact .expire huns
  | taking it =>
    cases m <;> try cases h
    obtain ⟨e, he, rfl, -⟩ := hc
    simp only [move, find_of_mem hq.nodes he] at h
    cases h
    exact .dequeueOne he
  | pausing milliseconds =>
    cases milliseconds with
    | some m => exact hw.elim
    | none =>
      cases m <;> cases h
      exact .pause
  | blocked milliseconds now =>
    cases milliseconds with
    | some m => exact hw.elim
    | none =>
      cases m <;> try cases h
      simp only [move] at h
      split at h <;> cases h
      next hset => exact .resume hset

/-- A request to which the thread has an iterator is the first one. -/
def HoldsFirst (q : TimedNotificationQueue TimerNotification) (c : PC) : Prop :=
  ∀ e ∈ q.nfQueue, c.it = some e.node → e.nf.isRequest = true → First q e

structure Dequeueing (q : TimedNotificationQueue TimerNotification) (clock : ℤ) (c : PC) :
    Prop where
  sound : c.Sound q clock
  watch : Watch q c
  first : HoldsFirst q c

theorem dequeueing_again : Dequeueing q clock (.looping none) :=
  ⟨trivial, trivial, nofun⟩

theorem QueueInv.eq_of_node (hq : QueueInv q) (he : e ∈ q.nfQueue) (he' : e' ∈ q.nfQueue)
    (hnode : e.node = e'.node) : e = e' :=
  inj_on_of_nodup_map hq.nodes he he' hnode

theorem exists_of_it (hc : c.Sound q clock) (hit : c.it = some it) :
    ∃ e ∈ q.nfQueue, e.node = it := by
  have hpoi : ∀ {P : Element TimerNotification → Prop} {i : ℕ},
      TimedNotificationQueue.Points q i P → ∃ e ∈ q.nfQueue, e.node = i :=
    fun ⟨e, he, hi, _⟩ => ⟨e, he, hi⟩
  cases c with
  | idle | looping | pausing | blocked => cases hit
  | holding | measuring | taking => exact Option.some.inj hit ▸ hpoi hc
  | sleeping => exact Option.some.inj hit ▸ hpoi hc.2

theorem Watch.enqueue (h : Watch q c) (pNf : TimerNotification) (due : ℤ) :
    Watch (q.enqueueNotification pNf due) c := by
  cases c with
  | idle | taking => exact h
  | looping milliseconds => cases milliseconds <;> exact h
  | holding _ milliseconds | measuring _ _ milliseconds | sleeping _ _ _ milliseconds
  | pausing milliseconds | blocked milliseconds =>
    cases milliseconds with
    | none => exact .inl rfl
    | some m => exact h

theorem Dequeueing.enqueue (h : Dequeueing q clock c) (hq : QueueInv q)
    (hdue : pNf.isRequest = true → due = 0) :
    Dequeueing (q.enqueueNotification pNf due) clock c where
  sound := h.sound.mono (fun _ he _ => mem_insert.mpr (.inr he)) le_rfl
  watch := h.watch.enqueue pNf due
  first := by
    intro e he hit hreq
    rcases mem_insert.mp he with rfl | he
    · -- an iterator does not point to the new element
      obtain ⟨e₀, he₀, hnode⟩ := exists_of_it h.sound hit
      exact absurd hnode (Nat.ne_of_lt (hq.below e₀ he₀))
    · exact (h.first e he hit hreq).enqueue hq hreq hdue

theorem Dequeueing.goes (h : Dequeueing q clock c) (hq : QueueInv q) (hclk : 0 ≤ clock)
    (hmove : q.move clock c m = some (.goes q' c')) :
    q'.nfQueue = q.nfQueue ∧ q'.nodes = q.nodes ∧ Dequeueing q' clock c' := by
  have hfst : ∀ {it}, c.it = some it → ∀ e ∈ q.nfQueue, some it = some e.node →
      e.nf.isRequest = true → First q e :=
    fun hit e he heq hreq => h.first e he (hit.trans heq) hreq
  have hsnd : c'.Sound q clock ∧ q'.nfQueue = q.nfQueue ∧ q'.nodes = q.nodes := by
    cases moveSpec hq.nodes h.sound hmove with
    | goes hc => exact ⟨hc, rfl, rfl⟩
  obtain ⟨hsnd, hqu, hnod⟩ := hsnd
  refine ⟨hqu, hnod, hsnd.mono (fun e he _ => hqu ▸ he) le_rfl, ?_, ?_⟩
  · have hw := h.watch
    cases dequeue_of_move hq h.sound h.watch hmove with
    | empty hnil => exact .inr fun e he => by rw [hnil] at he; cases he
    | begin he => exact .inr ⟨_, he, rfl⟩
    | due | wake | expire | resume => trivial
    | sleep | more | pause => exact hw
    | @later e he hlat =>
      -- the element is the first one, unless something was enqueued since
      rcases hw with hset | ⟨e₀, he₀, hnode⟩
      · exact .inl hset
      · refine .inr fun e₁ he₁ => ?_
        obtain rfl : e₀ = e := hq.eq_of_node (mem_of_mem_head? he₀) he hnode
        obtain rfl : e₀ = e₁ := Option.some.inj (he₀.symm.trans he₁)
        exact hclk.trans_lt hlat
  · cases dequeue_of_move hq h.sound h.watch hmove with
    | empty | wake | pause | resume => exact nofun
    | due | later | sleep | more | expire => exact hfst rfl
    | @begin e he =>
      intro e' he' hit hreq
      obtain rfl : e = e' := hq.eq_of_node (mem_of_mem_head? he) he' (Option.some.inj hit)
      obtain ⟨l, hl⟩ := head?_eq_some_iff.mp he
      exact ⟨[], l, hl, nofun⟩

/-! ### Steps of the timer's thread -/

def Place.Sound (s : State T) : Place → Prop
  | .dequeueing c => Dequeueing s.queue s.clock c
  | .undefined => False
  | _ => True

omit [DecidableEq T] in
theorem Place.Sound.mono {s s' : State T} {p : Place} (h : p.Sound s)
    (hc : ∀ c, Dequeueing s.queue s.clock c → Dequeueing s'.queue s'.clock c) : p.Sound s' := by
  cases p with
  | dequeueing c => exact hc c h
  | undefined => exact h
  | _ => trivial

inductive TimerOutcome (s : State T) : TimerStep → State T → Prop
  | goes {c c' : PC} {m : Move} {q : TimedNotificationQueue TimerNotification} :
      s.thread = .dequeueing c → Dequeue s.queue s.clock c m (.goes q c') →
      q.nfQueue = s.queue.nfQueue → q.nodes = s.queue.nodes → Dequeueing q s.clock c' →
      TimerOutcome s (.dequeue m) { s with queue := q, thread := .dequeueing c' }
  | takes {e : Element TimerNotification} : s.thread = .dequeueing (.taking e.node) →
      e ∈ s.queue.nfQueue →
      TimerOutcome s (.dequeue .dequeueOne)
        { s with queue := s.queue.erase e.node, thread := .executing e.nf }
  | stop : s.thread = .executing .stop →
      TimerOutcome s .execute { s with queue := s.queue.clear, thread := .ended }
  | cancel {call : ℕ} : s.thread = .executing (.cancel call) →
      TimerOutcome s .execute { s with queue := s.queue.clear, thread := .purged call }
  | skip {pTask : ℕ} {repeats : Repeat} : s.thread = .executing (.task pTask repeats) →
      TimerOutcome s .execute { s with thread := .ran pTask repeats }
  | run {pTask : ℕ} {repeats : Repeat} : s.thread = .executing (.task pTask repeats) →
      TimerOutcome s .execute { s with thread := .running pTask repeats }
  | finish {pTask : ℕ} {repeats : Repeat} : s.thread = .running pTask repeats →
      TimerOutcome s .finish { s with thread := .ran pTask repeats }
  | again {pTask : ℕ} {repeats : Repeat} : s.thread = .ran pTask repeats →
      TimerOutcome s .reschedule { s with thread := .again }
  | reschedule {pTask : ℕ} {repeats repeats' : Repeat} {next : ℤ} :
      s.thread = .ran pTask repeats → s.clock ≤ next →
      TimerOutcome s .reschedule { s with
        queue := s.queue.enqueueNotification (.task pTask repeats') next
        thread := .again }
  | set {call : ℕ} : s.thread = .purged call →
      TimerOutcome s .set { s with
        finished := Function.update s.finished call true
        thread := .again }

omit [DecidableEq T] in
/-- A task is not enqueued again for a time that has passed. -/
theorem timerOutcome_reschedule (ht : s.thread = .ran pTask repeats) :
    TimerOutcome s .reschedule (s.reschedule pTask repeats) := by
  have hle : ∀ next : ℤ, s.clock ≤ if next < s.clock then s.clock else next := by
    intro next
    split <;> omega
  cases repeats with
  | once => exact .again ht
  | periodic | fixedRate =>
    simp only [State.reschedule, nextExecution]
    split
    · exact .again ht
    · exact .reschedule ht (hle _)

omit [DecidableEq T] in
theorem timerOutcome_of_step (hq : QueueInv s.queue) (hclk : 0 ≤ s.clock)
    (hplc : s.thread.Sound s) {m : TimerStep} (h : s.timerStep m = some s') :
    TimerOutcome s m s' := by
  cases m with
  | dequeue m =>
    cases ht : s.thread <;> simp only [State.timerStep, ht] at h <;> try cases h
    next c =>
    rw [ht] at hplc
    obtain ⟨r, hr, rfl⟩ := Option.map_eq_some_iff.mp h
    cases r with
    | goes q c' =>
      obtain ⟨hqu, hnod, hc'⟩ := hplc.goes hq hclk hr
      exact .goes ht (dequeue_of_move hq hplc.sound hplc.watch hr) hqu hnod hc'
    | takes q e =>
      cases dequeue_of_move hq hplc.sound hplc.watch hr with
      | dequeueOne he => exact .takes ht he
    | stale => cases dequeue_of_move hq hplc.sound hplc.watch hr
  | execute =>
    cases ht : s.thread <;> simp only [State.timerStep, ht] at h <;> try cases h
    next pNf =>
    cases pNf with
    | stop => exact .stop ht
    | cancel call => exact .cancel ht
    | task pTask repeats =>
      simp only [State.execute]
      split
      · exact .skip ht
      · exact .run ht
  | finish | set =>
    cases ht : s.thread <;> simp only [State.timerStep, ht] at h <;> cases h
    constructor
    exact ht
  | reschedule =>
    cases ht : s.thread <;> simp only [State.timerStep, ht] at h <;> cases h
    exact timerOutcome_reschedule ht

/-! ### The invariant of all runs -/

structure Inv (s : State T) : Prop where
  queue : QueueInv s.queue
  clock : 0 ≤ s.clock
  place : s.thread.Sound s
  /-- The timer's thread ends only for the destructor. -/
  alive : s.destroyed = false → s.thread ≠ .ended ∧ s.thread ≠ .executing .stop ∧
    ∀ e ∈ s.queue.nfQueue, e.nf ≠ .stop
  below : ∀ t call, s.client t = .cancelling call → call < s.calls
  /-- Two threads are not in the same call. -/
  unique : ∀ t t' call, s.client t = .cancelling call → s.client t' = .cancelling call → t = t'

theorem inv_start (clock : ℕ) : Inv (threads T clock).start where
  queue := queueInv_new
  clock := Int.natCast_nonneg clock
  place := dequeueing_again
  alive := fun _ => ⟨nofun, nofun, nofun⟩
  below := nofun
  unique := nofun

omit [DecidableEq T] in
theorem Inv.enqueue (hs : Inv s) (hdue : pNf.isRequest = true → due = 0)
    (hstop : pNf = .stop → s.destroyed = true) :
    Inv { s with queue := s.queue.enqueueNotification pNf due } :=
  { hs with
    queue := hs.queue.enqueue hdue
    place := hs.place.mono fun _ hc => hc.enqueue hs.queue hdue
    alive := by
      intro hdes
      obtain ⟨hended, hexc, hnone⟩ := hs.alive hdes
      refine ⟨hended, hexc, fun e he => ?_⟩
      rcases mem_insert.mp he with rfl | he
      · intro heq
        cases (hstop heq).symm.trans hdes
      · exact hnone e he }

theorem Inv.cancelWait (hs : Inv s) (t : T) :
    Inv { s with
      calls := s.calls + 1
      client := Function.update s.client t (.cancelling s.calls) } :=
  { hs with
    below := by
      intro t' call hcall
      rcases Threads.place_cases hcall with ⟨-, heq⟩ | ⟨-, hold⟩
      · cases heq
        exact Nat.lt_succ_self _
      · exact Nat.lt_succ_of_lt (hs.below t' call hold)
    unique := by
      intro t₁ t₂ call h₁ h₂
      rcases Threads.place_cases h₁ with ⟨rfl, heq₁⟩ | ⟨-, hold₁⟩ <;>
        rcases Threads.place_cases h₂ with ⟨rfl, heq₂⟩ | ⟨-, hold₂⟩
      · rfl
      · cases heq₁
        exact absurd (hs.below t₂ _ hold₂) (Nat.lt_irrefl _)
      · cases heq₂
        exact absurd (hs.below t₁ _ hold₁) (Nat.lt_irrefl _)
      · exact hs.unique t₁ t₂ call hold₁ hold₂ }

theorem Inv.client (hs : Inv s) (t : T) {c : Client} (hc : ∀ call, c ≠ .cancelling call) :
    Inv { s with client := Function.update s.client t c } :=
  { hs with
    below := by
      intro t' call hcall
      rcases Threads.place_cases hcall with ⟨-, heq⟩ | ⟨-, hold⟩
      · exact absurd heq (hc call)
      · exact hs.below t' call hold
    unique := by
      intro t₁ t₂ call h₁ h₂
      rcases Threads.place_cases h₁ with ⟨-, heq⟩ | ⟨-, hold₁⟩
      · exact absurd heq (hc call)
      · rcases Threads.place_cases h₂ with ⟨-, heq⟩ | ⟨-, hold₂⟩
        · exact absurd heq (hc call)
        · exact hs.unique t₁ t₂ call hold₁ hold₂ }

omit [DecidableEq T] in
theorem erase_sublist (it : ℕ) : (q.erase it).nfQueue.Sublist q.nfQueue := eraseP_sublist

omit [DecidableEq T] in
theorem Inv.timer (hs : Inv s) {m : TimerStep} (h : TimerOutcome s m s') : Inv s' := by
  cases h with
  | goes ht hdeq hqu hnod hc =>
    refine { hs with queue := hs.queue.sublist (hqu ▸ List.Sublist.refl _) hnod,
                     place := hc, alive := fun hd => ⟨nofun, nofun, ?_⟩ }
    exact hqu ▸ (hs.alive hd).2.2
  | takes ht he =>
    refine { hs with queue := hs.queue.sublist (erase_sublist _) rfl, place := trivial,
                     alive := fun hd => ⟨nofun, ?_, fun e' he' => ?_⟩ }
    · intro heq
      exact (hs.alive hd).2.2 _ he (Place.executing.inj heq)
    · exact (hs.alive hd).2.2 e' ((erase_sublist _).subset he')
  | stop ht =>
    exact { hs with
      queue := hs.queue.sublist (nil_sublist _) rfl
      place := trivial
      alive := fun hd => absurd ht (hs.alive hd).2.1 }
  | cancel ht =>
    exact { hs with
      queue := hs.queue.sublist (nil_sublist _) rfl
      place := trivial
      alive := fun _ => ⟨nofun, nofun, nofun⟩ }
  | skip | run | finish =>
    exact { hs with place := trivial, alive := fun hd => ⟨nofun, nofun, (hs.alive hd).2.2⟩ }
  | again | set =>
    exact { hs with
      place := dequeueing_again
      alive := fun hd => ⟨nofun, nofun, (hs.alive hd).2.2⟩ }
  | @reschedule pTask repeats repeats' next ht hnext =>
    have hs' : Inv { s with
        queue := s.queue.enqueueNotification (.task pTask repeats') next } :=
      hs.enqueue nofun nofun
    exact { hs' with
      place := dequeueing_again
      alive := fun hd => ⟨nofun, nofun, (hs'.alive hd).2.2⟩ }

theorem Inv.step (hs : Inv s) (h : Timer.step s a = some s') : Inv s' := by
  cases outcome_of_step h with
  | @tick d =>
    have hle : s.clock ≤ s.clock + d := by omega
    refine { hs with clock := hs.clock.trans hle, place := hs.place.mono fun _ hc => ?_ }
    exact { hc with sound := hc.sound.mono (fun _ he _ => he) hle }
  | schedule => exact hs.enqueue nofun nofun
  | cancelTask => exact { hs with }
  | cancel =>
    have hs' : Inv { s with queue := s.queue.enqueueNotification (.cancel s.calls) 0 } :=
      hs.enqueue (fun _ => rfl) nofun
    exact { hs' with below := fun t call hc => Nat.lt_succ_of_lt (hs.below t call hc) }
  | @cancelWait t =>
    have hs' : Inv { s with queue := s.queue.enqueueNotification (.cancel s.calls) 0 } :=
      hs.enqueue (fun _ => rfl) nofun
    exact hs'.cancelWait t
  | @cancelled t call =>
    have hs' := hs.client t (c := .idle) nofun
    exact { hs' with }
  | @destroy t =>
    have hd : Inv { s with destroyed := true } := { hs with alive := nofun }
    have hq : Inv { s with
        queue := s.queue.enqueueNotification .stop 0
        destroyed := true } := hd.enqueue (fun _ => rfl) fun _ => rfl
    exact hq.client t nofun
  | @joined t => exact hs.client t nofun
  | timer hm => exact hs.timer (timerOutcome_of_step hs.queue hs.clock hs.place hm)

end Timer

end Util

end Poco
