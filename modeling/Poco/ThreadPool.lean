import Poco.Lib.Heap
import Poco.Lib.Machine
import Poco.Lib.Threads
import Mathlib.Data.Int.Order.Basic

/-!
# Thread pools

`ThreadPool` of `Foundation/src/ThreadPool.cpp`, used by any number of threads.

A pool has workers, each a `PooledThread` with a thread of its own.  `start` takes a worker
that is idle, or a new one, and marks it under the mutex of the pool.  The target is given to
the worker after that mutex is unlocked.  The worker is woken by an event, looks at the
target under its own mutex, and reads it again to run it without the mutex.

A section under the mutex of a worker is one step.  The mutex of the pool is held over many
steps, in which workers go on: `housekeep` looks at one worker after another, `joinAll` and
`release` wait for one.  A target is known by the number of the call of `start` that gave it
to the pool, since one object may be given twice.  Setting the name and the priority of a
thread does not fail; creating a thread may.

## Main definitions

* `PooledThread`: a worker; `PooledThread.PC` is where its thread is in `PooledThread::run`.
* `State`, `PC`: a pool, its workers and the threads that use it, and where such a thread is.
* `begin`, `advance`: the first step of a call that has the mutex, and the next one; `fails` says
  that `tryJoin` gives up, or that no thread can be created.
* `work`, `finish`: the next step of a worker that is not running a target, and the end of one.
* `threads`: a new pool and any interleaving of threads and workers.
-/

namespace Poco

/-! ### Workers -/

inductive PooledThread.PC
  /-- In `_targetReady.wait()`. -/
  | waiting
  /-- Before it looks at `_pTarget` under the mutex. -/
  | woken
  /-- After the mutex is unlocked, before `_pTarget->run()`. -/
  | dispatching
  | running (target : ℕ)
  | ended
deriving DecidableEq

structure PooledThread where
  idle : Bool
  idleTime : ℤ
  pTarget : Option ℕ
  /-- The flag of the event `_targetReady`, which waiting resets. -/
  targetReady : Bool
  /-- The flag of the event `_targetCompleted`, which waiting does not reset. -/
  targetCompleted : Bool
  pc : PooledThread.PC

namespace PooledThread

variable (p : PooledThread)

def new (now : ℤ) : PooledThread := ⟨true, now, none, false, false, .waiting⟩

/-- `start` with a target, in both forms; there is no outcome if the assertion fails. -/
def start (target : ℕ) : Option PooledThread :=
  if p.pTarget = none then some { p with pTarget := some target, targetReady := true } else none

/-- `activate`; there is no outcome if the assertion fails. -/
def activate : Option PooledThread :=
  if p.idle then some { p with idle := false, targetCompleted := false } else none

/-- The section of `release`. -/
def clear : PooledThread := { p with pTarget := none }

/-- `if (_thread.isRunning()) _targetReady.set()`. -/
def signal : PooledThread := if p.pc = .ended then p else { p with targetReady := true }

/-- `_targetReady.wait()` returns. -/
def wake : PooledThread := { p with targetReady := false, pc := .woken }

/-- The section in which a worker looks at its target; none means that the thread ends. -/
def look : PooledThread :=
  { p with pc := if p.pTarget = none then .ended else .dispatching }

def enter (target : ℕ) : PooledThread := { p with pc := .running target }

def complete (now : ℤ) : PooledThread :=
  { p with pTarget := none, idleTime := now, idle := true, targetCompleted := true, pc := .waiting }

end PooledThread

namespace ThreadPool

variable {T : Type}

/-! ### Pools -/

/-- The arguments of the constructor that matter after it, with its assertion. -/
structure Settings where
  minCapacity : ℕ
  maxCapacity : ℕ
  idleTime : ℤ
  valid : 1 ≤ minCapacity ∧ minCapacity ≤ maxCapacity ∧ 0 < idleTime

inductive Call
  /-- `start` and `startWithPriority`. -/
  | start
  | addCapacity (n : ℤ)
  | collect
  | joinAll
  | stopAll
deriving DecidableEq

/-- What a thread does after `housekeep`, or after the loop that releases workers. -/
inductive After
  /-- The rest of `getThread`. -/
  | getThread
  /-- The return from `addCapacity` or `collect`. -/
  | unlock
  /-- The return from `joinAll`, which was called when so many targets had been started. -/
  | joined (before : ℕ)
  /-- The return from `stopAll`. -/
  | stop
deriving DecidableEq

inductive PC
  | idle
  /-- Before it has the mutex, in a call made when so many targets had been started. -/
  | calling (call : Call) (before : ℕ)
  /-- In the loop of `housekeep` that looks at the workers. -/
  | examining (k : After) (rest idleThreads expiredThreads activeThreads : List ℕ)
  /-- Between calls of `release`, with the workers that are still to be released. -/
  | releasing (k : After) (todo : List ℕ)
  /-- In `release`, after `_pTarget = 0`. -/
  | signalling (k : After) (w : ℕ) (todo : List ℕ)
  /-- In `release`, in `tryJoin`. -/
  | joining (k : After) (w : ℕ) (todo : List ℕ)
  /-- In the loop of `getThread`. -/
  | searching (rest : List ℕ)
  /-- In `getThread`, before `activate`. -/
  | activating (w : ℕ)
  /-- After `getThread`, before `start` of the worker. -/
  | assigning (w : ℕ)
  /-- In the loop of `joinAll`. -/
  | reading (before : ℕ) (rest : List ℕ)
  /-- In `join` of a worker, in `_targetCompleted.wait()`. -/
  | awaiting (before : ℕ) (w : ℕ) (rest : List ℕ)
deriving DecidableEq

inductive Fault
  /-- A worker was used after it was deleted. -/
  | deleted
  /-- The assertion `_idle` of `activate` failed. -/
  | notIdle
  /-- The assertion `_pTarget == 0` of `start` failed. -/
  | hasTarget
  /-- A worker called `run` through a null pointer. -/
  | nullTarget
deriving DecidableEq

structure State (T : Type) where
  heap : Heap PooledThread
  threads : List ℕ
  maxCapacity : ℤ
  age : ℕ
  mutex : Option T
  pc : T → PC
  clock : ℤ
  /-- The number of calls of `start` that have returned normally. -/
  started : ℕ
  /-- The targets that a worker began to run, each with the worker. -/
  runs : List (ℕ × ℕ)
  /-- The targets whose worker has noted that they are done. -/
  completed : List ℕ
  /-- The largest number of targets that had been started when a call of `joinAll` was made
  that has returned. -/
  joined : ℕ
  stopCalled : Bool
  stopReturned : Bool
  faults : List Fault

namespace State

def fresh (P : Settings) : State T where
  heap := .fill P.minCapacity (.new 0)
  threads := List.range P.minCapacity
  maxCapacity := P.maxCapacity
  age := 0
  mutex := none
  pc := fun _ => .idle
  clock := 0
  started := 0
  runs := []
  completed := []
  joined := 0
  stopCalled := false
  stopReturned := false
  faults := []

variable [DecidableEq T] (P : Settings) (s : State T) (t : T)

def goto (c : PC) : State T := { s with pc := Function.update s.pc t c }

def fail (f : Fault) : State T := { s with faults := f :: s.faults }

def use (w : ℕ) (f : PooledThread → State T) : State T :=
  match s.heap.get w with
  | some p => f p
  | none => s.fail .deleted

/-- A thread goes on after `housekeep`, or after the loop that releases workers. -/
def leave : After → State T
  | .getThread => s.goto t (.searching s.threads)
  | .unlock => { s.goto t .idle with mutex := none }
  | .joined before => { s.goto t .idle with mutex := none, joined := max s.joined before }
  | .stop => { s.goto t .idle with mutex := none, stopReturned := true }

def housekeep (k : After) : State T :=
  let s := { s with age := 0 }
  if s.threads.length ≤ P.minCapacity then s.leave t k
  else s.goto t (.examining k s.threads [] [] [])

def examine (k : After) (w : ℕ) (rest idleThreads expiredThreads activeThreads : List ℕ) :
    State T :=
  s.use w fun p =>
    if p.idle then
      if s.clock - p.idleTime < P.idleTime then
        s.goto t (.examining k rest (idleThreads ++ [w]) expiredThreads activeThreads)
      else
        s.goto t (.examining k rest idleThreads (expiredThreads ++ [w]) activeThreads)
    else
      s.goto t (.examining k rest idleThreads expiredThreads (activeThreads ++ [w]))

/-- `housekeep` has looked at every worker and knows which it keeps.  No other thread sees
`_threads` before the mutex is unlocked, so it gets its new value at once. -/
def keep (k : After) (idleThreads expiredThreads activeThreads : List ℕ) : State T :=
  let limit := max (idleThreads.length + activeThreads.length) P.minCapacity
  let n := limit - activeThreads.length
  let idleThreads := idleThreads ++ expiredThreads
  { s.goto t (.releasing k (idleThreads.drop n)) with
    threads := idleThreads.take n ++ activeThreads }

def begin (before : ℕ) : Call → State T
  | .start =>
    let s := { s with age := s.age + 1 }
    if s.age = 32 then s.housekeep P t .getThread else s.goto t (.searching s.threads)
  | .addCapacity n =>
    if P.minCapacity ≤ s.maxCapacity + n then
      { s with maxCapacity := s.maxCapacity + n }.housekeep P t .unlock
    else s.leave t .unlock
  | .collect => s.housekeep P t .unlock
  | .joinAll => s.goto t (.reading before s.threads)
  -- as in `housekeep`, `_threads` is cleared at once
  | .stopAll => { s.goto t (.releasing .stop s.threads) with threads := [] }

def advance (fails : Bool) : Option (State T) :=
  match s.pc t with
  | .idle => none
  | .calling call before =>
    if s.mutex = none then some ({ s with mutex := some t }.begin P t before call) else none
  | .examining k (w :: rest) idleThreads expiredThreads activeThreads =>
    some (s.examine P t k w rest idleThreads expiredThreads activeThreads)
  | .examining k [] idleThreads expiredThreads activeThreads =>
    some (s.keep P t k idleThreads expiredThreads activeThreads)
  | .releasing k [] => some (s.leave t k)
  | .releasing k (w :: todo) => some (s.use w fun p =>
      { s.goto t (.signalling k w todo) with heap := s.heap.set w p.clear })
  | .signalling k w todo => some (s.use w fun p =>
      { s.goto t (.joining k w todo) with heap := s.heap.set w p.signal })
  | .joining k w todo =>
    match s.heap.get w with
    | none => some (s.fail .deleted)
    | some p =>
      if p.pc = .ended then some { s.goto t (.releasing k todo) with heap := s.heap.delete w }
      else if fails then some (s.goto t (.releasing k todo)) else none
  | .searching (w :: rest) => some (s.use w fun p =>
      s.goto t (if p.idle then .activating w else .searching rest))
  | .searching [] =>
    if s.threads.length < s.maxCapacity ∧ ¬ fails then
      some { s.goto t (.activating s.heap.next) with
        heap := s.heap.new (.new s.clock)
        threads := s.threads ++ [s.heap.next] }
    else some (s.leave t .unlock)
  | .activating w => some (s.use w fun p =>
      match p.activate with
      | some p => { s.goto t (.assigning w) with heap := s.heap.set w p, mutex := none }
      | none => (s.fail .notIdle).leave t .unlock)
  | .assigning w => some (s.use w fun p =>
      match p.start s.started with
      | some p => { s.goto t .idle with heap := s.heap.set w p, started := s.started + 1 }
      | none => (s.fail .hasTarget).goto t .idle)
  | .reading before [] => some (s.housekeep P t (.joined before))
  | .reading before (w :: rest) => some (s.use w fun p =>
      s.goto t (if p.pTarget = none then .reading before rest else .awaiting before w rest))
  | .awaiting before w rest =>
    match s.heap.get w with
    | none => some (s.fail .deleted)
    | some p => if p.targetCompleted then some (s.goto t (.reading before rest)) else none

def work (w : ℕ) : Option (State T) :=
  match s.heap.get w with
  | none => none
  | some p =>
    match p.pc with
    | .waiting =>
      if p.targetReady then some { s with heap := s.heap.set w p.wake } else none
    | .woken => some { s with heap := s.heap.set w p.look }
    -- the pointer is read again, without the mutex
    | .dispatching =>
      match p.pTarget with
      | some target => some { s with
          heap := s.heap.set w (p.enter target), runs := (target, w) :: s.runs }
      | none => some (s.fail .nullTarget)
    | .running _ => none
    | .ended => none

/-- The target of a worker returns, and the worker notes it. -/
def finish (w : ℕ) : Option (State T) :=
  match s.heap.get w with
  | none => none
  | some p =>
    match p.pc with
    | .running target => some { s with
        heap := s.heap.set w (p.complete s.clock)
        completed := target :: s.completed }
    | _ => none

end State

/-! ### Runs -/

inductive Action (T : Type)
  | tick (d : ℕ)
  | call (t : T) (c : Call)
  | advance (t : T) (fails : Bool)
  | work (w : ℕ)
  | finish (w : ℕ)

variable [DecidableEq T] (P : Settings)

def step (s : State T) : Action T → Option (State T)
  | .tick d => some { s with clock := s.clock + d }
  | .call t c =>
    if s.pc t = .idle then
      some { s.goto t (.calling c s.started) with stopCalled := s.stopCalled || c = .stopAll }
    else none
  | .advance t fails => s.advance P t fails
  | .work w => s.work w
  | .finish w => s.finish w

def threads (P : Settings) (T : Type) [DecidableEq T] : Machine (State T) (Action T) where
  start := .fresh P
  step := step P

end ThreadPool

end Poco
