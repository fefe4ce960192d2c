import Poco.ThreadPool

/-!
# What a thread pool keeps

The invariant of a thread pool.  A worker of the pool is idle, or marked for one thread, or
has a target and is on its way to run it, or runs it.  Only the thread with the mutex of the
pool makes an idle worker busy, so that the workers `housekeep` found idle are idle when it
releases them, and a worker that `joinAll` waits for gets no other target before that call
returns.

`stopAll` releases workers that are not idle.  The invariant is kept if none of them is on
its way to a target, and if `stopAll` is called when all other calls have returned, is the
last call, and does not give up waiting for a worker.

## Main definitions

* `InPool`, `Released`: a worker before and after it is told to end.
* `Evolves`: how a worker of the pool may change while others rely on it, where `cs` are the targets
  completed after that.
* `Pool`, `PC.Sound`: what threads rely on a part of, and what a thread relies on where it is.
* `Places`: what holds of the places of threads, where `m` is who has the mutex and `stopCalled`
  says that `stopAll` has been called.
* `Inv`: what holds in every state that is reached.

## Main results

* `PC.Sound.evolve`: what a thread relies on is kept when a worker changes not marked for it.
* `Inv.all_completed`: all targets are completed when no worker is left.
-/

namespace Poco

/-! ### The states of a worker -/

namespace PooledThread

variable {p : PooledThread}

/-- The target a worker has, on its way to it or running it. -/
def job (p : PooledThread) : Option ℕ :=
  match p.pc with
  | .running target => some target
  | _ => p.pTarget

def current (p : PooledThread) : Option ℕ :=
  match p.pc with
  | .running target => some target
  | _ => none

variable {target : ℕ}

theorem job_of_current (h : p.current = some target) : p.job = some target := by
  unfold current at h
  unfold job
  split at h
  · exact h
  · cases h

inductive InPool : PooledThread → Prop
  | idle (since : ℤ) (completed : Bool) : InPool ⟨true, since, none, false, completed, .waiting⟩
  | activated (since : ℤ) : InPool ⟨false, since, none, false, false, .waiting⟩
  | assigned (since : ℤ) (target : ℕ) : InPool ⟨false, since, some target, true, false, .waiting⟩
  | woken (since : ℤ) (target : ℕ) : InPool ⟨false, since, some target, false, false, .woken⟩
  | dispatching (since : ℤ) (target : ℕ) :
    InPool ⟨false, since, some target, false, false, .dispatching⟩
  | running (since : ℤ) (target : ℕ) :
    InPool ⟨false, since, some target, false, false, .running target⟩

structure Released (p : PooledThread) : Prop where
  pTarget : p.pTarget = none
  pc : p.pc ≠ .dispatching

structure Activated (p : PooledThread) : Prop where
  inPool : p.InPool
  idle : p.idle = false
  job : p.job = none

/-- A worker runs the target it has, if it has one. -/
def Entered (p : PooledThread) : Prop := p.job = p.current

instance : DecidablePred Entered := fun p => inferInstanceAs (Decidable (p.job = p.current))

theorem InPool.job_of_idle (hp : p.InPool) (hi : p.idle = true) : p.job = none := by
  cases hp with
  | idle => rfl
  | activated | assigned | woken | dispatching | running => cases hi

theorem InPool.entered_of_idle (hp : p.InPool) (hi : p.idle = true) : p.Entered := by
  cases hp with
  | idle => rfl
  | activated | assigned | woken | dispatching | running => cases hi

/-- A worker whose event says that its target is completed has no other target. -/
theorem InPool.job_of_completed (hp : p.InPool) (hc : p.targetCompleted = true) : p.job = none := by
  cases hp with
  | idle => rfl
  | activated | assigned | woken | dispatching | running => cases hc

theorem InPool.job_of_pTarget (hp : p.InPool) (hn : p.pTarget = none) : p.job = none := by
  cases hp with
  | idle | activated => rfl
  | assigned | woken | dispatching | running => cases hn

theorem InPool.pTarget_of_dispatching (hp : p.InPool) (hpc : p.pc = .dispatching) :
    ∃ target, p.pTarget = some target := by
  cases hp with
  | dispatching _ target => exact ⟨target, rfl⟩
  | idle | activated | assigned | woken | running => cases hpc

theorem inPool_new (now : ℤ) : (new now).InPool := .idle now false

theorem InPool.released_clear (hp : p.InPool) (he : p.Entered) : p.clear.Released := by
  refine ⟨rfl, ?_⟩
  cases hp with
  | dispatching => cases he
  | idle | activated | assigned | woken | running => exact nofun

theorem InPool.job_clear (hp : p.InPool) (he : p.Entered) : p.clear.job = p.job := by
  cases hp with
  | assigned | woken | dispatching => cases he
  | idle | activated | running => rfl

theorem current_clear : p.clear.current = p.current := rfl

theorem pc_signal : p.signal.pc = p.pc := by
  unfold signal
  split <;> rfl

theorem pTarget_signal : p.signal.pTarget = p.pTarget := by
  unfold signal
  split <;> rfl

theorem Released.signal (hp : p.Released) : p.signal.Released :=
  ⟨pTarget_signal.trans hp.pTarget, by rw [pc_signal]; exact hp.pc⟩

theorem job_signal : p.signal.job = p.job := by
  simp [job, pc_signal, pTarget_signal]

theorem current_signal : p.signal.current = p.current := by
  simp [current, pc_signal]

theorem Released.job_of_ended (hp : p.Released) (hpc : p.pc = .ended) : p.job = none := by
  simp [job, hpc, hp.pTarget]

theorem InPool.activate (hp : p.InPool) (hi : p.idle = true) :
    ∃ p', p.activate = some p' ∧ p'.Activated ∧ p'.job = p.job ∧ p'.current = p.current := by
  cases hp with
  | idle since completed => exact ⟨_, rfl, ⟨.activated since, rfl, rfl⟩, rfl, rfl⟩
  | activated | assigned | woken | dispatching | running => cases hi

theorem Activated.start (hp : p.Activated) (target : ℕ) :
    ∃ p', p.start target = some p' ∧ p'.InPool ∧ p'.job = some target ∧
      p'.current = p.current := by
  obtain ⟨hin, hi, hj⟩ := hp
  cases hin with
  | activated since => exact ⟨_, rfl, .assigned since target, rfl, rfl⟩
  | idle => cases hi
  | assigned | woken | dispatching | running => cases hj

theorem Activated.waits (hp : p.Activated) : p.pc = .waiting ∧ p.targetReady = false := by
  obtain ⟨hin, hi, hj⟩ := hp
  cases hin with
  | activated since => exact ⟨rfl, rfl⟩
  | idle => cases hi
  | assigned | woken | dispatching | running => cases hj

structure Evolves (cs : List ℕ) (p p' : PooledThread) : Prop where
  inPool : p.InPool → p'.InPool
  idle : p.idle = true → p'.idle = true
  job : ∀ j, p.job = some j → p'.job = some j ∨ j ∈ cs

theorem InPool.wake (hp : p.InPool) (hpc : p.pc = .waiting) (hr : p.targetReady = true) :
    p.wake.InPool := by
  cases hp with
  | assigned since target => exact .woken since target
  | idle | activated | running => cases hr
  | woken | dispatching => cases hpc

theorem InPool.look (hp : p.InPool) (hpc : p.pc = .woken) : p.look.InPool := by
  cases hp with
  | woken since target => exact .dispatching since target
  | idle | activated | assigned | dispatching | running => cases hpc

theorem InPool.enter (hp : p.InPool) (hpc : p.pc = .dispatching) (ht : p.pTarget = some target) :
    (p.enter target).InPool := by
  cases hp with
  | dispatching since =>
    cases ht
    exact .running since target
  | idle | activated | assigned | woken | running => cases hpc

theorem InPool.complete (hp : p.InPool) (hpc : p.pc = .running target) (now : ℤ) :
    (p.complete now).InPool := by
  cases hp with
  | running => exact .idle now true
  | idle | activated | assigned | woken | dispatching => cases hpc

theorem Released.look (hp : p.Released) : p.look.Released := by
  refine ⟨hp.pTarget, ?_⟩
  rw [PooledThread.look, if_pos hp.pTarget]
  exact nofun

theorem job_wake (hpc : p.pc = .waiting) : p.wake.job = p.job := by
  simp [job, hpc, wake]

theorem current_wake (hpc : p.pc = .waiting) : p.wake.current = p.current := by
  simp [current, hpc, wake]

theorem job_look (hpc : p.pc = .woken) : p.look.job = p.job := by
  by_cases ht : p.pTarget = none
  · simp [job, hpc, look, if_pos ht]
  · simp [job, hpc, look, if_neg ht]

theorem current_look (hpc : p.pc = .woken) : p.look.current = p.current := by
  by_cases ht : p.pTarget = none
  · simp [current, hpc, look, if_pos ht]
  · simp [current, hpc, look, if_neg ht]

theorem job_enter (hpc : p.pc = .dispatching) (ht : p.pTarget = some target) :
    (p.enter target).job = p.job := by
  simp [job, hpc, enter, ht]

end PooledThread

namespace ThreadPool

open PooledThread List

variable {T : Type}

/-! ### Where threads are -/

def PC.Inside : PC → Prop
  | idle | calling _ _ | assigning _ => False
  | _ => True

def PC.Stopping : PC → Prop
  | calling c _ => c = .stopAll
  | releasing k _ | signalling k _ _ | joining k _ _ => k = .stop
  | _ => False

def PC.stopList : PC → List ℕ
  | releasing .stop todo => todo
  | signalling .stop w todo | joining .stop w todo => w :: todo
  | _ => []

structure Pool where
  heap : Heap PooledThread
  threads : List ℕ
  started : ℕ
  completed : List ℕ

def State.pool (s : State T) : Pool := ⟨s.heap, s.threads, s.started, s.completed⟩

/-- What a thread relies on for the rest of its call. -/
def After.Sound (q : Pool) : After → Prop
  | joined before => ∀ j < before, j ∈ q.completed
  | stop => q.threads = []
  | _ => True

structure Releasable (q : Pool) (k : After) (todo : List ℕ) : Prop where
  nodup : todo.Nodup
  notMem : ∀ w ∈ todo, w ∉ q.threads
  has : ∀ w ∈ todo, q.heap.Has w fun p => p.InPool ∧ (k ≠ .stop → p.idle = true)

/-- A worker that is being released, and others that can be. -/
structure Releases (q : Pool) (k : After) (w : ℕ) (todo : List ℕ) : Prop where
  others : Releasable q k todo
  notMem_todo : w ∉ todo
  notMem : w ∉ q.threads
  has : q.heap.Has w Released

/-- The targets that `joinAll` has to wait for are completed, or with workers to come. -/
structure Awaits (q : Pool) (before : ℕ) (rest : List ℕ) : Prop where
  mem : ∀ w ∈ rest, w ∈ q.threads
  job : ∀ j < before, j ∈ q.completed ∨ ∃ w ∈ rest, q.heap.Has w fun p => p.job = some j

/-- What `housekeep` has found out about workers. -/
structure Examined (q : Pool) (rest idleThreads activeThreads : List ℕ) : Prop where
  perm : (rest ++ idleThreads ++ activeThreads).Perm q.threads
  idle : ∀ w ∈ idleThreads, q.heap.Has w fun p => p.idle = true

def PC.Sound (q : Pool) : PC → Prop
  | idle => True
  | calling _ before => before ≤ q.started
  | examining k rest idleThreads expiredThreads activeThreads =>
    k ≠ .stop ∧ k.Sound q ∧ Examined q rest (idleThreads ++ expiredThreads) activeThreads
  | releasing k todo => k.Sound q ∧ Releasable q k todo
  | signalling k w todo | joining k w todo => k.Sound q ∧ Releases q k w todo
  | searching rest => ∀ w ∈ rest, w ∈ q.threads
  | activating w => w ∈ q.threads ∧ q.heap.Has w fun p => p.idle = true
  | assigning w => w ∈ q.threads ∧ q.heap.Has w Activated
  | reading before rest => Awaits q before rest
  | awaiting before w rest => Awaits q before (w :: rest)

structure Places (m : Option T) (pc : T → PC) (stopCalled : Bool) : Prop where
  /-- The mutex is held by the thread inside. -/
  mutex : ∀ t, (pc t).Inside → m = some t
  unique : ∀ t t' w, pc t = .assigning w → pc t' = .assigning w → t = t'
  stopping : ∀ t, (pc t).Stopping → stopCalled = true
  /-- After `stopAll` is called no thread does anything else. -/
  alone : stopCalled = true → ∀ t, pc t = .idle ∨ (pc t).Stopping

structure Inv (s : State T) : Prop where
  places : Places s.mutex s.pc s.stopCalled
  sound : ∀ t, (s.pc t).Sound s.pool
  nodup : s.threads.Nodup
  /-- The workers of the pool have not been told to end. -/
  inPool : ∀ w ∈ s.threads, s.heap.Has w InPool
  /-- Every worker is before or after that. -/
  workers : ∀ w p, s.heap.get w = some p → p.InPool ∨ p.Released
  /-- A worker with a target is in the pool, or `stopAll` waits for it. -/
  busy : ∀ w p, s.heap.get w = some p → p.job ≠ none →
    w ∈ s.threads ∨ ∃ t, w ∈ (s.pc t).stopList
  /-- Every target is with one worker or completed. -/
  ledger : (List.range s.started).Perm (s.heap.gather job ++ s.completed)
  /-- Every target that was run is being run by one worker or completed. -/
  ran : (s.runs.map Prod.fst).Perm (s.heap.gather current ++ s.completed)
  joined : ∀ j < s.joined, j ∈ s.completed
  returned : s.stopReturned = true → s.stopCalled = true ∧ ∀ j < s.started, j ∈ s.completed
  faults : s.faults = []

variable {t : T}

theorem Inv.sound_of (hs : Inv s) {c : PC} (hpc : s.pc t = c) : c.Sound s.pool :=
  hpc ▸ hs.sound t

theorem gather_fresh (P : Settings) {f : PooledThread → Option ℕ} (hf : f (.new 0) = none) :
    (State.fresh P : State T).heap.gather f = [] := by
  apply Heap.gather_eq_nil
  intro w p hp
  rw [Heap.eq_of_get_fill hp, hf]

theorem inv_fresh (P : Settings) : Inv (.fresh P : State T) where
  places := ⟨nofun, nofun, nofun, nofun⟩
  sound _ := trivial
  nodup := nodup_range
  inPool w hw := ⟨_, Heap.get_fill (mem_range.mp hw), inPool_new 0⟩
  workers w p hp := by
    rw [Heap.eq_of_get_fill hp]
    exact .inl (inPool_new 0)
  busy w p hp hj := by
    rw [Heap.eq_of_get_fill hp] at hj
    exact absurd rfl hj
  ledger := by
    rw [gather_fresh P rfl]
    exact .refl _
  ran := by
    rw [gather_fresh P rfl]
    exact .refl _
  joined := nofun
  returned := nofun
  faults := rfl

variable {c : PC}

theorem PC.inside_of_mem_stopList (hw : w ∈ c.stopList) : c.Inside := by
  cases c with
  | releasing | signalling | joining => trivial
  | idle | calling | examining | searching | activating | assigning | reading | awaiting =>
    cases hw

theorem PC.stopping_of_mem_stopList (hw : w ∈ c.stopList) : c.Stopping := by
  cases c with
  | releasing k | signalling k | joining k =>
    cases k with
    | stop => rfl
    | getThread | unlock | joined => cases hw
  | idle | calling | examining | searching | activating | assigning | reading | awaiting =>
    cases hw

theorem Places.eq_of_inside {m : Option T} {pc : T → PC} {b : Bool} (hs : Places m pc b)
    (hm : m = some t) {t' : T} (ht' : (pc t').Inside) : t' = t :=
  Option.some.inj ((hs.mutex t' ht').symm.trans hm)

/-- A worker with a target is in the pool, or the thread with the mutex waits for it. -/
theorem Inv.busy_of_mutex (hs : Inv s) (hm : s.mutex = some t) (hp : s.heap.get w = some p)
    (hj : p.job ≠ none) : w ∈ s.threads ∨ w ∈ (s.pc t).stopList := by
  refine (hs.busy w p hp hj).imp_right ?_
  rintro ⟨t', hw⟩
  obtain rfl := hs.places.eq_of_inside hm (PC.inside_of_mem_stopList hw)
  exact hw

theorem Inv.mem_threads (hs : Inv s) (hc : s.stopCalled = false) (hp : s.heap.get w = some p)
    (hj : p.job ≠ none) : w ∈ s.threads := by
  rcases hs.busy w p hp hj with hw | ⟨t, ht⟩
  · exact hw
  · rw [hs.places.stopping t (PC.stopping_of_mem_stopList ht)] at hc
    cases hc

theorem Inv.exists_job (hs : Inv s) (hj : j < s.started) :
    j ∈ s.completed ∨ ∃ w p, s.heap.get w = some p ∧ p.job = some j := by
  rcases mem_append.mp (hs.ledger.mem_iff.mp (mem_range.mpr hj)) with h | h
  · exact .inr (Heap.mem_gather.mp h)
  · exact .inl h

/-- What a thread outside relies on are the targets started and the worker marked for it. -/
theorem PC.Sound.outside (hc : c.Sound q) (hout : ¬ c.Inside) (hn : q.started ≤ q'.started)
    (hass : ∀ w, c = .assigning w → w ∈ q.threads → q.heap.Has w Activated →
      w ∈ q'.threads ∧ q'.heap.Has w Activated) : c.Sound q' := by
  cases c with
  | idle => trivial
  | calling _ before => exact hc.trans hn
  | assigning w => exact hass w rfl hc.1 hc.2
  | examining | releasing | signalling | joining | searching | activating | reading
  | awaiting => exact absurd trivial hout

theorem PC.Sound.evolve (hc : c.Sound q) (hp : q.heap.get w = some p) (hev : Evolves cs p p')
    (hrel : w ∈ q.threads ∨ (p.Released → p'.Released)) (hne : c ≠ .assigning w)
    (hcs : q.completed ⊆ cs) (hn : q.started ≤ n) :
    c.Sound ⟨q.heap.set w p', q.threads, n, cs⟩ := by
  have haft : ∀ k : After, k.Sound q → k.Sound ⟨q.heap.set w p', q.threads, n, cs⟩ := by
    intro k hk
    cases k with
    | joined before =>
      intro j hj
      exact hcs (hk j hj)
    | stop => exact hk
    | getThread | unlock => trivial
  have hrls : ∀ k todo, Releasable q k todo →
      Releasable ⟨q.heap.set w p', q.threads, n, cs⟩ k todo := by
    intro k todo h
    refine ⟨h.nodup, h.notMem, ?_⟩
    intro v hv
    exact (h.has v hv).set hp fun hpk => ⟨hev.inPool hpk.1, fun hk => hev.idle (hpk.2 hk)⟩
  have hrele : ∀ k v todo, Releases q k v todo →
      Releases ⟨q.heap.set w p', q.threads, n, cs⟩ k v todo := by
    intro k v todo h
    refine ⟨hrls k todo h.others, h.notMem_todo, h.notMem, ?_⟩
    rcases hrel with hw | hrel
    · refine h.has.set_of_ne ?_
      rintro rfl
      exact h.notMem hw
    · exact h.has.set hp hrel
  have hawa : ∀ before rest, Awaits q before rest →
      Awaits ⟨q.heap.set w p', q.threads, n, cs⟩ before rest := by
    intro before rest h
    refine ⟨h.mem, ?_⟩
    intro j hj
    rcases h.job j hj with hdone | ⟨v, hv, hjob⟩
    · exact .inl (hcs hdone)
    by_cases hvw : v = w
    · subst hvw
      refine (hev.job j (hjob.of_get hp)).symm.imp_right ?_
      intro hj'
      exact ⟨v, hv, p', Heap.get_set_self hp, hj'⟩
    · exact .inr ⟨v, hv, hjob.set_of_ne hvw⟩
  cases c with
  | idle => trivial
  | calling _ before => exact hc.trans hn
  | examining k rest i e a =>
    refine ⟨hc.1, haft k hc.2.1, hc.2.2.perm, ?_⟩
    intro v hv
    exact (hc.2.2.idle v hv).set hp hev.idle
  | releasing k todo => exact ⟨haft k hc.1, hrls k todo hc.2⟩
  | signalling k v todo | joining k v todo => exact ⟨haft k hc.1, hrele k v todo hc.2⟩
  | searching rest => exact hc
  | activating v => exact ⟨hc.1, hc.2.set hp hev.idle⟩
  | assigning v =>
    refine ⟨hc.1, hc.2.set_of_ne ?_⟩
    rintro rfl
    exact hne rfl
  | reading before rest => exact hawa before rest hc
  | awaiting before v rest => exact hawa before (v :: rest) hc

/-! ### Steps that only move a thread -/

section Move

variable [DecidableEq T] {pc : T → PC}

theorem Places.move (hs : Places m₀ pc b) (hm : m₀ = m ∨ m₀ = none ∨ m₀ = some t)
    (hin : c.Inside → m = some t) (hne : ∀ w t', c = .assigning w → pc t' ≠ .assigning w)
    (hstop : c.Stopping → b = true) (halo : b = true → c = .idle ∨ c.Stopping) :
    Places m (Function.update pc t c) b where
  mutex := by
    refine Threads.forall_place (Q := fun t c => PC.Inside c → m = some t) hin ?_
    intro t' hne ht'
    have hold := hs.mutex t' ht'
    rcases hm with h | h | h
    · exact h.symm.trans hold
    · cases h.symm.trans hold
    · exact absurd (Option.some.inj (hold.symm.trans h)) hne
  unique t₁ t₂ w h₁ h₂ := by
    rcases Threads.place_cases h₁ with ⟨ht₁, hc⟩ | ⟨-, h₁⟩ <;>
      rcases Threads.place_cases h₂ with ⟨ht₂, hc'⟩ | ⟨-, h₂⟩
    · exact ht₁.trans ht₂.symm
    · exact absurd h₂ (hne w t₂ hc)
    · exact absurd h₁ (hne w t₁ hc')
    · exact hs.unique t₁ t₂ w h₁ h₂
  stopping := by
    refine Threads.forall_place (Q := fun _ c => PC.Stopping c → b = true) hstop ?_
    intro t' _
    exact hs.stopping t'
  alone hb := by
    refine Threads.forall_place (Q := fun _ c => c = PC.idle ∨ PC.Stopping c) (halo hb) ?_
    intro t' _
    exact hs.alone hb t'

theorem Places.within (hs : Places m₀ pc b) (hpc : pc t = c) (hc : c.Inside) (hc' : c'.Inside)
    (hstop : c'.Stopping ↔ c.Stopping) : Places m₀ (Function.update pc t c') b := by
  refine hs.move (.inl rfl) (fun _ => hs.mutex t (hpc ▸ hc)) ?_ ?_ ?_
  · rintro w t' rfl
    exact hc'.elim
  · intro h
    exact hs.stopping t (hpc ▸ hstop.mp h)
  · intro hb
    rcases hs.alone hb t with hidle | hst
    · rw [hpc.symm.trans hidle] at hc
      exact hc.elim
    · exact .inr (hstop.mpr (hpc ▸ hst))

theorem Inv.move (hs : Inv s) (hpla : Places m (Function.update s.pc t c) s.stopCalled)
    (hsnd : c.Sound s.pool) (hlist : (s.pc t).stopList ⊆ c.stopList) {a : ℕ} {n : ℤ} {j : ℕ}
    {r : Bool} (hj : ∀ i < j, i ∈ s.completed)
    (hr : r = true → s.stopCalled = true ∧ ∀ i < s.started, i ∈ s.completed) :
    Inv { s with
      pc := Function.update s.pc t c, mutex := m, age := a, maxCapacity := n, joined := j,
      stopReturned := r } :=
  { hs with
    places := hpla
    sound := by
      refine Threads.forall_place hsnd ?_
      intro t' _
      exact hs.sound t'
    busy := by
      intro w p hp hjob
      refine (hs.busy w p hp hjob).imp_right ?_
      intro ht
      exact Threads.exists_place (Q := fun c => w ∈ PC.stopList c) ht fun hw => hlist hw
    joined := hj
    returned := hr }

theorem Inv.within (hs : Inv s) (hpc : s.pc t = c) (hc : c.Inside) (hc' : c'.Inside)
    (hsnd : c'.Sound s.pool) (hlist : c.stopList ⊆ c'.stopList)
    (hstop : c'.Stopping ↔ c.Stopping) : Inv (s.goto t c') :=
  hs.move (hs.places.within hpc hc hc' hstop) hsnd (hpc ▸ hlist) hs.joined hs.returned

omit [DecidableEq T] in
theorem Inv.lock (hs : Inv s) (hm : s.mutex = none) : Inv { s with mutex := some t } :=
  { hs with
    places := { hs.places with
      mutex := by
        intro t' ht'
        cases hm.symm.trans (hs.places.mutex t' ht') } }

/-! ### Beginning and ending a call -/

omit [DecidableEq T] in
theorem Inv.all_completed (hs : Inv s) (hm : s.mutex = some t) (hth : s.threads = [])
    (hlist : (s.pc t).stopList = []) : ∀ j < s.started, j ∈ s.completed := by
  intro j hj
  rcases hs.exists_job hj with h | ⟨w, p, hp, hjob⟩
  · exact h
  · rcases hs.busy_of_mutex hm hp (by rw [hjob]; exact nofun) with hw | hw
    · rw [hth] at hw
      cases hw
    · rw [hlist] at hw
      cases hw

theorem Inv.leave (hs : Inv s) (hm : s.mutex = some t) (hk : k.Sound s.pool)
    (hlist : (s.pc t).stopList = []) (hstop : s.stopCalled = true ↔ k = .stop) :
    Inv (s.leave t k) := by
  have hnil : ∀ c : PC, (s.pc t).stopList ⊆ c.stopList := by
    intro c
    rw [hlist]
    exact nil_subset _
  have hidle : Places none (Function.update s.pc t .idle) s.stopCalled :=
    hs.places.move (.inr (.inr hm)) nofun nofun nofun fun _ => .inl rfl
  cases k with
  | getThread =>
    refine hs.move ?_ ?_ (hnil _) hs.joined hs.returned
    · refine hs.places.move (.inl rfl) (fun _ => hm) nofun nofun ?_
      intro hc
      cases hstop.mp hc
    · intro w hw
      exact hw
  | unlock => exact hs.move hidle trivial (hnil _) hs.joined hs.returned
  | joined before =>
    refine hs.move hidle trivial (hnil _) ?_ hs.returned
    intro i hi
    by_cases hold : i < s.joined
    · exact hs.joined i hold
    · exact hk i (by omega)
  | stop =>
    refine hs.move hidle trivial (hnil _) hs.joined ?_
    intro _
    exact ⟨hstop.mpr rfl, hs.all_completed hm hk hlist⟩

theorem Inv.housekeep (hs : Inv s) (P : Settings) (hm : s.mutex = some t)
    (hk : k.Sound s.pool) (hne : k ≠ .stop) (hlist : (s.pc t).stopList = [])
    (hc : s.stopCalled = false) : Inv (s.housekeep P t k) := by
  have hstop : s.stopCalled = true ↔ k = .stop :=
    ⟨fun h => absurd (hc.symm.trans h) nofun, fun h => absurd h hne⟩
  unfold State.housekeep
  dsimp only
  split
  · have hs' : Inv { s with age := 0 } := { hs with nodup := hs.nodup }
    exact hs'.leave hm hk hlist hstop
  refine hs.move ?_ ?_ ?_ hs.joined hs.returned
  · refine hs.places.move (.inl rfl) (fun _ => hm) nofun nofun ?_
    intro h
    cases hc.symm.trans h
  · refine ⟨hne, hk, ?_, nofun⟩
    simp only [append_nil]
    exact .refl _
  · rw [hlist]
    exact nil_subset _

end Move

end ThreadPool

end Poco
