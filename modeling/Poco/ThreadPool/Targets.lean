import Poco.Lib.Fairness
import Poco.ThreadPool.Outcome
import Mathlib.Data.Fintype.Basic

/-!
# What becomes of the targets of a thread pool

Without `stopAll` every target that was started is run once, by one worker, and a call of
`joinAll` waits for the targets started before it.  That a target is run at all needs workers
that are not held up forever, which is a matter of fairness.

`stopAll` may come between a worker that was woken and its target.  The worker then ends
without running the target, or calls `run` through a null pointer if it has looked at the
target already.  If every worker that `stopAll` releases is running its target or has none,
all targets are completed when `stopAll` returns.

## Main definitions

* `RunsOnce`: what holds of the targets of a pool at any time.
* `Heading`, `distance`: a worker is on its way to a target, and the steps it still has to take.
* `Within`: the number of workers in the pool is within its capacities.

## Main results

* `exists_run`: a target that was started is run, if no worker is held up forever on its way.
* `runs_each_target_once`, `stopAll_waits`: what becomes of targets without `stopAll` and with it.
* `stopAll_loses_target`: a target may be lost.
* `within_capacities`: a pool has at least the minimum of workers and at most the maximum.
-/

namespace Poco

namespace ThreadPool

open PooledThread State Heap List

variable {T : Type} [DecidableEq T] {P : Settings} {s s' : State T} {t : T}

/-! ### Pools that are not stopped -/

def NoStop (_ : State T) (a : Action T) : Prop := ∀ t, a ≠ .call t .stopAll

/-- What a call leaves alone until it takes a worker: the record of `stopAll` and the heap. -/
structure Frame (s s' : State T) : Prop where
  stopCalled : s'.stopCalled = s.stopCalled
  heap : s'.heap = s.heap

theorem frame_leave (k : After) : Frame s (s.leave t k) := by
  cases k with
  | getThread | unlock | joined | stop => exact ⟨rfl, rfl⟩

theorem frame_housekeep (k : After) : Frame s (s.housekeep P t k) := by
  unfold housekeep
  dsimp only
  split
  · exact ⟨(frame_leave _).stopCalled, (frame_leave _).heap⟩
  · exact ⟨rfl, rfl⟩

theorem frame_begin (before : ℕ) (call : Call) : Frame s (s.begin P t before call) := by
  cases call with
  | start =>
    unfold begin
    dsimp only
    split
    · exact frame_housekeep _
    · exact ⟨rfl, rfl⟩
  | addCapacity n =>
    unfold begin
    dsimp only
    split
    · exact ⟨(frame_housekeep _).stopCalled, (frame_housekeep _).heap⟩
    · exact ⟨(frame_leave _).stopCalled, (frame_leave _).heap⟩
  | collect => exact frame_housekeep _
  | joinAll | stopAll => exact ⟨rfl, rfl⟩

theorem Outcome.stopCalled (h : Outcome P s t fails s') : s'.stopCalled = s.stopCalled := by
  cases h with
  | begin => exact (frame_begin ..).stopCalled
  | leave | refuse => exact (frame_leave _).stopCalled
  | joined => exact (frame_housekeep _).stopCalled
  | examine | keep | clear | signal | delete | giveUp | search | create | activate | assign
  | read | await => rfl

section

omit [DecidableEq T]

/-- A worker changes nothing but itself and the notes on targets. -/
theorem work_eq_some (h : s.work w = some s') :
    s'.stopCalled = s.stopCalled ∧ (s'.heap = s.heap ∨ ∃ p, s'.heap = s.heap.set w p) := by
  unfold work at h
  split at h
  · cases h
  split at h
  · split at h
    · cases h
      exact ⟨rfl, .inr ⟨_, rfl⟩⟩
    · cases h
  · cases h
    exact ⟨rfl, .inr ⟨_, rfl⟩⟩
  · split at h
    · cases h
      exact ⟨rfl, .inr ⟨_, rfl⟩⟩
    · cases h
      exact ⟨rfl, .inl rfl⟩
  · cases h
  · cases h

theorem get_work (h : s.work v = some s') (hne : w ≠ v) : s'.heap.get w = s.heap.get w := by
  rcases (work_eq_some h).2 with heq | ⟨p, heq⟩
  · rw [heq]
  · rw [heq, get_set_of_ne hne]

theorem finish_eq_some (h : s.finish w = some s') :
    ∃ p target, s.heap.get w = some p ∧ p.pc = .running target ∧ s' = { s with
      heap := s.heap.set w (p.complete s.clock), completed := target :: s.completed } := by
  unfold finish at h
  split at h
  · cases h
  next p hp =>
  split at h
  · next target hpc =>
    cases h
    exact ⟨p, target, hp, hpc, rfl⟩
  · cases h

theorem Inv.conditions (hs : Inv s) (hc : s.stopCalled = false)
    (ha : NoStop s a) : Orderly s a ∧ ReleasesEntered s a := by
  have hnot : ∀ t, ¬ (s.pc t).Stopping := by
    intro t ht
    cases hc.symm.trans (hs.places.stopping t ht)
  cases a with
  | tick | work | finish => exact ⟨trivial, trivial⟩
  | call t c =>
    refine ⟨⟨hc, ?_⟩, trivial⟩
    rintro rfl
    exact absurd rfl (ha t)
  | advance t fails =>
    refine ⟨fun _ => hnot t, ?_⟩
    unfold ReleasesEntered
    dsimp only
    split
    · next k w todo hpc =>
      intro p hp
      obtain ⟨hin, hidle⟩ := ((hs.sound_of hpc).2.has w (mem_cons_self ..)).of_get hp
      refine hin.entered_of_idle (hidle ?_)
      rintro rfl
      exact hnot t (hpc ▸ rfl)
    · trivial

end

/-- A step other than a call of `stopAll` keeps the invariant of a pool that is not stopped. -/
theorem Inv.step_of_noStop (hs : Inv s) (hc : s.stopCalled = false)
    (ha : NoStop s a) (h : ThreadPool.step P s a = some s') : Inv s' ∧ s'.stopCalled = false := by
  obtain ⟨hord, hent⟩ := hs.conditions hc ha
  refine ⟨hs.step hord hent h, ?_⟩
  cases a with
  | tick d =>
    cases h
    exact hc
  | call t c =>
    unfold ThreadPool.step at h
    dsimp only at h
    split at h
    · cases h
      have hne : c ≠ .stopAll := by
        rintro rfl
        exact ha t rfl
      rw [hc, decide_eq_false hne, Bool.or_false]
    · cases h
  | advance t fails => exact (hs.outcome h).stopCalled.trans hc
  | work w => exact (work_eq_some h).1.trans hc
  | finish w =>
    obtain ⟨p, target, -, -, rfl⟩ := finish_eq_some h
    exact hc

theorem inv_of_noStop (h : (threads P T).ReachedBy NoStop s) : Inv s ∧ s.stopCalled = false := by
  refine Machine.ReachedBy.invariant (I := fun s => Inv s ∧ s.stopCalled = false)
    ⟨inv_fresh P, rfl⟩ ?_ h
  rintro s a s' ⟨hs, hc⟩ ha hstep
  exact hs.step_of_noStop hc ha hstep

/-! ### No target is run twice -/

structure RunsOnce (s : State T) : Prop where
  /-- No target is run twice, by one worker or by two. -/
  once : (s.runs.map Prod.fst).Nodup
  /-- Only targets are run whose call of `start` has returned. -/
  started : ∀ r ∈ s.runs, r.1 < s.started
  /-- A target that is completed was run. -/
  run : ∀ j ∈ s.completed, ∃ w, (j, w) ∈ s.runs
  /-- The targets started before a call of `joinAll` are completed if that has returned. -/
  joined : ∀ j < s.joined, j ∈ s.completed
  /-- No assertion failed, no worker was used after it was deleted, and no worker called `run`
  through a null pointer. -/
  noFault : s.faults = []

omit [DecidableEq T] in
theorem Inv.runsOnce (hs : Inv s) : RunsOnce s := by
  have hsub : (s.heap.gather current ++ s.completed).Sublist (s.heap.gather job ++ s.completed) :=
    (gather_sublist fun _ _ h => job_of_current h).append (.refl _)
  have hnd : (s.heap.gather job ++ s.completed).Nodup :=
    hs.ledger.nodup_iff.mp nodup_range
  refine ⟨hs.ran.nodup_iff.mpr (hnd.sublist hsub), ?_, ?_, hs.joined, hs.faults⟩
  · intro r hr
    have hmem := hs.ran.mem_iff.mp (mem_map_of_mem hr)
    exact mem_range.mp (hs.ledger.mem_iff.mpr (hsub.subset hmem))
  · intro j hj
    obtain ⟨⟨i, w⟩, hr, rfl⟩ :=
      mem_map.mp (hs.ran.mem_iff.mpr (mem_append_right _ hj))
    exact ⟨w, hr⟩

/-! ### Every target is run -/

/-- Only the worker itself touches a target that it does not run yet. -/
theorem Inv.frame (hs : Inv s) (hc : s.stopCalled = false)
    (hp : s.heap.get w = some p) (hj : p.job ≠ none) (hcur : p.current = none)
    (ha : a ≠ .work w) (h : ThreadPool.step P s a = some s') : s'.heap.get w = some p := by
  have hw : w ∈ s.threads := hs.mem_threads hc hp hj
  cases a with
  | tick d =>
    cases h
    exact hp
  | call t c =>
    unfold ThreadPool.step at h
    dsimp only at h
    split at h
    · cases h
      exact hp
    · cases h
  | advance t fails =>
    have hsnd := hs.sound t
    cases hs.outcome h with
    | begin => rwa [(frame_begin ..).heap]
    | leave | refuse => rwa [(frame_leave _).heap]
    | joined => rwa [(frame_housekeep _).heap]
    | examine | keep | giveUp | search | read | await => exact hp
    | @clear k v todo q hpc hq =>
      rw [hpc] at hsnd
      refine (get_set_of_ne ?_).trans hp
      rintro rfl
      exact hsnd.2.notMem w (mem_cons_self ..) hw
    | @signal k v todo q hpc hq | @delete k v todo q hpc hq =>
      rw [hpc] at hsnd
      have hne : w ≠ v := by
        rintro rfl
        exact hsnd.2.notMem hw
      first | exact (get_set_of_ne hne).trans hp | exact (get_delete_of_ne hne).trans hp
    | create => exact (get_new_of_ne (ne_next_of_get hp)).trans hp
    | @activate v q q' hpc hq hact hjob =>
      refine (get_set_of_ne ?_).trans hp
      rintro rfl
      cases hq.symm.trans hp
      exact hj (hjob.symm.trans hact.job)
    | @assign v q q' hpc hq =>
      rw [hpc] at hsnd
      refine (get_set_of_ne ?_).trans hp
      rintro rfl
      exact hj (hsnd.2.of_get hp).job
  | work v =>
    have hne : w ≠ v := by
      rintro rfl
      exact ha rfl
    exact (get_work h hne).trans hp
  | finish v =>
    obtain ⟨q, target, hq, hpc, rfl⟩ := finish_eq_some h
    refine (get_set_of_ne ?_).trans hp
    rintro rfl
    cases hq.symm.trans hp
    simp only [current, hpc] at hcur
    cases hcur

def Heading (w j : ℕ) (s : State T) : Prop :=
  s.heap.Has w fun p => p.InPool ∧ p.job = some j ∧ p.current = none

def distance (w : ℕ) (s : State T) : ℕ :=
  match (s.heap.get w).map PooledThread.pc with
  | some .waiting => 2
  | some .woken => 1
  | _ => 0

omit [DecidableEq T] in
theorem Heading.work (hw : Heading w j s) : ∃ s', s.work w = some s' ∧
      ((j, w) ∈ s'.runs ∨ Heading w j s' ∧ distance w s' < distance w s) := by
  obtain ⟨p, hp, hin, hj, hcur⟩ := hw
  have hclo : ∀ p' : PooledThread, s.work w = some { s with heap := s.heap.set w p' } →
      p'.InPool → p'.job = some j → p'.current = none →
      distance w { s with heap := s.heap.set w p' } < distance w s → ∃ s', s.work w = some s' ∧
        ((j, w) ∈ s'.runs ∨ Heading w j s' ∧ distance w s' < distance w s) := by
    intro p' hwork hin' hj' hcur' hlt
    exact ⟨_, hwork, .inr ⟨⟨p', get_set_self hp, hin', hj', hcur'⟩, hlt⟩⟩
  cases hin with
  | assigned since target | woken since target =>
    apply hclo
    · simp only [State.work, hp]
      rfl
    · constructor
    · exact hj
    · rfl
    · simp only [distance, hp, get_set_self hp, Option.map_some]
      exact Nat.lt_succ_self _
  | dispatching since target =>
    cases hj
    have hwork : s.work w = some { s with
        heap := s.heap.set w ⟨false, since, some j, false, false, .running j⟩
        runs := (j, w) :: s.runs } := by
      simp only [State.work, hp]
      rfl
    exact ⟨_, hwork, .inl (mem_cons_self ..)⟩
  | idle | activated => cases hj
  | running => cases hcur

section Fairness

variable {b : (threads P T).Behaviour}

theorem inv_at (hb : b.Meets NoStop) (n : ℕ) :
    Inv (b.state n) ∧ (b.state n).stopCalled = false := by
  refine Machine.Behaviour.invariant (I := fun s => Inv s ∧ s.stopCalled = false) hb
    ⟨inv_fresh P, rfl⟩ ?_ n
  rintro s a s' ⟨hs, hc⟩ ha hstep
  exact hs.step_of_noStop hc ha hstep

/-- A worker on its way gets to its target, if it is not held up forever. -/
theorem exists_run_of_heading (hb : b.Meets NoStop)
    (hfair : b.Fair fun a => a = .work w) (hw : Heading w j (b.state n)) :
    ∃ m, n ≤ m ∧ (j, w) ∈ (b.state m).runs := by
  refine Machine.Behaviour.leadsTo_of_rank (P := Heading w j) (Q := fun s => (j, w) ∈ s.runs)
    hfair (distance w) ?_ ?_ (Nat.zero_le n) hw
  · intro m _ hm
    obtain ⟨s', hs', -⟩ := hm.work
    refine ⟨.work w, rfl, ?_⟩
    show (b.state m).work w ≠ none
    rw [hs']
    exact nofun
  · intro m a _ hm ha
    have hstep := b.next m a ha
    by_cases hact : a = .work w
    · subst hact
      obtain ⟨s', hs', h⟩ := hm.work
      cases hs'.symm.trans hstep
      refine h.imp_right ?_
      rintro ⟨hlat, hlt⟩
      exact ⟨hlat, hlt.le, fun _ => hlt⟩
    · obtain ⟨p, hp, hin, hj, hcur⟩ := hm
      obtain ⟨hs, hc⟩ := inv_at hb m
      have hp' := hs.frame hc hp (by rw [hj]; exact nofun) hcur hact hstep
      refine .inr ⟨⟨p, hp', hin, hj, hcur⟩, ?_, fun h => absurd h hact⟩
      unfold distance
      rw [hp, hp']

theorem exists_run (hb : b.Meets NoStop) (hfair : ∀ w, b.Fair fun a => a = .work w)
    (hj : j < (b.state n).started) : ∃ m, n ≤ m ∧ ∃ w, (j, w) ∈ (b.state m).runs := by
  obtain ⟨hs, hc⟩ := inv_at hb n
  rcases hs.exists_job hj with hdone | ⟨w, p, hp, hjob⟩
  · obtain ⟨w, hw⟩ := hs.runsOnce.run j hdone
    exact ⟨n, Nat.le_refl n, w, hw⟩
  cases hcur : p.current with
  | some i =>
    cases (job_of_current hcur).symm.trans hjob
    have hmem : j ∈ (b.state n).heap.gather current := mem_gather.mpr ⟨w, p, hp, hcur⟩
    obtain ⟨⟨i, v⟩, hr, rfl⟩ :=
      mem_map.mp (hs.ran.mem_iff.mpr (mem_append_left _ hmem))
    exact ⟨n, Nat.le_refl n, v, hr⟩
  | none =>
    have hw : w ∈ (b.state n).threads := hs.mem_threads hc hp (by rw [hjob]; exact nofun)
    have hhead : Heading w j (b.state n) :=
      ⟨p, hp, (hs.inPool w hw).of_get hp, hjob, hcur⟩
    obtain ⟨m, hm, hr⟩ := exists_run_of_heading hb (hfair w) hhead
    exact ⟨m, hm, w, hr⟩

end Fairness

/-- Without `stopAll` no target is run twice, nothing goes wrong, and calls of `joinAll` wait
for the targets started before them.  Every target whose call of `start` has returned is run,
if no worker is held up forever on its way. -/
theorem runs_each_target_once (P : Settings) (T : Type) [DecidableEq T] :
    (∀ s, (threads P T).ReachedBy NoStop s → RunsOnce s) ∧
      ∀ b : (threads P T).Behaviour, b.Meets NoStop → (∀ w, b.Fair fun a => a = .work w) →
        ∀ n j, j < (b.state n).started → ∃ m, n ≤ m ∧ ∃ w, (j, w) ∈ (b.state m).runs := by
  refine ⟨?_, ?_⟩
  · intro s hs
    exact (inv_of_noStop hs).1.runsOnce
  · intro b hb hfair n j hj
    exact exists_run hb hfair hj

/-! ### Stopping -/

/-- If every worker that is released runs its target or has none, the targets are completed
when `stopAll` returns, and no worker calls `run` through a null pointer. -/
theorem stopAll_waits
    (hs : (threads P T).ReachedBy (fun s a => Orderly s a ∧ ReleasesEntered s a) s) :
    (s.stopReturned = true → ∀ j < s.started, j ∈ s.completed) ∧ s.faults = [] := by
  have hinv : Inv s := by
    refine Machine.ReachedBy.invariant (I := Inv) (inv_fresh P) ?_ hs
    rintro s a s' hs ⟨hord, hent⟩ hstep
    exact hs.step hord hent hstep
  refine ⟨?_, hinv.faults⟩
  intro hr
  exact (hinv.returned hr).2

section Runs

instance : DecidablePred PC.Stopping
  | .calling c _ => inferInstanceAs (Decidable (c = .stopAll))
  | .releasing k _ | .signalling k _ _ | .joining k _ _ =>
    inferInstanceAs (Decidable (k = .stop))
  | .idle | .examining .. | .searching _ | .activating _ | .assigning _ | .reading ..
  | .awaiting .. => inferInstanceAs (Decidable False)

instance [Fintype T] (s : State T) : DecidablePred (Orderly s)
  | .call _ c =>
    inferInstanceAs (Decidable (s.stopCalled = false ∧ (c = .stopAll → ∀ t', s.pc t' = .idle)))
  | .advance t fails => inferInstanceAs (Decidable (fails = true → ¬ (s.pc t).Stopping))
  | .tick _ | .work _ | .finish _ => inferInstanceAs (Decidable True)

instance (s : State T) : DecidablePred (ReleasesEntered s)
  | .advance t _ =>
    match h : s.pc t with
    | .releasing _ (w :: _) =>
      decidable_of_iff (∀ p ∈ s.heap.get w, p.Entered) (by simp only [ReleasesEntered, h])
    | .releasing _ [] | .calling _ _ | .signalling .. | .joining .. | .idle | .examining ..
    | .searching _ | .activating _ | .assigning _ | .reading .. | .awaiting .. =>
      isTrue (by simp only [ReleasesEntered, h])
  | .tick _ | .call _ _ | .work _ | .finish _ => isTrue trivial

def oneWorker : Settings := ⟨1, 1, 60, by decide⟩

def startTarget : List (Action Unit) :=
  [.call () .start, .advance () false, .advance () false, .advance () false, .advance () false]

/-- `stopAll` comes before the worker has looked at its target, and the target is lost.  If
the worker has looked at it already, it calls `run` through a null pointer. -/
theorem stopAll_loses_target :
    (∃ s, (threads oneWorker Unit).ReachedBy Orderly s ∧ s.stopReturned = true ∧ s.started = 1 ∧
      s.runs = [] ∧ s.completed = []) ∧
    ∃ s, (threads oneWorker Unit).ReachedBy Orderly s ∧ s.faults = [.nullTarget] := by
  refine ⟨?_, ?_⟩
  · have hrun : ((threads oneWorker Unit).execBy Orderly (threads oneWorker Unit).start
        (startTarget ++ [.call () .stopAll, .advance () false, .advance () false,
          .advance () false, .work 0, .work 0, .advance () false, .advance () false])).map
        (fun s => (s.stopReturned, s.started, s.runs, s.completed)) = some (true, 1, [], []) := by
      decide
    obtain ⟨s, hs, heq⟩ := Machine.exists_reachedBy_of_execBy hrun
    simp only [Prod.mk.injEq] at heq
    exact ⟨s, hs, heq⟩
  · have hrun : ((threads oneWorker Unit).execBy Orderly (threads oneWorker Unit).start
        (startTarget ++ [.call () .stopAll, .advance () false, .work 0, .work 0,
          .advance () false, .work 0])).map faults = some [.nullTarget] := by decide
    exact Machine.exists_reachedBy_of_execBy hrun

theorem stopAll_waits_for_running : ∃ s, (threads oneWorker Unit).ReachedBy
      (fun s a => Orderly s a ∧ ReleasesEntered s a) s ∧
    (s.stopReturned, s.started, s.completed) = (true, 1, [0]) ∧
    ((s.stopReturned = true → ∀ j < s.started, j ∈ s.completed) ∧ s.faults = []) := by
  have hrun : ((threads oneWorker Unit).execBy (fun s a => Orderly s a ∧ ReleasesEntered s a)
      (threads oneWorker Unit).start
      (startTarget ++ [.work 0, .work 0, .work 0, .call () .stopAll, .advance () false,
        .advance () false, .advance () false, .finish 0, .work 0, .work 0, .advance () false,
        .advance () false])).map
      (fun s => (s.stopReturned, s.started, s.completed)) = some (true, 1, [0]) := by decide
  obtain ⟨s, hs, heq⟩ := Machine.exists_reachedBy_of_execBy hrun
  exact ⟨s, hs, heq, stopAll_waits hs⟩

end Runs

/-! ### The size of a pool

`housekeep` leaves the minimum of workers in the pool, and `getThread` creates a worker only
below the maximum, which `addCapacity` may change in between. -/

def PC.lowers : PC → Bool
  | .calling (.addCapacity n) _ => n < 0
  | _ => false

def NoStopNoCut (s : State T) : Action T → Prop
  | .call _ c => c ≠ .stopAll
  | .advance t _ => (s.pc t).lowers = false
  | .tick _ | .work _ | .finish _ => True

instance (s : State T) : ∀ a, Decidable (NoStopNoCut s a)
  | .call _ c => inferInstanceAs (Decidable (c ≠ .stopAll))
  | .advance t _ => inferInstanceAs (Decidable ((s.pc t).lowers = false))
  | .tick _ | .work _ | .finish _ => isTrue trivial

def Within (P : Settings) (s : State T) : Prop :=
  P.minCapacity ≤ s.threads.length ∧ s.threads.length ≤ s.maxCapacity

theorem Within.leave (h : Within P s) (k : After) : Within P (s.leave t k) := by
  cases k <;> exact h

theorem Within.housekeep (h : Within P s) (k : After) : Within P (s.housekeep P t k) := by
  simp only [State.housekeep]
  split
  · exact Within.leave (s := { s with age := 0 }) h k
  · exact h

theorem Within.begin (h : Within P s) (before : ℕ) {call : Call} (hne : call ≠ .stopAll)
    (hcut : ∀ n, call = .addCapacity n → 0 ≤ n) : Within P (s.begin P t before call) := by
  cases call with
  | start =>
    simp only [State.begin]
    split
    · exact Within.housekeep (s := { s with age := s.age + 1 }) h _
    · exact h
  | addCapacity n =>
    simp only [State.begin]
    split
    · have hmax := h.2.trans (Int.le_add_of_nonneg_right (hcut n rfl))
      exact Within.housekeep (s := { s with maxCapacity := s.maxCapacity + n }) ⟨h.1, hmax⟩ _
    · exact h.leave _
  | collect => exact h.housekeep _
  | joinAll => exact h
  | stopAll => exact absurd rfl hne

theorem Within.keep (h : Within P s) (hexam : Examined s.pool [] (i ++ e) a) :
    Within P (s.keep P t k i e a) := by
  have hlen : i.length + e.length + a.length = s.threads.length := by
    simpa [State.pool, Nat.add_assoc] using hexam.perm.length_eq
  simp only [Within, State.keep, goto, length_append, length_take] at h ⊢
  omega

theorem Inv.within_advance (hs : Inv s) (hc : s.stopCalled = false) (hw : Within P s)
    (ha : NoStopNoCut s (.advance t fails)) (h : s.advance P t fails = some s') :
    Within P s' := by
  have hout := hs.outcome h
  cases hout with
  | @begin call before hpc =>
    refine Within.begin (s := { s with mutex := some t }) hw before ?_ ?_
    · rintro rfl
      cases hc.symm.trans (hs.places.stopping t (hpc ▸ rfl))
    · rintro n rfl
      have hlow : (s.pc t).lowers = false := ha
      simpa [hpc, PC.lowers] using hlow
  | keep hpc => exact hw.keep (hs.sound_of hpc).2.2
  | create hpc =>
    -- there is a guard, or the state would be that of `refuse`
    simp only [State.advance, hpc] at h
    split at h
    · next hguard =>
      simp only [Within, goto, length_append, length_singleton] at hw ⊢
      omega
    · exact Option.some.inj h ▸ hw.leave _
  | leave | refuse => exact hw.leave _
  | joined => exact hw.housekeep _
  | examine | clear | signal | delete | giveUp | search | activate | assign | read | await =>
    exact hw

theorem Inv.within_step (hs : Inv s) (hc : s.stopCalled = false) (hw : Within P s) {a : Action T}
    (ha : NoStopNoCut s a) (h : ThreadPool.step P s a = some s') : Within P s' := by
  cases a with
  | tick d =>
    cases h
    exact hw
  | call t c =>
    simp only [ThreadPool.step] at h
    split at h <;> cases h
    exact hw
  | advance t fails => exact hs.within_advance hc hw ha h
  | work w =>
    unfold ThreadPool.step State.work at h
    dsimp only at h
    repeat' split at h
    all_goals cases h <;> exact hw
  | finish w =>
    obtain ⟨p, target, -, -, rfl⟩ := finish_eq_some h
    exact hw

/-- **A pool has at least the minimum of workers and at most the maximum**, whatever threads
and workers do, unless `stopAll` is called or the maximum is lowered. -/
theorem within_capacities (P : Settings) (s : State T)
    (h : (threads P T).ReachedBy NoStopNoCut s) : Within P s := by
  induction h with
  | start => simpa [Within, threads, fresh] using P.valid.2.1
  | step hr ha hstep ih =>
    have hinv := inv_of_noStop (hr.imp fun _ _ _ h _ => by rintro rfl; exact h rfl)
    exact hinv.1.within_step hinv.2 ih ha hstep

def oneOrTwo : Settings := ⟨1, 2, 60, by decide⟩

/-- Two targets are started, and the second one gets a new worker.  Both run, the workers are idle
for too long, and `collect` leaves the minimum. -/
theorem within_capacities_collect : ∃ s, (threads oneOrTwo Unit).ReachedBy NoStopNoCut s ∧
    (s.threads, s.runs) = ([0], [(1, 1), (0, 0)]) ∧ Within oneOrTwo s := by
  have hrun : ((threads oneOrTwo Unit).execBy NoStopNoCut (.fresh oneOrTwo)
      (startTarget ++ startTarget ++ [.advance () false, .work 0, .work 0, .work 0, .finish 0,
        .work 1, .work 1, .work 1, .finish 1, .tick 60, .call () .collect] ++
        List.replicate 6 (.advance () false) ++
        [.work 1, .work 1, .advance () false, .advance () false])).map
      (fun s => (s.threads, s.runs)) = some ([0], [(1, 1), (0, 0)]) := by decide
  obtain ⟨s, hs, heq⟩ := Machine.exists_reachedBy_of_execBy hrun
  exact ⟨s, hs, heq, within_capacities _ s hs⟩

/-- A worker runs one target and then another one, and is left in the second. -/
theorem runs_each_target_once_twice : ∃ b : (threads oneWorker Unit).Behaviour,
    b.Meets NoStop ∧ (∀ w, b.Fair fun a => a = .work w) ∧ (b.state 17).started = 2 ∧
      ∀ n j, j < (b.state n).started → ∃ m, n ≤ m ∧ ∃ w, (j, w) ∈ (b.state m).runs := by
  have hrun : ((threads oneWorker Unit).execBy NoStopNoCut (threads oneWorker Unit).start
      (startTarget ++ [.work 0, .work 0, .work 0, .finish 0] ++ startTarget ++
        [.work 0, .work 0, .work 0])).map
      (fun s => (s.started, s.heap.next, (s.heap.get 0).map PooledThread.pc)) =
        some (2, 1, some (.running 1)) := by decide
  obtain ⟨s, hs, heq⟩ := Option.map_eq_some_iff.mp hrun
  simp only [Prod.mk.injEq, Option.map_eq_some_iff] at heq
  obtain ⟨hsta, hnext, p, hget, hpc⟩ := heq
  -- no worker can go on: the only one is in its target
  have hnone : ∀ w a, a = .work w → step oneWorker s a = none := by
    rintro w _ rfl
    simp only [step, work]
    cases w with
    | zero => simp only [hget, hpc]
    | succ w => rw [s.heap.get_of_le (w + 1) (by omega)]
  have hmeets : (Machine.Behaviour.halting _ hs).Meets NoStop := by
    rintro n _ ha t rfl
    exact Machine.Behaviour.halting_meets hs n _ ha rfl
  have hfair := fun w => Machine.Behaviour.halting_fair hs (hnone w)
  refine ⟨_, hmeets, hfair, ?_, (runs_each_target_once oneWorker Unit).2 _ hmeets hfair⟩
  rw [Machine.Behaviour.halting_state hs (by decide), hsta]

end ThreadPool

end Poco
