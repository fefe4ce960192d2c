import Poco.ThreadPool.Steps

/-!
# Every step of a thread pool

Every step keeps the invariant of a thread pool.  What a step of a call does is said once;
the invariant leaves no case in which something goes wrong.

## Main definitions

* `Outcome`: what the next step of a call does when nothing goes wrong.
* `Orderly`: `stopAll` is called when all other calls have returned, is the last call, and waits for
  its workers.
* `ReleasesEntered`: no worker is told to end on its way to a target.

## Main results

* `Inv.outcome`: a step of a call is one of these cases.
* `Inv.step`: the invariant is kept by every step that meets the two conditions.
-/

namespace Poco

namespace ThreadPool

open List PooledThread

variable {T : Type} [DecidableEq T] {P : Settings} {s : State T} {t : T}

/-! ### The next step of a call -/

inductive Outcome (P : Settings) (s : State T) (t : T) (fails : Bool) : State T → Prop
  | begin {call : Call} {before : ℕ} (hpc : s.pc t = .calling call before)
      (hm : s.mutex = none) :
      Outcome P s t fails ({ s with mutex := some t }.begin P t before call)
  | examine {k : After} {w : ℕ} {rest i e a i' e' a' : List ℕ} {p : PooledThread}
      (hpc : s.pc t = .examining k (w :: rest) i e a) (hp : s.heap.get w = some p)
      (hlists : (i' ++ e' ++ a').Perm (w :: (i ++ e ++ a)))
      (hidle : ∀ v ∈ i' ++ e', v ∈ i ++ e ∨ v = w ∧ p.idle = true) :
      Outcome P s t fails (s.goto t (.examining k rest i' e' a'))
  | keep {k : After} {i e a : List ℕ} (hpc : s.pc t = .examining k [] i e a) :
      Outcome P s t fails (s.keep P t k i e a)
  | leave {k : After} (hpc : s.pc t = .releasing k []) : Outcome P s t fails (s.leave t k)
  | clear {k : After} {w : ℕ} {todo : List ℕ} {p : PooledThread}
      (hpc : s.pc t = .releasing k (w :: todo)) (hp : s.heap.get w = some p) :
      Outcome P s t fails
        { s.goto t (.signalling k w todo) with heap := s.heap.set w p.clear }
  | signal {k : After} {w : ℕ} {todo : List ℕ} {p : PooledThread}
      (hpc : s.pc t = .signalling k w todo) (hp : s.heap.get w = some p) :
      Outcome P s t fails { s.goto t (.joining k w todo) with heap := s.heap.set w p.signal }
  | delete {k : After} {w : ℕ} {todo : List ℕ} {p : PooledThread}
      (hpc : s.pc t = .joining k w todo) (hp : s.heap.get w = some p) (hend : p.pc = .ended) :
      Outcome P s t fails { s.goto t (.releasing k todo) with heap := s.heap.delete w }
  | giveUp {k : After} {w : ℕ} {todo : List ℕ} (hpc : s.pc t = .joining k w todo)
      (hf : fails = true) : Outcome P s t fails (s.goto t (.releasing k todo))
  | search {w : ℕ} {rest : List ℕ} {p : PooledThread} (hpc : s.pc t = .searching (w :: rest))
      (hp : s.heap.get w = some p) :
      Outcome P s t fails (s.goto t (if p.idle then .activating w else .searching rest))
  | create (hpc : s.pc t = .searching []) :
      Outcome P s t fails { s.goto t (.activating s.heap.next) with
        heap := s.heap.new (.new s.clock), threads := s.threads ++ [s.heap.next] }
  | refuse (hpc : s.pc t = .searching []) : Outcome P s t fails (s.leave t .unlock)
  | activate {w : ℕ} {p p' : PooledThread} (hpc : s.pc t = .activating w)
      (hp : s.heap.get w = some p) (hact : p'.Activated) (hjob : p'.job = p.job)
      (hcur : p'.current = p.current) :
      Outcome P s t fails
        { s.goto t (.assigning w) with heap := s.heap.set w p', mutex := none }
  | assign {w : ℕ} {p p' : PooledThread} (hpc : s.pc t = .assigning w)
      (hp : s.heap.get w = some p) (hin : p'.InPool) (hjob : p'.job = some s.started)
      (hcur : p'.current = p.current) :
      Outcome P s t fails
        { s.goto t .idle with heap := s.heap.set w p', started := s.started + 1 }
  | joined {before : ℕ} (hpc : s.pc t = .reading before []) :
      Outcome P s t fails (s.housekeep P t (.joined before))
  | read {before w : ℕ} {rest : List ℕ} {p : PooledThread}
      (hpc : s.pc t = .reading before (w :: rest)) (hp : s.heap.get w = some p) :
      Outcome P s t fails
        (s.goto t (if p.pTarget = none then .reading before rest else .awaiting before w rest))
  | await {before w : ℕ} {rest : List ℕ} {p : PooledThread}
      (hpc : s.pc t = .awaiting before w rest) (hp : s.heap.get w = some p)
      (hc : p.targetCompleted = true) :
      Outcome P s t fails (s.goto t (.reading before rest))

variable {w : ℕ} {p : PooledThread} {fails : Bool}

omit [DecidableEq T] in
theorem use_of_get (hp : s.heap.get w = some p) (f : PooledThread → State T) : s.use w f = f p := by
  rw [State.use, hp]

theorem outcome_examine (hpc : s.pc t = .examining k (w :: rest) i e a)
    (hp : s.heap.get w = some p) :
    Outcome P s t fails (s.examine P t k w rest i e a) := by
  rw [State.examine, use_of_get hp]
  split
  · next hidle =>
    have hmem : ∀ {i' e' : List ℕ}, (i' ++ e').Perm (w :: (i ++ e)) → ∀ v ∈ i' ++ e',
        v ∈ i ++ e ∨ v = w ∧ p.idle = true := by
      intro i' e' hperm v hv
      rcases mem_cons.mp (hperm.mem_iff.mp hv) with h | h
      · exact .inr ⟨h, hidle⟩
      · exact .inl h
    split
    · have hperm : (i ++ [w] ++ e).Perm (w :: (i ++ e)) := by
        rw [append_assoc]
        exact perm_middle
      exact .examine hpc hp (hperm.append_right a) (hmem hperm)
    · have hperm : (i ++ (e ++ [w])).Perm (w :: (i ++ e)) := by
        rw [← append_assoc]
        exact perm_append_singleton w _
      exact .examine hpc hp (hperm.append_right a) (hmem hperm)
  · refine .examine hpc hp ?_ fun v hv => .inl hv
    rw [← append_assoc]
    exact perm_append_singleton w _

theorem Inv.outcome (hs : Inv s) (h : s.advance P t fails = some s') : Outcome P s t fails s' := by
  have hsnd := hs.sound t
  unfold State.advance at h
  generalize hpc : s.pc t = c at h hsnd
  cases c with
  | idle => cases h
  | calling call before =>
    dsimp only at h
    split at h
    · next hm =>
      cases h
      exact .begin hpc hm
    · cases h
  | examining k rest i e a =>
    cases rest with
    | nil =>
      cases h
      exact .keep hpc
    | cons w rest =>
      cases h
      have hw : w ∈ s.threads := hsnd.2.2.perm.mem_iff.mp (mem_cons_self ..)
      obtain ⟨p, hp, -⟩ := hs.inPool w hw
      exact outcome_examine hpc hp
  | releasing k todo =>
    cases todo with
    | nil =>
      cases h
      exact .leave hpc
    | cons w todo =>
      obtain ⟨p, hp, -⟩ := hsnd.2.has w (mem_cons_self ..)
      simp only [use_of_get hp] at h
      cases h
      exact .clear hpc hp
  | signalling k w todo =>
    obtain ⟨p, hp, -⟩ := hsnd.2.has
    simp only [use_of_get hp] at h
    cases h
    exact .signal hpc hp
  | joining k w todo =>
    obtain ⟨p, hp, -⟩ := hsnd.2.has
    have hget : s.heap.get w = some p := hp
    simp only [hget] at h
    split at h
    · next hend =>
      cases h
      exact .delete hpc hp hend
    · split at h
      · next hf =>
        cases h
        exact .giveUp hpc hf
      · cases h
  | searching rest =>
    cases rest with
    | nil =>
      dsimp only at h
      split at h
      · cases h
        exact .create hpc
      · cases h
        exact .refuse hpc
    | cons w rest =>
      obtain ⟨p, hp, -⟩ := hs.inPool w (hsnd w (mem_cons_self ..))
      simp only [use_of_get hp] at h
      cases h
      exact .search hpc hp
  | activating w =>
    obtain ⟨hw, hidle⟩ := hsnd
    obtain ⟨p, hp, hin⟩ := hs.inPool w hw
    obtain ⟨p', hp', hact, hjob, hcur⟩ := hin.activate (hidle.of_get hp)
    simp only [use_of_get hp, hp'] at h
    cases h
    exact .activate hpc hp hact hjob hcur
  | assigning w =>
    obtain ⟨-, p, hp, hact⟩ := hsnd
    obtain ⟨p', hp', hin, hjob, hcur⟩ := hact.start s.started
    simp only [use_of_get hp, hp'] at h
    cases h
    exact .assign hpc hp hin hjob hcur
  | reading before rest =>
    cases rest with
    | nil =>
      cases h
      exact .joined hpc
    | cons w rest =>
      obtain ⟨p, hp, -⟩ := hs.inPool w (hsnd.mem w (mem_cons_self ..))
      simp only [use_of_get hp] at h
      cases h
      exact .read hpc hp
  | awaiting before w rest =>
    obtain ⟨p, hp, -⟩ := hs.inPool w (hsnd.mem w (mem_cons_self ..))
    simp only [hp] at h
    split at h
    · next hc =>
      cases h
      exact .await hpc hp hc
    · cases h

/-! ### Every step -/

def Orderly (s : State T) : Action T → Prop
  | .call _ c => s.stopCalled = false ∧ (c = .stopAll → ∀ t', s.pc t' = .idle)
  | .advance t fails => fails = true → ¬ (s.pc t).Stopping
  | _ => True

def ReleasesEntered (s : State T) : Action T → Prop
  | .advance t _ =>
    match s.pc t with
    | .releasing _ (w :: _) => ∀ p ∈ s.heap.get w, p.Entered
    | _ => True
  | _ => True

/-- A worker that `joinAll` has waited for, or need not wait for, has no target. -/
theorem Awaits.next (h : Awaits q before (w :: rest))
    (hp : q.heap.get w = some p) (hj : p.job = none) : Awaits q before rest where
  mem v hv := h.mem v (mem_cons_of_mem w hv)
  job j hlt := by
    refine (h.job j hlt).imp_right ?_
    rintro ⟨v, hv, hjob⟩
    rcases mem_cons.mp hv with rfl | hv
    · cases hj.symm.trans (hjob.of_get hp)
    · exact ⟨v, hv, hjob⟩

theorem Inv.advance (hs : Inv s) (hord : Orderly s (.advance t fails))
    (hent : ReleasesEntered s (.advance t fails)) (h : s.advance P t fails = some s') : Inv s' := by
  have hsnd := hs.sound t
  have hout : ∀ {c : PC}, s.pc t = c → c.Inside → ¬ c.Stopping → s.stopCalled = false := by
    intro c hpc hin hst
    refine hs.stopCalled_eq_false hpc ?_ hst
    rintro rfl
    exact hin
  cases hs.outcome h with
  | begin hpc hm => exact (hs.lock hm).begin hpc rfl
  | @examine k w rest i e a i' e' a' p hpc hp hlis hidle =>
    rw [hpc] at hsnd
    refine hs.within hpc trivial trivial ⟨hsnd.1, hsnd.2.1, hsnd.2.2.next hlis ?_⟩
      (List.Subset.refl _) .rfl
    intro v hv
    refine (hidle v hv).imp_right ?_
    rintro ⟨rfl, hi⟩
    exact ⟨rfl, p, hp, hi⟩
  | keep hpc => exact hs.keep hpc
  | @leave k hpc =>
    rw [hpc] at hsnd
    have hm := hs.places.mutex t (hpc ▸ trivial)
    have hlist : (s.pc t).stopList = [] := by
      rw [hpc]
      cases k with
      | getThread | unlock | joined | stop => rfl
    refine hs.leave hm hsnd.1 hlist ⟨?_, ?_⟩
    · intro hc
      rcases hs.places.alone hc t with hidle | hst
      · cases hpc.symm.trans hidle
      · rw [hpc] at hst
        exact hst
    · rintro rfl
      exact hs.places.stopping t (hpc ▸ rfl)
  | @clear k w todo p hpc hp =>
    have he : p.Entered := by
      unfold ReleasesEntered at hent
      simp only [hpc] at hent
      exact hent p hp
    exact hs.clear hpc hp he
  | signal hpc hp => exact hs.signal hpc hp
  | delete hpc hp hend => exact hs.delete hpc hp hend
  | @giveUp k w todo hpc hf =>
    rw [hpc] at hsnd
    have hk : k ≠ .stop := by
      rintro rfl
      exact hord hf (hpc ▸ rfl)
    have hlist : (PC.joining k w todo).stopList = [] := by
      cases k with
      | getThread | unlock | joined => rfl
      | stop => exact absurd rfl hk
    refine hs.within hpc trivial trivial ⟨hsnd.1, hsnd.2.others⟩ ?_ .rfl
    rw [hlist]
    exact nil_subset _
  | @search w rest p hpc hp =>
    rw [hpc] at hsnd
    split
    · next hi =>
      refine hs.within hpc trivial trivial ?_ (List.Subset.refl _) .rfl
      exact ⟨hsnd w (mem_cons_self ..), p, hp, hi⟩
    · refine hs.within hpc trivial trivial ?_ (List.Subset.refl _) .rfl
      intro v hv
      exact hsnd v (mem_cons_of_mem w hv)
  | create hpc => exact hs.create hpc s.clock
  | refuse hpc =>
    have hc : s.stopCalled = false := hout hpc trivial id
    have hm := hs.places.mutex t (hpc ▸ trivial)
    refine hs.leave (k := .unlock) hm trivial (by rw [hpc]; rfl) ⟨?_, nofun⟩
    intro h
    cases hc.symm.trans h
  | activate hpc hp hact hjob hcur => exact hs.activate hpc hp hact hjob hcur
  | assign hpc hp hin hjob hcur => exact hs.assign hpc hp hin hjob hcur
  | @joined before hpc =>
    rw [hpc] at hsnd
    have hm := hs.places.mutex t (hpc ▸ trivial)
    refine hs.housekeep P hm ?_ nofun (by rw [hpc]; rfl) (hout hpc trivial id)
    intro j hj
    rcases hsnd.job j hj with hdone | ⟨w, hw, -⟩
    · exact hdone
    · cases hw
  | @read before w rest p hpc hp =>
    rw [hpc] at hsnd
    split
    · next hnone =>
      have hin := (hs.inPool w (hsnd.mem w (mem_cons_self ..))).of_get hp
      refine hs.within hpc trivial trivial ?_ (List.Subset.refl _) .rfl
      exact hsnd.next hp (hin.job_of_pTarget hnone)
    · exact hs.within hpc trivial trivial hsnd (List.Subset.refl _) .rfl
  | @await before w rest p hpc hp hc =>
    rw [hpc] at hsnd
    have hin := (hs.inPool w (hsnd.mem w (mem_cons_self ..))).of_get hp
    refine hs.within hpc trivial trivial ?_ (List.Subset.refl _) .rfl
    exact hsnd.next hp (hin.job_of_completed hc)

theorem Inv.call (hs : Inv s) (hord : Orderly s (.call t c)) :
    Inv { s.goto t (.calling c s.started) with
      stopCalled := s.stopCalled || decide (c = .stopAll) } := by
  obtain ⟨hc, hall⟩ := hord
  have hnot : ∀ t', ¬ (s.pc t').Stopping := by
    intro t' ht'
    cases hc.symm.trans (hs.places.stopping t' ht')
  refine { hs with
    places := ⟨?_, ?_, ?_, ?_⟩
    sound := ?_
    busy := ?_
    returned := fun h => absurd ((hs.returned h).1) (by rw [hc]; exact nofun) }
  · refine Threads.forall_place (Q := fun t c => PC.Inside c → s.mutex = some t) nofun ?_
    intro t' _
    exact hs.places.mutex t'
  · intro t₁ t₂ w h₁ h₂
    rcases Threads.place_cases h₁ with ⟨-, h⟩ | ⟨-, h₁⟩
    · cases h
    · rcases Threads.place_cases h₂ with ⟨-, h⟩ | ⟨-, h₂⟩
      · cases h
      · exact hs.places.unique t₁ t₂ w h₁ h₂
  · refine Threads.forall_place (Q := fun _ d => PC.Stopping d →
      (s.stopCalled || decide (c = .stopAll)) = true) ?_ ?_
    · intro h
      have hd : decide (c = .stopAll) = true := decide_eq_true h
      rw [hd, Bool.or_true]
    · intro t' _ h
      exact absurd h (hnot t')
  · intro h
    rw [hc, Bool.false_or, decide_eq_true_iff] at h
    refine Threads.forall_place (Q := fun _ d => d = PC.idle ∨ PC.Stopping d) (.inr h) ?_
    intro t' _
    exact .inl (hall h t')
  · refine Threads.forall_place (Q := fun _ d => PC.Sound s.pool d) ?_ ?_
    · exact Nat.le_refl s.started
    · intro t' _
      exact hs.sound t'
  · intro w p hp hj
    exact .inl (hs.mem_threads hc hp hj)

theorem Inv.step (hs : Inv s) {a : Action T} (hord : Orderly s a) (hent : ReleasesEntered s a)
    (h : step P s a = some s') : Inv s' := by
  cases a with
  | tick d =>
    cases h
    exact { hs with nodup := hs.nodup }
  | call t c =>
    unfold ThreadPool.step at h
    dsimp only at h
    split at h
    · cases h
      exact hs.call hord
    · cases h
  | advance t fails => exact hs.advance hord hent h
  | work w => exact hs.work h
  | finish w => exact hs.finish h

end ThreadPool

end Poco
