import Poco.ThreadPool.Invariant

/-!
# The steps of a thread pool

What the steps of the functions of a pool do to its invariant, function by function.

## Main results

* `Inv.awaits`: the first step of `joinAll`: a target that was started before is completed, or with
  a worker of the pool.
* `Inv.keep`: `housekeep` keeps some of the workers that are idle and will release the others.
* `Inv.tell`: `release` tells a worker to end that is not in the pool any more.
-/

namespace Poco

namespace ThreadPool

open List PooledThread Threads Heap Function

variable [DecidableEq T] {t : T}

/-! ### Beginning a call -/

omit [DecidableEq T] in
/-- A call other than `stopAll` goes on only before `stopAll` is called. -/
theorem Inv.stopCalled_eq_false (hs : Inv s) (hpc : s.pc t = c) (hne : c ≠ .idle)
    (hst : ¬ c.Stopping) : s.stopCalled = false := by
  subst hpc
  cases hc : s.stopCalled with
  | false => rfl
  | true =>
    rcases hs.places.alone hc t with h | h
    · exact absurd h hne
    · exact absurd h hst

/-- The thread with the mutex moves; the others rely on the targets started and the workers
marked for them. -/
theorem Inv.sound_goto (hs : Inv s) (hm : s.mutex = some t)
    (hc : c.Sound q) (hn : s.started ≤ q.started)
    (hass : ∀ t' w, s.pc t' = .assigning w → w ∈ s.threads → s.heap.Has w Activated →
      w ∈ q.threads ∧ q.heap.Has w Activated) : ∀ t', (update s.pc t c t').Sound q := by
  refine forall_place hc ?_
  intro t' hne
  refine (hs.sound t').outside ?_ hn (hass t')
  intro hin
  exact hne (hs.places.eq_of_inside hm hin)

theorem Inv.stopAll (hs : Inv s) (hpc : s.pc t = .calling .stopAll before) (hm : s.mutex = some t) :
    Inv { s.goto t (.releasing .stop s.threads) with threads := [] } := by
  have hc : s.stopCalled = true := hs.places.stopping t (hpc ▸ rfl)
  have hpla : Places s.mutex (update s.pc t (.releasing .stop s.threads))
      s.stopCalled :=
    hs.places.move (.inl rfl) (fun _ => hm) nofun (fun _ => hc) fun _ => .inr rfl
  refine { hs with places := hpla, nodup := .nil, inPool := nofun, sound := ?_, busy := ?_ }
  · refine hs.sound_goto hm ?_ le_rfl ?_
    · refine ⟨rfl, hs.nodup, nofun, ?_⟩
      intro w hw
      exact (hs.inPool w hw).imp fun p hp => ⟨hp, fun h => absurd rfl h⟩
    -- the others do nothing, or wait for the mutex in `stopAll`
    intro t' w hw
    have halo := hs.places.alone hc t'
    rw [hw] at halo
    rcases halo with h | h
    · cases h
    · exact h.elim
  · intro w p hp hj
    refine .inr ⟨t, ?_⟩
    show w ∈ (update s.pc t (PC.releasing .stop s.threads) t).stopList
    rw [update_self]
    rcases hs.busy_of_mutex hm hp hj with hw | hw
    · exact hw
    · rw [hpc] at hw
      cases hw

omit [DecidableEq T] in
theorem Inv.awaits (hs : Inv s) (hc : s.stopCalled = false) (hbef : before ≤ s.started) :
    Awaits s.pool before s.threads where
  mem _ hw := hw
  job j hj := by
    refine (hs.exists_job (Nat.lt_of_lt_of_le hj hbef)).imp_right ?_
    rintro ⟨w, p, hp, hjob⟩
    exact ⟨w, hs.mem_threads hc hp (by rw [hjob]; exact nofun), p, hp, hjob⟩

theorem Inv.begin (hs : Inv s) (hpc : s.pc t = .calling call before)
    (hm : s.mutex = some t) : Inv (s.begin P t before call) := by
  have hlist : (s.pc t).stopList = [] := by
    rw [hpc]
    rfl
  have hc : call ≠ .stopAll → s.stopCalled = false := hs.stopCalled_eq_false hpc nofun
  have hnot : ∀ k : After, call ≠ .stopAll → k ≠ .stop → (s.stopCalled = true ↔ k = .stop) := by
    intro k hne hk
    exact ⟨fun h => absurd ((hc hne).symm.trans h) nofun, fun h => absurd h hk⟩
  cases call with
  | start =>
    have hs' : Inv { s with age := s.age + 1 } := { hs with nodup := hs.nodup }
    unfold State.begin
    dsimp only
    split
    · exact hs'.housekeep P hm trivial nofun hlist (hc nofun)
    · exact hs'.leave (k := .getThread) hm trivial hlist (hnot _ nofun nofun)
  | addCapacity n =>
    have hs' : Inv { s with maxCapacity := s.maxCapacity + n } := { hs with nodup := hs.nodup }
    unfold State.begin
    dsimp only
    split
    · exact hs'.housekeep P hm trivial nofun hlist (hc nofun)
    · exact hs.leave hm trivial hlist (hnot _ nofun nofun)
  | collect => exact hs.housekeep P hm trivial nofun hlist (hc nofun)
  | joinAll =>
    have hbef : before ≤ s.started := hs.sound_of hpc
    refine hs.move ?_ ?_ ?_ hs.joined hs.returned
    · refine hs.places.move (.inl rfl) (fun _ => hm) nofun nofun ?_
      intro h
      cases (hc nofun).symm.trans h
    · exact hs.awaits (hc nofun) hbef
    · rw [hlist]
      exact nil_subset _
  | stopAll => exact hs.stopAll hpc hm

/-! ### Housekeeping -/

theorem Examined.next {rest idle active idle' active' : List ℕ}
    (h : Examined q (w :: rest) idle active)
    (hlis : (idle' ++ active').Perm (w :: (idle ++ active)))
    (hidle : ∀ v ∈ idle', v ∈ idle ∨ v = w ∧ q.heap.Has w fun p => p.idle = true) :
    Examined q rest idle' active' where
  perm := by
    have hperm : (rest ++ idle' ++ active').Perm (w :: rest ++ idle ++ active) := by
      rw [append_assoc, append_assoc]
      exact (hlis.append_left rest).trans perm_middle
    exact hperm.trans h.perm
  idle v hv := by
    rcases hidle v hv with hv | ⟨rfl, hw⟩
    · exact h.idle v hv
    · exact hw

theorem Inv.keep (hs : Inv s) (hpc : s.pc t = .examining k [] i e a) :
    Inv (s.keep P t k i e a) := by
  obtain ⟨hk, hkso, hexam⟩ := hs.sound_of hpc
  have hm : s.mutex = some t := hs.places.mutex t (hpc ▸ trivial)
  have hperm : (i ++ e ++ a).Perm s.threads := hexam.perm
  have hnd : (i ++ e ++ a).Nodup := hperm.nodup_iff.mpr hs.nodup
  unfold State.keep
  dsimp only
  generalize max (i.length + a.length) P.minCapacity - a.length = n
  have hspl : ∀ w ∈ s.threads, w ∈ i ++ e ∨ w ∈ a := by
    intro w hw
    exact mem_append.mp (hperm.mem_iff.mpr hw)
  -- a worker that is not idle is kept
  have hkept : ∀ w ∈ s.threads, ∀ p, s.heap.get w = some p → p.idle = false →
      w ∈ (i ++ e).take n ++ a := by
    intro w hw p hp hidle
    rcases hspl w hw with h | h
    · rw [(hexam.idle w h).of_get hp] at hidle
      cases hidle
    · exact mem_append_right _ h
  have hsub : ∀ w ∈ (i ++ e).take n ++ a, w ∈ s.threads := by
    intro w hw
    refine hperm.mem_iff.mp ?_
    exact mem_append.mpr ((mem_append.mp hw).imp_left mem_of_mem_take)
  refine { hs with
    places := hs.places.within hpc trivial trivial ⟨fun h => absurd h hk, False.elim⟩
    nodup := hnd.sublist ((take_sublist n _).append (.refl a))
    inPool := fun w hw => hs.inPool w (hsub w hw)
    sound := ?_
    busy := ?_ }
  · refine hs.sound_goto hm ?_ le_rfl ?_
    · refine ⟨?_, (nodup_append.mp hnd).1.sublist (drop_sublist n _), ?_, ?_⟩
      · cases k with
        | joined before => exact hkso
        | stop => exact absurd rfl hk
        | getThread | unlock => trivial
      · intro w hw hmem
        rw [← take_append_drop n (i ++ e), append_assoc] at hnd
        have hdisj := nodup_append.mp hnd
        rcases mem_append.mp hmem with h | h
        · exact hdisj.2.2 w h w (mem_append_left _ hw) rfl
        · exact (nodup_append.mp hdisj.2.1).2.2 w hw w h rfl
      · intro w hw
        have hidle := hexam.idle w (mem_of_mem_drop hw)
        have hmem : w ∈ s.threads :=
          hperm.mem_iff.mp (mem_append_left _ (mem_of_mem_drop hw))
        obtain ⟨p, hp, hin⟩ := hs.inPool w hmem
        exact ⟨p, hp, hin, fun _ => hidle.of_get hp⟩
    · rintro t' w - hw ⟨p, hp, hact⟩
      exact ⟨hkept w hw p hp hact.idle, p, hp, hact⟩
  · intro w p hp hj
    rcases hs.busy_of_mutex hm hp hj with hw | hw
    · refine .inl (hkept w hw p hp ?_)
      cases hidle : p.idle with
      | false => rfl
      | true => exact absurd (((hs.inPool w hw).of_get hp).job_of_idle hidle) hj
    · rw [hpc] at hw
      cases hw

/-! ### Changing a worker -/

section Set

omit [DecidableEq T] in
theorem Inv.workers_set (hs : Inv s) (hp : s.heap.get w = some p) (hp' : p'.InPool ∨ p'.Released) :
    ∀ v r, (s.heap.set w p').get v = some r → r.InPool ∨ r.Released := by
  intro v r hr
  rcases get_set_cases hp hr with ⟨-, rfl⟩ | ⟨-, hr⟩
  · exact hp'
  · exact hs.workers v r hr

omit [DecidableEq T] in
theorem Inv.busy_set (hs : Inv s) (hp : s.heap.get w = some p)
    (hj : p'.job ≠ none → w ∈ s.threads ∨ ∃ t, w ∈ (s.pc t).stopList) :
    ∀ v r, (s.heap.set w p').get v = some r → r.job ≠ none →
      v ∈ s.threads ∨ ∃ t, v ∈ (s.pc t).stopList := by
  intro v r hr hjr
  rcases get_set_cases hp hr with ⟨rfl, rfl⟩ | ⟨-, hr⟩
  · exact hj hjr
  · exact hs.busy v r hr hjr

omit [DecidableEq T] in
theorem Inv.ledger_set (hs : Inv s) (hp : s.heap.get w = some p) (hjob : p'.job = p.job) :
    (List.range s.started).Perm ((s.heap.set w p').gather job ++ s.completed) := by
  rw [gather_set_of_eq hp hjob]
  exact hs.ledger

omit [DecidableEq T] in
theorem Inv.ran_set (hs : Inv s) (hp : s.heap.get w = some p) (hcur : p'.current = p.current) :
    (s.runs.map Prod.fst).Perm ((s.heap.set w p').gather current ++ s.completed) := by
  rw [gather_set_of_eq hp hcur]
  exact hs.ran

theorem Inv.tell (hs : Inv s) (hpc : s.pc t = c) (hc : c.Inside) (hc' : c'.Inside)
    (hstop : c'.Stopping ↔ c.Stopping) (hlist : c.stopList ⊆ c'.stopList)
    (hp : s.heap.get w = some p) (hw : w ∉ s.threads) (hrel : p'.Released)
    (hjob : p'.job = p.job) (hcur : p'.current = p.current)
    (hsnd : c'.Sound ⟨s.heap.set w p', s.threads, s.started, s.completed⟩) :
    Inv { s.goto t c' with heap := s.heap.set w p' } := by
  have hm : s.mutex = some t := hs.places.mutex t (hpc ▸ hc)
  have hne : ∀ v ∈ s.threads, v ≠ w := by
    rintro v hv rfl
    exact hw hv
  refine { hs with
    places := hs.places.within hpc hc hc' hstop
    inPool := fun v hv => (hs.inPool v hv).set_of_ne (hne v hv)
    workers := hs.workers_set hp (.inr hrel)
    sound := ?_
    busy := ?_
    ledger := hs.ledger_set hp hjob
    ran := hs.ran_set hp hcur }
  · refine hs.sound_goto hm hsnd le_rfl ?_
    intro t' v _ hv hact
    exact ⟨hv, hact.set_of_ne (hne v hv)⟩
  intro v r hr hjr
  have hbusy : ∀ u q, (s.heap.set w p').get u = some q → q.job ≠ none →
      u ∈ s.threads ∨ ∃ t, u ∈ (s.pc t).stopList :=
    hs.busy_set hp fun h => hs.busy w p hp (hjob ▸ h)
  refine (hbusy v r hr hjr).imp_right ?_
  intro ht
  exact exists_place (Q := fun c => v ∈ PC.stopList c) ht fun h => hlist (hpc ▸ h)

theorem Inv.clear (hs : Inv s) (hpc : s.pc t = .releasing k (w :: todo))
    (hp : s.heap.get w = some p) (he : p.Entered) :
    Inv { s.goto t (.signalling k w todo) with heap := s.heap.set w p.clear } := by
  obtain ⟨hk, htodo⟩ := hs.sound_of hpc
  have hin : p.InPool := ((htodo.has w (mem_cons_self ..)).of_get hp).1
  have hw : w ∉ todo := (nodup_cons.mp htodo.nodup).1
  have hlist : (PC.releasing k (w :: todo)).stopList = (PC.signalling k w todo).stopList := by
    cases k with
    | getThread | unlock | joined | stop => rfl
  have hrel : p.clear.Released := hin.released_clear he
  refine hs.tell hpc trivial trivial .rfl (hlist ▸ List.Subset.refl _) hp
    (htodo.notMem w (mem_cons_self ..)) hrel (hin.job_clear he) current_clear ?_
  refine ⟨hk, ⟨htodo.nodup.of_cons, ?_, ?_⟩, hw, htodo.notMem w (mem_cons_self ..), ?_⟩
  · intro v hv
    exact htodo.notMem v (mem_cons_of_mem w hv)
  · intro v hv
    refine (htodo.has v (mem_cons_of_mem w hv)).set_of_ne ?_
    rintro rfl
    exact hw hv
  · exact ⟨p.clear, get_set_self hp, hrel⟩

theorem Inv.signal (hs : Inv s) (hpc : s.pc t = .signalling k w todo) (hp : s.heap.get w = some p) :
    Inv { s.goto t (.joining k w todo) with heap := s.heap.set w p.signal } := by
  obtain ⟨hk, h⟩ := hs.sound_of hpc
  have hlist : (PC.signalling k w todo).stopList = (PC.joining k w todo).stopList := by
    cases k with
    | getThread | unlock | joined | stop => rfl
  have hrel : p.signal.Released := (h.has.of_get hp).signal
  refine hs.tell hpc trivial trivial .rfl (hlist ▸ List.Subset.refl _) hp h.notMem hrel job_signal
    current_signal ?_
  refine ⟨hk, ⟨h.others.nodup, h.others.notMem, ?_⟩, h.notMem_todo, h.notMem, ?_⟩
  · intro v hv
    refine (h.others.has v hv).set_of_ne ?_
    rintro rfl
    exact h.notMem_todo hv
  · exact ⟨p.signal, get_set_self hp, hrel⟩

theorem Inv.delete (hs : Inv s) (hpc : s.pc t = .joining k w todo) (hp : s.heap.get w = some p)
    (hend : p.pc = .ended) : Inv { s.goto t (.releasing k todo) with heap := s.heap.delete w } := by
  have hm : s.mutex = some t := hs.places.mutex t (hpc ▸ trivial)
  obtain ⟨hk, h⟩ := hs.sound_of hpc
  have hne : ∀ v ∈ s.threads, v ≠ w := by
    rintro v hv rfl
    exact h.notMem hv
  have hjob : p.job = none := (h.has.of_get hp).job_of_ended hend
  have hcur : p.current = none := by
    simp only [current, hend]
  refine { hs with
    places := hs.places.within hpc trivial trivial .rfl
    inPool := fun v hv => (hs.inPool v hv).delete_of_ne (hne v hv)
    workers := fun v r hr => hs.workers v r (get_of_get_delete hr).2
    sound := ?_
    busy := ?_
    ledger := ?_
    ran := ?_ }
  · refine hs.sound_goto hm ?_ le_rfl ?_
    · refine ⟨hk, h.others.nodup, h.others.notMem, ?_⟩
      intro v hv
      refine (h.others.has v hv).delete_of_ne ?_
      rintro rfl
      exact h.notMem_todo hv
    · intro t' v _ hv hact
      exact ⟨hv, hact.delete_of_ne (hne v hv)⟩
  · intro v r hr hjr
    obtain ⟨hvw, hr⟩ := get_of_get_delete hr
    refine (hs.busy_of_mutex hm hr hjr).imp_right ?_
    intro hv
    refine ⟨t, ?_⟩
    show v ∈ (update s.pc t (PC.releasing k todo) t).stopList
    rw [update_self]
    rw [hpc] at hv
    cases k with
    | stop => exact mem_of_ne_of_mem hvw hv
    | getThread | unlock | joined => cases hv
  · show (List.range s.started).Perm ((s.heap.delete w).gather job ++ s.completed)
    rw [gather_delete_of_none hp hjob]
    exact hs.ledger
  · show (s.runs.map Prod.fst).Perm ((s.heap.delete w).gather current ++ s.completed)
    rw [gather_delete_of_none hp hcur]
    exact hs.ran

/-! ### Starting a target -/

theorem Inv.create (hs : Inv s) (hpc : s.pc t = .searching rest) (now : ℤ) :
    Inv { s.goto t (.activating s.heap.next) with
      heap := s.heap.new (.new now), threads := s.threads ++ [s.heap.next] } := by
  have hm : s.mutex = some t := hs.places.mutex t (hpc ▸ trivial)
  have hget : (s.heap.new (.new now)).get s.heap.next = some (.new now) := get_new_next
  refine { hs with
    places := hs.places.within hpc trivial trivial .rfl
    nodup := ?_
    inPool := ?_
    workers := ?_
    sound := ?_
    busy := ?_
    ledger := ?_
    ran := ?_ }
  · refine hs.sound_goto hm ?_ le_rfl ?_
    · exact ⟨mem_append_right _ (mem_singleton_self _), _, hget, rfl⟩
    · intro t' v _ hv hact
      exact ⟨mem_append_left _ hv, hact.new⟩
  · refine nodup_append.mpr ⟨hs.nodup, nodup_singleton _, ?_⟩
    intro v hv u hu
    obtain ⟨r, hr, -⟩ := hs.inPool v hv
    rw [mem_singleton.mp hu]
    exact ne_next_of_get hr
  · exact forall_mem_append.mpr ⟨fun v hv => (hs.inPool v hv).new,
      forall_mem_singleton.mpr ⟨_, hget, inPool_new now⟩⟩
  · intro v r hr
    rcases get_new_cases hr with ⟨-, rfl⟩ | ⟨-, hr⟩
    · exact .inl (inPool_new now)
    · exact hs.workers v r hr
  · intro v r hr hj
    rcases get_new_cases hr with ⟨-, rfl⟩ | ⟨-, hr⟩
    · exact absurd rfl hj
    · rcases hs.busy_of_mutex hm hr hj with hv | hv
      · exact .inl (mem_append_left _ hv)
      · rw [hpc] at hv
        cases hv
  · rw [gather_new]
    exact (append_nil _).symm ▸ hs.ledger
  · rw [gather_new]
    exact (append_nil _).symm ▸ hs.ran

theorem Inv.activate (hs : Inv s) (hpc : s.pc t = .activating w) (hp : s.heap.get w = some p)
    (hact : p'.Activated) (hjob : p'.job = p.job) (hcur : p'.current = p.current) :
    Inv { s.goto t (.assigning w) with heap := s.heap.set w p', mutex := none } := by
  have hm : s.mutex = some t := hs.places.mutex t (hpc ▸ trivial)
  obtain ⟨hw, hidle⟩ := hs.sound_of hpc
  -- an idle worker is not marked for a thread
  have hne : ∀ t', s.pc t' ≠ .assigning w := by
    intro t' ht'
    have hbusy : p.idle = false := ((hs.sound_of ht').2.of_get hp).idle
    rw [hidle.of_get hp] at hbusy
    cases hbusy
  have hc : s.stopCalled = false := hs.stopCalled_eq_false hpc nofun id
  refine { hs with
    places := ?_
    inPool := fun v hv => (hs.inPool v hv).set hp fun _ => hact.inPool
    workers := hs.workers_set hp (.inl hact.inPool)
    sound := ?_
    busy := ?_
    ledger := hs.ledger_set hp hjob
    ran := hs.ran_set hp hcur }
  · refine hs.places.move (.inr (.inr hm)) nofun ?_ nofun ?_
    · intro v t' hv
      cases hv
      exact hne t'
    · intro h
      cases hc.symm.trans h
  · refine hs.sound_goto hm ?_ le_rfl ?_
    · exact ⟨hw, p', get_set_self hp, hact⟩
    · intro t' v hpcv hv hav
      refine ⟨hv, hav.set_of_ne ?_⟩
      rintro rfl
      exact hne t' hpcv
  · intro v r hr hj
    rcases get_set_cases hp hr with ⟨-, rfl⟩ | ⟨-, hr⟩
    · exact absurd hact.job hj
    · exact .inl (hs.mem_threads hc hr hj)

theorem Inv.assign (hs : Inv s) (hpc : s.pc t = .assigning w) (hp : s.heap.get w = some p)
    (hin : p'.InPool) (hjob : p'.job = some s.started) (hcur : p'.current = p.current) :
    Inv { s.goto t .idle with heap := s.heap.set w p', started := s.started + 1 } := by
  obtain ⟨hw, hact⟩ := hs.sound_of hpc
  replace hact : p.Activated := hact.of_get hp
  have hev : Evolves s.completed p p' := by
    refine ⟨fun _ => hin, fun h => ?_, fun j hj => ?_⟩
    · rw [hact.idle] at h
      cases h
    · rw [hact.job] at hj
      cases hj
  have hc : s.stopCalled = false := hs.stopCalled_eq_false hpc nofun id
  refine { hs with
    places := hs.places.move (.inl rfl) nofun nofun nofun fun _ => .inl rfl
    inPool := fun v hv => (hs.inPool v hv).set hp fun _ => hin
    workers := hs.workers_set hp (.inl hin)
    sound := ?_
    busy := ?_
    ledger := ?_
    ran := hs.ran_set hp hcur
    returned := ?_ }
  · refine forall_place (Q := fun _ c =>
      PC.Sound ⟨s.heap.set w p', s.threads, s.started + 1, s.completed⟩ c) trivial ?_
    intro t' ht'
    refine (hs.sound t').evolve hp hev (.inl hw) ?_ (List.Subset.refl _) (Nat.le_succ _)
    intro h
    exact ht' (hs.places.unique t' t w h hpc)
  · intro v r hr hj
    rcases get_set_cases hp hr with ⟨rfl, -⟩ | ⟨-, hr⟩
    · exact .inl hw
    · exact .inl (hs.mem_threads hc hr hj)
  · show (List.range (s.started + 1)).Perm ((s.heap.set w p').gather job ++ s.completed)
    have hgain := gather_set_gain hp hact.job hjob
    rw [range_succ]
    refine (perm_append_singleton _ _).trans ((hs.ledger.cons _).trans ?_)
    exact (hgain.append_right s.completed).symm
  · intro h
    cases hc.symm.trans (hs.returned h).1

/-! ### Workers -/

section

omit [DecidableEq T]

theorem Inv.evolve (hs : Inv s) (hp : s.heap.get w = some p)
    {rs : List (ℕ × ℕ)} (hev : Evolves cs p p') (hrel : p.Released → p'.Released)
    (hact : ¬ p.Activated) (hjob : p'.job ≠ none → p.job ≠ none) (hcs : s.completed ⊆ cs)
    (hled : (List.range s.started).Perm ((s.heap.set w p').gather job ++ cs))
    (hran : (rs.map Prod.fst).Perm ((s.heap.set w p').gather current ++ cs)) :
    Inv { s with heap := s.heap.set w p', runs := rs, completed := cs } where
  places := hs.places
  sound t := by
    refine (hs.sound t).evolve hp hev (.inr hrel) ?_ hcs le_rfl
    intro hpc
    exact hact ((hs.sound_of hpc).2.of_get hp)
  nodup := hs.nodup
  inPool v hv := (hs.inPool v hv).set hp hev.inPool
  workers := hs.workers_set hp ((hs.workers w p hp).imp hev.inPool hrel)
  busy := hs.busy_set hp fun h => hs.busy w p hp (hjob h)
  ledger := hled
  ran := hran
  joined j hj := hcs (hs.joined j hj)
  returned h := ⟨(hs.returned h).1, fun j hj => hcs ((hs.returned h).2 j hj)⟩
  faults := hs.faults

theorem Inv.proceed (hs : Inv s) (hp : s.heap.get w = some p) {rs : List (ℕ × ℕ)}
    (hin : p.InPool → p'.InPool) (hrel : p.Released → p'.Released) (hidle : p'.idle = p.idle)
    (hact : ¬ p.Activated) (hjob : p'.job = p.job)
    (hran : (rs.map Prod.fst).Perm ((s.heap.set w p').gather current ++ s.completed)) :
    Inv { s with heap := s.heap.set w p', runs := rs } := by
  have hev : Evolves s.completed p p' :=
    ⟨hin, fun h => hidle.trans h, fun j hj => .inl (hjob.trans hj)⟩
  refine hs.evolve hp hev hrel hact ?_ (List.Subset.refl _) (hs.ledger_set hp hjob) hran
  rw [hjob]
  exact id

theorem Inv.work (hs : Inv s) (h : s.work w = some s') : Inv s' := by
  unfold State.work at h
  split at h
  · cases h
  next p hp =>
  split at h
  next hpc =>
    split at h
    · next hrdy =>
      cases h
      refine hs.proceed hp (fun hin => hin.wake hpc hrdy) (fun hr => ⟨hr.pTarget, nofun⟩) rfl
        ?_ (job_wake hpc) (hs.ran_set hp (current_wake hpc))
      intro hact
      rw [hact.waits.2] at hrdy
      cases hrdy
    · cases h
  next hpc =>
    cases h
    refine hs.proceed hp (fun hin => hin.look hpc) Released.look rfl ?_ (job_look hpc)
      (hs.ran_set hp (current_look hpc))
    intro hact
    cases hpc.symm.trans hact.waits.1
  next hpc =>
    split at h
    · next target ht =>
      cases h
      refine hs.proceed hp (fun hin => hin.enter hpc ht) (fun hr => absurd hpc hr.pc) rfl ?_
        (job_enter hpc ht) ?_
      · intro hact
        cases hpc.symm.trans hact.waits.1
      · have hcur : p.current = none := by
          simp only [current, hpc]
        have hgain := gather_set_gain (f := current) (a := p.enter target) hp hcur rfl
        exact (hs.ran.cons target).trans (hgain.append_right s.completed).symm
    · -- a worker that was told to end does not come here
      next hnone =>
      rcases hs.workers w p hp with hin | hrel
      · obtain ⟨target, ht⟩ := hin.pTarget_of_dispatching hpc
        cases hnone.symm.trans ht
      · exact absurd hpc hrel.pc
  next => cases h
  next => cases h

theorem Inv.finish (hs : Inv s) (h : s.finish w = some s') : Inv s' := by
  unfold State.finish at h
  split at h
  · cases h
  next p hp =>
  split at h
  · next target hpc =>
    cases h
    have hjob : p.job = some target := by
      simp only [job, hpc]
    have hcur : p.current = some target := by
      simp only [current, hpc]
    have hev : Evolves (target :: s.completed) p (p.complete s.clock) := by
      refine ⟨fun hin => hin.complete hpc s.clock, fun _ => rfl, fun j hj => ?_⟩
      cases hjob.symm.trans hj
      exact .inr (mem_cons_self ..)
    refine hs.evolve hp hev (fun _ => ⟨rfl, by rintro ⟨⟩⟩) ?_ ?_ (subset_cons_self ..) ?_ ?_
    · intro hact
      cases hpc.symm.trans hact.waits.1
    · intro h
      exact absurd rfl h
    · have hlose := gather_set_lose (f := job) (a := p.complete s.clock) hp hjob rfl
      exact hs.ledger.trans ((hlose.append_right _).trans perm_middle.symm)
    · have hlose := gather_set_lose (f := current) (a := p.complete s.clock) hp hcur rfl
      exact hs.ran.trans ((hlose.append_right _).trans perm_middle.symm)
  · cases h

end

end Set

end ThreadPool

end Poco
