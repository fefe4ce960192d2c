import Poco.Util.Timer
import Poco.Lib.Fairness

/-!
# Cancelling and destroying a timer

Whether `cancel(true)` and the destructor of `Util::Timer` return.  Both enqueue a request
and wait until it was executed.  Executing a request clears the queue, and with it any
other request: a request is sure to be executed if it is enqueued while no other one is
pending.  It is then the first one in the queue, and the timer's thread comes to it after
the tasks before it, since tasks that are executed again go behind it.

## Main definitions

* `Coming`: a request will be executed: it is the first one in the queue, or was taken from it.
* `RequestsAlone`: those who wait for their request enqueue it only while no other one is pending.
* `effort`: the steps the timer's thread has to take until it takes an element, at most.  The
  element it has an iterator to counts if it is among the given nodes: otherwise the thread takes
  one that is not asked for, or finds that it is not due, and begins again.
* `rank`: the elements up to the first request and, in between, the effort.
* `Scheduled`: the threads are scheduled fairly, and tasks are scheduled for a time before clock
  value 0 finitely often.
* `Completes`: every `cancel(true)` returns, and so does the destructor.

## Main results

* `Coming.timer`: the timer's thread, by every step, comes closer to the first request, or executes
  it.
* `Coming.others`: a request that is coming still is after a step of another thread, and it is put
  off only by tasks scheduled for a time before clock value 0.
* `exists_done`, `exists_cancelled`, `exists_joined`: a request is executed, and those return who
  wait for it.
* `shutdown_completes`: both return in every run in which `RequestsAlone` holds.
* `destructor_hangs`: otherwise the destructor may never return.
-/

namespace Poco

open TimedNotificationQueue Function List

namespace Util

namespace Timer

open TimedNotificationQueue (Element PC Move Moved)

variable {T : Type} {e e' : Element TimerNotification}

/-! ### Requests and those who wait for them -/

def Client.request : Client → Option TimerNotification
  | .idle => none
  | .cancelling call => some (.cancel call)
  | .joining => some .stop

def Place.Serving : Place → Prop
  | .dequeueing _ | .running _ _ | .ran _ _ | .purged _ => True
  | .executing pNf => pNf.isRequest = false
  | .ended | .undefined => False

def Coming (s : State T) (pNf : TimerNotification) : Prop :=
  (∃ e, First s.queue e ∧ e.nf = pNf ∧ s.thread.Serving) ∨ s.thread = .executing pNf

/-- A request was executed, as far as those who wait for it are concerned. -/
def Done (s : State T) : TimerNotification → Prop
  | .stop => s.thread = .ended
  | .cancel call => s.thread = .purged call ∨ s.finished call = true
  | .task _ _ => False

/-- The timer's thread has taken a request and not yet cleared the queue for it. -/
def Place.executesRequest : Place → Bool
  | .executing pNf => pNf.isRequest
  | _ => false

def NoRequest (s : State T) : Prop :=
  (∀ e ∈ s.queue.nfQueue, e.nf.isRequest = false) ∧ s.thread.executesRequest = false

def RequestsAlone (s : State T) : Action T → Prop
  | .cancelWait _ | .destroy _ => NoRequest s
  | _ => True

def Early : Action T → Prop
  | .schedule _ _ clock => clock < 0
  | _ => False

/-! ### The rank -/

def segment : List (Element TimerNotification) → List (Element TimerNotification)
  | [] => []
  | e :: l => if e.nf.isRequest then [e] else e :: segment l

theorem segment_append {l₁ l₂ : List (Element TimerNotification)}
    (hl₁ : ∀ e' ∈ l₁, e'.nf.isRequest = false) (hreq : e.nf.isRequest = true) :
    segment (l₁ ++ e :: l₂) = l₁ ++ [e] := by
  induction l₁ with
  | nil => exact if_pos hreq
  | cons e' l₁ ih =>
    have hfal := hl₁ e' (mem_cons_self ..)
    simp only [cons_append, segment, hfal, Bool.false_eq_true, if_false]
    rw [ih fun e'' he'' => hl₁ e'' (mem_cons_of_mem e' he'')]

theorem mem_segment_of_head {l : List (Element TimerNotification)} (he : e ∈ l.head?) :
    e ∈ segment l := by
  obtain ⟨l', rfl⟩ := head?_eq_some_iff.mp he
  unfold segment
  split
  · exact mem_singleton_self e
  · exact mem_cons_self ..

def effort (nodes : List ℕ) : Place → ℕ
  | .dequeueing (.looping _) => 10
  | .dequeueing (.holding it _) => if it ∈ nodes then 9 else 17
  | .dequeueing (.measuring _ _ _ _) => 16
  | .dequeueing (.sleeping _ _ _ _ _) => 15
  | .dequeueing (.pausing _) => 16
  | .dequeueing (.blocked _ _) => 15
  | .dequeueing (.taking it) => if it ∈ nodes then 8 else 14
  | .dequeueing .idle => 0
  | .executing _ => 13
  | .running _ _ => 12
  | .ran _ _ => 11
  | .purged _ => 11
  | .ended => 0
  | .undefined => 0

def rank (s : State T) : ℕ :=
  match s.thread with
  | .executing pNf =>
    if pNf.isRequest then 0 else 20 * (segment s.queue.nfQueue).length + 13
  | place =>
    20 * (segment s.queue.nfQueue).length +
      effort ((segment s.queue.nfQueue).map Element.node) place

theorem rank_of_serving (h : s.thread.Serving) : rank s = 20 * (segment s.queue.nfQueue).length +
      effort ((segment s.queue.nfQueue).map Element.node) s.thread := by
  unfold rank
  cases ht : s.thread with
  | executing pNf =>
    rw [ht] at h
    simp only [show pNf.isRequest = false from h]
    rfl
  | _ => rfl

theorem rank_of_executing
    (ht : s.thread = .executing pNf) (hreq : pNf.isRequest = true) : rank s = 0 := by
  simp only [rank, ht, hreq, if_true]

/-! ### Steps of the timer's thread -/

theorem First.head_due (h : First q e) (hq : QueueInv q) (hreq : e.nf.isRequest = true) :
    ∃ e₀ ∈ q.nfQueue.head?, e₀.due ≤ 0 := by
  obtain ⟨l₁, l₂, hspl, -⟩ := h
  have hle := hq.due_le hspl hreq
  cases l₁ with
  | nil => exact ⟨e, by rw [hspl]; rfl, hle e (mem_singleton_self e)⟩
  | cons e₀ l₁ => exact ⟨e₀, by rw [hspl]; rfl, hle e₀ (mem_cons_self ..)⟩

/-- If there is a request, the event is set while the timer's thread waits for it. -/
theorem First.set_of_unready (h : First q e) (hq : QueueInv q) (hreq : e.nf.isRequest = true)
    (hw : Unready q) : q.nfAvailable = true := by
  obtain ⟨e₀, he₀, hdue⟩ := h.head_due hq hreq
  rcases hw with hset | hlat
  · exact hset
  · exact absurd (hlat e₀ he₀) (not_lt.mpr hdue)

theorem First.due_of_mem_segment (h : First q e) (hq : QueueInv q)
    (hreq : e.nf.isRequest = true) : ∀ e' ∈ segment q.nfQueue, e' ∈ q.nfQueue ∧ e'.due ≤ 0 := by
  obtain ⟨l₁, l₂, hspl, hl₁⟩ := h
  intro e' he'
  rw [hspl, segment_append hl₁ hreq] at he'
  refine ⟨?_, hq.due_le hspl hreq e' he'⟩
  rw [hspl, append_cons]
  exact mem_append_left _ he'

theorem Dequeue.effort_lt
    {q' : TimedNotificationQueue TimerNotification} (hd : Dequeue q clock c m (.goes q' c'))
    (h : First q e) (hq : QueueInv q) (hreq : e.nf.isRequest = true) (hclk : 0 ≤ clock)
    (hw : Watch q c) : effort ((segment q.nfQueue).map Element.node) (.dequeueing c') <
      effort ((segment q.nfQueue).map Element.node) (.dequeueing c) := by
  cases hd with
  | empty hnil =>
    have hmem := h.mem
    rw [hnil] at hmem
    cases hmem
  | begin he =>
    have hnode := mem_map_of_mem (f := Element.node) (mem_segment_of_head he)
    simp only [effort, if_pos hnode]
    omega
  | due he =>
    simp only [effort]
    split <;> omega
  | @later e₁ he₁ hlat =>
    -- what stands before the request is due, so this element does not
    have hnode : e₁.node ∉ (segment q.nfQueue).map Element.node := by
      intro hmem
      obtain ⟨e₂, he₂, hnode⟩ := mem_map.mp hmem
      obtain ⟨hmem₂, hdue⟩ := h.due_of_mem_segment hq hreq e₂ he₂
      obtain rfl : e₂ = e₁ := hq.eq_of_node hmem₂ he₁ hnode
      omega
    simp only [effort, if_neg hnode]
    omega
  | sleep | wake hset | pause | resume hset =>
    simp only [effort]
    omega
  | more huns | expire huns => cases huns.symm.trans (h.set_of_unready hq hreq hw)

variable {s s' : State T} {pNf : TimerNotification}

/-- An element is taken out of the queue.  If it is not the first request, that request
stays the first one; if it stands before it, one element less does. -/
theorem First.erase (h : First q e) (hq : QueueInv q) (hreq : e.nf.isRequest = true)
    (he' : e' ∈ q.nfQueue) (hne : e' ≠ e) :
    First (q.erase e'.node) e ∧
      if e'.node ∈ (segment q.nfQueue).map Element.node then
        (segment (q.erase e'.node).nfQueue).length + 1 = (segment q.nfQueue).length
      else segment (q.erase e'.node).nfQueue = segment q.nfQueue := by
  obtain ⟨l₁, l₂, hspl, hl₁⟩ := h
  have hseg : segment q.nfQueue = l₁ ++ [e] := by rw [hspl, segment_append hl₁ hreq]
  rw [hseg]
  rw [append_cons] at hspl
  by_cases hnode : e'.node ∈ (l₁ ++ [e]).map Element.node
  · have hmem : e' ∈ l₁ := by
      obtain ⟨e'', he'', heq⟩ := mem_map.mp hnode
      obtain rfl := hq.eq_of_node (hspl ▸ mem_append_left l₂ he'') he' heq
      exact (mem_append.mp he'').resolve_right fun h => hne (mem_singleton.mp h)
    have hera : (q.erase e'.node).nfQueue = l₁.eraseP (fun e => e.node = e'.node) ++ e :: l₂ := by
      rw [TimedNotificationQueue.erase, hspl, ← append_cons]
      exact eraseP_append_left (p := fun e => decide (e.node = e'.node)) (by simp) _ hmem
    have hsub : ∀ e'' ∈ l₁.eraseP (fun e => e.node = e'.node), e''.nf.isRequest = false :=
      fun e'' he'' => hl₁ e'' (eraseP_sublist.subset he'')
    refine ⟨⟨_, l₂, hera, hsub⟩, ?_⟩
    rw [if_pos hnode, hera, segment_append hsub hreq]
    have hlen := length_eraseP_of_mem (p := fun e => decide (e.node = e'.node)) hmem (by simp)
    have hpos := length_pos_of_mem hmem
    simp only [length_append, length_singleton]
    omega
  · have hera : (q.erase e'.node).nfQueue = l₁ ++ e :: l₂.eraseP (fun e => e.node = e'.node) := by
      rw [TimedNotificationQueue.erase, hspl, append_cons l₁ e (l₂.eraseP _)]
      refine eraseP_append_right _ fun e'' he'' heq => hnode ?_
      exact of_decide_eq_true heq ▸ mem_map_of_mem he''
    refine ⟨⟨l₁, _, hera, hl₁⟩, ?_⟩
    rw [if_neg hnode, hera, segment_append hl₁ hreq]

variable {a : Action T} {call : ℕ} {t : T}

theorem First.segment_enqueue (h : First q e) (hq : QueueInv q) (hreq : e.nf.isRequest = true)
    (pNf : TimerNotification) (hdue : 0 ≤ due) :
    segment (q.enqueueNotification pNf due).nfQueue = segment q.nfQueue := by
  obtain ⟨l₁, l₂, hspl, hl₁⟩ := h
  rw [hq.enqueue_behind hspl hreq pNf hdue, hspl, segment_append hl₁ hreq,
    segment_append hl₁ hreq]

/-- The queue stays, and the timer's thread comes closer to its next element. -/
theorem coming_of_effort_lt (hfst : First s.queue e) (hser : s.thread.Serving)
    (hqu : s'.queue = s.queue) (hser' : s'.thread.Serving)
    (hlt : effort ((segment s.queue.nfQueue).map Element.node) s'.thread <
      effort ((segment s.queue.nfQueue).map Element.node) s.thread) :
    Coming s' e.nf ∧ rank s' < rank s := by
  refine ⟨.inl ⟨e, hqu ▸ hfst, rfl, hser'⟩, ?_⟩
  rw [rank_of_serving hser, rank_of_serving hser', hqu]
  omega

theorem Coming.timer (hs : Inv s) (hreq : pNf.isRequest = true) (h : Coming s pNf)
    (hstep : TimerOutcome s m s') : Done s' pNf ∨ Coming s' pNf ∧ rank s' < rank s := by
  rcases h with ⟨e, hfst, rfl, hser⟩ | hexc
  · have hrank := rank_of_serving hser
    cases hstep with
    | @goes c c' m q ht hd hqu hnod hc =>
      have hplc := hs.place
      rw [ht] at hplc hrank
      -- the queue keeps its elements, so only the place of the thread counts
      have hfst' : First q e := by
        obtain ⟨l₁, l₂, hspl, hl₁⟩ := hfst
        exact ⟨l₁, l₂, hqu.trans hspl, hl₁⟩
      have hlt := hd.effort_lt hfst hs.queue hreq hs.clock hplc.watch
      refine .inr ⟨.inl ⟨e, hfst', rfl, trivial⟩, ?_⟩
      rw [hrank, rank_of_serving (by trivial)]
      simp only [hqu]
      omega
    | @takes e' ht he' =>
      have hplc := hs.place
      rw [ht] at hplc hrank
      by_cases hne : e' = e
      · subst hne
        refine .inr ⟨.inr rfl, ?_⟩
        rw [hrank, rank_of_executing rfl hreq]
        have hnode : e'.node ∈ (segment s.queue.nfQueue).map Element.node := by
          obtain ⟨l₁, l₂, hspl, hl₁⟩ := hfst
          rw [hspl, segment_append hl₁ hreq]
          exact mem_map_of_mem (mem_append_right _ (mem_singleton_self _))
        simp only [effort, if_pos hnode]
        omega
      · -- it is a task, since a request the thread has an iterator to is the first one
        have htask : e'.nf.isRequest = false := by
          cases hreq' : e'.nf.isRequest with
          | false => rfl
          | true => exact absurd ((hplc.first e' he' rfl hreq').unique hfst hreq' hreq) hne
        obtain ⟨hfst', hlen⟩ := hfst.erase hs.queue hreq he' hne
        refine .inr ⟨.inl ⟨e, hfst', rfl, htask⟩, ?_⟩
        rw [hrank, rank_of_serving (by exact htask)]
        simp only [effort]
        split at hlen
        · next hmem =>
          simp only [if_pos hmem]
          omega
        · next hmem =>
          simp only [if_neg hmem, hlen]
          omega
    | stop ht | cancel ht =>
      rw [ht] at hser
      cases hser
    | skip ht | run ht | finish ht =>
      refine .inr (coming_of_effort_lt hfst hser rfl trivial ?_)
      rw [ht]
      simp [effort]
    | again ht | set ht =>
      refine .inr (coming_of_effort_lt hfst hser rfl trivial ?_)
      rw [ht]
      simp [effort, Place.again]
    | @reschedule pTask repeats repeats' next ht hnext =>
      -- the task goes behind the request
      have hseg := hfst.segment_enqueue hs.queue hreq (.task pTask repeats')
        (hs.clock.trans hnext)
      refine .inr ⟨.inl ⟨e, hfst.enqueue hs.queue hreq nofun, rfl, trivial⟩, ?_⟩
      rw [hrank, rank_of_serving (by trivial), ht]
      simp only [hseg, effort, Place.again]
      omega
  · cases hstep with
    | stop ht =>
      cases hexc.symm.trans ht
      exact .inl rfl
    | cancel ht =>
      cases hexc.symm.trans ht
      exact .inl (.inl rfl)
    | skip ht | run ht =>
      cases hexc.symm.trans ht
      cases hreq
    | goes ht | takes ht | finish ht | again ht | reschedule ht
    | set ht => cases hexc.symm.trans ht

theorem Coming.enabled (hs : Inv s) (hreq : pNf.isRequest = true) (h : Coming s pNf) :
    ∃ m, s.timerStep m ≠ none := by
  rcases h with ⟨e, hfst, rfl, hser⟩ | hexc
  · have hplc := hs.place
    cases ht : s.thread with
    | dequeueing c =>
      rw [ht] at hplc
      -- whatever the thread does next in the queue, it is not blocked
      have hnext : ∃ m, s.queue.move s.clock c m ≠ none := by
        have hw := hplc.watch
        cases c with
        | idle => exact hw.elim
        | looping milliseconds =>
          refine ⟨.begin, ?_⟩
          simp only [move]
          split
          · simp
          · split <;> simp
        | holding it milliseconds =>
          refine ⟨.inspect, ?_⟩
          simp only [move]
          split
          · simp
          · split
            · simp
            · split <;> simp
        | measuring it interval milliseconds now => exact ⟨.sleep, by simp [move]⟩
        | sleeping it interval started milliseconds now | blocked milliseconds now =>
          cases milliseconds with
          | some m => exact hw.elim
          | none =>
            have hset := hfst.set_of_unready hs.queue hreq hw
            exact ⟨.wake, by simp [move, hset]⟩
        | taking it =>
          refine ⟨.dequeueOne, ?_⟩
          simp only [move]
          split <;> simp
        | pausing milliseconds =>
          cases milliseconds with
          | some m => exact hw.elim
          | none => exact ⟨.pause, by simp [move]⟩
      obtain ⟨m, hm⟩ := hnext
      refine ⟨.dequeue m, ?_⟩
      simp only [State.timerStep, ht]
      exact fun hnone => hm (Option.map_eq_none_iff.mp hnone)
    | executing pNf => exact ⟨.execute, by simp [State.timerStep, ht]⟩
    | running pTask repeats => exact ⟨.finish, by simp [State.timerStep, ht]⟩
    | ran pTask repeats => exact ⟨.reschedule, by simp [State.timerStep, ht]⟩
    | purged call => exact ⟨.set, by simp [State.timerStep, ht]⟩
    | ended | undefined =>
      rw [ht] at hser
      exact hser.elim
  · exact ⟨.execute, by simp [State.timerStep, hexc]⟩

/-! ### Steps of other threads -/

theorem Coming.enqueue (hs : Inv s) (hreq : pNf.isRequest = true) (h : Coming s pNf)
    (hdue : pNf'.isRequest = true → due = 0)
    (hqu : s'.queue = s.queue.enqueueNotification pNf' due) (hthr : s'.thread = s.thread) :
    Coming s' pNf := by
  rcases h with ⟨e, hfst, rfl, hser⟩ | hexc
  · exact .inl ⟨e, hqu ▸ hfst.enqueue hs.queue hreq hdue, rfl, hthr ▸ hser⟩
  · exact .inr (hthr.trans hexc)

/-- It is not put off by what is not due before clock value 0. -/
theorem Coming.rank_enqueue (hs : Inv s) (hreq : pNf.isRequest = true) (h : Coming s pNf)
    (hdue : 0 ≤ due)
    (hqu : s'.queue = s.queue.enqueueNotification pNf' due) (hthr : s'.thread = s.thread) :
    rank s' = rank s := by
  rcases h with ⟨e, hfst, rfl, hser⟩ | hexc
  · rw [rank_of_serving hser, rank_of_serving (hthr ▸ hser), hqu, hthr,
      hfst.segment_enqueue hs.queue hreq pNf' hdue]
  · rw [rank_of_executing hexc hreq, rank_of_executing (hthr.trans hexc) hreq]

theorem Coming.congr (h : Coming s pNf) (hqu : s'.queue = s.queue)
    (hthr : s'.thread = s.thread) : Coming s' pNf := by
  rw [Coming, hqu, hthr]
  exact h

theorem rank_congr (hqu : s'.queue = s.queue) (hthr : s'.thread = s.thread) :
    rank s' = rank s := by
  rw [rank, rank, hqu, hthr]

theorem Coming.not_noRequest (hreq : pNf.isRequest = true) (h : Coming s pNf) : ¬ NoRequest s := by
  rintro ⟨hqu, hthr⟩
  rcases h with ⟨e, hfst, rfl, -⟩ | hexc
  · cases hreq.symm.trans (hqu e hfst.mem)
  · rw [hexc] at hthr
    cases hreq.symm.trans hthr

variable [DecidableEq T]

theorem Coming.others (hs : Inv s) (hreq : pNf.isRequest = true) (h : Coming s pNf)
    (hg : RequestsAlone s a) (ha : ∀ m, a ≠ .timer m) (hstep : step s a = some s') :
    Coming s' pNf ∧ (¬ Early a → rank s' = rank s) := by
  cases outcome_of_step hstep with
  | tick | cancelTask | cancelled | joined => exact ⟨h.congr rfl rfl, fun _ => rank_congr rfl rfl⟩
  | schedule =>
    refine ⟨h.enqueue hs hreq (fun hp => by cases hp) rfl rfl, fun hlate => ?_⟩
    exact h.rank_enqueue hs hreq (not_lt.mp hlate) rfl rfl
  | cancel =>
    refine ⟨h.enqueue hs hreq (fun _ => rfl) rfl rfl, fun _ => ?_⟩
    exact h.rank_enqueue hs hreq le_rfl rfl rfl
  | cancelWait | destroy => exact absurd hg (h.not_noRequest hreq)
  | timer => exact absurd rfl (ha _)

/-! ### Those who wait -/

/-- A thread stays where it is, returns, or enqueues a request and waits for it. -/
theorem client_of_step (hs : Inv s) (hstep : step s a = some s') (t : T) :
    s'.client t = s.client t ∨ s'.client t = .idle ∨
    ∃ pNf, (s'.client t).request = some pNf ∧ s.destroyed = false ∧
      (RequestsAlone s a → NoRequest s) ∧ s'.thread = s.thread ∧
      s'.queue = s.queue.enqueueNotification pNf 0 := by
  have hmove : ∀ (t' : T) (c : Client), update s.client t' c t = s.client t ∨
      update s.client t' c t = c := by
    intro t' c
    rcases Threads.place_cases (rfl : update s.client t' c t = _) with ⟨-, heq⟩ | ⟨-, heq⟩
    · exact .inr heq.symm
    · exact .inl heq.symm
  cases outcome_of_step hstep with
  | tick | schedule | cancelTask | cancel => exact .inl rfl
  | @cancelWait t' hd =>
    refine (hmove t' (.cancelling s.calls)).imp_right fun h => .inr ?_
    exact ⟨.cancel s.calls, congrArg Client.request h, hd, id, rfl, rfl⟩
  | @destroy t' hd =>
    refine (hmove t' .joining).imp_right fun h => .inr ?_
    exact ⟨.stop, congrArg Client.request h, hd, id, rfl, rfl⟩
  | @cancelled t' | @joined t' => exact (hmove t' .idle).imp_right .inl
  | timer hm =>
    refine .inl ?_
    cases timerOutcome_of_step hs.queue hs.clock hs.place hm <;> rfl

theorem Client.eq_of_request_cancel {c : Client} (h : c.request = some (.cancel call)) :
    c = .cancelling call := by
  cases c with
  | idle => cases h
  | cancelling call' =>
    cases h
    rfl
  | joining => cases h

theorem finished_of_step (hs : Inv s) (ht : s.client t = .cancelling call)
    (hfin : s.finished call = true) (hstep : step s a = some s')
    (ht' : s'.client t = .cancelling call) : s'.finished call = true := by
  cases outcome_of_step hstep with
  | @cancelled t₂ call₂ hcall =>
    -- the thread that returns is not this one, so its call is another one
    have htt : t₂ ≠ t := by
      rintro rfl
      simp at ht'
    have hne : call ≠ call₂ := by
      rintro rfl
      exact htt (hs.unique t₂ t call hcall ht)
    exact (update_of_ne hne _ _).trans hfin
  | timer hm =>
    cases timerOutcome_of_step hs.queue hs.clock hs.place hm with
    | @set call₂ =>
      show update s.finished call₂ true call = true
      rw [update_apply, hfin]
      exact ite_self true
    | _ => exact hfin
  | _ => exact hfin

theorem client_of_cancelled (hstep : step s (.cancelled t) = some s') : s'.client t = .idle := by
  cases outcome_of_step hstep with
  | cancelled => exact update_self ..

theorem client_of_joined (hstep : step s (.joined t) = some s') : s'.client t = .idle := by
  cases outcome_of_step hstep with
  | joined => exact update_self ..

theorem thread_of_others (ha : ∀ m, a ≠ .timer m) (hstep : step s a = some s') :
    s'.thread = s.thread := by
  cases outcome_of_step hstep with
  | timer => exact absurd rfl (ha _)
  | _ => rfl

theorem thread_of_purged (ht : s.thread = .purged call) (hstep : step s a = some s') :
    (∀ m, a ≠ .timer m) ∧ s'.thread = .purged call ∨ s'.finished call = true := by
  by_cases ha : ∃ m, a = .timer m
  · obtain ⟨m, rfl⟩ := ha
    refine .inr ?_
    cases m <;> simp only [step, State.timerStep, ht] at hstep <;> cases hstep
    exact update_self ..
  · have hoth : ∀ m, a ≠ .timer m := fun m hm => ha ⟨m, hm⟩
    exact .inl ⟨hoth, (thread_of_others hoth hstep).trans ht⟩

theorem thread_of_ended (ht : s.thread = .ended) (hstep : step s a = some s') :
    s'.thread = .ended := by
  by_cases ha : ∃ m, a = .timer m
  · obtain ⟨m, rfl⟩ := ha
    cases m <;> simp only [step, State.timerStep, ht] at hstep <;> cases hstep
  · exact (thread_of_others (fun m hm => ha ⟨m, hm⟩) hstep).trans ht

theorem Done.step (hs : Inv s) (h : Done s pNf) (ht : (s.client t).request = some pNf)
    (hstep : Timer.step s a = some s') (ht' : (s'.client t).request = some pNf) : Done s' pNf := by
  cases pNf with
  | stop => exact thread_of_ended h hstep
  | cancel call =>
    rcases h with hpur | hfin
    · exact (thread_of_purged hpur hstep).imp And.right id
    · exact .inr (finished_of_step hs (Client.eq_of_request_cancel ht) hfin hstep
        (Client.eq_of_request_cancel ht'))
  | task pTask repeats => exact h

/-- Every thread that waits for a request waits for one that is coming or was executed. -/
def Attended (s : State T) : Prop :=
  ∀ t pNf, (s.client t).request = some pNf → Coming s pNf ∨ Done s pNf

theorem Client.isRequest_of_request {c : Client} (h : c.request = some pNf) :
    pNf.isRequest = true := by
  cases c with
  | idle => cases h
  | cancelling call | joining => exact Option.some.inj h ▸ rfl

omit [DecidableEq T] in
theorem coming_of_alone (hs : Inv s) (hdes : s.destroyed = false) (hnone : NoRequest s)
    (hs' : s'.queue = s.queue.enqueueNotification pNf 0) (ht : s'.thread = s.thread) :
    Coming s' pNf := by
  refine .inl ⟨s.queue.element pNf 0, ?_, rfl, ?_⟩
  · obtain ⟨l₁, l₂, hl, hins⟩ :=
      Multimap.exists_insert Element.due (s.queue.element pNf 0) s.queue.nfQueue
    refine ⟨l₁, l₂, hs' ▸ hins, fun e' he' => hnone.1 e' ?_⟩
    rw [hl]
    exact mem_append_left _ he'
  · obtain ⟨hended, -, -⟩ := hs.alive hdes
    rw [ht]
    have hplc := hs.place
    have hthr := hnone.2
    cases hc : s.thread with
    | executing pNf =>
      rw [hc] at hthr
      exact hthr
    | ended => exact absurd hc hended
    | undefined =>
      rw [hc] at hplc
      exact hplc.elim
    | _ => trivial

theorem Attended.step (hs : Inv s) (h : Attended s) (hg : RequestsAlone s a)
    (hstep : Timer.step s a = some s') : Attended s' := by
  intro t pNf ht'
  rcases client_of_step hs hstep t with hsame | hidle | ⟨pNf', hpNf, hd, hg', hthr, hqu⟩
  · have ht : (s.client t).request = some pNf := hsame ▸ ht'
    have hreq := Client.isRequest_of_request ht
    rcases h t pNf ht with hcom | hdone
    · by_cases ha : ∃ m, a = .timer m
      · obtain ⟨m, rfl⟩ := ha
        have hout := timerOutcome_of_step hs.queue hs.clock hs.place hstep
        rcases hcom.timer hs hreq hout with hdone | ⟨hcom, -⟩
        · exact .inr hdone
        · exact .inl hcom
      · exact .inl (hcom.others hs hreq hg (fun m hm => ha ⟨m, hm⟩) hstep).1
    · exact .inr (hdone.step hs ht hstep ht')
  · rw [hidle] at ht'
    cases ht'
  · cases hpNf.symm.trans ht'
    exact .inl (coming_of_alone hs hd (hg' hg) hqu hthr)

/-! ### Progress -/

structure Scheduled {clock : ℕ} (b : (threads T clock).Behaviour) : Prop where
  timer : b.Fair fun a => ∃ m, a = .timer m
  cancelled : ∀ t, b.Fair fun a => a = .cancelled t
  joined : ∀ t, b.Fair fun a => a = .joined t
  late : ∃ n₀, ∀ n a, n₀ ≤ n → b.action n = some a → ¬ Early a

structure Completes {clock : ℕ} (b : (threads T clock).Behaviour) : Prop where
  cancel : ∀ n t call, (b.state n).client t = .cancelling call →
    ∃ m, n ≤ m ∧ (b.state m).client t ≠ .cancelling call
  destroy : ∀ n t, (b.state n).client t = .joining →
    ∃ m, n ≤ m ∧ (b.state m).client t ≠ .joining

section Progress

variable {b : (threads T clock).Behaviour}

theorem inv_of_behaviour (hb : b.Meets RequestsAlone) (n : ℕ) :
    Inv (b.state n) ∧ Attended (b.state n) := by
  refine Machine.Behaviour.invariant (I := fun s => Inv s ∧ Attended s) hb
    ⟨inv_start clock, fun t pNf ht => by cases ht⟩ ?_ n
  intro s a s' hs hg hstep
  exact ⟨hs.1.step hstep, hs.2.step hs.1 hg hstep⟩

variable {n : ℕ}

theorem exists_done (hb : b.Meets RequestsAlone) (hsch : Scheduled b)
    (ht : ((b.state n).client t).request = some pNf) :
    ∃ m, n ≤ m ∧ (((b.state m).client t).request ≠ some pNf ∨ Done (b.state m) pNf) := by
  obtain ⟨n₀, hlate⟩ := hsch.late
  have hreq := Client.isRequest_of_request ht
  have hena : ∀ k, n₀ ≤ k → ((b.state k).client t).request = some pNf ∧ Coming (b.state k) pNf →
      ∃ a, (∃ m, a = .timer m) ∧ step (b.state k) a ≠ none := by
    rintro k - ⟨-, hcom⟩
    obtain ⟨m, hm⟩ := hcom.enabled (inv_of_behaviour hb k).1 hreq
    exact ⟨.timer m, ⟨m, rfl⟩, hm⟩
  by_cases hwt : ((b.state (max n n₀)).client t).request = some pNf
  · rcases (inv_of_behaviour hb (max n n₀)).2 t pNf hwt with hcom | hdone
    · have hlead : ∃ m, max n n₀ ≤ m ∧
          (((b.state m).client t).request ≠ some pNf ∨ Done (b.state m) pNf) := by
        refine Machine.Behaviour.leadsTo_of_rank
          (P := fun s => (s.client t).request = some pNf ∧ Coming s pNf)
          (Q := fun s => (s.client t).request ≠ some pNf ∨ Done s pNf)
          hsch.timer rank hena ?_ (le_max_right ..) ⟨hwt, hcom⟩
        -- the timer's thread comes closer, and others do not put it off
        rintro k a hk ⟨-, hcom⟩ ha
        have hs := (inv_of_behaviour hb k).1
        have hstep := b.next k a ha
        by_cases hwt' : ((b.state (k + 1)).client t).request = some pNf
        · by_cases htim : ∃ m, a = .timer m
          · obtain ⟨m, rfl⟩ := htim
            have hout := timerOutcome_of_step hs.queue hs.clock hs.place hstep
            rcases hcom.timer hs hreq hout with hdone | ⟨hcom', hlt⟩
            · exact .inl (.inr hdone)
            · exact .inr ⟨⟨hwt', hcom'⟩, hlt.le, fun _ => hlt⟩
          · obtain ⟨hcom', hrank⟩ := hcom.others hs hreq (hb k a ha)
              (fun m hm => htim ⟨m, hm⟩) hstep
            refine .inr ⟨⟨hwt', hcom'⟩, (hrank (hlate k a hk ha)).le, fun hA => ?_⟩
            exact absurd hA htim
        · exact .inl (.inl hwt')
      obtain ⟨m, hm, hq⟩ := hlead
      exact ⟨m, (le_max_left ..).trans hm, hq⟩
    · exact ⟨max n n₀, le_max_left .., .inr hdone⟩
  · exact ⟨max n n₀, le_max_left .., .inl hwt⟩

theorem exists_finished (hsch : Scheduled b) (ht : (b.state n).client t = .cancelling call)
    (hpur : (b.state n).thread = .purged call) :
    ∃ m, n ≤ m ∧ ((b.state m).client t ≠ .cancelling call ∨ (b.state m).finished call = true) := by
  refine Machine.Behaviour.leadsTo_of_rank
    (P := fun s => s.client t = .cancelling call ∧ s.thread = .purged call)
    (Q := fun s => s.client t ≠ .cancelling call ∨ s.finished call = true)
    hsch.timer (fun _ => 0) ?_ ?_ (Nat.zero_le n) ⟨ht, hpur⟩
  · rintro k - ⟨-, hpur⟩
    refine ⟨.timer .set, ⟨.set, rfl⟩, ?_⟩
    simp [threads, step, State.timerStep, hpur]
  rintro k a - ⟨-, hpur⟩ ha
  by_cases ht' : (b.state (k + 1)).client t = .cancelling call
  · rcases thread_of_purged hpur (b.next k a ha) with ⟨hoth, hpur'⟩ | hfin
    · refine .inr ⟨⟨ht', hpur'⟩, le_rfl, ?_⟩
      rintro ⟨m, rfl⟩
      exact absurd rfl (hoth m)
    · exact .inl (.inr hfin)
  · exact .inl (.inl ht')

theorem exists_cancelled (hb : b.Meets RequestsAlone) (hsch : Scheduled b)
    (ht : (b.state n).client t = .cancelling call) (hfin : (b.state n).finished call = true) :
    ∃ m, n ≤ m ∧ (b.state m).client t ≠ .cancelling call := by
  refine Machine.Behaviour.leadsTo_of_rank
    (P := fun s => s.client t = .cancelling call ∧ s.finished call = true)
    (Q := fun s => s.client t ≠ .cancelling call)
    (hsch.cancelled t) (fun _ => 0) ?_ ?_ (Nat.zero_le n) ⟨ht, hfin⟩
  · rintro k - ⟨ht, hfin⟩
    refine ⟨.cancelled t, rfl, ?_⟩
    simp [threads, step, ht, hfin]
  rintro k a - ⟨ht, hfin⟩ ha
  have hs := (inv_of_behaviour hb k).1
  have hstep := b.next k a ha
  by_cases ht' : (b.state (k + 1)).client t = .cancelling call
  · refine .inr ⟨⟨ht', finished_of_step hs ht hfin hstep ht'⟩, le_rfl, ?_⟩
    rintro rfl
    cases (client_of_cancelled hstep).symm.trans ht'
  · exact .inl ht'

theorem exists_joined (hsch : Scheduled b) (ht : (b.state n).client t = .joining)
    (hended : (b.state n).thread = .ended) : ∃ m, n ≤ m ∧ (b.state m).client t ≠ .joining := by
  refine Machine.Behaviour.leadsTo_of_rank (P := fun s => s.client t = .joining ∧ s.thread = .ended)
    (Q := fun s => s.client t ≠ .joining)
    (hsch.joined t) (fun _ => 0) ?_ ?_ (Nat.zero_le n) ⟨ht, hended⟩
  · rintro k - ⟨ht, hended⟩
    refine ⟨.joined t, rfl, ?_⟩
    simp [threads, step, ht, hended]
  rintro k a - ⟨-, hended⟩ ha
  have hstep := b.next k a ha
  by_cases ht' : (b.state (k + 1)).client t = .joining
  · refine .inr ⟨⟨ht', thread_of_ended hended hstep⟩, le_rfl, ?_⟩
    rintro rfl
    cases (client_of_joined hstep).symm.trans ht'
  · exact .inl ht'

theorem shutdown_completes (hb : b.Meets RequestsAlone) (hsched : Scheduled b) : Completes b where
  cancel := by
    intro n t call ht
    -- the request is executed, the event is set, and the thread returns
    have hreq : ((b.state n).client t).request = some (.cancel call) := by rw [ht]; rfl
    obtain ⟨k, hk, hleft | hdone⟩ := exists_done hb hsched hreq
    · refine ⟨k, hk, fun heq => hleft ?_⟩
      rw [heq]
      rfl
    by_cases htk : (b.state k).client t = .cancelling call
    · have hfin : ∃ m, k ≤ m ∧ ((b.state m).client t ≠ .cancelling call ∨
          (b.state m).finished call = true) := by
        rcases hdone with hpur | hfin
        · exact exists_finished hsched htk hpur
        · exact ⟨k, le_rfl, .inr hfin⟩
      obtain ⟨m, hm, hleft | hfin⟩ := hfin
      · exact ⟨m, hk.trans hm, hleft⟩
      · by_cases htm : (b.state m).client t = .cancelling call
        · obtain ⟨l, hl, hleft⟩ := exists_cancelled hb hsched htm hfin
          exact ⟨l, hk.trans (hm.trans hl), hleft⟩
        · exact ⟨m, hk.trans hm, htm⟩
    · exact ⟨k, hk, htk⟩
  destroy := by
    intro n t ht
    have hreq : ((b.state n).client t).request = some .stop := by rw [ht]; rfl
    obtain ⟨k, hk, hleft | hdone⟩ := exists_done hb hsched hreq
    · refine ⟨k, hk, fun heq => hleft ?_⟩
      rw [heq]
      rfl
    · by_cases htk : (b.state k).client t = .joining
      · obtain ⟨m, hm, hleft⟩ := exists_joined hsched htk hdone
        exact ⟨m, hk.trans hm, hleft⟩
      · exact ⟨k, hk, htk⟩

end Progress

/-! ### Two runs -/

instance (s : State T) : Decidable (NoRequest s) := inferInstanceAs (Decidable (_ ∧ _))

instance (s : State T) : DecidablePred (RequestsAlone s)
  | .cancelWait _ | .destroy _ => inferInstanceAs (Decidable (NoRequest s))
  | .tick _ | .schedule _ _ _ | .cancelTask _ | .cancel | .cancelled _ | .joined _
  | .timer _ => inferInstanceAs (Decidable True)

def State.quiet (s : State T) : Bool :=
  [TimerStep.execute, .finish, .reschedule, .set, .dequeue .begin, .dequeue .inspect,
    .dequeue .sleep, .dequeue .wake, .dequeue .expire, .dequeue .dequeueOne,
    .dequeue .pause].all fun m => (s.timerStep m).isNone

omit [DecidableEq T] in
theorem State.quiet_iff : s.quiet = true ↔ ∀ m, s.timerStep m = none := by
  simp only [quiet, all_cons, all_nil, Bool.and_true, Bool.and_eq_true,
    Option.isNone_iff_eq_none]
  constructor
  · rintro ⟨h₁, h₂, h₃, h₄, h₅, h₆, h₇, h₈, h₉, h₁₀, h₁₁⟩ m
    cases m with
    | dequeue m => cases m <;> assumption
    | _ => assumption
  · intro h
    simp only [h, and_self]

/-- A run after which no thread can go on is scheduled fairly. -/
theorem scheduled_halting {G : State T → Action T → Prop} [∀ s a, Decidable (G s a)]
    {as : List (Action T)} (h : (threads T clock).execBy G (threads T clock).start as = some s)
    (hqui : s.quiet = true) (hcan : ∀ t, step s (.cancelled t) = none)
    (hjoi : ∀ t, step s (.joined t) = none) : Scheduled (Machine.Behaviour.halting as h) where
  timer := Machine.Behaviour.halting_fair h (by
    rintro a ⟨m, rfl⟩
    exact State.quiet_iff.mp hqui m)
  cancelled := fun t => Machine.Behaviour.halting_fair h (by
    rintro a rfl
    exact hcan t)
  joined := fun t => Machine.Behaviour.halting_fair h (by
    rintro a rfl
    exact hjoi t)
  late := by
    refine ⟨as.length, fun n a hn ha => ?_⟩
    rw [Machine.Behaviour.halting_action h hn] at ha
    cases ha

/-- The steps of the timer's thread from the queue to the execution of a request. -/
def serve : List (Action T) :=
  [.timer (.dequeue .begin), .timer (.dequeue .inspect), .timer (.dequeue .dequeueOne),
    .timer .execute]

/-- A timer that is cancelled with `cancel(true)` and then destroyed. -/
theorem cancel_then_destroy : ∃ b : (threads (Fin 1) 0).Behaviour,
    (b.Meets RequestsAlone ∧ Scheduled b) ∧
    ((b.state 1).client 0 = .cancelling 0 ∧ (b.state 8).client 0 = .joining) ∧
    Completes b := by
  have hrun : (((threads (Fin 1) 0).execBy RequestsAlone (threads (Fin 1) 0).start
      ([.cancelWait 0] ++ serve ++ [.timer .set, .cancelled 0, .destroy 0] ++ serve ++
        [.joined 0])).map fun s => (s.quiet, s.client 0)) = some (true, .idle) := by decide
  obtain ⟨s, hs, hlast⟩ := Option.map_eq_some_iff.mp hrun
  obtain ⟨hqui, hidle⟩ := Prod.mk.inj hlast
  have hcl : ∀ t, s.client t = .idle := fun t => Subsingleton.elim 0 t ▸ hidle
  have hmee := Machine.Behaviour.halting_meets hs
  have hsch := scheduled_halting hs hqui (fun t => by simp [step, hcl])
    fun t => by simp [step, hcl]
  exact ⟨_, ⟨hmee, hsch⟩, ⟨rfl, rfl⟩, shutdown_completes hmee hsch⟩

/-- A timer that is cancelled with `cancel(false)` and destroyed right after that.  Executing
the first request clears the second one away, and the destructor never returns. -/
theorem destructor_hangs : ∃ b : (threads (Fin 1) 0).Behaviour, Scheduled b ∧
    ∃ n, ∀ m, n ≤ m → (b.state m).client 0 = .joining := by
  have hrun : (((threads (Fin 1) 0).execBy (fun _ _ => True) (threads (Fin 1) 0).start
      ([.cancel, .destroy 0] ++ serve ++ [.timer .set, .timer (.dequeue .begin),
        .timer (.dequeue .pause), .timer (.dequeue .wake), .timer (.dequeue .begin),
        .timer (.dequeue .pause)])).map fun s => (s.quiet, s.client 0, s.thread == .ended)) =
      some (true, .joining, false) := by decide
  obtain ⟨s, hs, hlast⟩ := Option.map_eq_some_iff.mp hrun
  obtain ⟨hqui, hrest⟩ := Prod.mk.inj hlast
  obtain ⟨hjoi, hended⟩ := Prod.mk.inj hrest
  have hcl : ∀ t, s.client t = .joining := fun t => Subsingleton.elim 0 t ▸ hjoi
  have hthr : s.thread ≠ .ended := by simpa using hended
  have hsch := scheduled_halting hs hqui (fun t => by simp [step, hcl])
    fun t => by simp [step, hthr]
  refine ⟨_, hsch, 12, fun m hm => ?_⟩
  rw [Machine.Behaviour.halting_state hs hm]
  exact hjoi

end Timer

end Util

end Poco
