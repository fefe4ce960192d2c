import Poco.JSON.Invariant
import Poco.JSON.Traversal

/-!
# The callbacks of the JSON parser are nested

The end of a container is delivered before the mode stack is looked at.  So a closing
bracket that does not match the innermost container is delivered as well, and then
rejected; on any other input, rejected or not, the callbacks are nested.

## Main definitions

* `position`: where the walk is that the callbacks describe, read off the mode stack, the state and
  the type.
* `Follows`: the callbacks have led to the position of the parser.
* `Mismatch`: a closing bracket that does not match the innermost container is about to be
  delivered: the pending value is accepted, and the mode on the stack is not that of the bracket.

## Main results

* `Follows.step`: the callbacks of a round that goes on lead from one position to the next.
* `callbacks_nested_iff`: the callbacks are nested exactly if the run reaches no mismatch.
-/

namespace Poco.JSON

open Modes JSONType Pos

def topCtx (s : States) (t : JSONType) : Modes → Ctx
  | MODE_ARRAY => .array
  | MODE_KEY => if s = .CO then .value else .key
  | _ => if s = .OK ∧ t = JSON_T_NONE then .key else .value

/-- The contexts of the containers around it; an object that has a container as a member
waits for this value. -/
def contexts (ms : List Modes) : List Ctx := ms.filterMap fun
  | MODE_ARRAY => some .array
  | MODE_OBJECT => some .value
  | _ => none

theorem topCtx_next : ∀ (s : States) (k : Classes) (s' : States), transition s k = .next s' →
    (∀ t : JSONType, s.typeOk t → ∀ m : Modes, topCtx s' t m = topCtx s t m) ∧
      (s' = .GO ↔ s = .GO) := by
  apply forall_next
  decide

theorem topCtx_quiet : ∀ (a : Actions) (s : States), a.from s → ∀ t : JSONType, s.typeOk t →
    ∀ m : Modes, s.modeOk t m → ∀ x ∈ a.quiet t, (x.1.isComment = false ∧ s ≠ .GO ∧ x.1 ≠ .GO) ∧
      topCtx x.1 x.2 m = topCtx s t m := by
  decide +kernel

namespace Parser

variable {D : Type}

def position (p : Parser D) : Pos :=
  match p.stack with
  | [] => .finished
  | MODE_DONE :: _ => if p.outerState = .GO then .start else .finished
  | m :: ms => .inside (topCtx p.outerState p.type m) (contexts ms)

structure Follows (p : Parser D) : Prop extends Inv p where
  handler : p.pHandler = true
  log : Pos.start.run p.log = some p.position

theorem follows_fresh (σ : Settings) (h : σ.handler = true) : Follows (fresh σ : Parser D) :=
  { inv_fresh σ with
    handler := h
    log := rfl }

variable {p q : Parser D} {l : List (Callback D)} {a : Actions} {c : UInt8} {r : Bytes}

theorem position_of_cons (hs : p.stack = m :: ms) (hm : m ≠ MODE_DONE) :
    p.position = .inside (topCtx p.outerState p.type m) (contexts ms) := by
  unfold position
  rw [hs]
  cases m <;> first | rfl | exact absurd rfl hm

theorem position_of_done (hs : p.stack = MODE_DONE :: ms) :
    p.position = if p.outerState = .GO then .start else .finished := by
  unfold position
  rw [hs]

theorem position_close (hsta : p.state = .OK) (ht : p.type = JSON_T_NONE)
    (hs : stackBelow p.stack) : p.position = close (contexts p.stack) := by
  have hout : p.outerState = .OK := by simp [outerState, hsta, States.isComment]
  cases hst : p.stack with
  | nil => rw [hst] at hs; cases hs
  | cons m ms =>
    rw [hst] at hs
    cases m with
    | MODE_DONE =>
      cases ms with
      | nil => simp [position, hst, hout, contexts, close]
      | cons => cases hs
    | MODE_ARRAY =>
      rw [position_of_cons hst nofun]
      rfl
    | MODE_OBJECT =>
      rw [position_of_cons hst nofun, hout, ht]
      rfl
    | MODE_KEY | MODE_UNSET => cases hs

variable [StrToDouble D]

theorem delivered_cases (h : delivered p = .ok l) (hp : p.pHandler = true) :
    (p.type = JSON_T_NONE → l = []) ∧ (p.type ≠ JSON_T_NONE → ∃ c, l = [c] ∧ c.isScalar) := by
  unfold delivered at h
  rw [if_pos hp] at h
  unfold bufferValue at h
  cases ht : p.type with
  | JSON_T_NONE =>
    rw [ht] at h
    cases h
    exact ⟨fun _ => rfl, fun hn => absurd rfl hn⟩
  | JSON_T_INTEGER =>
    rw [ht] at h
    refine ⟨nofun, fun _ => ?_⟩
    unfold integerValue at h
    dsimp only at h
    split at h
    · split at h <;> cases h <;> exact ⟨_, rfl, rfl⟩
    · split at h
      · split at h <;> cases h <;> exact ⟨_, rfl, rfl⟩
      · cases h
  | JSON_T_FLOAT =>
    rw [ht] at h
    refine ⟨nofun, fun _ => ?_⟩
    unfold floatValue at h
    dsimp only at h
    split at h
    · cases h
    · split at h
      · cases h
      · split at h
        · cases h; exact ⟨_, rfl, rfl⟩
        · cases h
  | JSON_T_NULL | JSON_T_TRUE | JSON_T_FALSE
  | JSON_T_STRING => rw [ht] at h; cases h; exact ⟨nofun, fun _ => ⟨_, rfl, rfl⟩⟩

omit [StrToDouble D] in
theorem outerState_of_plain (h : p.state.isComment = false) : p.outerState = p.state := by
  simp [outerState, h]

theorem Follows.flush_scalar (hp : Follows p) (hl : delivered p = .ok l)
    (hcom : p.state.isComment = false) (hs : p.stack = m :: ms) (hn : p.type ≠ JSON_T_NONE)
    (hstr : p.type ≠ JSON_T_STRING) :
    m ≠ MODE_DONE ∧
      start.run (p.log ++ l) = some (.inside (topCtx .OK JSON_T_NONE m) (contexts ms)) := by
  obtain ⟨c, rfl, hc⟩ := (delivered_cases hl hp.handler).2 hn
  -- a value is pending only inside an array, or inside an object after a key
  have key : ∀ (s : States) (t : JSONType), s.typeOk t → t ≠ JSON_T_NONE → t ≠ JSON_T_STRING →
      ∀ m : Modes, s.modeOk t m → m ≠ MODE_DONE ∧ topCtx s t m ≠ .key ∧
        (topCtx s t m).next = topCtx .OK JSON_T_NONE m := by decide
  obtain ⟨hm, hctx, hnext⟩ := key _ _ hp.type hn hstr _ (hp.mode_of_state hcom hs)
  refine ⟨hm, ?_⟩
  rw [run_append, hp.log, Option.bind_some, run_singleton, position_of_cons hs hm,
    outerState_of_plain hcom, step_scalar hctx hc, hnext]

theorem Follows.flush_to (hp : Follows p) (hl : delivered p = .ok l)
    (hf : a.from p.state) (ha : a = .m7 ∨ a = .CB) (hs : p.stack = m :: ms)
    (hnone : p.state.typeOk JSON_T_NONE → p.state.modeOk JSON_T_NONE m →
      (p.state = .GO ↔ s = .GO) ∧ topCtx s JSON_T_NONE m = topCtx p.state JSON_T_NONE m)
    (hsome : p.type ≠ JSON_T_NONE → p.type ≠ JSON_T_STRING → p.state.modeOk p.type m → s = .OK) :
    Pos.start.run (p.log ++ l) = some (if m = MODE_DONE then
        if s = .GO then .start else .finished
      else .inside (topCtx s JSON_T_NONE m) (contexts ms)) := by
  have hcom : p.state.isComment = false := by
    rcases ha with rfl | rfl
    · exact (plain_of_from _ _ hf nofun nofun).2
    · exact (plain_of_from _ _ hf nofun nofun).2
  have hstr : p.type ≠ JSON_T_STRING := by
    rcases ha with rfl | rfl
    · exact of_decide_eq_true (Actions.typeOk_of_from .m7 _ hf _ hp.type)
    · exact of_decide_eq_true (Actions.typeOk_of_from .CB _ hf _ hp.type)
  have hmode := hp.mode_of_state hcom hs
  by_cases hn : p.type = JSON_T_NONE
  · obtain rfl := (delivered_cases hl hp.handler).1 hn
    have htype := hp.type
    rw [hn] at hmode htype
    obtain ⟨hGO, hctx⟩ := hnone htype hmode
    rw [List.append_nil, hp.log]
    by_cases hm : m = MODE_DONE
    · subst hm
      simp [position_of_done hs, outerState_of_plain hcom, hGO]
    · rw [if_neg hm, position_of_cons hs hm, outerState_of_plain hcom, hn, hctx]
  · obtain ⟨hm, hrun⟩ := hp.flush_scalar hl hcom hs hn hstr
    rw [hrun, if_neg hm, hsome hn hstr hmode]

theorem Follows.flush (hp : Follows p) (hl : delivered p = .ok l) (hf : Actions.from .m7 p.state)
    (hs : p.stack = m :: ms) :
    Pos.start.run (p.log ++ l) = some (if m = MODE_DONE then .finished
      else .inside (topCtx .OK JSON_T_NONE m) (contexts ms)) := by
  have key : ∀ s : States, Actions.from .m7 s → s.typeOk JSON_T_NONE → ∀ m : Modes,
      s.modeOk JSON_T_NONE m → (s = .GO ↔ States.OK = .GO) ∧
        topCtx .OK JSON_T_NONE m = topCtx s JSON_T_NONE m := by decide
  exact hp.flush_to hl hf (.inl rfl) hs (fun htype => key _ hf htype m) fun _ _ _ => rfl

theorem Follows.flush_comment (hp : Follows p) (hl : delivered p = .ok l)
    (hf : Actions.from .CB p.state) (hs : p.stack = m :: ms) :
    Pos.start.run (p.log ++ l) = some (if m = MODE_DONE then
        if stateAfterComment m p.state = .GO then .start else .finished
      else .inside (topCtx (stateAfterComment m p.state) JSON_T_NONE m) (contexts ms)) := by
  have hnone : ∀ s : States, Actions.from .CB s → s.typeOk JSON_T_NONE → ∀ m : Modes,
      s.modeOk JSON_T_NONE m → (s = .GO ↔ stateAfterComment m s = .GO) ∧
        topCtx (stateAfterComment m s) JSON_T_NONE m = topCtx s JSON_T_NONE m := by decide
  have hsome : ∀ (s : States) (t : JSONType), s.typeOk t → t ≠ JSON_T_NONE → t ≠ JSON_T_STRING →
      ∀ m : Modes, s.modeOk t m → stateAfterComment m s = .OK := by decide
  exact hp.flush_to hl hf (.inr rfl) hs (fun htype => hnone _ hf htype m)
    fun hn hstr => hsome _ _ hp.type hn hstr m

theorem from_m7_of_m8 (s : States) (h : Actions.from .m8 s) : Actions.from .m7 s := by
  revert s
  decide

section

variable (hp : Follows p)
include hp

omit [StrToDouble D] in
/-- Where the walk is when a container begins: at the start, or where a value is due. -/
theorem Follows.begin_position (hf : Actions.from .m6 p.state) :
    (p.position = .start ∧ contexts p.stack = []) ∨
      ∃ c, c ≠ .key ∧ p.position = .inside c (contexts p.stack).tail ∧
        contexts p.stack = c :: (contexts p.stack).tail := by
  obtain ⟨-, hcom⟩ := plain_of_from _ _ hf (by simp) (by simp)
  obtain ⟨m, ms, hs⟩ := hp.exists_mode
  have key : ∀ s : States, Actions.from .m6 s → ∀ (t : JSONType) (m : Modes), s.modeOk t m →
      (m = MODE_DONE ∧ s = .GO) ∨ (m = MODE_ARRAY ∧ topCtx s t m = .array) ∨
        (m = MODE_OBJECT ∧ topCtx s t m = .value) := by decide
  have hout := outerState_of_plain hcom
  rcases key _ hf _ _ (hp.mode_of_state hcom hs) with ⟨rfl, h⟩ | ⟨rfl, h⟩ | ⟨rfl, h⟩
  · left
    refine ⟨by rw [position_of_done hs, hout, if_pos h], ?_⟩
    have hstk := hp.stack
    rw [hs] at hstk ⊢
    cases ms with
    | nil => rfl
    | cons => cases hstk
  · right
    exact ⟨.array, by simp, by rw [position_of_cons hs (by simp), hout, h, hs]; rfl,
      by rw [hs]; rfl⟩
  · right
    exact ⟨.value, by simp, by rw [position_of_cons hs (by simp), hout, h, hs]; rfl,
      by rw [hs]; rfl⟩

omit [StrToDouble D] in
theorem Follows.run_begin (hf : Actions.from .m6 p.state)
    (hbeg : start.step e = some (.inside x []))
    (hins : ∀ {c}, c ≠ .key → ∀ cs, (inside c cs).step e = some (.inside x (c :: cs))) :
    start.run (p.log ++ callbacks p [e]) = some (.inside x (contexts p.stack)) := by
  simp only [callbacks, hp.handler, if_true]
  rw [run_append, hp.log, Option.bind_some, run_singleton]
  rcases hp.begin_position hf with ⟨h1, h2⟩ | ⟨c, hc, h1, h2⟩
  · rw [h1, h2, hbeg]
  · rw [h1, h2, hins hc]
    rfl

theorem Follows.run_end (hl : delivered p = .ok l)
    (hf : Actions.from .m7 p.state) (hs : p.stack = m :: ms) (hm : m ≠ MODE_DONE)
    (hstep : (inside (topCtx .OK JSON_T_NONE m) (contexts ms)).step e =
      some (close (contexts ms))) :
    start.run (p.log ++ l ++ callbacks p [e]) = some (close (contexts ms)) := by
  simp only [callbacks, hp.handler, if_true]
  rw [run_append, hp.flush hl hf hs, if_neg hm, Option.bind_some, run_singleton, hstep]

omit [StrToDouble D] in
theorem Follows.run_quiet (hs : p.stack = m :: ms) (hcom : p.state.isComment = false)
    (hf : a.from p.state) (hstk : q.stack = p.stack) (hlog : q.log = p.log)
    (hq : (q.state, q.type) ∈ a.quiet p.type) : start.run q.log = some q.position := by
  obtain ⟨⟨hcom', hGO, hGO'⟩, htop⟩ :=
    topCtx_quiet a _ hf _ hp.type m (hp.mode_of_state hcom hs) _ hq
  rw [hlog, hp.log]
  by_cases hm : m = MODE_DONE
  · subst hm
    rw [position_of_done hs, position_of_done (hstk.trans hs), outerState_of_plain hcom,
      outerState_of_plain hcom', if_neg hGO, if_neg hGO']
  · rw [position_of_cons hs hm, position_of_cons (hstk.trans hs) hm, outerState_of_plain hcom,
      outerState_of_plain hcom', htop]

theorem Follows.performed (hb : a ≠ .CE → b.dropLast = p.buffer)
    (hf : a.from p.state) (hxx : a ≠ .xx) (h : Performed a { p with buffer := b } q) :
    q.pHandler = true ∧ start.run q.log = some q.position := by
  have hh := hp.handler
  have hlog := hp.log
  by_cases hCE : a = .CE
  · subst hCE
    cases h with
    | CE hbuf ht =>
      have hst : p.state = .C3 := of_decide_eq_true hf
      have hcm : p.state.isComment = true := by rw [hst]; rfl
      have hrest := (resting_typeOk _ (hp.resting hcm)).2.2
      refine ⟨hh, ?_⟩
      rw [hlog]
      -- the walk is where the state that the parser returns to says
      simp only [position, outerState, hcm, hrest, if_true]
      rfl
  replace hb := hb hCE
  obtain ⟨hEC, hcom⟩ := plain_of_from a _ hf hxx hCE
  obtain ⟨m, ms, hs⟩ := hp.exists_mode
  have hmode := hp.mode_of_state hcom hs
  have hout := outerState_of_plain hcom
  have htype := Actions.typeOk_of_from a _ hf _ hp.type
  have moved : ∀ {q : Parser D} {x : Pos}, q.position = x → start.run q.log = some x →
      start.run q.log = some q.position := fun h1 h2 => h1 ▸ h2
  cases h with
  | CE => exact absurd rfl hCE
  | @UC _ bs hi =>
    refine ⟨hh, hp.run_quiet hs hcom hf rfl rfl ?_⟩
    by_cases hhi : hi = 0 <;> simp [Actions.quiet, hhi]
  | EX | MX | ZX | IX | DE | DF | SB | NU | FA | TR =>
    exact ⟨hh, hp.run_quiet hs hcom hf rfl rfl (.head _)⟩
  | @CB _ l m' ms' hc hb' hl ht hs' =>
    cases hs.symm.trans hs'
    rw [hb] at hl
    have hrun := hp.flush_comment hl hf hs
    by_cases hm : m = MODE_DONE
    · subst hm
      exact ⟨hh, moved (position_of_done hs) hrun⟩
    · rw [if_neg hm] at hrun
      exact ⟨hh, moved (position_of_cons hs hm) hrun⟩
  | @m9 _ ms' hs' =>
    cases hs.symm.trans hs'
    have hst : p.state = .OB := of_decide_eq_true hf
    have hnone : p.type = JSON_T_NONE := of_decide_eq_true htype
    refine ⟨hh, moved (position_close rfl hnone (hp.below hs (by simp))) ?_⟩
    simp only [callbacks, hh, if_true]
    rw [run_append, hlog, position_of_cons hs (by simp), hout, hst]
    rfl
  | @m8 _ l ms' hb' hl hs' | @m7 _ l ms' hb' hl hs' =>
    cases hs.symm.trans hs'
    rw [hb] at hl
    have hf : Actions.from .m7 p.state := by first | exact hf | exact from_m7_of_m8 _ hf
    exact ⟨hh,
      moved (position_close rfl rfl (hp.below hs (by simp))) (hp.run_end hl hf hs (by simp) rfl)⟩
  | @m6 _ n hb' hn ht =>
    exact ⟨hh, moved (position_of_cons rfl (by simp)) (hp.run_begin hf rfl step_startObject)⟩
  | @m5 _ n hb' hn ht =>
    exact ⟨hh, moved (position_of_cons rfl (by simp)) (hp.run_begin hf rfl step_startArray)⟩
  | @key _ ms' hb' ht hs' =>
    cases hs.symm.trans hs'
    have hst : p.state = .ST := of_decide_eq_true hf
    refine ⟨hh, moved (position_of_cons hs (by simp)) ?_⟩
    simp only [callbacks, hh, if_true]
    rw [run_append, hlog, position_of_cons hs (by simp), hout, hst]
    rfl
  | @string _ m' ms' hb' ht hs' hm =>
    cases hs.symm.trans hs'
    have hst : p.state = .ST := of_decide_eq_true hf
    have hdone : m ≠ MODE_DONE := by rcases hm with rfl | rfl <;> simp
    refine ⟨hh, moved (position_of_cons hs hdone) ?_⟩
    simp only [callbacks, hh, if_true]
    rw [run_append, hlog, position_of_cons hs hdone, hout, hst, ht]
    rcases hm with rfl | rfl <;> rfl
  | @member _ l ms' n hb' hl hs' hn ht =>
    cases hs.symm.trans hs'
    rw [hb] at hl
    exact ⟨hh, moved (position_of_cons rfl (by simp)) (hp.flush hl (from_m7_of_m8 _ hf) hs)⟩
  | @element _ l ms' hb' hl hs' ht =>
    cases hs.symm.trans hs'
    rw [hb] at hl
    exact ⟨hh, moved (position_of_cons hs (by simp)) (hp.flush hl (from_m7_of_m8 _ hf) hs)⟩
  | @m2 _ ms' n hb' hs' hn ht =>
    cases hs.symm.trans hs'
    have hst : p.state = .CO := of_decide_eq_true hf
    refine ⟨hh, moved (position_of_cons rfl (by simp)) ?_⟩
    rw [hlog, position_of_cons hs (by simp), hout, hst]
    rfl

omit [StrToDouble D] in
theorem Follows.next
    (ht : transition p.state k = .next s) : Follows { fed p c k with state := s } := by
  have hinv := hp.toInv.next (c := c) ht
  obtain ⟨hctx, hGO⟩ := topCtx_next _ _ _ ht
  have hok := next_ok _ _ _ ht
  simp only [States.nextOk, Bool.decide_and, Bool.and_eq_true, decide_eq_true_eq] at hok
  obtain ⟨b, hb⟩ := fed_eq p c k
  rw [hb] at hinv ⊢
  refine { hinv with handler := hp.handler, log := ?_ }
  refine hp.log.trans (congrArg some ?_)
  obtain ⟨m, ms, hs⟩ := hp.exists_mode
  by_cases hcm : p.state.isComment = true
  · simp [position, outerState, hcm, hok.2.2.2.1]
  have hcm : p.state.isComment = false := by simpa using hcm
  have hcm' : s.isComment = false := hok.2.2.2.1.trans hcm
  by_cases hm : m = MODE_DONE
  · subst hm
    simp [position, outerState, hs, hcm, hcm', Bool.false_eq_true, hGO]
  · rw [position_of_cons hs hm, position_of_cons (p := { p with
      buffer := b, escaped := false, state := s }) hs hm]
    simp [outerState, hcm, hcm', Bool.false_eq_true, hctx _ hp.type]

theorem Follows.ascii (h : parseAscii c p = .ok true q) : Follows q := by
  have hinv := hp.toInv.ascii h
  obtain ⟨k, -, -, ⟨s, ht, rfl⟩ | ⟨a, ht, hxx, hP⟩⟩ := parseAscii_eq_true h
  · exact hp.next ht
  · obtain ⟨hfed, happ⟩ := hp.toInv.fed_act (c := c) ht hxx
    rw [hfed] at hP
    obtain ⟨h1, h2⟩ := hp.performed (fun hCE => by rw [happ hCE, List.dropLast_concat])
      (act_from _ _ _ ht hxx).1 hxx hP
    exact { hinv with handler := h1, log := h2 }

omit [StrToDouble D] in
theorem Follows.raw (bs : Bytes) : Follows { p with buffer := p.buffer ++ bs } :=
  { hp.toInv.raw bs with handler := hp.handler, log := hp.log }

theorem Follows.step {s : Bytes} (h : Step (p, s) (q, r)) : Follows q := by
  rcases step_iff.mp h with ⟨c, -, -, h⟩ | ⟨bs, -, -, rfl⟩
  · exact hp.ascii h
  · exact hp.raw bs

theorem Follows.reaches {s : Bytes} (h : Reaches (p, s) (q, r)) : Follows q :=
  Reaches.invariant (I := fun p _ => Follows p) (fun hp hs => hp.step hs) h hp

end

/-! ### The last round -/

def actionOf (p : Parser D) (c : UInt8) : Option Actions :=
  match asciiClass c with
  | none => none
  | some k => match transition p.state k with
    | .next _ => none
    | .act a => some a

omit [StrToDouble D] in
theorem actionOf_eq_some :
    p.actionOf c = some a ↔ ∃ k, asciiClass c = some k ∧ transition p.state k = .act a := by
  unfold actionOf
  cases asciiClass c with
  | none => simp
  | some k => cases ht : transition p.state k <;> simp [ht]

def Mismatch (p : Parser D) : Bytes → Prop
  | [] => False
  | c :: _ => (∃ l, delivered p = .ok l) ∧
    ((p.actionOf c = some .m8 ∧ p.stack.head? ≠ some MODE_OBJECT) ∨
      (p.actionOf c = some .m7 ∧ p.stack.head? ≠ some MODE_ARRAY))

omit [StrToDouble D] in
theorem logOf_pushed {f : Parser D → Result D} (hf : ∀ q, logOf (f q) = q.log) (mode : Modes) :
    logOf (pushed mode p f) = p.log := by
  rw [pushed, push_eq]
  split_ifs
  · rfl
  · exact hf _
  · rfl

theorem Follows.run_flushed (hp : Follows p) {f : List (Callback D) → Result D}
    (hf : ∀ l, delivered p = .ok l → ∃ x, start.run (logOf (f l)) = some x) :
    ∃ x, start.run (logOf (flushed { p with buffer := p.buffer ++ [c] } f)) = some x := by
  rw [flushed, if_neg (by simp)]
  simp only [List.dropLast_concat]
  cases hl : delivered p with
  | error e => exact ⟨_, hp.log⟩
  | ok l => exact hf l hl

/-- The other actions make a callback only when they succeed. -/
theorem logOf_quiet (p : Parser D)
    (ha : a ≠ .CB ∧ a ≠ .m9 ∧ a ≠ .m8 ∧ a ≠ .m7 ∧ a ≠ .m6 ∧ a ≠ .m5 ∧ a ≠ .m3) :
    (∃ q, perform a p = .ok true q) ∨ logOf (perform a p) = p.log := by
  obtain ⟨h1, h2, h3, h4, h5, h6, h7⟩ := ha
  cases a with
  | CB => exact absurd rfl h1
  | m9 => exact absurd rfl h2
  | m8 => exact absurd rfl h3
  | m7 => exact absurd rfl h4
  | m6 => exact absurd rfl h5
  | m5 => exact absurd rfl h6
  | m3 => exact absurd rfl h7
  | UC =>
    right
    rw [perform_UC, decodeUnicodeChar_eq]
    split_ifs
    · rfl
    · rfl
    · cases decoded p.utf16HighSurrogate _ with
      | none | some r => rfl
    · rfl
  | EX => exact .inl ⟨_, perform_EX p⟩
  | MX | ZX | IX => exact .inl ⟨_, beginType_eq _ _ p⟩
  | DE | DF =>
    rw [perform, beginFloat_eq]
    split
    · exact .inl ⟨_, rfl⟩
    · exact .inr rfl
  | SB =>
    rw [perform_SB]
    split
    · exact .inl ⟨_, rfl⟩
    · exact .inr rfl
  | NU | FA | TR =>
    rw [perform, beginLiteral_eq]
    split
    · exact .inl ⟨_, rfl⟩
    · exact .inr rfl
  | CE =>
    rw [perform, endComment_eq]
    split
    · exact .inr rfl
    · split
      · exact .inr rfl
      · exact .inl ⟨_, rfl⟩
  | m4 =>
    rw [perform, endString_eq]
    split
    · exact .inr rfl
    · split <;> first
        | exact .inr rfl
        | split <;> first | exact .inl ⟨_, rfl⟩ | exact .inr rfl
  | m2 =>
    rw [perform, colon_eq]
    split
    · exact .inr rfl
    · split
      · exact .inr (logOf_pushed (fun q => by split <;> rfl) MODE_OBJECT)
      · exact .inr rfl
  | xx => exact .inr rfl

/-- What an action leaves of the walk, unless it is the end of a container that does not
match. -/
theorem Follows.logOf_perform (hp : Follows p) (ht : transition p.state k = .act a)
    (h8 : a = .m8 → ∀ l, delivered p = .ok l → p.stack.head? = some MODE_OBJECT)
    (h7 : a = .m7 → ∀ l, delivered p = .ok l → p.stack.head? = some MODE_ARRAY)
    (hok : ∀ q, perform a (fed p c k) = .ok true q → Follows q) :
    ∃ x, start.run (logOf (perform a (fed p c k))) = some x := by
  by_cases hxx : a = .xx
  · subst hxx
    obtain ⟨b, hb⟩ := fed_eq p c k
    rw [hb]
    exact ⟨_, hp.log⟩
  obtain ⟨hfed, happ⟩ := hp.toInv.fed_act (c := c) ht hxx
  have hf := (act_from _ _ _ ht hxx).1
  obtain ⟨m, ms, hs⟩ := hp.exists_mode
  have hh := hp.handler
  by_cases hqui : a ≠ .CB ∧ a ≠ .m9 ∧ a ≠ .m8 ∧ a ≠ .m7 ∧ a ≠ .m6 ∧ a ≠ .m5 ∧ a ≠ .m3
  · rcases logOf_quiet (fed p c k) hqui with ⟨q, hq⟩ | hq
    · rw [hq]
      exact ⟨_, (hok q hq).log⟩
    · rw [hq, hfed]
      exact ⟨_, hp.log⟩
  have hCE : a ≠ .CE := by
    rintro rfl
    exact hqui (by simp)
  have htop : ∀ {mode : Modes}, p.stack.head? = some mode → p.stack = mode :: ms := by
    intro mode hhead
    have hm : m = mode := by simpa [hs] using hhead
    rw [hs, hm]
  rw [hfed, happ hCE] at hok ⊢
  cases a with
  | CB =>
    rw [perform, beginComment_eq]
    split
    · exact ⟨_, hp.log⟩
    refine hp.run_flushed fun l hl => ?_
    have hlog := hp.flush_comment hl hf hs
    split
    · exact ⟨_, hlog⟩
    · split
      · exact ⟨_, hlog⟩
      · exact ⟨_, hlog⟩
  | m9 =>
    have hst : p.state = .OB := of_decide_eq_true hf
    have hmode := hp.mode_of_state (by rw [hst]; rfl) hs
    rw [hst] at hmode
    have hm : m = MODE_KEY := of_decide_eq_true hmode
    subst hm
    have hq := perform_m9 { p with buffer := p.buffer ++ [c] }
    rw [if_pos (by simp [hs])] at hq
    have hlog := (hok _ hq).log
    rw [hq]
    exact ⟨_, hlog⟩
  | m8 =>
    rw [perform, endContainer_eq]
    refine hp.run_flushed fun l hl => ?_
    have hlog :=
      hp.run_end (e := .endObject) hl (from_m7_of_m8 _ hf) (htop (h8 rfl l hl)) (by simp) rfl
    split
    · exact ⟨_, hlog⟩
    · exact ⟨_, hlog⟩
  | m7 =>
    rw [perform, endContainer_eq]
    refine hp.run_flushed fun l hl => ?_
    have hlog := hp.run_end (e := .endArray) hl hf (htop (h7 rfl l hl)) (by simp) rfl
    split
    · exact ⟨_, hlog⟩
    · exact ⟨_, hlog⟩
  | m6 =>
    rw [perform, beginContainer_eq, if_neg (by simp), logOf_pushed fun q => by split <;> rfl]
    exact ⟨_, hp.run_begin hf rfl step_startObject⟩
  | m5 =>
    rw [perform, beginContainer_eq, if_neg (by simp), logOf_pushed fun q => by split <;> rfl]
    exact ⟨_, hp.run_begin hf rfl step_startArray⟩
  | m3 =>
    rw [perform, comma_eq]
    refine hp.run_flushed fun l hl => ?_
    have hlog := hp.flush hl (from_m7_of_m8 _ hf) hs
    split
    · rw [logOf_pushed fun q => by split <;> rfl]
      exact ⟨_, hlog⟩
    · split
      · exact ⟨_, hlog⟩
      · exact ⟨_, hlog⟩
    · exact ⟨_, hlog⟩
    · exact ⟨_, hlog⟩
  | _ => exact absurd (by simp) hqui

/-- What an ASCII character leaves of the walk, unless it is a mismatch. -/
theorem Follows.logOf_ascii (hp : Follows p) (h : ¬ Mismatch p (c :: r)) :
    ∃ x, start.run (logOf (parseAscii c p)) = some x := by
  have hfol := fun q => hp.ascii (c := c) (q := q)
  cases hk : asciiClass c with
  | none =>
    rw [parseAscii_none hk]
    exact ⟨_, hp.log⟩
  | some k =>
    have hbs : p.escaped = true → p.buffer ≠ [] := fun h =>
      hp.backslash (by simpa [hp.escaped] using h)
    rw [parseAscii_eq hk p hbs] at hfol ⊢
    cases ht : transition p.state k with
    | next s =>
      obtain ⟨b, hb⟩ := fed_eq p c k
      rw [hb]
      exact ⟨_, hp.log⟩
    | act a =>
      rw [ht] at hfol
      have hact : p.actionOf c = some a := by simp [actionOf, hk, ht]
      refine hp.logOf_perform ht ?_ ?_ hfol
      · rintro rfl l hl
        by_contra hne
        exact h ⟨⟨l, hl⟩, .inl ⟨hact, hne⟩⟩
      · rintro rfl l hl
        by_contra hne
        exact h ⟨⟨l, hl⟩, .inr ⟨hact, hne⟩⟩

/-- The end of a container is delivered that the walk cannot end there. -/
theorem Follows.not_nested_end (hp : Follows p) (hl : delivered p = .ok l)
    (ha : p.actionOf c = some a) (hxx : a ≠ .xx) (hCE : a ≠ .CE)
    (hm7 : ∀ s : States, a.from s → Actions.from .m7 s) {e : Callback D}
    (hperf : ∀ q, perform a q = endContainer e mode q) (hhead : p.stack.head? ≠ some mode)
    (hstu : ∀ m, m ≠ mode → a.from p.state → p.state.modeOk p.type m → ∀ cs,
      (if m = MODE_DONE then finished else .inside (topCtx .OK JSON_T_NONE m) cs).step e = none) :
    ∃ q, parseAscii c p = .ok false q ∧ ¬ Nested q.log := by
  obtain ⟨k, hk, ht⟩ := actionOf_eq_some.mp ha
  have hf := (act_from _ _ _ ht hxx).1
  obtain ⟨hfed, happ⟩ := hp.toInv.fed_act (c := c) ht hxx
  obtain ⟨m, ms, hs⟩ := hp.exists_mode
  have hbs : p.escaped = true → p.buffer ≠ [] := fun h =>
    hp.backslash (by simpa [hp.escaped] using h)
  have hq := endContainer_eq e mode { p with buffer := p.buffer ++ [c] }
  rw [flushed_of_delivered (by simp) (by simpa using hl)] at hq
  simp only [hhead, if_false] at hq
  refine ⟨_, by rw [parseAscii_eq hk p hbs, ht]; dsimp only; rw [hfed, happ hCE, hperf, hq], ?_⟩
  rw [nested_iff]
  rintro ⟨x, hx⟩
  have hm : m ≠ mode := fun heq => hhead (by rw [hs, heq]; rfl)
  have hmode := hp.mode_of_state (plain_of_from a _ hf hxx hCE).2 hs
  simp only [callbacks, hp.handler, if_true] at hx
  rw [run_append, hp.flush hl (hm7 _ hf) hs, Option.bind_some, run_singleton,
    hstu m hm hf hmode] at hx
  cases hx

theorem Follows.not_nested (hp : Follows p) (h : Mismatch p (c :: r)) :
    ∃ q, parseAscii c p = .ok false q ∧ ¬ Nested q.log := by
  obtain ⟨⟨l, hl⟩, ⟨ha, hhead⟩ | ⟨ha, hhead⟩⟩ := h
  · have key : ∀ s : States, Actions.from .m8 s → ∀ (t : JSONType) (m : Modes), s.modeOk t m →
        m ≠ MODE_KEY ∧ m ≠ MODE_UNSET := by decide
    refine hp.not_nested_end hl ha nofun nofun from_m7_of_m8 (fun _ => rfl) hhead ?_
    intro m hm hf hmode cs
    have hnot := key _ hf _ _ hmode
    cases m with
    | MODE_OBJECT => exact absurd rfl hm
    | MODE_ARRAY | MODE_DONE => rfl
    | MODE_KEY => exact absurd rfl hnot.1
    | MODE_UNSET => exact absurd rfl hnot.2
  · refine hp.not_nested_end hl ha nofun nofun (fun _ => id) (fun _ => rfl) hhead ?_
    intro m hm hf hmode cs
    cases m with
    | MODE_ARRAY => exact absurd rfl hm
    | _ => rfl

/-- **The callbacks are nested exactly if no closing bracket is delivered that does not match
the innermost container**: whatever the input and the settings, and whether the input is
accepted or not, the callbacks made to the handler are a prefix of the walk over a document
if and only if the run reaches no mismatch. -/
theorem callbacks_nested_iff (σ : Settings) (s : Bytes) :
    Nested (logOf (parse s (fresh { σ with handler := true } : Parser D))) ↔
      ∀ q r, Reaches ((fresh { σ with handler := true } : Parser D), s) (q, r) →
        ¬ Mismatch q r := by
  have hfr : Follows (fresh { σ with handler := true } : Parser D) := follows_fresh _ rfl
  constructor
  · intro hn q r hrch hmis
    cases r with
    | nil => exact hmis
    | cons c r =>
      obtain ⟨q', hq', hnot⟩ := (hfr.reaches hrch).not_nested hmis
      have hc : c < 0x80 := by
        rcases UInt8.lt_or_le c 0x80 with hc | hc
        · exact hc
        · have key : ∀ c : UInt8, 0x80 ≤ c → asciiClass c = none := by decide
          rw [parseAscii, key c hc] at hq'
          obtain ⟨-, ⟨ha, -⟩ | ⟨ha, -⟩⟩ := hmis <;> simp [actionOf, key c hc] at ha
      rw [parse_eq, run_reaches hrch, run_ascii hc, hq'] at hn
      exact hnot hn
  · intro hno
    rw [nested_iff, parse_eq]
    rcases run_cases s (fresh { σ with handler := true } : Parser D) with
      ⟨q, hrch, hq⟩ | ⟨p', c, r, q, e, hrch, hq, hend⟩
    · rw [hq]
      dsimp only
      have hlog := (hfr.reaches hrch).log
      split <;> exact ⟨_, hlog⟩
    -- the last round
    have hlog : logOf (parseChar c r p') = q.log := by
      rcases hend with hend | ⟨-, r', hend⟩ <;> rw [hend] <;> rfl
    have hp' := hfr.reaches hrch
    rw [hq]
    change ∃ x, start.run q.log = some x
    rw [← hlog]
    rcases UInt8.lt_or_le c 0x80 with hc | hc
    · have hx := hp'.logOf_ascii (hno _ _ hrch)
      rw [parseChar_ascii hc]
      cases ha : parseAscii c p' <;> rw [ha] at hx <;> exact hx
    · rw [parseChar_raw hc]
      cases readSequence c r with
      | error e' | ok bt => exact ⟨_, hp'.log⟩

/-- `[]]` ends an array when none is open, and `[1}` an object inside an array. -/
theorem callbacks_not_nested :
    ¬ Nested (logOf (parse [0x5B, 0x5D, 0x5D] (fresh {} : Parser Bytes))) ∧
    ¬ Nested (logOf (parse [0x5B, 0x31, 0x7D] (fresh {} : Parser Bytes))) := by
  constructor
  · rw [nested_iff]
    rintro ⟨x, hx⟩
    cases hx
  · rw [nested_iff]
    rintro ⟨x, hx⟩
    cases hx

end Parser

end Poco.JSON
