import Mathlib.Data.List.Nodup
import Poco.Data.SessionPool
import Poco.Lib.Outcome

/-!
# The accounts of the session pool

Three places of the pool drop sessions that lost their connection, under different
conditions, and all of them adjust one counter.  The counter is right after every call
because each session that leaves a list is taken off it and no session is in both lists:
an active session is held by a client, so no new session gets its address.

## Main definitions

* `Accounted`: the pool accounts for its sessions, and for the objects that refer to active ones.

## Main results

* `get_cases`: `get` finds the pool shut down, hands out the first idle session left by the purge,
  or a new session while there is room, or it throws.
* `request_cases`: a request hands out a session that `get` handed out and then configured, or
  passes on what `get` or the accessors throw, after giving the session back.
* `Accounted.step`, `accounts_for_sessions`: the pool accounts for its sessions in every run.
-/

namespace Poco

open List Data

namespace SessionPool

variable {N V : Type} [DecidableEq N] (S : Setup N V)

/-! ### The loops -/

theorem sweep_sublist (allows : ℤ → Bool) (dead : ℕ → Bool) (as : List ℕ) (n : ℤ) :
    (sweep allows dead as n).1.Sublist as := by
  induction as generalizing n with
  | nil => exact .slnil
  | cons a as ih =>
    unfold sweep
    split_ifs
    · exact (ih _).cons a
    · exact (ih n).cons_cons a
    · exact .refl _

theorem sweep_count (allows : ℤ → Bool) (dead : ℕ → Bool) (as : List ℕ) (n : ℤ) :
    (sweep allows dead as n).2 - (sweep allows dead as n).1.length = n - as.length := by
  induction as generalizing n with
  | nil => rfl
  | cons a as ih =>
    unfold sweep
    split_ifs
    · rw [ih, length_cons]
      omega
    · have h := ih n
      simp only [length_cons]
      omega
    · rfl

variable {a impl : ℕ} {t : Settings N W} {p' : SessionPool N V} {r : Request N V}
  {new : Option (ℕ × SessionImpl N V)}

/-- A sweep that the count never stops leaves none of the sessions that are to go. -/
theorem dead_of_mem_sweep {dead : ℕ → Bool}
    (h : a ∈ (sweep (fun _ => true) dead as n).1) : dead a = false := by
  induction as generalizing n with
  | nil => cases h
  | cons b as ih =>
    rw [sweep, if_pos rfl] at h
    split_ifs at h with hb
    · exact ih h
    · rcases mem_cons.mp h with rfl | h
      · exact Bool.eq_false_iff.mpr hb
      · exact ih h

theorem closeAll_eq (as : List ℕ) (n : ℤ) (h : (as.length : ℤ) ≤ n) :
    closeAll as n = n - as.length := by
  induction as generalizing n with
  | nil => exact (Int.sub_zero n).symm
  | cons a as ih =>
    rw [length_cons] at h
    rw [closeAll, ih _ (by omega), length_cons]
    omega

/-! ### Settings that cannot be read or set -/

omit [DecidableEq N] in
theorem get_ne_exhausted : t.get name ≠ .error .exhausted := by
  unfold Settings.get
  split
  · exact nofun
  · split_ifs <;> exact nofun

theorem set_ne_exhausted : t.set name value ≠ .error .exhausted := by
  unfold Settings.set
  split
  · exact nofun
  · split_ifs <;> exact nofun

/-! ### The accounts -/

structure Accounted (p : SessionPool N V) : Prop where
  count : p.nSessions = p.idleSessions.length + p.activeSessions.length
  bound : p.nSessions ≤ S.maxSessions
  nodup : (p.idleSessions ++ p.activeSessions).Nodup
  /-- Active sessions are held by clients, so their addresses are in use. -/
  held : ∀ a ∈ p.activeSessions, ∃ i, (i, a) ∈ p.borrowed
  /-- The objects of the clients have different addresses. -/
  impls : (p.borrowed.map Prod.fst).Nodup
  shut : p.shutdown = true → p.idleSessions = [] ∧ p.activeSessions = []

variable {S} {p : SessionPool N V}

section

variable (hp : Accounted S p)
include hp

section

omit [DecidableEq N]

theorem Accounted.swept (allows : ℤ → Bool) (dead : ℕ → Bool) :
    Accounted S (p.swept allows dead) := by
  have hsub := sweep_sublist allows dead p.idleSessions p.nSessions
  have hcnt := sweep_count allows dead p.idleSessions p.nSessions
  have hlen := hsub.length_le
  have hn := hp.count
  have hmax := hp.bound
  exact
    { count := by simp only [SessionPool.swept]; omega
      bound := by simp only [SessionPool.swept]; omega
      nodup := hp.nodup.sublist (hsub.append_right _)
      held := hp.held
      impls := hp.impls
      shut := by
        intro h
        obtain ⟨hidle, hact⟩ := hp.shut h
        simp only [SessionPool.swept, hidle, hact, sweep, and_self] }

theorem Accounted.purgeDeadSessions : Accounted S p.purgeDeadSessions := by
  unfold SessionPool.purgeDeadSessions
  split_ifs
  · exact hp
  · exact hp.swept _ _

theorem Accounted.onJanitorTimer (expired : ℕ → Bool) :
    Accounted S (p.onJanitorTimer S expired) := by
  unfold SessionPool.onJanitorTimer
  split_ifs
  · exact hp
  · exact hp.swept _ _

theorem Accounted.notMem_of_unused (ha : p.Unused a) :
    a ∉ p.idleSessions ++ p.activeSessions := by
  intro h
  rcases mem_append.mp h with h | h
  · exact ha.1 h
  · obtain ⟨i, hi⟩ := hp.held a h
    exact (ha.2 _ hi).2 rfl

/-- A session made at an unused address can be taken over while there is room. -/
theorem Accounted.adopt (ha : p.Unused a) (x : SessionImpl N V)
    (hroom : p.nSessions < S.maxSessions) (hopen : p.shutdown = false) :
    Accounted S (p.adopt a x) where
  count := by
    have h := hp.count
    simp only [SessionPool.adopt, length_cons]
    omega
  bound := by
    simp only [SessionPool.adopt]
    omega
  nodup := nodup_cons.mpr ⟨hp.notMem_of_unused ha, hp.nodup⟩
  held := hp.held
  impls := hp.impls
  shut h := absurd h (by simp only [SessionPool.adopt, hopen]; decide)

theorem Accounted.handOut (hi : p.Unused impl) (h : p.handOut impl = (p', o)) :
    Accounted S p' := by
  unfold SessionPool.handOut at h
  split at h
  · cases h
    exact hp
  next a as hidle =>
  cases h
  have hn := hp.count
  have hnd := hp.nodup
  rw [hidle] at hn hnd
  exact
    { count := by simp only [length_cons] at hn ⊢; omega
      bound := hp.bound
      nodup := nodup_middle.mpr hnd
      held := by
        intro b hb
        rcases mem_cons.mp hb with rfl | hb
        · exact ⟨impl, mem_cons_self⟩
        · obtain ⟨i, h⟩ := hp.held b hb
          exact ⟨i, mem_cons_of_mem _ h⟩
      impls := by
        refine nodup_cons.mpr ⟨?_, hp.impls⟩
        intro h
        obtain ⟨b, hb, heq⟩ := mem_map.mp h
        exact (hi.2 b hb).1 heq
      shut := by
        intro h
        have hnil := (hp.shut h).1
        rw [hidle] at hnil
        cases hnil }

end

theorem Accounted.putBack (h : putBack S p a = (p', u)) : Accounted S p' := by
  unfold SessionPool.putBack at h
  split_ifs at h with hshut ha hconn
  · cases h
    exact hp
  · split at h
    · cases h
      exact hp
    -- from the active sessions to the idle ones
    cases h
    have hlen := length_erase_of_mem ha
    have hpos := length_pos_of_mem ha
    have hn := hp.count
    exact
      { count := by simp only [length_cons]; omega
        bound := hp.bound
        nodup :=
          (((perm_cons_erase ha).append_left _).trans perm_middle).nodup_iff.mp hp.nodup
        held := fun b hb => hp.held b (mem_of_mem_erase hb)
        impls := hp.impls
        shut := fun h => absurd h hshut }
  · cases h
    have hlen := length_erase_of_mem ha
    have hpos := length_pos_of_mem ha
    have hn := hp.count
    have hmax := hp.bound
    exact
      { count := by simp only; omega
        bound := by simp only; omega
        nodup := hp.nodup.sublist (erase_sublist.append_left _)
        held := fun b hb => hp.held b (mem_of_mem_erase hb)
        impls := hp.impls
        shut := fun h => absurd h hshut }
  · cases h
    exact hp

end

/-- After `putBack` returned, the session is not active; the objects of the clients are as they
were. -/
theorem putBack_ok (hp : Accounted S p) (h : putBack S p a = (p', .ok ())) :
    a ∉ p'.activeSessions ∧ p'.borrowed = p.borrowed := by
  have hnd := hp.nodup.of_append_right
  unfold putBack at h
  split_ifs at h with hshut ha hconn
  · cases h
    rw [(hp.shut hshut).2]
    exact ⟨not_mem_nil, rfl⟩
  · split at h
    · cases h
    · cases h
      exact ⟨hnd.not_mem_erase, rfl⟩
  · cases h
    exact ⟨hnd.not_mem_erase, rfl⟩
  · cases h

theorem Accounted.close (hp : Accounted S p) (h : close S p impl = (p', u)) : Accounted S p' := by
  unfold SessionPool.close at h
  split at h
  · cases h
    exact hp
  next a hlk =>
  split at h
  · next hput =>
    cases h
    exact hp.putBack hput
  next q hput =>
  cases h
  have hback := hp.putBack hput
  obtain ⟨hact, hbor⟩ := putBack_ok hp hput
  have hmem : (impl, a) ∈ q.borrowed := by
    rw [hbor]
    obtain ⟨bs, cs, heq, -⟩ := lookup_eq_some_iff.mp hlk
    rw [heq]
    exact mem_append_right _ mem_cons_self
  refine { hback with held := ?_, impls := ?_ }
  · intro b hb
    obtain ⟨i, hi⟩ := hback.held b hb
    refine ⟨i, mem_filter.mpr ⟨hi, ?_⟩⟩
    rw [bne_iff_ne]
    rintro rfl
    -- the object refers to one session, which is no longer active
    have heq := inj_on_of_nodup_map hback.impls hi hmem rfl
    cases heq
    exact hact hb
  · exact hback.impls.sublist (filter_sublist.map _)

/-- The variants of `get` touch the session they hand out, where they set what was asked for, and
the entries of their object in the maps. -/
theorem configure_cases (h : p.configure a impl r = (p', u)) :
    u ≠ .error .exhausted ∧ ∃ x f g,
      p' = { p with
        sessions := Function.update p.sessions a x, addFeatureMap := f, addPropertyMap := g } ∧
      (∀ b, b ≠ impl → f b = p.addFeatureMap b ∧ g b = p.addPropertyMap b) ∧
      x.connected = (p.sessions a).connected ∧
      (x = p.sessions a ∨
        (∃ name value t, r = .feature name value ∧
          (p.sessions a).features.set name value = .ok t ∧
          x = { p.sessions a with features := t }) ∨
        ∃ name value t, r = .property name value ∧
          (p.sessions a).properties.set name value = .ok t ∧
          x = { p.sessions a with properties := t }) := by
  have hsame : Function.update p.sessions a (p.sessions a) = p.sessions :=
    Function.update_eq_self a p.sessions
  cases r with
  | plain =>
    cases h
    exact ⟨nofun, _, _, _, by rw [hsame], fun _ _ => ⟨rfl, rfl⟩, rfl, .inl rfl⟩
  | feature name value | property name value =>
    simp only [SessionPool.configure, withFeature, withProperty] at h
    split at h
    · next hget =>
      cases h
      refine ⟨?_, _, _, _, by rw [hsame], fun _ _ => ⟨rfl, rfl⟩, rfl, .inl rfl⟩
      rintro ⟨⟩
      exact get_ne_exhausted hget
    · split at h
      · next hset =>
        cases h
        refine ⟨?_, _, _, _, by rw [hsame], fun b hb => by simp [insertNew, hb], rfl, .inl rfl⟩
        rintro ⟨⟩
        exact set_ne_exhausted hset
      · next t hset =>
        cases h
        refine ⟨nofun, _, _, _, rfl, fun b hb => by simp [insertNew, hb], rfl, .inr ?_⟩
        first
        | exact .inl ⟨name, value, t, rfl, hset, rfl⟩
        | exact .inr ⟨name, value, t, rfl, hset, rfl⟩

theorem Accounted.configure (hp : Accounted S p) (h : p.configure a impl r = (p', u)) :
    Accounted S p' := by
  obtain ⟨-, x, f, g, rfl, -⟩ := configure_cases h
  exact { hp with }

theorem isConnected_configure (h : p.configure a impl r = (p', u)) :
    p'.isConnected a = p.isConnected a := by
  obtain ⟨-, x, f, g, rfl, -, hx, -⟩ := configure_cases h
  dsimp only [isConnected]
  rw [Function.update_self]
  exact hx

/-! ### What `get` does -/

omit [DecidableEq N] in
theorem shutdown_purgeDeadSessions (p : SessionPool N V) :
    p.purgeDeadSessions.shutdown = p.shutdown := by
  unfold SessionPool.purgeDeadSessions
  split_ifs <;> rfl

omit [DecidableEq N] in
theorem isConnected_of_mem_purge (hp : p.shutdown = false)
    (h : a ∈ p.purgeDeadSessions.idleSessions) :
    a ∈ p.idleSessions ∧ p.isConnected a = true ∧ p.purgeDeadSessions.isConnected a = true := by
  have hnot : ¬p.shutdown = true := by rw [hp]; decide
  rw [SessionPool.purgeDeadSessions, if_neg hnot] at h ⊢
  have hconn : p.isConnected a = true := by simpa using dead_of_mem_sweep h
  exact ⟨(sweep_sublist _ _ _ _).subset h, hconn, hconn⟩

theorem apply_ne_exhausted {ds : List (N × W)} : Settings.apply ds t ≠ .error .exhausted := by
  induction ds generalizing t with
  | nil => exact nofun
  | cons d ds ih =>
    intro h
    rcases Except.bind_eq_error.mp h with h | ⟨t', -, h⟩
    · exact set_ne_exhausted h
    · exact ih h

theorem applySettings_ne_exhausted {x : SessionImpl N V} :
    applySettings S x ≠ .error .exhausted := by
  intro h
  rcases Except.bind_eq_error.mp h with h | ⟨features, -, h⟩
  · exact apply_ne_exhausted h
  · rcases Except.bind_eq_error.mp h with h | ⟨properties, -, h⟩
    · exact apply_ne_exhausted h
    · cases h

theorem connected_applySettings {x y : SessionImpl N V} (h : applySettings S x = .ok y) :
    y.connected = x.connected := by
  obtain ⟨features, -, h⟩ := Except.bind_eq_ok.mp h
  obtain ⟨properties, -, h⟩ := Except.bind_eq_ok.mp h
  cases h
  rfl

theorem get_cases (h : get S p new impl = (p', o)) :
    (p.shutdown = true ∧ p' = p ∧ o = .error .invalidAccess) ∨
    (p.shutdown = false ∧ p.purgeDeadSessions.idleSessions ≠ [] ∧
      p.purgeDeadSessions.handOut impl = (p', o)) ∨
    (p.shutdown = false ∧ p.purgeDeadSessions.idleSessions = [] ∧
      p.purgeDeadSessions.nSessions < S.maxSessions ∧
      ((∃ e, p' = p.purgeDeadSessions ∧ o = .error e ∧ e ≠ .exhausted) ∨
        ∃ a x y, new = some (a, x) ∧ applySettings S { x with connected := true } = .ok y ∧
          (p.purgeDeadSessions.adopt a y).handOut impl = (p', o))) ∨
    (p.shutdown = false ∧ p.purgeDeadSessions.idleSessions = [] ∧
      S.maxSessions ≤ p.purgeDeadSessions.nSessions ∧ p' = p.purgeDeadSessions ∧
      o = .error .exhausted) := by
  unfold SessionPool.get at h
  split_ifs at h with hshut hemp hroom
  · cases h
    exact .inl ⟨hshut, rfl, rfl⟩
  · have hnil := isEmpty_iff.mp hemp
    have hopen := Bool.eq_false_iff.mpr hshut
    refine .inr (.inr (.inl ⟨hopen, hnil, hroom, ?_⟩))
    split at h
    · cases h
      exact .inl ⟨_, rfl, rfl, by decide⟩
    next a x =>
    split at h
    · next e happ =>
      cases h
      refine .inl ⟨_, rfl, rfl, ?_⟩
      rintro rfl
      exact applySettings_ne_exhausted happ
    · next y happ => exact .inr ⟨a, x, y, rfl, happ, h⟩
  · cases h
    exact .inr (.inr (.inr ⟨Bool.eq_false_iff.mpr hshut, isEmpty_iff.mp hemp,
      Int.not_lt.mp hroom, rfl, rfl⟩))
  · exact .inr (.inl ⟨Bool.eq_false_iff.mpr hshut, fun hnil => hemp (isEmpty_iff.mpr hnil), h⟩)

omit [DecidableEq N] in
theorem handOut_of_ne_nil (hne : p.idleSessions ≠ []) (h : p.handOut impl = (p', o)) :
    ∃ a as, p.idleSessions = a :: as ∧ o = .ok a ∧ p'.sessions = p.sessions := by
  unfold SessionPool.handOut at h
  split at h
  · next hnil => exact absurd hnil hne
  · next a as hcons =>
    cases h
    exact ⟨a, as, hcons, rfl, rfl⟩

/-- A session that `get` hands out is connected, and is an idle one that was connected at the
call or a new one. -/
theorem isConnected_of_get (h : get S p new impl = (p', .ok a)) :
    p'.isConnected a = true ∧
      ((a ∈ p.idleSessions ∧ p.isConnected a = true) ∨ ∃ x, new = some (a, x)) := by
  rcases get_cases h with ⟨-, -, ho⟩ | ⟨hopen, hne, hout⟩ | ⟨-, -, -, ⟨e, -, ho, -⟩ | hnew⟩ |
    ⟨-, -, -, -, ho⟩
  · cases ho
  · obtain ⟨b, bs, hidle, ho, hses⟩ := handOut_of_ne_nil hne hout
    cases ho
    have hmem : a ∈ p.purgeDeadSessions.idleSessions := by
      rw [hidle]
      exact mem_cons_self
    obtain ⟨hold, hconn, hpur⟩ := isConnected_of_mem_purge hopen hmem
    rw [isConnected, hses]
    exact ⟨hpur, .inl ⟨hold, hconn⟩⟩
  · cases ho
  · obtain ⟨b, x, y, rfl, happ, hout⟩ := hnew
    obtain ⟨c, cs, hidle, ho, hses⟩ := handOut_of_ne_nil (cons_ne_nil _ _) hout
    cases hidle
    cases ho
    refine ⟨?_, .inr ⟨x, rfl⟩⟩
    rw [isConnected, hses]
    dsimp only [adopt]
    rw [Function.update_self, connected_applySettings happ]
  · cases ho

/-- `get` finds the pool exhausted exactly when it is open and all its sessions are active. -/
theorem get_exhausted_iff (hp : Accounted S p) (new : Option (ℕ × SessionImpl N V))
    (impl : ℕ) : (get S p new impl).2 = .error .exhausted ↔
      p.shutdown = false ∧ p.activeSessions.length = S.maxSessions := by
  have hpur := hp.purgeDeadSessions
  have hact : p.purgeDeadSessions.activeSessions = p.activeSessions := by
    unfold SessionPool.purgeDeadSessions
    split_ifs <;> rfl
  have hcnt := hpur.count
  have hbou := hpur.bound
  rw [hact] at hcnt
  rcases hget : get S p new impl with ⟨p', o⟩
  change o = _ ↔ _
  rcases get_cases hget with
    ⟨hshut, -, ho⟩ | ⟨-, hne, hout⟩ | ⟨-, hnil, hroom, ⟨e, -, ho, he⟩ | hnew⟩ |
    ⟨hopen, hnil, hfull, -, ho⟩
  · rw [ho, hshut]
    exact iff_of_false (by decide) fun h => Bool.noConfusion h.1
  · -- an idle session is left, so not all of them are active
    obtain ⟨a, as, hidle, ho, -⟩ := handOut_of_ne_nil hne hout
    rw [ho]
    rw [hidle, length_cons] at hcnt
    refine iff_of_false (fun h => nomatch h) ?_
    rintro ⟨-, h⟩
    omega
  · rw [ho]
    rw [hnil, length_nil] at hcnt
    refine iff_of_false (fun h => he (Except.error.inj h)) ?_
    rintro ⟨-, h⟩
    omega
  · obtain ⟨a, x, y, -, -, hout⟩ := hnew
    obtain ⟨b, bs, -, ho, -⟩ := handOut_of_ne_nil (cons_ne_nil _ _) hout
    rw [ho]
    rw [hnil, length_nil] at hcnt
    refine iff_of_false (fun h => nomatch h) ?_
    rintro ⟨-, h⟩
    omega
  · rw [ho]
    rw [hnil, length_nil] at hcnt
    exact iff_of_true rfl ⟨hopen, by omega⟩

theorem Accounted.get (hp : Accounted S p) (ha : p.Allocates new impl)
    (h : get S p new impl = (p', o)) : Accounted S p' := by
  have hpur := hp.purgeDeadSessions
  rcases get_cases h with
    ⟨-, rfl, -⟩ | ⟨-, -, hout⟩ | ⟨hopen, -, hroom, ⟨e, rfl, -, -⟩ | hnew⟩ | ⟨-, -, -, rfl, -⟩
  · exact hp
  · exact hpur.handOut ha.1 hout
  · exact hpur
  · obtain ⟨a, x, y, hnew, -, hout⟩ := hnew
    obtain ⟨hunu, hne⟩ := ha.2 _ hnew
    refine (hpur.adopt hunu y hroom ?_).handOut ⟨?_, ha.1.2⟩ hout
    · rw [shutdown_purgeDeadSessions]
      exact hopen
    · intro h
      rcases mem_cons.mp h with h | h
      · exact hne h.symm
      · exact ha.1.1 h
  · exact hpur

/-! ### What the variants of `get` do -/

theorem request_cases (h : request S p r new impl = some (p', o)) :
    (∃ e, get S p new impl = (p', .error e) ∧ o = .error e) ∨
    ∃ q a, get S p new impl = (q, .ok a) ∧
      ((q.configure a impl r = (p', .ok ()) ∧ o = .ok a) ∨
        ∃ q' e, q.configure a impl r = (q', .error e) ∧ close S q' impl = (p', .ok ()) ∧
          o = .error e) := by
  unfold request at h
  split at h
  · next e hget =>
    cases h
    exact .inl ⟨e, hget, rfl⟩
  next q a hget =>
  refine .inr ⟨q, a, hget, ?_⟩
  split at h
  · next hconf =>
    cases h
    exact .inl ⟨hconf, rfl⟩
  next q' e hconf =>
  split at h
  · cases h
  · next hcls =>
    cases h
    exact .inr ⟨q', e, hconf, hcls, rfl⟩

theorem Accounted.request (hp : Accounted S p) (ha : p.Allocates new impl)
    (h : request S p r new impl = some (p', o)) : Accounted S p' := by
  rcases request_cases h with ⟨e, hq, -⟩ | ⟨q, a, hq, ⟨hconf, -⟩ | ⟨q', e, hconf, hcls, -⟩⟩
  · exact hp.get ha hq
  · exact (hp.get ha hq).configure hconf
  · exact ((hp.get ha hq).configure hconf).close hcls

/-! ### Every run -/

omit [DecidableEq N] in
theorem Accounted.shutdownAll (hp : Accounted S p) : Accounted S p.shutdownAll := by
  unfold SessionPool.shutdownAll
  split_ifs
  · exact hp
  have hn := hp.count
  have hclo : closeAll p.activeSessions (closeAll p.idleSessions p.nSessions) = 0 := by
    rw [closeAll_eq _ p.nSessions (by omega), closeAll_eq _ _ (by omega)]
    omega
  exact
    { count := hclo
      bound := by rw [hclo]; exact Int.natCast_nonneg _
      nodup := nodup_nil
      held := fun a ha => absurd ha not_mem_nil
      impls := hp.impls
      shut := fun _ => ⟨rfl, rfl⟩ }

theorem Accounted.step (hp : Accounted S p) {act : Action N V} (h : p.step S act = some p') :
    Accounted S p' := by
  cases act with
  | get r new impl =>
    rw [SessionPool.step] at h
    split_ifs at h with ha
    obtain ⟨⟨q, o⟩, hreq, rfl⟩ := Option.map_eq_some_iff.mp h
    exact hp.request ha hreq
  | close impl =>
    cases h
    exact hp.close rfl
  | janitor expired =>
    cases h
    exact hp.onJanitorTimer expired
  | shutdown =>
    cases h
    exact hp.shutdownAll
  | lose a =>
    cases h
    exact { hp with }

omit [DecidableEq N] in
theorem accounted_empty : Accounted S (empty : SessionPool N V) where
  count := rfl
  bound := Int.natCast_nonneg _
  nodup := nodup_nil
  held := fun _ ha => absurd ha not_mem_nil
  impls := nodup_nil
  shut := fun _ => ⟨rfl, rfl⟩

theorem accounted_of_reached (hp : (clients S).Reached p) : Accounted S p :=
  Machine.ReachedBy.invariant accounted_empty (fun _ _ _ hi _ h => hi.step h) hp

/-- **The pool accounts for its sessions in every run**: the count is that of the idle and
active sessions and within the bound, no session is in both lists or twice in one, whatever a
client asks for is handed out connected, and the pool is found exhausted exactly when it is
open and as many sessions are active as it may have.  A pool that was shut down has no active
sessions, so it matters only to one that may not have any. -/
theorem accounts_for_sessions (hp : (clients S).Reached p) :
    p.nSessions = p.idleSessions.length + p.activeSessions.length ∧
    p.nSessions ≤ S.maxSessions ∧
    (p.idleSessions ++ p.activeSessions).Nodup ∧
    ∀ r new impl,
      (∀ p' a, request S p r new impl = some (p', .ok a) →
        p'.isConnected a = true ∧
          ((a ∈ p.idleSessions ∧ p.isConnected a = true) ∨ ∃ x, new = some (a, x))) ∧
      ((∃ p', request S p r new impl = some (p', .error .exhausted)) ↔
        p.shutdown = false ∧ p.activeSessions.length = S.maxSessions) ∧
      (0 < S.maxSessions →
        ((∃ p', request S p r new impl = some (p', .error .exhausted)) ↔
          p.activeSessions.length = S.maxSessions)) := by
  have hacc := accounted_of_reached hp
  refine ⟨hacc.count, hacc.bound, hacc.nodup, ?_⟩
  intro r new impl
  have hiff : (∃ p', request S p r new impl = some (p', .error .exhausted)) ↔
      p.shutdown = false ∧ p.activeSessions.length = S.maxSessions := by
    rw [← get_exhausted_iff hacc new impl]
    constructor
    · rintro ⟨p', h⟩
      rcases request_cases h with ⟨e, hq, ho⟩ | ⟨q, a, -, ⟨-, ho⟩ | ⟨q', e, hconf, -, ho⟩⟩
      · rw [hq, ho]
      · cases ho
      · -- what the accessors throw is something else
        cases ho
        exact absurd rfl (configure_cases hconf).1
    · intro h
      refine ⟨(get S p new impl).1, ?_⟩
      rw [request, ← Prod.eta (get S p new impl), h]
  refine ⟨?_, hiff, ?_⟩
  · intro p' a h
    rcases request_cases h with ⟨e, -, ho⟩ | ⟨q, b, hq, ⟨hconf, ho⟩ | ⟨q', e, -, -, ho⟩⟩
    · cases ho
    · cases ho
      obtain ⟨hconn, hfrom⟩ := isConnected_of_get hq
      exact ⟨(isConnected_configure hconf).trans hconn, hfrom⟩
    · cases ho
  · intro hpos
    rw [hiff]
    constructor
    · exact fun h => h.2
    intro h
    refine ⟨?_, h⟩
    by_contra hshut
    have hnil := (hacc.shut (Bool.not_eq_false _ ▸ hshut)).2
    rw [hnil, length_nil] at h
    omega

def oneSession : Setup ℕ ℕ := ⟨0, 1, [], [], List.nodup_nil, List.nodup_nil⟩

theorem accounts_for_one_session :
    ∃ p : SessionPool ℕ ℕ, (clients oneSession).Reached p ∧ p.nSessions = 1 ∧
      ∃ p', request oneSession p .plain none 2 = some (p', .error .exhausted) := by
  have hrun : (clients oneSession).Reached _ := Machine.reached_of_exec .start
    (rfl : (clients oneSession).exec empty
      [.get .plain (some (0, ⟨fun _ => none, fun _ => none, true⟩)) 1] = some _)
  obtain ⟨hcnt, -, -, hget⟩ := accounts_for_sessions hrun
  exact ⟨_, hrun, hcnt, (hget .plain none 2).2.1.mpr ⟨rfl, rfl⟩⟩

end SessionPool

end Poco
