import Poco.Data.SessionPool.Accounts

/-!
# Settings of borrowed sessions

A client may ask for a session with a feature or a property set to a value.  The pool
remembers the old value in a map and is to set it again when the session comes back.  The
entry is made under the `PooledSessionImpl` of the client, though, and searched for under the
session of the pool, so it is not found: the session comes back with the value its last
borrower asked for, unless the pool has a default for that setting, which it applies every
time.  Entries are never erased, so one may also be found later by a session that happens to
be created at the address of a `PooledSessionImpl` long gone.

## Main definitions

* `Restored`: every idle session has the features and properties that the pool took it over with,
  among them the defaults of the pool.
* `Neutral`: the action asks for nothing that the pool would have to undo, and creates no session
  at an address for which an entry of another object was left in the maps.
* `Covered`: the settings of a session are those it was created with, up to defaults.
* `Settled`: no session of the pool is a key of the maps, which `putBack` would act on; active
  sessions differ from what they were only where defaults apply, and idle ones not at all.

## Main results

* `Settled.step`: a neutral action keeps the pool able to restore settings.
* `restored_of_neutral`: runs of neutral actions restore all settings.
* `keeps_requested_feature`: other runs may not.
-/

namespace Poco

open List Function

namespace Data.Settings

variable {N V : Type} [DecidableEq N]

/-! ### Defaults -/

def override (ds : List (N × V)) (t : Settings N V) : Settings N V := fun name =>
  match ds.lookup name with
  | none => t name
  | some v => (t name).map fun f => { f with value := v }

def Writable (ds : List (N × V)) (t : Settings N V) : Prop :=
  ∀ d ∈ ds, ∃ f, t d.1 = some f ∧ f.setter = true

/-- Applying the defaults to `t` succeeds and gives `t₀`. -/
structure Covers (ds : List (N × V)) (t t₀ : Settings N V) : Prop where
  override_eq : override ds t = t₀
  writable : Writable ds t

variable {t t' t₀ : Settings N V} {name : N} {ds : List (N × V)}

theorem set_eq_ok_iff : t.set name value = .ok t' ↔ ∃ f, t name = some f ∧ f.setter = true ∧
      t' = update t name (some { f with value := value }) := by
  unfold set
  cases t name with
  | none => simp
  | some f =>
    cases hs : f.setter with
    | false => simp [hs]
    | true =>
      simp only [hs, if_true, Except.ok.injEq, Option.some.injEq, exists_eq_left', true_and]
      exact eq_comm

theorem Writable.set (ht : Writable ds t) (h : t.set name value = .ok t') : Writable ds t' := by
  obtain ⟨f, hf, hset, rfl⟩ := set_eq_ok_iff.mp h
  intro d hd
  obtain ⟨g, hg, hwr⟩ := ht d hd
  by_cases hname : d.1 = name
  · subst hname
    exact ⟨_, update_self .., hset⟩
  · exact ⟨g, by rw [update_of_ne hname]; exact hg, hwr⟩

theorem override_set (h : t.set name value = .ok t') (hname : name ∈ ds.map Prod.fst) :
    override ds t' = override ds t := by
  obtain ⟨f, hf, -, rfl⟩ := set_eq_ok_iff.mp h
  funext n
  unfold override
  by_cases hn : n = name
  · subst hn
    cases hlk : ds.lookup n with
    | none =>
      obtain ⟨d, hd, rfl⟩ := mem_map.mp hname
      exact absurd (lookup_eq_none_iff.mp hlk d hd) (by simp)
    | some v => simp [hf]
  · cases ds.lookup n <;> simp only [update_of_ne hn]

theorem eq_of_set (h : t.set name value = .ok t')
    (hval : ∀ f, t name = some f → f.value = value) : t' = t := by
  obtain ⟨f, hf, -, rfl⟩ := set_eq_ok_iff.mp h
  have hsame : ({ f with value := value } : Setting V) = f := by rw [← hval f hf]
  rw [hsame, ← hf, update_eq_self]

theorem apply_of_writable (hds : (ds.map Prod.fst).Nodup) (ht : Writable ds t) :
    apply ds t = .ok (override ds t) := by
  induction ds generalizing t with
  | nil => rfl
  | cons d ds ih =>
    obtain ⟨name, value⟩ := d
    obtain ⟨hnot, hds⟩ := nodup_cons.mp hds
    obtain ⟨f, hf, hstt⟩ := ht _ mem_cons_self
    have hset : t.set name value = .ok (update t name (some { f with value := value })) :=
      set_eq_ok_iff.mpr ⟨f, hf, hstt, rfl⟩
    have hrest : Writable ds t := fun e he => ht e (mem_cons_of_mem _ he)
    rw [apply, hset]
    refine (ih hds (hrest.set hset)).trans (congrArg Except.ok ?_)
    -- the first default is not among the others, so it stays
    funext n
    unfold override
    by_cases hn : n = name
    · subst hn
      have hlk : ds.lookup n = none := by
        refine lookup_eq_none_iff.mpr fun e he => ?_
        have hne : n ≠ e.1 := fun heq => hnot (mem_map.mpr ⟨e, he, heq.symm⟩)
        simpa using hne
      simp [hlk, hf]
    · have hne : (n == name) = false := by simpa using hn
      simp [lookup_cons, hne, update_of_ne hn]

theorem covers_of_apply (hds : (ds.map Prod.fst).Nodup) (h : apply ds t = .ok t') :
    Covers ds t t' := by
  have hwr : Writable ds t := by
    induction ds generalizing t with
    | nil => exact fun _ hd => absurd hd not_mem_nil
    | cons d ds ih =>
      obtain ⟨hnot, hds⟩ := nodup_cons.mp hds
      obtain ⟨t₁, hset, h⟩ := Except.bind_eq_ok.mp h
      obtain ⟨f, hf, hstt, rfl⟩ := set_eq_ok_iff.mp hset
      refine forall_mem_cons.mpr ⟨⟨f, hf, hstt⟩, fun e he => ?_⟩
      obtain ⟨g, hg, hwr⟩ := ih hds h e he
      have hne : e.1 ≠ d.1 := fun heq => hnot (mem_map.mpr ⟨e, he, heq⟩)
      rw [update_of_ne hne] at hg
      exact ⟨g, hg, hwr⟩
  rw [apply_of_writable hds hwr] at h
  exact ⟨Except.ok.inj h, hwr⟩

theorem Covers.apply (hds : (ds.map Prod.fst).Nodup) (h : Covers ds t t₀) :
    Settings.apply ds t = .ok t₀ := by
  rw [apply_of_writable hds h.writable, h.override_eq]

theorem Covers.refl (h : Covers ds t t₀) : Covers ds t₀ t₀ := by
  obtain ⟨rfl, hwr⟩ := h
  constructor
  · funext n
    unfold override
    cases ds.lookup n with
    | none => rfl
    | some v => cases t n <;> rfl
  · intro d hd
    obtain ⟨f, hf, hset⟩ := hwr d hd
    unfold override
    cases ds.lookup d.1 with
    | none => exact ⟨f, hf, hset⟩
    | some v => exact ⟨{ f with value := v }, by rw [hf]; rfl, hset⟩

theorem lookup_of_mem (hds : (ds.map Prod.fst).Nodup) {d : N × V} (hd : d ∈ ds) :
    ds.lookup d.1 = some d.2 := by
  induction ds with
  | nil => cases hd
  | cons e ds ih =>
    obtain ⟨hnot, hds⟩ := nodup_cons.mp hds
    rcases mem_cons.mp hd with rfl | hd
    · exact lookup_cons_self
    have hne : (d.1 == e.1) = false := by
      refine beq_eq_false_iff_ne.mpr fun heq => hnot ?_
      rw [← heq]
      exact mem_map_of_mem hd
    rw [lookup_cons, hne]
    exact ih hds hd

theorem Covers.value (hds : (ds.map Prod.fst).Nodup) (h : Covers ds t t) {d : N × V} (hd : d ∈ ds) :
    ∃ f, t d.1 = some f ∧ f.value = d.2 := by
  obtain ⟨f, hf, -⟩ := h.writable d hd
  have hover := congrFun h.override_eq d.1
  unfold override at hover
  rw [lookup_of_mem hds hd, hf] at hover
  exact ⟨f, hf, congrArg Setting.value (Option.some.inj hover.symm)⟩

/-- Setting a value that a default replaces, or the value that is there, leaves settings
covered. -/
theorem Covers.set (h : Covers ds t t₀) {value : V} (hset : t.set name value = .ok t')
    (hname : name ∈ ds.map Prod.fst ∨ ∀ f, t name = some f → f.value = value) :
    Covers ds t' t₀ := by
  rcases hname with hname | hval
  · exact ⟨(override_set hset hname).trans h.override_eq, h.writable.set hset⟩
  · rw [eq_of_set hset hval]
    exact h

end Data.Settings

open Data

namespace SessionPool

variable {N V : Type} [DecidableEq N] (S : Setup N V)

/-! ### The property -/

def Restored (p : SessionPool N V) : Prop :=
  ∀ a ∈ p.idleSessions,
    (p.sessions a).features = (p.created a).features ∧
      (p.sessions a).properties = (p.created a).properties ∧
      (∀ d ∈ S.featureMap, ∃ f, (p.sessions a).features d.1 = some f ∧ f.value = d.2) ∧
      ∀ d ∈ S.propertyMap, ∃ f, (p.sessions a).properties d.1 = some f ∧ f.value = d.2

/-- The session that a client is offered: the first idle one that is connected, or the new one
with the defaults of the pool. -/
def offered (p : SessionPool N V) (new : Option (ℕ × SessionImpl N V)) : Option (SessionImpl N V) :=
  match p.idleSessions.find? p.isConnected with
  | some a => some (p.sessions a)
  | none => new.bind fun x => (applySettings S { x.2 with connected := true }).toOption

/-- A value asked for is one the pool need not undo: there is a default for the setting, or the
session offered has that value anyway. -/
def Harmless {W : Type} (ds : List (N × W)) (t : Settings N W) (name : N) (value : W) : Prop :=
  name ∈ ds.map Prod.fst ∨ ∀ f, t name = some f → f.value = value

def Neutral (p : SessionPool N V) : Action N V → Prop
  | .get r new _ =>
    (∀ x ∈ new, p.addFeatureMap x.1 = none ∧ p.addPropertyMap x.1 = none) ∧
      ∀ x ∈ offered S p new,
        match r with
        | .plain => True
        | .feature name value => Harmless S.featureMap x.features name value
        | .property name value => Harmless S.propertyMap x.properties name value
  | _ => True

/-! ### The invariant -/

structure Covered (x x₀ : SessionImpl N V) : Prop where
  features : Settings.Covers S.featureMap x.features x₀.features
  properties : Settings.Covers S.propertyMap x.properties x₀.properties

structure Settled (p : SessionPool N V) : Prop where
  notFeature : ∀ a ∈ p.idleSessions ++ p.activeSessions, p.addFeatureMap a = none
  notProperty : ∀ a ∈ p.idleSessions ++ p.activeSessions, p.addPropertyMap a = none
  covered : ∀ a ∈ p.idleSessions ++ p.activeSessions, Covered S (p.sessions a) (p.created a)
  features : ∀ a ∈ p.idleSessions, (p.sessions a).features = (p.created a).features
  properties : ∀ a ∈ p.idleSessions, (p.sessions a).properties = (p.created a).properties

def Kept (p : SessionPool N V) (a : ℕ) : Prop :=
  p.addFeatureMap a = none ∧ p.addPropertyMap a = none ∧ Covered S (p.sessions a) (p.created a)

def AsCreated (p : SessionPool N V) (a : ℕ) : Prop :=
  (p.sessions a).features = (p.created a).features ∧
    (p.sessions a).properties = (p.created a).properties

variable {S} {p p' : SessionPool N V}

theorem settled_iff : Settled S p ↔
    (∀ a ∈ p.idleSessions ++ p.activeSessions, Kept S p a) ∧ ∀ a ∈ p.idleSessions, AsCreated p a :=
  ⟨fun h => ⟨fun a ha => ⟨h.notFeature a ha, h.notProperty a ha, h.covered a ha⟩,
      fun a ha => ⟨h.features a ha, h.properties a ha⟩⟩,
    fun ⟨hkept, hsame⟩ => ⟨fun a ha => (hkept a ha).1, fun a ha => (hkept a ha).2.1,
      fun a ha => (hkept a ha).2.2, fun a ha => (hsame a ha).1, fun a ha => (hsame a ha).2⟩⟩

theorem applySettings_ok {y : SessionImpl N V} (h : applySettings S x = .ok y) : Covered S y y := by
  obtain ⟨features, hf, h⟩ := Except.bind_eq_ok.mp h
  obtain ⟨properties, hg, h⟩ := Except.bind_eq_ok.mp h
  cases h
  exact ⟨(Settings.covers_of_apply S.nodup_featureMap hf).refl,
    (Settings.covers_of_apply S.nodup_propertyMap hg).refl⟩

theorem Covered.applySettings {x₀ : SessionImpl N V} (h : Covered S x x₀) :
    applySettings S x = .ok { x₀ with connected := x.connected } := by
  unfold SessionPool.applySettings
  rw [h.features.apply S.nodup_featureMap, h.properties.apply S.nodup_propertyMap]
  rfl

theorem Settled.restored (hp : Settled S p) : Restored S p := by
  intro a ha
  have hcov := hp.covered a (mem_append_left _ ha)
  have hf := hp.features a ha
  have hg := hp.properties a ha
  refine ⟨hf, hg, ?_, ?_⟩
  · intro d hd
    have h := hcov.features
    rw [← hf] at h
    exact h.value S.nodup_featureMap hd
  · intro d hd
    have h := hcov.properties
    rw [← hg] at h
    exact h.value S.nodup_propertyMap hd

/-! ### One action -/

section

variable (hp : Settled S p)
include hp

theorem Settled.swept (allows : ℤ → Bool) (dead : ℕ → Bool) : Settled S (p.swept allows dead) := by
  obtain ⟨hkept, hsame⟩ := settled_iff.mp hp
  have hswe := sweep_sublist allows dead p.idleSessions p.nSessions
  refine settled_iff.mpr ⟨fun a ha => hkept a ?_, fun a ha => hsame a (hswe.subset ha)⟩
  exact (hswe.append_right p.activeSessions).subset ha

theorem Settled.purgeDeadSessions : Settled S p.purgeDeadSessions := by
  unfold SessionPool.purgeDeadSessions
  split_ifs
  · exact hp
  · exact hp.swept _ _

theorem Settled.adopt (ha : a ∉ p.idleSessions ++ p.activeSessions)
    (hf : p.addFeatureMap a = none) (hg : p.addPropertyMap a = none) (hx : Covered S x x) :
    Settled S (p.adopt a x) := by
  obtain ⟨hkept, hsame⟩ := settled_iff.mp hp
  have hne : ∀ b ∈ p.idleSessions ++ p.activeSessions, b ≠ a := fun b hb heq => ha (heq ▸ hb)
  -- the new session first, and then the ones that were there
  refine settled_iff.mpr ⟨forall_mem_cons.mpr ⟨⟨hf, hg, ?_⟩, fun b hb => ?_⟩,
    forall_mem_cons.mpr ⟨?_, fun b hb => ?_⟩⟩
  · simpa [SessionPool.adopt, update_self] using hx
  · simpa [Kept, SessionPool.adopt, update_of_ne (hne b hb)] using hkept b hb
  · simp [AsCreated, SessionPool.adopt, update_self, and_self]
  · simpa [AsCreated, SessionPool.adopt, update_of_ne (hne b (mem_append_left _ hb))]
      using hsame b hb

theorem Settled.handOut (h : p.handOut impl = (p', o)) : Settled S p' := by
  obtain ⟨hkept, hsame⟩ := settled_iff.mp hp
  unfold SessionPool.handOut at h
  split at h
  · cases h
    exact hp
  · next a as hidle =>
    cases h
    rw [hidle] at hkept hsame
    exact settled_iff.mpr ⟨fun b hb => hkept b (perm_middle.mem_iff.mp hb),
      fun b hb => hsame b (mem_cons_of_mem a hb)⟩

/-- An active session may change as long as it stays covered, and the maps may get entries of
objects that are not sessions of the pool. -/
theorem Settled.update (hacc : Accounted S p) {f : ℕ → Option (N × Bool)}
    {g : ℕ → Option (N × V)} (ha : a ∈ p.activeSessions)
    (hi : impl ∉ p.idleSessions ++ p.activeSessions) (hx : Covered S x (p.created a))
    (hmaps : ∀ b, b ≠ impl → f b = p.addFeatureMap b ∧ g b = p.addPropertyMap b) :
    Settled S { p with
      sessions := update p.sessions a x, addFeatureMap := f, addPropertyMap := g } := by
  obtain ⟨hkept, hsame⟩ := settled_iff.mp hp
  have hne : ∀ b ∈ p.idleSessions ++ p.activeSessions, b ≠ impl := fun b hb heq => hi (heq ▸ hb)
  have hidle : ∀ b ∈ p.idleSessions, b ≠ a := fun b hb heq =>
    (disjoint_of_nodup_append hacc.nodup) hb (heq ▸ ha)
  refine settled_iff.mpr ⟨fun b hb => ?_, fun b hb => ?_⟩
  · obtain ⟨hf, hg⟩ := hmaps b (hne b hb)
    obtain ⟨hnf, hng, hcov⟩ := hkept b hb
    refine ⟨hf.trans hnf, hg.trans hng, ?_⟩
    by_cases h : b = a
    · subst h
      simpa only [update_self] using hx
    · simpa only [update_of_ne h] using hcov
  · simpa [AsCreated, update_of_ne (hidle b hb)] using hsame b hb

end

/-- A harmless value leaves the session covered, whether or not it can be set. -/
theorem Settled.configure (hp : Settled S p) (hacc : Accounted S p) (ha : a ∈ p.activeSessions)
    (hi : impl ∉ p.idleSessions ++ p.activeSessions) {r : Request N V} (hr : match r with
      | .plain => True
      | .feature name value => Harmless S.featureMap (p.sessions a).features name value
      | .property name value => Harmless S.propertyMap (p.sessions a).properties name value)
    (h : p.configure a impl r = (p', u)) : Settled S p' := by
  have hcov := hp.covered a (mem_append_right _ ha)
  obtain ⟨-, x, f, g, rfl, hmaps, -, hx⟩ := configure_cases h
  refine hp.update hacc ha hi ?_ hmaps
  rcases hx with rfl | ⟨name, value, t, rfl, hset, rfl⟩ | ⟨name, value, t, rfl, hset, rfl⟩
  · exact hcov
  · exact ⟨hcov.features.set hset hr, hcov.properties⟩
  · exact ⟨hcov.features, hcov.properties.set hset hr⟩

theorem Settled.putBack (hp : Settled S p) (hacc : Accounted S p) (h : putBack S p a = (p', u)) :
    Settled S p' := by
  obtain ⟨hkept, hsame⟩ := settled_iff.mp hp
  unfold SessionPool.putBack at h
  split_ifs at h with hshut ha hconn
  · cases h
    exact hp
  · have hmem := mem_append_right p.idleSessions ha
    obtain ⟨hnf, hng, hcov⟩ := hkept a hmem
    have hback : reverseSettings S p a =
        .ok { p.created a with connected := (p.sessions a).connected } := by
      unfold reverseSettings
      rw [hng, hnf]
      exact hcov.applySettings
    have hall : ∀ b ∈ p.idleSessions ++ p.activeSessions.erase a,
        b ∈ p.idleSessions ++ p.activeSessions ∧ b ≠ a := by
      intro b hb
      have hperm := ((perm_cons_erase ha).append_left p.idleSessions).trans perm_middle
      have hnot := (nodup_cons.mp (hperm.nodup_iff.mp hacc.nodup)).1
      exact ⟨hperm.mem_iff.mpr (mem_cons_of_mem _ hb), fun heq => hnot (heq ▸ hb)⟩
    have hcov' : Covered S { p.created a with connected := (p.sessions a).connected }
        (p.created a) := ⟨hcov.features.refl, hcov.properties.refl⟩
    rw [hback] at h
    cases h
    refine settled_iff.mpr ⟨forall_mem_cons.mpr ⟨⟨hnf, hng, ?_⟩, fun b hb => ?_⟩,
      forall_mem_cons.mpr ⟨?_, fun b hb => ?_⟩⟩
    · simpa only [update_self] using hcov'
    · simpa [Kept, update_of_ne (hall b hb).2] using hkept b (hall b hb).1
    · simp [AsCreated, update_self, and_self]
    · simpa [AsCreated, update_of_ne (hall b (mem_append_left _ hb)).2] using hsame b hb
  · cases h
    exact settled_iff.mpr
      ⟨fun b hb => hkept b ((erase_sublist.append_left _).subset hb), hsame⟩
  · cases h
    exact hp

theorem Settled.close (hp : Settled S p) (hacc : Accounted S p) (h : close S p impl = (p', u)) :
    Settled S p' := by
  unfold SessionPool.close at h
  split at h
  · cases h
    exact hp
  split at h
  · next hput =>
    cases h
    exact hp.putBack hacc hput
  · next hput =>
    cases h
    exact { hp.putBack hacc hput with }

omit [DecidableEq N] in
theorem idleSessions_purge (hopen : p.shutdown = false) :
    p.purgeDeadSessions.idleSessions = p.idleSessions.filter p.isConnected := by
  have hswe : ∀ (as : List ℕ) (n : ℤ),
      (sweep (fun _ => true) (fun a => !p.isConnected a) as n).1 = as.filter p.isConnected := by
    intro as
    induction as with
    | nil => exact fun _ => rfl
    | cons a as ih =>
      intro n
      unfold sweep
      cases h : p.isConnected a with
      | false => simpa [h] using ih (n - 1)
      | true => simpa [h] using ih n
  have hnot : ¬p.shutdown = true := by rw [hopen]; decide
  rw [SessionPool.purgeDeadSessions, if_neg hnot]
  exact hswe _ _

/-- The session handed out is the one offered, it is active, and the object of the client is
not a session of the pool. -/
theorem offered_of_get (hacc : Accounted S p) {new : Option (ℕ × SessionImpl N V)}
    (hal : p.Allocates new impl) {q : SessionPool N V} (h : get S p new impl = (q, .ok a)) :
    offered S p new = some (q.sessions a) ∧ a ∈ q.activeSessions ∧
      impl ∉ q.idleSessions ++ q.activeSessions := by
  have hi := hacc.purgeDeadSessions.notMem_of_unused hal.1
  have hses : p.purgeDeadSessions.sessions = p.sessions := by
    unfold SessionPool.purgeDeadSessions
    split_ifs <;> rfl
  rcases get_cases h with ⟨-, -, ho⟩ | ⟨hopen, hne, hout⟩ | ⟨hopen, hnil, -, ⟨e, -, ho, -⟩ | hnew⟩ |
    ⟨-, -, -, -, ho⟩
  · cases ho
  · unfold SessionPool.handOut at hout
    split at hout
    · cases hout
    next b bs hidle =>
    cases hout
    rw [hidle] at hi
    have hfind : p.idleSessions.find? p.isConnected = some a := by
      rw [← head?_filter, ← idleSessions_purge hopen, hidle, head?_cons]
    refine ⟨?_, mem_cons_self, fun hmem => hi (perm_middle.mem_iff.mp hmem)⟩
    rw [offered, hfind]
    exact congrArg (fun f => some (f a)) hses.symm
  · cases ho
  · obtain ⟨b, x, y, rfl, happ, hout⟩ := hnew
    cases hout
    have hfind : p.idleSessions.find? p.isConnected = none := by
      rw [← head?_filter, ← idleSessions_purge hopen, hnil, head?_nil]
    refine ⟨?_, mem_cons_self, ?_⟩
    · rw [offered, hfind]
      simp [Option.bind_some, happ, Except.toOption, adopt, update_self]
    · intro hmem
      rcases mem_cons.mp (perm_middle.mem_iff.mp hmem) with rfl | hmem
      · exact (hal.2 _ rfl).2 rfl
      · exact hi hmem
  · cases ho

theorem Settled.get (hp : Settled S p) (hacc : Accounted S p) {new : Option (ℕ × SessionImpl N V)}
    (hal : p.Allocates new impl)
    (hnew : ∀ x ∈ new, p.addFeatureMap x.1 = none ∧ p.addPropertyMap x.1 = none)
    (h : get S p new impl = (p', o)) : Settled S p' := by
  have hpur := hp.purgeDeadSessions
  rcases get_cases h with
    ⟨-, rfl, -⟩ | ⟨-, -, hout⟩ | ⟨-, -, -, ⟨e, rfl, -, -⟩ | ⟨a, x, y, hx, happ, hout⟩⟩ |
    ⟨-, -, -, rfl, -⟩
  · exact hp
  · exact hpur.handOut hout
  · exact hpur
  · -- no entry is kept under the address of the new session
    have hnot := hacc.purgeDeadSessions.notMem_of_unused (hal.2 _ hx).1
    have hmaps : p.purgeDeadSessions.addFeatureMap = p.addFeatureMap ∧
        p.purgeDeadSessions.addPropertyMap = p.addPropertyMap := by
      unfold SessionPool.purgeDeadSessions
      split_ifs <;> exact ⟨rfl, rfl⟩
    obtain ⟨hf, hg⟩ := hnew _ hx
    refine (hpur.adopt hnot ?_ ?_ (applySettings_ok happ)).handOut hout
    · rw [hmaps.1]
      exact hf
    · rw [hmaps.2]
      exact hg
  · exact hpur

theorem Settled.step (hp : Settled S p) (hacc : Accounted S p) {act : Action N V}
    (hact : Neutral S p act) {p' : SessionPool N V} (h : p.step S act = some p') :
    Settled S p' := by
  cases act with
  | get r new impl =>
    obtain ⟨hnew, hr⟩ := hact
    rw [SessionPool.step] at h
    split_ifs at h with hal
    obtain ⟨⟨p', o⟩, hreq, rfl⟩ := Option.map_eq_some_iff.mp h
    rcases request_cases hreq with ⟨e, hq, -⟩ | ⟨q, a, hq, hdone⟩
    · exact hp.get hacc hal hnew hq
    have haccG := hacc.get hal hq
    obtain ⟨hoff, ha, hi⟩ := offered_of_get hacc hal hq
    rcases hdone with ⟨heq, -⟩ | ⟨q', e, heq, hcls, -⟩
    · exact (hp.get hacc hal hnew hq).configure haccG ha hi (hr _ hoff) heq
    · exact ((hp.get hacc hal hnew hq).configure haccG ha hi (hr _ hoff) heq).close
        (haccG.configure heq) hcls
  | close impl =>
    cases h
    exact hp.close hacc rfl
  | janitor expired =>
    cases h
    unfold SessionPool.onJanitorTimer
    split_ifs
    · exact hp
    · exact hp.swept _ _
  | shutdown =>
    cases h
    unfold SessionPool.shutdownAll
    split_ifs
    · exact hp
    · -- nothing is left to restore
      exact settled_iff.mpr
        ⟨fun a ha => absurd ha not_mem_nil, fun a ha => absurd ha not_mem_nil⟩
  | lose a =>
    cases h
    -- the settings of a session do not depend on its connection
    let lost : SessionImpl N V := { p.sessions a with connected := false }
    have hsame : ∀ b, (Function.update p.sessions a lost b).features = (p.sessions b).features ∧
        (Function.update p.sessions a lost b).properties = (p.sessions b).properties := by
      intro b
      by_cases hb : b = a
      · subst hb
        rw [update_self]
        exact ⟨rfl, rfl⟩
      · rw [update_of_ne hb]
        exact ⟨rfl, rfl⟩
    refine
      { hp with
        covered := fun b hb => ⟨?_, ?_⟩
        features := fun b hb => (hsame b).1.trans (hp.features b hb)
        properties := fun b hb => (hsame b).2.trans (hp.properties b hb) }
    · rw [(hsame b).1]
      exact (hp.covered b hb).features
    · rw [(hsame b).2]
      exact (hp.covered b hb).properties

/-! ### Every run -/

theorem settled_empty : Settled S (empty : SessionPool N V) :=
  settled_iff.mpr ⟨fun _ ha => absurd ha not_mem_nil, fun _ ha => absurd ha not_mem_nil⟩

/-- **Runs of neutral actions restore all settings**: in every state they reach, idle sessions
have the features and properties they were taken over with, and the defaults of the pool. -/
theorem restored_of_neutral (hp : (clients S).ReachedBy (Neutral S) p) : Restored S p := by
  have hboth : Accounted S p ∧ Settled S p :=
    Machine.ReachedBy.invariant (M := clients S)
      (I := fun p => Accounted S p ∧ Settled S p) ⟨accounted_empty, settled_empty⟩
      (fun _ _ _ hi hact h => ⟨hi.1.step h, hi.2.step hi.1 hact h⟩) hp
  exact hboth.2.restored

def featureOff : SessionImpl ℕ ℕ where
  features := fun name => if name = 0 then some ⟨false, true, true⟩ else none
  properties := fun _ => none
  connected := true

def offByDefault : Setup ℕ ℕ := ⟨0, 1, [(0, false)], [], by decide, List.nodup_nil⟩

theorem restored_by_default :
    ∃ p : SessionPool ℕ ℕ, (clients offByDefault).ReachedBy (Neutral offByDefault) p ∧
      p.idleSessions = [0] ∧ Restored offByDefault p := by
  have hget : Neutral offByDefault empty (.get (.feature 0 true) (some (0, featureOff)) 1) :=
    ⟨fun _ _ => ⟨rfl, rfl⟩, fun _ _ => .inl (by decide)⟩
  have hrun : (clients offByDefault).ReachedBy (Neutral offByDefault) _ :=
    .step (a := .close 1) (.step .start hget rfl) trivial rfl
  exact ⟨_, hrun, rfl, restored_of_neutral hrun⟩

/-- Without a default, the feature that the last borrower asked for stays on. -/
theorem keeps_requested_feature :
    ∃ p : SessionPool ℕ ℕ, (clients oneSession).Reached p ∧ p.idleSessions = [0] ∧
      ¬Restored oneSession p := by
  have hrun : (clients oneSession).Reached _ := Machine.reached_of_exec .start
    (rfl : (clients oneSession).exec empty
      [.get (.feature 0 true) (some (0, featureOff)) 1, .close 1] = some _)
  refine ⟨_, hrun, rfl, ?_⟩
  intro h
  have hfea := congrFun (h 0 mem_cons_self).1 0
  exact absurd (congrArg (Option.map Setting.value) hfea) (by decide)

end SessionPool

end Poco
