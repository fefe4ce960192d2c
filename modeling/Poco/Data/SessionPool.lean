import Poco.Lib.Machine
import Mathlib.Data.Int.Notation
import Mathlib.Data.List.Basic
import Mathlib.Logic.Function.Basic

/-!
# The session pool

`SessionPool` of `SessionPool.cpp` together with the two objects a borrowed session
consists of: the `SessionImpl` of the connector, which the pool keeps in one of its two
lists, and the `PooledSessionImpl` a client holds, which gives the session back when it is
closed.  Objects are their addresses, and an address may be used again once nothing refers
to the object that had it.

Sessions lose their connection at any time, which is an action of its own.  A loss in the
middle of `get` needs no further action: `get` looks at the connection of each idle session
once, so a session that loses it before the look lost it before the call, and one that loses
it later lost it, for all that the pool does, after the call.

## Main definitions

* `SessionPool`: a pool, the sessions it refers to and the objects its clients hold; `Setup` is
  what it is constructed with and set to.
* `get`, `putBack`, `purgeDeadSessions`, `onJanitorTimer`, `shutdownAll`: the functions of the pool.
* `request`: the variants of `get`, one of which sets a feature or a property.
* `Allocates`: the allocator gives the objects that `get` makes addresses that nothing else has;
  the sessions that `get` purges are gone by then.
* `clients`: an empty pool, and any sequence of calls.
-/

namespace Poco

namespace Data

/-! ### Features and properties of a session -/

/-- A feature or property of a connector: its value, and which of the two accessors the
connector registered for it. -/
structure Setting (V : Type) where
  value : V
  getter : Bool
  setter : Bool
deriving DecidableEq

abbrev Settings (N V : Type) : Type := N → Option (Setting V)

inductive Exc
  /-- `InvalidAccessException`: the pool has been shut down. -/
  | invalidAccess
  /-- `SessionPoolExhaustedException`. -/
  | exhausted
  /-- What the session factory throws. -/
  | creation
  /-- `NotSupportedException`: no such feature or property. -/
  | notSupported
  /-- `NotImplementedException`: it lacks the accessor. -/
  | notImplemented
  /-- `BugcheckException`: a session that the pool does not know. -/
  | bugcheck
deriving DecidableEq

namespace Settings

variable {N V : Type} [DecidableEq N]

def get (t : Settings N V) (name : N) : Except Exc V :=
  match t name with
  | none => .error .notSupported
  | some f => if f.getter then .ok f.value else .error .notImplemented

def set (t : Settings N V) (name : N) (value : V) : Except Exc (Settings N V) :=
  match t name with
  | none => .error .notSupported
  | some f =>
    if f.setter then .ok (Function.update t name (some { f with value := value }))
    else .error .notImplemented

def apply : List (N × V) → Settings N V → Except Exc (Settings N V)
  | [], t => .ok t
  | d :: ds, t => do apply ds (← t.set d.1 d.2)

end Settings

structure SessionImpl (N V : Type) where
  features : Settings N Bool
  properties : Settings N V
  /-- `isConnected`. -/
  connected : Bool

end Data

open Data

structure SessionPool.Setup (N V : Type) where
  minSessions : ℕ
  maxSessions : ℕ
  featureMap : List (N × Bool)
  propertyMap : List (N × V)
  nodup_featureMap : (featureMap.map Prod.fst).Nodup
  nodup_propertyMap : (propertyMap.map Prod.fst).Nodup

structure SessionPool (N V : Type) where
  idleSessions : List ℕ
  activeSessions : List ℕ
  nSessions : ℤ
  addFeatureMap : ℕ → Option (N × Bool)
  addPropertyMap : ℕ → Option (N × V)
  shutdown : Bool
  /-- The sessions, by address. -/
  sessions : ℕ → SessionImpl N V
  /-- The open `PooledSessionImpl` objects, each with the session of its holder. -/
  borrowed : List (ℕ × ℕ)
  /-- The sessions as the pool took them over; nothing in the code reads this. -/
  created : ℕ → SessionImpl N V

namespace SessionPool

variable {N V : Type} [DecidableEq N] (S : Setup N V)

/-! ### The pool -/

def isConnected (p : SessionPool N V) (a : ℕ) : Bool := (p.sessions a).connected

def applySettings (x : SessionImpl N V) : Except Exc (SessionImpl N V) := do
  let features ← Settings.apply S.featureMap x.features
  let properties ← Settings.apply S.propertyMap x.properties
  return { x with features := features, properties := properties }

/-- The loop over the idle sessions in `purgeDeadSessions` and `onJanitorTimer`: while the
count allows it, the sessions that are to go are erased and no longer counted. -/
def sweep (allows : ℤ → Bool) (dead : ℕ → Bool) : List ℕ → ℤ → List ℕ × ℤ
  | [], n => ([], n)
  | a :: as, n =>
    if allows n then
      if dead a then sweep allows dead as (n - 1)
      else (a :: (sweep allows dead as n).1, (sweep allows dead as n).2)
    else (a :: as, n)

def swept (p : SessionPool N V) (allows : ℤ → Bool) (dead : ℕ → Bool) : SessionPool N V :=
  { p with
    idleSessions := (sweep allows dead p.idleSessions p.nSessions).1
    nSessions := (sweep allows dead p.idleSessions p.nSessions).2 }

def purgeDeadSessions (p : SessionPool N V) : SessionPool N V :=
  if p.shutdown then p else p.swept (fun _ => true) fun a => !p.isConnected a

/-- `onJanitorTimer`, when the holders in `expired` have been idle for too long. -/
def onJanitorTimer (p : SessionPool N V) (expired : ℕ → Bool) : SessionPool N V :=
  if p.shutdown then p
  else p.swept (fun n => decide (S.minSessions < n)) fun a => expired a || !p.isConnected a

/-- The end of `get`: the first idle session becomes active and is wrapped in a new
`PooledSessionImpl`. -/
def handOut (p : SessionPool N V) (impl : ℕ) : SessionPool N V × Except Exc ℕ :=
  match p.idleSessions with
  | [] => (p, .error .bugcheck)
  | a :: as =>
    ({ p with
        activeSessions := a :: p.activeSessions
        idleSessions := as
        borrowed := (impl, a) :: p.borrowed }, .ok a)

/-- A new session, after `applySettings`, is pushed to the idle ones and counted. -/
def adopt (p : SessionPool N V) (a : ℕ) (x : SessionImpl N V) : SessionPool N V :=
  { p with
    idleSessions := a :: p.idleSessions
    nSessions := p.nSessions + 1
    sessions := Function.update p.sessions a x
    created := Function.update p.created a x }

/-- `get()`.  The session factory throws or creates the session `new`, and the
`PooledSessionImpl` is made at `impl`. -/
def get (p : SessionPool N V) (new : Option (ℕ × SessionImpl N V)) (impl : ℕ) :
    SessionPool N V × Except Exc ℕ :=
  if p.shutdown then (p, .error .invalidAccess)
  else
    if p.purgeDeadSessions.idleSessions.isEmpty then
      if p.purgeDeadSessions.nSessions < S.maxSessions then
        match new with
        | none => (p.purgeDeadSessions, .error .creation)
        | some (a, x) =>
          -- the factory returns sessions that are connected
          match applySettings S { x with connected := true } with
          | .error e => (p.purgeDeadSessions, .error e)
          | .ok x => (p.purgeDeadSessions.adopt a x).handOut impl
      else (p.purgeDeadSessions, .error .exhausted)
    else p.purgeDeadSessions.handOut impl

/-- A setting remembered at acquisition is set again on the session; a map without an entry
for the session leaves it as it is. -/
def restore {V : Type} (entry : Option (N × V)) (t : Settings N V) : Except Exc (Settings N V) :=
  match entry with
  | none => .ok t
  | some e => t.set e.1 e.2

/-- What `putBack` does to the settings of a session: both maps are searched by the address
of the session, and the defaults of the pool are set again. -/
def reverseSettings (p : SessionPool N V) (a : ℕ) : Except Exc (SessionImpl N V) := do
  let properties ← restore (p.addPropertyMap a) (p.sessions a).properties
  let features ← restore (p.addFeatureMap a) (p.sessions a).features
  applySettings S { p.sessions a with features := features, properties := properties }

def putBack (p : SessionPool N V) (a : ℕ) : SessionPool N V × Except Exc Unit :=
  if p.shutdown then (p, .ok ())
  else
    if a ∈ p.activeSessions then
      if p.isConnected a then
        match reverseSettings S p a with
        -- the exception leaves the session among the active ones
        | .error e => (p, .error e)
        | .ok x =>
          ({ p with
              sessions := Function.update p.sessions a x
              idleSessions := a :: p.idleSessions
              activeSessions := p.activeSessions.erase a }, .ok ())
      else
        ({ p with
            nSessions := p.nSessions - 1
            activeSessions := p.activeSessions.erase a }, .ok ())
    else (p, .error .bugcheck)

/-- `PooledSessionImpl::close`: the session goes back to the pool, and the object lets go of
its holder unless `putBack` throws. -/
def close (p : SessionPool N V) (impl : ℕ) : SessionPool N V × Except Exc Unit :=
  match p.borrowed.lookup impl with
  | none => (p, .ok ())
  | some a =>
    match putBack S p a with
    | (p, .error e) => (p, .error e)
    | (p, .ok ()) => ({ p with borrowed := p.borrowed.filter fun b => b.1 != impl }, .ok ())

/-- What a client asks for: a session, or a session with a feature or a property set. -/
inductive Request (N V : Type)
  | plain
  | feature (name : N) (value : Bool)
  | property (name : N) (value : V)

/-- An insertion into a `std::map`, which keeps an entry that is there. -/
def insertNew {E : Type} (m : ℕ → Option E) (k : ℕ) (e : E) : ℕ → Option E :=
  Function.update m k (some ((m k).getD e))

/-- The second half of `get(name, value)` for a feature.  The old value is remembered under
`s.impl()`, which is the `PooledSessionImpl` and not the session of the pool. -/
def withFeature (p : SessionPool N V) (a impl : ℕ) (name : N) (value : Bool) :
    SessionPool N V × Except Exc Unit :=
  match (p.sessions a).features.get name with
  | .error e => (p, .error e)
  | .ok old =>
    let p := { p with addFeatureMap := insertNew p.addFeatureMap impl (name, old) }
    match (p.sessions a).features.set name value with
    | .error e => (p, .error e)
    | .ok t =>
      ({ p with sessions :=
          Function.update p.sessions a { p.sessions a with features := t } }, .ok ())

def withProperty (p : SessionPool N V) (a impl : ℕ) (name : N) (value : V) :
    SessionPool N V × Except Exc Unit :=
  match (p.sessions a).properties.get name with
  | .error e => (p, .error e)
  | .ok old =>
    let p := { p with addPropertyMap := insertNew p.addPropertyMap impl (name, old) }
    match (p.sessions a).properties.set name value with
    | .error e => (p, .error e)
    | .ok t =>
      ({ p with sessions :=
          Function.update p.sessions a { p.sessions a with properties := t } }, .ok ())

def configure (p : SessionPool N V) (a impl : ℕ) :
    Request N V → SessionPool N V × Except Exc Unit
  | .plain => (p, .ok ())
  | .feature name value => p.withFeature a impl name value
  | .property name value => p.withProperty a impl name value

/-- `get()` and `get(name, value)`.  When setting the feature or property throws, the session
just taken goes out of scope and is closed; an exception there ends the program, which is no
outcome. -/
def request (p : SessionPool N V) (r : Request N V) (new : Option (ℕ × SessionImpl N V))
    (impl : ℕ) : Option (SessionPool N V × Except Exc ℕ) :=
  match get S p new impl with
  | (p, .error e) => some (p, .error e)
  | (p, .ok a) =>
    match p.configure a impl r with
    | (p, .ok ()) => some (p, .ok a)
    | (p, .error e) =>
      match close S p impl with
      | (_, .error _) => none
      | (p, .ok ()) => some (p, .error e)

def closeAll : List ℕ → ℤ → ℤ
  | [], n => n
  | _ :: as, n => closeAll as (if 0 < n then n - 1 else n)

def shutdownAll (p : SessionPool N V) : SessionPool N V :=
  if p.shutdown then p
  else
    { p with
      shutdown := true
      nSessions := closeAll p.activeSessions (closeAll p.idleSessions p.nSessions)
      idleSessions := []
      activeSessions := [] }

/-! ### Runs -/

inductive Action (N V : Type)
  | get (r : Request N V) (new : Option (ℕ × SessionImpl N V)) (impl : ℕ)
  | close (impl : ℕ)
  | janitor (expired : ℕ → Bool)
  | shutdown
  | lose (a : ℕ)

def Unused (p : SessionPool N V) (a : ℕ) : Prop :=
  a ∉ p.idleSessions ∧ ∀ b ∈ p.borrowed, b.1 ≠ a ∧ b.2 ≠ a

instance (p : SessionPool N V) (a : ℕ) : Decidable (p.Unused a) :=
  inferInstanceAs (Decidable (_ ∧ _))

def Allocates (p : SessionPool N V) (new : Option (ℕ × SessionImpl N V)) (impl : ℕ) : Prop :=
  p.purgeDeadSessions.Unused impl ∧
    ∀ x ∈ new, p.purgeDeadSessions.Unused x.1 ∧ x.1 ≠ impl

instance (p : SessionPool N V) (new : Option (ℕ × SessionImpl N V)) (impl : ℕ) :
    Decidable (p.Allocates new impl) :=
  inferInstanceAs (Decidable (_ ∧ _))

def step (p : SessionPool N V) : Action N V → Option (SessionPool N V)
  | .get r new impl =>
    if p.Allocates new impl then (request S p r new impl).map Prod.fst else none
  | .close impl => some (close S p impl).1
  | .janitor expired => some (p.onJanitorTimer S expired)
  | .shutdown => some p.shutdownAll
  | .lose a => some { p with
      sessions := Function.update p.sessions a { p.sessions a with connected := false } }

def empty : SessionPool N V where
  idleSessions := []
  activeSessions := []
  nSessions := 0
  addFeatureMap := fun _ => none
  addPropertyMap := fun _ => none
  shutdown := false
  sessions := fun _ => ⟨fun _ => none, fun _ => none, false⟩
  borrowed := []
  created := fun _ => ⟨fun _ => none, fun _ => none, false⟩

def clients : Machine (SessionPool N V) (Action N V) := ⟨empty, step S⟩

end SessionPool

end Poco
