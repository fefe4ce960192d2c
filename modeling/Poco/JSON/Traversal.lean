import Mathlib.Data.List.Induction
import Poco.JSON.ParseHandler

/-!
# Traversals of a document

The callbacks that walk over a document: a value is one scalar callback, or a container
with the walks of its elements or of its members between its begin and its end.

## Main definitions

* `Traversal`, `Document`: the walk over a value, and over a document, which is a container.
* `Nested`: a prefix of the walk over some document.
* `Ctx`: the innermost container that is open: an array, an object that waits for a key, or an
  object that waits for the value of a key.
* `run`: a machine with a stack of contexts.

## Main results

* `nested_iff`: the machine does not get stuck exactly on the prefixes of walks over a document.
-/

namespace Poco.JSON

open List

variable {D : Type}

def Callback.isScalar : Callback D → Bool
  | .startObject | .endObject | .startArray | .endArray | .key _ => false
  | _ => true

mutual

inductive Traversal : List (Callback D) → Prop where
  | scalar {c : Callback D} (hc : c.isScalar) : Traversal [c]
  | array {l : List (Callback D)} (hl : Elements l) : Traversal (.startArray :: (l ++ [.endArray]))
  | object {l : List (Callback D)} (hl : Members l) :
      Traversal (.startObject :: (l ++ [.endObject]))

inductive Elements : List (Callback D) → Prop where
  | nil : Elements []
  | snoc {l v : List (Callback D)} (hl : Elements l) (hv : Traversal v) : Elements (l ++ v)

inductive Members : List (Callback D) → Prop where
  | nil : Members []
  | snoc {l v : List (Callback D)} (k : Bytes) (hl : Members l) (hv : Traversal v) :
      Members (l ++ [.key k] ++ v)

end

def Document (l : List (Callback D)) : Prop := Traversal l ∧ ∀ c, l ≠ [c]

def Nested (l : List (Callback D)) : Prop := ∃ rest, Document (l ++ rest)

/-! ### The machine -/

inductive Ctx where
  | array | key | value
  deriving DecidableEq, Repr

def Ctx.next : Ctx → Ctx
  | .array => .array
  | .key => .key
  | .value => .key

inductive Pos where
  | start
  | inside (c : Ctx) (cs : List Ctx)
  | finished
  deriving DecidableEq, Repr

open Pos

namespace Pos

/-- The end of a container, given the contexts around it. -/
def close : List Ctx → Pos
  | [] => finished
  | c :: cs => inside c.next cs

def step : Pos → Callback D → Option Pos
  | start, .startObject => some (inside .key [])
  | start, .startArray => some (inside .array [])
  | inside .key cs, .key _ => some (inside .value cs)
  | inside .key cs, .endObject => some (close cs)
  | inside .array cs, .endArray => some (close cs)
  | inside .key _, _ => none
  | inside c cs, .startObject => some (inside .key (c :: cs))
  | inside c cs, .startArray => some (inside .array (c :: cs))
  | inside c cs, s => if s.isScalar then some (inside c.next cs) else none
  | _, _ => none

def run (p : Pos) (l : List (Callback D)) : Option Pos := l.foldlM step p

@[simp] theorem run_nil (p : Pos) : p.run ([] : List (Callback D)) = some p := rfl

theorem run_append (p : Pos) (l₁ l₂ : List (Callback D)) :
    p.run (l₁ ++ l₂) = (p.run l₁).bind fun q => q.run l₂ := by
  simp [run]

theorem run_cons (p : Pos) (c : Callback D) (l : List (Callback D)) :
    p.run (c :: l) = (p.step c).bind fun q => q.run l := by
  simp [run]

theorem run_singleton (p : Pos) (c : Callback D) : p.run [c] = p.step c := by
  simp [run]

variable {c : Ctx} {b l o : List (Callback D)} {cs : List Ctx}

theorem step_scalar (hc : c ≠ .key) (hs : s.isScalar) (cs : List Ctx) :
    (inside c cs).step s = some (inside c.next cs) := by
  cases c with
  | key => exact absurd rfl hc
  | array | value => cases s <;> first | rfl | cases hs

theorem step_startObject (hc : c ≠ .key) (cs : List Ctx) :
    (inside c cs).step (.startObject : Callback D) = some (inside .key (c :: cs)) := by
  cases c with
  | key => exact absurd rfl hc
  | array | value => rfl

theorem step_startArray (hc : c ≠ .key) (cs : List Ctx) :
    (inside c cs).step (.startArray : Callback D) = some (inside .array (c :: cs)) := by
  cases c with
  | key => exact absurd rfl hc
  | array | value => rfl

end Pos

/-! ### The machine follows every walk -/

mutual

theorem Traversal.run : Traversal l → ∀ {c : Ctx} {cs : List Ctx},
    c ≠ .key → (inside c cs).run l = some (.inside c.next cs)
  | .scalar hs, c, cs, hc => by rw [run_singleton, step_scalar hc hs]
  | .array hl, c, cs, hc => by
    rw [run_cons, step_startArray hc, Option.bind_some, run_append, hl.run]
    rfl
  | .object hl, c, cs, hc => by
    rw [run_cons, step_startObject hc, Option.bind_some, run_append, hl.run]
    rfl

theorem Elements.run : Elements l → ∀ {cs : List Ctx},
    (inside .array cs).run l = some (.inside .array cs)
  | .nil, _ => rfl
  | .snoc hl hv, cs => by
    rw [run_append, hl.run]
    exact hv.run nofun

theorem Members.run : Members l → ∀ {cs : List Ctx},
    (inside .key cs).run l = some (.inside .key cs)
  | .nil, _ => rfl
  | .snoc k hl hv, cs => by
    rw [run_append, run_append, hl.run]
    exact hv.run nofun

end

theorem Document.run (h : Document l) : start.run l = some .finished := by
  obtain ⟨ht, hne⟩ := h
  cases ht with
  | scalar hc => exact absurd rfl (hne _)
  | array hl =>
    change (inside .array []).run _ = _
    rw [run_append, hl.run]
    rfl
  | object hl =>
    change (inside .key []).run _ = _
    rw [run_append, hl.run]
    rfl

/-! ### What the machine follows can be completed -/

/-- The walk over a container that is open, from its begin on. -/
inductive Body : Ctx → List (Callback D) → Prop where
  | array {l : List (Callback D)} (hl : Elements l) : Body .array (.startArray :: l)
  | key {l : List (Callback D)} (hl : Members l) : Body .key (.startObject :: l)
  | value {l : List (Callback D)} (k : Bytes) (hl : Members l) :
      Body .value (.startObject :: (l ++ [.key k]))

/-- The walk over nested containers that are all open. -/
inductive Open : Ctx → List Ctx → List (Callback D) → Prop where
  | root {c : Ctx} {b : List (Callback D)} (hb : Body c b) : Open c [] b
  | child {c c' : Ctx} {cs : List Ctx} {o b : List (Callback D)} (ho : Open c' cs o)
      (hc : c' ≠ .key) (hb : Body c b) : Open c (c' :: cs) (o ++ b)

theorem Body.append {v : List (Callback D)} (hb : Body c b) (hc : c ≠ .key) (hv : Traversal v) :
    Body c.next (b ++ v) := by
  cases hb with
  | array hl => exact .array (hl.snoc hv)
  | key hl => exact absurd rfl hc
  | value k hl =>
    exact .key (hl.snoc k hv)

theorem Open.append {v : List (Callback D)} (h : Open c cs o) (hc : c ≠ .key) (hv : Traversal v) :
    Open c.next cs (o ++ v) := by
  cases h with
  | root hb => exact .root (hb.append hc hv)
  | child ho hc' hb =>
    rw [append_assoc]
    exact .child ho hc' (hb.append hc hv)

theorem Open.addKey (h : Open .key cs o) (k : Bytes) : Open .value cs (o ++ [.key k]) := by
  cases h with
  | root hb =>
    cases hb with
    | key hl => exact .root (.value k hl)
  | child ho hc' hb =>
    cases hb with
    | key hl =>
      rw [append_assoc]
      exact .child ho hc' (.value k hl)

/-- Where the walk is, of a list of callbacks. -/
def At : Pos → List (Callback D) → Prop
  | .start, l => l = []
  | .inside c cs, l => Open c cs l
  | .finished, l => Document l

theorem Open.close {e : Callback D} (h : Open c cs o) (he : ∀ b, Body c b → Document (b ++ [e])) :
    At (close cs) (o ++ [e]) := by
  cases h with
  | root hb => exact he _ hb
  | child ho hc' hb =>
    rw [append_assoc]
    exact ho.append hc' (he _ hb).1

theorem Body.endArray (h : Body .array b) : Document (b ++ [.endArray]) := by
  cases h with
  | array hl => exact ⟨.array hl, fun c => by simp⟩

theorem Body.endObject (h : Body .key b) : Document (b ++ [.endObject]) := by
  cases h with
  | key hl => exact ⟨.object hl, fun c => by simp⟩

theorem At.step (h : At p l) (hs : p.step c = some q) : At q (l ++ [c]) := by
  cases p with
  | finished => cases c <;> cases hs
  | start =>
    obtain rfl : l = [] := h
    cases c with
    | startObject => cases hs; exact .root (.key .nil)
    | startArray => cases hs; exact .root (.array .nil)
    | _ => cases hs
  | inside ctx cs =>
    have ho : Open ctx cs l := h
    by_cases hkey : ctx = .key
    · subst hkey
      cases c with
      | key k => cases hs; exact ho.addKey k
      | endObject => cases hs; exact ho.close fun _ hb => hb.endObject
      | _ => cases hs
    · by_cases hsc : c.isScalar
      · rw [step_scalar hkey hsc] at hs
        cases hs
        exact ho.append hkey (.scalar hsc)
      cases c with
      | startObject =>
        rw [step_startObject hkey] at hs
        cases hs
        exact .child ho hkey (.key .nil)
      | startArray =>
        rw [step_startArray hkey] at hs
        cases hs
        exact .child ho hkey (.array .nil)
      | endArray =>
        cases ctx with
        | array => cases hs; exact ho.close fun _ hb => hb.endArray
        | key => exact absurd rfl hkey
        | value => cases hs
      | endObject | key k => cases ctx <;> first | exact absurd rfl hkey | cases hs
      | _ => exact absurd rfl hsc

theorem At.run : ∀ {p : Pos}, start.run l = some p → At p l := by
  induction l using reverseRecOn with
  | nil => intro p h; cases h; rfl
  | append_singleton l c ih =>
    intro p h
    rw [run_append] at h
    cases hl : start.run l with
    | none => rw [hl] at h; cases h
    | some q =>
      rw [hl, Option.bind_some, run_singleton] at h
      exact (ih hl).step h

/-- An open walk can be completed: the innermost container is closed, and so on. -/
theorem Open.nested : ∀ {cs : List Ctx} {c : Ctx} {o : List (Callback D)}, Open c cs o →
    Nested o := by
  -- it is enough that a document goes on after its last bracket
  have of_close : ∀ {cs : List Ctx}, (∀ {c : Ctx} {o : List (Callback D)} (e : Callback D),
      Open c cs o → (∀ b, Body c b → Document (b ++ [e])) → Nested o) →
      ∀ {c : Ctx} {o : List (Callback D)}, Open c cs o → Nested o := by
    intro cs key c o h
    cases c with
    | array => exact key _ h fun _ hb => hb.endArray
    | key => exact key _ h fun _ hb => hb.endObject
    | value =>
      have h' : Open .key cs (o ++ [.null]) := h.append nofun (.scalar rfl)
      obtain ⟨rest, hrest⟩ := key _ h' fun _ hb => hb.endObject
      exact ⟨.null :: rest, by rwa [append_assoc] at hrest⟩
  intro cs
  induction cs with
  | nil =>
    apply of_close
    intro c o e h he
    exact ⟨[e], (h.close he : At .finished _)⟩
  | cons c' cs ih =>
    apply of_close
    intro c o e h he
    obtain ⟨rest, hrest⟩ := ih (h.close he : Open c'.next cs (o ++ [e]))
    exact ⟨e :: rest, by rwa [append_assoc] at hrest⟩

theorem nested_iff : Nested l ↔ ∃ p, start.run l = some p := by
  constructor
  · rintro ⟨rest, h⟩
    have hrun := h.run
    rw [run_append] at hrun
    cases hl : start.run l with
    | none => rw [hl] at hrun; cases hrun
    | some p => exact ⟨p, rfl⟩
  · rintro ⟨p, h⟩
    have hat := At.run h
    cases p with
    | start =>
      obtain rfl : l = [] := hat
      exact ⟨[.startArray, .endArray], .array .nil, fun c => by simp⟩
    | inside c cs => exact hat.nested
    | finished => exact ⟨[], by rwa [append_nil]⟩

end Poco.JSON
