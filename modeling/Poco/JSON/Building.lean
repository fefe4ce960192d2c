import Poco.JSON.Traversal

/-!
# What the handler builds

The tree that `ParseHandler` makes of the walk over a value, stated without its stack:
the elements of an array in their order, and the members of an object set one after the
other.

## Main definitions

* `Builds`, `BuildsElements`, `BuildsMembers`: the tree of a walk over a value, over elements and
  over members.

## Main results

* `Builds.run`: the handler puts the tree into the container that is open.
* `Builds.document`: the walk over a document has its tree as the result.
-/

namespace Poco.JSON

open ParseHandler JSON.Frame

variable {D : Type}

def Callback.value : Callback D → Option (Var D)
  | .null => some .null
  | .bool b => some (.bool b)
  | .int v | .int64 v | .unsigned v | .uint64 v => some (.int v)
  | .float d => some (.float d)
  | .string s => some (.string s)
  | _ => none

mutual

inductive Builds : List (Callback D) → Var D → Prop where
  | scalar {c : Callback D} {v : Var D} (h : c.value = some v) : Builds [c] v
  | array {l : List (Callback D)} {vs : List (Var D)} (hl : BuildsElements l vs) :
      Builds (.startArray :: (l ++ [.endArray])) (.array vs)
  | object {l : List (Callback D)} {ms : List (Bytes × Var D)} (hl : BuildsMembers [] l ms) :
      Builds (.startObject :: (l ++ [.endObject])) (.object ms)

inductive BuildsElements : List (Callback D) → List (Var D) → Prop where
  | nil : BuildsElements [] []
  | cons {e l : List (Callback D)} {v : Var D} {vs : List (Var D)} (he : Builds e v)
      (hl : BuildsElements l vs) : BuildsElements (e ++ l) (v :: vs)

/-- The members of an object after a walk over some more. -/
inductive BuildsMembers : List (Bytes × Var D) → List (Callback D) →
    List (Bytes × Var D) → Prop where
  | nil {ms : List (Bytes × Var D)} : BuildsMembers ms [] ms
  | cons {ms ms' : List (Bytes × Var D)} {e l : List (Callback D)} {v : Var D}
      (k : Bytes) (he : Builds e v) (hl : BuildsMembers (SortedAssoc.set ms k v) l ms') :
      BuildsMembers ms (.key k :: (e ++ l)) ms'

end

/-! ### The handler -/

theorem ParseHandler.deliver_value (h : c.value = some v)
    (H : ParseHandler D) : H.deliver c = H.setValue v := by
  cases c <;> cases h <;> rfl

mutual

theorem Builds.run : ∀ {l : List (Callback D)} {x : Var D}, Builds l x →
    ∀ {H : ParseHandler D} {parent : Frame D} {fs : List (Frame D)}, H.stack = parent :: fs →
      parent.keyAfter H.key = [] → H.run l = H.setValue x
  | _, _, .scalar h, H, _, _, _, _ => by
    rw [run_cons, deliver_value h]
    cases H.setValue _ <;> rfl
  | _, .array vs, .array hl, H, parent, fs, hs, hk => by
    have hbeg : H.deliver .startArray = some { H with
        stack := .array H.key [] :: parent :: fs, key := [] } := by
      simp [deliver, start, hs, hk]
    have hrun := BuildsElements.run hl (H := { H with
      stack := .array H.key [] :: parent :: fs, key := [] }) rfl rfl
    rw [run_cons, hbeg, Option.bind_some, run_append, hrun]
    simp [run_cons, deliver, finish, setValue, hs, hk, slot, toVar]
  | _, .object ms, .object hl, H, parent, fs, hs, hk => by
    have hbeg : H.deliver .startObject = some { H with
        stack := .object H.key [] :: parent :: fs, key := [] } := by
      simp [deliver, start, hs, hk]
    have hrun := BuildsMembers.run hl (H := { H with
      stack := .object H.key [] :: parent :: fs, key := [] }) rfl rfl
    rw [run_cons, hbeg, Option.bind_some, run_append, hrun]
    simp [run_cons, deliver, finish, setValue, hs, hk, slot, toVar]

theorem BuildsElements.run : ∀ {l : List (Callback D)} {vs : List (Var D)}, BuildsElements l vs →
    ∀ {H : ParseHandler D} {slot : Bytes} {us : List (Var D)} {fs : List (Frame D)},
      H.stack = .array slot us :: fs → H.key = [] →
      H.run l = some { H with stack := .array slot (us ++ vs) :: fs }
  | _, _, .nil, H, slot, us, fs, hs, _ => by simp [← hs]
  | _, _, .cons (v := v) he hl, H, slot, us, fs, hs, hk => by
    have hset : H.setValue v = some { H with stack := .array slot (us ++ [v]) :: fs } := by
      simp [setValue, hs, add, keyAfter]
    have hrun := BuildsElements.run hl (H := { H with stack := .array slot (us ++ [v]) :: fs })
      rfl hk
    rw [run_append, Builds.run he hs (by simpa [keyAfter] using hk), hset, Option.bind_some, hrun]
    simp

theorem BuildsMembers.run : ∀ {ms : List (Bytes × Var D)} {l : List (Callback D)}
    {ms' : List (Bytes × Var D)}, BuildsMembers ms l ms' →
    ∀ {H : ParseHandler D} {slot : Bytes} {fs : List (Frame D)},
      H.stack = .object slot ms :: fs → H.key = [] →
      H.run l = some { H with stack := .object slot ms' :: fs }
  | _, _, _, .nil, H, slot, fs, hs, _ => by simp [← hs]
  | ms, _, _, .cons (v := v) k he hl, H, slot, fs, hs, hk => by
    have hkey : H.deliver (.key k) = some { H with key := k } := rfl
    have hset : ({ H with key := k } : ParseHandler D).setValue v = some { H with
        stack := .object slot (SortedAssoc.set ms k v) :: fs } := by
      simp [setValue, hs, add, keyAfter, ← hk]
    have hrun := BuildsMembers.run hl (H := { H with
      stack := .object slot (SortedAssoc.set ms k v) :: fs }) rfl hk
    rw [run_cons, hkey, Option.bind_some, run_append,
      Builds.run he (H := { H with key := k }) hs rfl, hset, Option.bind_some, hrun]

end

theorem Builds.document {l : List (Callback D)} {x : Var D} (h : Builds l x)
    (hl : ∀ c, l ≠ [c]) : fresh.run l = some ⟨[], [], some x⟩ := by
  cases h with
  | scalar h => exact absurd rfl (hl _)
  | array hvs | object hvs =>
    rw [ParseHandler.run_cons]
    change (ParseHandler.run ⟨[_], [], none⟩ _) = _
    rw [ParseHandler.run_append, hvs.run rfl rfl]
    rfl

/-! ### Every walk has a tree -/

theorem BuildsElements.concat {e : List (Callback D)} {v : Var D} (he : Builds e v) :
    ∀ {l : List (Callback D)} {vs : List (Var D)}, BuildsElements l vs →
      BuildsElements (l ++ e) (vs ++ [v])
  | _, _, .nil => by simpa using BuildsElements.cons he .nil
  | _, _, .cons he' hl => by
    rw [List.append_assoc]
    exact .cons he' (BuildsElements.concat he hl)

theorem BuildsMembers.concat {e : List (Callback D)} {v : Var D} (k : Bytes)
    (he : Builds e v) :
    ∀ {ms : List (Bytes × Var D)} {l : List (Callback D)} {ms' : List (Bytes × Var D)},
      BuildsMembers ms l ms' →
      BuildsMembers ms (l ++ [.key k] ++ e) (SortedAssoc.set ms' k v)
  | _, _, _, .nil => by simpa using BuildsMembers.cons k he .nil
  | _, _, _, .cons k' he' hl => by
    have h := BuildsMembers.cons k' he' (BuildsMembers.concat k he hl)
    simpa using h

theorem BuildsMembers.append {l' : List (Callback D)} {ms'' : List (Bytes × Var D)} :
    ∀ {ms : List (Bytes × Var D)} {l : List (Callback D)} {ms' : List (Bytes × Var D)},
      BuildsMembers ms l ms' → BuildsMembers ms' l' ms'' → BuildsMembers ms (l ++ l') ms''
  | _, _, _, .nil, h' => h'
  | _, _, _, .cons k he hl, h' => by
    have h := BuildsMembers.cons k he (BuildsMembers.append hl h')
    simpa using h

theorem Callback.exists_value {c : Callback D} (h : c.isScalar) : ∃ v, c.value = some v := by
  cases c with
  | startObject | endObject | startArray | endArray | key => cases h
  | _ => exact ⟨_, rfl⟩

mutual

theorem Traversal.builds : ∀ {l : List (Callback D)}, Traversal l → ∃ x, Builds l x
  | _, .scalar hc => by
    obtain ⟨v, hv⟩ := Callback.exists_value hc
    exact ⟨v, .scalar hv⟩
  | _, .array hl => by
    obtain ⟨vs, hvs⟩ := Elements.builds hl
    exact ⟨_, .array hvs⟩
  | _, .object hl => by
    obtain ⟨ms, hms⟩ := Members.builds hl
    exact ⟨_, .object hms⟩

theorem Elements.builds : ∀ {l : List (Callback D)}, Elements l → ∃ vs, BuildsElements l vs
  | _, .nil => ⟨_, .nil⟩
  | _, .snoc hl hv => by
    obtain ⟨vs, hvs⟩ := Elements.builds hl
    obtain ⟨v, hv⟩ := Traversal.builds hv
    exact ⟨_, hvs.concat hv⟩

theorem Members.builds : ∀ {l : List (Callback D)}, Members l → ∃ ms, BuildsMembers [] l ms
  | _, .nil => ⟨_, .nil⟩
  | _, .snoc k hl hv => by
    obtain ⟨ms, hms⟩ := Members.builds hl
    obtain ⟨v, hv⟩ := Traversal.builds hv
    exact ⟨_, hms.concat k hv⟩

end

end Poco.JSON
