import Poco.Lib.Machine
import Poco.XML.ChildLists

/-!
# The nodes stay a forest

New nodes have neither parent nor children.  The only check for a circle of parents is whether
the container is itself the new child.

## Main definitions

* `Legal`: if the node can have children, the new child is not above it, and it loses no children.
* `IsForest`: climbing from parent to parent comes to an end, and every node is in the list of its
  parent and in no other.

## Main results

* `perform_spec`: after a call the pointers store lists of children again.
* `forest`: legal calls on new nodes keep a forest.
-/

namespace Poco.XML

open Pointers AbstractContainerNode

variable {I : Type} [DecidableEq I] [Fintype I] {N : Nodes I} {h h' : Links I}
  {kids : I → List I} {p : I}

/-! ### Runs -/

/-- Calls on new nodes, one after the other, whether they return or throw. -/
def calls (N : Nodes I) : Machine (Links I) (I × Call I) :=
  ⟨Links.fresh, fun h a => (N.perform h a.1 a.2).map Prod.fst⟩

def Legal (N : Nodes I) (h : Links I) (a : I × Call I) : Prop :=
  (N.nodeType a.1).isContainer = true →
    (∀ x ∈ a.2.newChild, x ≠ a.1 → ¬Above h.parent a.1 x) ∧ ¬Loses N h a.1 a.2.newChild

/-! ### One call -/

theorem perform_of_not_container (hp : (N.nodeType p).isContainer ≠ true) (h : Links I)
    (call : Call I) : ∃ e, N.perform h p call = some (h, .error e) := by
  cases call
  all_goals
    rw [Nodes.perform, if_neg hp]
    exact ⟨_, rfl⟩

/-- After a call the pointers store lists of children again, and parents have changed as they
should. -/
theorem perform_spec (call : Call I) (hl : Linked N (fun _ => False) h kids)
    (hlos : (N.nodeType p).isContainer = true → ¬Loses N h p call.newChild) :
    ∃ h' res kids', N.perform h p call = some (h', res) ∧
      Linked N (fun _ => False) h' kids' ∧ Moves h h' p call.newChild := by
  by_cases hp : (N.nodeType p).isContainer = true
  · have hlea : ∃ l, Leaves N (fun _ => False) h p call.newChild (N.perform h p call) l := by
      rw [Nodes.perform.eq_def, if_pos hp]
      have hnull : ∀ newChild, ∃ l,
          Leaves N (fun _ => False) h p newChild (some (h, .error .nullPointer)) l :=
        fun _ => ⟨[], leaves_error hl ..⟩
      match call with
      | .insertBefore none _ | .replaceChild none _ | .appendChild none | .removeChild none
      | .replaceChild (some _) none => exact hnull _
      | .insertBefore (some x) _ | .appendChild (some x) =>
        exact ⟨_, insertBefore_spec hl (hlos hp) fun _ _ => id⟩
      | .replaceChild (some x) (some old) => exact ⟨_, replaceChild_spec hl (hlos hp) id⟩
      | .removeChild (some x) => exact ⟨_, removeChild_spec hl p x⟩
    obtain ⟨l, h', res, kids', heq, hl', hmov, -⟩ := hlea
    exact ⟨h', res, kids', heq, hl', hmov⟩
  · obtain ⟨e, he⟩ := perform_of_not_container hp h call
    exact ⟨h, _, kids, he, hl, fun _ => .inl rfl⟩

omit [DecidableEq I] [Fintype I] in
/-- Parents form no circle if no node gets a parent that is below it. -/
theorem Ends.of_moves {newChild : Option I} (hmov : Moves h h' p newChild)
    (habo : ∀ x ∈ newChild, x ≠ p → ¬Above h.parent p x) (hends : ∀ x, Ends h.parent x) (x : I) :
    Ends h'.parent x := by
  refine Pointers.Ends.of_moved (p := p) hends (fun y => ?_) x
  rcases hmov y with hsame | hnone | ⟨hp, x, hx, hpx, hy⟩
  · exact .inl hsame
  · exact .inr (.inl hnone)
  · refine .inr (.inr ⟨hp, fun hpy => habo x hx hpx.symm ?_⟩)
    rcases hy with rfl | hy
    · exact hpy
    · exact hpy.tail hy

/-! ### Any run -/

def IsForest (N : Nodes I) (h : Links I) : Prop :=
  (∃ kids, Linked N (fun _ => False) h kids) ∧ ∀ x, Ends h.parent x

omit [Fintype I] [DecidableEq I] in
theorem isForest_fresh (N : Nodes I) : IsForest N Links.fresh :=
  ⟨⟨fun _ => [], fun _ => rfl, by simp [Links.fresh], fun _ _ => rfl, fun _ hx => hx.elim,
    fun _ _ => rfl⟩, fun _ => .root rfl⟩

theorem IsForest.perform {a : I × Call I} (hfor : IsForest N h) (ha : Legal N h a) :
    ∃ h' res, N.perform h a.1 a.2 = some (h', res) ∧ IsForest N h' := by
  obtain ⟨⟨kids, hl⟩, hends⟩ := hfor
  obtain ⟨h', res, kids', heq, hl', hmov⟩ :=
    perform_spec a.2 hl fun hp => (ha hp).2
  refine ⟨h', res, heq, ⟨kids', hl'⟩, ?_⟩
  by_cases hp : (N.nodeType a.1).isContainer = true
  · exact Ends.of_moves hmov (ha hp).1 hends
  · obtain ⟨e, he⟩ := perform_of_not_container hp h a.2
    cases he.symm.trans heq
    exact hends

/-- In every state that legal calls on new nodes lead to, climbing from parent to parent comes
to an end, and every node is in the list of its parent, once, and in no other; and every legal
call comes to an end. -/
theorem forest (N : Nodes I) (h : Links I) (hreached : (calls N).ReachedBy (Legal N) h) :
    (∀ x, Ends h.parent x) ∧
    (∀ p, ∃ l, Children h p l ∧ l.Nodup ∧ ∀ x, x ∈ l ↔ h.parent x = some p) ∧
    ∀ a, Legal N h a → ∃ res, N.perform h a.1 a.2 = some res := by
  have hfor : IsForest N h := by
    refine Machine.ReachedBy.invariant (isForest_fresh N) ?_ hreached
    intro h a h' hfor ha hstep
    obtain ⟨h₁, res, heq, hfor'⟩ := hfor.perform ha
    have hsame : (calls N).step h a = some h₁ := congrArg (Option.map Prod.fst) heq
    cases hsame.symm.trans hstep
    exact hfor'
  obtain ⟨kids, hl⟩ := hfor.1
  refine ⟨hfor.2, fun p => ⟨kids p, hl.chain p, hl.nodup p, fun x => ?_⟩, fun a ha => ?_⟩
  · rw [hl.mem p x, not_false_eq_true, and_true]
  · obtain ⟨h', res, heq, -⟩ := hfor.perform ha
    exact ⟨_, heq⟩

def elements : Nodes (Fin 4) where
  nodeType := ![.document, .element, .element, .documentFragment]
  owner := ![none, some 0, some 0, some 0]

/-- One element becomes the child of the other. -/
theorem forest_of_two : ∃ h, (calls elements).ReachedBy (Legal elements) h ∧
    h.parent 2 = some 1 ∧ ∀ x, Ends h.parent x := by
  have hleg : Legal elements Links.fresh (1, .appendChild (some 2)) := by
    refine fun _ => ⟨fun x hx hne habo => ?_, by unfold Loses; decide⟩
    rcases Relation.ReflTransGen.cases_head habo with rfl | ⟨y, hy, -⟩
    · exact hne rfl
    · cases hy
  have hrea := Machine.ReachedBy.step (M := calls elements) .start hleg rfl
  exact ⟨_, hrea, by decide, (forest elements _ hrea).1⟩

/-- The fragment makes the element lose its child, which still has it for a parent.  And two
elements may each be the child of the other: the code does not look at the parents of the
container. -/
theorem not_forest :
    (∃ h, (calls elements).exec Links.fresh
        [(1, .appendChild (some 2)), (1, .appendChild (some 3))] = some h ∧
      h.parent 2 = some 1 ∧ Children h 1 []) ∧
    ∃ h, (calls elements).exec Links.fresh
        [(1, .appendChild (some 2)), (2, .appendChild (some 1))] = some h ∧
      h.parent 1 = some 2 ∧ h.parent 2 = some 1 ∧ ¬Ends h.parent 1 := by
  refine ⟨⟨_, rfl, by decide, by decide⟩, _, rfl, by decide, by decide, ?_⟩
  refine not_ends_of_circle (S := fun x => x = 1 ∨ x = 2) ?_ (.inl rfl)
  rintro x (rfl | rfl)
  · exact ⟨2, by decide, .inr rfl⟩
  · exact ⟨1, by decide, .inl rfl⟩

end Poco.XML
