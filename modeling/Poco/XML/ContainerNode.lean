import Poco.Lib.Pointers

/-!
# Nodes and their children

The lists of children of `XML/src/AbstractContainerNode.cpp`.  A container points to its first
child, a child to the next one and to its parent; the calls splice these lists by hand.  The
nodes are those of any finite type, so that a loop that has gone through as many nodes as there
are and has not ended never will: the calls below are `none` then.

Nodes are not destroyed as long as their document is there: a child that is removed goes to its
pool.  Events are suspended, as by `Document::suspendEvents`: otherwise the calls also dispatch
mutation events, which climb from parent to parent and run the listeners that they find.

## Main definitions

* `Nodes`, `Links`: what does not change, and the pointers of nodes.
* `Outcome`: what a call leaves, and whether it returns a node or throws.
* `insertBefore`, `replaceChild`, `removeChild`, `appendChild`: the calls.
* `Nodes.perform`: a call on a node of any type.
-/

namespace Poco.XML

open Pointers

/-! ### Nodes -/

inductive NodeType
  | element
  | attribute
  | text
  | cdataSection
  | entityReference
  | entity
  | processingInstruction
  | comment
  | document
  | documentType
  | documentFragment
  | notationNode
deriving DecidableEq

/-- The classes derived from `AbstractContainerNode`. -/
def NodeType.isContainer : NodeType → Bool
  | .element | .entity | .document | .documentType | .documentFragment => true
  | .attribute | .text | .cdataSection | .entityReference | .processingInstruction | .comment
  | .notationNode => false

inductive DOMException
  | wrongDocument
  | notFound
  | hierarchyRequest
  | noModificationAllowed
  /-- `NullPointerException`, of `poco_check_ptr`. -/
  | nullPointer
deriving DecidableEq

structure Nodes (I : Type) where
  nodeType : I → NodeType
  owner : I → Option I

structure Links (I : Type) where
  parent : I → Option I
  next : I → Option I
  first : I → Option I

abbrev Outcome (I : Type) := Option (Links I × Except DOMException I)

variable {I : Type} [DecidableEq I]

namespace Links

def fresh : Links I := ⟨fun _ => none, fun _ => none, fun _ => none⟩

def setParent (h : Links I) (x : I) (v : Option I) : Links I :=
  { h with parent := Function.update h.parent x v }

def setNext (h : Links I) (x : I) (v : Option I) : Links I :=
  { h with next := Function.update h.next x v }

def setFirst (h : Links I) (x : I) (v : Option I) : Links I :=
  { h with first := Function.update h.first x v }

end Links

namespace AbstractContainerNode

variable [Fintype I]

/-! ### removeChild -/

def removeChild (h : Links I) (p : I) : Option I → Outcome I
  | none => some (h, .error .nullPointer)
  | some x =>
    if h.first p = some x then
      some (((h.setFirst p (h.next x)).setNext x none).setParent x none, .ok x)
    else
      match before h.next (some x) (Fintype.card I) (h.first p) with
      | none => none
      | some none => some (h, .error .notFound)
      | some (some cur) =>
        some (((h.setNext cur ((h.next cur).bind h.next)).setNext x none).setParent x none, .ok x)

/-- The new child is removed from its parent, if it has one. -/
def detach (h : Links I) (x : I) : Outcome I :=
  match h.parent x with
  | none => some (h, .ok x)
  | some q => removeChild h q (some x)

/-! ### insertBefore -/

/-- The loop over the children of a fragment, which makes `p` their parent and ends at the last
one. -/
def adopt (p : I) : ℕ → I → Links I → Option (Links I × I)
  | 0, _, _ => none
  | n + 1, last, h =>
    match h.next last with
    | none => some (h.setParent last (some p), last)
    | some x => adopt p n x (h.setParent last (some p))

/-- What is to be inserted is taken out of a fragment: the first and the last node, if any. -/
def takeChildren (h : Links I) (p x : I) : Option (Links I × Option (I × I)) :=
  match h.first x with
  | none => some (h.setFirst x none, none)
  | some c =>
    match adopt p (Fintype.card I) c h with
    | none => none
    | some (h, last) => some (h.setFirst x none, some (c, last))

/-- The nodes from `pFirst` to `pLast`, if any, are put into the list of `p`, before `ref`. -/
def splice (h : Links I) (p x : I) (new : Option (I × I)) (ref : Option I) : Outcome I :=
  match h.first p, new with
  | some c, some (first, last) =>
    if ref = some c then
      some ((h.setNext last (some c)).setFirst p (some first), .ok x)
    else
      match before h.next ref (Fintype.card I) (some c) with
      | none => none
      | some none => some (h, .error .notFound)
      | some (some cur) =>
        some ((h.setNext last (h.next cur)).setNext cur (some first), .ok x)
  -- there are no children, or there is nothing to insert
  | _, _ => some (h.setFirst p (new.map Prod.fst), .ok x)

/-- `insertBefore`, after its checks. -/
def insert (N : Nodes I) (h : Links I) (p x : I) (ref : Option I) : Outcome I :=
  if N.nodeType x = .documentFragment then
    match takeChildren h p x with
    | none => none
    | some (h, new) => splice h p x new ref
  else
    match detach h x with
    | none => none
    | some (h, .error e) => some (h, .error e)
    | some (h, .ok _) => splice (h.setParent x (some p)) p x (some (x, x)) ref

def insertBefore (N : Nodes I) (h : Links I) (p : I) (newChild refChild : Option I) : Outcome I :=
  match newChild with
  | none => some (h, .error .nullPointer)
  | some x =>
    if N.owner x ≠ N.owner p ∧ N.owner x ≠ some p then some (h, .error .wrongDocument)
    else if ∃ r ∈ refChild, h.parent r ≠ some p then some (h, .error .notFound)
    else if refChild = some x then some (h, .ok x)
    else if p = x then some (h, .error .hierarchyRequest)
    else insert N h p x refChild

def appendChild (N : Nodes I) (h : Links I) (p : I) (newChild : Option I) : Outcome I :=
  insertBefore N h p newChild none

/-! ### replaceChild -/

/-- The node `x`, which has no parent now, is put into the list of `p` in place of `old`. -/
def exchange (h : Links I) (p x old : I) : Outcome I :=
  if h.first p = some old then
    some (((((h.setNext x (h.next old)).setParent x (some p)).setNext old none).setParent
      old none).setFirst p (some x), .ok old)
  else
    match before h.next (some old) (Fintype.card I) (h.first p) with
    | none => none
    | some none => some (h, .error .notFound)
    | some (some cur) =>
      some (((((h.setNext x (h.next old)).setParent x (some p)).setNext old none).setParent
        old none).setNext cur (some x), .ok old)

/-- `replaceChild`, after its checks. -/
def replace (N : Nodes I) (h : Links I) (p x old : I) : Outcome I :=
  if N.nodeType x = .documentFragment then
    match insertBefore N h p (some x) (some old) with
    | none => none
    | some (h, .error e) => some (h, .error e)
    | some (h, .ok _) => removeChild h p (some old)
  else
    match detach h x with
    | none => none
    | some (h, .error e) => some (h, .error e)
    | some (h, .ok _) => exchange h p x old

def replaceChild (N : Nodes I) (h : Links I) (p : I) (newChild oldChild : Option I) : Outcome I :=
  match newChild, oldChild with
  | some x, some old =>
    if N.owner x ≠ N.owner p ∧ N.owner x ≠ some p then some (h, .error .wrongDocument)
    else if h.parent old ≠ some p then some (h, .error .notFound)
    else if x = old then some (h, .ok x)
    else if p = x then some (h, .error .hierarchyRequest)
    else replace N h p x old
  | _, _ => some (h, .error .nullPointer)

end AbstractContainerNode

/-! ### Other nodes -/

namespace AbstractNode

/-- `insertBefore`, of nodes that have no children. -/
def insertBefore (h : Links I) (_newChild _refChild : Option I) : Outcome I :=
  some (h, .error .hierarchyRequest)

/-- `replaceChild`, of nodes that have no children. -/
def replaceChild (h : Links I) (_newChild _oldChild : Option I) : Outcome I :=
  some (h, .error .hierarchyRequest)

/-- `removeChild`, of nodes that have no children. -/
def removeChild (h : Links I) (_oldChild : Option I) : Outcome I :=
  some (h, .error .noModificationAllowed)

/-- `appendChild`, of nodes that have no children. -/
def appendChild (h : Links I) (_newChild : Option I) : Outcome I :=
  some (h, .error .hierarchyRequest)

end AbstractNode

/-! ### Calls -/

inductive Call (I : Type)
  | insertBefore (newChild refChild : Option I)
  | replaceChild (newChild oldChild : Option I)
  | removeChild (oldChild : Option I)
  | appendChild (newChild : Option I)
deriving DecidableEq

/-- The node that a call inserts. -/
def Call.newChild : Call I → Option I
  | .insertBefore newChild _ => newChild
  | .replaceChild newChild _ => newChild
  | .removeChild _ => none
  | .appendChild newChild => newChild

variable [Fintype I]

def Nodes.perform (N : Nodes I) (h : Links I) (p : I) (call : Call I) : Outcome I :=
  if (N.nodeType p).isContainer then
    match call with
    | .insertBefore newChild refChild =>
      AbstractContainerNode.insertBefore N h p newChild refChild
    | .replaceChild newChild oldChild =>
      AbstractContainerNode.replaceChild N h p newChild oldChild
    | .removeChild oldChild => AbstractContainerNode.removeChild h p oldChild
    | .appendChild newChild => AbstractContainerNode.appendChild N h p newChild
  else
    match call with
    | .insertBefore newChild refChild => AbstractNode.insertBefore h newChild refChild
    | .replaceChild newChild oldChild => AbstractNode.replaceChild h newChild oldChild
    | .removeChild oldChild => AbstractNode.removeChild h oldChild
    | .appendChild newChild => AbstractNode.appendChild h newChild

end Poco.XML
