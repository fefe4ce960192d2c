import Poco.Lib.Bytes
import Poco.Lib.SortedAssoc

/-!
# The callbacks of the JSON parser and the handler that builds a tree

`JSON/src/ParseHandler.cpp`.  The source puts a new container into its parent when it is opened
and fills it through a shared pointer.  Nothing reads the parent before the container is closed,
so here a container is put into its parent when it is closed, under the key it was opened with.

`endObject` and `endArray` pop the stack, and `setValue` reads its top, without looking
whether there is one: on an empty stack the behaviour is undefined, and the model has
no result.

## Main definitions

* `Callback`: a call of the parser to its handler.  `D` is the type of floating-point values.
* `Var`: a tree of values.  An integer counts by its value, whatever type it is held in, and an
  object is the list of its entries in the order of its keys, as the `std::map` of the source
  iterates over them.
* `ParseHandler.run`: the handler after a list of callbacks.
-/

namespace Poco.JSON

inductive Callback (D : Type) where
  | startObject
  | endObject
  | startArray
  | endArray
  | key (k : Bytes)
  | null
  | bool (b : Bool)
  | int (v : ℤ)
  | int64 (v : ℤ)
  | unsigned (v : ℤ)
  | uint64 (v : ℤ)
  | float (d : D)
  | string (s : Bytes)
  deriving DecidableEq

inductive Var (D : Type) where
  | null
  | bool (b : Bool)
  | int (v : ℤ)
  | float (d : D)
  | string (s : Bytes)
  | array (vs : List (Var D))
  | object (ms : List (Bytes × Var D))

variable {D : Type}

/-- A container that is still open, with the key it is kept under in its parent. -/
inductive Frame (D : Type) where
  | array (slot : Bytes) (vs : List (Var D))
  | object (slot : Bytes) (ms : List (Bytes × Var D))

namespace Frame

def toVar : Frame D → Var D
  | array _ vs => .array vs
  | object _ ms => .object ms

/-- The key it is kept under in its parent. -/
def slot : Frame D → Bytes
  | array slot _ => slot
  | object slot _ => slot

/-- `Array::add`, or `Object::set` under a key. -/
def add (key : Bytes) (v : Var D) : Frame D → Frame D
  | array slot vs => array slot (vs ++ [v])
  | object slot ms => object slot (SortedAssoc.set ms key v)

/-- An object uses up the pending key, `_key.clear()`. -/
def keyAfter (key : Bytes) : Frame D → Bytes
  | array _ _ => key
  | object _ _ => []

end Frame

structure ParseHandler (D : Type) where
  /-- `_stack`, top first. -/
  stack : List (Frame D)
  key : Bytes
  /-- `_result`, once the outermost container is closed. -/
  result : Option (Var D)

namespace ParseHandler

def fresh : ParseHandler D := ⟨[], [], none⟩

def start (h : ParseHandler D) (new : Bytes → Frame D) : ParseHandler D :=
  match h.stack with
  | [] => { h with stack := [new h.key] }
  | parent :: _ => { h with stack := new h.key :: h.stack, key := parent.keyAfter h.key }

def finish (h : ParseHandler D) : Option (ParseHandler D) :=
  match h.stack with
  | [] => none
  | [f] => some { h with stack := [], result := some f.toVar }
  | f :: parent :: fs => some { h with stack := parent.add f.slot f.toVar :: fs }

def setValue (h : ParseHandler D) (v : Var D) : Option (ParseHandler D) :=
  match h.stack with
  | [] => none
  | parent :: fs =>
    some { h with stack := parent.add h.key v :: fs, key := parent.keyAfter h.key }

def deliver (h : ParseHandler D) : Callback D → Option (ParseHandler D)
  | .startObject => some (h.start fun slot => .object slot [])
  | .endObject => h.finish
  | .startArray => some (h.start fun slot => .array slot [])
  | .endArray => h.finish
  | .key k => some { h with key := k }
  | .null => h.setValue .null
  | .bool b => h.setValue (.bool b)
  | .int v => h.setValue (.int v)
  | .int64 v => h.setValue (.int v)
  | .unsigned v => h.setValue (.int v)
  | .uint64 v => h.setValue (.int v)
  | .float d => h.setValue (.float d)
  | .string s => h.setValue (.string s)

def run (h : ParseHandler D) (log : List (Callback D)) : Option (ParseHandler D) :=
  log.foldlM deliver h

@[simp] theorem run_nil (h : ParseHandler D) : h.run [] = some h := rfl

theorem run_append (h : ParseHandler D) (l₁ l₂ : List (Callback D)) :
    h.run (l₁ ++ l₂) = (h.run l₁).bind fun h' => h'.run l₂ := by
  simp [run]

theorem run_cons (h : ParseHandler D) (c : Callback D) (l : List (Callback D)) :
    h.run (c :: l) = (h.deliver c).bind fun h' => h'.run l := by
  simp [run]

theorem run_append_eq_none {h : ParseHandler D} {l₁ : List (Callback D)} (hn : h.run l₁ = none)
    (l₂ : List (Callback D)) : h.run (l₁ ++ l₂) = none := by
  rw [run_append, hn]
  rfl

end ParseHandler

end Poco.JSON
