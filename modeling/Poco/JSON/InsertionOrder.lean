import Poco.JSON.Stringifier
import Poco.Lib.Machine
import Mathlib.Data.List.Forall2
import Mathlib.Data.List.Nodup

/-!
# Objects that preserve the order of insertion

`Object` of `JSON/src/Object.cpp`, constructed with `preserveInsertionOrder`.  Beside the map
of its properties it keeps a list of pointers to the values in the map, in the order in which
they were inserted.  The list has no keys, so the code takes the values for them: `set` considers
a key as present if some value, converted to a string, is equal to the key, and `stringify`
writes the first key whose value is equal to the one pointed to.  `remove` leaves the pointer to
the value that it erases in the list.

## Main definitions

* `DynamicVar`: values with the operations of `Dynamic::Var` that an object uses.
* `OrderedObject`: `Object`, with `_preserveInsOrder`.
* `Insertion.set`: a property is replaced where it is, or becomes the last.
* `Separable`: the action keeps values and keys apart.
* `Keeps`: the pointers are to the values in the order of insertion, which can be told apart.

## Main results

* `Keeps.step`: separable actions keep this.
* `stringify_in_order`: what they leave is written in the order of insertion.
-/

namespace Poco.JSON

open List Stringifier

/-! ### Values -/

inductive ObjectExc
  /-- The pointer is to a value that was erased. -/
  | dangling
  /-- `InvalidAccessException`: an empty value cannot be converted. -/
  | invalidAccess
  /-- `BadCastException`: there is no conversion to a string. -/
  | badCast
  /-- `NotFoundException`: no property has the value. -/
  | notFound
deriving DecidableEq

class DynamicVar (W : Type) where
  isEmpty : W → Bool
  /-- `convert<std::string>`, for a value that is not empty. -/
  convert : W → Except ObjectExc Bytes
  stringify : W → UInt32 → Int32 → Bytes

section

variable {D : Type} [DoubleToStr D]

def Var.convert : Var D → Except ObjectExc Bytes
  | .null => .error .invalidAccess
  | .bool b => .ok (if b then [0x74, 0x72, 0x75, 0x65] else [0x66, 0x61, 0x6C, 0x73, 0x65])
  | .int v => .ok (NumberFormatter.format v)
  | .float d => .ok (DoubleToStr.doubleToStr d)
  | .string s => .ok s
  | .array vs => .ok (Array.stringify vs 2 (-1))
  | .object ms => .ok (Object.stringify ms 2 (-1))

def Var.isNull : Var D → Bool
  | .null => true
  | _ => false

instance : DynamicVar (Var D) := ⟨Var.isNull, Var.convert, Stringifier.stringify⟩

end

variable {W : Type} [DynamicVar W]

/-- `convert<std::string>`. -/
def toText (v : W) : Except ObjectExc Bytes :=
  if DynamicVar.isEmpty v then .error .invalidAccess else DynamicVar.convert v

/-- `Var::operator ==`, of two values. -/
def varEq (a b : W) : Except ObjectExc Bool :=
  if DynamicVar.isEmpty a && !DynamicVar.isEmpty b then .ok false
  else if DynamicVar.isEmpty a && DynamicVar.isEmpty b then .ok true
  else do
    let s ← toText a
    let t ← toText b
    return s == t

/-- `operator ==`, of a string and a value. -/
def keyEq (key : Bytes) (v : W) : Except ObjectExc Bool :=
  if DynamicVar.isEmpty v then .ok false
  else do
    let t ← toText v
    return key == t

/-! ### The object -/

structure Node (W : Type) where
  address : ℕ
  value : W

structure OrderedObject (W : Type) where
  values : List (Bytes × Node W)
  keys : List ℕ

namespace OrderedObject

def empty : OrderedObject W := ⟨[], []⟩

def deref (values : List (Bytes × Node W)) (p : ℕ) : Except ObjectExc W :=
  match values.find? fun e => e.2.address == p with
  | none => .error .dangling
  | some e => .ok e.2.value

/-- The loop of `set`: whether some value pointed to is equal to the key. -/
def listed (values : List (Bytes × Node W)) (key : Bytes) :
    List ℕ → Except ObjectExc Bool
  | [] => .ok false
  | p :: ps => do
    let v ← deref values p
    if ← keyEq key v then return true else listed values key ps

/-- The address of the value of a key, which is a new one if there is no such property yet. -/
def place (values : List (Bytes × Node W)) (key : Bytes) (address : ℕ) : ℕ :=
  match values.lookup key with
  | none => address
  | some node => node.address

/-- `set`; a new property is put at `address`.  The value is assigned before the loop looks at
the pointers. -/
def set (o : OrderedObject W) (key : Bytes) (value : W) (address : ℕ) :
    OrderedObject W × Except ObjectExc Unit :=
  let values := SortedAssoc.set o.values key ⟨place o.values key address, value⟩
  match listed values key o.keys with
  | .error e => (⟨values, o.keys⟩, .error e)
  | .ok true => (⟨values, o.keys⟩, .ok ())
  | .ok false => (⟨values, o.keys ++ [place o.values key address]⟩, .ok ())

def remove (o : OrderedObject W) (key : Bytes) : OrderedObject W :=
  { o with values := o.values.filter fun e => e.1 != key }

def clear (_ : OrderedObject W) : OrderedObject W := empty

/-- `getKey`: the first key whose value is equal to this one. -/
def getKey (v : W) : List (Bytes × Node W) → Except ObjectExc Bytes
  | [] => .error .notFound
  | e :: es => do if ← varEq e.2.value v then return e.1 else getKey v es

/-- The keys and values that the loop of `doStringify` writes. -/
def listing (values : List (Bytes × Node W)) :
    List ℕ → Except ObjectExc (List (Bytes × W))
  | [] => .ok []
  | p :: ps => do
    let v ← deref values p
    let key ← getKey v values
    let rest ← listing values ps
    return (key, v) :: rest

/-- The text of the loop of `doStringify`, given the keys and values it writes. -/
def loop : List (Bytes × W) → UInt32 → UInt32 → Bytes
  | [], _, _ => []
  | (key, v) :: ms, indent, step =>
    spaces indent ++ ([0x22] ++ key ++ [0x22]) ++
      (if indent > 0 then [0x20, 0x3A, 0x20] else [0x3A]) ++
      DynamicVar.stringify v (indent + step) step.toInt32 ++
      ((if ms.isEmpty then [] else [0x2C]) ++ newline (step > 0)) ++ loop ms indent step

/-- The text of an object with these properties, in this order. -/
def text (ms : List (Bytes × W)) (indent : UInt32) (step : Int32) : Bytes :=
  Object.bracket (fun indent step => loop ms indent step) indent step

def stringify (o : OrderedObject W) (indent : UInt32) (step : Int32) :
    Except ObjectExc Bytes :=
  (listing o.values o.keys).map fun ms => text ms indent step

end OrderedObject

/-! ### Properties in the order of insertion -/

namespace Insertion

/-- A property is replaced where it is, or becomes the last. -/
def set (ms : List (Bytes × W)) (key : Bytes) (value : W) : List (Bytes × W) :=
  if key ∈ ms.map Prod.fst then ms.map fun e => if e.1 = key then (key, value) else e
  else ms ++ [(key, value)]

def remove (ms : List (Bytes × W)) (key : Bytes) : List (Bytes × W) :=
  ms.filter fun e => e.1 != key

end Insertion

/-! ### Runs -/

namespace OrderedObject

inductive Action (W : Type)
  | set (key : Bytes) (value : W) (address : ℕ)
  | remove (key : Bytes)
  | clear

/-- One action, on the object and on the properties it is to have; new values are put where no
value is. -/
def step (s : OrderedObject W × List (Bytes × W)) :
    Action W → Option (OrderedObject W × List (Bytes × W))
  | .set key value address =>
    if ∀ e ∈ s.1.values, e.2.address ≠ address then
      some ((s.1.set key value address).1, Insertion.set s.2 key value)
    else none
  | .remove key => some (s.1.remove key, Insertion.remove s.2 key)
  | .clear => some (s.1.clear, [])

def actions : Machine (OrderedObject W × List (Bytes × W)) (Action W) :=
  ⟨(empty, []), step⟩

/-- A value is empty, or can be converted to a string. -/
def Readable (v : W) : Prop := DynamicVar.isEmpty v = true ∨ ∃ t, toText v = .ok t

/-- Two values differ as texts, and an empty one has the first of the two keys: `getKey` would
compare it with the other one otherwise. -/
def Apart (a b : Bytes × W) : Prop :=
  toText a.2 ≠ toText b.2 ∧ (DynamicVar.isEmpty a.2 = true → a.1 < b.1) ∧
    (DynamicVar.isEmpty b.2 = true → b.1 < a.1)

def property (e : Bytes × Node W) : Bytes × W := (e.1, e.2.value)

/-- The action keeps values and keys apart: a value that is set is readable and apart from the
other ones; a new key is not equal to any value, and a key that is there is equal to some value
afterwards; only keys that are not there are removed. -/
def Separable (s : OrderedObject W × List (Bytes × W)) : Action W → Prop
  | .set key value _ =>
    Readable value ∧ (∀ e ∈ s.1.values, e.1 ≠ key → Apart (key, value) (property e)) ∧
      if key ∈ s.1.values.map Prod.fst then
        toText value = .ok key ∨ ∃ e ∈ s.1.values, e.1 ≠ key ∧ toText e.2.value = .ok key
      else ∀ e ∈ s.1.values, toText e.2.value ≠ .ok key
  | .remove key => key ∉ s.1.values.map Prod.fst
  | .clear => True

/-! ### Values that can be told apart -/

variable {v : W} {key t : Bytes} {ms : List (Bytes × W)}

theorem Apart.symm {a b : Bytes × W} (h : Apart a b) : Apart b a := ⟨h.1.symm, h.2.2, h.2.1⟩

theorem isEmpty_of_toText (h : toText v = .ok t) : DynamicVar.isEmpty v = false := by
  rw [toText] at h
  cases hv : DynamicVar.isEmpty v with
  | false => rfl
  | true => rw [hv] at h; cases h

theorem varEq_self (h : Readable v) : varEq v v = .ok true := by
  rcases h with hv | ⟨t, ht⟩
  · simp [varEq, hv]
  · simp [varEq, isEmpty_of_toText ht, ht, pure, Except.pure, bind, Except.bind]

theorem varEq_of_ne {a b : W} (ha : Readable a) (hb : toText b = .ok t)
    (hne : toText a ≠ toText b) :
    varEq a b = .ok false := by
  rcases ha with hv | ⟨s, hs⟩
  · simp [varEq, hv, isEmpty_of_toText hb]
  · have hst : s ≠ t := fun h => hne (by rw [hs, hb, h])
    simp [varEq, isEmpty_of_toText hs, hs, hb, hst, pure, Except.pure, bind, Except.bind]

theorem keyEq_of_readable (key : Bytes) (h : Readable v) :
    keyEq key v = .ok (decide (toText v = .ok key)) := by
  rcases h with hv | ⟨t, ht⟩
  · simp [keyEq, toText, hv]
  · rw [keyEq, isEmpty_of_toText ht, ht]
    show Except.ok (key == t) = _
    by_cases h : t = key
    · simp [h]
    · simp [h, Ne.symm h]

variable {values : List (Bytes × Node W)}

omit [DynamicVar W] in
theorem deref_of_mem (haddr : (values.map fun e => e.2.address).Nodup)
    {e : Bytes × Node W} (he : e ∈ values) : deref values e.2.address = .ok e.2.value := by
  have hfind : values.find? (fun a => a.2.address == e.2.address) = some e := by
    induction values with
    | nil => cases he
    | cons a values ih =>
      obtain ⟨hnot, hnd⟩ := nodup_cons.mp haddr
      rcases mem_cons.mp he with rfl | he
      · exact find?_cons_of_pos (beq_self_eq_true _)
      · rw [find?_cons_of_neg, ih hnd he]
        rw [beq_iff_eq]
        intro heq
        exact hnot (mem_map.mpr ⟨e, he, heq.symm⟩)
  rw [deref, hfind]

theorem getKey_of_mem (hsor : SortedAssoc.Sorted values)
    (hread : ∀ e ∈ values, Readable e.2.value)
    (hapart : values.Pairwise fun a b => Apart (property a) (property b))
    {e : Bytes × Node W} (he : e ∈ values) : getKey e.2.value values = .ok e.1 := by
  induction values with
  | nil => cases he
  | cons a values ih =>
    obtain ⟨hne, hapart⟩ := pairwise_cons.mp hapart
    obtain ⟨hlt, hsor⟩ := pairwise_cons.mp hsor
    rw [getKey]
    rcases mem_cons.mp he with rfl | he
    · rw [varEq_self (hread e mem_cons_self)]
      rfl
    · -- an empty value would come first
      have htext : ∃ t, toText e.2.value = .ok t := by
        refine (hread e (mem_cons_of_mem _ he)).resolve_left fun hemp => ?_
        exact Std.Asymm.asymm _ _ (hlt e he) ((hne e he).2.2 hemp)
      obtain ⟨t, ht⟩ := htext
      rw [varEq_of_ne (hread a mem_cons_self) ht (hne e he).1]
      exact ih hsor (fun b hb => hread b (mem_cons_of_mem _ hb)) hapart he

theorem listed_cons (hp : deref values p = .ok v) (hv : Readable v) (key : Bytes) (ps : List ℕ) :
    listed values key (p :: ps) =
      if toText v = .ok key then .ok true else listed values key ps := by
  rw [listed, hp]
  change (keyEq key v >>= fun b => if b then pure true else listed values key ps) = _
  rw [keyEq_of_readable key hv]
  by_cases h : toText v = .ok key
  · rw [if_pos h, decide_eq_true h]
    rfl
  · rw [if_neg h, decide_eq_false h]
    rfl

/-! ### The pointers and the properties -/

def PointsTo (values : List (Bytes × Node W)) (p : ℕ) (e : Bytes × W) : Prop :=
  ∃ node, (e.1, node) ∈ values ∧ node.address = p ∧ node.value = e.2

structure Keeps (s : OrderedObject W × List (Bytes × W)) : Prop where
  sorted : SortedAssoc.Sorted s.1.values
  addresses : (s.1.values.map fun e => e.2.address).Nodup
  entries : (s.1.values.map property).Perm s.2
  pointers : List.Forall₂ (PointsTo s.1.values) s.1.keys s.2
  readable : ∀ e ∈ s.1.values, Readable e.2.value
  apart : s.1.values.Pairwise fun a b => Apart (property a) (property b)

variable {s : OrderedObject W × List (Bytes × W)}

theorem Keeps.empty : Keeps ((OrderedObject.empty, []) : OrderedObject W × _) :=
  ⟨.nil, .nil, .nil, .nil, (fun _ he => nomatch he), .nil⟩

section

variable (haddr : (values.map fun e => e.2.address).Nodup)
  (hread : ∀ e ∈ values, Readable e.2.value) (h : List.Forall₂ (PointsTo values) ps ms)
include haddr hread h

theorem listing_of_pointers (hsor : SortedAssoc.Sorted values)
    (hapart : values.Pairwise fun a b => Apart (property a) (property b)) :
    listing values ps = .ok ms := by
  induction h with
  | nil => rfl
  | @cons p e ps ms hp _ ih =>
    obtain ⟨node, hmem, rfl, hval⟩ := hp
    have hder : deref values node.address = .ok node.value := deref_of_mem haddr hmem
    have hkey : getKey node.value values = .ok e.1 := getKey_of_mem hsor hread hapart hmem
    rw [listing, hder]
    change (getKey node.value values >>= fun key => listing values ps >>= fun rest =>
      pure ((key, node.value) :: rest)) = _
    rw [hkey, ih, hval]
    rfl

theorem listed_eq_false (hkey : ∀ e ∈ ms, toText e.2 ≠ .ok key) :
    listed values key ps = .ok false := by
  induction h with
  | nil => rfl
  | @cons p e ps ms hp _ ih =>
    obtain ⟨node, hmem, rfl, hval⟩ := hp
    rw [listed_cons (deref_of_mem haddr hmem) (hread _ hmem), if_neg]
    · exact ih fun a ha => hkey a (mem_cons_of_mem _ ha)
    · exact hval ▸ hkey e mem_cons_self

theorem listed_eq_true {e : Bytes × W} (he : e ∈ ms) (hkey : toText e.2 = .ok key) :
    listed values key ps = .ok true := by
  induction h with
  | nil => cases he
  | @cons p a ps ms hp _ ih =>
    obtain ⟨node, hmem, rfl, hval⟩ := hp
    rw [listed_cons (deref_of_mem haddr hmem) (hread _ hmem)]
    split_ifs with hk
    · rfl
    · rcases mem_cons.mp he with rfl | he
      · exact absurd (hval ▸ hkey) hk
      · exact ih he

end

theorem Keeps.stringify (hs : Keeps s) (indent : UInt32) (step : Int32) :
    s.1.stringify indent step = .ok (text s.2 indent step) := by
  rw [OrderedObject.stringify, listing_of_pointers hs.addresses hs.readable hs.pointers hs.sorted
    hs.apart]
  rfl

theorem Keeps.map_fst (hs : Keeps s) (key : Bytes) :
    key ∈ s.1.values.map Prod.fst ↔ key ∈ s.2.map Prod.fst := by
  have hkeys : s.1.values.map Prod.fst = (s.1.values.map property).map Prod.fst := by
    rw [map_map]
    rfl
  rw [hkeys]
  exact (hs.entries.map Prod.fst).mem_iff

/-! ### One action -/

section

variable {value : W}

omit [DynamicVar W] in
/-- A pointer is to the same property as before, with the value that was set if it has its
key. -/
theorem PointsTo.set {e : Bytes × W} (h : PointsTo values p e)
    (hsor : SortedAssoc.Sorted values) (key : Bytes) (value : W) (address : ℕ) :
    PointsTo (SortedAssoc.set values key ⟨place values key address, value⟩) p
      (if e.1 = key then (key, value) else e) := by
  obtain ⟨node, hmem, rfl, hv⟩ := h
  by_cases hkey : e.1 = key
  · subst hkey
    rw [if_pos rfl]
    refine ⟨_, (SortedAssoc.mem_set hsor).mpr (.inl rfl), ?_, rfl⟩
    rw [place, SortedAssoc.lookup_of_mem hsor hmem]
  · rw [if_neg hkey]
    exact ⟨node, (SortedAssoc.mem_set hsor).mpr (.inr ⟨hmem, hkey⟩), rfl, hv⟩

variable (hs : Keeps s) (haddr : ∀ e ∈ s.1.values, e.2.address ≠ address)
  (hv : Readable value) (hapart : ∀ e ∈ s.1.values, e.1 ≠ key → Apart (key, value) (property e))
include hs haddr hv hapart

theorem Keeps.set_values :
    let values := SortedAssoc.set s.1.values key ⟨place s.1.values key address, value⟩
    (values.map fun e => e.2.address).Nodup ∧
      (∀ e ∈ values, Readable e.2.value) ∧
      values.Pairwise fun a b => Apart (property a) (property b) := by
  refine ⟨pairwise_map.mpr (SortedAssoc.pairwise_set hs.sorted Ne.symm ?_
    (pairwise_map.mp hs.addresses)), ?_, SortedAssoc.pairwise_set hs.sorted Apart.symm ?_ hs.apart⟩
  · -- the address is a new one, or that of the value that is replaced
    intro e he hne
    rw [place]
    split
    · exact (haddr e he).symm
    · next node hnode =>
      intro heq
      have hmem := SortedAssoc.mem_of_lookup hnode
      exact hne (congrArg Prod.fst (inj_on_of_nodup_map hs.addresses hmem he heq)).symm
  · intro e he
    rcases SortedAssoc.mem_of_mem_set he with rfl | he
    · exact hv
    · exact hs.readable e he
  · exact hapart

/-- A new property is pointed to by a new pointer, at the end. -/
theorem Keeps.set_new (hnew : key ∉ s.1.values.map Prod.fst)
    (hkey : ∀ e ∈ s.1.values, toText e.2.value ≠ .ok key) :
    Keeps ((s.1.set key value address).1, Insertion.set s.2 key value) := by
  obtain ⟨hadd, hread, hapart⟩ := hs.set_values haddr hv hapart
  have hperm := SortedAssoc.set_perm hnew
    (⟨place s.1.values key address, value⟩ : Node W)
  have hold : List.Forall₂ (PointsTo (SortedAssoc.set s.1.values key
      ⟨place s.1.values key address, value⟩)) s.1.keys s.2 := by
    refine hs.pointers.imp fun p e hp => ?_
    have hset := hp.set hs.sorted key value address
    obtain ⟨node, hnode, -⟩ := hp
    rwa [if_neg fun heq => hnew (mem_map.mpr ⟨_, hnode, heq⟩)] at hset
  have hkeys : ∀ e ∈ s.2, toText e.2 ≠ .ok key := by
    intro e he
    obtain ⟨a, ha, rfl⟩ := mem_map.mp (hs.entries.mem_iff.mpr he)
    exact hkey a ha
  have hlis := listed_eq_false hadd hread hold hkeys
  rw [Insertion.set, if_neg (fun h => hnew ((hs.map_fst key).mpr h))]
  simp only [OrderedObject.set, hlis]
  exact
    { sorted := SortedAssoc.sorted_set hs.sorted _ _
      addresses := hadd
      entries := ((hperm.map _).trans (hs.entries.cons _)).trans (perm_append_singleton _ _).symm
      pointers := rel_append hold
        (.cons ⟨_, hperm.mem_iff.mpr mem_cons_self, rfl, rfl⟩ .nil)
      readable := hread
      apart := hapart }

/-- A property that is there keeps its pointer and its place. -/
theorem Keeps.set_old (hold : key ∈ s.1.values.map Prod.fst)
    (hlist : toText value = .ok key ∨ ∃ e ∈ s.1.values, e.1 ≠ key ∧ toText e.2.value = .ok key) :
    Keeps ((s.1.set key value address).1, Insertion.set s.2 key value) := by
  obtain ⟨hadd, hread, hapart⟩ := hs.set_values haddr hv hapart
  have hpoi : List.Forall₂ (PointsTo (SortedAssoc.set s.1.values key
      ⟨place s.1.values key address, value⟩)) s.1.keys
      (s.2.map fun e => if e.1 = key then (key, value) else e) :=
    forall₂_map_right_iff.mpr (hs.pointers.imp fun p e hp => hp.set hs.sorted _ _ _)
  have hmem : ∀ e ∈ s.1.values, (e.1, e.2.value) ∈ s.2 :=
    fun e he => hs.entries.mem_iff.mp (mem_map.mpr ⟨e, he, rfl⟩)
  have hlis : listed (SortedAssoc.set s.1.values key
      ⟨place s.1.values key address, value⟩) key s.1.keys = .ok true := by
    rcases hlist with hkey | ⟨e, he, hne, hkey⟩
    · obtain ⟨e, he, rfl⟩ := mem_map.mp hold
      exact listed_eq_true hadd hread hpoi
        (mem_map.mpr ⟨_, hmem e he, if_pos rfl⟩) hkey
    · exact listed_eq_true hadd hread hpoi
        (mem_map.mpr ⟨_, hmem e he, if_neg hne⟩) hkey
  rw [Insertion.set, if_pos ((hs.map_fst key).mp hold)]
  simp only [OrderedObject.set, hlis]
  exact
    { sorted := SortedAssoc.sorted_set hs.sorted _ _
      addresses := hadd
      entries := by
        refine List.Perm.trans (List.Perm.of_eq ?_) (hs.entries.map _)
        rw [SortedAssoc.set_of_mem hs.sorted hold, map_map, map_map]
        refine map_congr_left fun e _ => ?_
        by_cases h : e.1 = key
        · simp [property, h]
        · simp [property, h]
      pointers := hpoi
      readable := hread
      apart := hapart }

end

theorem Keeps.step {s' : OrderedObject W × List (Bytes × W)} {a : Action W} (hs : Keeps s)
    (ha : Separable s a) (hstep : OrderedObject.step s a = some s') : Keeps s' := by
  cases a with
  | set key value address =>
    obtain ⟨hv, hapart, hlist⟩ := ha
    rw [OrderedObject.step] at hstep
    split_ifs at hstep with haddr
    cases hstep
    split_ifs at hlist with hmem
    · exact hs.set_old haddr hv hapart hmem hlist
    · exact hs.set_new haddr hv hapart hmem hlist
  | remove key =>
    cases hstep
    -- there is no such property, in the map or in the order
    have hval : s.1.values.filter (fun e => e.1 != key) = s.1.values := by
      refine filter_eq_self.mpr fun e he => bne_iff_ne.mpr ?_
      rintro rfl
      exact ha (mem_map_of_mem he)
    have hord : s.2.filter (fun e => e.1 != key) = s.2 := by
      refine filter_eq_self.mpr fun e he => bne_iff_ne.mpr ?_
      rintro rfl
      exact ha ((hs.map_fst _).mpr (mem_map_of_mem he))
    rw [OrderedObject.remove, Insertion.remove, hval, hord]
    exact hs
  | clear =>
    cases hstep
    exact Keeps.empty

/-! ### The text -/

/-- Runs of separable actions write exactly the properties there are, each once, in the order
in which they were inserted. -/
theorem stringify_in_order (s : OrderedObject W × List (Bytes × W))
    (hs : actions.ReachedBy Separable s) (indent : UInt32) (step : Int32) :
    s.1.stringify indent step = .ok (text s.2 indent step) := by
  have hkps : Keeps s :=
    Machine.ReachedBy.invariant (I := Keeps) Keeps.empty
      (fun _ _ _ hs ha hstep => hs.step ha hstep) hs
  exact hkps.stringify indent step

/-- Two properties, of which the one inserted first has the greater key, are written as
`{"b":true,"a":null}`. -/
theorem stringify_two_in_order :
    ∃ s : OrderedObject (Var Bytes) × List (Bytes × Var Bytes),
      actions.ReachedBy Separable s ∧ s.1.stringify 0 0 = .ok
        [0x7B, 0x22, 0x62, 0x22, 0x3A, 0x74, 0x72, 0x75, 0x65, 0x2C,
          0x22, 0x61, 0x22, 0x3A, 0x6E, 0x75, 0x6C, 0x6C, 0x7D] := by
  have hfst : actions.ReachedBy Separable
      ((⟨[([0x62], ⟨0, .bool true⟩)], [0]⟩, [([0x62], .bool true)]) :
        OrderedObject (Var Bytes) × List (Bytes × Var Bytes)) := by
    refine .step (a := .set [0x62] (.bool true) 0) .start ⟨.inr ⟨_, rfl⟩, ?_, ?_⟩ rfl
    · rintro _ ⟨⟩
    · rintro _ ⟨⟩
  have hboth : actions.ReachedBy Separable
      ((⟨[([0x61], ⟨1, .null⟩), ([0x62], ⟨0, .bool true⟩)], [0, 1]⟩,
        [([0x62], .bool true), ([0x61], .null)]) :
        OrderedObject (Var Bytes) × List (Bytes × Var Bytes)) := by
    refine .step (a := .set [0x61] .null 1) hfst ⟨.inl rfl, ?_, ?_⟩ rfl
    · intro e he _
      rw [mem_singleton.mp he]
      exact ⟨by decide, by decide, by decide⟩
    · intro e he
      rw [mem_singleton.mp he]
      decide
  exact ⟨_, hboth, (stringify_in_order _ hboth 0 0).trans (by decide)⟩

/-- A property that is set twice is written twice: setting `a` to `true` and then to `false`
makes `{"a":false,"a":false}` of what should be `{"a":false}`. -/
theorem stringify_twice :
    (actions.exec actions.start [.set [0x61] (.bool true) 0, .set [0x61] (.bool false) 1]).map
        (fun s : OrderedObject (Var Bytes) × List (Bytes × Var Bytes) =>
          (s.1.stringify 0 0, text s.2 0 0)) =
      some (.ok [0x7B, 0x22, 0x61, 0x22, 0x3A, 0x66, 0x61, 0x6C, 0x73, 0x65, 0x2C,
          0x22, 0x61, 0x22, 0x3A, 0x66, 0x61, 0x6C, 0x73, 0x65, 0x7D],
        [0x7B, 0x22, 0x61, 0x22, 0x3A, 0x66, 0x61, 0x6C, 0x73, 0x65, 0x7D]) := by decide

end OrderedObject

end Poco.JSON
