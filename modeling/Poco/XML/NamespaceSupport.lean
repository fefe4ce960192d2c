import Poco.Lib.Bytes
import Poco.Lib.Machine
import Poco.Lib.SortedAssoc
import Mathlib.Data.List.Lex
import Mathlib.Order.Basic

/-!
# Prefixes and namespaces

`NamespaceSupport` of `XML/src/NamespaceSupport.cpp`: a stack of contexts, each of which maps
prefixes to namespaces and is iterated in the order of the prefixes.  A prefix is looked up
from the innermost context outwards, and so is a namespace: the prefix that is found for it need
not stand for it, since an inner context may have given it another meaning.

## Main definitions

* `declarePrefix`, `getPrefix`, `getURI`, `getPrefixes`: declarations and lookups.
* `Stands`: the innermost context that declares a prefix declares it for the namespace.
* `Agree`: what is found for a namespace and what is found for prefixes agree.

## Main results

* `getURI_eq_iff`: what a prefix stands for is what is found for it.
* `agree_iff`: when the lookups agree.
-/

namespace Poco.XML

open List

abbrev XMLString := Bytes

namespace NamespaceSupport

abbrev Context := List (XMLString × XMLString)

def xmlPrefix : XMLString := [0x78, 0x6D, 0x6C]

/-- The string `http://www.w3.org/XML/1998/namespace`. -/
def xmlNamespace : XMLString :=
  [0x68, 0x74, 0x74, 0x70, 0x3A, 0x2F, 0x2F, 0x77, 0x77, 0x77, 0x2E, 0x77, 0x33, 0x2E, 0x6F, 0x72,
    0x67, 0x2F, 0x58, 0x4D, 0x4C, 0x2F, 0x31, 0x39, 0x39, 0x38, 0x2F, 0x6E, 0x61, 0x6D, 0x65, 0x73,
    0x70, 0x61, 0x63, 0x65]

def xmlnsPrefix : XMLString := [0x78, 0x6D, 0x6C, 0x6E, 0x73]

/-- The string `http://www.w3.org/xmlns/2000/`. -/
def xmlnsNamespace : XMLString :=
  [0x68, 0x74, 0x74, 0x70, 0x3A, 0x2F, 0x2F, 0x77, 0x77, 0x77, 0x2E, 0x77, 0x33, 0x2E, 0x6F, 0x72,
    0x67, 0x2F, 0x78, 0x6D, 0x6C, 0x6E, 0x73, 0x2F, 0x32, 0x30, 0x30, 0x30, 0x2F]

/-! ### Operations -/

/-- An entry is inserted into a context, unless its prefix is there. -/
def declare (ctx : Context) (pfx uri : XMLString) : Context :=
  if ctx.lookup pfx = none then SortedAssoc.set ctx pfx uri else ctx

def declarePrefix (cs : List Context) (pfx uri : XMLString) : List Context :=
  match cs with
  | [] => []
  | ctx :: cs => declare ctx pfx uri :: cs

/-- `undeclarePrefix`: in the innermost context that has the prefix. -/
def undeclarePrefix : List Context → XMLString → List Context
  | [], _ => []
  | ctx :: cs, pfx =>
    if ctx.lookup pfx = none then ctx :: undeclarePrefix cs pfx
    else ctx.eraseP (fun e => e.1 = pfx) :: cs

def getPrefix : List Context → XMLString → XMLString
  | [], _ => []
  | ctx :: cs, uri =>
    match ctx.find? fun e => e.2 = uri with
    | some e => e.1
    | none => getPrefix cs uri

def isMapped (cs : List Context) (uri : XMLString) : Bool :=
  cs.any fun ctx => ctx.any fun e => e.2 = uri

def getURI : List Context → XMLString → XMLString
  | [], _ => []
  | ctx :: cs, pfx =>
    match ctx.lookup pfx with
    | some uri => uri
    | none => getURI cs pfx

def getDeclaredPrefixes (cs : List Context) : List XMLString :=
  match cs with
  | [] => []
  | ctx :: _ => ctx.map Prod.fst

def getPrefixes (cs : List Context) (uri : XMLString) : List XMLString :=
  ((cs.flatten.filter fun e => e.2 = uri ∧ e.1 ≠ []).map Prod.fst).eraseDups

def pushContext (cs : List Context) : List Context := [] :: cs

def popContext (cs : List Context) : List Context := cs.tail

/-- `reset`: the prefixes `xml` and `xmlns`. -/
def reset : List Context :=
  declarePrefix (declarePrefix (pushContext []) xmlPrefix xmlNamespace) xmlnsPrefix xmlnsNamespace

inductive Call
  | pushContext
  | popContext
  | declarePrefix (pfx uri : XMLString)
  | undeclarePrefix (pfx : XMLString)

/-- A new `NamespaceSupport`, the first context of which is not popped. -/
def support : Machine (List Context) Call where
  start := reset
  step cs
    | .pushContext => some (pushContext cs)
    | .popContext => if cs.length ≤ 1 then none else some (popContext cs)
    | .declarePrefix pfx uri => some (declarePrefix cs pfx uri)
    | .undeclarePrefix pfx => some (undeclarePrefix cs pfx)

/-! ### What is declared -/

variable {ctx : Context} {cs : List Context} {pfx uri p u : XMLString}

theorem lookup_declare (ctx : Context) (pfx uri p : XMLString) :
    (declare ctx pfx uri).lookup p =
      if ctx.lookup pfx = none ∧ p = pfx then some uri else ctx.lookup p := by
  rw [declare]
  by_cases h : ctx.lookup pfx = none
  · rw [if_pos h, SortedAssoc.lookup_set]
    simp only [h, true_and]
  · rw [if_neg h, if_neg fun hand => h hand.1]

theorem mem_declare {e : XMLString × XMLString} (h : e ∈ declare ctx pfx uri) :
    e = (pfx, uri) ∨ e ∈ ctx := by
  rw [declare] at h
  split_ifs at h
  · exact SortedAssoc.mem_of_mem_set h
  · exact .inr h

theorem mem_declare_of_mem {e : XMLString × XMLString} (h : e ∈ ctx) : e ∈ declare ctx pfx uri := by
  rw [declare]
  split_ifs with hnone
  · have hnot : pfx ∉ ctx.map Prod.fst := by
      intro hmem
      obtain ⟨a, ha, rfl⟩ := mem_map.mp hmem
      have := lookup_eq_none_iff.mp hnone a ha
      simp at this
    exact (SortedAssoc.set_perm hnot uri).mem_iff.mpr (mem_cons_of_mem _ h)
  · exact h

theorem sorted_declare (h : SortedAssoc.Sorted ctx) (pfx uri : XMLString) :
    SortedAssoc.Sorted (declare ctx pfx uri) := by
  rw [declare]
  split_ifs
  · exact SortedAssoc.sorted_set h _ _
  · exact h

/-! ### What is found -/

theorem getURI_cons_some (h : ctx.lookup pfx = some uri) : getURI (ctx :: cs) pfx = uri := by
  rw [getURI, h]

theorem getURI_cons_none (h : ctx.lookup pfx = none) : getURI (ctx :: cs) pfx = getURI cs pfx := by
  rw [getURI, h]

theorem isMapped_cons : isMapped (ctx :: cs) uri = true ↔
    (∃ e ∈ ctx, e.2 = uri) ∨ isMapped cs uri = true := by
  simp [isMapped]

/-- The prefix of a namespace is that of the first entry of the context, or none is and it is
found further out. -/
theorem getPrefix_cases (ctx : Context) (cs : List Context) (uri : XMLString) :
    (∃ pfx, (pfx, uri) ∈ ctx ∧ getPrefix (ctx :: cs) uri = pfx) ∨
      (∀ e ∈ ctx, e.2 ≠ uri) ∧ getPrefix (ctx :: cs) uri = getPrefix cs uri := by
  cases hfind : ctx.find? fun e => e.2 = uri with
  | some e =>
    have hmem := mem_of_find?_eq_some hfind
    have huri : e.2 = uri := by simpa using find?_some hfind
    refine .inl ⟨e.1, by rw [← huri]; exact hmem, ?_⟩
    rw [getPrefix, hfind]
  | none =>
    refine .inr ⟨fun e he => by simpa using find?_eq_none.mp hfind e he, ?_⟩
    rw [getPrefix, hfind]

theorem getPrefix_of_not_mapped (h : isMapped cs uri = false) : getPrefix cs uri = [] := by
  induction cs with
  | nil => rfl
  | cons ctx cs ih =>
    have hnot : ¬((∃ e ∈ ctx, e.2 = uri) ∨ isMapped cs uri = true) := fun hor => by
      rw [isMapped_cons.mpr hor] at h
      cases h
    rcases getPrefix_cases ctx cs uri with ⟨pfx, hmem, -⟩ | ⟨-, heq⟩
    · exact absurd (.inl ⟨_, hmem, rfl⟩) hnot
    · rw [heq]
      exact ih (Bool.eq_false_iff.mpr fun h => hnot (.inr h))

theorem getPrefix_eq_nil_or_mem (cs : List Context) (uri : XMLString) :
    getPrefix cs uri = [] ∨ ∃ ctx ∈ cs, (getPrefix cs uri, uri) ∈ ctx := by
  induction cs with
  | nil => exact .inl rfl
  | cons ctx cs ih =>
    rcases getPrefix_cases ctx cs uri with ⟨pfx, hmem, heq⟩ | ⟨-, heq⟩
    · exact .inr ⟨ctx, mem_cons_self, heq ▸ hmem⟩
    · rw [heq]
      refine ih.imp_right ?_
      rintro ⟨ctx', hctx', hmem⟩
      exact ⟨ctx', mem_cons_of_mem _ hctx', hmem⟩

theorem lookup_ne_none_of_mem (h : (pfx, uri) ∈ ctx) : ctx.lookup pfx ≠ none := by
  intro hnone
  have := lookup_eq_none_iff.mp hnone _ h
  simp at this

theorem mem_declare_self (h : ctx.lookup pfx = none) : (pfx, uri) ∈ declare ctx pfx uri := by
  refine SortedAssoc.mem_of_lookup ?_
  rw [lookup_declare, if_pos ⟨h, rfl⟩]

/-- If no entry of the context is for a namespace, the prefix declared for it is the one that is
found. -/
theorem getPrefix_declare (h : ctx.lookup pfx = none) (hnot : ∀ e ∈ ctx, e.2 ≠ uri) :
    getPrefix (declare ctx pfx uri :: cs) uri = pfx := by
  rcases getPrefix_cases (declare ctx pfx uri) cs uri with ⟨p, hmem, heq⟩ | ⟨hnone, -⟩
  · rcases mem_declare hmem with hsame | hold
    · rw [heq, (Prod.mk.inj hsame).1]
    · exact absurd rfl (hnot _ hold)
  · exact absurd rfl (hnone _ (mem_declare_self h))

def Stands (cs : List Context) (pfx uri : XMLString) : Prop :=
  ∃ inner ctx outer, cs = inner ++ ctx :: outer ∧ (∀ c ∈ inner, c.lookup pfx = none) ∧
    ctx.lookup pfx = some uri

theorem getURI_eq_iff (huri : uri ≠ []) : getURI cs pfx = uri ↔ Stands cs pfx uri := by
  constructor
  · intro h
    induction cs with
    | nil => exact absurd h.symm huri
    | cons ctx cs ih =>
      cases hlk : ctx.lookup pfx with
      | some u =>
        rw [getURI_cons_some hlk] at h
        exact ⟨[], ctx, cs, rfl, by simp, h ▸ hlk⟩
      | none =>
        rw [getURI_cons_none hlk] at h
        obtain ⟨inner, ctx', outer, rfl, hinner, hctx⟩ := ih h
        exact ⟨ctx :: inner, ctx', outer, rfl, forall_mem_cons.mpr ⟨hlk, hinner⟩, hctx⟩
  · rintro ⟨inner, ctx, outer, rfl, hinner, hctx⟩
    induction inner with
    | nil => exact getURI_cons_some hctx
    | cons c inner ih =>
      obtain ⟨hc, hinner⟩ := forall_mem_cons.mp hinner
      exact (getURI_cons_none hc).trans (ih hinner)

theorem Stands.mem (h : Stands cs pfx uri) : (pfx, uri) ∈ cs.flatten := by
  obtain ⟨inner, ctx, outer, rfl, -, hctx⟩ := h
  exact mem_flatten_of_mem (by simp) (SortedAssoc.mem_of_lookup hctx)

theorem isMapped_iff : isMapped cs uri = true ↔ ∃ pfx, (pfx, uri) ∈ cs.flatten := by
  rw [isMapped, ← any_flatten, any_eq_true]
  simp only [Prod.exists, decide_eq_true_eq, exists_eq_right]

theorem isMapped_of_getURI (h : getURI cs pfx = uri) (huri : uri ≠ []) : isMapped cs uri = true :=
  isMapped_iff.mpr ⟨pfx, ((getURI_eq_iff huri).mp h).mem⟩

/-! ### Shadowed prefixes -/

theorem mem_getPrefixes : p ∈ getPrefixes cs u ↔ p ≠ [] ∧ (p, u) ∈ cs.flatten := by
  rw [getPrefixes, mem_eraseDups, mem_map]
  constructor
  · rintro ⟨⟨q, _⟩, hmem, rfl⟩
    rw [mem_filter, decide_eq_true_eq] at hmem
    obtain ⟨hmem, rfl, hq⟩ := hmem
    exact ⟨hq, hmem⟩
  · intro h
    exact ⟨(p, u), mem_filter.mpr ⟨h.2, decide_eq_true ⟨rfl, h.1⟩⟩, rfl⟩

theorem exists_undeclared (cs : List Context) : ∃ p ≠ [], ∀ u, (p, u) ∉ cs.flatten := by
  refine ⟨0x61 :: (cs.flatten.map Prod.fst).flatten, cons_ne_nil _ _, fun u hmem => ?_⟩
  have hle := (sublist_flatten_of_mem (mem_map_of_mem (f := Prod.fst) hmem)).length_le
  rw [length_cons] at hle
  omega

def Agree (cs : List Context) (u : XMLString) : Prop :=
  (getPrefix cs u ≠ [] → getURI cs (getPrefix cs u) = u) ∧
  (∀ p, p ∈ getPrefixes cs u ↔ p ≠ [] ∧ getURI cs p = u) ∧
  (isMapped cs u = true ↔ ∃ p, getURI cs p = u)

/-- **Shadowing is not respected**: after any calls, the lookups agree exactly if every prefix that
some context declares for the namespace stands for it.  A default namespace may be shadowed if a
prefix stands for it too. -/
theorem agree_iff (calls : List Call) : ∀ cs ∈ support.exec support.start calls, ∀ u,
    Agree cs u ↔ u ≠ [] ∧ (∀ p ≠ [], (p, u) ∈ cs.flatten → Stands cs p u) ∧
      (([], u) ∈ cs.flatten → ∃ p, Stands cs p u) := by
  intro cs _ u
  by_cases hu : u = []
  · -- every prefix without an entry has the empty namespace
    subst hu
    refine iff_of_false ?_ fun h => h.1 rfl
    rintro ⟨-, hall, -⟩
    obtain ⟨p, hp, hnot⟩ := exists_undeclared cs
    have hget : getURI cs p = [] := by
      by_contra hne
      exact hnot _ ((getURI_eq_iff hne).mp rfl).mem
    exact hnot _ (mem_getPrefixes.mp ((hall p).mpr ⟨hp, hget⟩)).2
  simp only [Agree, getURI_eq_iff hu, mem_getPrefixes, isMapped_iff]
  constructor
  · rintro ⟨-, hall, hmap⟩
    exact ⟨hu, fun p hp hmem => ((hall p).mp ⟨hp, hmem⟩).2, fun hmem => hmap.mp ⟨_, hmem⟩⟩
  · rintro ⟨-, hsome, hdef⟩
    refine ⟨fun hne => ?_, fun p => ?_, ?_, fun ⟨p, hp⟩ => ⟨p, hp.mem⟩⟩
    · rcases getPrefix_eq_nil_or_mem cs u with hnil | ⟨ctx, hctx, hmem⟩
      · exact absurd hnil hne
      · exact hsome _ hne (mem_flatten_of_mem hctx hmem)
    · exact ⟨fun h => ⟨h.1, hsome p h.1 h.2⟩, fun h => ⟨h.1, h.2.mem⟩⟩
    · rintro ⟨p, hmem⟩
      by_cases hp : p = []
      · exact hdef (hp ▸ hmem)
      · exact ⟨p, hsome p hp hmem⟩

/-- A prefix is declared, declared for another namespace inside, and for the first one further
inside. -/
theorem agree_of_redeclared : ∃ cs, support.exec support.start [.declarePrefix [0x61] [0x75],
    .pushContext, .declarePrefix [0x61] [0x76], .pushContext, .declarePrefix [0x61] [0x75]] =
      some cs ∧ Agree cs [0x75] := by
  refine ⟨_, rfl, (agree_iff [.declarePrefix [0x61] [0x75], .pushContext,
    .declarePrefix [0x61] [0x76], .pushContext, .declarePrefix [0x61] [0x75]] _ rfl _).mpr
    ⟨by decide, ?_, fun h => absurd h (by decide)⟩⟩
  intro p _ hmem
  obtain rfl : p = [0x61] := by
    change (p, _) ∈ [([0x61], [0x75]), ([0x61], [0x76]), ([0x61], [0x75]),
      (xmlPrefix, xmlNamespace), (xmlnsPrefix, xmlnsNamespace)] at hmem
    simpa [xmlNamespace, xmlnsNamespace] using hmem
  exact ⟨[], _, _, rfl, by simp, rfl⟩

/-- A prefix has another meaning inside, and is found for the outer one. -/
theorem not_agree_of_shadowed : ∃ cs, support.exec support.start [.declarePrefix [0x61] [0x75],
    .pushContext, .declarePrefix [0x61] [0x76]] = some cs ∧ getPrefix cs [0x75] = [0x61] ∧
      getURI cs [0x61] = [0x76] ∧ [0x61] ∈ getPrefixes cs [0x75] :=
  ⟨_, rfl, by decide, by decide, by decide⟩

end NamespaceSupport

end Poco.XML
