import Poco.XML.Balance
import Mathlib.Data.List.TakeWhile

/-!
# Expanded names

The writer chooses prefixes by looking for the namespace in its contexts, and does not see that
the prefix it finds may have another meaning in a context further in, that attributes without
prefix are in no namespace, that elements without prefix are in the default namespace, or that a
prefix that is in the context already is not declared again.

## Main definitions

* `resolvePrefix`: the namespace that a prefix stands for inside of elements with these attributes,
  innermost first.
* `Matches`: an element that has been read has the namespace and the local name that were given,
  and so have its attributes.
* `Resolvable`: the names of a start tag can be written in these contexts.
* `Evolves`: the innermost context, which was `ctx` with generated prefixes up to `n`, has only new
  entries that the call needs; the others are as they were.
* `Resolves`: the state of the writer and what has been read belong together.

## Main results

* `Evolves.getURI_getPrefix`: the prefix found for a namespace stands for it, if it did so before.
* `resolvePrefix_eq`: prefixes are resolved to what they stand for in the contexts.
* `matches_startTag`: the element that is read off a start tag is the one given.
* `expanded_names`: the names in the output stand for the names given.
-/

namespace Poco.XML

open List NamespaceSupport Name SortedAssoc

/-! ### Resolving names -/

def resolvePrefix : List (List (XMLString × XMLString)) → XMLString → Option XMLString
  | [], pfx =>
    if pfx = xmlPrefix then some xmlNamespace
    else if pfx = xmlnsPrefix then some xmlnsNamespace
    else if pfx = [] then some []
    else none
  | attributes :: scopes, pfx =>
    match attributes.lookup (XMLWriter.xmlnsName pfx) with
    | some uri => some uri
    | none => resolvePrefix scopes pfx

/-- What the name of an element stands for. -/
def resolveElement (scopes : List (List (XMLString × XMLString))) (name : XMLString) :
    Option (XMLString × XMLString) :=
  (resolvePrefix scopes (Name.split name).1).map fun uri => (uri, (Name.split name).2)

/-- What the name of an attribute stands for; without prefix it is in no namespace. -/
def resolveAttribute (scopes : List (List (XMLString × XMLString))) (name : XMLString) :
    Option (XMLString × XMLString) :=
  if (Name.split name).1 = [] then some ([], (Name.split name).2)
  else resolveElement scopes name

/-- The name of a namespace declaration. -/
def isDeclaration (name : XMLString) : Bool :=
  name = xmlnsPrefix || (Name.split name).1 = xmlnsPrefix

structure Resolved where
  name : Option (XMLString × XMLString)
  attributes : List (Option (XMLString × XMLString) × XMLString)
deriving DecidableEq

/-- What a reader keeps track of: the attributes of the elements that it is in, and the elements
that it has read. -/
structure Resolving where
  scopes : List (List (XMLString × XMLString))
  elements : List Resolved

open Resolving

/-- The element of a start tag. -/
def Resolving.element (scopes : List (List (XMLString × XMLString))) (name : XMLString)
    (attributes : List (XMLString × XMLString)) : Resolved where
  name := resolveElement (attributes :: scopes) name
  attributes := (attributes.filter fun e => !isDeclaration e.1).map fun e =>
    (resolveAttribute (attributes :: scopes) e.1, e.2)

def Resolving.read (r : Resolving) : Markup → Resolving
  | .startTag name attributes _ =>
    ⟨attributes :: r.scopes, r.elements ++ [element r.scopes name attributes]⟩
  | .slashGt | .endTag _ => ⟨r.scopes.tail, r.elements⟩
  | .declaration | .gt | .characters _ | .newLine | .indent _ => r

def Resolving.readAll (ms : List Markup) : Resolving := ms.foldl read ⟨[], []⟩

/-- An element as it is given to the writer. -/
structure Given where
  namespaceURI : XMLString
  localName : XMLString
  attributes : List Attribute

structure Matches (g : Given) (r : Resolved) : Prop where
  name : r.name = some (g.namespaceURI, g.localName)
  given : ∀ a ∈ g.attributes, ∃ e ∈ r.attributes, e.1 = some (a.namespaceURI, a.localName)
  read : ∀ e ∈ r.attributes, ∃ a ∈ g.attributes,
    e = (some (a.namespaceURI, a.localName), a.value)

namespace XMLWriter

/-! ### The condition -/

/-- The namespaces in a call, each with the prefix of its qualified name. -/
def uses (namespaceURI qname : XMLString) (attributes : List Attribute) :
    List (XMLString × XMLString) :=
  (namespaceURI, (Name.split qname).1) ::
    attributes.map fun a => (a.namespaceURI, (Name.split a.qname).1)

variable {localName name namespaceURI qname : XMLString} {attributes l : List Attribute}
  {a : Attribute}

theorem mem_uses (ha : a ∈ attributes) :
    (a.namespaceURI, (split a.qname).1) ∈ uses namespaceURI qname attributes :=
  mem_cons_of_mem _ (mem_map.mpr ⟨a, ha, rfl⟩)

/-- The prefix found for a namespace stands for it, if one is found. -/
def Visible (cs : List Context) (uri : XMLString) : Prop :=
  isMapped cs uri = true → getURI cs (getPrefix cs uri) = uri

structure Resolvable (s : Naming) (namespaceURI localName qname : XMLString)
    (attributes : List Attribute) : Prop where
  /-- There is a local name. -/
  named : localName ≠ [] ∧ 0x3A ∉ localName
  /-- The qualified name has a prefix, or is left out. -/
  qualified : (Name.split qname).1 = [] → qname = [] ∨ localName = qname
  /-- Attributes have a local name, and are no namespace declarations. -/
  attributes_named : ∀ a ∈ attributes, a.localName ≠ [] ∧ 0x3A ∉ a.localName ∧
    a.namespaceURI ≠ xmlnsNamespace ∧ (a.namespaceURI = [] → a.localName ≠ xmlnsPrefix)
  /-- Where there is no namespace, there is no prefix. -/
  unprefixed : ∀ u ∈ uses namespaceURI qname attributes, u.1 = [] → u.2 = []
  /-- Prefixes are neither `xmlns` nor generated later on. -/
  ordinary : ∀ u ∈ uses namespaceURI qname attributes, u.2 ≠ xmlnsPrefix ∧
    ∀ k, s.count < k → u.2 ≠ generated k
  /-- Prefixes are not declared for this element with another meaning. -/
  undeclared : ∀ u ∈ uses namespaceURI qname attributes, ∀ ctx ∈ s.contexts.head?, ∀ uri,
    u.2 ≠ [] → ctx.lookup u.2 = some uri → uri = u.1
  /-- A prefix does not stand for two namespaces. -/
  consistent : ∀ u ∈ uses namespaceURI qname attributes,
    ∀ v ∈ uses namespaceURI qname attributes, u.2 ≠ [] → u.2 = v.2 → u.1 = v.1
  /-- A prefix does not take the place of the one that is found for another namespace. -/
  kept : ∀ u ∈ uses namespaceURI qname attributes,
    ∀ v ∈ uses namespaceURI qname attributes, u.2 ≠ [] → v.1 ≠ [] →
      u.2 = getPrefix s.contexts v.1 → u.1 = v.1
  /-- An element in no namespace is not written into another one. -/
  unnamed : namespaceURI = [] → getPrefix s.contexts [] = [] ∧ getURI s.contexts [] = []
  /-- The prefix found for the namespace of an element stands for it. -/
  visible : (Name.split qname).1 = [] → Visible s.contexts namespaceURI
  /-- The prefix found for the namespace of an attribute stands for it, and is not empty. -/
  attributes_visible : ∀ a ∈ attributes, a.namespaceURI ≠ [] →
    isMapped s.contexts a.namespaceURI = true → getPrefix s.contexts a.namespaceURI ≠ [] ∧
      getURI s.contexts (getPrefix s.contexts a.namespaceURI) = a.namespaceURI

/-! ### Names -/

theorem split_append (h : 0x3A ∉ pfx) : split (pfx ++ [0x3A] ++ localName) = (pfx, localName) := by
  have hpfx : ∀ c ∈ pfx, (c != 0x3A) = true := by
    intro c hc
    rw [bne_iff_ne]
    rintro rfl
    exact h hc
  rw [split, append_assoc, takeWhile_append_of_pos hpfx, dropWhile_append_of_pos hpfx]
  simp

theorem split_of_notMem (h : 0x3A ∉ name) : Name.split name = ([], name) := by
  rw [split, if_neg h]

theorem colon_notMem_split (qname : XMLString) : 0x3A ∉ (Name.split qname).1 := by
  rw [split]
  split_ifs
  · intro hmem
    have := mem_takeWhile_imp hmem
    simp at this
  · exact not_mem_nil

theorem split_writeName (hpfx : 0x3A ∉ pfx) (hloc : 0x3A ∉ localName) :
    split (writeName pfx localName) = (pfx, localName) := by
  rw [writeName]
  split_ifs with h
  · rw [split_of_notMem hloc, h]
  · exact split_append hpfx

theorem xmlnsName_injective (h : xmlnsName p = xmlnsName q) : p = q := by
  rw [xmlnsName, xmlnsName] at h
  split_ifs at h with hp hq hq
  · rw [hp, hq]
  · have := congrArg List.length h
    simp at this
  · have := congrArg List.length h
    simp at this
  · exact append_cancel_left h

theorem isDeclaration_xmlnsName (pfx : XMLString) : isDeclaration (xmlnsName pfx) = true := by
  rw [xmlnsName]
  split_ifs
  · decide
  · rw [isDeclaration, split_append (by decide)]
    simp

/-! ### How the contexts evolve -/

structure Evolves (ctx : Context) (cs : List Context) (n : ℕ) (us : List (XMLString × XMLString))
    (s : Naming) (inner : Context) : Prop where
  contexts : s.contexts = inner :: cs
  count : n ≤ s.count
  sorted : SortedAssoc.Sorted inner
  fresh : Fresh s
  old : ∀ e ∈ ctx, e ∈ inner
  new : ∀ e ∈ inner, e ∈ ctx ∨ e.1 ≠ [] ∧ e.2 ≠ [] ∧
    ((e.2, e.1) ∈ us ∨ ∃ k, n < k ∧ e.1 = generated k)

/-- What is known of contexts: they are sorted, and their prefixes are those of names. -/
structure Proper (s : Naming) : Prop where
  fresh : Fresh s
  sorted : ∀ ctx ∈ s.contexts, SortedAssoc.Sorted ctx
  plain : ∀ ctx ∈ s.contexts, ∀ e ∈ ctx, 0x3A ∉ e.1 ∧ (e.1 = xmlnsPrefix → e.2 = xmlnsNamespace)

variable {s : Naming} {ctx inner : Context} {cs : List Context} {n : ℕ}
  {us : List (XMLString × XMLString)} {pfx uri : XMLString}

theorem Proper.replace (h : Proper ⟨ctx :: cs, n⟩) (hs : s.contexts = inner :: cs) (hfr : Fresh s)
    (hsor : SortedAssoc.Sorted inner)
    (hpl : ∀ e ∈ inner, 0x3A ∉ e.1 ∧ (e.1 = xmlnsPrefix → e.2 = xmlnsNamespace)) : Proper s where
  fresh := hfr
  sorted := hs ▸ forall_mem_cons.mpr ⟨hsor, (forall_mem_cons.mp h.sorted).2⟩
  plain := hs ▸ forall_mem_cons.mpr ⟨hpl, (forall_mem_cons.mp h.plain).2⟩

theorem Evolves.start (h : Proper ⟨ctx :: cs, n⟩)
    (us : List (XMLString × XMLString)) : Evolves ctx cs n us ⟨ctx :: cs, n⟩ ctx where
  contexts := rfl
  count := le_rfl
  sorted := h.sorted ctx mem_cons_self
  fresh := h.fresh
  old := fun _ he => he
  new := fun _ he => .inl he

theorem Evolves.lookup (h : Evolves ctx cs n us s inner) (hmem : (pfx, uri) ∈ inner) :
    inner.lookup pfx = some uri := lookup_of_mem h.sorted hmem

theorem Evolves.declare (h : Evolves ctx cs n us s inner) {m : ℕ} (hm : s.count ≤ m)
    (hnone : inner.lookup pfx = none) (hpfx : pfx ≠ []) (huri : uri ≠ [])
    (hfr : ∀ k, m < k → pfx ≠ generated k)
    (huse : (uri, pfx) ∈ us ∨ ∃ k, n < k ∧ pfx = generated k) :
    ∃ inner', Evolves ctx cs n us ⟨declarePrefix s.contexts pfx uri, m⟩ inner' ∧
      (∀ e ∈ inner, e ∈ inner') ∧ getURI (declarePrefix s.contexts pfx uri) pfx = uri := by
  have hcon : declarePrefix s.contexts pfx uri =
      NamespaceSupport.declare inner pfx uri :: cs := by
    rw [h.contexts]
    rfl
  refine ⟨NamespaceSupport.declare inner pfx uri, ⟨hcon, h.count.trans hm,
    sorted_declare h.sorted pfx uri, h.fresh.declarePrefix hm hfr,
    fun e he => mem_declare_of_mem (h.old e he), fun e he => ?_⟩,
    fun e he => mem_declare_of_mem he, ?_⟩
  · rcases mem_declare he with rfl | he
    · exact .inr ⟨hpfx, huri, huse⟩
    · exact h.new e he
  · rw [hcon]
    refine getURI_cons_some ?_
    rw [lookup_declare, if_pos ⟨hnone, rfl⟩]

/-- A namespace without prefix in the innermost context is looked for further out. -/
theorem getPrefix_outside (h : ∀ e ∈ ctx, e.2 ≠ uri) :
    getPrefix (ctx :: cs) uri = getPrefix cs uri := by
  rcases getPrefix_cases ctx cs uri with ⟨pfx, hmem, -⟩ | ⟨-, heq⟩
  · exact absurd rfl (h _ hmem)
  · exact heq

theorem isMapped_outside (h : ∀ e ∈ ctx, e.2 ≠ uri) (hmap : isMapped (ctx :: cs) uri = true) :
    isMapped cs uri = true := by
  rcases isMapped_cons.mp hmap with ⟨e, he, hu⟩ | hout
  · exact absurd hu (h e he)
  · exact hout

theorem Evolves.getURI_getPrefix (h : Evolves ctx cs n us s inner) (hctx : Proper ⟨ctx :: cs, n⟩)
    (hvis : Visible (ctx :: cs) uri)
    (hkept : ∀ u ∈ us, u.2 ≠ [] → u.2 = getPrefix (ctx :: cs) uri → u.1 = uri) :
    Visible s.contexts uri := by
  intro hmap
  rw [h.contexts] at hmap ⊢
  rcases getPrefix_cases inner cs uri with ⟨pfx, hmem, heq⟩ | ⟨hnone, heq⟩
  · rw [heq]
    exact getURI_cons_some (h.lookup hmem)
  -- it is found further out, as before
  have hnone' : ∀ e ∈ ctx, e.2 ≠ uri := fun e he => hnone e (h.old e he)
  have hbef : getPrefix (ctx :: cs) uri = getPrefix cs uri := getPrefix_outside hnone'
  have hsta := hvis (isMapped_cons.mpr (.inr (isMapped_outside hnone hmap)))
  rw [heq]
  rw [hbef] at hsta hkept
  have hcte : ctx.lookup (getPrefix cs uri) = none := by
    refine Option.eq_none_iff_forall_ne_some.mpr fun v hlk => ?_
    rw [getURI_cons_some hlk] at hsta
    exact hnone' _ (mem_of_lookup hlk) hsta
  rw [getURI_cons_none hcte] at hsta
  -- and it has not been declared in the meantime
  have hinn : inner.lookup (getPrefix cs uri) = none := by
    refine Option.eq_none_iff_forall_ne_some.mpr fun v hlk => ?_
    have hmem := mem_of_lookup hlk
    rcases h.new _ hmem with hold | ⟨hne, -, huse | ⟨k, hk, hgen⟩⟩
    · exact lookup_ne_none_of_mem hold hcte
    · exact hnone _ hmem (hkept _ huse hne rfl)
    · exact hctx.fresh.getPrefix_ne uri hk (hbef.trans hgen)
  rw [getURI_cons_none hinn]
  exact hsta

omit s inner us pfx uri n in
theorem getPrefix_of_nil_mem (hsor : SortedAssoc.Sorted ctx) {uri : XMLString}
    (h : (([] : XMLString), uri) ∈ ctx) (cs : List Context) : getPrefix (ctx :: cs) uri = [] := by
  cases ctx with
  | nil => cases h
  | cons e ctx =>
    obtain ⟨hlt, -⟩ := pairwise_cons.mp hsor
    rcases mem_cons.mp h with rfl | h
    · simp [getPrefix]
    · exact absurd (hlt _ h) (not_lt_nil _)

theorem Evolves.getPrefix_ne_nil (h : Evolves ctx cs n us s inner) (hctx : Proper ⟨ctx :: cs, n⟩)
    (hbef : isMapped (ctx :: cs) uri = true → getPrefix (ctx :: cs) uri ≠ [])
    (hmap : isMapped s.contexts uri = true) : getPrefix s.contexts uri ≠ [] := by
  rw [h.contexts] at hmap ⊢
  rcases getPrefix_cases inner cs uri with ⟨pfx, hmem, heq⟩ | ⟨hnone, heq⟩
  · rw [heq]
    rintro rfl
    rcases h.new _ hmem with hold | ⟨hne, -⟩
    · exact hbef (isMapped_cons.mpr (.inl ⟨_, hold, rfl⟩))
        (getPrefix_of_nil_mem (hctx.sorted ctx mem_cons_self) hold cs)
    · exact hne rfl
  · rw [heq, ← getPrefix_outside fun e he => hnone e (h.old e he)]
    exact hbef (isMapped_cons.mpr (.inr (isMapped_outside hnone hmap)))

/-- Elements without namespace stay outside of the default namespace. -/
theorem Evolves.unnamed (h : Evolves ctx cs n us s inner) (hctx : Proper ⟨ctx :: cs, n⟩)
    (hbef : getPrefix (ctx :: cs) [] = [] ∧ getURI (ctx :: cs) [] = []) :
    getPrefix s.contexts [] = [] ∧ getURI s.contexts [] = [] := by
  obtain ⟨hpfx, hget⟩ := hbef
  rw [h.contexts]
  constructor
  · rcases getPrefix_cases ctx cs [] with ⟨pfx, hmem, heq⟩ | ⟨hnone, heq⟩
    · rw [hpfx] at heq
      subst heq
      exact getPrefix_of_nil_mem h.sorted (h.old _ hmem) cs
    · rw [getPrefix_outside, ← heq, hpfx]
      intro e he
      rcases h.new e he with hold | ⟨-, hne, -⟩
      · exact hnone e hold
      · exact hne
  · cases hlk : inner.lookup [] with
    | some v =>
      rw [getURI_cons_some hlk]
      rcases h.new _ (mem_of_lookup hlk) with hold | ⟨hne, -⟩
      · rwa [getURI_cons_some (lookup_of_mem (hctx.sorted ctx mem_cons_self) hold)] at hget
      · exact absurd rfl hne
    | none =>
      rw [getURI_cons_none hlk]
      rwa [getURI_cons_none] at hget
      exact Option.eq_none_iff_forall_ne_some.mpr fun v hold =>
        lookup_ne_none_of_mem (h.old _ (mem_of_lookup hold)) hlk

/-! ### The names of a start tag -/

theorem generated_plain (k : ℕ) : 0x3A ∉ generated k ∧ generated k ≠ xmlnsPrefix := by
  have hhead : (0x6E : UInt8) ≠ 0x78 := by decide
  refine ⟨?_, fun h => hhead (List.cons.inj h).1⟩
  obtain ⟨ds, hds, hdec⟩ := NumberFormatter.format_eq (k : ℤ)
  rw [generated, hds]
  intro hmem
  rcases mem_append.mp hmem with hmem | hmem
  · exact absurd hmem (by decide)
  · exact absurd (hdec.digits _ hmem) (by decide)

theorem Proper.getPrefix_plain (h : Proper s) (uri : XMLString) :
    0x3A ∉ getPrefix s.contexts uri ∧
      (getPrefix s.contexts uri = xmlnsPrefix → uri = xmlnsNamespace) := by
  rcases getPrefix_eq_nil_or_mem s.contexts uri with hnil | ⟨ctx, hctx, hmem⟩
  · rw [hnil]
    exact ⟨not_mem_nil, fun h => absurd h (by decide)⟩
  · exact h.plain ctx hctx _ hmem

theorem Evolves.declareUnique (h : Evolves ctx cs n us s inner) (huri : uri ≠ []) :
    ∃ inner', Evolves ctx cs n us (XMLWriter.declareUnique s uri).1 inner' ∧
      (∀ e ∈ inner, e ∈ inner') ∧
      getURI (XMLWriter.declareUnique s uri).1.contexts (generated (s.count + 1)) = uri := by
  have hnone : inner.lookup (generated (s.count + 1)) = none :=
    h.fresh.lookup_generated (h.contexts ▸ mem_cons_self) (Nat.lt_succ_self _)
  exact h.declare (Nat.le_succ _) hnone (generated_ne_nil _) huri
    (fun k hk heq => Nat.ne_of_lt hk (generated_injective heq))
    (.inr ⟨_, Nat.lt_succ_of_le h.count, rfl⟩)

theorem Evolves.isMapped_mono (h : Evolves ctx cs n us s inner)
    (h' : Evolves ctx cs n us s' inner') (hsub : ∀ e ∈ inner, e ∈ inner')
    (hmap : isMapped s.contexts uri = true) : isMapped s'.contexts uri = true := by
  rw [h.contexts] at hmap
  rw [h'.contexts]
  rcases isMapped_cons.mp hmap with ⟨e, he, hu⟩ | hout
  · exact isMapped_cons.mpr (.inl ⟨e, hsub e he, hu⟩)
  · exact isMapped_cons.mpr (.inr hout)

omit s inner us pfx uri n ctx cs in
theorem declareMissing_of_getURI {s : Naming} {pfx uri : XMLString}
    (h : getURI s.contexts pfx = uri) : declareMissing s pfx uri = s := by
  rw [declareMissing, h, if_neg]
  rintro ⟨hnil | hne, huri⟩
  · exact huri hnil
  · exact hne rfl

section

variable {namespaceURI localName qname : XMLString} {attributes : List Attribute}
  (h : Evolves ctx cs n (uses namespaceURI qname attributes) s inner)
  (hctx : Proper ⟨ctx :: cs, n⟩)
  (R : Resolvable ⟨ctx :: cs, n⟩ namespaceURI localName qname attributes)

include h hctx R

theorem Evolves.proper : Proper s := by
  refine hctx.replace h.contexts h.fresh h.sorted fun e he => ?_
  rcases h.new e he with hold | ⟨-, -, huse | ⟨k, -, hgen⟩⟩
  · exact hctx.plain ctx mem_cons_self e hold
  · refine ⟨?_, fun h => absurd h (R.ordinary _ huse).1⟩
    rcases mem_cons.mp huse with heq | hmem
    · rw [(Prod.mk.inj heq).2]
      exact colon_notMem_split qname
    · obtain ⟨a, -, heq⟩ := mem_map.mp hmem
      rw [← (Prod.mk.inj heq).2]
      exact colon_notMem_split a.qname
  · rw [hgen]
    exact ⟨(generated_plain k).1, fun h => absurd h (generated_plain k).2⟩

/-- A prefix of the call that is in the innermost context stands for its namespace. -/
theorem Evolves.eq_of_lookup
    (huse : (uri, pfx) ∈ uses namespaceURI qname attributes) (hpfx : pfx ≠ [])
    (hlk : inner.lookup pfx = some v) : v = uri := by
  rcases h.new _ (mem_of_lookup hlk) with hold | ⟨-, -, hv | ⟨k, hk, hgen⟩⟩
  · refine R.undeclared _ huse ctx rfl v hpfx ?_
    exact lookup_of_mem (hctx.sorted ctx mem_cons_self) hold
  · exact R.consistent _ hv _ huse hpfx rfl
  · exact absurd hgen ((R.ordinary _ huse).2 k hk)

/-- A prefix of the call stands for its namespace once it has been declared. -/
theorem Evolves.declareMissing
    (huse : (uri, pfx) ∈ uses namespaceURI qname attributes) (hpfx : pfx ≠ []) (huri : uri ≠ []) :
    ∃ inner', Evolves ctx cs n (uses namespaceURI qname attributes)
        (XMLWriter.declareMissing s pfx uri) inner' ∧ (∀ e ∈ inner, e ∈ inner') ∧
      getURI (XMLWriter.declareMissing s pfx uri).contexts pfx = uri := by
  rw [XMLWriter.declareMissing]
  split_ifs with hmis
  · have hnone : inner.lookup pfx = none := by
      refine Option.eq_none_iff_forall_ne_some.mpr fun v hlk => ?_
      have hv := h.eq_of_lookup hctx R huse hpfx hlk
      have hget : getURI s.contexts pfx = uri := by
        rw [h.contexts, getURI_cons_some hlk, hv]
      rw [hget] at hmis
      rcases hmis.1 with hnil | hne
      · exact huri hnil
      · exact hne rfl
    exact h.declare le_rfl hnone hpfx huri
      (fun k hk => (R.ordinary _ huse).2 k (Nat.lt_of_le_of_lt h.count hk)) (.inl huse)
  · refine ⟨inner, h, fun _ he => he, ?_⟩
    by_contra hne
    exact hmis ⟨.inr hne, huri⟩

/-- The prefix found for the namespace of an attribute stands for it. -/
theorem Evolves.attribute_visible (ha : a ∈ attributes) (huri : a.namespaceURI ≠ []) :
    Visible s.contexts a.namespaceURI := by
  refine h.getURI_getPrefix hctx (fun hm => (R.attributes_visible a ha huri hm).2) ?_
  intro u hu hne heq
  exact R.kept u hu _ (mem_uses ha) hne huri heq

theorem Evolves.declareAttribute (ha : a ∈ attributes) :
    ∃ inner', Evolves ctx cs n (uses namespaceURI qname attributes)
        (XMLWriter.declareAttribute s a) inner' ∧ (∀ e ∈ inner, e ∈ inner') ∧
      (a.namespaceURI ≠ [] →
        isMapped (XMLWriter.declareAttribute s a).contexts a.namespaceURI = true) := by
  have hloc := (R.attributes_named a ha).1
  by_cases huri : a.namespaceURI = []
  · have hsame : XMLWriter.declareAttribute s a = s :=
      declareAttribute_of_settled (.inr (.inl huri))
    rw [hsame]
    exact ⟨inner, h, fun _ he => he, fun hne => absurd huri hne⟩
  rw [XMLWriter.declareAttribute, if_neg hloc, givenPrefix]
  by_cases hspl : (split a.qname).1 = []
  · rw [if_pos hspl]
    split_ifs with hunm
    · -- a prefix is generated
      obtain ⟨inner', h', hsub, hget⟩ := h.declareUnique huri
      have hsame : getURI (XMLWriter.declareUnique s a.namespaceURI).1.contexts
          (XMLWriter.declareUnique s a.namespaceURI).2 = a.namespaceURI := hget
      rw [declareMissing_of_getURI hsame]
      exact ⟨inner', h', hsub, fun _ => isMapped_of_getURI hget huri⟩
    · -- the namespace has a prefix, which stands for it
      have hmap : isMapped s.contexts a.namespaceURI = true := by
        by_contra hnot
        rw [Bool.not_eq_true] at hnot
        exact hunm ⟨getPrefix_of_not_mapped hnot, huri, hnot⟩
      rw [declareMissing_of_getURI (h.attribute_visible hctx R ha huri hmap)]
      exact ⟨inner, h, fun _ he => he, fun _ => hmap⟩
  · rw [if_neg hspl, if_neg fun hand => hspl hand.1]
    obtain ⟨inner', h', hsub, hget⟩ := h.declareMissing hctx R (mem_uses ha) hspl huri
    exact ⟨inner', h', hsub, fun _ => isMapped_of_getURI hget huri⟩

theorem Evolves.declareAttributeNamespaces (hl : ∀ a ∈ l, a ∈ attributes) :
    ∃ inner', Evolves ctx cs n (uses namespaceURI qname attributes)
        (XMLWriter.declareAttributeNamespaces s l) inner' ∧ (∀ e ∈ inner, e ∈ inner') ∧
      ∀ a ∈ l, a.namespaceURI ≠ [] →
        isMapped (XMLWriter.declareAttributeNamespaces s l).contexts a.namespaceURI = true := by
  induction l generalizing s inner with
  | nil => exact ⟨inner, h, fun _ he => he, fun _ ha => nomatch ha⟩
  | cons a l ih =>
    obtain ⟨inner₁, h₁, hsub₁, hmap₁⟩ := h.declareAttribute hctx R (hl a mem_cons_self)
    obtain ⟨inner₂, h₂, hsub₂, hmap₂⟩ := ih h₁ fun b hb => hl b (mem_cons_of_mem a hb)
    refine ⟨inner₂, h₂, fun e he => hsub₂ e (hsub₁ e he), ?_⟩
    intro b hb huri
    rcases mem_cons.mp hb with rfl | hb
    · exact h₁.isMapped_mono h₂ hsub₂ (hmap₁ huri)
    · exact hmap₂ b hb huri

theorem Evolves.elementName {s' : Naming} {name : XMLString}
    (hok : elementName s namespaceURI localName qname = .ok (s', name)) :
    ∃ inner' pfx, Evolves ctx cs n (uses namespaceURI qname attributes) s' inner' ∧
      (∀ e ∈ inner, e ∈ inner') ∧ name = writeName pfx localName ∧ 0x3A ∉ pfx ∧
      getURI s'.contexts pfx = namespaceURI ∧ (namespaceURI = [] → pfx = []) := by
  have huse : (namespaceURI, (split qname).1) ∈ uses namespaceURI qname attributes :=
    mem_cons_self
  rw [XMLWriter.elementName] at hok
  split_ifs at hok with hpl hnew hqna hboth
  · -- a prefix is generated
    cases hok
    obtain ⟨inner', h', hsub, hget⟩ := h.declareUnique hnew.1
    exact ⟨inner', _, h', hsub, rfl, (generated_plain _).1, hget, fun hnil => absurd hnil hnew.1⟩
  · cases hok
    have hcol := ((h.proper hctx R).getPrefix_plain namespaceURI).1
    refine ⟨inner, _, h, fun _ he => he, rfl, hcol, ?_, ?_⟩
    · by_cases huri : namespaceURI = []
      · obtain ⟨hpfx, hget⟩ := h.unnamed hctx (R.unnamed huri)
        rw [huri, hpfx]
        exact hget
      have hmap : isMapped s.contexts namespaceURI = true := by
        by_contra hnot
        exact hnew ⟨huri, Bool.eq_false_iff.mpr hnot⟩
      have hspl : (split qname).1 = [] := by
        rcases hpl.2 with hnil | heq
        · rw [hnil]
          rfl
        · rw [← heq, split_of_notMem R.named.2]
      refine h.getURI_getPrefix hctx (R.visible hspl) ?_ hmap
      intro u hu hne heq
      exact R.kept u hu _ huse hne huri heq
    · intro huri
      rw [huri]
      exact (h.unnamed hctx (R.unnamed huri)).1
  · exact absurd hqna.2.1 R.named.1
  · cases hok
    have hspl : (split qname).1 ≠ [] := by
      intro hnil
      rcases R.qualified hnil with h | h
      · exact hboth.2 h
      · exact hpl ⟨hboth.1, .inr h⟩
    have huri : namespaceURI ≠ [] := fun hnil => hspl (R.unprefixed _ huse hnil)
    obtain ⟨inner', h', hsub, hget⟩ := h.declareMissing hctx R huse hspl huri
    rw [givenPrefix, if_neg hspl]
    exact ⟨inner', _, h', hsub, rfl, colon_notMem_split qname, hget, fun hnil => absurd hnil huri⟩

theorem Evolves.attribute (ha : a ∈ attributes)
    (hmap : a.namespaceURI ≠ [] → isMapped s.contexts a.namespaceURI = true) :
    ∃ pfx, attributeName s.contexts a = writeName pfx a.localName ∧ 0x3A ∉ pfx ∧
      pfx ≠ xmlnsPrefix ∧ (pfx = [] ↔ a.namespaceURI = []) ∧
      (a.namespaceURI ≠ [] → getURI s.contexts pfx = a.namespaceURI) := by
  obtain ⟨hloc, -, hxml, -⟩ := R.attributes_named a ha
  rw [attributeName, if_neg hloc]
  by_cases huri : a.namespaceURI = []
  · rw [if_pos huri]
    exact ⟨[], rfl, not_mem_nil, by decide, ⟨fun _ => huri, fun _ => rfl⟩,
      fun hne => absurd huri hne⟩
  rw [if_neg huri]
  obtain ⟨hcol, hname⟩ := (h.proper hctx R).getPrefix_plain a.namespaceURI
  have hne : getPrefix s.contexts a.namespaceURI ≠ [] :=
    h.getPrefix_ne_nil hctx (fun hm => (R.attributes_visible a ha huri hm).1) (hmap huri)
  exact ⟨_, rfl, hcol, fun heq => hxml (hname heq),
    ⟨fun hnil => absurd hnil hne, fun hnil => absurd hnil huri⟩, fun _ =>
      h.attribute_visible hctx R ha huri (hmap huri)⟩

end

/-! ### The attributes of a start tag -/

/-- The namespace declarations of a start tag are the entries of the innermost context. -/
theorem lookup_addNamespaceAttributes (inner : Context) (cs : List Context) (pfx : XMLString) :
    (addNamespaceAttributes (inner :: cs)).lookup (xmlnsName pfx) = inner.lookup pfx := by
  rcases lookup_foldl_set xmlnsName (getURI (inner :: cs)) (getDeclaredPrefixes (inner :: cs)) []
    (xmlnsName pfx) with ⟨hnone, h⟩ | ⟨p, hp, heq, h⟩
  · rw [addNamespaceAttributes, h]
    refine (Option.eq_none_iff_forall_ne_some.mpr fun uri hlk => ?_).symm
    exact hnone pfx (mem_map.mpr ⟨_, mem_of_lookup hlk, rfl⟩) rfl
  · obtain rfl := xmlnsName_injective heq
    obtain ⟨e, he, rfl⟩ := mem_map.mp hp
    obtain ⟨uri, hlk⟩ := Option.ne_none_iff_exists'.mp (lookup_ne_none_of_mem he)
    rw [addNamespaceAttributes, h, getURI_cons_some hlk, hlk]

variable {e : XMLString × XMLString} {scopes : List (List (XMLString × XMLString))}

theorem isDeclaration_of_mem (h : e ∈ addNamespaceAttributes cs) : isDeclaration e.1 = true := by
  obtain ⟨p, -, rfl⟩ := (mem_foldl_set h).resolve_left not_mem_nil
  exact isDeclaration_xmlnsName p

theorem lookup_addAttributes (h : ∀ a ∈ l, attributeName cs a ≠ name) :
    (addAttributes cs m l).lookup name = m.lookup name := by
  rcases lookup_foldl_set (attributeName cs) (·.value) l m name with ⟨-, heq⟩ | ⟨a, ha, heq, -⟩
  · exact heq
  · exact absurd heq (h a ha)

theorem lookup_attributeName (ha : a ∈ l) :
    ∃ v, (addAttributes cs m l).lookup (attributeName cs a) = some v := by
  rcases lookup_foldl_set (attributeName cs) (·.value) l m (attributeName cs a) with
    ⟨hnone, -⟩ | ⟨b, -, -, h⟩
  · exact absurd rfl (hnone a ha)
  · exact ⟨b.value, h⟩

/-! ### Reading a start tag -/

/-- The namespace declarations in the output are the entries of the contexts. -/
def Declares (attributes : List (XMLString × XMLString)) (ctx : Context) : Prop :=
  ∀ pfx, attributes.lookup (xmlnsName pfx) = ctx.lookup pfx

def bottom : List Context := pushContext reset

theorem resolvePrefix_eq (h : List.Forall₂ Declares scopes cs)
    (hget : getURI (cs ++ bottom) pfx = uri) (hnil : uri = [] → pfx = []) :
    resolvePrefix scopes pfx = some uri := by
  induction h with
  | nil =>
    have hbot : getURI bottom pfx = if pfx = xmlPrefix then xmlNamespace
        else if pfx = xmlnsPrefix then xmlnsNamespace else [] := by
      have hres : bottom =
          [[], [(xmlPrefix, xmlNamespace), (xmlnsPrefix, xmlnsNamespace)]] := by decide
      rw [hres]
      split_ifs with h₁ h₂
      · rw [h₁]
        rfl
      · rw [h₂]
        rfl
      · simp [getURI, lookup_cons, beq_false_of_ne h₁, beq_false_of_ne h₂]
    rw [nil_append, hbot] at hget
    rw [resolvePrefix]
    split_ifs at hget ⊢ with h₁ h₂ h₃
    · rw [hget]
    · rw [hget]
    · rw [hget]
    · exact absurd (hnil hget.symm) h₃
  | @cons attributes ctx scopes cs hdec _ ih =>
    rw [resolvePrefix, hdec pfx]
    cases hlk : ctx.lookup pfx with
    | some v =>
      rw [cons_append, getURI_cons_some hlk] at hget
      rw [hget]
    | none =>
      rw [cons_append, getURI_cons_none hlk] at hget
      exact ih hget

section

variable {namespaceURI localName qname : XMLString} {attributes : List Attribute}

theorem attributeName_ne (hcol : 0x3A ∉ pfx) (hxml : pfx ≠ xmlnsPrefix)
    (hloc : 0x3A ∉ a.localName) (hdef : pfx = [] → a.localName ≠ xmlnsPrefix) :
    isDeclaration (writeName pfx a.localName) = false := by
  rw [isDeclaration, split_writeName hcol hloc, Bool.or_eq_false_iff, decide_eq_false_iff_not,
    decide_eq_false_iff_not]
  refine ⟨?_, hxml⟩
  rw [writeName]
  split_ifs with hpfx
  · exact hdef hpfx
  · intro heq
    have hmem : (0x3A : UInt8) ∈ xmlnsPrefix := by
      rw [← heq]
      simp
    exact absurd hmem (by decide)

theorem matches_startTag (hsco : List.Forall₂ Declares scopes opened)
    (hctx : Proper ⟨ctx :: (opened ++ bottom), n⟩)
    (R : Resolvable ⟨ctx :: (opened ++ bottom), n⟩ namespaceURI localName qname attributes)
    (hok : elementName (declareAttributeNamespaces ⟨ctx :: (opened ++ bottom), n⟩ attributes)
      namespaceURI localName qname = .ok (s', name)) :
    ∃ inner, s'.contexts = inner :: (opened ++ bottom) ∧ Proper s' ∧
      Declares (addAttributes s'.contexts (addNamespaceAttributes s'.contexts) attributes) inner ∧
      Matches ⟨namespaceURI, localName, attributes⟩ (element scopes name
        (addAttributes s'.contexts (addNamespaceAttributes s'.contexts) attributes)) := by
  obtain ⟨inner₁, h₁, -, hmap₁⟩ :=
    (Evolves.start hctx _).declareAttributeNamespaces hctx R fun _ ha => ha
  obtain ⟨inner, pfx, h, hsub, rfl, hcol, hget, hnil⟩ := h₁.elementName hctx R hok
  have hatt := fun a ha => h.attribute (a := a) hctx R ha fun huri =>
    h₁.isMapped_mono h hsub (hmap₁ a ha huri)
  have hnot : ∀ a ∈ attributes, isDeclaration (attributeName s'.contexts a) = false := by
    intro a ha
    obtain ⟨-, hloc, -, hdef⟩ := R.attributes_named a ha
    obtain ⟨pfx, heq, hcol, hxml, hemp, -⟩ := hatt a ha
    rw [heq]
    exact attributeName_ne hcol hxml hloc fun hpfx => hdef (hemp.mp hpfx)
  have hdec : Declares
      (addAttributes s'.contexts (addNamespaceAttributes s'.contexts) attributes) inner := by
    intro p
    rw [lookup_addAttributes, h.contexts, lookup_addNamespaceAttributes]
    intro a ha heq
    have hdecl := hnot a ha
    rw [heq, isDeclaration_xmlnsName] at hdecl
    cases hdecl
  refine ⟨inner, h.contexts, h.proper hctx R, hdec, ?_⟩
  -- prefixes are resolved in the contexts of the elements around and in that of the element
  have hrsl : ∀ {p u}, getURI s'.contexts p = u → (u = [] → p = []) → resolvePrefix
      (addAttributes s'.contexts (addNamespaceAttributes s'.contexts) attributes :: scopes) p =
      some u := by
    intro p u hp hu
    refine resolvePrefix_eq (.cons hdec hsco) ?_ hu
    rw [cons_append, ← h.contexts]
    exact hp
  have hres : ∀ a ∈ attributes, resolveAttribute
      (addAttributes s'.contexts (addNamespaceAttributes s'.contexts) attributes :: scopes)
      (attributeName s'.contexts a) = some (a.namespaceURI, a.localName) := by
    intro a ha
    obtain ⟨-, hloc, -, -⟩ := R.attributes_named a ha
    obtain ⟨p, heq, hcol, -, hemp, huri⟩ := hatt a ha
    rw [heq, resolveAttribute, split_writeName hcol hloc]
    split_ifs with hp
    · rw [hemp.mp hp]
    · have hne : a.namespaceURI ≠ [] := fun hnil => hp (hemp.mpr hnil)
      rw [resolveElement, split_writeName hcol hloc,
        hrsl (huri hne) fun hnil => absurd hnil hne]
      rfl
  refine ⟨?_, ?_, ?_⟩
  · change resolveElement _ _ = _
    rw [resolveElement, split_writeName hcol R.named.2, hrsl hget hnil]
    rfl
  · intro a ha
    obtain ⟨v, hv⟩ := lookup_attributeName (m := addNamespaceAttributes s'.contexts) ha
    refine ⟨(resolveAttribute _ (attributeName s'.contexts a), v), ?_, hres a ha⟩
    refine mem_map.mpr ⟨(attributeName s'.contexts a, v), ?_, rfl⟩
    refine mem_filter.mpr ⟨mem_of_lookup hv, ?_⟩
    rw [hnot a ha]
    rfl
  · intro e he
    obtain ⟨e', he', rfl⟩ := mem_map.mp he
    obtain ⟨hmem, hdecl⟩ := mem_filter.mp he'
    rcases mem_foldl_set hmem with hns | ⟨a, ha, rfl⟩
    · rw [isDeclaration_of_mem hns] at hdecl
      cases hdecl
    · refine ⟨a, ha, ?_⟩
      rw [hres a ha]

end

/-! ### Runs -/

/-- What has been given to the writer. -/
def given : Event → List Given
  | .startElement uri localName _ attributes => [⟨uri, localName, attributes⟩]
  | .emptyElement uri localName _ attributes => [⟨uri, localName, attributes⟩]
  | .endElement _ _ _ | .dataElement _ _ _ _ _ | .characters _ | .startPrefixMapping _ _ => []

/-- Calls that do not throw, with the elements that have been given. -/
def expanding (o : Options) : Machine (XMLWriter × List Given) Event :=
  ⟨(started o, []), fun s e => (perform o s.1 e).toOption.map fun w => (w, s.2 ++ given e)⟩

/-- The names in the call can be written in the contexts there are. -/
def Expandable (s : XMLWriter × List Given) : Event → Prop
  | .startElement uri localName qname attributes
  | .emptyElement uri localName qname attributes =>
    Resolvable ⟨s.1.opening, s.1.naming.count⟩ uri localName qname attributes
  | .endElement _ _ _ => True
  | .startPrefixMapping pfx _ => 0x3A ∉ pfx ∧ pfx ≠ xmlnsPrefix ∧
    ∀ k, s.1.naming.count < k → pfx ≠ generated k
  | .characters _ => True
  | .dataElement _ _ _ _ _ => False

structure Resolves (s : XMLWriter × List Given) : Prop where
  proper : Proper ⟨s.1.opening, s.1.naming.count⟩
  contexts : ∃ ctx opened, s.1.opening = ctx :: (opened ++ bottom) ∧
    List.Forall₂ Declares (Resolving.readAll s.1.out).scopes opened ∧
    opened.length = s.1.elementStack.length
  matched : List.Forall₂ Matches s.2 (Resolving.readAll s.1.out).elements

section

variable {w w' : XMLWriter} {gs : List Given} {o : Options}

theorem readAll_append (ms ms' : List Markup) :
    readAll (ms ++ ms') = ms'.foldl read (readAll ms) :=
  foldl_append

section

variable (h : Resolves (w, gs))
include h

theorem Resolves.write (hms : ∀ r, ms.foldl read r = r) : Resolves (w.write ms, gs) where
  proper := h.proper
  contexts := by
    change ∃ ctx opened, w.opening = ctx :: (opened ++ bottom) ∧
      List.Forall₂ Declares (readAll (w.out ++ ms)).scopes opened ∧ _
    rw [readAll_append, hms]
    exact h.contexts
  matched := by
    change List.Forall₂ Matches gs (readAll (w.out ++ ms)).elements
    rw [readAll_append, hms]
    exact h.matched

theorem Resolves.closeStartTag : Resolves (closeStartTag w, gs) := by
  rw [closeStartTag_eq]
  have hwr : Resolves (w.write (if w.unclosedStartTag then [.gt] else []), gs) := by
    refine h.write ?_
    intro r
    split_ifs
    · rfl
    · rfl
  exact ⟨hwr.proper, hwr.contexts, hwr.matched⟩

theorem Resolves.ready : Resolves (prettyPrint o (XMLWriter.closeStartTag w), gs) := by
  rw [prettyPrint_eq]
  refine h.closeStartTag.write ?_
  intro r
  split_ifs
  · rfl
  · rfl

theorem Resolves.startTag
    (R : Resolvable ⟨w.opening, w.naming.count⟩ namespaceURI localName qname attributes)
    (hok : writeStartElement o (prettyPrint o (XMLWriter.closeStartTag w)) namespaceURI localName
      qname attributes = .ok w') :
    ∃ inner opened, w'.naming.contexts = inner :: (opened ++ bottom) ∧ Proper w'.naming ∧
      w'.nsContextPushed = false ∧ w'.elementStack = w.elementStack ∧
      opened.length = w.elementStack.length ∧
      (∃ scope scopes, (readAll w'.out).scopes = scope :: scopes ∧
        Declares scope inner ∧ List.Forall₂ Declares scopes opened) ∧
      List.Forall₂ Matches (gs ++ [⟨namespaceURI, localName, attributes⟩])
        (readAll w'.out).elements := by
  obtain ⟨ms, hrdy⟩ := ready_eq o w
  replace h : Resolves (prettyPrint o (XMLWriter.closeStartTag w), gs) := h.ready
  rw [hrdy] at h hok
  obtain ⟨s', name, indent, hname, rfl⟩ := writeStartElement_ok hok
  obtain ⟨ctx, opened, hopn, hsco, hlen⟩ := h.contexts
  have hpro := h.proper
  rw [hopn] at hpro hname
  rw [show w.opening = _ from hopn] at R
  obtain ⟨inner, hinn, hs', hdec, hmat⟩ := matches_startTag hsco hpro R hname
  refine ⟨inner, opened, hinn, hs', rfl, rfl, hlen, ?_, ?_⟩
  · refine ⟨_, _, ?_, hdec, hsco⟩
    rw [readAll_append]
    rfl
  · rw [readAll_append]
    exact rel_append h.matched (.cons hmat .nil)

end

theorem proper_pushContext (h : Proper s) : Proper ⟨pushContext s.contexts, s.count⟩ where
  fresh := forall_mem_cons.mpr ⟨nofun, h.fresh⟩
  sorted := forall_mem_cons.mpr ⟨.nil, h.sorted⟩
  plain := forall_mem_cons.mpr ⟨nofun, h.plain⟩

theorem Proper.of_subset (h : Proper s) (hcnt : s.count ≤ s'.count)
    (hsub : ∀ c ∈ s'.contexts, c ∈ s.contexts) : Proper s' where
  fresh := fun c hc e he k hk => h.fresh c (hsub c hc) e he k (hcnt.trans_lt hk)
  sorted := fun c hc => h.sorted c (hsub c hc)
  plain := fun c hc => h.plain c (hsub c hc)

theorem Resolves.startElement (h : Resolves (w, gs))
    (R : Resolvable ⟨w.opening, w.naming.count⟩ namespaceURI localName qname attributes)
    (hok : startElement o w namespaceURI localName qname attributes = .ok w') :
    Resolves (w', gs ++ [⟨namespaceURI, localName, attributes⟩]) := by
  obtain ⟨w₁, hbeg, rfl⟩ := startElement_ok hok
  obtain ⟨inner, opened, hcon, hpro, hpus, hstk, hlen,
    ⟨scope, scopes, hread, hdec, hsco⟩, hmat⟩ := h.startTag R hbeg
  have hopn : w₁.opening = pushContext w₁.naming.contexts := by
    rw [opening, hpus]
    rfl
  refine ⟨?_, ⟨[], inner :: opened, ?_, ?_, ?_⟩, hmat⟩
  · change Proper ⟨w₁.opening, w₁.naming.count⟩
    rw [hopn]
    exact proper_pushContext hpro
  · change w₁.opening = _
    rw [hopn, hcon]
    rfl
  · change List.Forall₂ Declares (readAll w₁.out).scopes _
    rw [hread]
    exact .cons hdec hsco
  · rw [length_cons, hlen]
    exact congrArg (· + 1) (congrArg List.length hstk.symm)

theorem Resolves.emptyElement (h : Resolves (w, gs))
    (R : Resolvable ⟨w.opening, w.naming.count⟩ namespaceURI localName qname attributes)
    (hok : emptyElement o w namespaceURI localName qname attributes = .ok w') :
    Resolves (w', gs ++ [⟨namespaceURI, localName, attributes⟩]) := by
  obtain ⟨w₁, hbeg, rfl⟩ := emptyElement_ok hok
  obtain ⟨inner, opened, hcon, hpro, hpus, hstk, hlen,
    ⟨scope, scopes, hread, hdec, hsco⟩, hmat⟩ := h.startTag R hbeg
  -- the context that the element had is left again
  have hopn : (if w₁.nsContextPushed then popContext w₁.naming.contexts
      else pushContext (popContext w₁.naming.contexts)) = pushContext (opened ++ bottom) := by
    rw [hpus, hcon]
    rfl
  have haft : readAll (w₁.out ++ [.slashGt]) =
      ⟨scopes, (readAll w₁.out).elements⟩ := by
    rw [readAll_append]
    change (⟨(readAll w₁.out).scopes.tail, _⟩ : Resolving) = _
    rw [hread]
    rfl
  refine ⟨?_, ⟨[], opened, hopn, ?_, ?_⟩, ?_⟩
  · refine (congrArg (fun cs => Proper ⟨cs, w₁.naming.count⟩) hopn).mpr ?_
    refine proper_pushContext (s := ⟨opened ++ bottom, w₁.naming.count⟩) ?_
    refine hpro.of_subset le_rfl fun c hc => ?_
    rw [hcon]
    exact mem_cons_of_mem _ hc
  · dsimp only
    rw [haft]
    exact hsco
  · exact hlen.trans (congrArg List.length hstk.symm)
  · dsimp only
    rw [haft]
    exact hmat

theorem Ending.read {unclosed : Bool} (h : Ending unclosed name ms) (r : Resolving) :
    ms.foldl read r = ⟨r.scopes.tail, r.elements⟩ := by
  cases h with
  | empty | canonical | plain | pretty => rfl

section

variable (h : Resolves (w, gs))
include h

theorem Resolves.endElement
    (hok : endElement o w namespaceURI localName qname = .ok w') : Resolves (w', gs) := by
  obtain ⟨name, names, ms, ms', hstk, hms, hms', rfl⟩ := endElement_ok hok
  obtain ⟨ctx, opened, hopn, hsco, hlen⟩ := h.contexts
  have hpro := h.proper
  have hmat := h.matched
  rw [hstk, length_cons] at hlen
  obtain ⟨c, opened, rfl⟩ := exists_cons_of_length_eq_add_one hlen
  have haft : readAll (w.out ++ (ms ++ ms')) =
      ⟨(readAll w.out).scopes.tail, (readAll w.out).elements⟩ := by
    rw [readAll_append, foldl_append, hms.read]
    rcases hms' with rfl | rfl
    · rfl
    · rfl
  have htail : List.Forall₂ Declares (readAll w.out).scopes.tail opened := by
    obtain ⟨scope, scopes, -, hrest, heq⟩ := forall₂_cons_right_iff.mp hsco
    rw [heq]
    exact hrest
  -- a context that was pushed for the next element is left in place of that of the element,
  -- which is then the one of the next element
  obtain ⟨ctx', hctx', hmem⟩ : ∃ ctx', (if w.nsContextPushed then popContext w.naming.contexts
      else pushContext (popContext w.naming.contexts)) = ctx' :: (opened ++ bottom) ∧
      (ctx' = c ∨ ctx' = []) := by
    rw [opening] at hopn
    split_ifs at hopn ⊢ with hpus
    · refine ⟨c, ?_, .inl rfl⟩
      rw [hopn]
      rfl
    · refine ⟨[], ?_, .inr rfl⟩
      rw [(List.cons.inj hopn).2]
      rfl
  refine ⟨?_, ⟨ctx', opened, hctx', ?_, Nat.succ.inj hlen⟩, ?_⟩
  · refine (proper_pushContext hpro).of_subset le_rfl fun c' hc' => ?_
    rcases mem_cons.mp ((congrArg (c' ∈ ·) hctx').mp hc') with rfl | hc'
    · rcases hmem with rfl | rfl <;> simp [pushContext, hopn]
    · simp [pushContext, hopn, mem_append.mp hc']
  · dsimp only
    rw [haft]
    exact htail
  · dsimp only
    rw [haft]
    exact hmat

theorem Resolves.characters {data : XMLString}
    (hok : characters w data = .ok w') : Resolves (w', gs) := by
  rw [XMLWriter.characters] at hok
  split_ifs at hok
  · cases hok
    exact h
  · cases hok
    have hwr : Resolves ((XMLWriter.closeStartTag w).write [.characters data], gs) :=
      h.closeStartTag.write fun _ => rfl
    exact ⟨hwr.proper, hwr.contexts, hwr.matched⟩

theorem Resolves.startPrefixMapping (hcol : 0x3A ∉ pfx)
    (hxms : pfx ≠ xmlnsPrefix) (hfr : ∀ k, w.naming.count < k → pfx ≠ generated k) :
    Resolves (startPrefixMapping w pfx uri, gs) := by
  by_cases hxml : pfx = xmlPrefix
  · rw [XMLWriter.startPrefixMapping, if_pos hxml]
    exact h
  rw [startPrefixMapping_eq hxml]
  obtain ⟨ctx, opened, hopn, hsco, hlen⟩ := h.contexts
  have hpro := h.proper
  have hdec : declarePrefix w.opening pfx uri =
      NamespaceSupport.declare ctx pfx uri :: (opened ++ bottom) := by
    rw [hopn]
    rfl
  refine ⟨?_, ⟨_, opened, hdec, hsco, hlen⟩, h.matched⟩
  have hdcl : Fresh ⟨declarePrefix w.opening pfx uri, w.naming.count⟩ :=
    hpro.fresh.declarePrefix le_rfl hfr
  rw [hopn] at hpro
  refine hpro.replace hdec hdcl
    (sorted_declare (hpro.sorted ctx mem_cons_self) pfx uri) fun e he => ?_
  rcases mem_declare he with rfl | he
  · exact ⟨hcol, fun heq => absurd heq hxms⟩
  · exact hpro.plain ctx mem_cons_self e he

theorem Resolves.perform {e : Event} (he : Expandable (w, gs) e)
    (hok : perform o w e = .ok w') : Resolves (w', gs ++ given e) := by
  cases e with
  | startElement uri localName qname attributes => exact h.startElement he hok
  | emptyElement uri localName qname attributes => exact h.emptyElement he hok
  | endElement uri localName qname =>
    rw [given, append_nil]
    exact h.endElement hok
  | dataElement => exact he.elim
  | characters data =>
    rw [given, append_nil]
    exact h.characters hok
  | startPrefixMapping pfx uri =>
    cases hok
    obtain ⟨hcol, hxml, hfr⟩ := he
    rw [given, append_nil]
    exact h.startPrefixMapping hcol hxml hfr

end

theorem Resolves.start (o : Options) : Resolves (started o, []) := by
  have hread : readAll (started o).out = ⟨[], []⟩ := by
    rw [started_eq]
    split_ifs
    · rfl
    · rfl
    · rfl
  have hopn : (started o).opening =
      [[], [], [(xmlPrefix, xmlNamespace), (xmlnsPrefix, xmlnsNamespace)]] := rfl
  refine ⟨⟨(Tracks.start o).fresh_opening, ?_, ?_⟩, ⟨[], [], rfl, ?_, rfl⟩, ?_⟩
  · change ∀ ctx ∈ (started o).opening, _
    rw [hopn]
    decide
  · change ∀ ctx ∈ (started o).opening, _
    rw [hopn]
    decide
  · dsimp only
    rw [hread]
    exact .nil
  · dsimp only
    rw [hread]
    exact .nil

end

/-- The names in the output stand for the names given, in documents of calls with names that can
be written. -/
theorem expanded_names (o : Options) (w : XMLWriter) (gs : List Given)
    (hreached : (expanding o).ReachedBy Expandable (w, gs)) :
    List.Forall₂ Matches gs (Resolving.readAll w.out).elements := by
  refine (Machine.ReachedBy.invariant (I := Resolves) (Resolves.start o) ?_ hreached).matched
  rintro ⟨w, gs⟩ e ⟨w', gs'⟩ h he hstep
  obtain ⟨w₁, hok, heq⟩ := Option.map_eq_some_iff.mp hstep
  cases heq
  exact h.perform he (Except.toOption_eq_some.mp hok)

theorem ne_generated (k : ℕ) : [0x70] ≠ generated k := by
  intro h
  exact absurd (List.cons.inj h).1 (by decide)

theorem resolvable_mapped :
    Resolvable ⟨[([0x70], [0x75])] :: bottom, 0⟩ [0x75] [0x78] [0x70, 0x3A, 0x78]
      [⟨[0x76], [0x61], [], [0x31]⟩] where
  named := by decide
  qualified := by decide
  attributes_named := by simp; decide
  unprefixed := by decide
  ordinary := by
    intro u hu
    rcases mem_cons.mp hu with rfl | hu
    · exact ⟨by decide, fun k _ => ne_generated k⟩
    · rw [mem_singleton.mp hu]
      exact ⟨by decide, fun k _ => (generated_ne_nil k).symm⟩
  undeclared := by
    intro u hu ctx hctx uri hne hlk
    cases hctx
    rcases mem_cons.mp hu with rfl | hu
    · cases hlk
      rfl
    · rw [mem_singleton.mp hu] at hne
      exact absurd rfl hne
  consistent := by decide
  kept := by decide
  unnamed := by decide
  visible := fun h => absurd h (by decide)
  attributes_visible := by simp; decide

/-- An element with a prefix that is mapped, and an attribute in another namespace, which gets
a prefix. -/
theorem expanded_names_of_mapped : ∃ w gs, (expanding plainOptions).ReachedBy Expandable (w, gs) ∧
    gs ≠ [] ∧ List.Forall₂ Matches gs (Resolving.readAll w.out).elements := by
  have h₁ : (expanding plainOptions).ReachedBy Expandable
      (⟨0, 0, false, true, false, [], ⟨[([0x70], [0x75])] :: bottom, 0⟩, true, []⟩, []) :=
    .step (a := .startPrefixMapping [0x70] [0x75]) .start
      ⟨by decide, by decide, fun k _ => ne_generated k⟩ rfl
  have h₂ : (expanding plainOptions).ReachedBy Expandable
      (⟨1, 1, false, false, true, [⟨[0x70, 0x3A, 0x78], [0x75], [0x78]⟩],
      ⟨[([0x6E, 0x73, 0x31], [0x76]), ([0x70], [0x75])] :: bottom, 1⟩, false,
      [.startTag [0x70, 0x3A, 0x78] [([0x6E, 0x73, 0x31, 0x3A, 0x61], [0x31]),
        ([0x78, 0x6D, 0x6C, 0x6E, 0x73, 0x3A, 0x6E, 0x73, 0x31], [0x76]),
        ([0x78, 0x6D, 0x6C, 0x6E, 0x73, 0x3A, 0x70], [0x75])] none]⟩,
      [⟨[0x75], [0x78], [⟨[0x76], [0x61], [], [0x31]⟩]⟩]) :=
    .step (a := .startElement [0x75] [0x78] [0x70, 0x3A, 0x78] [⟨[0x76], [0x61], [], [0x31]⟩])
      h₁ resolvable_mapped rfl
  exact ⟨_, _, h₂, cons_ne_nil _ _, expanded_names plainOptions _ _ h₂⟩

/-- An element in no namespace is written into the default namespace of the element it is in;
and an attribute in the default namespace is written without prefix, hence into none. -/
theorem default_namespace :
    (∃ w gs, (expanding plainOptions).exec (started plainOptions, [])
        [.startPrefixMapping [] [0x75], .startElement [0x75] [0x78] [] [],
          .emptyElement [] [0x79] [] []] = some (w, gs) ∧
      (Resolving.readAll w.out).elements.map (·.name) =
        [some ([0x75], [0x78]), some ([0x75], [0x79])] ∧
      ¬ List.Forall₂ Matches gs (Resolving.readAll w.out).elements) ∧
    ∃ w gs, (expanding plainOptions).exec (started plainOptions, [])
        [.startPrefixMapping [] [0x75],
          .emptyElement [0x75] [0x78] [] [⟨[0x75], [0x61], [], [0x31]⟩]] = some (w, gs) ∧
      (Resolving.readAll w.out).elements.map (·.attributes) =
        [[(some ([], [0x61]), [0x31])]] ∧
      ¬ List.Forall₂ Matches gs (Resolving.readAll w.out).elements := by
  refine ⟨⟨_, _, rfl, by decide, ?_⟩, _, _, rfl, by decide, ?_⟩
  · intro h
    obtain ⟨-, h⟩ := forall₂_cons.mp h
    obtain ⟨h, -⟩ := forall₂_cons.mp h
    exact absurd h.name (by decide)
  · intro h
    obtain ⟨h, -⟩ := forall₂_cons.mp h
    obtain ⟨e, he, hname⟩ := h.given _ mem_cons_self
    rw [mem_singleton.mp he] at hname
    exact absurd hname (by decide)

end XMLWriter

end Poco.XML
