import Poco.Lib.Outcome
import Poco.XML.XMLWriter
import Mathlib.Tactic.SplitIfs

/-!
# The markup is balanced

The writer counts elements and compares names, but not enough of them.  A second root element is
written if the first one has no others in it; character data is written anywhere; and the prefix
in an end tag is looked up anew, so that it may be another one than that in the start tag.

## Main definitions

* `Reading`: what a reader of markup keeps track of.
* `Balanced`: one element that is in no other, every end tag has the name of its start tag, and
  character data is inside of elements only.
* `Orderly`: the call keeps to one root, with character data only in elements; the names of
  elements can be found again; elements are ended with the names with which they were started, and
  not after a prefix has been mapped that no element has been started with.
* `Tracks`: the state of the writer and what a reader has kept track of belong together.

## Main results

* `endName_elementName`: the name in the end tag is that in the start tag, if it is looked up in
  the same contexts.
* `Tracks.perform`: what one call does to the reading.
* `balanced`: documents of orderly calls are balanced.
-/

namespace Poco.XML

open List NamespaceSupport

/-! ### Reading -/

structure Reading where
  /-- The name in a start tag that has not ended yet. -/
  tag : Option XMLString
  /-- The names of the elements that it is in, innermost first. -/
  elements : List XMLString
  /-- How many elements there are that are in no other. -/
  roots : ℕ
deriving DecidableEq

def Reading.start : Reading := ⟨none, [], 0⟩

def Reading.read (r : Reading) : Markup → Option Reading
  | .declaration => if r = start then some r else none
  | .startTag name _ _ =>
    if r.tag = none then
      some ⟨some name, r.elements, if r.elements = [] then r.roots + 1 else r.roots⟩
    else none
  | .gt => r.tag.map fun name => ⟨none, name :: r.elements, r.roots⟩
  | .slashGt => r.tag.map fun _ => ⟨none, r.elements, r.roots⟩
  | .endTag name =>
    match r.elements with
    | [] => none
    | n :: ns => if r.tag = none ∧ n = name then some ⟨none, ns, r.roots⟩ else none
  | .characters _ => if r.tag = none ∧ r.elements ≠ [] then some r else none
  | .newLine | .indent _ => if r.tag = none then some r else none

def Reading.readAll (r : Reading) : List Markup → Option Reading
  | [] => some r
  | m :: ms => (r.read m).bind fun r => r.readAll ms

def Balanced (ms : List Markup) : Prop := Reading.start.readAll ms = some ⟨none, [], 1⟩

instance (ms : List Markup) : Decidable (Balanced ms) :=
  inferInstanceAs (Decidable (_ = _))

theorem Reading.readAll_append (r : Reading) (ms ms' : List Markup) :
    r.readAll (ms ++ ms') = (r.readAll ms).bind fun r => r.readAll ms' := by
  induction ms generalizing r with
  | nil => rfl
  | cons m ms ih =>
    rw [cons_append, readAll, readAll, Option.bind_assoc]
    exact congrArg _ (funext fun r => ih r)

namespace XMLWriter

/-! ### Orderly calls -/

/-- The contexts that the next element starts with. -/
def opening (w : XMLWriter) : List Context :=
  if w.nsContextPushed then w.naming.contexts else pushContext w.naming.contexts

def Settled (cs : List Context) (a : Attribute) : Prop :=
  a.localName = [] ∨ a.namespaceURI = [] ∨
    getURI cs (givenPrefix cs a.qname a.namespaceURI) = a.namespaceURI

/-- The prefix is, or will be, the one that the namespace leads back to. -/
def Returns (cs : List Context) (pfx uri : XMLString) : Prop :=
  getPrefix cs uri = pfx ∨
    uri ≠ [] ∧ getURI cs pfx ≠ uri ∧
      ∀ ctx ∈ cs.head?, ctx.lookup pfx = none ∧ ∀ e ∈ ctx, e.2 ≠ uri

/-- No prefix is one that the writer will generate, and if there is a prefix in the qualified
name of an element, then the namespace leads back to it. -/
def Nameable (s : Naming) (namespaceURI localName qname : XMLString)
    (attributes : List Attribute) : Prop :=
  (∀ k, s.count < k → (Name.split qname).1 ≠ generated k) ∧
  (∀ a ∈ attributes, a.localName ≠ [] → ∀ k, s.count < k →
    (Name.split a.qname).1 ≠ generated k) ∧
  (localName ≠ [] → qname ≠ [] → localName ≠ qname → (Name.split qname).1 ≠ [] →
    (∀ a ∈ attributes, Settled s.contexts a) ∧
      Returns s.contexts (Name.split qname).1 namespaceURI)

def First (w : XMLWriter) : Prop := w.depth = 0 → w.elementCount = 0

def Orderly (w : XMLWriter) : Event → Prop
  | .startElement uri localName qname attributes =>
    First w ∧ Nameable ⟨w.opening, w.naming.count⟩ uri localName qname attributes
  | .endElement uri localName qname =>
    w.nsContextPushed = false ∧ ∀ name ∈ w.elementStack.head?, name.namespaceURI = uri ∧
      name.localName = localName ∧ (localName = [] → name.qname = qname)
  | .emptyElement _ _ _ _ => First w
  | .dataElement uri localName qname data _ =>
    First w ∧ (data ≠ [] → Nameable ⟨w.opening, w.naming.count⟩ uri localName qname [])
  | .characters data => data ≠ [] → 0 < w.depth
  | .startPrefixMapping pfx _ => ∀ k, w.naming.count < k → pfx ≠ generated k

/-! ### Generated prefixes -/

theorem generated_ne_nil (k : ℕ) : generated k ≠ [] := by simp [generated]

variable {k : ℕ} {localName name qname : XMLString} {s' : Naming}

theorem generated_injective (h : generated j = generated k) : j = k := by
  obtain ⟨ds, hds, hdec⟩ := NumberFormatter.format_eq (j : ℤ)
  obtain ⟨ds', hds', hdec'⟩ := NumberFormatter.format_eq (k : ℤ)
  have heq : ds = ds' := by
    have hfor := append_cancel_left h
    rwa [hds, hds', if_neg (by omega), if_neg (by omega)] at hfor
  have hval := hdec.value
  rw [heq, hdec'.value] at hval
  simpa using hval.symm

/-- No declared prefix is one that the writer will generate. -/
def Fresh (s : Naming) : Prop :=
  ∀ ctx ∈ s.contexts, ∀ e ∈ ctx, ∀ k, s.count < k → e.1 ≠ generated k

variable {s : Naming} {cs : List Context}

section

variable (hs : Fresh s)
include hs

theorem Fresh.lookup_generated (hctx : ctx ∈ s.contexts) (hk : s.count < k) :
    ctx.lookup (generated k) = none := by
  cases hlk : ctx.lookup (generated k) with
  | none => rfl
  | some u => exact absurd rfl (hs ctx hctx _ (SortedAssoc.mem_of_lookup hlk) k hk)

theorem Fresh.getPrefix_ne (uri : XMLString) (hk : s.count < k) :
    getPrefix s.contexts uri ≠ generated k := by
  rcases getPrefix_eq_nil_or_mem s.contexts uri with hnil | ⟨ctx, hctx, hmem⟩
  · rw [hnil]
    exact (generated_ne_nil k).symm
  · exact hs ctx hctx _ hmem k hk

theorem Fresh.givenPrefix_ne (uri : XMLString) (hk : s.count < k)
    (hq : (Name.split qname).1 ≠ generated k) : givenPrefix s.contexts qname uri ≠ generated k := by
  rw [givenPrefix]
  split_ifs
  · exact hs.getPrefix_ne uri hk
  · exact hq

theorem Fresh.declarePrefix (hn : s.count ≤ n) (hpfx : ∀ k, n < k → pfx ≠ generated k) :
    Fresh ⟨NamespaceSupport.declarePrefix s.contexts pfx uri, n⟩ := by
  have hold : ∀ ctx ∈ s.contexts, ∀ e ∈ ctx, ∀ k, n < k → e.1 ≠ generated k :=
    fun ctx hctx e he k hk => hs ctx hctx e he k (Nat.lt_of_le_of_lt hn hk)
  generalize s.contexts = cs at hold
  cases cs with
  | nil => exact hold
  | cons c cs =>
    obtain ⟨hc, hcs⟩ := forall_mem_cons.mp hold
    refine forall_mem_cons.mpr ⟨fun e he k hk => ?_, hcs⟩
    rcases mem_declare he with rfl | he
    · exact hpfx k hk
    · exact hc e he k hk

theorem Fresh.declareUnique (uri : XMLString) : Fresh (XMLWriter.declareUnique s uri).1 := by
  refine hs.declarePrefix (Nat.le_succ _) fun k hk heq => ?_
  exact Nat.ne_of_lt hk (generated_injective heq)

theorem Fresh.declareMissing (hpfx : ∀ k, s.count < k → pfx ≠ generated k) :
    Fresh (XMLWriter.declareMissing s pfx uri) := by
  rw [XMLWriter.declareMissing]
  split_ifs
  · exact hs.declarePrefix le_rfl hpfx
  · exact hs

end

/-! ### Naming changes the innermost context only -/

/-- The contexts are those of `s` but for the innermost one. -/
def Grows (s s' : Naming) : Prop :=
  s.count ≤ s'.count ∧ ∀ c cs, s.contexts = c :: cs → ∃ c', s'.contexts = c' :: cs

theorem Grows.refl (s : Naming) : Grows s s := ⟨le_rfl, fun c _ h => ⟨c, h⟩⟩

theorem Grows.trans (h : Grows s s') (h' : Grows s' s'') : Grows s s'' := by
  refine ⟨h.1.trans h'.1, fun c cs hcs => ?_⟩
  obtain ⟨c', hcs'⟩ := h.2 c cs hcs
  exact h'.2 c' cs hcs'

theorem grows_declarePrefix (hn : s.count ≤ n) (pfx uri : XMLString) :
    Grows s ⟨declarePrefix s.contexts pfx uri, n⟩ := by
  refine ⟨hn, fun c cs hcs => ⟨declare c pfx uri, ?_⟩⟩
  rw [hcs]
  rfl

theorem grows_declareMissing (s : Naming) (pfx uri : XMLString) :
    Grows s (declareMissing s pfx uri) := by
  rw [declareMissing]
  split_ifs
  · exact grows_declarePrefix le_rfl pfx uri
  · exact .refl s

theorem grows_declareAttribute (s : Naming) (a : Attribute) : Grows s (declareAttribute s a) := by
  rw [declareAttribute]
  split_ifs
  · exact .refl s
  · exact (grows_declarePrefix (Nat.le_succ _) _ _).trans (grows_declareMissing _ _ _)
  · exact grows_declareMissing _ _ _

theorem grows_declareAttributeNamespaces (s : Naming) (attributes : List Attribute) :
    Grows s (declareAttributeNamespaces s attributes) := by
  induction attributes generalizing s with
  | nil => exact .refl s
  | cons a attributes ih => exact (grows_declareAttribute s a).trans (ih _)

theorem grows_elementName {s' : Naming}
    (h : elementName s uri localName qname = .ok (s', name)) : Grows s s' := by
  rw [elementName] at h
  split_ifs at h
  all_goals cases h
  · exact grows_declarePrefix (Nat.le_succ _) _ _
  · exact .refl s
  · exact .refl s
  · exact grows_declareMissing _ _ _

theorem Fresh.declareAttribute (hs : Fresh s)
    (ha : a.localName ≠ [] → ∀ k, s.count < k → (Name.split a.qname).1 ≠ generated k) :
    Fresh (XMLWriter.declareAttribute s a) := by
  rw [XMLWriter.declareAttribute]
  split_ifs with hloc
  · exact hs
  · refine (hs.declareUnique _).declareMissing fun k hk heq => ?_
    exact Nat.ne_of_lt hk (generated_injective heq)
  · exact hs.declareMissing fun k hk => hs.givenPrefix_ne _ hk (ha hloc k hk)

theorem Fresh.declareAttributeNamespaces (hs : Fresh s)
    (ha : ∀ a ∈ attributes, a.localName ≠ [] → ∀ k, s.count < k →
      (Name.split a.qname).1 ≠ generated k) :
    Fresh (XMLWriter.declareAttributeNamespaces s attributes) := by
  induction attributes generalizing s with
  | nil => exact hs
  | cons a attributes ih =>
    refine ih (hs.declareAttribute (ha a mem_cons_self)) fun b hb hloc k hk => ?_
    exact ha b (mem_cons_of_mem a hb) hloc k
      (Nat.lt_of_le_of_lt (grows_declareAttribute s a).1 hk)

theorem declareAttribute_of_settled (ha : Settled s.contexts a) : declareAttribute s a = s := by
  rw [declareAttribute]
  by_cases hloc : a.localName = []
  · rw [if_pos hloc]
  rw [if_neg hloc]
  by_cases huri : a.namespaceURI = []
  · rw [if_neg fun h => h.2.1 huri, declareMissing, if_neg fun h => h.2 huri]
  have hget := (ha.resolve_left hloc).resolve_left huri
  have hmap := isMapped_of_getURI hget huri
  rw [if_neg (by simp [hmap]), declareMissing, hget, if_neg]
  rintro ⟨h | h, -⟩
  · exact huri h
  · exact h rfl

theorem declareAttributeNamespaces_of_settled (ha : ∀ a ∈ attributes, Settled s.contexts a) :
    declareAttributeNamespaces s attributes = s := by
  induction attributes with
  | nil => rfl
  | cons a attributes ih =>
    rw [declareAttributeNamespaces, foldl_cons, declareAttribute_of_settled (ha a mem_cons_self)]
    exact ih fun b hb => ha b (mem_cons_of_mem a hb)

/-! ### The names of an element -/

theorem getPrefix_declareMissing (hcs : s.contexts ≠ []) (hret : Returns s.contexts pfx uri) :
    getPrefix (declareMissing s pfx uri).contexts uri = pfx := by
  obtain ⟨c, cs, hcs⟩ := exists_cons_of_ne_nil hcs
  rw [declareMissing]
  split_ifs with hdec
  · rw [hcs] at hret
    rw [hcs, declarePrefix]
    by_cases hlk : c.lookup pfx = none
    · refine getPrefix_declare hlk fun e he huri => ?_
      rcases hret with hret | ⟨-, -, hnot⟩
      · -- the first entry for the namespace would have the prefix
        rcases getPrefix_cases c cs uri with ⟨p, hmem, heq⟩ | ⟨hnone, -⟩
        · rw [hret] at heq
          exact lookup_ne_none_of_mem (heq ▸ hmem) hlk
        · exact hnone e he huri
      · exact (hnot c rfl).2 e he huri
    · rw [declare, if_neg hlk]
      rcases hret with hret | ⟨-, -, hnot⟩
      · exact hret
      · exact absurd (hnot c rfl).1 hlk
  · rcases hret with hret | ⟨huri, hget, -⟩
    · exact hret
    · refine absurd ⟨?_, huri⟩ hdec
      exact .inr hget

theorem endName_elementName (hs : Fresh s) (hcs : s.contexts ≠ [])
    (hpfx : ∀ k, s.count < k → (Name.split qname).1 ≠ generated k)
    (hret : localName ≠ [] → qname ≠ [] → localName ≠ qname → (Name.split qname).1 ≠ [] →
      Returns s.contexts (Name.split qname).1 uri)
    (h : elementName s uri localName qname = .ok (s', name)) :
    endName s'.contexts uri localName qname = name ∧ Fresh s' := by
  rw [elementName] at h
  split_ifs at h with hpl hnew hqna hboth
  · -- a prefix is generated
    cases h
    obtain ⟨c, cs, hc⟩ := exists_cons_of_ne_nil hcs
    have hlk := hs.lookup_generated (hc ▸ mem_cons_self) (Nat.lt_succ_self s.count)
    have hnot : ∀ e ∈ c, e.2 ≠ uri := by
      intro e he heq
      have hmap : isMapped s.contexts uri = true := by
        rw [hc]
        exact isMapped_cons.mpr (.inl ⟨e, he, heq⟩)
      rw [hmap] at hnew
      cases hnew.2
    refine ⟨?_, hs.declareUnique uri⟩
    rw [endName, if_pos hpl.1]
    rw [hc, declarePrefix, getPrefix_declare hlk hnot]
  · cases h
    refine ⟨?_, hs⟩
    rw [endName, if_pos hpl.1]
  · cases h
    refine ⟨?_, hs⟩
    rw [endName, if_neg (not_not.mpr hqna.2.1)]
  · cases h
    have hne : localName ≠ qname := fun heq => hpl ⟨hboth.1, .inr heq⟩
    refine ⟨?_, hs.declareMissing fun k hk => hs.givenPrefix_ne _ hk (hpfx k hk)⟩
    have hrtr : Returns s.contexts (givenPrefix s.contexts qname uri) uri := by
      rw [givenPrefix]
      split_ifs with hspl
      · exact .inl rfl
      · exact hret hboth.1 hboth.2 hne hspl
    rw [endName, if_pos hboth.1, getPrefix_declareMissing hcs hrtr]

/-! ### The reading of what has been written -/

/-- The names that the end tags of the elements will have are those that have been read, if each
is looked up in the contexts that its element was started with. -/
def Frames : List XMLString → List Name → List Context → Prop
  | [], [], _ => True
  | name :: names, n :: ns, c :: cs =>
    endName (c :: cs) n.namespaceURI n.localName n.qname = name ∧ Frames names ns cs
  | _, _, _ => False

theorem Frames.length_eq (h : Frames names ns cs) : names.length = ns.length := by
  induction names generalizing ns cs with
  | nil =>
    cases ns with
    | nil => rfl
    | cons n ns => cases h
  | cons name names ih =>
    cases ns with
    | nil => cases h
    | cons n ns =>
      cases cs with
      | nil => cases h
      | cons c cs => exact congrArg Nat.succ (ih h.2)

structure Tracks (w : XMLWriter) (r : Reading) : Prop where
  reads : Reading.start.readAll w.out = some r
  tag : w.unclosedStartTag = r.tag.isSome
  depth : w.depth = w.elementStack.length
  roots : r.roots = if w.elementCount = 0 then 0 else 1
  counted : w.elementStack ≠ [] → w.elementCount ≠ 0
  frames : ∃ c cs, w.opening = c :: cs ∧ Frames (r.tag.toList ++ r.elements) w.elementStack cs
  fresh : Fresh w.naming

variable {o : Options} {w w' : XMLWriter}

theorem Tracks.read (h : Tracks w r) (ms : List Markup) :
    Reading.start.readAll (w.out ++ ms) = r.readAll ms := by
  rw [Reading.readAll_append, h.reads]
  rfl

theorem Tracks.length_eq (h : Tracks w r) :
    (r.tag.toList ++ r.elements).length = w.elementStack.length := by
  obtain ⟨c, cs, -, hfra⟩ := h.frames
  exact hfra.length_eq

theorem Tracks.write (h : Tracks w r) (hms : r.readAll ms = some r) : Tracks (w.write ms) r :=
  { h with reads := by rw [XMLWriter.write, h.read, hms] }

theorem closeStartTag_eq (w : XMLWriter) : closeStartTag w =
    { w with
      unclosedStartTag := false
      out := w.out ++ if w.unclosedStartTag then [.gt] else [] } := by
  obtain ⟨depth, count, inFragment, content, unclosed, stack, naming, pushed, out⟩ := w
  cases unclosed with
  | true => rfl
  | false => simp [closeStartTag]

theorem prettyPrint_eq (o : Options) (w : XMLWriter) : prettyPrint o w =
    w.write (if o.prettyPrint ∧ w.contentWritten = false then [.newLine, .indent w.depth]
      else []) := by
  rw [prettyPrint]
  split_ifs
  · rfl
  · simp [write]

theorem Tracks.closeStartTag (h : Tracks w r) :
    Tracks (closeStartTag w) ⟨none, r.tag.toList ++ r.elements, r.roots⟩ := by
  rw [closeStartTag_eq]
  refine { h with reads := ?_, tag := rfl, frames := h.frames }
  rw [h.read, h.tag]
  obtain ⟨tag, elements, roots⟩ := r
  cases tag with
  | none => simp [Reading.readAll]
  | some name => simp [Reading.readAll, Reading.read]

theorem Tracks.prettyPrint (h : Tracks w r) (htag : r.tag = none) : Tracks (prettyPrint o w) r := by
  rw [prettyPrint_eq]
  refine h.write ?_
  split_ifs
  · simp [Reading.readAll, Reading.read, htag]
  · rfl

/-- The writer before a tag: the last start tag has ended, and white space may follow. -/
theorem Tracks.ready (h : Tracks w r) :
    Tracks (XMLWriter.prettyPrint o (XMLWriter.closeStartTag w))
      ⟨none, r.tag.toList ++ r.elements, r.roots⟩ :=
  h.closeStartTag.prettyPrint rfl

theorem ready_eq (o : Options) (w : XMLWriter) :
    ∃ ms, prettyPrint o (closeStartTag w) =
      { w with unclosedStartTag := false, out := w.out ++ ms } := by
  rw [prettyPrint_eq, closeStartTag_eq, write]
  exact ⟨_, congrArg _ (append_assoc _ _ _)⟩

/-! ### One call -/

theorem writeStartElement_ok (h : writeStartElement o w uri localName qname attributes = .ok w') :
    ∃ s name indent, elementName
        (declareAttributeNamespaces ⟨w.opening, w.naming.count⟩ attributes) uri localName qname =
        .ok (s, name) ∧
      w' = { w with
        nsContextPushed := false
        elementCount := w.elementCount + 1
        naming := s
        unclosedStartTag := true
        out := w.out ++ [.startTag name
          (addAttributes s.contexts (addNamespaceAttributes s.contexts) attributes) indent] } := by
  unfold writeStartElement at h
  dsimp only at h
  split at h
  · cases h
  · next s name hname =>
    split_ifs at h
    all_goals
      cases h
      exact ⟨s, name, _, hname, rfl⟩

/-- What is read of a start tag, if it is the first one or inside of an element. -/
theorem Tracks.read_startTag (h : Tracks w r) (htag : r.tag = none) (hfst : First w)
    (name : XMLString) (m : List (XMLString × XMLString)) (indent : Option ℤ) :
    Reading.start.readAll (w.out ++ [.startTag name m indent]) =
      some ⟨some name, r.elements, 1⟩ := by
  have hlen := h.length_eq
  rw [htag, Option.toList_none, nil_append] at hlen
  have hroo : (if r.elements = [] then r.roots + 1 else r.roots) = 1 := by
    rw [h.roots]
    split_ifs with hnil hcnt hcnt
    · rfl
    · refine absurd (hfst ?_) hcnt
      rw [h.depth, ← hlen, hnil]
      rfl
    · refine absurd hcnt (h.counted fun hstk => hnil ?_)
      rw [hstk] at hlen
      exact length_eq_zero_iff.mp hlen
    · rfl
  rw [h.read]
  simp [Reading.readAll, Reading.read, htag, hroo]

/-- What is left when the start tag of an element has been written. -/
theorem Tracks.writeStartElement (h : Tracks w r) (hfst : First w)
    (hok : XMLWriter.writeStartElement o (XMLWriter.prettyPrint o (XMLWriter.closeStartTag w)) uri
      localName qname attributes = .ok w') :
    ∃ s name out, XMLWriter.elementName
        (declareAttributeNamespaces ⟨w.opening, w.naming.count⟩ attributes) uri localName qname =
        .ok (s, name) ∧
      Grows ⟨w.opening, w.naming.count⟩ s ∧
      Reading.start.readAll out = some ⟨some name, r.tag.toList ++ r.elements, 1⟩ ∧
      w' = { w with
        nsContextPushed := false
        elementCount := w.elementCount + 1
        naming := s
        unclosedStartTag := true
        out := out } := by
  obtain ⟨s, name, indent, hele, rfl⟩ := writeStartElement_ok hok
  have hr := h.ready (o := o)
  obtain ⟨ms, hrdy⟩ := ready_eq o w
  rw [hrdy] at hele hr ⊢
  exact ⟨s, name, _, hele, (grows_declareAttributeNamespaces _ attributes).trans
    (grows_elementName hele), hr.read_startTag rfl hfst name _ indent, rfl⟩

theorem Tracks.fresh_opening (h : Tracks w r) : Fresh ⟨w.opening, w.naming.count⟩ := by
  unfold Fresh opening
  split_ifs
  · exact h.fresh
  · exact forall_mem_cons.mpr ⟨nofun, h.fresh⟩

theorem Tracks.elementName (h : Tracks w r)
    (hname : Nameable ⟨w.opening, w.naming.count⟩ uri localName qname attributes)
    (hok : XMLWriter.elementName
      (declareAttributeNamespaces ⟨w.opening, w.naming.count⟩ attributes) uri localName qname =
      .ok (s, name)) : endName s.contexts uri localName qname = name ∧ Fresh s := by
  obtain ⟨hq, ha, hret⟩ := hname
  have hgrw := grows_declareAttributeNamespaces ⟨w.opening, w.naming.count⟩ attributes
  obtain ⟨c, cs, hopn, -⟩ := h.frames
  obtain ⟨c', hcs⟩ := hgrw.2 c cs hopn
  refine endName_elementName (h.fresh_opening.declareAttributeNamespaces ha)
    (hcs ▸ cons_ne_nil c' cs) (fun k hk => hq k (Nat.lt_of_le_of_lt hgrw.1 hk))
    (fun h₁ h₂ h₃ h₄ => ?_) hok
  obtain ⟨hset, hrtr⟩ := hret h₁ h₂ h₃ h₄
  rw [declareAttributeNamespaces_of_settled hset]
  exact hrtr

theorem startElement_ok (h : startElement o w uri localName qname attributes = .ok w') :
    ∃ w₁, writeStartElement o (prettyPrint o (closeStartTag w)) uri localName qname attributes =
        .ok w₁ ∧
      w' = { w₁ with
        elementStack := ⟨qname, uri, localName⟩ :: w₁.elementStack
        contentWritten := false
        depth := w₁.depth + 1 } := by
  rw [startElement] at h
  split_ifs at h
  split at h
  · cases h
  · next w₁ hbeg =>
    cases h
    exact ⟨w₁, hbeg, rfl⟩

theorem emptyElement_ok (h : emptyElement o w uri localName qname attributes = .ok w') :
    ∃ w₁, writeStartElement o (prettyPrint o (closeStartTag w)) uri localName qname attributes =
        .ok w₁ ∧
      w' = { w₁ with
        contentWritten := false
        unclosedStartTag := false
        naming := { w₁.naming with contexts := popContext w₁.naming.contexts }
        out := w₁.out ++ [.slashGt] } := by
  rw [emptyElement] at h
  split_ifs at h
  split at h
  · cases h
  · next w₁ hbeg =>
    cases h
    exact ⟨w₁, hbeg, rfl⟩

/-- The markup that ends an element: `/>`, or an end tag after the end of the start tag or after
white space. -/
inductive Ending (unclosed : Bool) (name : XMLString) : List Markup → Prop
  | empty (h : unclosed = true) : Ending unclosed name [.slashGt]
  | canonical (h : unclosed = true) : Ending unclosed name [.gt, .endTag name]
  | plain (h : unclosed = false) : Ending unclosed name [.endTag name]
  | pretty (h : unclosed = false) (depth : ℤ) :
    Ending unclosed name [.newLine, .indent depth, .endTag name]

theorem finishElement_eq (o : Options) (w : XMLWriter) (uri localName qname : XMLString) :
    ∃ ms, Ending w.unclosedStartTag (endName w.naming.contexts uri localName qname) ms ∧
      finishElement o w uri localName qname = { w with
        unclosedStartTag := false
        naming := { w.naming with contexts := popContext w.naming.contexts }
        out := w.out ++ ms } := by
  obtain ⟨canonical, declaration, pretty, attributes⟩ := o
  obtain ⟨depth, count, inFragment, content, unclosed, stack, naming, pushed, out⟩ := w
  cases unclosed with
  | true =>
    cases canonical with
    | true =>
      refine ⟨_, .canonical rfl, ?_⟩
      simp [finishElement, writeEndElement, closeStartTag, write]
    | false => exact ⟨_, .empty rfl, rfl⟩
  | false =>
    by_cases hpre : pretty = true ∧ content = false
    · refine ⟨_, .pretty rfl depth, ?_⟩
      simp [finishElement, writeEndElement, closeStartTag, prettyPrint, write, hpre]
    · refine ⟨_, .plain rfl, ?_⟩
      simp [finishElement, writeEndElement, closeStartTag, prettyPrint, write, hpre]

theorem finishRoot_eq (o : Options) (w : XMLWriter) :
    ∃ ms, (ms = [] ∨ ms = [.newLine]) ∧ finishRoot o w = { w with out := w.out ++ ms } := by
  rw [finishRoot]
  split_ifs
  · exact ⟨_, .inr rfl, rfl⟩
  · exact ⟨_, .inl rfl, by rw [append_nil]⟩

theorem endElement_ok (h : endElement o w uri localName qname = .ok w') :
    ∃ name names ms ms', w.elementStack = name :: names ∧
      Ending w.unclosedStartTag (endName w.naming.contexts uri localName qname) ms ∧
      (ms' = [] ∨ ms' = [.newLine]) ∧
      w' = { w with
        elementStack := names
        depth := w.depth - 1
        unclosedStartTag := false
        naming := { w.naming with contexts := popContext w.naming.contexts }
        contentWritten := false
        out := w.out ++ (ms ++ ms') } := by
  rw [endElement] at h
  split_ifs at h with hdep
  cases hstk : w.elementStack with
  | nil =>
    rw [hstk] at h
    cases h
  | cons name names =>
    rw [hstk] at h
    dsimp only at h
    split_ifs at h with hname
    obtain ⟨ms, hms, hfin⟩ := finishElement_eq o
      { w with elementStack := names, depth := w.depth - 1 } uri localName qname
    rw [hfin] at h
    obtain ⟨ms', hms', hroot⟩ := finishRoot_eq o
      { w with
        elementStack := names
        depth := w.depth - 1
        unclosedStartTag := false
        naming := { w.naming with contexts := popContext w.naming.contexts }
        contentWritten := false
        out := w.out ++ ms }
    refine ⟨name, names, ms, ms', rfl, hms, hms', ?_⟩
    cases h
    rw [← append_assoc]
    exact hroot

theorem Tracks.startElement (h : Tracks w r) (hfst : First w)
    (hname : Nameable ⟨w.opening, w.naming.count⟩ uri localName qname attributes)
    (hok : startElement o w uri localName qname attributes = .ok w') :
    ∃ r', Tracks w' r' ∧ w'.nsContextPushed = false ∧ 0 < w'.depth ∧
      w'.elementStack.head? = some ⟨qname, uri, localName⟩ := by
  obtain ⟨w₁, hbeg, rfl⟩ := startElement_ok hok
  obtain ⟨s, name, out, hele, hgrw, hrd, rfl⟩ := h.writeStartElement hfst hbeg
  obtain ⟨hend, hfr⟩ := h.elementName hname hele
  obtain ⟨c, cs, hcs, hfra⟩ := h.frames
  obtain ⟨c', hcs'⟩ := hgrw.2 c cs hcs
  refine ⟨⟨some name, r.tag.toList ++ r.elements, 1⟩, ?_, rfl, ?_, rfl⟩
  · exact
      { reads := hrd
        tag := rfl
        depth := by
          rw [h.depth, length_cons]
          rfl
        roots := (if_neg (Nat.succ_ne_zero _)).symm
        counted := fun _ => Nat.succ_ne_zero _
        frames := ⟨[], c' :: cs, congrArg pushContext hcs', by rw [← hcs']; exact hend, hfra⟩
        fresh := hfr }
  · dsimp only
    rw [h.depth]
    exact Int.lt_add_one_of_le (Int.natCast_nonneg _)

theorem Tracks.emptyElement (h : Tracks w r) (hfst : First w)
    (hok : emptyElement o w uri localName qname attributes = .ok w') : ∃ r', Tracks w' r' := by
  obtain ⟨w₁, hbeg, rfl⟩ := emptyElement_ok hok
  obtain ⟨s, name, out, -, hgrw, hrd, rfl⟩ := h.writeStartElement hfst hbeg
  obtain ⟨c, cs, hcs, hfra⟩ := h.frames
  obtain ⟨c', hcs'⟩ := hgrw.2 c cs hcs
  have hpop : popContext s.contexts = cs := by rw [hcs']; rfl
  refine ⟨⟨none, r.tag.toList ++ r.elements, 1⟩, ?_⟩
  exact
    { reads := by
        rw [Reading.readAll_append, hrd]
        rfl
      tag := rfl
      depth := h.depth
      roots := (if_neg (Nat.succ_ne_zero _)).symm
      counted := fun _ => Nat.succ_ne_zero _
      frames := ⟨[], cs, congrArg pushContext hpop, hfra⟩
      fresh := fun ctx hctx e he k hk => by
        -- the context of the element is gone
        rw [hpop] at hctx
        have hmem : ctx ∈ w.naming.contexts := by
          rw [opening] at hcs
          split_ifs at hcs
          · rw [hcs]
            exact mem_cons_of_mem c hctx
          · rw [← (List.cons.inj hcs).2] at hctx
            exact hctx
        exact h.fresh ctx hmem e he k (Nat.lt_of_le_of_lt hgrw.1 hk) }

theorem Tracks.endElement (h : Tracks w r) (hpus : w.nsContextPushed = false)
    (hnam : ∀ name ∈ w.elementStack.head?, name.namespaceURI = uri ∧
      name.localName = localName ∧ (localName = [] → name.qname = qname))
    (hok : endElement o w uri localName qname = .ok w') : ∃ r', Tracks w' r' := by
  obtain ⟨name, names, ms, ms', hstk, hms, hms', rfl⟩ := endElement_ok hok
  obtain ⟨c, cs, hcs, hfra⟩ := h.frames
  have hopn : w.opening = [] :: w.naming.contexts := by
    rw [opening, hpus]
    rfl
  obtain ⟨-, rfl⟩ := List.cons.inj (hopn.symm.trans hcs)
  obtain ⟨huri, hloc, hqna⟩ := hnam name (by rw [hstk]; rfl)
  -- the innermost element, with the contexts that it was started with
  obtain ⟨n, ns, hread⟩ : ∃ n ns, r.tag.toList ++ r.elements = n :: ns := by
    refine exists_cons_of_ne_nil fun hnil => ?_
    rw [hnil, hstk] at hfra
    exact hfra
  rw [hread, hstk] at hfra
  obtain ⟨c, cs, hctx⟩ : ∃ c cs, w.naming.contexts = c :: cs := by
    refine exists_cons_of_ne_nil fun hnil => ?_
    rw [hnil] at hfra
    exact hfra
  rw [hctx] at hfra
  have hend : endName w.naming.contexts uri localName qname = n := by
    rw [hctx, ← hfra.1, huri, hloc, endName, endName]
    split_ifs with hnil
    · rfl
    · exact (hqna (not_not.mp hnil)).symm
  rw [hend] at hms
  have hrd : r.readAll (ms ++ ms') = some ⟨none, ns, r.roots⟩ := by
    have hnew : Reading.readAll ⟨none, ns, r.roots⟩ ms' = some ⟨none, ns, r.roots⟩ := by
      rcases hms' with rfl | rfl
      · rfl
      · rfl
    rw [Reading.readAll_append]
    have htag := h.tag
    suffices hms : r.readAll ms = some ⟨none, ns, r.roots⟩ by rw [hms]; exact hnew
    obtain ⟨tag, elements, roots⟩ := r
    cases hms with
    | empty hunc | canonical hunc =>
      cases tag with
      | none => exact absurd (hunc.symm.trans htag) (by simp)
      | some t =>
        cases hread
        simp [Reading.readAll, Reading.read]
    | plain hunc | pretty hunc depth =>
      cases tag with
      | none =>
        obtain rfl : elements = n :: ns := hread
        simp [Reading.readAll, Reading.read]
      | some t => exact absurd (hunc.symm.trans htag) (by simp)
  have hpop : popContext w.naming.contexts = cs := by rw [hctx]; rfl
  refine ⟨⟨none, ns, r.roots⟩, ?_⟩
  exact
    { reads := by rw [h.read, hrd]
      tag := rfl
      depth := by
        rw [h.depth, hstk, length_cons, Int.natCast_succ, Int.add_sub_cancel]
      roots := h.roots
      counted := fun _ => h.counted (by rw [hstk]; exact cons_ne_nil _ _)
      frames := ⟨[], cs, by rw [opening, hpus]; exact congrArg pushContext hpop, hfra.2⟩
      fresh := fun ctx hmem => h.fresh ctx (mem_of_mem_tail hmem) }

theorem Tracks.characters (h : Tracks w r) {data : XMLString} (hdep : data ≠ [] → 0 < w.depth)
    (hok : characters w data = .ok w') :
    ∃ r', Tracks w' r' ∧ w'.nsContextPushed = w.nsContextPushed ∧
      w'.elementStack = w.elementStack := by
  rw [XMLWriter.characters] at hok
  split_ifs at hok with hnil
  · cases hok
    exact ⟨r, h, rfl, rfl⟩
  cases hok
  have hcls := h.closeStartTag
  have hele : r.tag.toList ++ r.elements ≠ [] := by
    intro hemp
    have hpos := hdep hnil
    rw [h.depth, ← h.length_eq, hemp] at hpos
    exact absurd hpos (by simp)
  refine ⟨⟨none, r.tag.toList ++ r.elements, r.roots⟩, ?_, ?_, ?_⟩
  · refine { hcls with reads := ?_ }
    rw [XMLWriter.write, hcls.read]
    exact congrArg (Option.bind · some) (if_pos ⟨rfl, hele⟩)
  · rw [closeStartTag_eq]
    rfl
  · rw [closeStartTag_eq]
    rfl

theorem startPrefixMapping_eq (h : pfx ≠ xmlPrefix) (w : XMLWriter) (uri : XMLString) :
    startPrefixMapping w pfx uri = { w with
      nsContextPushed := true
      naming := ⟨declarePrefix w.opening pfx uri, w.naming.count⟩ } := by
  rw [startPrefixMapping, if_neg h]
  rfl

theorem Tracks.startPrefixMapping (h : Tracks w r)
    (hpfx : ∀ k, w.naming.count < k → pfx ≠ generated k) :
    Tracks (startPrefixMapping w pfx uri) r := by
  by_cases hxml : pfx = xmlPrefix
  · rw [XMLWriter.startPrefixMapping, if_pos hxml]
    exact h
  rw [startPrefixMapping_eq hxml]
  obtain ⟨c, cs, hcs, hfra⟩ := h.frames
  refine { h with frames := ⟨declare c pfx uri, cs, ?_, hfra⟩, fresh := ?_ }
  · change declarePrefix w.opening pfx uri = _
    rw [hcs]
    rfl
  · exact h.fresh_opening.declarePrefix le_rfl hpfx

theorem dataElement_ok {attributes : List (XMLString × XMLString)}
    (hdata : data ≠ []) (h : dataElement o w uri localName qname data attributes = .ok w') :
    ∃ w₁ w₂, startElement o w uri localName qname
        ((attributes.filter fun a => a.1 ≠ []).map fun a => ⟨[], [], a.1, a.2⟩) = .ok w₁ ∧
      characters w₁ data = .ok w₂ ∧ endElement o w₂ uri localName qname = .ok w' := by
  rw [dataElement, if_neg hdata] at h
  obtain ⟨w₁, hbeg, h⟩ := Except.bind_eq_ok.mp h
  obtain ⟨w₂, hchs, hend⟩ := Except.bind_eq_ok.mp h
  exact ⟨w₁, w₂, hbeg, hchs, hend⟩

theorem Tracks.perform (h : Tracks w r) {e : Event} (he : Orderly w e)
    (hok : perform o w e = .ok w') : ∃ r', Tracks w' r' := by
  cases e with
  | startElement uri localName qname attributes =>
    obtain ⟨r', hr', -⟩ := h.startElement he.1 he.2 hok
    exact ⟨r', hr'⟩
  | endElement uri localName qname => exact h.endElement he.1 he.2 hok
  | emptyElement uri localName qname attributes => exact h.emptyElement he hok
  | dataElement uri localName qname data attributes =>
    by_cases hdata : data = []
    · rw [XMLWriter.perform, dataElement, if_pos hdata] at hok
      exact h.emptyElement he.1 hok
    obtain ⟨w₁, w₂, hbeg, hchs, hend⟩ := dataElement_ok hdata hok
    obtain ⟨hq, -, hret⟩ := he.2 hdata
    have hname : Nameable ⟨w.opening, w.naming.count⟩ uri localName qname
        ((attributes.filter fun a => a.1 ≠ []).map fun a => ⟨[], [], a.1, a.2⟩) := by
      -- these attributes have no local name
      refine ⟨hq, fun a ha hloc => ?_, fun h₁ h₂ h₃ h₄ => ⟨fun a ha => ?_, ?_⟩⟩
      · obtain ⟨e, -, rfl⟩ := mem_map.mp ha
        exact absurd rfl hloc
      · obtain ⟨e, -, rfl⟩ := mem_map.mp ha
        exact .inl rfl
      · exact (hret h₁ h₂ h₃ h₄).2
    obtain ⟨r₁, h₁, hpus, hdep, hstk⟩ := h.startElement he.1 hname hbeg
    obtain ⟨r₂, h₂, hpus₂, hstk₂⟩ := h₁.characters (fun _ => hdep) hchs
    refine h₂.endElement (hpus₂.trans hpus) (fun name hmem => ?_) hend
    rw [hstk₂, hstk] at hmem
    cases hmem
    exact ⟨rfl, rfl, fun _ => rfl⟩
  | characters data =>
    obtain ⟨r', hr', -⟩ := h.characters he hok
    exact ⟨r', hr'⟩
  | startPrefixMapping pfx uri =>
    cases hok
    exact ⟨r, h.startPrefixMapping he⟩

/-! ### Documents -/

theorem started_eq (o : Options) : started o = { new with
    depth := 0
    contentWritten := true
    naming := ⟨pushContext reset, 0⟩
    out := if o.writeXMLDeclaration then
      .declaration :: (if o.prettyPrint then [.newLine] else []) else [] } := rfl

theorem Tracks.start (o : Options) : Tracks (started o) Reading.start where
  reads := by
    rw [started_eq]
    split_ifs
    · rfl
    · rfl
    · rfl
  tag := rfl
  depth := rfl
  roots := rfl
  counted := fun h => absurd rfl h
  frames := ⟨[], pushContext reset, rfl, trivial⟩
  fresh := by
    have hhead : ∀ ctx ∈ pushContext reset, ∀ e ∈ ctx, e.1.head? ≠ some 0x6E := by decide
    intro ctx hctx e he k _ heq
    apply hhead ctx hctx e he
    rw [heq]
    rfl

/-- Documents of orderly calls are balanced: one root element, character data only inside of it,
and every end tag with the name of its start tag. -/
theorem balanced (o : Options) (w w' : XMLWriter) (hreached : (document o).ReachedBy Orderly w)
    (hend : endDocument w = .ok w') : Balanced w'.out := by
  have htra : ∃ r, Tracks w r := by
    refine Machine.ReachedBy.invariant (I := fun w => ∃ r, Tracks w r) ⟨_, Tracks.start o⟩ ?_
      hreached
    rintro w e w' ⟨r, h⟩ he hstep
    exact h.perform he (Except.toOption_eq_some.mp hstep)
  obtain ⟨r, h⟩ := htra
  rw [endDocument] at hend
  split_ifs at hend with hdep hcnt
  cases hend
  -- there are no open elements, so nothing remains to be read
  have hstk : w.elementStack = [] := by
    refine length_eq_zero_iff.mp ?_
    have hd := h.depth
    omega
  have hlen := h.length_eq
  rw [hstk] at hlen
  have hnil := length_eq_zero_iff.mp hlen
  obtain ⟨htag, hele⟩ := append_eq_nil_iff.mp hnil
  have hroo := h.roots
  rw [if_neg hcnt] at hroo
  obtain ⟨tag, elements, roots⟩ := r
  have htag : tag = none := by
    cases tag with
    | none => rfl
    | some t => cases htag
  rw [Balanced, h.reads, htag, show elements = [] from hele, show roots = 1 from hroo]

def plainOptions : Options := ⟨false, false, false, false⟩

/-- A root element in a namespace, with a generated prefix, and text in it. -/
theorem balanced_of_root : ∃ w w', (document plainOptions).ReachedBy Orderly w ∧
    endDocument w = .ok w' ∧ Balanced w'.out := by
  have hname : ∀ s, Nameable s [0x75] [0x78] [] [] := fun s =>
    ⟨fun k _ => (generated_ne_nil k).symm, ⟨by simp, fun _ h => absurd rfl h⟩⟩
  let tag : List Markup := [.startTag [0x6E, 0x73, 0x31, 0x3A, 0x78]
    [([0x78, 0x6D, 0x6C, 0x6E, 0x73, 0x3A, 0x6E, 0x73, 0x31], [0x75])] none]
  have h₁ : (document plainOptions).ReachedBy Orderly
      ⟨1, 1, false, false, true, [⟨[], [0x75], [0x78]⟩],
        ⟨[([0x6E, 0x73, 0x31], [0x75])] :: pushContext reset, 1⟩, false, tag⟩ :=
    .step (a := .startElement [0x75] [0x78] [] []) .start ⟨fun _ => rfl, hname _⟩ rfl
  have h₂ : (document plainOptions).ReachedBy Orderly
      ⟨1, 1, false, true, false, [⟨[], [0x75], [0x78]⟩],
        ⟨[([0x6E, 0x73, 0x31], [0x75])] :: pushContext reset, 1⟩, false,
        tag ++ [.gt, .characters [0x74]]⟩ :=
    .step (a := .characters [0x74]) h₁ (fun _ => by decide) rfl
  have h₃ : (document plainOptions).ReachedBy Orderly
      ⟨0, 1, false, false, false, [], ⟨pushContext reset, 1⟩, false,
        tag ++ [.gt, .characters [0x74], .endTag [0x6E, 0x73, 0x31, 0x3A, 0x78]]⟩ := by
    refine .step (a := .endElement [0x75] [0x78] []) h₂ ⟨rfl, fun name hmem => ?_⟩ rfl
    cases hmem
    exact ⟨rfl, rfl, fun _ => rfl⟩
  exact ⟨_, _, h₃, rfl, balanced plainOptions _ _ h₃ rfl⟩

/-- Two elements without content are both written as roots; and a namespace with two prefixes
gives the element `b:x` the end tag of `a:x`. -/
theorem unbalanced :
    (((document plainOptions).exec (started plainOptions)
      [.emptyElement [] [0x78] [] [], .emptyElement [] [0x79] [] []]).bind fun w =>
        (endDocument w).toOption).map (fun w => (w.out, decide (Balanced w.out))) =
      some ([.startTag [0x78] [] none, .slashGt, .startTag [0x79] [] none, .slashGt], false) ∧
    (((document plainOptions).exec (started plainOptions)
      [.startPrefixMapping [0x61] [0x75], .startPrefixMapping [0x62] [0x75],
        .startElement [0x75] [0x78] [0x62, 0x3A, 0x78] [], .characters [0x74],
        .endElement [0x75] [0x78] [0x62, 0x3A, 0x78]]).bind fun w =>
          (endDocument w).toOption).map (fun w => (w.out, decide (Balanced w.out))) =
      some ([.startTag [0x62, 0x3A, 0x78] [([0x78, 0x6D, 0x6C, 0x6E, 0x73, 0x3A, 0x61], [0x75]),
          ([0x78, 0x6D, 0x6C, 0x6E, 0x73, 0x3A, 0x62], [0x75])] none,
        .gt, .characters [0x74], .endTag [0x61, 0x3A, 0x78]], false) := by decide

end XMLWriter

end Poco.XML
