import Poco.Lib.Machine
import Poco.NumberFormatter
import Poco.XML.NamespaceSupport
import Mathlib.Data.Int.Notation

/-!
# XMLWriter

The writer of `XML/src/XMLWriter.cpp`, as far as elements, their attributes and namespaces, and
character data go.  Characters are escaped in the output, which is left out; those that cannot be
written make the call throw.

## Main definitions

* `Markup`: a start tag up to its last attribute, the `>` or `/>` that ends it, an end tag,
  character data, white space.
* `Naming`: the part of the state that gives names their prefixes: `_namespaces` and `_prefix`.
* `XMLWriter`: `XMLWriter`, with what it has written.
* `writeStartElement`, `writeEndElement`: the tags of an element.
* `perform`, `document`: the calls between `startDocument` and `endDocument`, those that do not
  throw.
-/

namespace Poco.XML

open NamespaceSupport

/-! ### Names -/

structure Name where
  qname : XMLString
  namespaceURI : XMLString
  localName : XMLString
deriving DecidableEq

namespace Name

def split (qname : XMLString) : XMLString × XMLString :=
  if 0x3A ∈ qname then
    (qname.takeWhile (· != 0x3A), (qname.dropWhile (· != 0x3A)).tail)
  else ([], qname)

def equalsWeakly (n : Name) (qname namespaceURI localName : XMLString) : Prop :=
  (n.qname = qname ∧ qname ≠ []) ∨
    (n.namespaceURI = namespaceURI ∧ n.localName = localName ∧ n.localName ≠ [])

instance (n : Name) (qname namespaceURI localName : XMLString) :
    Decidable (n.equalsWeakly qname namespaceURI localName) :=
  inferInstanceAs (Decidable (_ ∨ _))

end Name

structure Attribute where
  namespaceURI : XMLString
  localName : XMLString
  qname : XMLString
  value : XMLString

/-! ### The writer -/

structure Options where
  canonicalXML : Bool
  writeXMLDeclaration : Bool
  prettyPrint : Bool
  prettyPrintAttributes : Bool

inductive Markup
  | declaration
  /-- `<`, the name, and the attributes, each on a line of its own with this indentation if
  there is one. -/
  | startTag (name : XMLString) (attributes : List (XMLString × XMLString)) (indent : Option ℤ)
  | gt
  | slashGt
  /-- `</`, the name, and `>`. -/
  | endTag (name : XMLString)
  /-- Character data, escaped. -/
  | characters (data : XMLString)
  | newLine
  | indent (depth : ℤ)
deriving DecidableEq

inductive XMLException
  | nestedDocument
  | noMatchingEndTag
  | noDocumentElement
  | secondRootElement
  | noUnclosedTag
  | endTagMismatch
  | tagMismatch
  | invalidCharacter
deriving DecidableEq

structure Naming where
  contexts : List Context
  count : ℕ

structure XMLWriter where
  depth : ℤ
  elementCount : ℕ
  inFragment : Bool
  contentWritten : Bool
  unclosedStartTag : Bool
  elementStack : List Name
  naming : Naming
  nsContextPushed : Bool
  out : List Markup

namespace XMLWriter

def new : XMLWriter := ⟨-1, 0, false, false, false, [], ⟨reset, 0⟩, false, []⟩

def write (w : XMLWriter) (ms : List Markup) : XMLWriter := { w with out := w.out ++ ms }

/-! ### Prefixes -/

/-- The generated prefix with this number: `ns1`, `ns2`, … -/
def generated (k : ℕ) : XMLString := [0x6E, 0x73] ++ NumberFormatter.format k

/-- `uniquePrefix`, and its declaration. -/
def declareUnique (s : Naming) (uri : XMLString) : Naming × XMLString :=
  let pfx := generated (s.count + 1)
  (⟨declarePrefix s.contexts pfx uri, s.count + 1⟩, pfx)

/-- The last statement of the loop of `declareAttributeNamespaces` and of a branch of
`writeStartElement`: the prefix is declared if it stands for something else. -/
def declareMissing (s : Naming) (pfx namespaceURI : XMLString) : Naming :=
  let uri := getURI s.contexts pfx
  if (uri = [] ∨ uri ≠ namespaceURI) ∧ namespaceURI ≠ [] then
    { s with contexts := declarePrefix s.contexts pfx namespaceURI }
  else s

/-- The prefix in a qualified name or, if there is none, that of the namespace. -/
def givenPrefix (cs : List Context) (qname namespaceURI : XMLString) : XMLString :=
  if (Name.split qname).1 = [] then getPrefix cs namespaceURI else (Name.split qname).1

/-- One round of `declareAttributeNamespaces`. -/
def declareAttribute (s : Naming) (a : Attribute) : Naming :=
  if a.localName = [] then s
  else if givenPrefix s.contexts a.qname a.namespaceURI = [] ∧ a.namespaceURI ≠ [] ∧
      isMapped s.contexts a.namespaceURI = false then
    declareMissing (declareUnique s a.namespaceURI).1 (declareUnique s a.namespaceURI).2
      a.namespaceURI
  else declareMissing s (givenPrefix s.contexts a.qname a.namespaceURI) a.namespaceURI

def declareAttributeNamespaces (s : Naming) (attributes : List Attribute) : Naming :=
  attributes.foldl declareAttribute s

def writeName (pfx localName : XMLString) : XMLString :=
  if pfx = [] then localName else pfx ++ [0x3A] ++ localName

def elementName (s : Naming) (namespaceURI localName qname : XMLString) :
    Except XMLException (Naming × XMLString) :=
  if localName ≠ [] ∧ (qname = [] ∨ localName = qname) then
    if namespaceURI ≠ [] ∧ isMapped s.contexts namespaceURI = false then
      let (s, pfx) := declareUnique s namespaceURI
      .ok (s, writeName pfx localName)
    else .ok (s, writeName (getPrefix s.contexts namespaceURI) localName)
  else if namespaceURI = [] ∧ localName = [] ∧ qname ≠ [] then .ok (s, qname)
  else if localName ≠ [] ∧ qname ≠ [] then
    let pfx := givenPrefix s.contexts qname namespaceURI
    .ok (declareMissing s pfx namespaceURI, writeName pfx localName)
  else .error .tagMismatch

def endName (cs : List Context) (namespaceURI localName qname : XMLString) : XMLString :=
  if localName ≠ [] then writeName (getPrefix cs namespaceURI) localName else qname

/-! ### Attributes -/

/-- The name of the attribute that declares a prefix. -/
def xmlnsName (pfx : XMLString) : XMLString :=
  if pfx = [] then xmlnsPrefix else xmlnsPrefix ++ [0x3A] ++ pfx

def addNamespaceAttributes (cs : List Context) : List (XMLString × XMLString) :=
  (getDeclaredPrefixes cs).foldl (fun m pfx => SortedAssoc.set m (xmlnsName pfx) (getURI cs pfx)) []

def attributeName (cs : List Context) (a : Attribute) : XMLString :=
  if a.localName = [] then a.qname
  else writeName (if a.namespaceURI = [] then [] else getPrefix cs a.namespaceURI) a.localName

def addAttributes (cs : List Context) (m : List (XMLString × XMLString))
    (attributes : List Attribute) : List (XMLString × XMLString) :=
  attributes.foldl (fun m a => SortedAssoc.set m (attributeName cs a) a.value) m

/-- The characters that can be written. -/
def isWritable (c : UInt8) : Bool := 32 ≤ c || c == 0x09 || c == 0x0D || c == 0x0A

/-! ### Tags -/

def prettyPrint (o : Options) (w : XMLWriter) : XMLWriter :=
  if o.prettyPrint ∧ w.contentWritten = false then w.write [.newLine, .indent w.depth] else w

/-- `closeStartTag`, if there is one to close. -/
def closeStartTag (w : XMLWriter) : XMLWriter :=
  if w.unclosedStartTag then { w with unclosedStartTag := false, out := w.out ++ [.gt] } else w

def writeStartElement (o : Options) (w : XMLWriter) (namespaceURI localName qname : XMLString)
    (attributes : List Attribute) : Except XMLException XMLWriter :=
  let cs := if w.nsContextPushed then w.naming.contexts else pushContext w.naming.contexts
  let s := declareAttributeNamespaces ⟨cs, w.naming.count⟩ attributes
  match elementName s namespaceURI localName qname with
  | .error e => .error e
  | .ok (s, name) =>
    let m := addAttributes s.contexts (addNamespaceAttributes s.contexts) attributes
    if m.all fun e => e.2.all isWritable then
      .ok { w with
        nsContextPushed := false
        elementCount := w.elementCount + 1
        naming := s
        unclosedStartTag := true
        out := w.out ++ [.startTag name m
          (if o.prettyPrint ∧ o.prettyPrintAttributes then some (w.depth + 1) else none)] }
    else .error .invalidCharacter

def writeEndElement (o : Options) (w : XMLWriter) (namespaceURI localName qname : XMLString) :
    XMLWriter :=
  let cs := w.naming.contexts
  let w := if w.unclosedStartTag ∧ o.canonicalXML = false then
      { w with unclosedStartTag := false, out := w.out ++ [.slashGt] }
    else (closeStartTag w).write [.endTag (endName cs namespaceURI localName qname)]
  { w with naming := { w.naming with contexts := popContext cs } }

/-- The end tag, on a line of its own unless it ends a start tag. -/
def finishElement (o : Options) (w : XMLWriter) (namespaceURI localName qname : XMLString) :
    XMLWriter :=
  writeEndElement o (if w.unclosedStartTag then w else prettyPrint o w) namespaceURI localName qname

def finishRoot (o : Options) (w : XMLWriter) : XMLWriter :=
  if w.depth = 0 ∧ o.prettyPrint then w.write [.newLine] else w

/-! ### The calls -/

def startDocument (o : Options) (w : XMLWriter) : Except XMLException XMLWriter :=
  if w.depth ≠ -1 then .error .nestedDocument
  else .ok { w with
    inFragment := false
    depth := 0
    elementCount := 0
    contentWritten := true
    naming := ⟨pushContext reset, 0⟩
    out := w.out ++ (if o.writeXMLDeclaration then
      .declaration :: (if o.prettyPrint then [.newLine] else []) else []) }

def endDocument (w : XMLWriter) : Except XMLException XMLWriter :=
  if w.depth > 0 then .error .noMatchingEndTag
  else if w.elementCount = 0 then .error .noDocumentElement
  else .ok { w with elementCount := 0, depth := -1 }

def startElement (o : Options) (w : XMLWriter) (namespaceURI localName qname : XMLString)
    (attributes : List Attribute) : Except XMLException XMLWriter :=
  if w.depth = 0 ∧ w.inFragment = false ∧ w.elementCount > 1 then .error .secondRootElement
  else
    match writeStartElement o (prettyPrint o (closeStartTag w)) namespaceURI localName qname
        attributes with
    | .error e => .error e
    | .ok w =>
      .ok { w with
        elementStack := ⟨qname, namespaceURI, localName⟩ :: w.elementStack
        contentWritten := false
        depth := w.depth + 1 }

def endElement (o : Options) (w : XMLWriter) (namespaceURI localName qname : XMLString) :
    Except XMLException XMLWriter :=
  if w.depth < 1 then .error .noUnclosedTag
  else
    match w.elementStack with
    -- there is an element for every level
    | [] => .error .noUnclosedTag
    | name :: names =>
      if name.equalsWeakly qname namespaceURI localName then
        let w := finishElement o { w with elementStack := names, depth := w.depth - 1 }
          namespaceURI localName qname
        .ok (finishRoot o { w with contentWritten := false })
      else .error .endTagMismatch

/-- `emptyElement`.  The `/` and the `>` that `closeStartTag` adds are written one after the
other. -/
def emptyElement (o : Options) (w : XMLWriter) (namespaceURI localName qname : XMLString)
    (attributes : List Attribute) : Except XMLException XMLWriter :=
  if w.depth = 0 ∧ w.elementCount > 1 then .error .secondRootElement
  else
    match writeStartElement o (prettyPrint o (closeStartTag w)) namespaceURI localName qname
        attributes with
    | .error e => .error e
    | .ok w =>
      .ok { w with
        contentWritten := false
        unclosedStartTag := false
        naming := { w.naming with contexts := popContext w.naming.contexts }
        out := w.out ++ [.slashGt] }

def characters (w : XMLWriter) (data : XMLString) : Except XMLException XMLWriter :=
  if data = [] then .ok w
  else if data.all isWritable then
    .ok ({ closeStartTag w with contentWritten := true }.write [.characters data])
  else .error .invalidCharacter

/-- `dataElement`, with the attributes that have a name. -/
def dataElement (o : Options) (w : XMLWriter) (namespaceURI localName qname data : XMLString)
    (attributes : List (XMLString × XMLString)) : Except XMLException XMLWriter :=
  let attributes := (attributes.filter fun a => a.1 ≠ []).map fun a => ⟨[], [], a.1, a.2⟩
  if data = [] then emptyElement o w namespaceURI localName qname attributes
  else do
    let w ← startElement o w namespaceURI localName qname attributes
    let w ← characters w data
    endElement o w namespaceURI localName qname

def startPrefixMapping (w : XMLWriter) (pfx namespaceURI : XMLString) : XMLWriter :=
  if pfx = xmlPrefix then w
  else
    let cs := if w.nsContextPushed then w.naming.contexts else pushContext w.naming.contexts
    { w with
      nsContextPushed := true
      naming := { w.naming with contexts := declarePrefix cs pfx namespaceURI } }

/-! ### Runs -/

inductive Event
  | startElement (namespaceURI localName qname : XMLString) (attributes : List Attribute)
  | endElement (namespaceURI localName qname : XMLString)
  | emptyElement (namespaceURI localName qname : XMLString) (attributes : List Attribute)
  | dataElement (namespaceURI localName qname data : XMLString)
      (attributes : List (XMLString × XMLString))
  | characters (data : XMLString)
  | startPrefixMapping (pfx namespaceURI : XMLString)

def perform (o : Options) (w : XMLWriter) : Event → Except XMLException XMLWriter
  | .startElement uri localName qname attributes =>
    startElement o w uri localName qname attributes
  | .endElement uri localName qname => endElement o w uri localName qname
  | .emptyElement uri localName qname attributes =>
    emptyElement o w uri localName qname attributes
  | .dataElement uri localName qname data attributes =>
    dataElement o w uri localName qname data attributes
  | .characters data => characters w data
  | .startPrefixMapping pfx uri => .ok (startPrefixMapping w pfx uri)

/-- The writer after `startDocument`. -/
def started (o : Options) : XMLWriter :=
  match startDocument o new with
  | .ok w => w
  | .error _ => new

def document (o : Options) : Machine XMLWriter Event :=
  ⟨started o, fun w e => (perform o w e).toOption⟩

end XMLWriter

end Poco.XML
