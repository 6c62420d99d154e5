import Ixml.Xml.Escape

/-!
# Events of a document

A document is produced as a sequence of events. `Writer` turns them into text.
-/

namespace Ixml.Xml

/-- An attribute: its namespace, empty if it has none, its name without and with a prefix, and its value. -/
structure Attribute where
  uri : String
  localName : String
  qname : String
  value : String
deriving DecidableEq, Repr, Inhabited

namespace Attribute

def plain (name value : String) : Attribute :=
  ⟨"", name, name, value⟩

def qualified (uri nsPrefix localName value : String) : Attribute :=
  ⟨uri, localName, nsPrefix ++ ":" ++ localName, value⟩

end Attribute

inductive Event
  | startDocument
  | endDocument
  /-- Declare a prefix, empty for the default namespace, on the next element. -/
  | declare (nsPrefix uri : String)
  | startElement (uri localName qname : String) (attributes : List Attribute)
  | characters (text : String)
  | endElement (uri localName qname : String)
deriving DecidableEq, Repr, Inhabited

/-- The text of an attribute in a start tag, with the blank in front. -/
def attributeText (qname value : String) : String :=
  " " ++ qname ++ "=\"" ++ escapeAttribute value ++ "\""

/-- The name of the attribute that declares a prefix. -/
def declarationName (nsPrefix : String) : String :=
  if nsPrefix.isEmpty then "xmlns" else "xmlns:" ++ nsPrefix

/-- The text of a start tag without its end: the name, the declarations and the attributes. -/
def tagText (name : String) (declarations attributes : List (String × String)) : String :=
  "<" ++ name ++
    String.join (declarations.map fun (p, uri) => attributeText (declarationName p) uri) ++
    String.join (attributes.map fun (k, v) => attributeText k v)

/-- Writes events as text. A start tag is left open until it is known whether the element is empty. -/
structure Writer where
  output : String := ""
  /-- Declarations for the next element. -/
  pending : List (String × String) := []
  tagOpen : Bool := false
deriving DecidableEq, Repr, Inhabited

namespace Writer

/-- The output with a start tag that is open closed. -/
def closed (w : Writer) : String :=
  if w.tagOpen then w.output ++ ">" else w.output

def step (w : Writer) : Event → Writer
  | .startDocument => w
  | .endDocument => w
  | .declare p uri => { w with pending := w.pending ++ [(p, uri)] }
  | .startElement _ _ qname attributes =>
    ⟨w.closed ++ tagText qname w.pending (attributes.map fun a => (a.qname, a.value)), [], true⟩
  | .characters text =>
    if text.isEmpty then w else { w with output := w.closed ++ escapeText text, tagOpen := false }
  | .endElement _ _ qname =>
    if w.tagOpen then { w with output := w.output ++ "/>", tagOpen := false }
    else { w with output := w.output ++ "</" ++ qname ++ ">" }

def run (w : Writer) (es : List Event) : Writer :=
  es.foldl step w

end Writer

/-- The text of a document. -/
def textOf (es : List Event) : String :=
  (Writer.run {} es).output

end Ixml.Xml
