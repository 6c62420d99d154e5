import Ixml.Xml.Event

/-!
# Documents as trees

The tree of a document, its text, and the collector that makes it from events. Characters that come one after
the other are one text node.
-/

namespace Ixml.Xml

inductive Node
  | element (name : String) (ns : Option String) (declarations attributes : List (String × String))
      (children : List Node)
  | text (s : String)
deriving Inhabited, Repr

namespace Node

mutual

def content : Node → String
  | element _ _ _ _ children => contentAll children
  | text s => s

def contentAll : List Node → String
  | [] => ""
  | n :: ns => content n ++ contentAll ns

end

def name? : Node → Option String
  | element name .. => some name
  | text _ => none

def ns? : Node → Option String
  | element _ ns .. => ns
  | text _ => none

def attribute? (key : String) : Node → Option String
  | element _ _ _ attributes _ => (attributes.find? (·.1 == key)).map (·.2)
  | text _ => none

def children : Node → List Node
  | element _ _ _ _ children => children
  | text _ => []

def isElement : Node → Bool
  | element .. => true
  | text _ => false

def elements (n : Node) : List Node :=
  n.children.filter isElement

mutual

/-- A node as XML. An element without content is written as one tag. -/
def render : Node → String
  | element name _ declarations attributes children =>
    tagText name declarations attributes ++
      match children with
      | [] => "/>"
      | n :: ns => ">" ++ render n ++ renderAll ns ++ "</" ++ name ++ ">"
  | text s => escapeText s

def renderAll : List Node → String
  | [] => ""
  | n :: ns => render n ++ renderAll ns

end

/-- Put characters after nodes. They join a text that is last. -/
def appendText (s : String) : List Node → List Node
  | [] => [text s]
  | [text t] => [text (t ++ s)]
  | n :: ns => n :: appendText s ns

end Node

/-- Collects events into a tree. -/
structure Collector where
  /-- The open elements, the innermost first, with what has come into them so far. -/
  stack : List Node := []
  /-- Declarations for the next element. -/
  pending : List (String × String) := []
  root : Option Node := none
deriving Inhabited

namespace Collector

def mapChildren (f : List Node → List Node) : Node → Node
  | .element name ns declarations attributes children =>
    .element name ns declarations attributes (f children)
  | .text s => .text s

def step (c : Collector) : Event → Collector
  | .startDocument => c
  | .endDocument => c
  | .declare p uri => { c with pending := c.pending ++ [(p, uri)] }
  | .startElement uri _ qname attributes =>
    let n := Node.element qname (if uri.isEmpty then none else some uri) c.pending
      (attributes.map fun a => (a.qname, a.value)) []
    { c with stack := n :: c.stack, pending := [] }
  | .characters text =>
    if text.isEmpty then c
    else
      match c.stack with
      | [] => c
      | n :: rest => { c with stack := mapChildren (Node.appendText text) n :: rest }
  | .endElement .. =>
    match c.stack with
    | [] => c
    | [n] => { c with stack := [], root := some n }
    | n :: m :: rest => { c with stack := mapChildren (· ++ [n]) m :: rest }

def run (c : Collector) (es : List Event) : Collector :=
  es.foldl step c

end Collector

/-- The tree of a document. -/
def treeOf (es : List Event) : Option Node :=
  (Collector.run {} es).root

end Ixml.Xml
