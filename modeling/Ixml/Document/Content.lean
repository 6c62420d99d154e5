import Ixml.Assoc
import Ixml.Xml.Event

/-!
# Content of a result

The elements and texts that a derivation gives, before they are written as a document.
-/

namespace Ixml

/-- What an element has besides its content. -/
structure ElementHead where
  name : String
  /-- Whether it stands for a hidden nonterminal that is shown all the same. -/
  isWrapper : Bool := false
  ns : Option String := none
  attributes : Assoc := []
deriving DecidableEq, Repr, Inhabited

inductive Content
  | text (s : String)
  | element (head : ElementHead) (children : List Content)
deriving Inhabited, Repr

namespace Content

mutual

/-- All text in a content. -/
def allText : Content → String
  | text s => s
  | element _ cs => allTexts cs

def allTexts : List Content → String
  | [] => ""
  | c :: cs => allText c ++ allTexts cs

end

mutual

def hasWrapper : Content → Bool
  | text _ => false
  | element head cs => head.isWrapper || anyWrapper cs

def anyWrapper : List Content → Bool
  | [] => false
  | c :: cs => hasWrapper c || anyWrapper cs

end

/-- Put a content after others. A text joins a text that is last. -/
def push (c : Content) : List Content → List Content
  | [] => [c]
  | [d] =>
    match d, c with
    | text s, text t => [text (s ++ t)]
    | _, _ => [d, c]
  | d :: e :: ds => d :: push c (e :: ds)

def wrapperNamespace : String := "https://nineml.org/ns/"

/-- The name of the wrappers, with their prefix. -/
def wrapperName : String := "n:symbol"

/-- The namespace of an element and its name without a prefix, for the default namespace of the document. -/
def expandedName (defaultNs : String) (head : ElementHead) : String × String :=
  if head.isWrapper then (wrapperNamespace, "symbol") else (defaultNs, head.name)

def eventAttributes (head : ElementHead) : List Xml.Attribute :=
  head.attributes.map fun (k, v) => .plain k v

mutual

def events (defaultNs : String) : Content → List Xml.Event
  | text s => [.characters s]
  | element head cs =>
    let (uri, localName) := expandedName defaultNs head
    .startElement uri localName head.name (eventAttributes head) ::
      (eventsAll defaultNs cs ++ [.endElement uri localName head.name])

def eventsAll (defaultNs : String) : List Content → List Xml.Event
  | [] => []
  | c :: cs => events defaultNs c ++ eventsAll defaultNs cs

end

/-- The element at the root as events, with attributes that come before its own. -/
def rootEvents (defaultNs : String) (extra : List Xml.Attribute) (head : ElementHead)
    (children : List Content) : List Xml.Event :=
  let (uri, localName) := expandedName defaultNs head
  .startElement uri localName head.name (extra ++ eventAttributes head) ::
    (eventsAll defaultNs children ++ [.endElement uri localName head.name])

end Content

end Ixml
