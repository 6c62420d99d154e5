import Ixml.Bnf.Attributes
import Ixml.Document.Content
import Ixml.Options.Basic
import Ixml.Work
import Ixml.Xml.Char

/-!
# Results by the marks

A derivation is reported as events: a nonterminal opens, a terminal matches a character, a nonterminal closes.
A draft of the result is made from them by the marks of the symbols:

* `^` makes an element,
* `@` makes the text below it an attribute of the nearest element,
* `-` gives only what is below it,
* `+` gives the text that is inserted.

A terminal that is hidden gives nothing.
-/

namespace Ixml

/-- What happens in a derivation. -/
inductive DerivationEvent
  | opens (attributes : Attributes)
  | closes (attributes : Attributes)
  /-- A terminal has matched a character. -/
  | matched (c : Char) (attributes : Attributes)
deriving DecidableEq, Repr, Inhabited

/-- A nonterminal that is open, with its name. -/
inductive OpenSymbol
  | element (symbol : String) (head : ElementHead) (children : List Content) (discardEmpty : Bool)
  | attr (symbol name value : String)
  /-- Only what is below it counts. -/
  | omitted (symbol : String)
  | insertion (symbol : String)
deriving Inhabited, Repr

namespace OpenSymbol

def symbol : OpenSymbol → String
  | element s .. => s
  | attr s .. => s
  | omitted s => s
  | insertion s => s

def isAttr : OpenSymbol → Bool
  | attr .. => true
  | _ => false

end OpenSymbol

/-- A result that is being made. -/
structure Draft where
  options : Options := {}
  version : Option String := none
  /-- The default namespace of the result, where the root does not state one. -/
  defaultNamespace : Option String := none
  /-- The open nonterminals, the innermost first. -/
  stack : List OpenSymbol := []
  /-- What stands outside all open nonterminals. -/
  top : List Content := []
deriving Inhabited, Repr

namespace Draft

/-- The namespace of the state attribute. -/
def ixmlNamespace : String := "http://invisiblexml.org/NS"

/-- The versions of grammars that are known. -/
def knownVersions : List String := ["1.0", "1.0-nineml"]

/-- Give a content to the innermost open nonterminal that takes it; nothing if there is none. -/
def place (c : Content) : List OpenSymbol → Option (List OpenSymbol)
  | [] => none
  | .element s head children d :: rest => some (.element s head (Content.push c children) d :: rest)
  | .attr s name value :: rest => some (.attr s name (value ++ c.allText) :: rest)
  | .omitted s :: rest => (place c rest).map (.omitted s :: ·)
  | .insertion s :: rest => (place c rest).map (.insertion s :: ·)

/-- Give a content to where it belongs. -/
def give (c : Content) (b : Draft) : Draft :=
  match place c b.stack with
  | some stack => { b with stack }
  | none => { b with top := Content.push c b.top }

/-- Give a text that is not empty to where it belongs. -/
def giveText (s : String) : Work Draft Unit := do
  if s.isEmpty then
    return ()
  else
    let b ← Work.current
    match (if b.options.assertValidXmlCharacters then Xml.firstInvalid? s else none) with
    | some c => throw (.invalidXmlChar c.toNat)
    | none => Work.update (give (.text s))

/-- Refuse a name that is no XML name, if names are checked. -/
def checkName (name : String) : Work Draft Unit := do
  let b ← Work.current
  if b.options.assertValidXmlNames && !Xml.isName name then
    throw (.invalidXmlName name)

/-- Whether a name would declare a namespace. -/
def isReserved (name : String) : Bool :=
  name == "xmlns" || "xmlns:".isPrefixOf name

/-- Set an attribute on the nearest element that is not a wrapper. -/
def attach (name value : String) : List OpenSymbol → Except Error (List OpenSymbol)
  | [] => .error (.attributeAtRoot name)
  | .element s head children d :: rest =>
    if head.isWrapper then (attach name value rest).map (.element s head children d :: ·)
    else if Assoc.has name head.attributes then .error (.duplicateAttribute head.name name)
    else
      .ok (.element s { head with attributes := Assoc.insert name value head.attributes } children d ::
        rest)
  | n :: rest => (attach name value rest).map (n :: ·)

/-- Open a nonterminal. Inside an attribute only text counts. -/
def opened (a : Attributes) : Work Draft OpenSymbol := do
  let b ← Work.current
  if a.mark == '+' then
    giveText ((a.get? Attributes.insertionKey).getD "")
    return .insertion a.name
  else if b.stack.any (·.isAttr) then
    return .omitted a.name
  else if a.mark == '@' then
    checkName a.outputName
    return .attr a.name a.outputName ""
  else if a.mark == '-' then
    if b.options.showBnfNonterminals then
      return .element a.name
        { name := Content.wrapperName, isWrapper := true, attributes := [("name", a.name)] } [] false
    else
      return .omitted a.name
  else
    checkName a.outputName
    return .element a.name { name := a.outputName, ns := a.get? Attributes.xmlnsKey } [] a.discardEmpty

/-- Close a nonterminal that was open. -/
def closed : OpenSymbol → Work Draft Unit
  | .element _ head children discard => do
    if discard && head.attributes.isEmpty && children.isEmpty then
      Work.detail ("[tree] discarding empty <" ++ head.name ++ ">")
    else
      Work.update (give (.element head children))
  | .attr _ name value => do
    if isReserved name then
      throw (.reservedAttribute name)
    else
      let b ← Work.current
      match attach name value b.stack with
      | .ok stack => Work.update fun b => { b with stack }
      | .error e => throw e
  | .omitted _ => return ()
  | .insertion _ => return ()

def step : DerivationEvent → Work Draft Unit
  | .opens a => do
    let n ← opened a
    Work.update fun b => { b with stack := n :: b.stack }
  | .closes a => do
    let b ← Work.current
    match b.stack with
    | [] => throw (.unbalancedEvents ("end of " ++ a.name ++ " with nothing open"))
    | n :: rest => do
      Work.update fun b => { b with stack := rest }
      if n.symbol == a.name then
        closed n
      else
        throw (.unbalancedEvents ("end of " ++ a.name ++ " while " ++ n.symbol ++ " is open"))
  | .matched c a =>
    if a.terminalMark == '-' then return ()
    else giveText ((a.get? Attributes.replacementKey).getD (String.singleton c))

/-- The states that the result reports. -/
def states (b : Draft) (ambiguous : Bool) : List String :=
  let mismatch := b.version.any fun v => !knownVersions.contains v
  (if ambiguous && !b.options.suppressAmbiguousState then ["ambiguous"] else []) ++
    (if mismatch && !b.options.suppressVersionMismatchState then ["version-mismatch"] else [])

/-- The default namespace of a document with the given root; empty if there is none. -/
def documentNamespace (b : Draft) (head : ElementHead) : String :=
  (head.ns <|> b.defaultNamespace).getD ""

/-- The document with the given root and states. -/
def document (b : Draft) (states : List String) (head : ElementHead) (children : List Content) :
    List Xml.Event :=
  let ns := b.documentNamespace head
  let state := " ".intercalate states
  [.startDocument] ++
    (if ns.isEmpty then [] else [.declare "" ns]) ++
    (if states.isEmpty then [] else [.declare "ixml" ixmlNamespace]) ++
    (if (Content.element head children).hasWrapper then [.declare "n" Content.wrapperNamespace] else []) ++
    Content.rootEvents ns
      (if states.isEmpty then [] else [.qualified ixmlNamespace "ixml" "state" state]) head children ++
    [.endDocument]

/-- The list of the states in a note. -/
def statesText (states : List String) : String :=
  "[" ++ ", ".intercalate (states.map Text.Quoted.string) ++ "]"

/-- The document that has been made, if all nonterminals have been closed and there is one root. It is
ambiguous if a choice was not decided, or with strict options if there was a choice at all. -/
def finish (undecided chosen : Bool) : Work Draft (List Xml.Event) := do
  let b ← Work.current
  match b.stack, b.top with
  | n :: _, _ => throw (.unbalancedEvents (n.symbol ++ " is still open"))
  | [], [.element head children] => do
    let states := b.states (if b.options.strictAmbiguity then chosen else undecided)
    Work.detail ("[tree] root <" ++ head.name ++ ">, state " ++ statesText states)
    return b.document states head children
  | [], _ => throw .notSingleRooted

end Draft

end Ixml
