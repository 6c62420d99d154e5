import Ixml.Decimal.Read
import Ixml.Grammar.Basic
import Ixml.Text.Blank
import Ixml.Work

/-!
# Understanding pragmas

Pragmas are read as nodes below the construct that they were written on. `Pragma.understandAll` takes each of
them out of its place. Namespace declarations bind a prefix for the whole grammar, wherever they stand; the
first declaration of a prefix wins. Every other pragma is looked up by its prefix and name, its data is
checked, and what it asks for is attached to the construct. Pragmas of other namespaces and unknown ones are
passed over with a note, and data that make no sense are an error.
-/

namespace Ixml.Pragma

open Text (trim)

/-- The namespace of the pragmas that are understood. -/
def ownNamespace : String := "https://nineml.org/ns/pragma/"

/-- What is between quotes, each doubled quote inside standing for one. -/
def undouble (q : Char) : List Char → List Char
  | c :: d :: cs => if c = q ∧ d = q then q :: undouble q cs else c :: undouble q (d :: cs)
  | cs => cs

/-- The text between quotes of one kind, if the data are such a text. -/
def betweenQuotes? (data : String) : Option String :=
  match data.toList with
  | q :: c :: cs =>
    if (q = '"' ∨ q = '\'') ∧ (c :: cs).getLast? = some q then
      some (String.ofList (undouble q (c :: cs).dropLast))
    else none
  | _ => none

/-- The text between quotes, or the data as they are; without blanks at the ends in any case. -/
def withoutQuotes (data : String) : String :=
  (betweenQuotes? (trim data)).getD (trim data)

/-- Bind a namespace prefix, unless the declaration is at fault or comes second. -/
def bindPrefix (nsPrefix data : String) : Work Grammar Unit := do
  let g ← Work.current
  let uri := withoutQuotes data
  if nsPrefix == "xml" || nsPrefix == "xmlns" then
    Work.warn ("Ignoring declaration of reserved prefix '" ++ nsPrefix ++ "'")
  else if uri.isEmpty then
    Work.warn ("Ignoring declaration of prefix '" ++ nsPrefix ++ "' with an empty URI")
  else
    match g.uri? nsPrefix with
    | some other =>
      Work.warn ("Ignoring duplicate declaration of prefix '" ++ nsPrefix ++ "' (already bound to " ++
        other ++ ")")
    | none => do
      Work.detail ("Binding pragma prefix '" ++ nsPrefix ++ "' to " ++ uri)
      Work.update (·.bind nsPrefix uri)

/-- What a pragma asks for, by its name without a prefix and its data without blanks at the ends: nothing if
the name is unknown, otherwise the directive or the reason why the data make no sense. -/
def directive? (name data : String) : Option (Except String Directive) :=
  let text (f : String → Directive) :=
    match betweenQuotes? data with
    | some s => Except.ok (f s)
    | none => .error "expected a quoted string"
  let weight (f : Float → Directive) :=
    match Decimal.read? data with
    | some w => if w.isFinite then Except.ok (f w) else .error "expected a number"
    | none => .error "expected a number"
  let nonempty (reason : String) (f : String → Directive) :=
    let s := withoutQuotes data
    if s.isEmpty then Except.error reason else .ok (f s)
  match name with
  | "rename" => some (nonempty "a new name is required" .rename)
  | "discard" =>
    some (if data == "empty" then .ok .discardEmpty
      else .error "the only supported value is 'empty'")
  | "priority" => some (weight .priority)
  | "default-priority" => some (weight .defaultPriority)
  | "token" => some (text .token)
  | "regex" => some (text .regex)
  | "rewrite" => some (text .replacement)
  | "metadata" =>
    let (uri, rest) := Text.splitBlank data.toList
    let rest := (rest.map fun cs => String.ofList (Text.trimChars cs)).filter (!·.isEmpty)
    some (if uri = [] then .error "a URI is required"
      else .ok (.metadata (withoutQuotes (String.ofList uri)) rest))
  | "xmlns" => some (nonempty "a namespace URI is required" .xmlns)
  | _ => none

/-- The name of a pragma without its prefix, if the prefix is bound to the namespace of the pragmas that are
understood or there is none. -/
def localName? (name : String) : Work Grammar (Option String) := do
  let g ← Work.current
  match Text.splitAt ':' name.toList with
  | (nsPrefix, some rest) =>
    let nsPrefix := String.ofList nsPrefix
    match g.uri? nsPrefix with
    | none => throw (.unboundPragmaPrefix nsPrefix name)
    | some uri =>
      if uri == ownNamespace then
        return some (String.ofList rest)
      else do
        Work.warn ("Ignoring pragma '" ++ name ++ "' from unrecognized namespace " ++ uri)
        return none
  | (_, none) => do
    Work.detail ("Treating unprefixed pragma '" ++ name ++ "' as a nineml pragma")
    return some name

/-- What a pragma asks for, or nothing if it is passed over. -/
def directiveOf? (name data : String) : Work Grammar (Option Directive) := do
  match ← localName? name with
  | none => return none
  | some localName =>
    let data := trim data
    match directive? localName data with
    | some (.ok d) => return some d
    | some (.error reason) => throw (.malformedPragmaData name data reason)
    | none => do
      Work.warn ("Ignoring unknown nineml pragma '" ++ localName ++ "'")
      return none

/-- Put a pragma on a node, after those that are there. -/
def push (owner : NodeId) (p : Pragma) (g : Grammar) : Grammar :=
  g.modify owner fun n => { n with pragmas := n.pragmas ++ [p] }

/-- The other name that a node has been given; nothing for nodes that cannot have one. -/
def renameOf? : Construct → Option (Option String)
  | .rule _ r => some r
  | .nonterminal _ r => some r
  | _ => none

/-- Give a node another name. -/
def setRename (name : String) : Construct → Construct
  | .rule m _ => .rule m (some name)
  | .nonterminal m _ => .nonterminal m (some name)
  | kind => kind

/-- Whether a node has a text that can be replaced. -/
def hasText : Construct → Bool
  | .literal .. => true
  | .insertion _ => true
  | _ => false

/-- Attach a pragma to the node that it was written on. -/
def give (owner : NodeId) (p : Pragma) : Work Grammar Unit := do
  let g ← Work.current
  match p.directive with
  | .rename name =>
    match renameOf? (g.kind owner) with
    | none => Work.warn ("Ignoring rename pragma on " ++ (g.kind owner).label ++ " node")
    | some (some first) => throw (.duplicateRename (g.nameText owner) first name)
    | some none =>
      Work.update fun g => push owner p (g.modify owner fun n => { n with kind := setRename name n.kind })
  | .xmlns uri => Work.update fun g => push owner p { g with defaultNamespace := some uri }
  | .replacement _ =>
    if hasText (g.kind owner) then
      Work.update (push owner p)
    else
      Work.warn ("Ignoring rewrite pragma on " ++ (g.kind owner).label ++ " node")
  | _ => Work.update (push owner p)

/-- A pragma as written, with its address. -/
structure Raw where
  id : NodeId
  name : String
  data : String
deriving Repr

/-- The pragma at an address, if there is one. -/
def raw? (g : Grammar) (id : NodeId) : Option Raw :=
  match g.kind id with
  | .pragma name data => some ⟨id, name, data⟩
  | _ => none

/-- All pragmas below the root, in the order of the text. -/
def rawAll (g : Grammar) : List Raw :=
  (g.nodesFrom Grammar.root).filterMap (raw? g)

/-- The prefix that a pragma declares. A declaration without a prefix has an empty answer inside. -/
def declared? (name : String) : Option (Option String) :=
  let head := "ixmlns:".toList
  if head.isPrefixOf name.toList then some (some (String.ofList (name.toList.drop head.length)))
  else if name == "ixmlns" then some none
  else none

/-- Carry out the declarations and give the other pragmas. -/
def declareAll : List Raw → Work Grammar (List Raw)
  | [] => return []
  | p :: ps => do
    match declared? p.name with
    | some (some nsPrefix) => do
      bindPrefix nsPrefix p.data
      Work.update (·.detach p.id)
      declareAll ps
    | some none => do
      Work.warn ("Ignoring namespace declaration without a prefix: " ++ p.data)
      Work.update (·.detach p.id)
      declareAll ps
    | none => do
      let rest ← declareAll ps
      return p :: rest

/-- Take a pragma out of its place and attach what it asks for to the node that it was written on. -/
def understand (p : Raw) : Work Grammar Unit := do
  let g ← Work.current
  Work.update (·.detach p.id)
  match g.parent p.id with
  | none => return ()
  | some owner =>
    match ← directiveOf? p.name p.data with
    | some d => give owner ⟨p.name, p.data, d⟩
    | none => return ()

/-- Understand all pragmas of a grammar. The declarations come first, so that every prefix is looked up among
all of them. -/
def understandAll : Work Grammar Unit := do
  let g ← Work.current
  let rest ← declareAll (rawAll g)
  rest.forM understand

end Ixml.Pragma
