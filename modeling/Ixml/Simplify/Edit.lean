import Ixml.Grammar.Basic
import Ixml.Text.Hex

/-!
# Editing a grammar

Steps that the simplifications are made of: new nodes, rules with made-up names, and references to them.
A rule that is made up here is hidden, and its name hints at what it stands for.
-/

namespace Ixml

/-- A change of a grammar that gives an answer. -/
abbrev Edit := StateM Grammar

namespace Edit

/-- Add a node without a place. -/
def newNode (l : Label) : Edit NodeId := fun g =>
  (g.next, g.push l)

/-- Add a node of a given kind without a name. -/
def newKind (kind : Construct) : Edit NodeId :=
  newNode { kind }

/-- Add a reference to the rule of a given name. -/
def newReference (name : String) : Edit NodeId :=
  newNode { kind := .nonterminal none none, name := some name }

/-- Add a hidden rule without a body. -/
def newHiddenRule (name : String) : Edit NodeId :=
  newNode { kind := .rule .hidden none, name := some name }

/-- Make a node the last child of another. -/
def append (parent child : NodeId) : Edit Unit :=
  modify (·.append parent child)

/-- Take a node out of its place. -/
def detach (id : NodeId) : Edit Unit :=
  modify (·.detach id)

/-- Put `new` into the place of `old`. -/
def replace (old new : NodeId) : Edit Unit :=
  modify (·.replace old new)

/-- Let a rule wait until the waiting rules join. -/
def defer (rule : NodeId) : Edit Unit :=
  modify (·.defer rule)

/-- Copy a node and all below it to new nodes without a place. -/
def copy (id : NodeId) : Edit NodeId := fun g =>
  (g.next, g.copy id)

/-- Add an alternative with the given factors to a body. -/
def addAlt (body : NodeId) (factors : List NodeId) : Edit Unit := do
  let alt ← newKind .alt
  factors.forM (append alt)
  append body alt

/-- The part of a made-up name that is the hint: all before the last two underscores. -/
def hintOfName (name : List Char) : List Char :=
  let after (cs : List Char) : Option (List Char) :=
    match cs.dropWhile (· != '_') with
    | [] => none
    | _ :: rest => some rest
  match after name.reverse with
  | none => name
  | some rest =>
    match after rest with
    | none => rest.reverse
    | some rest => rest.reverse

/-- The text of the first symbol at or below a node, down to a given depth. -/
def firstText (g : Grammar) : Nat → NodeId → List Char
  | 0, _ => []
  | fuel + 1, id =>
    match g.kind id with
    | .nonterminal .. =>
      match (g.nameText id).toList with
      | '$' :: rest => hintOfName rest
      | name => name
    | .literal _ value => value.text.toList
    | .insertion value => value.text.toList
    | .charClass code => code.toList
    | .range a _ => [a]
    | _ =>
      match g.children id with
      | [] => []
      | c :: _ => firstText g fuel c

/-- A character of a hint: letters, digits, the hyphen and the dot stand for themselves, and all others are
written by their codes after a percent sign. -/
def hintChar (c : Char) : String :=
  if c.isAlphanum || c == '-' || c == '.' then String.singleton c
  else "%" ++ Text.Hex.upperPair c.toNat

/-- What a made-up name says of a node: the text of its first symbol. -/
def hint (g : Grammar) (id : NodeId) : String :=
  match firstText g (g.depthBound + 1) id with
  | [] => "empty"
  | cs => String.join (cs.map hintChar)

/-- Make up a name for a rule that stands for a node. -/
def newName (source : NodeId) (suffix : String) : Edit String := fun g =>
  (g.nextName (hint g source) suffix, g.countName)

/-- A rule that is being made up: the rule, its body and its name. -/
structure NewRule where
  rule : NodeId
  body : NodeId
  name : String

/-- Make up a rule for a node, with a body that has no alternatives yet. -/
def newRule (source : NodeId) (suffix : String) : Edit NewRule := do
  let name ← newName source suffix
  let rule ← newHiddenRule name
  let body ← newKind .alts
  append rule body
  return ⟨rule, body, name⟩

/-- Put a reference to a made-up rule into the place of a node, and let the rule wait. -/
def referTo (r : NewRule) (old : NodeId) : Edit Unit := do
  let ref ← newReference r.name
  modify fun g => g.modify ref fun n => { n with isOptional := (g.node r.rule).isOptional }
  replace old ref
  defer r.rule

end Edit

end Ixml
