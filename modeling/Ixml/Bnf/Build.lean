import Ixml.Bnf.Basic
import Ixml.CharSet.Category
import Ixml.Decimal.Shortest
import Ixml.Grammar.Text
import Ixml.Work

/-!
# BNF of a simplified grammar

A simplified grammar becomes plain BNF rule by rule. A literal gives a terminal for each of its
characters, a set a single terminal, an insertion a reference to one shared empty rule, and a reference its
effective mark and name, which it takes from the rule it names where it has none of its own.
-/

namespace Ixml

namespace Directive

def priority? : Directive → Option Float
  | priority w => some w
  | _ => none

def defaultPriority? : Directive → Option Float
  | defaultPriority w => some w
  | _ => none

def replacement? : Directive → Option String
  | replacement s => some s
  | _ => none

def isDiscardEmpty : Directive → Bool
  | discardEmpty => true
  | _ => false

end Directive

namespace Bnf.OfGrammar

open Attributes

/-- The name of the shared empty rule of insertions. -/
def insertionRule : String := "$insertion"

/-- The first of some pragmas that asks for what `f` looks for. -/
def firstOf {α : Type} (f : Directive → Option α) (ps : List Pragma) : Option α :=
  ps.findSome? fun p => f p.directive

/-- Whether one of some pragmas asks for empty elements to be left out. -/
def discardsEmpty (ps : List Pragma) : Bool :=
  ps.any (·.directive.isDiscardEmpty)

/-- The first rule of a given name, from which references to the name inherit. -/
def ruleNamed? (g : Grammar) (name : String) : Option Label :=
  (g.definitions name).head?.map fun id => (g.node id).toLabel

def ruleMark? : Construct → Option Mark
  | .rule m _ => some m
  | _ => none

def ruleRename? : Construct → Option String
  | .rule _ r => r
  | _ => none

def ownMark? : Construct → Option Mark
  | .nonterminal m _ => m
  | _ => none

def ownRename? : Construct → Option String
  | .nonterminal _ r => r
  | _ => none

/-- The attributes that a rule and the references to it share. -/
def sharedAttributes (g : Grammar) (name : String) (mark : Mark) (rename : Option String) : Attributes :=
  let a := ((({} : Attributes).set markKey (String.singleton mark.sign)).set nameKey name).setOption
    renameKey rename
  let a := a.setIf ("$".isPrefixOf name) pruningKey "allowed"
  let a := a.setIf ((ruleNamed? g name).any fun l => discardsEmpty l.pragmas) discardEmptyKey "true"
  if g.start = some name then a.setOption xmlnsKey g.defaultNamespace else a

/-- The attribute that a pragma of a rule gives. -/
def setRulePragma (a : Attributes) (p : Pragma) : Attributes :=
  match p.directive with
  | .priority w => a.set priorityKey (Decimal.text w)
  | .token s => a.set tokenKey s
  | .regex s => a.set regexKey s
  | .metadata uri data =>
    a.set metadataKey (match data with
      | some d => uri ++ " " ++ d
      | none => uri)
  | _ => a

/-- The attribute that a pragma of a reference gives. -/
def setReferencePragma (a : Attributes) (p : Pragma) : Attributes :=
  match p.directive with
  | .priority w => a.set priorityKey (Decimal.text w)
  | .discardEmpty => a.set discardEmptyKey "true"
  | _ => a

/-- Set the weight if there is none yet. -/
def setDefaultPriority (a : Attributes) (w : Option Float) : Attributes :=
  if a.has priorityKey then a else a.setOption priorityKey (w.map Decimal.text)

/-- The left-hand side of a rule. Where it has no weight it takes the default of the grammar. -/
def definedSymbol (g : Grammar) (l : Label) : Symbol :=
  let a := sharedAttributes g l.nameText ((ruleMark? l.kind).getD .element) (ruleRename? l.kind)
  let a := l.pragmas.foldl setRulePragma (a.setIf l.isOptional optionalKey "true")
  let weight := firstOf Directive.defaultPriority? (g.node Grammar.root).pragmas
  .nonterminal l.nameText (setDefaultPriority a weight)

/-- A reference on a right-hand side. -/
def usedSymbol (g : Grammar) (l : Label) : Symbol :=
  let rule := ruleNamed? g l.nameText
  let mark := ((ownMark? l.kind) <|> rule.bind fun r => ruleMark? r.kind).getD .element
  let rename := (ownRename? l.kind) <|> rule.bind fun r => ruleRename? r.kind
  let a := sharedAttributes g l.nameText mark rename
  let a := l.pragmas.foldl setReferencePragma (a.setIf l.isOptional optionalKey "true")
  let weight := rule.bind fun r => firstOf Directive.priority? r.pragmas
  .nonterminal l.nameText (setDefaultPriority a weight)

def terminalAttributes (mark : TerminalMark) : Attributes :=
  ({} : Attributes).set terminalMarkKey (String.singleton mark.sign)

/-- The terminals of a literal. A text that replaces it stands on the first of them, and the others are
replaced by nothing. -/
def literalSymbols (mark : TerminalMark) (text : List Char) (replacement : Option String) : List Symbol :=
  text.mapIdx fun i c =>
    .terminal (.char c) ((terminalAttributes mark).setOption replacementKey
      (replacement.map fun s => if i = 0 then s else ""))

/-- The reference that an insertion becomes. -/
def insertionSymbol (text : String) : Symbol :=
  .nonterminal insertionRule (((({} : Attributes).set markKey "+").set nameKey insertionRule).set
    pruningKey "allowed" |>.set insertionKey text)

/-- The shared empty rule of insertions. -/
def insertionRuleEntry : Rule where
  lhs := .nonterminal insertionRule ((({} : Attributes).set markKey "-").set nameKey insertionRule |>.set
    pruningKey "allowed")
  rhs := []

/-- A construct that cannot stand in a BNF rule. -/
def unexpected (g : Grammar) (id : NodeId) (rule : String) : Error :=
  .unexpectedNode (g.kind id).label rule

/-- Add what a member of a set stands for. -/
def addMember (g : Grammar) (rule : String) (s : CharSet) (id : NodeId) : Except Error CharSet :=
  match g.kind id with
  | .literal _ value => .ok (value.text.toList.foldl CharSet.insert s)
  | .range a b => .ok (s.insertRange a b)
  | .charClass code =>
    match CharSet.ofCategory code with
    | some t => .ok (s.union t)
    | none => .error (.unknownClass code)
  | _ => .error (unexpected g id rule)

/-- What a set matches. -/
def matcherOf (g : Grammar) (rule : String) (id : NodeId) (inclusion : Bool) : Except Error Matcher := do
  let s ← (g.children id).foldlM (addMember g rule) CharSet.empty
  let description := (if inclusion then "" else "~") ++ Grammar.setText ((g.children id).map g.render)
  return .set s inclusion description

def factorSymbols (g : Grammar) (rule : String) (id : NodeId) : Except Error (List Symbol) :=
  let replacement := firstOf Directive.replacement? (g.node id).pragmas
  let terminal (mark : TerminalMark) (inclusion : Bool) :=
    (matcherOf g rule id inclusion).map fun m => [.terminal m (terminalAttributes mark)]
  match g.kind id with
  | .nonterminal .. => .ok [usedSymbol g (g.node id).toLabel]
  | .literal mark value => .ok (literalSymbols mark value.text.toList replacement)
  | .insertion value => .ok [insertionSymbol (replacement.getD value.text)]
  | .inclusion mark => terminal mark true
  | .exclusion mark => terminal mark false
  | _ => .error (unexpected g id rule)

def soleAlt (g : Grammar) (rule : NodeId) : Except Error NodeId :=
  match g.children rule with
  | [] => .error (unexpected g rule (g.nameText rule))
  | [alt] => if g.kind alt == .alt then .ok alt else .error (unexpected g alt (g.nameText rule))
  | other :: _ => .error (unexpected g other (g.nameText rule))

def ruleFrom (g : Grammar) (rule : NodeId) : Except Error Rule := do
  let alt ← soleAlt g rule
  let parts ← (g.children alt).mapM (factorSymbols g (g.nameText rule))
  return ⟨definedSymbol g (g.node rule).toLabel, parts.flatten⟩

def isInsertion (s : Symbol) : Bool :=
  s.attributes.mark == '+'

end Bnf.OfGrammar

namespace Bnf

open OfGrammar

/-- The BNF of a simplified grammar. -/
def ofGrammar (g : Grammar) : Except Error Bnf :=
  match g.start.bind fun name => (g.definitions name).head? with
  | none => .error .emptyGrammar
  | some first => do
    let rules ← g.rules.mapM (ruleFrom g)
    let rules := if rules.any (·.rhs.any isInsertion) then rules ++ [insertionRuleEntry] else rules
    return ⟨rules, definedSymbol g (g.node first).toLabel, g.version, g.defaultNamespace⟩

/-- The note on a grammar that has been built. -/
def buildNote (g : Bnf) : Note :=
  ⟨.detail, s!"[compile] {g.rules.length} canonical rules, start symbol " ++ g.startName⟩

end Bnf

end Ixml
