import Ixml.Text.Position
import Ixml.Text.Quoted

/-!
# Errors

What can go wrong while a grammar is compiled or a result is built. Each kind has a stable code, and
the codes below `IXML0100` are those of a grammar that is at fault.
-/

namespace Ixml

open Text (Position)

/-- The causes of failure. -/
inductive Error
  /-- The source text is no grammar. -/
  | syntaxError (message : String) (position : Position)
  | invalidMark (mark : Char)
  | invalidHex (digits : String)
  /-- A range whose first character comes after its last. -/
  | invalidRange (first last : Char)
  | unknownClass (code : String)
  | duplicateRename (symbol first second : String)
  | ruleRedefined (name : String)
  | undefinedNonterminal (name rule : String)
  | emptyGrammar
  | malformedPragmaData (pragma data reason : String)
  | unboundPragmaPrefix (nsPrefix pragma : String)
  /-- A construct that a BNF rule cannot hold. -/
  | unexpectedNode (kind rule : String)
  | notSingleRooted
  | attributeAtRoot (name : String)
  | duplicateAttribute (element name : String)
  | reservedAttribute (name : String)
  | invalidXmlName (name : String)
  | invalidXmlChar (code : Nat)
  /-- Events that do not match the open nodes. -/
  | unbalancedEvents (detail : String)
deriving DecidableEq, Repr

namespace Error

/-- The stable code of the kind of error. -/
def code : Error → String
  | syntaxError .. => "IXML0001"
  | invalidMark _ => "IXML0002"
  | invalidHex _ => "IXML0003"
  | invalidRange .. => "IXML0004"
  | unknownClass _ => "IXML0005"
  | duplicateRename .. => "IXML0006"
  | ruleRedefined _ => "IXML0007"
  | undefinedNonterminal .. => "IXML0008"
  | emptyGrammar => "IXML0009"
  | malformedPragmaData .. => "IXML0010"
  | unboundPragmaPrefix .. => "IXML0011"
  | unexpectedNode .. => "IXML0100"
  | notSingleRooted => "IXML0101"
  | attributeAtRoot _ => "IXML0102"
  | duplicateAttribute .. => "IXML0103"
  | reservedAttribute _ => "IXML0104"
  | unbalancedEvents _ => "IXML0105"
  | invalidXmlName _ => "IXML0200"
  | invalidXmlChar _ => "IXML0201"

/-- Whether the grammar is at fault, and not the result of a parse. -/
def isConfiguration (e : Error) : Bool :=
  e.code < "IXML0100"

/-- The message. -/
def message : Error → String
  | syntaxError m p => s!"syntax error at line {p.line}, column {p.column}: " ++ m
  | invalidMark c => "invalid mark '" ++ String.singleton c ++ "', expected one of '^', '@', '-'"
  | invalidHex digits => "invalid hexadecimal character '#" ++ digits ++ "'"
  | invalidRange a b =>
    "invalid range " ++ Text.Quoted.char a ++ "-" ++ Text.Quoted.char b ++
      ": start is greater than end"
  | unknownClass code => "unknown character class code '" ++ code ++ "'"
  | duplicateRename symbol first second =>
    "'" ++ symbol ++ "' has more than one rename pragma ('" ++ first ++ "' and '" ++ second ++ "')"
  | ruleRedefined name => "rule '" ++ name ++ "' is defined more than once"
  | undefinedNonterminal name rule =>
    "nonterminal '" ++ name ++ "' used in rule '" ++ rule ++ "' is never defined"
  | emptyGrammar => "grammar has no rules"
  | malformedPragmaData pragma data reason =>
    "malformed data for pragma '" ++ pragma ++ "': " ++ reason ++ " (data: " ++
      Text.Quoted.string data ++ ")"
  | unboundPragmaPrefix nsPrefix pragma =>
    "pragma '" ++ pragma ++ "' uses unbound namespace prefix '" ++ nsPrefix ++ "'"
  | unexpectedNode kind rule =>
    "unexpected " ++ kind ++ " node in simplified rule '" ++ rule ++ "'"
  | notSingleRooted => "result is not single rooted"
  | attributeAtRoot name => "attribute '" ++ name ++ "' cannot be attached to the document root"
  | duplicateAttribute element name =>
    "duplicate attribute '" ++ name ++ "' on element '" ++ element ++ "'"
  | reservedAttribute name =>
    "attribute name '" ++ name ++ "' is reserved for namespace declarations"
  | invalidXmlName name => "'" ++ name ++ "' is not a valid XML name"
  | invalidXmlChar code => "character #" ++ Text.Hex.upper code ++ " is not allowed in XML"
  | unbalancedEvents detail => "unbalanced parse events: " ++ detail

end Error

end Ixml
