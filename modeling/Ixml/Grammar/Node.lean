import Ixml.Error

/-!
# Nodes of a grammar

What a place in a grammar can hold: its kind with the marks and texts that belong to it, its name, and the
pragmas that have been attached to it.
-/

namespace Ixml

/-- How a rule or nonterminal shows in the result. -/
inductive Mark
  | element
  | attr
  | hidden
deriving DecidableEq, Repr, Inhabited

namespace Mark

def sign : Mark → Char
  | element => '^'
  | attr => '@'
  | hidden => '-'

def ofSign : Char → Except Error Mark
  | '^' => .ok element
  | '@' => .ok attr
  | '-' => .ok hidden
  | c => .error (.invalidMark c)

theorem ofSign_sign (m : Mark) : ofSign m.sign = .ok m := by
  cases m <;> rfl

end Mark

/-- Whether a terminal shows in the result. -/
inductive TerminalMark
  | keep
  | hidden
deriving DecidableEq, Repr, Inhabited

namespace TerminalMark

def sign : TerminalMark → Char
  | keep => '^'
  | hidden => '-'

def ofSign : Char → Except Error TerminalMark
  | '^' => .ok keep
  | '-' => .ok hidden
  | c => .error (.invalidMark c)

theorem ofSign_sign (m : TerminalMark) : ofSign m.sign = .ok m := by
  cases m <;> rfl

end TerminalMark

/-- The text of a literal or an insertion: a quoted string, or one character by its code. -/
inductive Literal
  | quoted (text : String)
  | coded (char : Char)
deriving DecidableEq, Repr, Inhabited

namespace Literal

/-- The text that a literal stands for. -/
def text : Literal → String
  | quoted s => s
  | coded c => String.singleton c

def ofHex (digits : String) : Except Error Literal :=
  match Text.Hex.read? digits.toList with
  | some n => if h : n.isValidChar then .ok (coded (Char.ofNatAux n h)) else .error (.invalidHex digits)
  | none => .error (.invalidHex digits)

/-- A character of a string between double quotes. -/
def doubled (c : Char) : String :=
  if c == '"' then "\"\"" else String.singleton c

/-- A literal in grammar text. -/
def render : Literal → String
  | quoted s => "\"" ++ String.join (s.toList.map doubled) ++ "\""
  | coded c => "#" ++ Text.Hex.lower c.toNat

end Literal

/-- What a pragma asks for. -/
inductive Directive
  /-- Another name in the result, for a rule or a nonterminal. -/
  | rename (name : String)
  /-- Leave the element out if it has neither attributes nor children. -/
  | discardEmpty
  | priority (weight : Float)
  | defaultPriority (weight : Float)
  | token (text : String)
  | regex (text : String)
  | metadata (uri : String) (data : Option String)
  /-- Another text in place of what a literal or insertion stands for. -/
  | replacement (text : String)
  /-- The default namespace of the result. -/
  | xmlns (uri : String)
deriving Repr, Inhabited

/-- A pragma that is understood: its name and data as written, and what it asks for. -/
structure Pragma where
  name : String
  data : String
  directive : Directive
deriving Repr, Inhabited

/-- The kinds of nodes. -/
inductive Construct
  /-- The root; below it are the prolog, pragmas and rules. -/
  | ixml
  | prolog
  | version (text : String)
  /-- A rule; below it is its body, the alternatives or a single alternative. -/
  | rule (mark : Mark) (rename : Option String)
  | alts
  | alt
  /-- A reference; without a mark of its own it takes the one of its rule. -/
  | nonterminal (mark : Option Mark) (rename : Option String)
  | literal (mark : TerminalMark) (value : Literal)
  | insertion (value : Literal)
  /-- A category code, in a set. -/
  | charClass (code : String)
  | range (first last : Char)
  | inclusion (mark : TerminalMark)
  | exclusion (mark : TerminalMark)
  /-- A repetition; below it are the factor and the separator if there is one. -/
  | repeat0
  | repeat1
  | sep
  | option
  /-- A pragma as written, before it is understood. -/
  | pragma (name data : String)
deriving DecidableEq, Repr, Inhabited

namespace Construct

def label : Construct → String
  | ixml => "ixml"
  | prolog => "prolog"
  | version _ => "version"
  | rule .. => "rule"
  | alts => "alts"
  | alt => "alt"
  | nonterminal .. => "nonterminal"
  | literal .. => "literal"
  | insertion _ => "insertion"
  | charClass _ => "class"
  | range .. => "range"
  | inclusion _ => "inclusion"
  | exclusion _ => "exclusion"
  | repeat0 => "repeat0"
  | repeat1 => "repeat1"
  | sep => "sep"
  | option => "option"
  | pragma .. => "pragma"

def isRule : Construct → Bool
  | rule .. => true
  | _ => false

def isNonterminal : Construct → Bool
  | nonterminal .. => true
  | _ => false

def isPragma : Construct → Bool
  | pragma .. => true
  | _ => false

end Construct

/-- What a node holds, apart from its place among the others. -/
structure Label where
  kind : Construct
  name : Option String := none
  /-- Whether the node stands for an option that was written as a rule of its own. -/
  isOptional : Bool := false
  pragmas : List Pragma := []
deriving Repr, Inhabited

/-- The name, empty if there is none. -/
def Label.nameText (l : Label) : String :=
  l.name.getD ""

end Ixml
