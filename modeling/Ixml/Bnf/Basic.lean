import Ixml.Bnf.Attributes
import Ixml.CharSet.Basic

/-!
# BNF grammars

A BNF grammar is a list of rules, each a nonterminal and a sequence of symbols. A terminal matches one
character. Rules with the same name are alternatives.
-/

namespace Ixml

/-- What a terminal matches. -/
inductive Matcher
  | char (c : Char)
  /-- The members of a set, or all other characters. The description, if it is not empty, is how the set was
  written. -/
  | set (set : CharSet) (inclusion : Bool) (description : String)
deriving DecidableEq, Repr, Inhabited

namespace Matcher

def accepts : Matcher → Char → Bool
  | char d, c => d == c
  | set s inclusion _, c => s.contains c == inclusion

/-- The notation of a terminal. -/
def text : Matcher → String
  | char c => CharSet.memberText c
  | set s inclusion description =>
    if description.isEmpty then (if inclusion then "" else "~") ++ "[" ++ s.text ++ "]" else description

end Matcher

inductive Symbol
  | nonterminal (name : String) (attributes : Attributes)
  | terminal (matcher : Matcher) (attributes : Attributes)
deriving DecidableEq, Repr, Inhabited

namespace Symbol

def attributes : Symbol → Attributes
  | nonterminal _ a => a
  | terminal _ a => a

def name? : Symbol → Option String
  | nonterminal n _ => some n
  | terminal .. => none

/-- The name of a nonterminal, empty for a terminal. -/
def nameText (s : Symbol) : String :=
  s.name?.getD ""

def isTerminal : Symbol → Bool
  | terminal .. => true
  | nonterminal .. => false

/-- Whether the symbol is a terminal that matches a character. -/
def accepts : Symbol → Char → Bool
  | terminal m _, c => m.accepts c
  | nonterminal .., _ => false

/-- A symbol in notes and error documents. -/
def text : Symbol → String
  | nonterminal n _ => n
  | terminal m _ => m.text

end Symbol

structure Rule where
  lhs : Symbol
  rhs : List Symbol
deriving DecidableEq, Repr, Inhabited

namespace Rule

/-- The name that the rule defines. -/
def name (r : Rule) : String :=
  r.lhs.nameText

/-- A rule as a line of text. -/
def text (r : Rule) : String :=
  r.lhs.text ++ " ::=" ++
    (if r.rhs.isEmpty then " ε" else " " ++ ", ".intercalate (r.rhs.map Symbol.text))

end Rule

structure Bnf where
  rules : List Rule
  start : Symbol
  version : Option String := none
  defaultNamespace : Option String := none
deriving DecidableEq, Repr, Inhabited

namespace Bnf

def rulesFor (g : Bnf) (name : String) : List Rule :=
  g.rules.filter (·.name == name)

def startName (g : Bnf) : String :=
  g.start.nameText

/-- The rules, each on a line. -/
def text (g : Bnf) : String :=
  String.join (g.rules.map fun r => r.text ++ "\n")

end Bnf

end Ixml
