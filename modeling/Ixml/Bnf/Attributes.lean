import Ixml.Assoc
import Ixml.Decimal.Read

/-!
# Attributes of symbols

Every symbol of a BNF grammar carries attributes in order, which say how what it matches is written as
XML. An attribute that is missing has a default.
-/

namespace Ixml

/-- The attributes of a symbol, in the order in which they were set. -/
structure Attributes where
  entries : Assoc := []
deriving DecidableEq, Repr, Inhabited

namespace Attributes

def markKey : String := "mark"
def terminalMarkKey : String := "tmark"
def nameKey : String := "name"
/-- Another name for the result. -/
def renameKey : String := "rename"
/-- Set on what stands for an option. -/
def optionalKey : String := "optional"
/-- Set on symbols that have been made up. -/
def pruningKey : String := "pruning"
/-- The weight of a rule or a reference in a choice. -/
def priorityKey : String := "priority"
/-- Set where an empty element is left out. -/
def discardEmptyKey : String := "discard-empty"
def insertionKey : String := "insertion"
/-- The text that replaces the matched character. -/
def replacementKey : String := "rewrite"
/-- The default namespace of the result. -/
def xmlnsKey : String := "xmlns"
def tokenKey : String := "token"
def regexKey : String := "regex"
def metadataKey : String := "metadata"

/-- Set an attribute. One that is there keeps its place. -/
def set (a : Attributes) (key value : String) : Attributes :=
  ⟨Assoc.insert key value a.entries⟩

def setOption (a : Attributes) (key : String) : Option String → Attributes
  | some value => a.set key value
  | none => a

def setIf (a : Attributes) (b : Bool) (key value : String) : Attributes :=
  if b then a.set key value else a

def get? (a : Attributes) (key : String) : Option String :=
  Assoc.find? key a.entries

def has (a : Attributes) (key : String) : Bool :=
  (a.get? key).isSome

/-- The first character of an attribute; `^` if it is missing or empty. -/
def signAt (a : Attributes) (key : String) : Char :=
  ((a.get? key).bind (·.toList.head?)).getD '^'

def mark (a : Attributes) : Char :=
  a.signAt markKey

def terminalMark (a : Attributes) : Char :=
  a.signAt terminalMarkKey

/-- The name, empty if it is missing. -/
def name (a : Attributes) : String :=
  (a.get? nameKey).getD ""

def outputName (a : Attributes) : String :=
  (a.get? renameKey).getD a.name

/-- The weight; zero if it is missing or no number. -/
def priority (a : Attributes) : Float :=
  ((a.get? priorityKey).bind Decimal.read?).getD 0.0

def discardEmpty (a : Attributes) : Bool :=
  a.get? discardEmptyKey == some "true"

end Attributes

end Ixml
