import Ixml.Bnf.Basic
import Ixml.Document.Draft
import Ixml.Text.Position

/-!
# Where a parse fails

A failure says where the input could not be read on, what stood there and which terminals would have been
possible. It is written as a small document with the root `failed`.
-/

namespace Ixml

/-- A rule of which a part has been matched. -/
structure DottedRule where
  rule : Rule
  /-- How many symbols have been matched. -/
  dot : Nat
  /-- Where the match began. -/
  start : Nat
deriving DecidableEq, Repr, Inhabited

namespace DottedRule

def isComplete (i : DottedRule) : Bool :=
  i.rule.rhs.length ≤ i.dot

def next? (i : DottedRule) : Option Symbol :=
  i.rule.rhs[i.dot]?

/-- A dotted rule as text, with a bullet after what has been matched. -/
def text (i : DottedRule) : String :=
  let symbol (index : Nat) (s : Symbol) := (if index = i.dot then " •" else "") ++ " " ++ s.text
  i.rule.lhs.text ++ " ::=" ++ String.join (i.rule.rhs.mapIdx symbol) ++
    (if i.isComplete then " •" else "") ++ s!" ({i.start})"

end DottedRule

/-- The dotted rules for each place of the input, as far as the chart goes. -/
abbrev ChartRows := List (List DottedRule)

def ChartRows.lastRow? (rows : ChartRows) : Option (List DottedRule) :=
  rows.reverse.find? (!·.isEmpty)

/-- What is known of a failure. -/
structure Failure where
  line : Option Nat := none
  column : Option Nat := none
  /-- The number of bytes before the failure. -/
  position : Option Nat := none
  /-- The character that could not be read; none at the end of the input. -/
  unexpected : Option Char := none
  /-- The terminals that were possible. -/
  predicted : List Symbol := []
  chart : Option ChartRows := none
deriving DecidableEq, Repr, Inhabited

namespace Failure

def byteLength (cs : List Char) : Nat :=
  cs.foldl (fun n c => n + c.utf8Size) 0

/-- A failure at the character with the given index, or at the end. -/
def atIndex (input : String) (index : Nat) : Failure :=
  let cs := input.toList
  let p := Text.positionAt input index
  { line := some p.line, column := some p.column, position := some (byteLength (cs.take index)),
    unexpected := cs[index]? }

/-- The texts of all terminals that were possible: those that were predicted, and those that come next in
the last row of the chart. -/
def possibleTexts (f : Failure) : List String :=
  let row := (f.chart.bind ChartRows.lastRow?).getD []
  f.predicted.map Symbol.text ++
    ((row.filterMap DottedRule.next?).filter Symbol.isTerminal).map Symbol.text

/-- The texts of the terminals that were possible, each once, in the order of their characters. -/
def permitted (f : Failure) : List String :=
  (f.possibleTexts.mergeSort fun a b => decide (a ≤ b)).eraseReps

/-- A character, or its code where it would not be seen. -/
def describe (c : Char) : String :=
  if Xml.isPrintable c then String.singleton c else "#" ++ Text.Hex.lower c.toNat

def textElement (name text : String) : List Xml.Event :=
  [.startElement "" name name [], .characters text, .endElement "" name name]

def wrapElement (name : String) (attributes : List Xml.Attribute) (content : List Xml.Event) :
    List Xml.Event :=
  .startElement "" name name attributes :: (content ++ [.endElement "" name name])

def rowEvents (index : Nat) (row : List DottedRule) : List Xml.Event :=
  wrapElement "row" [.plain "n" (toString index)] (row.flatMap fun i => textElement "item" i.text)

def chartEvents (rows : ChartRows) : List Xml.Event :=
  wrapElement "chart" [] (rows.mapIdx rowEvents).flatten

/-- An element with a number, if the number is known. -/
def numberElement (name : String) : Option Nat → List Xml.Event
  | some n => textElement name (toString n)
  | none => []

/-- The document of a failure, with the chart if it is to be shown. -/
def document (f : Failure) (showChart : Bool) : List Xml.Event :=
  let state := Xml.Attribute.qualified Draft.ixmlNamespace "ixml" "state" "failed"
  let found := match f.unexpected with
    | some c => textElement "unexpected" (describe c)
    | none => wrapElement "end-of-input" [] []
  let permitted := f.permitted
  let possible := if permitted.isEmpty then [] else textElement "permitted" (", ".intercalate permitted)
  let chart := match f.chart with
    | some rows => if showChart then chartEvents rows else []
    | none => []
  [.startDocument, .declare "ixml" Draft.ixmlNamespace] ++
    wrapElement "failed" [state]
      (numberElement "line" f.line ++ numberElement "column" f.column ++
        numberElement "pos" f.position ++ found ++ possible ++ chart) ++
    [.endDocument]

end Failure

end Ixml
