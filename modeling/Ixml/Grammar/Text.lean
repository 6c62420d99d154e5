import Ixml.Grammar.Basic

/-!
# Grammar text

`Grammar.render` writes a node and all below it in the notation of grammars. A group stands in
parentheses unless it is the body of a rule.
-/

namespace Ixml

/-- The sign of a mark in front of a name; the mark of an element is left out. -/
def Mark.ruleSign (m : Mark) : String :=
  if m = .element then "" else String.singleton m.sign

/-- The sign of a mark in front of a terminal; the mark of one that is kept is left out. -/
def TerminalMark.optionalSign (m : TerminalMark) : String :=
  if m = .hidden then String.singleton m.sign else ""

namespace Grammar

/-- The members of a set in brackets. -/
def setText (parts : List String) : String :=
  "[" ++ "; ".intercalate parts ++ "]"

/-- A repetition with the sign `op`: the factor and the separator, if there is one. -/
def repeatText (op : String) (parts : List String) : String :=
  match parts with
  | [] => op
  | [factor] => factor ++ op
  | factor :: separator :: _ => factor ++ op ++ op ++ separator

/-- A node in grammar text, for the texts of its children. `nested` says whether it is below a node
other than a rule. -/
def nodeText (l : Label) (nested : Bool) (parts : List String) : String :=
  match l.kind with
  | .ixml => String.join (parts.map (· ++ "\n"))
  | .prolog => String.join parts
  | .version v => "ixml version \"" ++ v ++ "\"."
  | .rule mark _ => mark.ruleSign ++ l.nameText ++ ": " ++ String.join parts ++ "."
  | .alts =>
    let body := "; ".intercalate parts
    if nested then "(" ++ body ++ ")" else body
  | .alt => ", ".intercalate parts
  | .nonterminal mark _ =>
    (match mark with
      | some m => String.singleton m.sign
      | none => "") ++ l.nameText
  | .literal mark value => mark.optionalSign ++ value.render
  | .insertion value => "+" ++ value.render
  | .charClass code => code
  | .range a b => "#" ++ Text.Hex.lower a.toNat ++ "-#" ++ Text.Hex.lower b.toNat
  | .inclusion mark => mark.optionalSign ++ setText parts
  | .exclusion mark => mark.optionalSign ++ "~" ++ setText parts
  | .repeat0 => repeatText "*" parts
  | .repeat1 => repeatText "+" parts
  | .sep => parts.headD ""
  | .option => parts.headD "" ++ "?"
  | .pragma name data => "\x7b[" ++ name ++ " " ++ data ++ "]\x7d"

/-- Whether a node is below a node other than a rule. -/
def isNested (g : Grammar) (id : NodeId) : Bool :=
  match g.parent id with
  | some p => !(g.kind p).isRule
  | none => false

/-- The text of a node and of what is below it down to a given depth. -/
def renderTo (g : Grammar) : Nat → NodeId → String
  | 0, _ => ""
  | fuel + 1, id =>
    nodeText (g.node id).toLabel (g.isNested id) ((g.children id).map (renderTo g fuel))

/-- A node and all below it in grammar text. -/
def render (g : Grammar) (id : NodeId) : String :=
  g.renderTo g.depthBound id

end Grammar

end Ixml
