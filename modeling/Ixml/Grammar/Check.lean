import Ixml.Grammar.Basic

/-!
# Definitions and references

No rule may be defined twice, and every reference should name a rule. The check looks at a grammar as it was
read, before alternatives become rules of their own.
-/

namespace Ixml.Grammar

/-- The first name that occurs among the earlier ones, `seen` or not yet passed. -/
def firstRepeated : List String → List String → Option String
  | _, [] => none
  | seen, name :: rest => if seen.contains name then some name else firstRepeated (name :: seen) rest

/-- The references below a rule, in order. -/
def references (g : Grammar) (rule : NodeId) : List NodeId :=
  (g.nodesFrom rule).filter fun id => (g.kind id).isNonterminal

/-- The first reference without a rule: its name, and the name of the rule that it stands in. -/
def firstUndefined (g : Grammar) : Option (String × String) :=
  let defined := g.rules.map g.nameText
  g.rules.findSome? fun rule =>
    ((g.references rule).find? fun id => !defined.contains (g.nameText id)).map fun id =>
      (g.nameText id, g.nameText rule)

/-- Refuse a grammar that defines a rule twice or, if asked, refers to a rule that it does not define. -/
def check (g : Grammar) (undefinedToo : Bool) : Except Error Unit :=
  match firstRepeated [] (g.rules.map g.nameText) with
  | some name => .error (.ruleRedefined name)
  | none =>
    if undefinedToo then
      match g.firstUndefined with
      | some (name, rule) => .error (.undefinedNonterminal name rule)
      | none => .ok ()
    else .ok ()

end Ixml.Grammar
