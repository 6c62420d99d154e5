import Ixml.Grammar.Node

/-!
# Trees of labels

A part of a grammar apart from its place in a store: a label with the trees below it.
-/

namespace Ixml

/-- A label and the trees below it, in order. -/
inductive Tree
  | node (label : Label) (children : List Tree)
deriving Inhabited

namespace Tree

/-- The label at the top. -/
def label : Tree → Label
  | node l _ => l

/-- The trees below the top. -/
def children : Tree → List Tree
  | node _ ts => ts

/-- A node of a given kind without a name. -/
def ofKind (kind : Construct) (children : List Tree := []) : Tree :=
  node { kind } children

/-- A node of a given kind with a name. -/
def named (kind : Construct) (name : String) (children : List Tree := []) : Tree :=
  node { kind, name := some name } children

/-- Put further trees below the top, after those that are there. -/
def append : Tree → List Tree → Tree
  | node l ts, us => node l (ts ++ us)

mutual

/-- The number of nodes. -/
def size : Tree → Nat
  | node _ ts => sizeForest ts + 1

/-- The number of nodes of several trees. -/
def sizeForest : List Tree → Nat
  | [] => 0
  | t :: ts => size t + sizeForest ts

end

end Tree

end Ixml
