import Ixml.Assoc
import Ixml.Grammar.Tree

/-!
# Grammars

A `Grammar` is a store of nodes that are addressed by their index, so that a simplification can move and
replace them in place. Child lists give the order, and each node links back to its parent. Node `0` is the
root. A node that has been cut off stays in the store but is not below the root any more.

Walks down or up the store carry a bound on their depth. The number of nodes is always enough, because no
path can be longer without meeting a node twice.
-/

namespace Ixml

abbrev NodeId := Nat

/-- A label with its place among the other nodes. -/
structure Node extends Label where
  parent : Option NodeId := none
  children : List NodeId := []
deriving Repr, Inhabited

/-- A grammar: its nodes, and what belongs to it as a whole. -/
structure Grammar where
  nodes : Array Node := #[{ kind := .ixml }]
  /-- How many names have been made up for new rules. -/
  madeUp : Nat := 0
  start : Option String := none
  /-- The namespace prefixes that pragmas may use. -/
  bindings : Assoc := []
  defaultNamespace : Option String := none
  /-- Rules that wait to join the others. -/
  waiting : List NodeId := []
deriving Repr, Inhabited

namespace Grammar

def root : NodeId := 0

def node (g : Grammar) (id : NodeId) : Node :=
  g.nodes.getD id { kind := .ixml }

def kind (g : Grammar) (id : NodeId) : Construct :=
  (g.node id).kind

/-- The name of a node, empty if it has none. -/
def nameText (g : Grammar) (id : NodeId) : String :=
  (g.node id).nameText

def children (g : Grammar) (id : NodeId) : List NodeId :=
  (g.node id).children

def parent (g : Grammar) (id : NodeId) : Option NodeId :=
  (g.node id).parent

def modify (g : Grammar) (id : NodeId) (f : Node → Node) : Grammar :=
  { g with nodes := g.nodes.modify id f }

def setParent (g : Grammar) (id : NodeId) (p : Option NodeId) : Grammar :=
  g.modify id fun n => { n with parent := p }

/-- The address that the next new node gets. -/
def next (g : Grammar) : NodeId :=
  g.nodes.size

/-- Add a node without a place, at the address `g.next`. -/
def push (g : Grammar) (l : Label) : Grammar :=
  { g with nodes := g.nodes.push { toLabel := l } }

/-- Make `child` the last child of `parent`. -/
def append (g : Grammar) (parent child : NodeId) : Grammar :=
  (g.setParent child (some parent)).modify parent fun n => { n with children := n.children ++ [child] }

/-- Put `new` into the place of `old`, which loses its own. -/
def replace (g : Grammar) (old new : NodeId) : Grammar :=
  match g.parent old with
  | none => g
  | some p =>
    let g := g.modify p fun n =>
      { n with children := n.children.map fun c => if c = old then new else c }
    (g.setParent new (some p)).setParent old none

/-- Take a node out of its place. -/
def detach (g : Grammar) (id : NodeId) : Grammar :=
  match g.parent id with
  | none => g
  | some p =>
    (g.setParent id none).modify p fun n => { n with children := n.children.filter (· ≠ id) }

/-- A bound on the depth of a walk. -/
def depthBound (g : Grammar) : Nat :=
  g.nodes.size

/-- Follow the links to the parents up to the top. -/
def topWithin (g : Grammar) : Nat → NodeId → NodeId
  | 0, id => id
  | fuel + 1, id =>
    match g.parent id with
    | none => id
    | some p => topWithin g fuel p

/-- The topmost node above a node, or the node itself. -/
def topOf (g : Grammar) (id : NodeId) : NodeId :=
  g.topWithin g.depthBound id

/-- Follow the links to the parents up to a rule. -/
def ruleWithin (g : Grammar) : Nat → NodeId → Option NodeId
  | 0, _ => none
  | fuel + 1, id =>
    if (g.kind id).isRule then some id else (g.parent id).bind (ruleWithin g fuel)

/-- The nearest rule that a node belongs to. -/
def enclosingRule? (g : Grammar) (id : NodeId) : Option NodeId :=
  g.ruleWithin (g.depthBound + 1) id

/-- A node and all nodes below it, each before its children. -/
def preorder (g : Grammar) : Nat → NodeId → List NodeId
  | 0, _ => []
  | fuel + 1, id => id :: (g.children id).flatMap (preorder g fuel)

/-- A node and all nodes below it, in the order of the text. -/
def nodesFrom (g : Grammar) (id : NodeId) : List NodeId :=
  g.preorder g.depthBound id

/-- The tree below a node down to a given depth. -/
def treeTo (g : Grammar) : Nat → NodeId → Tree
  | 0, id => .node (g.node id).toLabel []
  | fuel + 1, id => .node (g.node id).toLabel ((g.children id).map (treeTo g fuel))

def tree (g : Grammar) (id : NodeId) : Tree :=
  g.treeTo g.depthBound id

mutual

/-- Add a tree without a place. Its top gets the address `g.next`, and the nodes below follow in the order
of the text. -/
def addTree (g : Grammar) : Tree → Grammar
  | .node l ts => addChildren (g.push l) g.next ts

/-- Add trees as the last children of `parent`. -/
def addChildren (g : Grammar) (parent : NodeId) : List Tree → Grammar
  | [] => g
  | t :: ts => addChildren ((addTree g t).append parent g.next) parent ts

end

/-- Copy a node and all below it down to a given depth. Each copy is there before those of its children, and
what is still to be copied is read from the store that grows. -/
def copyTo : Nat → Grammar → NodeId → Grammar
  | 0, g, id => g.push (g.node id).toLabel
  | fuel + 1, g, id =>
    (g.children id).foldl (fun h c => (copyTo fuel h c).append g.next h.next) (g.push (g.node id).toLabel)

/-- Copy a node and all below it to new nodes without a place. The copy of the node gets the address
`g.next`. -/
def copy (g : Grammar) (id : NodeId) : Grammar :=
  g.copyTo g.depthBound id

/-- Make a rule the last child of the root. The first rule that joins gives the start symbol. -/
def joinRule (g : Grammar) (rule : NodeId) : Grammar :=
  ({ g with start := g.start <|> (g.node rule).name } : Grammar).append root rule

/-- Let a rule wait until the next `joinWaiting`. -/
def defer (g : Grammar) (rule : NodeId) : Grammar :=
  { g with waiting := g.waiting ++ [rule] }

/-- Let all waiting rules join. -/
def joinWaiting (g : Grammar) : Grammar :=
  g.waiting.foldl joinRule { g with waiting := [] }

def rules (g : Grammar) : List NodeId :=
  (g.children root).filter fun id => (g.kind id).isRule

def definitions (g : Grammar) (name : String) : List NodeId :=
  g.rules.filter fun id => g.nameText id == name

def versionAt? (g : Grammar) (id : NodeId) : Option String :=
  match g.kind id with
  | .version v => some v
  | _ => none

/-- The version that the prolog states. -/
def version (g : Grammar) : Option String :=
  ((g.children root).find? fun id => g.kind id == .prolog).bind fun id =>
    (g.children id).findSome? g.versionAt?

/-- Bind a namespace prefix, in place of an earlier binding of it. -/
def bind (g : Grammar) (nsPrefix uri : String) : Grammar :=
  { g with bindings := Assoc.insert nsPrefix uri g.bindings }

/-- The namespace that a prefix is bound to. -/
def uri? (g : Grammar) (nsPrefix : String) : Option String :=
  Assoc.find? nsPrefix g.bindings

/-- The next made-up rule name: a hint at what the rule stands for, a number that no other name has, and
the kind of construct. -/
def nextName (g : Grammar) (hint kind : String) : String :=
  "$" ++ hint ++ "_" ++ toString (g.madeUp + 1) ++ "_" ++ kind

def countName (g : Grammar) : Grammar :=
  { g with madeUp := g.madeUp + 1 }

/-- Add a tree as the last child of the root. -/
def addTop (g : Grammar) (t : Tree) : Grammar :=
  if t.label.kind.isRule then (g.addTree t).joinRule g.next else (g.addTree t).append root g.next

/-- The grammar with the given trees below the root. -/
def ofForest (ts : List Tree) : Grammar :=
  ts.foldl addTop {}

end Grammar

end Ixml
