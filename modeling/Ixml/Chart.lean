import Ixml.Failure

/-!
# Locating a failure

A chart is filled along the input. Row `k` holds the rules that may be under way after `k` characters: those
that the row calls for, and those that go on where another is complete. The first character for which nothing
can go on is where the input stops being the beginning of a sentence.
-/

namespace Ixml.Chart

/-- A rule by its index, how much of it has been matched, and where the match began. -/
structure Item where
  rule : Nat
  dot : Nat
  start : Nat
deriving DecidableEq, Repr, Inhabited

/-- The items of one place of the input, in the order in which they were found. -/
abbrev Row := Array Item

def next? (rules : Array Rule) (i : Item) : Option Symbol :=
  rules[i.rule]?.bind fun r => r.rhs[i.dot]?

def nameOf (rules : Array Rule) (i : Item) : String :=
  (rules[i.rule]?.map Rule.name).getD ""

/-- One symbol further. -/
def Item.shift (i : Item) : Item :=
  { i with dot := i.dot + 1 }

/-- The rules of a given name, about to begin at `k`. -/
def predict (rules : Array Rule) (k : Nat) (name : String) : List Item :=
  ((List.range rules.size).filter fun i => (rules[i]?.map Rule.name) == some name).map (⟨·, 0, k⟩)

/-- The items of a row that wait for the nonterminal `name`, one symbol further. -/
def complete (rules : Array Rule) (origin : Row) (name : String) : List Item :=
  (origin.toList.filter fun i => ((next? rules i).bind Symbol.name?) == some name).map Item.shift

/-- What an item of row `k` calls for. -/
def consequences (rules : Array Rule) (k : Nat) (rows : Array Row) (row : Row) (i : Item) : List Item :=
  match next? rules i with
  | some (.nonterminal name _) => predict rules k name
  | some (.terminal ..) => []
  | none =>
    complete rules (if i.start = k then row else rows.getD i.start #[]) (nameOf rules i)

/-- Add an item that is not there yet. -/
def add (row : Row) (i : Item) : Row :=
  if row.contains i then row else row.push i

/-- Add what the items of a row call for until there is nothing new. -/
def close (rules : Array Rule) (k : Nat) (rows : Array Row) : Nat → Row → Row
  | 0, row => row
  | fuel + 1, row =>
    let grown := (row.toList.flatMap (consequences rules k rows row)).foldl add row
    if grown.size = row.size then row else close rules k rows fuel grown

/-- The number of items that there can be in row `k`. -/
def itemCount (rules : Array Rule) (k : Nat) : Nat :=
  rules.foldl (fun n r => n + (r.rhs.length + 1)) 0 * (k + 1)

/-- Row `k` from the items it begins with. -/
def rowFrom (rules : Array Rule) (k : Nat) (rows : Array Row) (items : List Item) : Row :=
  close rules k rows (itemCount rules k + 1) (items.foldl add #[])

/-- The items of a row that go on over a character. -/
def scan (rules : Array Rule) (row : Row) (c : Char) : List Item :=
  (row.toList.filter fun i => (next? rules i).any (·.accepts c)).map Item.shift

/-- Add rows for characters, up to one that is empty. `row` is the last row so far. -/
def extend (rules : Array Rule) (rows : Array Row) (row : Row) : List Char → Array Row
  | [] => rows
  | c :: cs =>
    let new := rowFrom rules rows.size rows (scan rules row c)
    if new.isEmpty then rows.push new else extend rules (rows.push new) new cs

/-- The rows for an input. -/
def rowsFor (g : Bnf) (input : List Char) : Array Row :=
  let rules := g.rules.toArray
  let first := rowFrom rules 0 #[] (predict rules 0 g.startName)
  extend rules #[first] first input

/-- How many characters can be read: all, or those before the one for which a row is empty. -/
def reach (rows : Array Row) (length : Nat) : Nat :=
  if (rows.back?.map Array.isEmpty) == some true then rows.size - 2 else length

/-- The terminals that come next in a row. -/
def terminals (rules : Array Rule) (row : Row) : List Symbol :=
  (row.toList.filterMap (next? rules)).filter Symbol.isTerminal

def itemIn (rules : Array Rule) (i : Item) : Option DottedRule :=
  rules[i.rule]?.map fun r => ⟨r, i.dot, i.start⟩

/-- Where an input stops being the beginning of a sentence, what was possible there, and the chart. -/
def failure (g : Bnf) (input : String) : Failure :=
  let cs := input.toList
  let rules := g.rules.toArray
  let rows := rowsFor g cs
  let index := reach rows cs.length
  { Failure.atIndex input index with
    predicted := terminals rules (rows.getD index #[]),
    chart := some (rows.toList.map fun row => row.toList.filterMap (itemIn rules)) }

end Ixml.Chart
