import Ixml.Simplify.Group
import Ixml.Work

/-!
# Simplifying a grammar

Passes go over a grammar until nothing changes any more. Then every rule has a single alternative, and every
alternative is a sequence of literals, sets, insertions and references. Rules that are made up in a step join
the others before the next step begins.
-/

namespace Ixml.Simplify

/-- Give up the given sorts of constructs, one after the other. -/
def giveUpEach (strategy : Strategy) : List Sugar → Edit Bool
  | [] => return false
  | t :: ts => do
    let here ← giveUpAll strategy t
    let there ← giveUpEach strategy ts
    return here || there

/-- One pass; whether it changed anything. -/
def pass (strategy : Strategy) : Edit Bool := do
  let split ← splitAll
  let emptied ← replaceEmptyAll
  let given ← giveUpEach strategy (Sugar.order strategy)
  let hoisted ← hoistAll
  return split || emptied || given || hoisted

/-- Run passes until one changes nothing, at most `fuel` of them. The numbers of rules after each pass, and
the grammar that is left. -/
def passes (strategy : Strategy) : Nat → Grammar → List Nat × Grammar
  | 0, g => ([], g)
  | fuel + 1, g =>
    let (changed, h) := (pass strategy).run g
    let count := h.rules.length
    if changed then
      let (counts, k) := passes strategy fuel h
      (count :: counts, k)
    else ([count], h)

/-- A bound on the number of passes: each takes constructs away that are nested in each other, and none is
nested deeper than there are nodes. -/
def passBound (g : Grammar) : Nat :=
  4 * g.nodes.size + 4

/-- A simplified grammar, and what it took. -/
structure Result where
  grammar : Grammar
  strategy : Strategy
  /-- The numbers of rules after each pass. -/
  counts : List Nat
  /-- How many rules have been added. -/
  added : Nat

namespace Result

/-- The number of passes. -/
def passes (r : Result) : Nat :=
  r.counts.length

/-- The note on the pass with the given index. -/
def passNote (r : Result) (index count : Nat) : Note :=
  ⟨.detail, s!"[simplify] pass {index + 1} (" ++ r.strategy.title ++ s!"): {count} rules"⟩

/-- The notes on all passes. -/
def notes (r : Result) : List Note :=
  r.counts.mapIdx r.passNote ++
    [⟨.detail, s!"[simplify] finished after {r.passes} passes, {r.added} rules added"⟩]

end Result

/-- Simplify a grammar. -/
def simplify (strategy : Strategy) (g : Grammar) : Result :=
  let (counts, h) := passes strategy (passBound g) g
  ⟨h, strategy, counts, h.rules.length - g.rules.length⟩

end Ixml.Simplify
