import Ixml.Bnf.Basic
import Ixml.Decimal.Shortest
import Ixml.Work

/-!
# Choosing among alternatives

Where a derivation can go on in several ways, the one whose rule and references weigh most is chosen, and
of several such the first. The chooser counts the choices and those that the weights did not decide.
-/

namespace Ixml

/-- What has been chosen so far. -/
structure Chooser where
  choices : Nat := 0
  /-- The choices in which the greatest weight was shared. -/
  undecided : Nat := 0
  /-- The symbols whose derivations would have gone on forever. -/
  loops : List String := []
deriving DecidableEq, Repr, Inhabited

namespace Chooser

/-- The index and the value of the first greatest of some values, given the best so far and the index that
comes next. -/
def bestFrom {α : Type} (lt : α → α → Bool) (best : Nat × α) (index : Nat) : List α → Nat × α
  | [] => best
  | x :: xs => bestFrom lt (if lt best.2 x then (index, x) else best) (index + 1) xs

/-- The index and the value of the first greatest of some values. -/
def best? {α : Type} (lt : α → α → Bool) : List α → Option (Nat × α)
  | [] => none
  | x :: xs => some (bestFrom lt (0, x) 1 xs)

/-- The weight of a rule: its own and those of the nonterminals it uses. -/
def weight (r : Rule) : Float :=
  r.lhs.attributes.priority +
    ((r.rhs.filter (!·.isTerminal)).map (·.attributes.priority)).foldl (· + ·) (-0.0)

def choose (rules : List Rule) : Work Chooser Nat := do
  if rules.length ≤ 1 then
    return 0
  else
    let weights := rules.map weight
    match best? (fun (x y : Float) => decide (x < y)) weights with
    | none => return 0
    | some (index, top) => do
      let tied := (weights.filter (· == top)).length
      Work.update fun s =>
        { s with choices := s.choices + 1,
                 undecided := if 1 < tied then s.undecided + 1 else s.undecided }
      let name := (rules[index]?.map Rule.name).getD ""
      Work.detail (s!"[select] {rules.length} alternatives for " ++ name ++
        s!", chose {index} (score " ++ Decimal.text top ++ s!", {tied} tied)")
      return index

/-- Take down a symbol whose derivation would go on forever. -/
def noteLoop (symbol : Symbol) : Work Chooser Unit := do
  Work.detail ("[select] loop on " ++ symbol.text)
  Work.update fun s => { s with loops := s.loops ++ [symbol.text] }

def hadChoice (s : Chooser) : Bool :=
  0 < s.choices

/-- Whether there was a choice that the weights did not decide. -/
def hadUndecided (s : Chooser) : Bool :=
  0 < s.undecided

end Chooser

end Ixml
