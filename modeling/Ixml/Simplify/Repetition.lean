import Ixml.Options.Basic
import Ixml.Simplify.Edit

/-!
# Repetitions and options as rules

Each repetition and option gives way to a reference to a rule of its own:

* `f?` to `X: ; f.`
* `f+` to `X: f; f, X.`
* `f*` to an option of `f+`, or directly to `X: ; f, X.`
* `f++s` to `X: f, (s, f)*.` or to `X: f; f, s, X.`
* `f**s` to `X: (f++s)?.` or to `X: ; f++s.`

The strategy decides between the two forms.
-/

namespace Ixml.Simplify

open Edit

/-- The constructs that are given up. -/
inductive Sugar
  | separatedStar
  | separatedPlus
  | star
  | plus
  | option
deriving DecidableEq, Repr

namespace Sugar

/-- What a made-up name says of the construct. -/
def suffix : Sugar → String
  | separatedStar => "star-sep"
  | separatedPlus => "plus-sep"
  | star => "star"
  | plus => "plus"
  | option => "option"

/-- Whether a node is such a construct. -/
def isAt (t : Sugar) (g : Grammar) (id : NodeId) : Bool :=
  let separated := 1 < (g.children id).length
  match t, g.kind id with
  | separatedStar, .repeat0 => separated
  | star, .repeat0 => !separated
  | separatedPlus, .repeat1 => separated
  | plus, .repeat1 => !separated
  | option, .option => true
  | _, _ => false

/-- The order in which the constructs are given up in a pass. -/
def order : Strategy → List Sugar
  | .spec => [separatedStar, separatedPlus, plus, star, option]
  | .alternate => [separatedStar, separatedPlus, star, plus, option]

end Sugar

/-- The name of the shared rule that matches nothing. -/
def emptyRule : String := "$empty"

/-- The factor of a repetition and its separator, if it has one, taken out of their places. A repetition of
nothing gives an empty alternative as the factor. -/
def takeApart (id : NodeId) : Edit (NodeId × Option NodeId) := do
  let cs := (← get).children id
  cs.forM detach
  match cs with
  | [] => return (← newKind .alt, none)
  | factor :: rest => return (factor, rest.head?)

/-- What a separator holds. -/
def separatorOf? (g : Grammar) (sep : Option NodeId) : Option NodeId :=
  sep.bind fun s => (g.children s).head?

/-- Give up `f**s`. -/
def separatedStar (strategy : Strategy) (id : NodeId) : Edit Unit := do
  let r ← newRule id Sugar.separatedStar.suffix
  let (factor, sep) ← takeApart id
  let plus ← newKind .repeat1
  append plus factor
  sep.forM (append plus)
  match strategy with
  | .spec => do
    let opt ← newKind .option
    append opt plus
    addAlt r.body [opt]
  | .alternate => do
    addAlt r.body []
    addAlt r.body [plus]
  referTo r id

/-- Give up `f++s`. -/
def separatedPlus (strategy : Strategy) (id : NodeId) : Edit Unit := do
  let r ← newRule id Sugar.separatedPlus.suffix
  let (factor, sep) ← takeApart id
  let inner := separatorOf? (← get) sep
  let again ← copy factor
  match strategy with
  | .spec => do
    let group ← newKind .alts
    inner.forM detach
    addAlt group (inner.toList ++ [again])
    let star ← newKind .repeat0
    append star group
    addAlt r.body [factor, star]
  | .alternate => do
    addAlt r.body [factor]
    inner.forM detach
    let self ← newReference r.name
    addAlt r.body (again :: inner.toList ++ [self])
  referTo r id

/-- Give up `f*`. -/
def star (strategy : Strategy) (id : NodeId) : Edit Unit := do
  match strategy with
  | .spec => do
    let (factor, _) ← takeApart id
    let plus ← newKind .repeat1
    append plus factor
    let opt ← newKind .option
    append opt plus
    replace id opt
  | .alternate => do
    let r ← newRule id Sugar.star.suffix
    let (factor, _) ← takeApart id
    addAlt r.body []
    let self ← newReference r.name
    addAlt r.body [factor, self]
    referTo r id

/-- Give up `f+`. -/
def plus (id : NodeId) : Edit Unit := do
  let r ← newRule id Sugar.plus.suffix
  let (factor, _) ← takeApart id
  let again ← copy factor
  addAlt r.body [factor]
  let self ← newReference r.name
  addAlt r.body [again, self]
  referTo r id

/-- Whether a node refers to the shared rule that matches nothing. -/
def isEmptyReference (g : Grammar) (id : NodeId) : Bool :=
  (g.kind id).isNonterminal && g.nameText id == emptyRule

/-- Give up `f?`. An option of nothing is nothing, so that there are not two ways to match it. -/
def option (id : NodeId) : Edit Unit := do
  let g ← get
  match g.children id with
  | [] => detach id
  | factor :: _ =>
    if isEmptyReference g factor then
      detach factor
      replace id factor
    else
      let r ← newRule id Sugar.option.suffix
      modify fun g => g.modify r.rule fun n => { n with isOptional := true }
      detach factor
      addAlt r.body []
      addAlt r.body [factor]
      referTo r id

/-- Give up one construct. -/
def giveUp (strategy : Strategy) (t : Sugar) (id : NodeId) : Edit Unit :=
  match t with
  | .separatedStar => separatedStar strategy id
  | .separatedPlus => separatedPlus strategy id
  | .star => star strategy id
  | .plus => plus id
  | .option => option id

/-- Give up a construct, unless an earlier step has moved it away from the root. -/
def giveUpBelowRoot (strategy : Strategy) (t : Sugar) (id : NodeId) : Edit Bool := do
  if (← get).topOf id = Grammar.root then
    giveUp strategy t id
    return true
  else
    return false

/-- Do something with each node, and tell whether any of it was a change. -/
def anyOf (f : NodeId → Edit Bool) : List NodeId → Edit Bool
  | [] => return false
  | id :: ids => do
    let here ← f id
    let there ← anyOf f ids
    return here || there

/-- The nodes below the rules that satisfy `p`, in the order of the text. -/
def belowRules (g : Grammar) (p : NodeId → Bool) : List NodeId :=
  (g.rules.flatMap g.nodesFrom).filter p

/-- Give up every construct of one sort. -/
def giveUpAll (strategy : Strategy) (t : Sugar) : Edit Bool := do
  let g ← get
  let changed ← anyOf (giveUpBelowRoot strategy t) (belowRules g (t.isAt g))
  modify (·.joinWaiting)
  return changed

end Ixml.Simplify
