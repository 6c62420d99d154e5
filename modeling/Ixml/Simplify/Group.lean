import Ixml.Simplify.Repetition

/-!
# Alternatives and groups as rules

A rule with several alternatives becomes a rule for each of them. A group that can only match nothing gives
way to a reference to one shared rule, and every other group that stands in an alternative becomes a rule of
its own.
-/

namespace Ixml.Simplify

open Edit

/-- A group or the body of a rule. -/
def isAlts (g : Grammar) (id : NodeId) : Bool :=
  g.kind id == .alts

/-- An alternative. -/
def isAlt (g : Grammar) (id : NodeId) : Bool :=
  g.kind id == .alt

/-- The body of a rule: its alternatives, or the single one that is left. -/
def body? (g : Grammar) (rule : NodeId) : Option NodeId :=
  (g.children rule).find? fun id => isAlts g id || isAlt g id

/-- Make an alternative a waiting rule of its own, with the label of `rule`. -/
def splitOff (rule alt : NodeId) : Edit Unit := do
  detach alt
  let l := ((← get).node rule).toLabel
  let copy ← newNode { l with name := some l.nameText }
  append copy alt
  defer copy

/-- Leave a rule with one alternative and split off the others. -/
def splitRule (rule : NodeId) : Edit Bool := do
  let g ← get
  match body? g rule with
  | none => do
    append rule (← newKind .alt)
    return true
  | some body =>
    if isAlts g body then
      let alts := g.children body
      detach body
      let first ← match alts with
        | [] => newKind .alt
        | alt :: _ => pure alt
      detach first
      append rule first
      alts.tail.forM (splitOff rule)
      return true
    else
      return false

/-- Leave every rule with one alternative. -/
def splitAll : Edit Bool := do
  let changed ← anyOf splitRule (← get).rules
  modify (·.joinWaiting)
  return changed

/-- Whether the parent of a node satisfies `p`. -/
def parentIs (g : Grammar) (p : NodeId → Bool) (id : NodeId) : Bool :=
  (g.parent id).any p

/-- A group whose alternatives are all empty. -/
def isEmptyGroup (g : Grammar) (id : NodeId) : Bool :=
  isAlts g id && parentIs g (fun p => !(g.kind p).isRule) id &&
    (g.children id).all fun alt => isAlt g alt && (g.children alt).isEmpty

/-- Add the shared rule that matches nothing, if it is not there yet. -/
def addEmptyRule : Edit Unit := do
  if ((← get).definitions emptyRule).isEmpty then
    let rule ← newHiddenRule emptyRule
    append rule (← newKind .alt)
    modify (·.joinRule rule)

/-- Put a reference to the shared rule into the place of a group. -/
def replaceEmpty (group : NodeId) : Edit Unit := do
  replace group (← newReference emptyRule)

/-- Replace every group that can only match nothing. -/
def replaceEmptyAll : Edit Bool := do
  let g ← get
  match belowRules g (isEmptyGroup g) with
  | [] => return false
  | groups => do
    addEmptyRule
    groups.forM replaceEmpty
    return true

/-- A group that stands in an alternative. -/
def isInnerGroup (g : Grammar) (id : NodeId) : Bool :=
  isAlts g id && parentIs g (isAlt g) id

/-- Make a group a waiting rule of its own. The pragmas in front of it are now those of the rule. -/
def hoist (group : NodeId) : Edit Unit := do
  let name ← newName group "alts"
  let rule ← newHiddenRule name
  let g ← get
  let ps := (g.node group).pragmas
  set ((g.modify group fun n => { n with pragmas := [] }).modify rule fun n => { n with pragmas := ps })
  let ref ← newReference name
  replace group ref
  append rule group
  defer rule

/-- Make every group that stands in an alternative a rule. -/
def hoistAll : Edit Bool := do
  let g ← get
  let groups := belowRules g (isInnerGroup g)
  groups.forM hoist
  modify (·.joinWaiting)
  return !groups.isEmpty

end Ixml.Simplify
