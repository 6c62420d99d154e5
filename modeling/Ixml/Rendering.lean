import Ixml.Chart
import Ixml.Chooser
import Ixml.Recogniser

/-!
# From an input to a document

An input is recognised with a grammar, one derivation of it is chosen, and the result is drafted along that
derivation. Where the input is refused there is a document of the failure instead.
-/

namespace Ixml

/-- A chooser and a draft at work on one derivation. -/
structure Rendering where
  chooser : Chooser := {}
  draft : Draft
deriving Inhabited

namespace Rendering

/-- Work of the chooser. -/
def onChooser {α : Type} (w : Work Chooser α) : Work Rendering α :=
  Work.onPart (·.chooser) (fun c r => { r with chooser := c }) w

/-- Work on the draft. -/
def onDraft {α : Type} (w : Work Draft α) : Work Rendering α :=
  Work.onPart (·.draft) (fun d r => { r with draft := d }) w

/-- The chooser chooses, and what happens goes into the draft. -/
def visitor : Recognition.Visitor Rendering where
  choose rules := onChooser (Chooser.choose rules)
  visit e := onDraft (Draft.step e)

/-- The document of an input that has been recognised. -/
def render (r : Recognition) : Work Rendering (List Xml.Event) := do
  r.walk visitor
  let c := (← Work.current).chooser
  onDraft (Draft.finish c.hadUndecided c.hadChoice)

end Rendering

/-- A draft for the results of a grammar. -/
def Bnf.draft (g : Bnf) (options : Options) : Draft :=
  { options, version := g.version, defaultNamespace := g.defaultNamespace }

/-- What becomes of an input. -/
inductive Outcome
  /-- It is recognised. A document may still be impossible; the work on it is kept in any case. -/
  | recognised (verdict : Except Error (List Xml.Event)) (work : Noted Rendering)
  | refused (failure : Failure)

namespace Outcome

/-- The document of an outcome. -/
def document (options : Options) : Outcome → Except Error (List Xml.Event)
  | recognised verdict _ => verdict
  | refused f => .ok (f.document options.showChart)

/-- The notes that were taken. -/
def notes : Outcome → List Note
  | recognised _ work => work.notes
  | refused _ => []

end Outcome

/-- Recognise an input and make its document, or find out where it fails. -/
def Bnf.outcome (g : Bnf) (options : Options) (input : String) : Outcome :=
  match Recognition.parse? g input with
  | some r =>
    let (verdict, work) := (Rendering.render r).perform { draft := g.draft options }
    .recognised verdict work
  | none => .refused (Chart.failure g input)

end Ixml
