import Mathlib.Control.Monad.Basic
import Ixml.Proofs.Document.Drafting
import Ixml.Proofs.Document.Written

/-!
# The result of a derivation

The events of derivations, taken into account by a fresh draft that is then finished, come to the document of
their root by recursion, or to its error. Collected into a tree, that document is the root itself with its
declarations and states.
-/

namespace Ixml.Derivation

/-- What a fresh draft makes of derivations is their root by recursion, as a document and as a tree. -/
theorem drafted_result (o : Options) (version ns : Option String) (undecided chosen : Bool)
    (ds : List Derivation) :
    let b : Draft := { options := o, version, defaultNamespace := ns }
    let states := b.states (if o.strictAmbiguity then chosen else undecided)
    let verdict := (Work.perform (do Draft.follow (eventsAll ds); Draft.finish undecided chosen) b).1
    (verdict = (root o ds).map fun r => b.document states r.1 r.2) ∧
      verdict.map Xml.treeOf = (root o ds).map fun r => some (b.rootNode states r.1 r.2) := by
  intro b states verdict
  have hv : verdict = (root o ds).map fun r => b.document states r.1 r.2 :=
    Draft.verdict_follow_finish b rfl rfl undecided chosen ds
  refine ⟨hv, ?_⟩
  rw [hv]
  cases hr : root o ds with
  | error e => rfl
  | ok r => simp only [Except.map, Draft.treeOf_document b states r.1 (neat_root hr)]

/-- A derivation with symbols of every mark, in which an attribute has the given name. -/
def ofMarks (name : String) : Derivation :=
  .derived ⟨[("name", "s"), ("rename", "doc"), ("xmlns", "urn:d")]⟩
    [.derived ⟨[("name", "a"), ("mark", "@"), ("rename", name)]⟩ [.derived ⟨[("name", "n")]⟩ [.matched '1' {}]],
      .derived ⟨[("name", "i"), ("mark", "+"), ("insertion", "<")]⟩ [],
      .derived ⟨[("name", "h"), ("mark", "-")]⟩ [.matched 'x' {}, .matched 'y' ⟨[("tmark", "-")]⟩],
      .derived ⟨[("name", "e"), ("discard-empty", "true")]⟩ [.matched 'y' ⟨[("tmark", "-")]⟩],
      .matched 'z' ⟨[("rewrite", "Z")]⟩]

/-- The text of the result of a derivation, where there was a choice and the version is none that is known. -/
def draftedText (o : Options) (d : Derivation) : Except Error String :=
  let b : Draft := { options := o, version := some "2", defaultNamespace := some "urn:e" }
  (Work.perform (do Draft.follow d.events; Draft.finish true true) b).1.map Xml.textOf

/-- Every mark once, with other names and an element that is left out; then with a wrapper, and with a reserved name. -/
example : draftedText {} (ofMarks "id") = .ok
      ("<doc xmlns=\"urn:d\" xmlns:ixml=\"http://invisiblexml.org/NS\" ixml:state=\"ambiguous version-mismatch\" " ++
        "id=\"1\">&lt;xZ</doc>") ∧
    draftedText { showBnfNonterminals := true, suppressAmbiguousState := true } (ofMarks "id") = .ok
      ("<doc xmlns=\"urn:d\" xmlns:ixml=\"http://invisiblexml.org/NS\" xmlns:n=\"https://nineml.org/ns/\" " ++
        "ixml:state=\"version-mismatch\" id=\"1\">&lt;<n:symbol name=\"h\">x</n:symbol>Z</doc>") ∧
    draftedText {} (ofMarks "xmlns:id") = .error (.reservedAttribute "xmlns:id") := by
  decide +kernel

end Ixml.Derivation
