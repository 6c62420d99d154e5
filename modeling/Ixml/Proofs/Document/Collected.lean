import Ixml.Proofs.Document.Diagnosis
import Ixml.Proofs.Document.Written
import Ixml.Proofs.Work
import Ixml.Proofs.Xml.Collecting

/-!
# Results and failures as trees

A result and the document of a failure are documents in the sense of `Xml.IsDocument`, whatever they are made of. Hence
each of them has the same text, whether it is written as it comes or collected into a tree before
(`render_treeOf_eq_textOf`).
-/

namespace Ixml

open Xml (IsDocument Nested)

namespace Content

mutual

theorem nested_events (d : String) : ∀ c : Content, Nested (c.events d)
  | text s => .text s
  | element head cs => (nested_eventsAll d cs).plain _ _ head.name (eventAttributes head)

theorem nested_eventsAll (d : String) : ∀ cs : List Content, Nested (eventsAll d cs)
  | [] => .nil
  | c :: cs => (nested_events d c).append (nested_eventsAll d cs)

end

end Content

namespace Draft

variable {b : Draft}

theorem isDocument_document (b : Draft) (states : List String) (head : ElementHead) (children : List Content) :
    IsDocument (b.document states head children) := by
  rw [document_eq_rootEvents]
  exact .framed _ _ _ head.name (stateEventAttributes states ++ Content.eventAttributes head) _ _
    (Content.nested_eventsAll _ children)

theorem ensures_isDocument_finish (b : Draft) (undecided chosen : Bool) :
    (finish undecided chosen).Ensures b fun es _ => IsDocument es := by
  refine .current ?_
  split
  · exact .throw _ _
  · refine (Work.Ensures.detail _ b).bind fun _ b' _ => .pure ?_
    exact b.isDocument_document _ _ _
  · exact .throw _ _

end Draft

namespace Failure

variable {es : List Xml.Event} {f : Failure}

theorem nested_wrapElement (h : Nested es) (name : String) (as : List Xml.Attribute) :
    Nested (wrapElement name as es) :=
  h.plain "" name name as

theorem nested_textElement (name text : String) : Nested (textElement name text) :=
  nested_wrapElement (.text text) name []

theorem nested_numberElement (name : String) (o : Option Nat) : Nested (numberElement name o) := by
  cases o with
  | none => exact .nil
  | some n => exact nested_textElement name _

theorem nested_rowEvents (index : Nat) (row : List DottedRule) : Nested (rowEvents index row) := by
  refine nested_wrapElement ?_ _ _
  rw [List.flatMap_def]
  refine .flatten fun es hes => ?_
  obtain ⟨i, -, rfl⟩ := List.mem_map.mp hes
  exact nested_textElement "item" i.text

theorem nested_chartEvents (rows : ChartRows) : Nested (chartEvents rows) := by
  refine nested_wrapElement (.flatten fun es hes => ?_) _ _
  obtain ⟨i, hi, rfl⟩ := List.mem_mapIdx.mp hes
  exact nested_rowEvents _ _

theorem nested_content (f : Failure) (showChart : Bool) : Nested (f.content showChart) := by
  have hfound : Nested f.foundEvents := by
    unfold foundEvents
    split
    · exact nested_textElement _ _
    · exact nested_wrapElement .nil _ _
  have hpermitted : Nested f.permittedEvents := by
    unfold permittedEvents
    split
    · exact .nil
    · exact nested_textElement _ _
  have hchart : Nested (f.shownChart showChart) := by
    unfold shownChart
    split
    · split
      · exact nested_chartEvents _
      · exact .nil
    · exact .nil
  have hnumbers := ((nested_numberElement "line" f.line).append (nested_numberElement "column" f.column)).append
    (nested_numberElement "pos" f.position)
  exact ((hnumbers.append hfound).append hpermitted).append hchart

theorem isDocument_document (f : Failure) (showChart : Bool) : IsDocument (f.document showChart) := by
  rw [document_eq]
  exact .framed [("ixml", Draft.ixmlNamespace)] _ _ "failed" _ _ _ (f.nested_content showChart)

end Failure

/-- Every document has the same text, whether its events are written as they come or collected into a tree that is
rendered; what a draft comes to in the end is such a document, and so is what is said of a failure. -/
theorem render_treeOf_eq_textOf :
    (∀ es, IsDocument es → (Xml.treeOf es).map Xml.Node.render = some (Xml.textOf es)) ∧
      (∀ (b : Draft) (undecided chosen : Bool) (es : List Xml.Event),
        (Work.perform (Draft.finish undecided chosen) b).1 = .ok es → IsDocument es) ∧
      ∀ (f : Failure) (showChart : Bool), IsDocument (f.document showChart) :=
  ⟨fun _ h => h.map_render_treeOf, fun b undecided chosen _ => (b.ensures_isDocument_finish undecided chosen).perform,
    Failure.isDocument_document⟩

/-- A document with declarations on two levels, with empty texts, and with a text that comes in parts. -/
def partedDocument : List Xml.Event :=
  [.startDocument, .declare "p" "urn:<p>", .startElement "" "a" "a" [.plain "k" "\"1\""], .characters "",
    .declare "" "urn:b", .startElement "urn:b" "b" "b" [], .characters "", .endElement "urn:b" "b" "b",
    .characters "1 < ", .characters "", .characters "2", .endElement "" "a" "a", .endDocument]

theorem render_treeOf_eq_textOf_partedDocument :
    IsDocument partedDocument ∧
      (Xml.treeOf partedDocument).map Xml.Node.render = some (Xml.textOf partedDocument) ∧
      Xml.textOf partedDocument =
        "<a xmlns:p=\"urn:&lt;p>\" k=\"&quot;1&quot;\"><b xmlns=\"urn:b\"/>1 &lt; 2</a>" := by
  have hb : Nested [.characters ""] := .text ""
  have hparts : Nested [.characters "1 < ", .characters "", .characters "2"] :=
    .characters _ (.characters _ (.text _))
  have hdocument : IsDocument partedDocument :=
    .framed [("p", "urn:<p>")] "" "a" "a" [.plain "k" "\"1\""] "" "a"
      (.characters "" (.element [("", "urn:b")] "urn:b" "b" "b" [] "urn:b" "b" hb hparts))
  exact ⟨hdocument, render_treeOf_eq_textOf.1 _ hdocument, by decide +kernel⟩

end Ixml
