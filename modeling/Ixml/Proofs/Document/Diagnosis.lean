import Ixml.Failure
import Ixml.Proofs.Chart.Failure
import Ixml.Proofs.Text.Hex
import Ixml.Proofs.Xml.Writing

/-!
# The document of a failure

What the document of a failure says of the input can be written: the character that was not expected is described by its
code where it cannot be shown (`isText_describe`). The terminals that were possible and the rules of the chart are shown
as they are, so that the document is well formed if and only if these texts can be written
(`Failure.isText_document_iff`). The text of a single character can be written but for two (`isText_memberText_iff`).
-/

namespace Ixml

open Xml (IsElement IsText IsBody IsTag isText_append)

variable {f : Failure} {c : Char} {n : Nat} {s name text : String} {showChart : Bool}

/-! ### Single characters -/

/-- Every character may stand in a document but for controls and the last two of the basic plane. -/
theorem Xml.isChar_or (c : Char) :
    isChar c = true ∨ Unicode.isControl c = true ∨ c = '\uFFFE' ∨ c = '\uFFFF' := by
  by_contra h
  simp only [not_or, Bool.not_eq_true] at h
  obtain ⟨hchar, hcontrol, hne, hne'⟩ := h
  have hne : c.toNat ≠ 0xfffe := fun he => hne (Char.toNat_inj.mp he)
  have hne' : c.toNat ≠ 0xffff := fun he => hne' (Char.toNat_inj.mp he)
  have hcover : ¬∃ r ∈ charRanges, r.1 ≤ c.toNat ∧ c.toNat ≤ r.2 := fun h => by
    rw [isChar, Unicode.CodeRange.covers_eq_true_iff.mpr h] at hchar
    cases hchar
  simp only [charRanges, List.mem_cons, List.not_mem_nil, or_false, exists_eq_or_imp, exists_eq_left] at hcover
  simp only [Unicode.isControl, Bool.or_eq_false_iff, Bool.and_eq_false_iff, decide_eq_false_iff_not] at hcontrol
  have hvalid : c.toNat < 0xd800 ∨ 0xdfff < c.toNat ∧ c.toNat < 0x110000 := c.valid
  omega

/-- The notation of a character can be written, other than for the two that are neither characters of XML nor
controls. -/
theorem CharSet.isText_memberText_iff : IsText (memberText c) ↔ c ≠ '\uFFFE' ∧ c ≠ '\uFFFF' := by
  have hquote : IsText "'" := by decide
  unfold memberText
  split
  · next h =>
    rw [beq_iff_eq.mp h]
    decide
  · split
    · next h =>
      have hcode : IsText ("#" ++ Text.Hex.lower c.toNat) :=
        isText_append.mpr ⟨by decide, Text.Hex.isText_lower _⟩
      refine iff_of_true hcode ⟨?_, ?_⟩ <;> (rintro rfl; exact absurd h (by decide))
    · next h =>
      rw [Bool.or_eq_true, not_or] at h
      rw [isText_append, isText_append, Xml.isText_singleton]
      constructor
      · rintro ⟨⟨-, hc⟩, -⟩
        constructor <;> (rintro rfl; exact absurd hc (by decide))
      · rintro ⟨hne, hne'⟩
        refine ⟨⟨hquote, ?_⟩, hquote⟩
        rcases Xml.isChar_or c with hc | hc | hc | hc
        · exact hc
        · exact absurd hc h.1
        · exact absurd hc hne
        · exact absurd hc hne'

namespace Failure

theorem isText_describe (c : Char) : IsText (describe c) := by
  unfold describe
  split
  · next h =>
    rw [Xml.isPrintable, Bool.and_eq_true, Bool.and_eq_true] at h
    exact Xml.isText_singleton.mpr h.1.1
  · exact isText_append.mpr ⟨by decide, Text.Hex.isText_lower _⟩

/-! ### What is shown -/

/-- The symbols that were possible: those that were predicted, and the terminals that come next in the last row. -/
def possible (f : Failure) : List Symbol :=
  f.predicted ++ (((f.chart.bind ChartRows.lastRow?).getD []).filterMap DottedRule.next?).filter Symbol.isTerminal

/-- The dotted rules that the document shows. -/
def shownItems (f : Failure) (showChart : Bool) : List DottedRule :=
  if showChart then (f.chart.getD []).flatten else []

theorem possibleTexts_eq : f.possibleTexts = f.possible.map Symbol.text := by
  rw [possibleTexts, possible, List.map_append]

/-- What the document says of the character that was not expected. -/
def foundEvents (f : Failure) : List Xml.Event :=
  match f.unexpected with
  | some c => textElement "unexpected" (describe c)
  | none => wrapElement "end-of-input" [] []

def permittedEvents (f : Failure) : List Xml.Event :=
  if f.permitted.isEmpty then [] else textElement "permitted" (", ".intercalate f.permitted)

def shownChart (f : Failure) (showChart : Bool) : List Xml.Event :=
  match f.chart with
  | some rows => if showChart then chartEvents rows else []
  | none => []

/-- What stands in the root of the document. -/
def content (f : Failure) (showChart : Bool) : List Xml.Event :=
  numberElement "line" f.line ++ numberElement "column" f.column ++ numberElement "pos" f.position ++
    f.foundEvents ++ f.permittedEvents ++ f.shownChart showChart

theorem document_eq : f.document showChart = [.startDocument, .declare "ixml" Draft.ixmlNamespace] ++
    .startElement "" "failed" "failed" [.qualified Draft.ixmlNamespace "ixml" "state" "failed"] ::
      (f.content showChart ++ [.endElement "" "failed" "failed"]) ++ [.endDocument] :=
  rfl

/-! ### The elements of the document -/

theorem isTag_plain (h : Xml.isName name = true) : IsTag name [] [] :=
  ⟨h, by simp, by simp, by simp⟩

theorem isBody_textElement (h : Xml.isName name = true) (text : String) : IsBody (textElement name text) :=
  (IsBody.characters text).element (isTag_plain h)

theorem isBody_numberElement (h : Xml.isName name = true) (o : Option Nat) : IsBody (numberElement name o) := by
  cases o with
  | none => exact .nil
  | some n => exact isBody_textElement h _

theorem isBody_rowEvents (index : Nat) (row : List DottedRule) : IsBody (rowEvents index row) := by
  have hitems : IsBody (row.map fun i => textElement "item" i.text).flatten := .flatten fun es hes => by
    obtain ⟨i, -, rfl⟩ := List.mem_map.mp hes
    exact isBody_textElement (by decide) _
  refine hitems.element ⟨by decide, by simp, fun a ha => ?_, by simp⟩
  obtain rfl := List.mem_singleton.mp ha
  exact ⟨(by decide : Xml.isName "n" = true), Xml.isText_repr index⟩

theorem isBody_chartEvents (rows : ChartRows) : IsBody (chartEvents rows) := by
  have hrows : IsBody (rows.mapIdx rowEvents).flatten := .flatten fun es hes => by
    obtain ⟨i, hi, rfl⟩ := List.mem_mapIdx.mp hes
    exact isBody_rowEvents _ _
  exact hrows.element (isTag_plain (by decide))

theorem isBody_content (f : Failure) (showChart : Bool) : IsBody (f.content showChart) := by
  have hfound : IsBody f.foundEvents := by
    unfold foundEvents
    split
    · exact isBody_textElement (by decide) _
    · exact IsBody.nil.element (isTag_plain (by decide))
  have hpermitted : IsBody f.permittedEvents := by
    unfold permittedEvents
    split
    · exact .nil
    · exact isBody_textElement (by decide) _
  have hchart : IsBody (f.shownChart showChart) := by
    unfold shownChart
    split
    · split
      · exact isBody_chartEvents _
      · exact .nil
    · exact .nil
  exact (((((isBody_numberElement (by decide) _).append (isBody_numberElement (by decide) _)).append
    (isBody_numberElement (by decide) _)).append hfound).append hpermitted).append hchart

/-! ### What the events hand on -/

theorem isText_textElement_iff : (∀ e ∈ textElement name text, e.IsText) ↔ IsText text := by
  simp [textElement, Xml.Event.IsText]

theorem isText_wrapElement_iff {as : List Xml.Attribute} {es : List Xml.Event} (h : ∀ a ∈ as, IsText a.value) :
    (∀ e ∈ wrapElement name as es, e.IsText) ↔ ∀ e ∈ es, e.IsText := by
  rw [wrapElement, List.forall_mem_cons, List.forall_mem_append]
  simp only [Xml.Event.IsText, List.mem_singleton, forall_eq, and_true]
  exact and_iff_right h

theorem isText_numberElement (name : String) (o : Option Nat) : ∀ e ∈ numberElement name o, e.IsText := by
  cases o with
  | none => exact nofun
  | some n => exact isText_textElement_iff.mpr (Xml.isText_repr n)

theorem isText_foundEvents (f : Failure) : ∀ e ∈ f.foundEvents, e.IsText := by
  unfold foundEvents
  split
  · exact isText_textElement_iff.mpr (isText_describe _)
  · exact (isText_wrapElement_iff (by simp)).mpr (by simp)

theorem isText_permittedEvents_iff : (∀ e ∈ f.permittedEvents, e.IsText) ↔ ∀ s ∈ f.possible, IsText s.text := by
  have hall : (∀ t ∈ f.permitted, IsText t) ↔ ∀ s ∈ f.possible, IsText s.text := by
    simp only [mem_permitted, possibleTexts_eq, List.forall_mem_map]
  rw [← hall, permittedEvents]
  split
  · next h => simp [List.isEmpty_iff.mp h]
  · rw [isText_textElement_iff, Xml.isText_intercalate_iff (by decide)]

theorem isText_rowEvents_iff (index : Nat) (row : List DottedRule) :
    (∀ e ∈ rowEvents index row, e.IsText) ↔ ∀ i ∈ row, IsText i.text := by
  rw [rowEvents, isText_wrapElement_iff fun a ha => by rw [List.mem_singleton.mp ha]; exact Xml.isText_repr index,
    List.forall_mem_flatMap]
  exact forall₂_congr fun i _ => isText_textElement_iff

theorem isText_shownChart_iff :
    (∀ e ∈ f.shownChart showChart, e.IsText) ↔ ∀ i ∈ f.shownItems showChart, IsText i.text := by
  unfold shownChart shownItems
  cases hchart : f.chart with
  | none => simp
  | some rows =>
    cases showChart with
    | false => simp
    | true =>
      simp only [if_true, Option.getD_some]
      rw [chartEvents, isText_wrapElement_iff (by simp), List.forall_mem_flatten, List.forall_mem_flatten]
      constructor
      · intro h row hrow
        obtain ⟨k, hk, rfl⟩ := List.mem_iff_getElem.mp hrow
        exact (isText_rowEvents_iff k rows[k]).mp (h _ (List.mem_mapIdx.mpr ⟨k, hk, rfl⟩))
      · intro h es hes
        obtain ⟨k, hk, rfl⟩ := List.mem_mapIdx.mp hes
        exact (isText_rowEvents_iff k rows[k]).mpr (h _ (List.getElem_mem hk))

/-- The document of a failure is well formed if and only if its events hand on characters of XML only, and this is so if
and only if the symbols that were possible and the rules that are shown can be written. -/
theorem isText_document_iff (f : Failure) (showChart : Bool) :
    (IsElement (Xml.textOf (f.document showChart)) ↔ ∀ e ∈ f.document showChart, e.IsText) ∧
      ((∀ e ∈ f.document showChart, e.IsText) ↔
        (∀ s ∈ f.possible, IsText s.text) ∧ ∀ i ∈ f.shownItems showChart, IsText i.text) := by
  have htag : IsTag "failed" [("ixml", Draft.ixmlNamespace)] [("ixml:state", "failed")] :=
    ⟨by decide, by decide, by decide, by decide⟩
  obtain ⟨helement, htext⟩ := (isBody_content f showChart).isElement_iff htag document_eq
  refine ⟨helement, htext.trans ?_⟩
  simp only [content, List.forall_mem_append, isText_permittedEvents_iff, isText_shownChart_iff]
  constructor
  · rintro ⟨⟨-, hpermitted⟩, hchart⟩
    exact ⟨hpermitted, hchart⟩
  · rintro ⟨hpermitted, hchart⟩
    exact ⟨⟨⟨⟨⟨isText_numberElement _ _, isText_numberElement _ _⟩, isText_numberElement _ _⟩, f.isText_foundEvents⟩,
      hpermitted⟩, hchart⟩

end Failure

end Ixml
