import Ixml.Proofs.Xml.WellFormed

/-!
# Events that stand for nodes

`Stands es ns` says that the events `es` are written as the text of the nodes `ns`, whose tags are as they should be,
and that what the events hand on is what the nodes hold. An element around such events stands for an element around the
nodes (`Stands.element`), so that a document is followed along the functions that make it. Its text is a well-formed
element if and only if its events hand on nothing but characters of XML (`IsBody.isElement_iff`).
-/

namespace Ixml.Xml

/-- The text, the attribute values and the URI of an event consist of characters of XML. -/
def Event.IsText : Event → Prop
  | declare _ uri => Xml.IsText uri
  | startElement _ _ _ attributes => ∀ a ∈ attributes, Xml.IsText a.value
  | characters text => Xml.IsText text
  | startDocument | endDocument | endElement .. => True

variable {s name uri localName uri' localName' nsPrefix nsUri : String} {es es' : List Event} {ns ns' : List Node}
  {as : List Attribute}

theorem isText_of_escapeText (h : IsText (escapeText s)) : IsText s := by
  intro c hc
  have hc := isText_join.mp h _ (List.mem_map_of_mem hc)
  unfold escapeTextChar at hc
  split at hc
  all_goals first | decide | simpa using hc

namespace Node

mutual

/-- Every tag in a node is one. -/
def HasTags : Node → Prop
  | element name _ declarations attributes children => IsTag name declarations attributes ∧ AllHaveTags children
  | text _ => True

def AllHaveTags : List Node → Prop
  | [] => True
  | n :: ns => HasTags n ∧ AllHaveTags ns

end

mutual

/-- The text of a node with tags shows whether it is sound. -/
theorem isSound_of_isText {n : Node} (h : n.HasTags) (ht : IsText n.render) : n.IsSound := by
  cases n with
  | text s => exact isText_of_escapeText ht
  | element name ns ds as children =>
    refine ⟨h.1, allSound_of_isText h.2 ?_⟩
    rw [render_element] at ht
    cases children with
    | nil => exact isText_empty
    | cons n ns =>
      simp only [List.isEmpty_cons, Bool.false_eq_true, if_false, isText_append] at ht
      exact ht.2.1.1.1.2

theorem allSound_of_isText {ns : List Node} (h : AllHaveTags ns) (ht : IsText (renderAll ns)) : AllSound ns := by
  cases ns with
  | nil => trivial
  | cons n ns =>
    rw [renderAll, isText_append] at ht
    exact ⟨isSound_of_isText h.1 ht.1, allSound_of_isText h.2 ht.2⟩

end

theorem allSound_append : AllSound (ns ++ ns') ↔ AllSound ns ∧ AllSound ns' := by
  induction ns with
  | nil => simp [AllSound]
  | cons n ns ih => simp [AllSound, ih, and_assoc]

theorem allHaveTags_append : AllHaveTags (ns ++ ns') ↔ AllHaveTags ns ∧ AllHaveTags ns' := by
  induction ns with
  | nil => simp [AllHaveTags]
  | cons n ns ih => simp [AllHaveTags, ih, and_assoc]

theorem renderAll_append : renderAll (ns ++ ns') = renderAll ns ++ renderAll ns' := by
  induction ns with
  | nil => simp [renderAll]
  | cons n ns ih => simp [renderAll, ih, String.append_assoc]

/-- The node of a text, if there is any. -/
def ofText (s : String) : List Node :=
  if s.isEmpty then [] else [text s]

end Node

namespace Writer

/-- The writer after the nodes `ns`. -/
def after (w : Writer) (ns : List Node) : Writer :=
  if ns.isEmpty then w else ⟨w.closed ++ Node.renderAll ns, [], false⟩

theorem after_append (w : Writer) : (w.after ns).after ns' = w.after (ns ++ ns') := by
  cases ns with
  | nil => rfl
  | cons n ns =>
    cases ns' with
    | nil => simp [after]
    | cons n' ns' => simp [after, closed, Node.renderAll, Node.renderAll_append, String.append_assoc]

end Writer

/-- Events are written as nodes, whose tags are as they should be and which hold what the events hand on. -/
structure Stands (es : List Event) (ns : List Node) : Prop where
  run_eq : ∀ w : Writer, w.pending = [] → w.run es = w.after ns
  tags : Node.AllHaveTags ns
  isText_iff : (∀ e ∈ es, e.IsText) ↔ Node.AllSound ns

namespace Stands

theorem nil : Stands [] [] :=
  ⟨fun _ _ => rfl, trivial, by simp [Node.AllSound]⟩

theorem append (h : Stands es ns) (h' : Stands es' ns') : Stands (es ++ es') (ns ++ ns') where
  run_eq w hw := by
    have hpending : (w.after ns).pending = [] := by
      unfold Writer.after
      split
      · exact hw
      · rfl
    rw [Writer.run, List.foldl_append]
    exact (congrArg (Writer.run · es') (h.run_eq w hw)).trans ((h'.run_eq _ hpending).trans (w.after_append))
  tags := Node.allHaveTags_append.mpr ⟨h.tags, h'.tags⟩
  isText_iff := by
    rw [List.forall_mem_append, h.isText_iff, h'.isText_iff, Node.allSound_append]

theorem characters (s : String) : Stands [.characters s] (Node.ofText s) where
  run_eq w hw := by
    by_cases hs : s.isEmpty
    · simp [Writer.run, Writer.step, Node.ofText, hs, Writer.after]
    · simp [Writer.run, Writer.step, Node.ofText, hs, Writer.after, Node.renderAll, Node.render, hw]
  tags := by
    unfold Node.ofText
    split <;> simp [Node.AllHaveTags, Node.HasTags]
  isText_iff := by
    unfold Node.ofText
    split
    · next hs => simp [Event.IsText, Node.AllSound, String.isEmpty_iff.mp hs]
    · simp [Event.IsText, Node.AllSound, Node.IsSound]

/-- A start tag is left open for what comes into the element. -/
theorem run_filled (h : Stands es ns) (uri localName name out : String) (ds as : List (String × String))
    (o : Option String) :
    Writer.run ⟨out ++ tagText name ds as, [], true⟩ (es ++ [.endElement uri localName name]) =
      ⟨out ++ (Node.element name o ds as ns).render, [], false⟩ := by
  rw [Writer.run, List.foldl_append]
  have hrun := h.run_eq ⟨out ++ tagText name ds as, [], true⟩ rfl
  rw [Writer.run] at hrun
  rw [hrun, Node.render_element]
  cases ns with
  | nil => simp [Writer.after, Writer.step, String.append_assoc]
  | cons n ns => simp [Writer.after, Writer.step, Writer.closed, String.append_assoc]

theorem element (h : Stands es ns) (ht : IsTag name [] (as.map fun a => (a.qname, a.value))) :
    Stands (.startElement uri localName name as :: (es ++ [.endElement uri' localName' name]))
      [.element name none [] (as.map fun a => (a.qname, a.value)) ns] where
  run_eq w hw := by
    have hrun := h.run_filled uri' localName' name w.closed [] (as.map fun a => (a.qname, a.value)) none
    rw [Writer.run, List.foldl_cons, Writer.step, hw]
    simpa [Writer.run, Writer.after, Node.renderAll] using hrun
  tags := ⟨⟨ht, h.tags⟩, trivial⟩
  isText_iff := by
    have hvalues : ∀ a ∈ as, IsText a.value := fun a ha => (ht.set _ (List.mem_map_of_mem ha)).2
    rw [List.forall_mem_cons, List.forall_mem_append, h.isText_iff]
    simp [Event.IsText, Node.AllSound, Node.IsSound, ht]
    exact fun _ => hvalues

end Stands

/-- Events that can stand in an element: they stand for nodes. -/
def IsBody (es : List Event) : Prop :=
  ∃ ns, Stands es ns

namespace IsBody

theorem nil : IsBody [] :=
  ⟨_, .nil⟩

theorem append (h : IsBody es) (h' : IsBody es') : IsBody (es ++ es') := by
  obtain ⟨ns, h⟩ := h
  obtain ⟨ns', h'⟩ := h'
  exact ⟨_, h.append h'⟩

theorem flatten {ess : List (List Event)} (h : ∀ es ∈ ess, IsBody es) : IsBody ess.flatten := by
  induction ess with
  | nil => exact nil
  | cons es ess ih =>
    exact (h es (List.mem_cons_self ..)).append (ih fun es hes => h es (List.mem_cons_of_mem _ hes))

theorem characters (s : String) : IsBody [.characters s] :=
  ⟨_, .characters s⟩

theorem element (h : IsBody es) (ht : IsTag name [] (as.map fun a => (a.qname, a.value))) :
    IsBody (.startElement uri localName name as :: (es ++ [.endElement uri' localName' name])) := by
  obtain ⟨ns, h⟩ := h
  exact ⟨_, h.element ht⟩

/-- A document with one declaration is an element if and only if its events hand on characters of XML only. -/
theorem isElement_iff (h : IsBody es) (ht : IsTag name [(nsPrefix, nsUri)] (as.map fun a => (a.qname, a.value)))
    (hes : es' = [.startDocument, .declare nsPrefix nsUri] ++
      .startElement uri localName name as :: (es ++ [.endElement uri' localName' name]) ++ [.endDocument]) :
    (IsElement (textOf es') ↔ ∀ e ∈ es', e.IsText) ∧ ((∀ e ∈ es', e.IsText) ↔ ∀ e ∈ es, e.IsText) := by
  obtain ⟨ns, h⟩ := h
  have htext : textOf es' =
      (Node.element name none [(nsPrefix, nsUri)] (as.map fun a => (a.qname, a.value)) ns).render := by
    have hrun := h.run_filled uri' localName' name "" [(nsPrefix, nsUri)] (as.map fun a => (a.qname, a.value)) none
    rw [String.empty_append, String.empty_append] at hrun
    rw [textOf, hes]
    simp only [Writer.run, List.foldl_append, List.foldl_cons, List.foldl_nil, Writer.step] at hrun ⊢
    simpa [Writer.closed] using congrArg Writer.output hrun
  have hinner : (∀ e ∈ es', e.IsText) ↔ ∀ e ∈ es, e.IsText := by
    have hvalues : ∀ a ∈ as, IsText a.value := fun a ha => (ht.set _ (List.mem_map_of_mem ha)).2
    have huri : IsText nsUri := (ht.declared _ (List.mem_singleton_self _)).2
    rw [hes]
    simp [Event.IsText, or_imp, forall_and, huri]
    exact fun _ => hvalues
  refine ⟨?_, hinner⟩
  rw [hinner, h.isText_iff, htext]
  constructor
  · intro he
    have hsound := Node.isSound_of_isText (n := .element name none [(nsPrefix, nsUri)] _ ns) ⟨ht, h.tags⟩
      (isText_of_isElement he)
    exact hsound.2
  · exact fun hsound => Node.isElement_render ht hsound

end IsBody

end Ixml.Xml
