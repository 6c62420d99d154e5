import Ixml.Proofs.Xml.Writing

/-!
# Documents that are written and documents that are collected

The events of a document can be written as they come (`textOf`), or be collected into a tree that is rendered in the end
(`treeOf`, `Node.render`). While events come in, the writer has written the start tags and the contents of just those
elements that the collector holds open, but for the end of the last start tag (`Abreast`). Every event keeps the two
abreast, and so both have the same text in the end (`IsDocument.map_render_treeOf`).
-/

namespace Ixml.Xml

/-- The events of an element: declarations of prefixes, a start tag, what is in the element, and an end tag with the
same name. -/
def elementEvents (ds : List (String × String)) (uri localName name : String) (as : List Attribute)
    (inner : List Event) (uri' localName' : String) : List Event :=
  ds.map (fun d => .declare d.1 d.2) ++
    .startElement uri localName name as :: (inner ++ [.endElement uri' localName' name])

/-- Events that may come while an element is open: texts, which may be empty, and elements. -/
inductive Nested : List Event → Prop
  | nil : Nested []
  | characters (s : String) {es : List Event} (h : Nested es) : Nested (.characters s :: es)
  | element (ds : List (String × String)) (uri localName name : String) (as : List Attribute)
    (uri' localName' : String) {inner es : List Event} (hi : Nested inner) (h : Nested es) :
    Nested (elementEvents ds uri localName name as inner uri' localName' ++ es)

/-- A document is one element, with or without the events for its beginning and its end. -/
inductive IsDocument : List Event → Prop
  | bare (ds : List (String × String)) (uri localName name : String) (as : List Attribute) (uri' localName' : String)
    {inner : List Event} (hi : Nested inner) :
    IsDocument (elementEvents ds uri localName name as inner uri' localName')
  | framed (ds : List (String × String)) (uri localName name : String) (as : List Attribute)
    (uri' localName' : String) {inner : List Event} (hi : Nested inner) :
    IsDocument (.startDocument :: (elementEvents ds uri localName name as inner uri' localName' ++ [.endDocument]))

variable {s t name uri localName : String} {names : List String} {es es' : List Event} {as : List Attribute}
  {n m : Node} {ns ms rest : List Node} {w : Writer} {c : Collector}

namespace Nested

theorem append (h : Nested es) (h' : Nested es') : Nested (es ++ es') := by
  induction h with
  | nil => exact h'
  | characters s _ ih => exact .characters s ih
  | element ds uri localName name as uri' localName' hi _ _ ih =>
    rw [List.append_assoc]
    exact .element ds uri localName name as uri' localName' hi ih

theorem flatten {ess : List (List Event)} (h : ∀ es ∈ ess, Nested es) : Nested ess.flatten := by
  induction ess with
  | nil => exact nil
  | cons es ess ih =>
    rw [List.forall_mem_cons] at h
    exact h.1.append (ih h.2)

theorem text (s : String) : Nested [.characters s] :=
  .characters s .nil

theorem plain (h : Nested es) (uri localName name : String) (as : List Attribute) :
    Nested (.startElement uri localName name as :: (es ++ [.endElement uri localName name])) := by
  simpa [elementEvents] using Nested.element [] uri localName name as uri localName h .nil

end Nested

/-! ### Texts of nodes -/

theorem escapeText_append : escapeText (s ++ t) = escapeText s ++ escapeText t := by
  rw [escapeText, String.toList_append, List.map_append, String.join_append]
  rfl

namespace Node

theorem renderAll_appendText : renderAll (appendText s ns) = renderAll ns ++ escapeText s := by
  fun_induction appendText s ns with
  | case1 => simp [renderAll, render]
  | case2 t => simp [renderAll, render, escapeText_append]
  | case3 n ns _ ih => simp [renderAll, ih, String.append_assoc]

theorem appendText_ne_nil : appendText s ns ≠ [] := by
  fun_induction appendText s ns <;> simp

/-- The text of an element that is still open, with its start tag closed. -/
def opened : Node → String
  | element name _ ds as children => tagText name ds as ++ ">" ++ renderAll children
  | text s => escapeText s

/-- The text of the elements that are open, the innermost first. -/
def openedAll : List Node → String
  | [] => ""
  | n :: rest => openedAll rest ++ opened n

theorem exists_of_name? (h : n.name? = some name) :
    ∃ ns ds as children, n = element name ns ds as children := by
  cases n with
  | element name' ns ds as children =>
    cases h
    exact ⟨ns, ds, as, children, rfl⟩
  | text s => cases h

end Node

/-! ### One event -/

/-- The writer and the collector have taken the same events, of which elements with the given names are still open. -/
structure Abreast (names : List String) (w : Writer) (c : Collector) : Prop where
  pending : w.pending = c.pending
  names : c.stack.map Node.name? = names.map some
  closed : w.closed = Node.openedAll c.stack
  tagOpen : w.tagOpen = c.stack.head?.any (·.children.isEmpty)

namespace Abreast

theorem start : Abreast [] {} {} :=
  ⟨rfl, rfl, rfl, rfl⟩

theorem exists_stack (h : Abreast (name :: names) w c) :
    ∃ ns ds as children rest, c.stack = .element name ns ds as children :: rest ∧
      rest.map Node.name? = names.map some := by
  obtain ⟨n, rest, hs, hn, hrest⟩ := List.map_eq_cons_iff.mp h.names
  obtain ⟨ns, ds, as, children, rfl⟩ := Node.exists_of_name? hn
  exact ⟨ns, ds, as, children, rest, hs, hrest⟩

theorem declare (h : Abreast names w c) (p uri : String) :
    Abreast names (w.step (.declare p uri)) (c.step (.declare p uri)) :=
  ⟨congrArg (· ++ [(p, uri)]) h.pending, h.names, h.closed, h.tagOpen⟩

theorem startElement (h : Abreast names w c) (uri localName name : String) (as : List Attribute) :
    Abreast (name :: names) (w.step (.startElement uri localName name as))
      (c.step (.startElement uri localName name as)) where
  pending := rfl
  names := by simp [Collector.step, Node.name?, h.names]
  closed := by
    rw [Writer.step, Collector.step, Writer.closed, if_pos rfl, h.closed, h.pending]
    simp [Node.openedAll, Node.opened, Node.renderAll, String.append_assoc]
  tagOpen := rfl

theorem characters (h : Abreast (name :: names) w c) (s : String) :
    Abreast (name :: names) (w.step (.characters s)) (c.step (.characters s)) := by
  obtain ⟨ns, ds, as, children, rest, hs, hrest⟩ := h.exists_stack
  rw [Writer.step, Collector.step]
  split
  · exact h
  · rw [hs]
    refine ⟨h.pending, ?_, ?_, ?_⟩
    · simp [Collector.mapChildren, Node.name?, hrest]
    · have hc := h.closed
      rw [hs] at hc
      show w.closed ++ escapeText s = _
      rw [hc]
      simp [Collector.mapChildren, Node.openedAll, Node.opened, Node.renderAll_appendText, String.append_assoc]
    · simp [Collector.mapChildren, Node.children, Node.appendText_ne_nil]

/-- An end tag completes the text of the innermost element. -/
theorem closed_endElement (h : Abreast (name :: names) w c) (hs : c.stack = n :: rest) :
    w.step (.endElement uri localName name) = ⟨Node.openedAll rest ++ n.render, c.pending, false⟩ := by
  obtain ⟨ns, ds, as, children, rest', hs', -⟩ := h.exists_stack
  obtain ⟨rfl, rfl⟩ := List.cons.inj (hs.symm.trans hs')
  have hc := h.closed
  have ht := h.tagOpen
  simp only [hs, List.head?_cons, Option.any_some, Node.children] at ht
  rw [hs, Writer.closed, ht] at hc
  rw [Writer.step, ht, h.pending, Node.render_element]
  cases children with
  | nil =>
    -- the writer has left the start tag open
    have hout : w.output = Node.openedAll rest ++ tagText name ds as := by
      simpa [Node.openedAll, Node.opened, Node.renderAll, ← String.append_assoc] using hc
    simp [hout, String.append_assoc]
  | cons n ns =>
    have hout : w.output = Node.openedAll rest ++ (tagText name ds as ++ ">" ++ Node.renderAll (n :: ns)) := by
      simpa [Node.openedAll, Node.opened] using hc
    simp [hout, String.append_assoc]

theorem endElement {outer : String} (h : Abreast (name :: outer :: names) w c) (uri localName : String) :
    Abreast (outer :: names) (w.step (.endElement uri localName name)) (c.step (.endElement uri localName name)) := by
  obtain ⟨ns, ds, as, children, rest, hs, hrest⟩ := h.exists_stack
  obtain ⟨m, rest, rfl, hm, hnames⟩ := List.map_eq_cons_iff.mp hrest
  obtain ⟨ns', ds', as', children', rfl⟩ := Node.exists_of_name? hm
  rw [h.closed_endElement hs, Collector.step, hs]
  refine ⟨rfl, ?_, ?_, ?_⟩
  · simp [Collector.mapChildren, Node.name?, hnames]
  · simp [Writer.closed, Collector.mapChildren, Node.openedAll, Node.opened, Node.renderAll_append, Node.renderAll,
      String.append_assoc]
  · simp [Collector.mapChildren, Node.children]

/-- The end tag of the root leaves the tree that has been written. -/
theorem endRoot (h : Abreast [name] w c) (uri localName : String) :
    ∃ n, (c.step (.endElement uri localName name)).root = some n ∧
      (w.step (.endElement uri localName name)).output = n.render := by
  obtain ⟨ns, ds, as, children, rest, hs, hrest⟩ := h.exists_stack
  obtain rfl : rest = [] := by simpa using hrest
  refine ⟨.element name ns ds as children, ?_, ?_⟩
  · rw [Collector.step, hs]
  · rw [h.closed_endElement hs]
    simp [Node.openedAll]

/-! ### All events -/

theorem declarations (h : Abreast names w c) (ds : List (String × String)) :
    Abreast names (w.run (ds.map fun d => .declare d.1 d.2)) (c.run (ds.map fun d => .declare d.1 d.2)) := by
  induction ds generalizing w c with
  | nil => exact h
  | cons d ds ih => exact ih (h.declare d.1 d.2)

theorem nested (h : Abreast (name :: names) w c) (hes : Nested es) :
    Abreast (name :: names) (w.run es) (c.run es) := by
  induction hes generalizing name names w c with
  | nil => exact h
  | characters s _ ih => exact ih (h.characters s)
  | element ds uri localName name' as uri' localName' _ _ hi ih =>
    simp only [Writer.run, Collector.run, elementEvents, List.foldl_append, List.foldl_cons, List.foldl_nil]
    have hstart := (h.declarations ds).startElement uri localName name' as
    exact ih ((hi hstart).endElement uri' localName')

end Abreast

/-- Written and collected, an element is the same. -/
theorem exists_root_elementEvents (ds : List (String × String)) (uri localName name : String) (as : List Attribute)
    (uri' localName' : String) {inner : List Event} (hi : Nested inner) :
    ∃ n, (Collector.run {} (elementEvents ds uri localName name as inner uri' localName')).root = some n ∧
      (Writer.run {} (elementEvents ds uri localName name as inner uri' localName')).output = n.render := by
  simp only [Writer.run, Collector.run, elementEvents, List.foldl_append, List.foldl_cons, List.foldl_nil]
  have hstart := (Abreast.start.declarations ds).startElement uri localName name as
  exact (hstart.nested hi).endRoot uri' localName'

/-- The text of a document is the text of its tree. -/
theorem IsDocument.map_render_treeOf (h : IsDocument es) : (treeOf es).map Node.render = some (textOf es) := by
  have hroot : ∃ n, treeOf es = some n ∧ textOf es = n.render := by
    cases h with
    | bare ds uri localName name as uri' localName' hi =>
      exact exists_root_elementEvents ds uri localName name as uri' localName' hi
    | framed ds uri localName name as uri' localName' hi =>
      have hroot := exists_root_elementEvents ds uri localName name as uri' localName' hi
      simpa [treeOf, textOf, Collector.run, Writer.run, Collector.step, Writer.step] using hroot
  obtain ⟨n, htree, htext⟩ := hroot
  rw [htree, htext, Option.map_some]

end Ixml.Xml
