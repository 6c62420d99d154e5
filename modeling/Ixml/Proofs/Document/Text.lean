import Ixml.Proofs.Document.Sound
import Ixml.Proofs.Document.Written
import Ixml.Proofs.Xml.WellFormed

/-!
# The text of a document

The text of a document is its root as XML (`Draft.textOf_document`). If what it is made of can be written, it is a
well-formed element, but for two things that a draft does not look at: the namespace of the grammar, and an attribute
of the root that has the name of the one for the states (`Draft.isElement_document_iff`).
-/

namespace Ixml

variable {ns : Option String}

namespace Xml

def Event.attributeNames : Event → List String
  | startElement _ _ _ attributes => attributes.map (·.qname)
  | _ => []

/-- No start tag has more than one attribute for states. -/
def SingleState (es : List Event) : Prop :=
  ∀ e ∈ es, e.attributeNames.count "ixml:state" ≤ 1

instance (es : List Event) : Decidable (SingleState es) :=
  inferInstanceAs (Decidable (∀ e ∈ es, e.attributeNames.count "ixml:state" ≤ 1))

end Xml

namespace Content

theorem attributeNames_start (uri localName name : String) (head : ElementHead) :
    (Xml.Event.startElement uri localName name (eventAttributes head)).attributeNames = head.attributes.map Prod.fst := by
  simp [Xml.Event.attributeNames, eventAttributes, Xml.Attribute.plain, Function.comp_def]

mutual

theorem singleState_events {c : Content} (h : c.IsSound ns) (d : String) : Xml.SingleState (c.events d) := by
  cases c with
  | text s => simp [events, Xml.SingleState, Xml.Event.attributeNames]
  | element head cs =>
    intro e he
    rw [events, List.mem_cons, List.mem_append, List.mem_singleton] at he
    rcases he with rfl | he | rfl
    · rw [attributeNames_start]
      exact List.nodup_iff_count_le_one.mp h.1.different _
    · exact singleState_eventsAll h.2 d e he
    · exact Nat.zero_le 1

theorem singleState_eventsAll {cs : List Content} (h : AllSound ns cs) (d : String) :
    Xml.SingleState (eventsAll d cs) := by
  cases cs with
  | nil => exact fun e he => (List.not_mem_nil he).elim
  | cons c cs =>
    intro e he
    rcases List.mem_append.mp he with he | he
    · exact singleState_events h.1 d e he
    · exact singleState_eventsAll h.2 d e he

end

mutual

theorem isSound_toNode {c : Content} (h : c.IsSound ns) (d : String) : (c.toNode d).IsSound := by
  cases c with
  | text s => exact h.2
  | element head cs =>
    refine ⟨⟨h.1.name, fun _ hd => (List.not_mem_nil hd).elim, fun a ha => ?_, h.1.different⟩, allSound_toNodes h.2 d⟩
    exact ⟨(h.1.attributes a ha).1, (h.1.attributes a ha).2.1⟩

theorem allSound_toNodes {cs : List Content} (h : AllSound ns cs) (d : String) :
    Xml.Node.AllSound (toNodes d cs) := by
  cases cs with
  | nil => trivial
  | cons c cs => exact ⟨isSound_toNode h.1 d, allSound_toNodes h.2 d⟩

end

end Content

namespace Xml

namespace Writer

theorem run_append (w : Writer) (es es' : List Event) : run w (es ++ es') = run (run w es) es' :=
  List.foldl_append

theorem run_cons (w : Writer) (e : Event) (es : List Event) : run w (e :: es) = run (step w e) es := rfl

theorem run_declare (w : Writer) (ds : List (String × String)) (es : List Event) :
    run w (ds.map (fun d => .declare d.1 d.2) ++ es) = run { w with pending := w.pending ++ ds } es := by
  induction ds generalizing w with
  | nil => simp
  | cons d ds ih => simp [run_cons, step, ih]

theorem isEmpty_toNodes (d : String) (cs : List Content) : (Content.toNodes d cs).isEmpty = cs.isEmpty := by
  cases cs <;> rfl

/-- An element is written between a start tag and an end tag that both wait for what is in it. -/
theorem run_element {d name uri localName : String} {out : String} {cs : List Content} {ds as : List (String × String)}
    (hc : run ⟨out ++ tagText name ds as, [], true⟩ (Content.eventsAll d cs) =
      if cs.isEmpty then ⟨out ++ tagText name ds as, [], true⟩
      else ⟨out ++ tagText name ds as ++ ">" ++ Node.renderAll (Content.toNodes d cs), [], false⟩) (o : Option String) :
    run ⟨out ++ tagText name ds as, [], true⟩ (Content.eventsAll d cs ++ [.endElement uri localName name]) =
      ⟨out ++ (Node.element name o ds as (Content.toNodes d cs)).render, [], false⟩ := by
  rw [run_append, hc, Node.render_element, isEmpty_toNodes]
  by_cases he : cs.isEmpty
  · simp [he, run, step, String.append_assoc]
  · simp [he, run, step, String.append_assoc]

mutual

theorem run_events {d : String} {c : Content} (hc : c.IsSound ns) (w : Writer) (hw : w.pending = []) :
    run w (c.events d) = ⟨w.closed ++ (c.toNode d).render, [], false⟩ := by
  cases c with
  | text s =>
    have hs : s ≠ "" := hc.1
    simp [Content.events, run, step, hs, hw, Content.toNode, Node.render]
  | element head cs =>
    have hcs := run_eventsAll (d := d) hc.2 ⟨w.closed ++ tagText head.name [] head.attributes, [], true⟩ rfl
    rw [Content.events, run_cons]
    simp only [step, hw, Content.map_eventAttributes]
    exact run_element hcs _

theorem run_eventsAll {d : String} {cs : List Content} (hcs : Content.AllSound ns cs) (w : Writer)
    (hw : w.pending = []) : run w (Content.eventsAll d cs) =
      if cs.isEmpty then w else ⟨w.closed ++ Node.renderAll (Content.toNodes d cs), [], false⟩ := by
  cases cs with
  | nil => rfl
  | cons c cs =>
    rw [Content.eventsAll, run_append, run_events hcs.1 w hw, run_eventsAll hcs.2 _ rfl]
    cases cs with
    | nil => simp [Content.toNodes, Node.renderAll]
    | cons c' cs => simp [Content.toNodes, Node.renderAll, closed, String.append_assoc]

end

end Writer

end Xml

namespace Draft

theorem textOf_document (b : Draft) (states : List String) (head : ElementHead) {children : List Content}
    (h : Content.AllSound ns children) :
    Xml.textOf (b.document states head children) = (b.rootNode states head children).render := by
  obtain ⟨extra, hextra, he⟩ := b.document_eq states head children
  have hc := Xml.Writer.run_eventsAll (d := b.documentNamespace head) h
    ⟨"" ++ Xml.tagText head.name (b.declarations states head children) (stateAttributes states ++ head.attributes),
      [], true⟩ rfl
  rw [Xml.textOf, he, Xml.Writer.run_cons]
  simp only [Xml.Writer.step, List.append_assoc]
  rw [Xml.Writer.run_declare, Content.rootEvents]
  simp only [List.nil_append, List.cons_append, Xml.Writer.run_cons, Xml.Writer.step, List.map_append,
    Content.map_eventAttributes, hextra]
  rw [Xml.Writer.run_append]
  exact congrArg (fun w : Xml.Writer => w.output) (Xml.Writer.run_element hc _)

/-! ### When the text is well formed -/

variable {b : Draft} {states : List String} {head : ElementHead} {children : List Content} {d : String × String}

theorem documentNamespace_eq (hb : b.IsSound ns) (hh : head.IsSound ns) : b.documentNamespace head = ns.getD "" := by
  rw [documentNamespace, hb.uri]
  rcases hh.uri with h | h
  · rw [h]
    rfl
  · rw [h]
    cases ns <;> rfl

theorem mem_declarations (h : d ∈ b.declarations states head children) :
    d = ("", b.documentNamespace head) ∨ d = ("ixml", ixmlNamespace) ∨ d = ("n", Content.wrapperNamespace) := by
  simp only [declarations, List.mem_append] at h
  rcases h with (h | h) | h
  all_goals split at h <;> simp_all

theorem names_declarations : ((b.declarations states head children).map fun d => Xml.declarationName d.1).Sublist
    ["xmlns", "xmlns:ixml", "xmlns:n"] := by
  have hname : Xml.declarationName "" = "xmlns" ∧ Xml.declarationName "ixml" = "xmlns:ixml" ∧
      Xml.declarationName "n" = "xmlns:n" := by decide
  rw [declarations]
  cases (b.documentNamespace head).isEmpty <;> cases states.isEmpty <;>
    cases (Content.element head children).hasWrapper <;> simp [hname]

theorem isReserved_of_mem_names {name : String}
    (h : name ∈ (b.declarations states head children).map fun d => Xml.declarationName d.1) :
    isReserved name = true := by
  have hall : ∀ n ∈ ["xmlns", "xmlns:ixml", "xmlns:n"], isReserved n = true := by decide +kernel
  exact hall name (names_declarations.subset h)

theorem eq_of_mem_stateAttributes {a : String × String} (h : a ∈ stateAttributes states) :
    a = ("ixml:state", " ".intercalate states) := by
  unfold stateAttributes at h
  split at h
  · cases h
  · exact List.mem_singleton.mp h

/-- The names in the start tag of the root are different unless it has an attribute of the name that is used for the
states. -/
theorem nodup_root_iff (hh : head.IsSound ns) :
    ((b.declarations states head children).map (fun d => Xml.declarationName d.1) ++
        (stateAttributes states ++ head.attributes).map Prod.fst).Nodup ↔
      states = [] ∨ "ixml:state" ∉ head.attributes.map Prod.fst := by
  -- names of declarations are reserved, and no attribute has such a name
  have hfree : ∀ n ∈ (stateAttributes states ++ head.attributes).map Prod.fst, isReserved n = false := fun n hn => by
    obtain ⟨a, ha, rfl⟩ := List.mem_map.mp hn
    rcases List.mem_append.mp ha with ha | ha
    · rw [eq_of_mem_stateAttributes ha]
      exact (by decide +kernel : isReserved "ixml:state" = false)
    · exact (hh.attributes a ha).2.2
  have hdisjoint : ∀ n ∈ (b.declarations states head children).map (fun d => Xml.declarationName d.1),
      ∀ n' ∈ (stateAttributes states ++ head.attributes).map Prod.fst, n ≠ n' := fun n hn n' hn' he => by
    have := isReserved_of_mem_names hn
    rw [he, hfree n' hn'] at this
    cases this
  rw [List.nodup_append, and_iff_right (names_declarations.nodup (by decide)), and_iff_left hdisjoint]
  unfold stateAttributes
  cases states with
  | nil => simpa using hh.different
  | cons s ss => simp [hh.different]

/-- The text of a document is an element if and only if its namespace can be written and the root has no attribute of
its own that is named like the one for the states, should there be states. -/
theorem isElement_document_iff (hb : b.IsSound ns) (hh : head.IsSound ns) (hc : Content.AllSound ns children)
    (hs : ∀ s ∈ states, Xml.IsText s) : Xml.IsElement (Xml.textOf (b.document states head children)) ↔
      Xml.IsText (ns.getD "") ∧ (states = [] ∨ "ixml:state" ∉ head.attributes.map Prod.fst) := by
  have hd : ∀ d ∈ b.declarations states head children, Xml.isName (Xml.declarationName d.1) = true := fun d hd => by
    rcases mem_declarations hd with rfl | rfl | rfl
    · exact (by decide : Xml.isName "xmlns" = true)
    · exact (by decide : Xml.isName "xmlns:ixml" = true)
    · exact (by decide : Xml.isName "xmlns:n" = true)
  have ha : ∀ a ∈ stateAttributes states ++ head.attributes, Xml.isName a.1 = true ∧ Xml.IsText a.2 := fun a ha => by
    rcases List.mem_append.mp ha with ha | ha
    · rw [eq_of_mem_stateAttributes ha]
      exact ⟨(by decide : Xml.isName "ixml:state" = true), (Xml.isText_intercalate_iff (by decide)).mpr hs⟩
    · exact ⟨(hh.attributes a ha).1, (hh.attributes a ha).2.1⟩
  have hns : b.documentNamespace head = ns.getD "" := documentNamespace_eq hb hh
  rw [textOf_document b states head hc]
  refine (Xml.Node.isElement_render_iff hh.name hd (fun a h => (ha a h).1) (Content.allSound_toNodes hc _)).trans ?_
  constructor
  · intro h
    refine ⟨?_, (nodup_root_iff hh).mp h.different⟩
    by_cases he : (ns.getD "").isEmpty
    · rw [String.isEmpty_iff.mp he]
      exact Xml.isText_empty
    · refine (h.declared ("", ns.getD "") ?_).2
      rw [declarations, hns, if_neg he]
      simp
  · rintro ⟨htext, hstate⟩
    refine ⟨hh.name, fun d hmem => ⟨hd d hmem, ?_⟩, ha, (nodup_root_iff hh).mpr hstate⟩
    rcases mem_declarations hmem with rfl | rfl | rfl
    · rwa [hns]
    · exact (by decide : Xml.IsText ixmlNamespace)
    · exact (by decide : Xml.IsText Content.wrapperNamespace)

/-! ### Attributes for states -/

theorem count_root : ((stateAttributes states ++ head.attributes).map Prod.fst).count "ixml:state" ≤ 1 ↔
    states = [] ∧ (head.attributes.map Prod.fst).count "ixml:state" ≤ 1 ∨
      "ixml:state" ∉ head.attributes.map Prod.fst := by
  unfold stateAttributes
  rw [List.map_append, List.count_append, ← List.count_eq_zero]
  cases states with
  | nil =>
    simp only [List.isEmpty_nil, if_true, List.map_nil, List.count_nil, true_and]
    omega
  | cons s ss =>
    simp only [List.isEmpty_cons, Bool.false_eq_true, if_false, List.map_cons, List.map_nil, List.count_singleton_self,
      reduceCtorEq, false_and, false_or]
    omega

/-- Only the root can have two attributes for states: one of its own and the one that is reported. -/
theorem singleState_document_iff (hh : head.IsSound ns) (hc : Content.AllSound ns children) :
    Xml.SingleState (b.document states head children) ↔
      (states = [] ∨ "ixml:state" ∉ head.attributes.map Prod.fst) := by
  obtain ⟨extra, hextra, he⟩ := b.document_eq states head children
  have hown : (head.attributes.map Prod.fst).count "ixml:state" ≤ 1 := List.nodup_iff_count_le_one.mp hh.different _
  have hroot : (extra ++ Content.eventAttributes head).map (·.qname) =
      (stateAttributes states ++ head.attributes).map Prod.fst := by
    rw [← hextra, ← Content.map_eventAttributes head]
    simp [Function.comp_def]
  have hrest : Xml.SingleState (Content.eventsAll (b.documentNamespace head) children) :=
    Content.singleState_eventsAll hc _
  rw [he, Content.rootEvents]
  constructor
  · intro h
    have := h (.startElement (Content.expandedName (b.documentNamespace head) head).1
      (Content.expandedName (b.documentNamespace head) head).2 head.name (extra ++ Content.eventAttributes head))
      (by simp)
    rw [Xml.Event.attributeNames, hroot, count_root] at this
    exact this.imp_left And.left
  · intro h e hmem
    simp only [List.mem_cons, List.mem_append, List.mem_map, List.not_mem_nil, or_false] at hmem
    rcases hmem with rfl | (⟨d, -, rfl⟩ | rfl | hmem | rfl) | rfl
    · exact Nat.zero_le 1
    · exact Nat.zero_le 1
    · rw [Xml.Event.attributeNames, hroot, count_root]
      exact h.imp_left fun h => ⟨h, hown⟩
    · exact hrest e hmem
    · exact Nat.zero_le 1
    · exact Nat.zero_le 1

end Draft

end Ixml
