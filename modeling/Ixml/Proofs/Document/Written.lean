import Ixml.Proofs.Document.Marks
import Ixml.Xml.Node

/-!
# The tree of a document

The events of a document, collected into a tree again, give the root with its declarations and states:
`Draft.treeOf_document`. This needs contents without empty texts in which no text follows another, because both
would be lost in the events. The recursion over derivations makes such contents: `Derivation.neat_root`.
-/

namespace Ixml

namespace Content

def isText : Content → Bool
  | text _ => true
  | element .. => false

mutual

/-- No text in a content is empty, and none follows another. -/
def Neat : Content → Prop
  | text s => s ≠ ""
  | element _ cs => NeatAfter false cs

/-- Contents are neat after a text, or after something else. -/
def NeatAfter (text : Bool) : List Content → Prop
  | [] => True
  | c :: cs => (text && c.isText) = false ∧ Neat c ∧ NeatAfter c.isText cs

end

theorem neatAfter_merge {cs : List Content} (h : ∀ c ∈ cs, Neat c) : NeatAfter false (merge cs) := by
  induction cs with
  | nil => trivial
  | cons c cs ih =>
    rw [List.forall_mem_cons] at h
    have hm := ih h.2
    unfold merge
    cases hd : merge cs with
    | nil => cases c <;> exact ⟨rfl, h.1, trivial⟩
    | cons d ds =>
      rw [hd] at hm
      cases c with
      | element => cases d <;> exact ⟨rfl, h.1, hm⟩
      | text s =>
        cases d with
        | element => exact ⟨rfl, h.1, rfl, hm.2⟩
        | text t =>
          have hs : s ≠ "" := h.1
          exact ⟨rfl, by simp [Neat, hs], hm.2.2⟩

theorem neat_ofText (s : String) : ∀ c ∈ ofText s, Neat c := by
  unfold ofText
  split
  · simp
  · next hs => simpa [Neat] using hs

mutual

/-- A content as a node of a tree, for the default namespace of the document. -/
def toNode (defaultNs : String) : Content → Xml.Node
  | text s => .text s
  | element head cs =>
    let uri := (expandedName defaultNs head).1
    .element head.name (if uri.isEmpty then none else some uri) [] head.attributes (toNodes defaultNs cs)

def toNodes (defaultNs : String) : List Content → List Xml.Node
  | [] => []
  | c :: cs => toNode defaultNs c :: toNodes defaultNs cs

end

theorem map_eventAttributes (head : ElementHead) :
    (eventAttributes head).map (fun a => (a.qname, a.value)) = head.attributes := by
  simp [eventAttributes, Xml.Attribute.plain, Function.comp_def]

end Content

namespace Xml

/-- Whether the last of some nodes is a text. -/
def Node.endInText : List Node → Bool
  | [] => false
  | [.text _] => true
  | [.element ..] => false
  | _ :: n :: ns => endInText (n :: ns)

namespace Node

@[simp] theorem endInText_append_text (ns : List Node) (s : String) : endInText (ns ++ [.text s]) = true := by
  induction ns with
  | nil => rfl
  | cons n ns ih => cases ns <;> simp_all [endInText]

@[simp] theorem endInText_append_element (ns : List Node) (name : String) (uri : Option String)
    (declarations attributes : List (String × String)) (children : List Node) :
    endInText (ns ++ [.element name uri declarations attributes children]) = false := by
  induction ns with
  | nil => rfl
  | cons n ns ih => cases ns <;> simp_all [endInText]

theorem appendText_of_endInText_eq_false {ns : List Node} (h : endInText ns = false) (s : String) :
    appendText s ns = ns ++ [.text s] := by
  induction ns with
  | nil => rfl
  | cons n ns ih =>
    cases ns with
    | nil => cases n <;> simp_all [appendText, endInText]
    | cons m ns => simp_all [appendText, endInText]

end Node

namespace Collector

theorem run_append (c : Collector) (es es' : List Event) : run c (es ++ es') = run (run c es) es' :=
  List.foldl_append

theorem run_cons (c : Collector) (e : Event) (es : List Event) : run c (e :: es) = run (step c e) es := rfl

theorem run_declare (c : Collector) (ds : List (String × String)) (es : List Event) :
    run c (ds.map (fun d => .declare d.1 d.2) ++ es) = run { c with pending := c.pending ++ ds } es := by
  induction ds generalizing c with
  | nil => simp
  | cons d ds ih => simp [run_cons, step, ih]

mutual

theorem run_events {d : String} {c : Content} (hc : c.Neat) (name : String) (uri : Option String)
    (declarations attributes : List (String × String)) (ns : List Node)
    (hns : (Node.endInText ns && c.isText) = false) (rest : List Node) (root : Option Node) :
    run ⟨.element name uri declarations attributes ns :: rest, [], root⟩ (c.events d) =
      ⟨.element name uri declarations attributes (ns ++ [c.toNode d]) :: rest, [], root⟩ := by
  cases c with
  | text s =>
    have hs : s ≠ "" := hc
    simp only [Content.isText, Bool.and_true] at hns
    simp [Content.events, run, step, hs, mapChildren, Node.appendText_of_endInText_eq_false hns, Content.toNode]
  | element head cs =>
    have hi := run_eventsAll (d := d) (b := false) hc head.name
      (if (Content.expandedName d head).1.isEmpty then none
        else some (Content.expandedName d head).1) [] head.attributes [] rfl
      (.element name uri declarations attributes ns :: rest) root
    rw [Content.events, run_cons, run_append]
    simp only [step, Content.map_eventAttributes, hi]
    rfl

/-- Between the tags of an element, the events of contents put their nodes after those that are there. -/
theorem run_eventsAll {d : String} {cs : List Content} {b : Bool} (hcs : Content.NeatAfter b cs)
    (name : String) (uri : Option String) (declarations attributes : List (String × String)) (ns : List Node)
    (hns : Node.endInText ns = b) (rest : List Node) (root : Option Node) :
    run ⟨.element name uri declarations attributes ns :: rest, [], root⟩ (Content.eventsAll d cs) =
      ⟨.element name uri declarations attributes (ns ++ Content.toNodes d cs) :: rest, [], root⟩ := by
  cases cs with
  | nil => simp [Content.eventsAll, Content.toNodes, run]
  | cons c cs =>
    obtain ⟨hb, hc, hcs⟩ := hcs
    rw [Content.eventsAll, run_append, run_events hc _ _ _ _ _ (by rw [hns]; exact hb),
      run_eventsAll hcs _ _ _ _ _ (by cases c <;> simp [Content.toNode, Content.isText])]
    simp [Content.toNodes]

end

end Collector

end Xml

namespace Draft

/-- The namespaces that the root declares. -/
def declarations (b : Draft) (states : List String) (head : ElementHead) (children : List Content) :
    List (String × String) :=
  (if (b.documentNamespace head).isEmpty then [] else [("", b.documentNamespace head)]) ++
    (if states.isEmpty then [] else [("ixml", ixmlNamespace)]) ++
    (if (Content.element head children).hasWrapper then [("n", Content.wrapperNamespace)] else [])

/-- The root of a document: its element, with the declarations and the states. -/
def rootNode (b : Draft) (states : List String) (head : ElementHead) (children : List Content) : Xml.Node :=
  let ns := b.documentNamespace head
  let uri := (Content.expandedName ns head).1
  .element head.name (if uri.isEmpty then none else some uri) (b.declarations states head children)
    ((if states.isEmpty then [] else [("ixml:state", " ".intercalate states)]) ++ head.attributes)
    (Content.toNodes ns children)

/-- What the root has before its own attributes. -/
def stateAttributes (states : List String) : List (String × String) :=
  if states.isEmpty then [] else [("ixml:state", " ".intercalate states)]

/-- The same in the events of the root. -/
def stateEventAttributes (states : List String) : List Xml.Attribute :=
  if states.isEmpty then [] else [.qualified ixmlNamespace "ixml" "state" (" ".intercalate states)]

theorem document_eq_rootEvents (b : Draft) (states : List String) (head : ElementHead) (children : List Content) :
    b.document states head children = .startDocument ::
      ((b.declarations states head children).map (fun d => .declare d.1 d.2) ++
        Content.rootEvents (b.documentNamespace head) (stateEventAttributes states) head children ++
          [.endDocument]) := by
  rw [document, declarations, stateEventAttributes]
  cases (b.documentNamespace head).isEmpty <;> cases states.isEmpty <;>
    cases (Content.element head children).hasWrapper <;> rfl

theorem document_eq (b : Draft) (states : List String) (head : ElementHead) (children : List Content) :
    ∃ extra, extra.map (fun a => (a.qname, a.value)) = stateAttributes states ∧
      b.document states head children = .startDocument ::
        ((b.declarations states head children).map (fun d => .declare d.1 d.2) ++
          Content.rootEvents (b.documentNamespace head) extra head children ++ [.endDocument]) :=
  ⟨stateEventAttributes states, by cases states <;> rfl, b.document_eq_rootEvents states head children⟩

theorem treeOf_document (b : Draft) (states : List String) (head : ElementHead) {children : List Content}
    (h : Content.NeatAfter false children) :
    Xml.treeOf (b.document states head children) = some (b.rootNode states head children) := by
  obtain ⟨extra, hextra, he⟩ := b.document_eq states head children
  have hc := Xml.Collector.run_eventsAll (d := b.documentNamespace head) h head.name
    (if (Content.expandedName (b.documentNamespace head) head).1.isEmpty then none
      else some (Content.expandedName (b.documentNamespace head) head).1)
    (b.declarations states head children) (stateAttributes states ++ head.attributes) [] rfl [] none
  rw [Xml.treeOf, he, Xml.Collector.run_cons]
  simp only [Xml.Collector.step, List.append_assoc]
  rw [Xml.Collector.run_declare, Content.rootEvents]
  simp only [List.nil_append, List.cons_append, Xml.Collector.run_cons, Xml.Collector.step, List.append_assoc,
    List.map_append, Content.map_eventAttributes, hextra]
  rw [Xml.Collector.run_append, hc]
  rfl

end Draft

namespace Derivation

mutual

theorem neat_contribution {o : Options} {owner : Option ElementHead} {d : Derivation}
    {r : Option ElementHead × List Content} (h : d.contribution o owner = .ok r) : ∀ c ∈ r.2, c.Neat := by
  cases d with
  | matched c a => obtain ⟨s, rfl⟩ := eq_of_contribution_matched h; exact Content.neat_ofText s
  | derived a ds =>
    rcases contribution_derived_cases h with ⟨s, r', hr, rfl⟩ | ⟨value, own, hset, rfl⟩ | ⟨r', hr, rfl | rfl⟩ |
      ⟨head, r', hr, rfl | rfl⟩
    · intro c hc
      rcases List.mem_append.mp hc with hc | hc
      · exact Content.neat_ofText s c hc
      · exact neat_contributions hr c hc
    · simp
    · exact neat_contributions hr
    · simpa [Content.Neat] using Content.neatAfter_merge (neat_contributions hr)
    · simp
    · simpa [Content.Neat] using Content.neatAfter_merge (neat_contributions hr)

theorem neat_contributions {o : Options} {owner : Option ElementHead} {ds : List Derivation}
    {r : Option ElementHead × List Content} (h : contributions o owner ds = .ok r) : ∀ c ∈ r.2, c.Neat := by
  cases ds with
  | nil => rw [contributions] at h; cases h; simp
  | cons d ds =>
    obtain ⟨r₁, r₂, hd, hr, rfl⟩ := contributions_cons_eq_ok h
    intro c hc
    rcases List.mem_append.mp hc with hc | hc
    · exact neat_contribution hd c hc
    · exact neat_contributions hr c hc

end

/-- The element at the root has no empty texts, and no text follows another in it. -/
theorem neat_root {o : Options} {ds : List Derivation} {r : ElementHead × List Content}
    (h : root o ds = .ok r) : Content.NeatAfter false r.2 := by
  obtain ⟨r', hr, hm⟩ := root_eq_ok_iff.mp h
  have hneat := Content.neatAfter_merge (neat_contributions hr)
  rw [hm] at hneat
  exact hneat.2.1

end Derivation

end Ixml
