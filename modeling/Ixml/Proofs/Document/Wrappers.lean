import Ixml.Proofs.Document.Drafting
import Ixml.Proofs.Document.Hidden
import Ixml.Proofs.Document.Written

/-!
# Results with wrappers

If hidden nonterminals are shown, they only add wrappers to a result: without the tags of the wrappers, and with the
texts joined that come to stand next to each other, its events tell the same as those of the result without wrappers
(`Derivation.unwrapped_result`). This needs that no empty element is left out, as a wrapper would make it count, and a
root that does not insert a text, next to which a wrapper would be a second root.
-/

namespace Ixml

open Xml (Event)

/-- Show hidden nonterminals, or do not. -/
def Options.showing (o : Options) (b : Bool) : Options :=
  { o with showBnfNonterminals := b }

/-! ### What events tell -/

namespace Xml.Event

/-- A tag of a wrapper. Only wrappers have a prefix, so that no other element has such tags, even if it is called like
them. -/
def isWrapperTag : Event → Bool
  | startElement uri localName qname _ | endElement uri localName qname =>
    uri == Content.wrapperNamespace && localName == "symbol" && qname == Content.wrapperName
  | _ => false

/-- What an event tells of elements, attributes and texts: namespaces, their declarations and the attribute for states
are left aside. -/
def core? : Event → Option Event
  | declare .. => none
  | startElement _ localName qname as =>
    some (.startElement "" localName qname (as.filter (·.uri != Draft.ixmlNamespace)))
  | endElement _ localName qname => some (.endElement "" localName qname)
  | e => some e

@[simp] theorem core?_startElement (uri localName qname : String) (as : List Attribute) :
    core? (.startElement uri localName qname as) =
      some (.startElement "" localName qname (as.filter (·.uri != Draft.ixmlNamespace))) := rfl

@[simp] theorem core?_endElement (uri localName qname : String) :
    core? (.endElement uri localName qname) = some (.endElement "" localName qname) := rfl

def isCharacters : Event → Bool
  | characters _ => true
  | _ => false

/-- Put an event before others. Characters join those that come next. -/
def joinOne : Event → List Event → List Event
  | characters s, characters t :: es => characters (s ++ t) :: es
  | e, es => e :: es

/-- Join the characters that come one after the other. -/
def joined (es : List Event) : List Event :=
  es.foldr joinOne []

variable {e : Event} {es es' rest : List Event} {s t : String}

theorem joinOne_joinOne_characters : joinOne (characters s) (joinOne (characters t) es) =
    joinOne (characters (s ++ t)) es := by
  cases es with
  | nil => rfl
  | cons e es => cases e <;> simp [joinOne, String.append_assoc]

theorem joinOne_of_isCharacters_eq_false (h : e.isCharacters = false) : joinOne e es = e :: es := by
  cases e <;> first | rfl | cases h

theorem joinOne_of_head? (h : ∀ e, es.head? = some e → e.isCharacters = false) : joinOne e es = e :: es := by
  cases es with
  | nil => cases e <;> rfl
  | cons e' es =>
    have he := h e' rfl
    cases e' <;> first | (cases e <;> rfl) | cases he

theorem foldr_joinOne : (joinOne e es).foldr joinOne rest = joinOne e (es.foldr joinOne rest) := by
  cases e with
  | characters s =>
    cases es with
    | nil => rfl
    | cons e' es =>
      cases e' with
      | characters t => exact joinOne_joinOne_characters.symm
      | _ => rfl
  | _ => rfl

theorem foldr_joined : (joined es).foldr joinOne rest = es.foldr joinOne rest := by
  induction es with
  | nil => rfl
  | cons e es ih =>
    show (joinOne e (joined es)).foldr joinOne rest = _
    rw [foldr_joinOne, ih, List.foldr_cons]

theorem foldr_congr (h : joined es = joined es') : es.foldr joinOne rest = es'.foldr joinOne rest := by
  rw [← foldr_joined, h, foldr_joined]

theorem joined_append_congr {fs fs' : List Event} (h : joined es = joined es') (h' : joined fs = joined fs') :
    joined (es ++ fs) = joined (es' ++ fs') := by
  simp only [joined, List.foldr_append]
  rw [← joined, ← joined, h']
  exact foldr_congr h

end Xml.Event

open Xml.Event (joinOne joined isWrapperTag core?)

namespace Content

/-! ### What contents tell -/

mutual

/-- The events of a content without its wrappers. -/
def plain : Content → List Event
  | text s => [.characters s]
  | element head cs =>
    if head.isWrapper then plainAll cs
    else .startElement "" head.name head.name (eventAttributes head) ::
      (plainAll cs ++ [.endElement "" head.name head.name])

def plainAll : List Content → List Event
  | [] => []
  | c :: cs => plain c ++ plainAll cs

end

mutual

/-- Every wrapper has the name of wrappers. -/
def HasNamedWrappers : Content → Prop
  | text _ => True
  | element head cs => (head.isWrapper = true → head.name = wrapperName) ∧ AllHaveNamedWrappers cs

def AllHaveNamedWrappers : List Content → Prop
  | [] => True
  | c :: cs => HasNamedWrappers c ∧ AllHaveNamedWrappers cs

end

variable {c : Content} {cs cs' ds ds' : List Content} {head : ElementHead} {d uri localName name s t : String}
  {as : List Xml.Attribute}

theorem plainAll_append : plainAll (cs ++ ds) = plainAll cs ++ plainAll ds := by
  induction cs with
  | nil => rfl
  | cons c cs ih => rw [List.cons_append, plainAll, plainAll, ih, List.append_assoc]

theorem plainAll_singleton : plainAll [c] = plain c := by
  rw [plainAll, plainAll, List.append_nil]

theorem allHaveNamedWrappers_append :
    AllHaveNamedWrappers (cs ++ ds) ↔ AllHaveNamedWrappers cs ∧ AllHaveNamedWrappers ds := by
  induction cs with
  | nil => simp [AllHaveNamedWrappers]
  | cons c cs ih => simp [AllHaveNamedWrappers, ih, and_assoc]

theorem anyWrapper_append : anyWrapper (cs ++ ds) = (anyWrapper cs || anyWrapper ds) := by
  induction cs with
  | nil => rfl
  | cons c cs ih => rw [List.cons_append, anyWrapper, anyWrapper, ih, Bool.or_assoc]

theorem merge_cons_cases (c : Content) (cs : List Content) :
    (∃ s t ds, c = text s ∧ merge cs = text t :: ds ∧ merge (c :: cs) = text (s ++ t) :: ds) ∨
      merge (c :: cs) = c :: merge cs := by
  cases hm : merge cs with
  | nil => cases c <;> simp [merge, hm]
  | cons d ds => cases c <;> cases d <;> simp [merge, hm]

/-- Joining texts before changes nothing where texts are joined in the end. -/
theorem joined_plainAll_merge : joined (plainAll (merge cs)) = joined (plainAll cs) := by
  induction cs with
  | nil => rfl
  | cons c cs ih =>
    have hcons : joined (plainAll (c :: merge cs)) = joined (plainAll (c :: cs)) := by
      rw [plainAll, plainAll]
      exact Xml.Event.joined_append_congr rfl ih
    rw [← hcons]
    rcases merge_cons_cases c cs with ⟨s, t, ds, rfl, hm, hc⟩ | hc
    · rw [hc, hm]
      exact Xml.Event.joinOne_joinOne_characters.symm
    · rw [hc]

theorem allHaveNamedWrappers_merge (h : AllHaveNamedWrappers cs) : AllHaveNamedWrappers (merge cs) := by
  induction cs with
  | nil => trivial
  | cons c cs ih =>
    have hcs := ih h.2
    rcases merge_cons_cases c cs with ⟨s, t, ds, rfl, hm, hc⟩ | hc
    · rw [hm] at hcs
      rw [hc]
      exact ⟨trivial, hcs.2⟩
    · rw [hc]
      exact ⟨h.1, hcs⟩

theorem anyWrapper_merge : anyWrapper (merge cs) = anyWrapper cs := by
  induction cs with
  | nil => rfl
  | cons c cs ih =>
    rcases merge_cons_cases c cs with ⟨s, t, ds, rfl, hm, hc⟩ | hc
    · rw [hm] at ih
      rw [hc]
      simpa [anyWrapper, hasWrapper] using ih
    · rw [hc, anyWrapper, anyWrapper, ih]

/-! ### From contents to events -/

theorem filter_eventAttributes (head : ElementHead) :
    (eventAttributes head).filter (·.uri != Draft.ixmlNamespace) = eventAttributes head := by
  refine List.filter_eq_self.mpr fun a ha => ?_
  obtain ⟨p, -, rfl⟩ := List.mem_map.mp ha
  exact (by decide : ("" != Draft.ixmlNamespace) = true)

/-- Tags whose name is the same without a prefix are not those of a wrapper. -/
theorem isWrapperTag_eq_false (name : String) :
    (∀ uri as, isWrapperTag (.startElement uri name name as) = false) ∧
      ∀ uri, isWrapperTag (.endElement uri name name) = false := by
  have hname : (name == "symbol" && name == wrapperName) = false := by
    by_cases hs : name = "symbol"
    · rw [hs]
      decide
    · simp [hs]
  simp only [isWrapperTag, Bool.and_assoc, hname, Bool.and_false, implies_true, and_self]

mutual

/-- Without wrappers, the events of a content tell what is in it. -/
theorem core_events (d : String) {c : Content} (h : c.hasWrapper = false) :
    (c.events d).filterMap core? = c.plain := by
  cases c with
  | text s => rfl
  | element head cs =>
    rw [hasWrapper, Bool.or_eq_false_iff] at h
    rw [events, expandedName, plain, h.1]
    simp only [Bool.false_eq_true, if_false, List.filterMap_cons, List.filterMap_append, core_eventsAll d h.2,
      Xml.Event.core?_startElement, Xml.Event.core?_endElement, filter_eventAttributes, List.filterMap_nil]

theorem core_eventsAll (d : String) {cs : List Content} (h : anyWrapper cs = false) :
    (eventsAll d cs).filterMap core? = plainAll cs := by
  cases cs with
  | nil => rfl
  | cons c cs =>
    rw [anyWrapper, Bool.or_eq_false_iff] at h
    rw [eventsAll, List.filterMap_append, core_events d h.1, core_eventsAll d h.2, plainAll]

end

mutual

/-- The events of a content tell what is in it apart from its wrappers, once the tags of these are left out. -/
theorem core_filter_events (d : String) {c : Content} (h : c.HasNamedWrappers) :
    ((c.events d).filter (!isWrapperTag ·)).filterMap core? = c.plain := by
  cases c with
  | text s => rfl
  | element head cs =>
    have hcs := core_filter_eventsAll d h.2
    rw [events, plain]
    by_cases hw : head.isWrapper = true
    · rw [expandedName, if_pos hw, if_pos hw, h.1 hw]
      simpa [isWrapperTag, List.filter_append] using hcs
    · obtain ⟨htag, htag'⟩ := isWrapperTag_eq_false head.name
      rw [expandedName, if_neg hw, if_neg hw]
      simp only [List.filter_cons, List.filter_append, htag, htag', Bool.not_false, if_true, List.filter_nil,
        List.filterMap_cons, List.filterMap_append, List.filterMap_nil, hcs, Xml.Event.core?_startElement,
        Xml.Event.core?_endElement, filter_eventAttributes]

theorem core_filter_eventsAll (d : String) {cs : List Content} (h : AllHaveNamedWrappers cs) :
    ((eventsAll d cs).filter (!isWrapperTag ·)).filterMap core? = plainAll cs := by
  cases cs with
  | nil => rfl
  | cons c cs =>
    rw [eventsAll, List.filter_append, List.filterMap_append, core_filter_events d h.1, core_filter_eventsAll d h.2,
      plainAll]

end

mutual

/-- The texts of a neat content are joined already. -/
theorem foldr_joinOne_plain {c : Content} {r : List Event} (hc : c.Neat) (hw : c.hasWrapper = false)
    (hr : c.isText = true → ∀ e, r.head? = some e → e.isCharacters = false) :
    c.plain.foldr joinOne r = c.plain ++ r := by
  cases c with
  | text s => exact Xml.Event.joinOne_of_head? (hr rfl)
  | element head cs =>
    rw [hasWrapper, Bool.or_eq_false_iff] at hw
    have hcs := foldr_joinOne_plainAll (r := .endElement "" head.name head.name :: r) hc hw.2
      (fun e he => by cases he; rfl)
    simp only [plain, hw.1, Bool.false_eq_true, if_false, List.foldr_cons, List.foldr_append, List.foldr_nil]
    rw [Xml.Event.joinOne_of_isCharacters_eq_false rfl, Xml.Event.joinOne_of_isCharacters_eq_false rfl, hcs]
    simp

theorem foldr_joinOne_plainAll {b : Bool} {cs : List Content} {r : List Event} (hcs : NeatAfter b cs)
    (hw : anyWrapper cs = false) (hr : ∀ e, r.head? = some e → e.isCharacters = false) :
    (plainAll cs).foldr joinOne r = plainAll cs ++ r := by
  cases cs with
  | nil => rfl
  | cons c cs =>
    obtain ⟨-, hc, hcs⟩ := hcs
    rw [anyWrapper, Bool.or_eq_false_iff] at hw
    rw [plainAll, List.foldr_append, foldr_joinOne_plainAll hcs hw.2 hr, List.append_assoc]
    refine foldr_joinOne_plain hc hw.1 fun ht e he => ?_
    -- after a text there is nothing, or an element that begins with its tag
    cases cs with
    | nil => exact hr e he
    | cons c' cs =>
      cases c' with
      | text t =>
        rw [ht] at hcs
        exact absurd hcs.1 (by simp [isText])
      | element head ds =>
        rw [anyWrapper, hasWrapper, Bool.or_eq_false_iff, Bool.or_eq_false_iff] at hw
        rw [plainAll, plain, hw.2.1.1] at he
        cases he
        rfl

end

end Content

/-! ### Documents -/

namespace Draft

variable {head : ElementHead} {children : List Content}

theorem filter_stateEventAttributes (states : List String) :
    (stateEventAttributes states).filter (·.uri != ixmlNamespace) = [] := by
  unfold stateEventAttributes
  split
  · rfl
  · simp [Xml.Attribute.qualified]

theorem core_filter_declarations (p : Event → Bool) (ds : List (String × String)) :
    ((ds.map fun d => Event.declare d.1 d.2).filter p).filterMap core? = [] := by
  refine List.filterMap_eq_nil_iff.mpr fun e he => ?_
  obtain ⟨d, -, rfl⟩ := List.mem_map.mp (List.mem_filter.mp he).1
  rfl

theorem core_document (b : Draft) (states : List String) (h : (Content.element head children).hasWrapper = false) :
    (b.document states head children).filterMap core? =
      .startDocument :: ((Content.element head children).plain ++ [.endDocument]) := by
  rw [Content.hasWrapper, Bool.or_eq_false_iff] at h
  have hdeclared := core_filter_declarations (fun _ => true) (b.declarations states head children)
  rw [List.filter_true] at hdeclared
  rw [document_eq_rootEvents, Content.rootEvents, Content.expandedName, Content.plain, h.1]
  simp [core?, hdeclared, filter_stateEventAttributes, Content.core_eventsAll _ h.2, Content.filter_eventAttributes]

theorem core_filter_document (b : Draft) (states : List String)
    (h : (Content.element head children).HasNamedWrappers) :
    ((b.document states head children).filter (!isWrapperTag ·)).filterMap core? =
      .startDocument :: ((Content.element head children).plain ++ [.endDocument]) := by
  have hdeclared := core_filter_declarations (!isWrapperTag ·) (b.declarations states head children)
  have hcs := Content.core_filter_eventsAll (b.documentNamespace head) h.2
  have hends : isWrapperTag .startDocument = false ∧ isWrapperTag .endDocument = false := ⟨rfl, rfl⟩
  rw [document_eq_rootEvents, Content.rootEvents, Content.plain]
  by_cases hw : head.isWrapper = true
  · have htags : (∀ as, isWrapperTag (.startElement Content.wrapperNamespace "symbol" head.name as) = true) ∧
        isWrapperTag (.endElement Content.wrapperNamespace "symbol" head.name) = true := by
      rw [h.1 hw]
      exact ⟨fun as => rfl, rfl⟩
    rw [Content.expandedName, if_pos hw, if_pos hw]
    simp [core?, List.filter_append, hends, htags, hdeclared, hcs]
  · have htags := Content.isWrapperTag_eq_false head.name
    rw [Content.expandedName, if_neg hw, if_neg hw]
    simp [core?, List.filter_append, hends, htags, hdeclared, hcs, filter_stateEventAttributes,
      Content.filter_eventAttributes]

end Draft

/-! ### What derivations give -/

/-- The contents `cs` tell what `cs'` tell apart from wrappers, of which they have none. -/
structure Content.Unwraps (cs' cs : List Content) : Prop where
  joined_eq : joined (Content.plainAll cs') = joined (Content.plainAll cs)
  named : Content.AllHaveNamedWrappers cs'
  bare : Content.anyWrapper cs = false

namespace Content.Unwraps

variable {cs cs' ds ds' : List Content}

theorem nil : Unwraps [] [] := ⟨rfl, trivial, rfl⟩

theorem ofText (s : String) : Unwraps (Content.ofText s) (Content.ofText s) := by
  unfold Content.ofText
  split
  · exact nil
  · exact ⟨rfl, ⟨trivial, trivial⟩, rfl⟩

theorem append (h : Unwraps cs' cs) (h' : Unwraps ds' ds) : Unwraps (cs' ++ ds') (cs ++ ds) where
  joined_eq := by
    rw [plainAll_append, plainAll_append]
    exact Xml.Event.joined_append_congr h.joined_eq h'.joined_eq
  named := allHaveNamedWrappers_append.mpr ⟨h.named, h'.named⟩
  bare := by rw [anyWrapper_append, h.bare, h'.bare, Bool.or_self]

theorem merge (h : Unwraps cs' cs) : Unwraps (Content.merge cs') (Content.merge cs) where
  joined_eq := by rw [joined_plainAll_merge, joined_plainAll_merge, h.joined_eq]
  named := allHaveNamedWrappers_merge h.named
  bare := anyWrapper_merge.trans h.bare

theorem element {head : ElementHead} (hw : head.isWrapper = false) (h : Unwraps cs' cs) :
    Unwraps [.element head cs'] [.element head cs] where
  joined_eq := by
    simp only [plainAll_singleton, plain, hw, Bool.false_eq_true, if_false]
    rw [← List.singleton_append]
    exact Xml.Event.joined_append_congr rfl (Xml.Event.joined_append_congr h.joined_eq rfl)
  named := by simp [AllHaveNamedWrappers, HasNamedWrappers, hw, h.named]
  bare := by simp [anyWrapper, hasWrapper, hw, h.bare]

theorem wrapper (a : Attributes) (h : Unwraps cs' cs) : Unwraps [.element a.wrapperHead (Content.merge cs')] cs where
  joined_eq := by
    rw [plainAll_singleton]
    exact joined_plainAll_merge.trans h.joined_eq
  named := by
    simp [AllHaveNamedWrappers, HasNamedWrappers, Attributes.wrapperHead, allHaveNamedWrappers_merge h.named]
  bare := h.bare

end Content.Unwraps

namespace Derivation

mutual

/-- No nonterminal leaves out its element where that is empty. -/
def KeepsEmpty : Derivation → Prop
  | matched .. => True
  | derived a ds => a.discardEmpty = false ∧ AllKeepEmpty ds

def AllKeepEmpty : List Derivation → Prop
  | [] => True
  | d :: ds => KeepsEmpty d ∧ AllKeepEmpty ds

end

/-- With hidden nonterminals shown, what comes out without comes out as well, up to wrappers: the same attributes are on
the element around, and the contents tell the same. -/
def IsShown (shown plain : Except Error (Option ElementHead × List Content)) : Prop :=
  ∀ r, plain = .ok r → ∃ cs', shown = .ok (r.1, cs') ∧ Content.Unwraps cs' r.2

variable {o : Options} {owner : Option ElementHead} {a : Attributes} {d : Derivation} {ds : List Derivation}

mutual

theorem valueText_showing (b : Bool) : ∀ d : Derivation, d.valueText (o.showing b) = d.valueText o
  | .matched _ _ => rfl
  | .derived a ds => by
    rw [valueText, valueText, valueTexts_showing b ds]
    rfl

theorem valueTexts_showing (b : Bool) : ∀ ds : List Derivation, valueTexts (o.showing b) ds = valueTexts o ds
  | [] => rfl
  | d :: ds => by rw [valueTexts, valueTexts, valueText_showing b d, valueTexts_showing b ds]

end

section

variable (hds : ∀ owner, IsShown (contributions (o.showing true) owner ds) (contributions (o.showing false) owner ds))

include hds

theorem isShown_insertion (ha : a.mark = '+') :
    IsShown ((derived a ds).contribution (o.showing true) owner)
      ((derived a ds).contribution (o.showing false) owner) := by
  intro r h
  simp only [contribution, ha, beq_self_eq_true, if_true] at h ⊢
  obtain ⟨s, hs, h⟩ := exists_of_bind_eq_ok h
  obtain ⟨p, hp, h⟩ := exists_of_bind_eq_ok h
  obtain ⟨cs', hcs', hu⟩ := hds owner p hp
  cases h
  refine ⟨Content.ofText s ++ cs', ?_, .append (.ofText s) hu⟩
  rw [show (o.showing true).checkText a.insertionText = .ok s from hs, hcs']
  rfl

theorem isShown_hidden (ha : a.mark = '-') :
    IsShown ((derived a ds).contribution (o.showing true) owner)
      ((derived a ds).contribution (o.showing false) owner) := by
  intro r h
  rw [contribution_hidden rfl ha] at h
  obtain ⟨cs', hcs', hu⟩ := hds owner r h
  refine ⟨[.element a.wrapperHead (Content.merge cs')], ?_, .wrapper a hu⟩
  rw [contribution, hcs', ha]
  rfl

theorem isShown_element (ha : a.mark ≠ '+' ∧ a.mark ≠ '@' ∧ a.mark ≠ '-') (hd : a.discardEmpty = false) :
    IsShown ((derived a ds).contribution (o.showing true) owner)
      ((derived a ds).contribution (o.showing false) owner) := by
  intro r h
  simp only [contribution, beq_iff_eq, ha.1, ha.2.1, ha.2.2, hd, Bool.false_and, Bool.false_eq_true, if_false] at h ⊢
  obtain ⟨_, hname, h⟩ := exists_of_bind_eq_ok h
  obtain ⟨p, hp, h⟩ := exists_of_bind_eq_ok h
  obtain ⟨cs', hcs', hu⟩ := hds _ p hp
  have hw : (p.1.getD a.elementHead).isWrapper = false := by
    obtain ⟨head, hhead, hw⟩ := Option.map_eq_some_iff.mp (isWrapper_contributions hp)
    rw [hhead]
    exact hw
  cases h
  refine ⟨[.element (p.1.getD a.elementHead) (Content.merge cs')], ?_, .element hw hu.merge⟩
  rw [show (o.showing true).checkName a.outputName = .ok () from hname, hcs']
  rfl

end

/-- Below an attribute, nothing depends on what is shown. -/
theorem isShown_attribute (ha : a.mark = '@') :
    IsShown ((derived a ds).contribution (o.showing true) owner)
      ((derived a ds).contribution (o.showing false) owner) := by
  intro r h
  obtain ⟨value, -, hr⟩ := setAttribute_of_contribution_eq_ok ha h
  have hsame : (derived a ds).contribution (o.showing true) owner =
      (derived a ds).contribution (o.showing false) owner := by
    simp only [contribution, ha, valueTexts_showing]
    rfl
  rw [hsame, h, hr]
  exact ⟨[], by rw [← hr], .nil⟩

mutual

theorem isShown_contribution {d : Derivation} (hd : d.KeepsEmpty) (owner : Option ElementHead) :
    IsShown (d.contribution (o.showing true) owner) (d.contribution (o.showing false) owner) := by
  cases d with
  | matched c a =>
    intro r h
    obtain ⟨s, rfl⟩ := eq_of_contribution_matched h
    exact ⟨Content.ofText s, h, .ofText s⟩
  | derived a ds =>
    have hds := isShown_contributions hd.2
    by_cases hinsertion : a.mark = '+'
    · exact isShown_insertion hds hinsertion
    by_cases hattribute : a.mark = '@'
    · exact isShown_attribute hattribute
    by_cases hhidden : a.mark = '-'
    · exact isShown_hidden hds hhidden
    · exact isShown_element hds ⟨hinsertion, hattribute, hhidden⟩ hd.1

/-- If hidden nonterminals are shown, derivations give what they give without, and wrappers. -/
theorem isShown_contributions {ds : List Derivation} (hds : AllKeepEmpty ds) (owner : Option ElementHead) :
    IsShown (contributions (o.showing true) owner ds) (contributions (o.showing false) owner ds) := by
  intro r h
  cases ds with
  | nil =>
    rw [contributions] at h ⊢
    cases h
    exact ⟨[], rfl, .nil⟩
  | cons d ds =>
    obtain ⟨r₁, r₂, hd, hr, rfl⟩ := contributions_cons_eq_ok h
    obtain ⟨cs₁, hcs₁, hu₁⟩ := isShown_contribution hds.1 owner r₁ hd
    obtain ⟨cs₂, hcs₂, hu₂⟩ := isShown_contributions hds.2 r₁.1 r₂ hr
    refine ⟨cs₁ ++ cs₂, ?_, hu₁.append hu₂⟩
    simp only [contributions, hcs₁, hcs₂, bind, Except.bind, pure, Except.pure]

end

/-- A nonterminal that inserts no text and is no attribute gives one element, if only as a wrapper. -/
theorem exists_element_of_contribution_shown {r : Option ElementHead × List Content}
    (ha : a.mark ≠ '+' ∧ a.mark ≠ '@') (hd : a.discardEmpty = false)
    (h : (derived a ds).contribution (o.showing true) owner = .ok r) : ∃ head cs, r.2 = [.element head cs] := by
  simp only [contribution, beq_iff_eq, ha.1, ha.2, hd, Bool.false_and, Bool.false_eq_true, if_false] at h
  split at h
  · obtain ⟨p, -, h⟩ := exists_of_bind_eq_ok h
    cases h
    exact ⟨_, _, rfl⟩
  · obtain ⟨_, -, h⟩ := exists_of_bind_eq_ok h
    obtain ⟨p, -, h⟩ := exists_of_bind_eq_ok h
    cases h
    exact ⟨_, _, rfl⟩

/-- If hidden nonterminals are shown, there is a root as there is one without, up to wrappers. -/
theorem root_shown {r : ElementHead × List Content} (ha : a.mark ≠ '+') (hd : (derived a ds).KeepsEmpty)
    (h : root (o.showing false) [derived a ds] = .ok r) :
    ∃ r', root (o.showing true) [derived a ds] = .ok r' ∧
      Content.Unwraps [.element r'.1 r'.2] [.element r.1 r.2] := by
  obtain ⟨p, hp, hm⟩ := root_eq_ok_iff.mp h
  rw [contributions_singleton] at hp
  -- an attribute has no element to be set on
  have hattribute : a.mark ≠ '@' := fun hat => by
    obtain ⟨value, hset, -⟩ := setAttribute_of_contribution_eq_ok hat hp
    cases hset
  obtain ⟨cs', hcs', hu⟩ := isShown_contribution hd none p hp
  obtain ⟨head, children, rfl⟩ := exists_element_of_contribution_shown ⟨ha, hattribute⟩ hd.1 hcs'
  refine ⟨(head, children), root_eq_ok_iff.mpr ⟨_, contributions_singleton.trans hcs', rfl⟩, ?_⟩
  have hu := hu.merge
  rw [hm] at hu
  exact hu

/-- Showing hidden nonterminals only adds wrappers: if there is a result without, there is one with wrappers. Without
the tags of these, so that what is in a wrapper takes its place, and with the texts joined that come to stand next to
each other, its events are the same and make the same elements, attributes and texts. The namespaces, which follow from
what the root declares, and the attribute for states are left aside. -/
theorem unwrapped_result (o : Options) (version ns : Option String) (undecided chosen : Bool)
    (ha : a.mark ≠ '+') (hd : (derived a ds).KeepsEmpty) {es : List Event}
    (h : (Work.perform (do Draft.follow (derived a ds).events; Draft.finish undecided chosen)
      { options := o.showing false, version, defaultNamespace := ns : Draft }).1 = .ok es) :
    ∃ es', (Work.perform (do Draft.follow (derived a ds).events; Draft.finish undecided chosen)
        { options := o.showing true, version, defaultNamespace := ns : Draft }).1 = .ok es' ∧
      joined ((es'.filter (!isWrapperTag ·)).filterMap core?) = es.filterMap core? := by
  have hevents : (derived a ds).events = eventsAll [derived a ds] := by rw [eventsAll, eventsAll, List.append_nil]
  rw [hevents, Draft.verdict_follow_finish _ rfl rfl] at h ⊢
  cases hr : root (o.showing false) [derived a ds] with
  | error e => rw [hr] at h; cases h
  | ok r =>
    obtain ⟨r', hr', hu⟩ := root_shown ha hd hr
    rw [hr] at h
    cases h
    rw [hr']
    refine ⟨_, rfl, ?_⟩
    have hbare : (Content.element r.1 r.2).hasWrapper = false := by
      simpa [Content.anyWrapper] using hu.bare
    have hneat : Content.NeatAfter false [.element r.1 r.2] := ⟨rfl, neat_root hr, trivial⟩
    have hends : ∀ e, [Event.endDocument].head? = some e → e.isCharacters = false := fun e he => by cases he; rfl
    rw [Draft.core_filter_document _ _ hu.named.1, Draft.core_document _ _ hbare, ← Content.plainAll_singleton,
      ← Content.plainAll_singleton, ← Content.foldr_joinOne_plainAll hneat hu.bare hends]
    calc joined (.startDocument :: (Content.plainAll [.element r'.1 r'.2] ++ [.endDocument]))
        = .startDocument :: (Content.plainAll [.element r'.1 r'.2]).foldr joinOne [.endDocument] := by
          rw [joined, List.foldr_cons, List.foldr_append, Xml.Event.joinOne_of_isCharacters_eq_false rfl]
          rfl
      _ = .startDocument :: (Content.plainAll [.element r.1 r.2]).foldr joinOne [.endDocument] := by
          rw [Xml.Event.foldr_congr hu.joined_eq]

/-- A nonterminal with a mark. -/
def marked (mark name : String) : Attributes :=
  ⟨[(Attributes.markKey, mark), (Attributes.nameKey, name)]⟩

/-- An element below a hidden root, with a hidden nonterminal in it that has an attribute between texts. -/
def hiddenParts : List Derivation :=
  [.derived (marked "^" "e") [.matched 'x' {}, .derived (marked "-" "h") [.matched 'y' {},
    .derived (marked "@" "k") [.matched 'v' {}]], .matched 'z' {}]]

/-- The result of `hiddenParts` without wrappers. -/
def hiddenEvents : List Event :=
  [.startDocument, .startElement "" "e" "e" [.plain "k" "v"], .characters "xyz", .endElement "" "e" "e", .endDocument]

/-- With wrappers, the root is one, the text of the element is in three parts, and its attribute comes from below the
wrapper in it. -/
theorem unwrapped_result_hiddenParts : (marked "-" "s").mark ≠ '+' ∧ (derived (marked "-" "s") hiddenParts).KeepsEmpty ∧
    (Work.perform (do Draft.follow (derived (marked "-" "s") hiddenParts).events; Draft.finish false false)
      { options := Options.showing {} false : Draft }).1 = .ok hiddenEvents ∧
    ∃ es', (Work.perform (do Draft.follow (derived (marked "-" "s") hiddenParts).events; Draft.finish false false)
        { options := Options.showing {} true : Draft }).1 = .ok es' ∧
      joined ((es'.filter (!isWrapperTag ·)).filterMap core?) = hiddenEvents.filterMap core? := by
  have hmark : (marked "-" "s").mark ≠ '+' := by decide
  have hkeeps : (derived (marked "-" "s") hiddenParts).KeepsEmpty := by
    simp only [hiddenParts, KeepsEmpty, AllKeepEmpty, and_true, true_and]
    exact ⟨rfl, rfl, rfl, rfl⟩
  have hes : (Work.perform (do Draft.follow (derived (marked "-" "s") hiddenParts).events; Draft.finish false false)
      { options := Options.showing {} false : Draft }).1 = .ok hiddenEvents := rfl
  exact ⟨hmark, hkeeps, hes, unwrapped_result {} none none false false hmark hkeeps hes⟩

end Derivation

end Ixml
