import Ixml.Proofs.Xml.Text
import Ixml.Xml.Node

/-!
# Well-formed elements

`IsElement` is the production `element` of XML 1.0 together with its constraints on names and attributes, for texts
without comments, processing instructions and CDATA sections. A node is written as such a text if its names are
names, no tag in it has two attributes of one name, and it holds nothing but characters of XML
(`Node.IsSound.isElement`). A start tag can be read in one way only (`attributesText_inj`), so that an element shows
whether the names of its attributes are different (`IsElement.nodup`).
-/

namespace Ixml.Xml

/-- The production `Reference`: an entity that needs no declaration, or the code of a character. -/
inductive IsReference : String → Prop
  | entity (name : String) (h : name ∈ ["amp", "lt", "gt", "apos", "quot"]) : IsReference ("&" ++ name ++ ";")
  | code {c : Char} (h : isChar c = true) : IsReference ("&#" ++ toString c.toNat ++ ";")

/-- Characters other than those that are reserved, and references. -/
inductive IsRun (reserved : List Char) : String → Prop
  | nil : IsRun reserved ""
  | char {c : Char} {s : String} (hc : isChar c = true) (hr : c ∉ reserved) (hs : IsRun reserved s) :
    IsRun reserved (String.singleton c ++ s)
  | reference {r s : String} (hr : IsReference r) (hs : IsRun reserved s) : IsRun reserved (r ++ s)

/-- What only a reference can stand for in character data; the closing bracket is among it because of `]]>`. -/
def textReserved : List Char :=
  ['&', '<', '>']

/-- What only a reference can stand for in an attribute value between double quotes. -/
def valueReserved : List Char :=
  ['&', '<', '"']

/-- The production `Attribute`, for a name and a value as it is written. -/
def IsAttribute (a : String × String) : Prop :=
  isName a.1 = true ∧ IsRun valueReserved a.2

/-- The attributes of a tag, with values as they are written. -/
def attributesText (as : List (String × String)) : String :=
  String.join (as.map fun a => " " ++ a.1 ++ "=\"" ++ a.2 ++ "\"")

mutual

/-- The production `element`: its tags have the same name, and no name of an attribute occurs twice. -/
inductive IsElement : String → Prop
  | empty {name : String} {as : List (String × String)} (hn : isName name = true) (has : ∀ a ∈ as, IsAttribute a)
    (hu : (as.map Prod.fst).Nodup) : IsElement ("<" ++ name ++ attributesText as ++ "/>")
  | filled {name content : String} {as : List (String × String)} (hn : isName name = true)
    (has : ∀ a ∈ as, IsAttribute a) (hu : (as.map Prod.fst).Nodup) (hc : IsContent content) :
    IsElement ("<" ++ name ++ attributesText as ++ (">" ++ content ++ "</" ++ name ++ ">"))

/-- The production `content`: runs of text with elements between them. -/
inductive IsContent : String → Prop
  | run {s : String} (hs : IsRun textReserved s) : IsContent s
  | element {s e t : String} (hs : IsRun textReserved s) (he : IsElement e) (ht : IsContent t) : IsContent (s ++ e ++ t)

end

variable {s t name : String} {c : Char} {reserved : List Char} {as bs : List (String × String)}

/-! ### Escaping -/

namespace IsRun

theorem append (hs : IsRun reserved s) (ht : IsRun reserved t) : IsRun reserved (s ++ t) := by
  induction hs with
  | nil => rwa [String.empty_append]
  | char hc hr _ ih => rw [String.append_assoc]; exact .char hc hr ih
  | reference hr _ ih => rw [String.append_assoc]; exact .reference hr ih

theorem join {ss : List String} (h : ∀ s ∈ ss, IsRun reserved s) : IsRun reserved (String.join ss) := by
  induction ss with
  | nil => exact .nil
  | cons s ss ih =>
    rw [List.forall_mem_cons] at h
    rw [String.join_cons]
    exact h.1.append (ih h.2)

theorem singleton (hc : isChar c = true) (hr : c ∉ reserved) : IsRun reserved (String.singleton c) := by
  simpa using IsRun.char hc hr .nil

theorem of_reference (h : IsReference s) : IsRun reserved s := by
  simpa using (IsRun.reference h .nil : IsRun reserved (s ++ ""))

end IsRun

theorem isRun_escapeTextChar (h : isChar c = true) : IsRun textReserved (escapeTextChar c) := by
  unfold escapeTextChar
  split
  · exact .of_reference (.entity "amp" (by decide))
  · exact .of_reference (.entity "lt" (by decide))
  · exact .of_reference (.entity "gt" (by decide))
  · exact .singleton h (by simp_all [textReserved])

theorem isRun_escapeAttributeChar (h : isChar c = true) : IsRun valueReserved (escapeAttributeChar c) := by
  unfold escapeAttributeChar
  split
  · exact .of_reference (.entity "amp" (by decide))
  · exact .of_reference (.entity "lt" (by decide))
  · exact .of_reference (.entity "quot" (by decide))
  · exact .of_reference (.code (c := '\t') (by decide))
  · exact .of_reference (.code (c := '\n') (by decide))
  · exact .of_reference (.code (c := '\r') (by decide))
  · exact .singleton h (by simp_all [valueReserved])

theorem isRun_escapeText (h : IsText s) : IsRun textReserved (escapeText s) := by
  refine .join fun p hp => ?_
  obtain ⟨c, hc, rfl⟩ := List.mem_map.mp hp
  exact isRun_escapeTextChar (h c hc)

theorem isRun_escapeAttribute (h : IsText s) : IsRun valueReserved (escapeAttribute s) := by
  refine .join fun p hp => ?_
  obtain ⟨c, hc, rfl⟩ := List.mem_map.mp hp
  exact isRun_escapeAttributeChar (h c hc)

theorem isText_of_escapeAttribute (h : IsText (escapeAttribute s)) : IsText s := by
  intro c hc
  have hc := isText_join.mp h _ (List.mem_map_of_mem hc)
  unfold escapeAttributeChar at hc
  split at hc
  all_goals first | decide | simpa using hc

theorem quote_notMem_escapeAttribute (s : String) : '"' ∉ (escapeAttribute s).toList := by
  rw [escapeAttribute, String.toList_join, List.mem_flatMap]
  rintro ⟨p, hp, hq⟩
  obtain ⟨c, -, rfl⟩ := List.mem_map.mp hp
  unfold escapeAttributeChar at hq
  split at hq
  all_goals first | exact absurd hq (by decide) | simp_all [eq_comm]

/-! ### The characters of an element -/

theorem IsReference.isText (h : IsReference s) : IsText s := by
  cases h with
  | @entity n h =>
    have hn : IsText n := (by decide : ∀ n ∈ ["amp", "lt", "gt", "apos", "quot"], IsText n) n h
    exact isText_append.mpr ⟨isText_append.mpr ⟨by decide, hn⟩, by decide⟩
  | @code c h => exact isText_append.mpr ⟨isText_append.mpr ⟨by decide, isText_repr c.toNat⟩, by decide⟩

theorem IsRun.isText (h : IsRun reserved s) : IsText s := by
  induction h with
  | nil => exact isText_empty
  | char hc _ _ ih => exact isText_append.mpr ⟨isText_singleton.mpr hc, ih⟩
  | reference hr _ ih => exact isText_append.mpr ⟨hr.isText, ih⟩

theorem isText_attributesText (h : ∀ a ∈ as, IsAttribute a) : IsText (attributesText as) := by
  refine isText_join.mpr fun s hs => ?_
  obtain ⟨a, ha, rfl⟩ := List.mem_map.mp hs
  have hn := isText_of_isName (h a ha).1
  have hv := (h a ha).2.isText
  have hl : IsText " " ∧ IsText "=\"" ∧ IsText "\"" := by decide
  simp only [isText_append]
  tauto

theorem isText_tag (hn : isName name = true) (has : ∀ a ∈ as, IsAttribute a) :
    IsText ("<" ++ name ++ attributesText as) :=
  isText_append.mpr ⟨isText_append.mpr ⟨by decide, isText_of_isName hn⟩, isText_attributesText has⟩

mutual

/-- Every character of an element may stand in a document. -/
theorem isText_of_isElement {s : String} (h : IsElement s) : IsText s :=
  match h with
  | .empty hn has _ => isText_append.mpr ⟨isText_tag hn has, by decide⟩
  | .filled hn has _ hc => by
    have hc := isText_of_isContent hc
    have hl : IsText ">" ∧ IsText "</" := by decide
    have hn' := isText_of_isName hn
    refine isText_append.mpr ⟨isText_tag hn has, ?_⟩
    simp only [isText_append]
    exact ⟨⟨⟨⟨hl.1, hc⟩, hl.2⟩, hn'⟩, hl.1⟩

theorem isText_of_isContent {s : String} (h : IsContent s) : IsText s :=
  match h with
  | .run hs => hs.isText
  | .element hs he ht =>
    isText_append.mpr ⟨isText_append.mpr ⟨hs.isText, isText_of_isElement he⟩, isText_of_isContent ht⟩

end

/-! ### Reading a start tag -/

/-- What follows the attributes of a start tag. -/
def EndsTag (cs : List Char) : Prop :=
  cs.head? = some '>' ∨ cs.head? = some '/'

/-- A name and a value between double quotes. -/
def IsQuotable (a : String × String) : Prop :=
  isName a.1 = true ∧ '"' ∉ a.2.toList

theorem quote_notMem_of_isReference (h : IsReference s) : '"' ∉ s.toList := by
  cases h with
  | @entity n h =>
    have hn : '"' ∉ n.toList := (by decide : ∀ n ∈ ["amp", "lt", "gt", "apos", "quot"], '"' ∉ n.toList) n h
    simpa using hn
  | @code c h =>
    have hd : '"' ∉ (toString c.toNat).toList := fun hd =>
      absurd (Nat.isDigit_of_mem_toDigits (by decide) (by decide) (Nat.toList_repr (n := c.toNat) ▸ hd)) (by decide)
    simpa using hd

theorem quote_notMem_of_isRun (h : IsRun valueReserved s) : '"' ∉ s.toList := by
  induction h with
  | nil => simp
  | char hc hr _ ih =>
    rw [String.toList_append, String.toList_singleton, List.singleton_append, List.mem_cons, not_or]
    exact ⟨fun he => hr (by simp [valueReserved, ← he]), ih⟩
  | reference hr _ ih =>
    rw [String.toList_append, List.mem_append, not_or]
    exact ⟨quote_notMem_of_isReference hr, ih⟩

theorem IsAttribute.isQuotable {a : String × String} (h : IsAttribute a) : IsQuotable a :=
  ⟨h.1, quote_notMem_of_isRun h.2⟩

/-- Where a run ends of what satisfies `p` is determined if what follows does not go on with it. -/
theorem append_inj_of_forall {α : Type} {p : α → Bool} {xs ys us vs : List α} (hx : ∀ c ∈ xs, p c = true)
    (hy : ∀ c ∈ ys, p c = true) (hu : ∀ c, us.head? = some c → p c = false) (hv : ∀ c, vs.head? = some c → p c = false)
    (h : xs ++ us = ys ++ vs) : xs = ys ∧ us = vs := by
  have hstop {ws : List α} (hw : ∀ c, ws.head? = some c → p c = false) : ws.takeWhile p = [] := by
    cases ws with
    | nil => rfl
    | cons c ws => exact List.takeWhile_cons_of_neg (by simp [hw c rfl])
  have he := congrArg (List.takeWhile p) h
  rw [List.takeWhile_append_of_pos hx, List.takeWhile_append_of_pos hy, hstop hu, hstop hv, List.append_nil,
    List.append_nil] at he
  subst he
  exact ⟨rfl, List.append_cancel_left h⟩

theorem toList_attributesText_cons (a : String × String) (as : List (String × String)) :
    (attributesText (a :: as)).toList =
      ' ' :: (a.1.toList ++ '=' :: '"' :: (a.2.toList ++ '"' :: (attributesText as).toList)) := by
  simp [attributesText]

/-- No character of a name follows a name in a tag. -/
theorem isNameChar_eq_false_of_head? {cs : List Char} (h : EndsTag cs) :
    ∀ c, ((attributesText as).toList ++ cs).head? = some c → isNameChar c = false := by
  intro c hc
  cases as with
  | nil =>
    have hc : cs.head? = some c := by simpa [attributesText] using hc
    rcases h with h | h <;> rw [h, Option.some.injEq] at hc <;> subst hc <;> decide
  | cons a as =>
    rw [toList_attributesText_cons] at hc
    obtain rfl : ' ' = c := by simpa using hc
    decide

/-- The attributes of a tag can be read in one way only. -/
theorem attributesText_inj {us vs : List Char} (has : ∀ a ∈ as, IsQuotable a) (hbs : ∀ b ∈ bs, IsQuotable b)
    (hu : EndsTag us) (hv : EndsTag vs)
    (h : (attributesText as).toList ++ us = (attributesText bs).toList ++ vs) : as = bs := by
  have hspace {ws : List Char} (hw : EndsTag ws) (xs : List Char) : ' ' :: xs ≠ ws := by
    rintro rfl
    rcases hw with hw | hw <;> simp at hw
  induction as generalizing bs with
  | nil =>
    cases bs with
    | nil => rfl
    | cons b bs => exact absurd (by simpa [toList_attributesText_cons, attributesText] using h.symm) (hspace hu _)
  | cons a as ih =>
    cases bs with
    | nil => exact absurd (by simpa [toList_attributesText_cons, attributesText] using h) (hspace hv _)
    | cons b bs =>
      rw [List.forall_mem_cons] at has hbs
      obtain ⟨⟨han, haq⟩, has⟩ := has
      obtain ⟨⟨hbn, hbq⟩, hbs⟩ := hbs
      simp only [toList_attributesText_cons, List.cons_append, List.append_assoc, List.cons.injEq, true_and] at h
      have hstop (xs : List Char) : ∀ c, ('=' :: xs).head? = some c → isNameChar c = false := by
        intro c hc
        obtain rfl : '=' = c := by simpa using hc
        decide
      -- the name ends where the sign does, and the value at its quotes
      obtain ⟨hn, h⟩ := append_inj_of_forall (isNameChar_of_isName han) (isNameChar_of_isName hbn) (hstop _) (hstop _) h
      simp only [List.cons.injEq, true_and] at h
      have hquote {v : String} (hv : '"' ∉ v.toList) : ∀ c ∈ v.toList, (c != '"') = true := fun c hc =>
        bne_iff_ne.mpr fun he => hv (he ▸ hc)
      obtain ⟨hval, h⟩ := append_inj_of_forall (hquote haq) (hquote hbq) (by simp) (by simp) h
      rw [ih has hbs (List.cons.inj h).2, Prod.ext (String.toList_inj.mp hn) (String.toList_inj.mp hval)]

/-- The names in the start tag of an element are different. -/
theorem IsElement.nodup {rest : String} (hn : isName name = true) (has : ∀ a ∈ as, IsQuotable a)
    (hr : EndsTag rest.toList) (h : IsElement ("<" ++ name ++ attributesText as ++ rest)) :
    (as.map Prod.fst).Nodup := by
  generalize hs : "<" ++ name ++ attributesText as ++ rest = s at h
  -- the start of the text is read as the element reads it
  have hread {name' tail : String} {bs : List (String × String)} (hn' : isName name' = true)
      (hbs : ∀ b ∈ bs, IsAttribute b) (ht : EndsTag tail.toList)
      (he : "<" ++ name ++ attributesText as ++ rest = "<" ++ name' ++ attributesText bs ++ tail) : as = bs := by
    have he := congrArg String.toList he
    simp only [String.toList_append, List.append_assoc] at he
    obtain ⟨-, he⟩ := append_inj_of_forall (isNameChar_of_isName hn) (isNameChar_of_isName hn')
      (isNameChar_eq_false_of_head? hr) (isNameChar_eq_false_of_head? ht) (List.append_cancel_left he)
    exact attributesText_inj has (fun b hb => (hbs b hb).isQuotable) hr ht he
  cases h with
  | empty hn' hbs hu => rwa [hread hn' hbs (Or.inr rfl) hs]
  | filled hn' hbs hu hc => rwa [hread hn' hbs (Or.inl (by simp)) hs]

/-! ### Nodes -/

/-- The attributes of a tag as they are written, those that declare prefixes first. -/
def writtenAttributes (declarations attributes : List (String × String)) : List (String × String) :=
  (declarations.map fun d => (declarationName d.1, escapeAttribute d.2)) ++
    attributes.map fun a => (a.1, escapeAttribute a.2)

theorem tagText_eq (name : String) (declarations attributes : List (String × String)) :
    tagText name declarations attributes = "<" ++ name ++ attributesText (writtenAttributes declarations attributes) := by
  rw [tagText, attributesText, writtenAttributes, List.map_append, String.join_append, List.map_map, List.map_map,
    ← String.append_assoc]
  rfl

theorem map_fst_writtenAttributes (declarations attributes : List (String × String)) :
    (writtenAttributes declarations attributes).map Prod.fst =
      declarations.map (fun d => declarationName d.1) ++ attributes.map Prod.fst := by
  simp [writtenAttributes, Function.comp_def]

/-- A tag with names that are names and attributes that hold characters of XML only. -/
structure IsTag (name : String) (declarations attributes : List (String × String)) : Prop where
  name : isName name = true
  declared : ∀ d ∈ declarations, isName (declarationName d.1) = true ∧ IsText d.2
  set : ∀ a ∈ attributes, isName a.1 = true ∧ IsText a.2
  different : (declarations.map (fun d => declarationName d.1) ++ attributes.map Prod.fst).Nodup

theorem IsTag.isAttribute {declarations attributes : List (String × String)} (h : IsTag name declarations attributes) :
    ∀ a ∈ writtenAttributes declarations attributes, IsAttribute a := by
  intro a ha
  rcases List.mem_append.mp ha with ha | ha
  · obtain ⟨d, hd, rfl⟩ := List.mem_map.mp ha
    exact ⟨(h.declared d hd).1, isRun_escapeAttribute (h.declared d hd).2⟩
  · obtain ⟨b, hb, rfl⟩ := List.mem_map.mp ha
    exact ⟨(h.set b hb).1, isRun_escapeAttribute (h.set b hb).2⟩

theorem IsTag.nodup {declarations attributes : List (String × String)} (h : IsTag name declarations attributes) :
    ((writtenAttributes declarations attributes).map Prod.fst).Nodup := by
  rw [map_fst_writtenAttributes]
  exact h.different

theorem IsContent.run_append (hs : IsRun textReserved s) (ht : IsContent t) : IsContent (s ++ t) := by
  cases ht with
  | run ht => exact .run (hs.append ht)
  | element ht he hu => rw [← String.append_assoc, ← String.append_assoc]; exact .element (hs.append ht) he hu

namespace Node

mutual

/-- Every tag in a node is one, and its texts hold characters of XML only. -/
def IsSound : Node → Prop
  | element name _ declarations attributes children => IsTag name declarations attributes ∧ AllSound children
  | text s => IsText s

def AllSound : List Node → Prop
  | [] => True
  | n :: ns => IsSound n ∧ AllSound ns

end

mutual

theorem isContent_render_append {n : Node} {t : String} (h : n.IsSound) (ht : IsContent t) :
    IsContent (n.render ++ t) := by
  cases n with
  | text s => exact .run_append (isRun_escapeText h) ht
  | element name ns ds as children =>
    have he := isElement_render (o := ns) h.1 h.2
    have := IsContent.element .nil he ht
    rwa [String.empty_append] at this

theorem isContent_renderAll {ns : List Node} (h : AllSound ns) : IsContent (renderAll ns) := by
  cases ns with
  | nil => exact .run .nil
  | cons n ns => exact isContent_render_append h.1 (isContent_renderAll h.2)

theorem isElement_render {name : String} {o : Option String} {ds as : List (String × String)} {children : List Node}
    (h : IsTag name ds as) (hc : AllSound children) : IsElement (render (element name o ds as children)) := by
  cases children with
  | nil =>
    rw [render, tagText_eq]
    exact .empty h.name h.isAttribute h.nodup
  | cons n ns =>
    have hn := isContent_render_append hc.1 (isContent_renderAll hc.2)
    have := IsElement.filled h.name h.isAttribute h.nodup hn
    rw [render, tagText_eq]
    simpa only [String.append_assoc] using this

end

theorem render_element (name : String) (ns : Option String) (ds as : List (String × String)) (children : List Node) :
    (element name ns ds as children).render = tagText name ds as ++
      if children.isEmpty then "/>" else ">" ++ renderAll children ++ "</" ++ name ++ ">" := by
  cases children with
  | nil => rfl
  | cons n ns => simp only [render, renderAll, List.isEmpty_cons, Bool.false_eq_true, if_false, String.append_assoc]

/-- Once all names are names, an element shows whether its start tag is as it should be. -/
theorem isElement_render_iff {name : String} {ns : Option String} {ds as : List (String × String)}
    {children : List Node} (hn : isName name = true) (hd : ∀ d ∈ ds, isName (declarationName d.1) = true)
    (ha : ∀ a ∈ as, isName a.1 = true) (hc : AllSound children) :
    IsElement (element name ns ds as children).render ↔ IsTag name ds as := by
  refine ⟨fun h => ?_, fun h => isElement_render h hc⟩
  have htext := isText_of_isElement h
  rw [render_element, tagText_eq] at h htext
  rw [isText_append, isText_append, attributesText, isText_join] at htext
  -- every value is a part of the text
  have hvalue {k v : String} (hmem : (k, v) ∈ writtenAttributes ds as) : IsText v := by
    have := htext.1.2 _ (List.mem_map_of_mem hmem)
    rw [isText_append, isText_append] at this
    exact this.1.2
  have hquotable : ∀ a ∈ writtenAttributes ds as, IsQuotable a := fun a h => by
    rcases List.mem_append.mp h with h | h
    · obtain ⟨d, hd', rfl⟩ := List.mem_map.mp h
      exact ⟨hd d hd', quote_notMem_escapeAttribute _⟩
    · obtain ⟨c, hc', rfl⟩ := List.mem_map.mp h
      exact ⟨ha c hc', quote_notMem_escapeAttribute _⟩
  refine ⟨hn, fun d h => ⟨hd d h, ?_⟩, fun a h => ⟨ha a h, ?_⟩, ?_⟩
  · have hmem : (declarationName d.1, escapeAttribute d.2) ∈ writtenAttributes ds as :=
      List.mem_append_left _ (List.mem_map.mpr ⟨d, h, rfl⟩)
    exact isText_of_escapeAttribute (hvalue hmem)
  · have hmem : (a.1, escapeAttribute a.2) ∈ writtenAttributes ds as :=
      List.mem_append_right _ (List.mem_map.mpr ⟨a, h, rfl⟩)
    exact isText_of_escapeAttribute (hvalue hmem)
  · rw [← map_fst_writtenAttributes]
    refine h.nodup hn hquotable ?_
    split
    · exact Or.inr rfl
    · exact Or.inl (by simp)

end Node

end Ixml.Xml
