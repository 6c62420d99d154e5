import Ixml.Proofs.Xml.WellFormed
import Mathlib.Data.Prod.Basic

/-!
# Reading a tree off its text

The text of a node determines the node but for the namespace of its elements (`Node.withoutNs_eq_of_render_eq`), as long
as names are names, no attribute looks like a declaration, and texts are neither empty nor next to each other. A tag
ends where its name, its signs and its quotes do, a text ends at the next tag, and escaping can be undone
(`escapeText_injective`, `escapeAttribute_injective`), so that no two nodes share the beginning of a text
(`Node.render_append_inj`).
-/

namespace Ixml.Xml

variable {s t name name' : String} {c d : Char} {us vs : List Char} {ds es as bs : List (String × String)}

/-! ### Escaping -/

/-- A text that is made of codes for characters can be read back if no code is the beginning of another. -/
theorem join_map_injective {f : Char → String} (hf : ∀ c, f c ≠ "")
    (hinj : ∀ c d us vs, (f c).toList ++ us = (f d).toList ++ vs → c = d ∧ us = vs) :
    Function.Injective fun s : String => String.join (s.toList.map f) := by
  intro s t h
  have h := congrArg String.toList h
  simp only [String.toList_join, List.flatMap_map] at h
  have hlists : ∀ xs ys : List Char,
      (xs.flatMap fun c => (f c).toList) = (ys.flatMap fun c => (f c).toList) → xs = ys := by
    intro xs
    induction xs with
    | nil =>
      rintro (_ | ⟨d, ys⟩) h
      · rfl
      · simp [hf] at h
    | cons c xs ih =>
      rintro (_ | ⟨d, ys⟩) h
      · simp [hf] at h
      · rw [List.flatMap_cons, List.flatMap_cons] at h
        obtain ⟨rfl, hrest⟩ := hinj c d _ _ h
        rw [ih ys hrest]
  exact String.toList_inj.mp (hlists _ _ h)

theorem escapeTextChar_append_inj (c d : Char) (us vs : List Char)
    (h : (escapeTextChar c).toList ++ us = (escapeTextChar d).toList ++ vs) : c = d ∧ us = vs := by
  unfold escapeTextChar at h
  split at h <;> split at h <;> simp at h <;> grind

theorem escapeAttributeChar_append_inj (c d : Char) (us vs : List Char)
    (h : (escapeAttributeChar c).toList ++ us = (escapeAttributeChar d).toList ++ vs) : c = d ∧ us = vs := by
  unfold escapeAttributeChar at h
  split at h <;> split at h <;> simp at h <;> grind

theorem escapeTextChar_ne_empty (c : Char) : escapeTextChar c ≠ "" := by
  unfold escapeTextChar
  split <;> simp

theorem escapeAttributeChar_ne_empty (c : Char) : escapeAttributeChar c ≠ "" := by
  unfold escapeAttributeChar
  split <;> simp

theorem escapeText_injective : Function.Injective escapeText :=
  join_map_injective escapeTextChar_ne_empty escapeTextChar_append_inj

theorem escapeAttribute_injective : Function.Injective escapeAttribute :=
  join_map_injective escapeAttributeChar_ne_empty escapeAttributeChar_append_inj

theorem angle_notMem_escapeText (s : String) : '<' ∉ (escapeText s).toList := by
  rw [escapeText, String.toList_join, List.mem_flatMap]
  rintro ⟨p, hp, hq⟩
  obtain ⟨c, -, rfl⟩ := List.mem_map.mp hp
  unfold escapeTextChar at hq
  split at hq
  all_goals first | exact absurd hq (by decide) | simp_all [eq_comm]

/-! ### Tags -/

/-- The names that declare a prefix. -/
def declaresPrefix (name : String) : Bool :=
  name == "xmlns" || "xmlns:".toList.isPrefixOf name.toList

theorem declaresPrefix_declarationName (p : String) : declaresPrefix (declarationName p) = true := by
  unfold declarationName
  split
  · decide
  · simp [declaresPrefix]

theorem declarationName_injective : Function.Injective declarationName := by
  intro p q h
  unfold declarationName at h
  split at h
  · next hp =>
    split at h
    · next hq => rw [String.isEmpty_iff.mp hp, String.isEmpty_iff.mp hq]
    · exact absurd (congrArg String.toList h) (by simp)
  · split at h
    · exact absurd (congrArg String.toList h) (by simp)
    · have h := congrArg String.toList h
      rw [String.toList_append, String.toList_append] at h
      exact String.toList_inj.mp (List.append_cancel_left h)

/-- The parts of a tag can be told from each other: names are names, no prefix has a colon in it, and no attribute
declares a prefix. -/
structure IsReadableTag (name : String) (declarations attributes : List (String × String)) : Prop where
  name : isName name = true
  declared : ∀ d ∈ declarations, d.1 = "" ∨ isName d.1 = true ∧ ':' ∉ d.1.toList
  set : ∀ a ∈ attributes, isName a.1 = true ∧ declaresPrefix a.1 = false

theorem isName_declarationName {p : String} (h : p = "" ∨ isName p = true) : isName (declarationName p) = true := by
  unfold declarationName
  split
  · decide
  · next hp =>
    have hp : isName p = true := h.resolve_left fun he => hp (by rw [he]; rfl)
    have hchars : ∀ c ∈ p.toList, isNameChar c = true := isNameChar_of_isName hp
    have hstart : isNameStart 'x' = true := by decide
    have hletters : ∀ c ∈ ['m', 'l', 'n', 's', ':'], isNameChar c = true := List.all_eq_true.mp (by decide)
    have htext : ("xmlns:" ++ p).toList = 'x' :: (['m', 'l', 'n', 's', ':'] ++ p.toList) := by simp
    rw [isName, htext]
    simp only [hstart, Bool.true_and, List.all_eq_true]
    exact List.forall_mem_append.mpr ⟨hletters, hchars⟩

theorem IsReadableTag.isQuotable (h : IsReadableTag name ds as) : ∀ a ∈ writtenAttributes ds as, IsQuotable a := by
  intro a ha
  rcases List.mem_append.mp ha with ha | ha
  · obtain ⟨d, hd, rfl⟩ := List.mem_map.mp ha
    exact ⟨isName_declarationName ((h.declared d hd).imp_right And.left), quote_notMem_escapeAttribute _⟩
  · obtain ⟨b, hb, rfl⟩ := List.mem_map.mp ha
    exact ⟨(h.set b hb).1, quote_notMem_escapeAttribute _⟩

/-- Declarations can be told from attributes. -/
theorem writtenAttributes_inj (has : ∀ a ∈ as, declaresPrefix a.1 = false) (hbs : ∀ b ∈ bs, declaresPrefix b.1 = false)
    (h : writtenAttributes ds as = writtenAttributes es bs) : ds = es ∧ as = bs := by
  have hdeclared (ds : List (String × String)) :
      ∀ d ∈ ds.map fun d => (declarationName d.1, escapeAttribute d.2), declaresPrefix d.1 = true := by
    intro d hd
    obtain ⟨d, -, rfl⟩ := List.mem_map.mp hd
    exact declaresPrefix_declarationName d.1
  have hset {as : List (String × String)} (has : ∀ a ∈ as, declaresPrefix a.1 = false) :
      ∀ a, (as.map fun a => (a.1, escapeAttribute a.2)).head? = some a → declaresPrefix a.1 = false := by
    intro a ha
    obtain ⟨b, hb, rfl⟩ := List.mem_map.mp (List.mem_of_mem_head? ha)
    exact has b hb
  obtain ⟨hds, has⟩ := append_inj_of_forall (p := fun a : String × String => declaresPrefix a.1) (hdeclared ds)
    (hdeclared es) (hset has) (hset hbs) h
  have hdinj : Function.Injective fun d : String × String => (declarationName d.1, escapeAttribute d.2) :=
    declarationName_injective.prodMap escapeAttribute_injective
  have hainj : Function.Injective fun a : String × String => (a.1, escapeAttribute a.2) :=
    Function.injective_id.prodMap escapeAttribute_injective
  exact ⟨List.map_injective_iff.mpr hdinj hds, List.map_injective_iff.mpr hainj has⟩

/-- A tag ends where it says. -/
theorem tagText_append_inj (h : IsReadableTag name ds as) (h' : IsReadableTag name' es bs) (hus : EndsTag us)
    (hvs : EndsTag vs) (he : (tagText name ds as).toList ++ us = (tagText name' es bs).toList ++ vs) :
    name = name' ∧ ds = es ∧ as = bs ∧ us = vs := by
  rw [tagText_eq, tagText_eq] at he
  simp only [String.toList_append, List.append_assoc] at he
  obtain ⟨hname, he⟩ := append_inj_of_forall (isNameChar_of_isName h.name) (isNameChar_of_isName h'.name)
    (isNameChar_eq_false_of_head? hus) (isNameChar_eq_false_of_head? hvs) (List.append_cancel_left he)
  have hwritten := attributesText_inj h.isQuotable h'.isQuotable hus hvs he
  rw [hwritten] at he
  obtain ⟨hds, has⟩ := writtenAttributes_inj (fun a ha => (h.set a ha).2) (fun b hb => (h'.set b hb).2) hwritten
  exact ⟨String.toList_inj.mp hname, hds, has, List.append_cancel_left he⟩

namespace Node

/-! ### Nodes -/

mutual

/-- A node without the namespaces of the elements in it. -/
def withoutNs : Node → Node
  | element name _ declarations attributes children =>
    element name none declarations attributes (allWithoutNs children)
  | text s => text s

def allWithoutNs : List Node → List Node
  | [] => []
  | n :: ns => withoutNs n :: allWithoutNs ns

end

def isText : Node → Bool
  | element .. => false
  | text _ => true

/-- No text follows a text. -/
def Apart (ns : List Node) : Prop :=
  ns.IsChain fun n m => ¬(n.isText = true ∧ m.isText = true)

mutual

/-- The tags in a node can be read, no text in it is empty, and no text follows another. -/
def IsReadable : Node → Prop
  | element name _ declarations attributes children =>
    IsReadableTag name declarations attributes ∧ Apart children ∧ AllReadable children
  | text s => s ≠ ""

def AllReadable : List Node → Prop
  | [] => True
  | n :: ns => IsReadable n ∧ AllReadable ns

end

/-- What may follow a text: an end, or a tag. -/
def EndsText (us : List Char) : Prop :=
  ∀ c, us.head? = some c → c = '<'

/-- What may follow the contents of an element: an end, or an end tag. -/
def EndsContent (us : List Char) : Prop :=
  us = [] ∨ ∃ vs, us = '<' :: '/' :: vs

variable {n m : Node} {ns ms : List Node} {o : Option String} {children : List Node}

theorem Apart.tail (h : Apart (n :: ns)) : Apart ns := by
  cases ns with
  | nil => exact .nil
  | cons m ms => exact (List.isChain_cons_cons.mp h).2

theorem EndsContent.endsText (h : EndsContent us) : EndsText us := by
  rintro c hc
  obtain rfl | ⟨vs, rfl⟩ := h
  · cases hc
  · exact (Option.some.inj hc).symm

/-- What follows the start tag of an element. -/
def afterTag (name : String) (children : List Node) : String :=
  if children.isEmpty then "/>" else ">" ++ renderAll children ++ "</" ++ name ++ ">"

theorem render_element_eq : (element name o ds as children).render = tagText name ds as ++ afterTag name children :=
  render_element name o ds as children

theorem endsTag_afterTag (name : String) (children : List Node) (us : List Char) :
    EndsTag ((afterTag name children).toList ++ us) := by
  unfold afterTag
  split
  · exact Or.inr rfl
  · exact Or.inl (by simp)

/-- An element begins with a tag, whose name begins like a name. -/
theorem exists_render_element (h : isName name = true) (o : Option String) (ds as : List (String × String))
    (children : List Node) :
    ∃ c cs, (element name o ds as children).render.toList = '<' :: c :: cs ∧ isNameChar c = true := by
  obtain ⟨c, cs, hname, hcs⟩ := exists_of_isName h
  rw [render_element_eq, tagText_eq]
  simp only [String.toList_append, hname]
  exact ⟨c, _, rfl, hcs c (List.mem_cons_self ..)⟩

theorem exists_render_text (h : s ≠ "") : ∃ c cs, (text s).render.toList = c :: cs ∧ c ≠ '<' := by
  have hne : (escapeText s).toList ≠ [] := fun he => h (escapeText_injective (String.toList_inj.mp he))
  obtain ⟨c, cs, hcs⟩ := List.exists_cons_of_ne_nil hne
  refine ⟨c, cs, hcs, fun hc => angle_notMem_escapeText s ?_⟩
  rw [hcs, hc]
  exact List.mem_cons_self ..

/-- A node does not begin like the end of an element. -/
theorem render_append_ne (hn : n.IsReadable) (hus : EndsContent us) (vs : List Char) : n.render.toList ++ vs ≠ us := by
  rintro rfl
  cases n with
  | element name o ds as children =>
    obtain ⟨c, cs, hcs, hc⟩ := exists_render_element hn.1.name o ds as children
    rw [hcs] at hus
    obtain h | ⟨vs', h⟩ := hus
    · cases h
    · simp only [List.cons_append, List.cons.injEq, true_and] at h
      rw [h.1] at hc
      exact absurd hc (by decide)
  | text s =>
    obtain ⟨c, cs, hcs, hc⟩ := exists_render_text hn
    rw [hcs] at hus
    obtain h | ⟨vs', h⟩ := hus
    · cases h
    · exact hc (List.cons.inj h).1

/-- A text ends where what follows it begins. -/
theorem endsText_renderAll (hn : n.isText = true) (hns : AllReadable ns)
    (hapart : Apart (n :: ns)) (hus : EndsContent us) : EndsText ((renderAll ns).toList ++ us) := by
  cases ns with
  | nil => simpa [renderAll] using hus.endsText
  | cons m ms =>
    cases m with
    | text t => exact absurd ⟨hn, rfl⟩ (List.isChain_cons_cons.mp hapart).1
    | element name o ds as children =>
      obtain ⟨c, cs, hcs, -⟩ :=
        exists_render_element hns.1.1.name o ds as children
      intro c' hc'
      rw [renderAll, String.toList_append, hcs] at hc'
      exact (Option.some.inj hc').symm

/-- Contents that can be told from each other can be told from each other between the tags of an element. -/
theorem afterTag_append_inj {name : String} {ns ms : List Node} {us vs : List Char}
    (hi : ∀ us vs, EndsContent us → EndsContent vs → (renderAll ns).toList ++ us = (renderAll ms).toList ++ vs →
      allWithoutNs ns = allWithoutNs ms ∧ us = vs)
    (h : (afterTag name ns).toList ++ us = (afterTag name ms).toList ++ vs) :
    allWithoutNs ns = allWithoutNs ms ∧ us = vs := by
  unfold afterTag at h
  cases ns with
  | nil =>
    cases ms with
    | nil => exact ⟨rfl, List.append_cancel_left h⟩
    | cons m ms => simp at h
  | cons n ns =>
    cases ms with
    | nil => simp at h
    | cons m ms =>
      have hends (us : List Char) : EndsContent ("</".toList ++ (name.toList ++ (">".toList ++ us))) :=
        Or.inr ⟨name.toList ++ (">".toList ++ us), by simp⟩
      simp only [List.isEmpty_cons, Bool.false_eq_true, if_false, String.toList_append, List.append_assoc] at h
      obtain ⟨hchildren, h⟩ := hi _ _ (hends us) (hends vs) (List.append_cancel_left h)
      exact ⟨hchildren, List.append_cancel_left (List.append_cancel_left (List.append_cancel_left h))⟩

mutual

/-- No two nodes have texts of which one is the beginning of the other. -/
theorem render_append_inj {n m : Node} {us vs : List Char} (hn : n.IsReadable) (hm : m.IsReadable)
    (hus : n.isText = true → EndsText us) (hvs : m.isText = true → EndsText vs)
    (h : n.render.toList ++ us = m.render.toList ++ vs) : n.withoutNs = m.withoutNs ∧ us = vs := by
  have hfirst {s name : String} {o : Option String} {ds as : List (String × String)} {children : List Node}
      {us vs : List Char} (hs : s ≠ "") (hname : isName name = true) :
      (text s).render.toList ++ us ≠ (element name o ds as children).render.toList ++ vs := by
    obtain ⟨c, cs, hcs, hc⟩ := exists_render_text hs
    obtain ⟨c', cs', hcs', -⟩ := exists_render_element hname o ds as children
    rw [hcs, hcs']
    exact fun he => hc (List.cons.inj he).1
  cases n with
  | text s =>
    cases m with
    | text t =>
      have hangle (s : String) : ∀ c ∈ (escapeText s).toList, (c != '<') = true := fun c hc =>
        bne_iff_ne.mpr fun he => angle_notMem_escapeText s (he ▸ hc)
      obtain ⟨htext, h⟩ := append_inj_of_forall (hangle s) (hangle t) (fun c hc => by simp [hus rfl c hc])
        (fun c hc => by simp [hvs rfl c hc]) h
      rw [withoutNs, withoutNs, escapeText_injective (String.toList_inj.mp htext)]
      exact ⟨rfl, h⟩
    | element name' o' es bs children' => exact absurd h (hfirst hn hm.1.name)
  | element name o ds as children =>
    cases m with
    | text t => exact absurd h.symm (hfirst hm hn.1.name)
    | element name' o' es bs children' =>
      rw [IsReadable] at hn hm
      obtain ⟨htag, hapart, hns⟩ := hn
      obtain ⟨htag', hapart', hms⟩ := hm
      rw [render_element_eq, render_element_eq] at h
      simp only [String.toList_append, List.append_assoc] at h
      obtain ⟨rfl, rfl, rfl, hrest⟩ := tagText_append_inj htag htag' (endsTag_afterTag name children us)
        (endsTag_afterTag name' children' vs) h
      obtain ⟨hchildren, hrest⟩ := afterTag_append_inj
        (fun us vs hus hvs => renderAll_append_inj hns hms hapart hapart' hus hvs) hrest
      rw [withoutNs, withoutNs, hchildren]
      exact ⟨rfl, hrest⟩

theorem renderAll_append_inj {ns ms : List Node} {us vs : List Char} (hns : AllReadable ns) (hms : AllReadable ms)
    (hn : Apart ns) (hm : Apart ms) (hus : EndsContent us) (hvs : EndsContent vs)
    (h : (renderAll ns).toList ++ us = (renderAll ms).toList ++ vs) : allWithoutNs ns = allWithoutNs ms ∧ us = vs := by
  cases ns with
  | nil =>
    cases ms with
    | nil => exact ⟨rfl, by simpa [renderAll] using h⟩
    | cons m ms =>
      rw [renderAll, renderAll, String.toList_append, List.append_assoc] at h
      exact absurd h.symm (by simpa using render_append_ne hms.1 hus _)
  | cons n ns =>
    cases ms with
    | nil =>
      rw [renderAll, renderAll, String.toList_append, List.append_assoc] at h
      exact absurd h (by simpa using render_append_ne hns.1 hvs _)
    | cons m ms =>
      simp only [renderAll, String.toList_append, List.append_assoc] at h
      obtain ⟨hfirst, h⟩ := render_append_inj hns.1 hms.1 (fun ht => endsText_renderAll ht hns.2 hn hus)
        (fun ht => endsText_renderAll ht hms.2 hm hvs) h
      obtain ⟨hrest, h⟩ := renderAll_append_inj hns.2 hms.2 hn.tail hm.tail hus hvs h
      rw [allWithoutNs, allWithoutNs, hfirst, hrest]
      exact ⟨rfl, h⟩

end

/-- Nodes with the same text are the same, but for the namespaces of their elements. -/
theorem withoutNs_eq_of_render_eq {n m : Node} (hn : n.IsReadable) (hm : m.IsReadable) (h : n.render = m.render) :
    n.withoutNs = m.withoutNs := by
  have hends : EndsText [] := fun c hc => by cases hc
  exact (render_append_inj hn hm (fun _ => hends) (fun _ => hends) (by rw [h])).1

/-- Texts and values that look like tags, quotes and references, written in another namespace. -/
theorem withoutNs_eq_of_render_eq_markup :
    let tree (o : Option String) : Node :=
      .element "a:b" o [("", "urn:\""), ("p", "")] [("k", "&quot;"), ("l", "\" m=\"")]
        [.text "</a:b>", .element "c" o [] [] [], .text "&lt;"]
    (tree none).IsReadable ∧ (tree (some "urn:\"")).IsReadable ∧
      (tree none).render = (tree (some "urn:\"")).render ∧
      (tree none).withoutNs = (tree (some "urn:\"")).withoutNs := by
  intro tree
  have hreadable (o : Option String) : (tree o).IsReadable :=
    ⟨⟨by decide, by decide, by decide⟩, by simp [Apart, isText], by simp [IsReadable],
      ⟨⟨by decide, by simp, by simp⟩, .nil, trivial⟩, by simp [IsReadable], trivial⟩
  have hrender : (tree none).render = (tree (some "urn:\"")).render := rfl
  exact ⟨hreadable _, hreadable _, hrender, withoutNs_eq_of_render_eq (hreadable _) (hreadable _) hrender⟩

end Node

end Ixml.Xml
