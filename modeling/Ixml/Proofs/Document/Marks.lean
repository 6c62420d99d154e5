import Ixml.Document.Draft

/-!
# Results by recursion

What a derivation gives by its marks, said by recursion over the derivation. `Derivation.contribution` is what a
part gives to the element around it: contents, and attributes, which are set on the head of that element.
`Derivation.result` is the document that is left in the end. `Draft` makes the same from events; see
`Ixml.Proofs.Document.Drafting`.
-/

namespace Ixml

/-- A derivation: the character that a terminal has matched, or a nonterminal with what it derives. -/
inductive Derivation
  | matched (c : Char) (attributes : Attributes)
  | derived (attributes : Attributes) (parts : List Derivation)
deriving Inhabited

namespace Content

/-- Join the texts that come one after the other. -/
def merge : List Content → List Content
  | [] => []
  | c :: cs =>
    match c, merge cs with
    | text s, text t :: ds => text (s ++ t) :: ds
    | c, ds => c :: ds

/-- A text as contents; nothing if it is empty. -/
def ofText (s : String) : List Content :=
  if s.isEmpty then [] else [text s]

end Content

namespace Options

/-- Refuse a text with a character that may not stand in a document, if characters are checked. -/
def checkText (o : Options) (s : String) : Except Error String :=
  match (if o.assertValidXmlCharacters then Xml.firstInvalid? s else none) with
  | some c => .error (.invalidXmlChar c.toNat)
  | none => .ok s

/-- Refuse a name that is no XML name, if names are checked. -/
def checkName (o : Options) (name : String) : Except Error Unit :=
  if o.assertValidXmlNames && !Xml.isName name then .error (.invalidXmlName name) else .ok ()

end Options

namespace Attributes

/-- The text that a terminal gives for the character it has matched. -/
def tokenText (a : Attributes) (c : Char) : String :=
  if a.terminalMark == '-' then "" else (a.get? replacementKey).getD (String.singleton c)

/-- The text that is inserted. -/
def insertionText (a : Attributes) : String :=
  (a.get? insertionKey).getD ""

/-- The text that a nonterminal gives apart from its parts. -/
def ownText (a : Attributes) : String :=
  if a.mark == '+' then a.insertionText else ""

/-- The head of the element that a nonterminal makes. -/
def elementHead (a : Attributes) : ElementHead :=
  { name := a.outputName, ns := a.get? xmlnsKey }

/-- The head of the wrapper of a hidden nonterminal. -/
def wrapperHead (a : Attributes) : ElementHead :=
  { name := Content.wrapperName, isWrapper := true, attributes := [("name", a.name)] }

end Attributes

/-- Set an attribute on the head of the element around it; there must be one without such an attribute. -/
def ElementHead.setAttribute (name value : String) : Option ElementHead → Except Error (Option ElementHead)
  | none => .error (.attributeAtRoot name)
  | some head =>
    if Assoc.has name head.attributes then .error (.duplicateAttribute head.name name)
    else .ok (some { head with attributes := Assoc.insert name value head.attributes })

theorem exists_of_bind_eq_ok {ε α β : Type} {x : Except ε α} {f : α → Except ε β} {b : β}
    (h : (x >>= f) = .ok b) : ∃ a, x = .ok a ∧ f a = .ok b := by
  cases x with
  | error e => cases h
  | ok a => exact ⟨a, rfl, h⟩

theorem exists_of_map_eq_ok {ε α β : Type} {x : Except ε α} {f : α → β} {b : β} (h : x.map f = .ok b) :
    ∃ a, x = .ok a ∧ f a = b := by
  cases x with
  | error e => cases h
  | ok a => exact ⟨a, rfl, Except.ok.inj h⟩

namespace Derivation

mutual

/-- What happens in a derivation, in order. -/
def events : Derivation → List DerivationEvent
  | matched c a => [.matched c a]
  | derived a ds => .opens a :: (eventsAll ds ++ [.closes a])

def eventsAll : List Derivation → List DerivationEvent
  | [] => []
  | d :: ds => events d ++ eventsAll ds

end

mutual

/-- The characters that are matched in a derivation. -/
def input : Derivation → List Char
  | matched c _ => [c]
  | derived _ ds => inputAll ds

def inputAll : List Derivation → List Char
  | [] => []
  | d :: ds => input d ++ inputAll ds

end

mutual

/-- The text of a part inside an attribute, where the marks of nonterminals do not count. -/
def valueText (o : Options) : Derivation → Except Error String
  | matched c a => o.checkText (a.tokenText c)
  | derived a ds => do
    let s ← o.checkText a.ownText
    let t ← valueTexts o ds
    return s ++ t

def valueTexts (o : Options) : List Derivation → Except Error String
  | [] => return ""
  | d :: ds => do
    let s ← valueText o d
    let t ← valueTexts o ds
    return s ++ t

end

mutual

/-- What a part gives outside attributes. `owner` is the head of the nearest element around it, with the
attributes that have been set so far; wrappers do not count. The answer is that head with the attributes of the
part, and the contents. -/
def contribution (o : Options) (owner : Option ElementHead) :
    Derivation → Except Error (Option ElementHead × List Content)
  | matched c a => do
    let s ← o.checkText (a.tokenText c)
    return (owner, Content.ofText s)
  | derived a ds =>
    if a.mark == '+' then do
      let s ← o.checkText a.insertionText
      let (owner, cs) ← contributions o owner ds
      return (owner, Content.ofText s ++ cs)
    else if a.mark == '@' then do
      o.checkName a.outputName
      let value ← valueTexts o ds
      if Draft.isReserved a.outputName then
        throw (.reservedAttribute a.outputName)
      else
        let owner ← ElementHead.setAttribute a.outputName value owner
        return (owner, [])
    else if a.mark == '-' then do
      let (owner, cs) ← contributions o owner ds
      return (owner, if o.showBnfNonterminals then [.element a.wrapperHead (Content.merge cs)] else cs)
    else do
      o.checkName a.outputName
      let (own, cs) ← contributions o (some a.elementHead) ds
      let head := own.getD a.elementHead
      if a.discardEmpty && head.attributes.isEmpty && cs.isEmpty then
        return (owner, [])
      else
        return (owner, [.element head (Content.merge cs)])

/-- What several parts give outside attributes, one after the other. -/
def contributions (o : Options) (owner : Option ElementHead) :
    List Derivation → Except Error (Option ElementHead × List Content)
  | [] => return (owner, [])
  | d :: ds => do
    let (owner, cs) ← contribution o owner d
    let (owner, cs') ← contributions o owner ds
    return (owner, cs ++ cs')

end

variable {o : Options} {owner : Option ElementHead} {r : Option ElementHead × List Content} {a : Attributes}
  {d : Derivation} {ds : List Derivation}

theorem eq_of_contribution_matched {c : Char} (h : (matched c a).contribution o owner = .ok r) :
    ∃ s, r = (owner, Content.ofText s) := by
  rw [contribution] at h
  obtain ⟨s, -, h⟩ := exists_of_bind_eq_ok h
  cases h
  exact ⟨s, rfl⟩

/-- An attribute is set on the element around, and there is no content. -/
theorem setAttribute_of_contribution_eq_ok (ha : a.mark = '@') (h : (derived a ds).contribution o owner = .ok r) :
    ∃ value, ElementHead.setAttribute a.outputName value owner = .ok r.1 ∧ r.2 = [] := by
  simp only [contribution, ha] at h
  obtain ⟨_, -, h⟩ := exists_of_bind_eq_ok h
  obtain ⟨value, -, h⟩ := exists_of_bind_eq_ok h
  split at h
  · cases h
  · obtain ⟨own, hown, h⟩ := exists_of_bind_eq_ok h
    cases h
    exact ⟨value, hown, rfl⟩

/-- What a nonterminal can give: text and contents from an insertion, an attribute, contents or a wrapper, an
element or nothing in its place. -/
theorem contribution_derived_cases (h : (derived a ds).contribution o owner = .ok r) :
    (∃ s r', contributions o owner ds = .ok r' ∧ r = (r'.1, Content.ofText s ++ r'.2)) ∨
    (∃ value own, ElementHead.setAttribute a.outputName value owner = .ok own ∧ r = (own, [])) ∨
    (∃ r', contributions o owner ds = .ok r' ∧
      (r = r' ∨ r = (r'.1, [.element a.wrapperHead (Content.merge r'.2)]))) ∨
    (∃ head r', contributions o (some a.elementHead) ds = .ok r' ∧
      (r = (owner, []) ∨ r = (owner, [.element head (Content.merge r'.2)]))) := by
  by_cases hattribute : a.mark = '@'
  · obtain ⟨value, hset, hr⟩ := setAttribute_of_contribution_eq_ok hattribute h
    exact .inr (.inl ⟨value, r.1, hset, Prod.ext rfl hr⟩)
  simp only [contribution, if_neg (mt beq_iff_eq.mp hattribute)] at h
  split at h
  · left
    obtain ⟨s, -, h⟩ := exists_of_bind_eq_ok h
    obtain ⟨r', hr, h⟩ := exists_of_bind_eq_ok h
    cases h
    exact ⟨s, r', hr, rfl⟩
  split at h
  · right; right; left
    obtain ⟨r', hr, h⟩ := exists_of_bind_eq_ok h
    cases h
    refine ⟨r', hr, ?_⟩
    split
    · exact .inr rfl
    · exact .inl rfl
  · right; right; right
    obtain ⟨_, -, h⟩ := exists_of_bind_eq_ok h
    obtain ⟨r', hr, h⟩ := exists_of_bind_eq_ok h
    refine ⟨r'.1.getD a.elementHead, r', hr, ?_⟩
    split at h
    · cases h; exact .inl rfl
    · cases h; exact .inr rfl

theorem contributions_cons_eq_ok (h : contributions o owner (d :: ds) = .ok r) :
    ∃ r₁ r₂, d.contribution o owner = .ok r₁ ∧ contributions o r₁.1 ds = .ok r₂ ∧
      r = (r₂.1, r₁.2 ++ r₂.2) := by
  rw [contributions] at h
  obtain ⟨r₁, hd, h⟩ := exists_of_bind_eq_ok h
  obtain ⟨r₂, hr, h⟩ := exists_of_bind_eq_ok h
  cases h
  exact ⟨r₁, r₂, hd, hr, rfl⟩

/-- The result of derivations: one element, and nothing else beside it. -/
def root (o : Options) (ds : List Derivation) : Except Error (ElementHead × List Content) := do
  let (_, cs) ← contributions o none ds
  match Content.merge cs with
  | [.element head children] => return (head, children)
  | _ => throw .notSingleRooted

theorem root_eq_ok_iff {e : ElementHead × List Content} :
    root o ds = .ok e ↔ ∃ r, contributions o none ds = .ok r ∧ Content.merge r.2 = [.element e.1 e.2] := by
  constructor
  · intro h
    obtain ⟨r, hr, h⟩ := exists_of_bind_eq_ok h
    refine ⟨r, hr, ?_⟩
    simp only at h
    split at h
    · next hm => cases h; exact hm
    · cases h
  · rintro ⟨r, hr, hm⟩
    rw [root, hr]
    simp only [bind, Except.bind, hm, pure, Except.pure]

end Derivation

end Ixml
