import Ixml.Proofs.Document.Hidden
import Ixml.Proofs.Document.Written
import Ixml.Proofs.Language.Derivations

/-!
# Results that show what has been matched

Where no symbol hides, moves, adds or replaces text, what a derivation gives has as its text the characters that are
matched in it (`Bnf.Derives.allTexts_contributions`), and so has the root of the document, read back as a tree
(`Bnf.KeepsText.content_of_root`).
-/

namespace Ixml

/-! ### Texts of contents -/

namespace Content

variable {cs ds : List Content} {s d : String}

@[simp] theorem allTexts_append : allTexts (cs ++ ds) = allTexts cs ++ allTexts ds := by
  induction cs with
  | nil => simp [allTexts]
  | cons c cs ih => simp [allTexts, ih, String.append_assoc]

@[simp] theorem allTexts_ofText : allTexts (ofText s) = s := by
  unfold ofText
  split
  · next hs =>
    rw [String.isEmpty_iff.mp hs]
    rfl
  · simp [allTexts, allText]

@[simp] theorem allTexts_merge : allTexts (merge cs) = allTexts cs := by
  induction cs with
  | nil => rfl
  | cons c cs ih =>
    unfold merge
    rw [show allTexts (c :: cs) = c.allText ++ allTexts cs from rfl, ← ih]
    cases merge cs with
    | nil => cases c <;> rfl
    | cons e es => cases c <;> cases e <;> simp [allTexts, allText, String.append_assoc]

mutual

theorem content_toNode : ∀ c : Content, (c.toNode d).content = c.allText
  | text _ => rfl
  | element _ cs => contentAll_toNodes cs

theorem contentAll_toNodes : ∀ cs : List Content, Xml.Node.contentAll (toNodes d cs) = allTexts cs
  | [] => rfl
  | c :: cs => by rw [toNodes, Xml.Node.contentAll, content_toNode c, contentAll_toNodes cs, allTexts]

end

end Content

theorem Draft.content_rootNode (b : Draft) (states : List String) (head : ElementHead) (children : List Content) :
    (b.rootNode states head children).content = Content.allTexts children :=
  Content.contentAll_toNodes children

/-! ### Symbols that keep text -/

/-- A symbol that shows the text below it where it stands, and nothing else. -/
def Symbol.KeepsText : Symbol → Prop
  | nonterminal _ a => a.mark ≠ '@' ∧ a.mark ≠ '+'
  | terminal _ a => a.terminalMark ≠ '-' ∧ a.get? Attributes.replacementKey = none

/-- All symbols that a derivation goes into show the text below them. -/
structure Bnf.KeepsText (B : Bnf) : Prop where
  start : B.start.attributes.mark ≠ '@' ∧ B.start.attributes.mark ≠ '+'
  rules : ∀ rule ∈ B.rules, ∀ x ∈ rule.rhs, x.KeepsText

variable {B : Bnf} {o : Options} {owner : Option ElementHead} {ss : List Symbol} {ds : List Derivation} {a : Attributes}

theorem Attributes.tokenText_of_keepsText (h : a.terminalMark ≠ '-' ∧ a.get? replacementKey = none) (c : Char) :
    a.tokenText c = String.singleton c := by
  rw [tokenText, if_neg (by simpa using h.1), h.2]
  rfl

namespace Derivation

variable {r : Option ElementHead × List Content} {c : Char}

theorem allTexts_contribution_matched (ha : a.terminalMark ≠ '-' ∧ a.get? Attributes.replacementKey = none)
    (h : (matched c a).contribution o owner = .ok r) : Content.allTexts r.2 = String.singleton c := by
  rw [contribution, Attributes.tokenText_of_keepsText ha, Options.checkText] at h
  split at h
  · cases h
  · cases h
    exact Content.allTexts_ofText

/-- A nonterminal that is neither an attribute nor an insertion has the text of its parts. -/
theorem allTexts_contribution_derived (ha : a.mark ≠ '@' ∧ a.mark ≠ '+')
    (h : (derived a ds).contribution o owner = .ok r) :
    ∃ own r', contributions o own ds = .ok r' ∧ Content.allTexts r.2 = Content.allTexts r'.2 := by
  rw [contribution, if_neg (by simpa using ha.2), if_neg (by simpa using ha.1)] at h
  split at h
  · obtain ⟨r', hr, h⟩ := exists_of_bind_eq_ok h
    cases h
    refine ⟨owner, r', hr, ?_⟩
    split <;> simp [Content.allTexts, Content.allText]
  · obtain ⟨_, -, h⟩ := exists_of_bind_eq_ok h
    obtain ⟨r', hr, h⟩ := exists_of_bind_eq_ok h
    refine ⟨_, r', hr, ?_⟩
    dsimp only at h
    split at h
    · next hempty =>
      cases h
      simp only [Bool.and_eq_true, List.isEmpty_iff] at hempty
      rw [hempty.2]
    · cases h
      simp [Content.allTexts, Content.allText]

variable {e : ElementHead × List Content} {d : Derivation}

theorem allTexts_root (h : root o [d] = .ok e) :
    ∃ r, contribution o none d = .ok r ∧ Content.allTexts e.2 = Content.allTexts r.2 := by
  obtain ⟨r, hr, hm⟩ := root_eq_ok_iff.mp h
  rw [contributions_singleton] at hr
  refine ⟨r, hr, ?_⟩
  rw [← @Content.allTexts_merge r.2, hm]
  simp [Content.allTexts, Content.allText]

end Derivation

namespace Bnf

/-- What symbols that keep text derive gives the text that is matched. -/
theorem Derives.allTexts_contributions (h : B.Derives ss ds) (hB : ∀ rule ∈ B.rules, ∀ x ∈ rule.rhs, x.KeepsText)
    (hss : ∀ x ∈ ss, x.KeepsText) {r : Option ElementHead × List Content}
    (hr : Derivation.contributions o owner ds = .ok r) :
    Content.allTexts r.2 = String.ofList (Derivation.inputAll ds) := by
  induction h generalizing owner r with
  | nil =>
    rw [Derivation.contributions] at hr
    cases hr
    rfl
  | @terminal m a c ss ds hc h ih =>
    obtain ⟨ha, hss⟩ := List.forall_mem_cons.mp hss
    obtain ⟨r₁, r₂, h₁, h₂, rfl⟩ := Derivation.contributions_cons_eq_ok hr
    rw [Content.allTexts_append, Derivation.allTexts_contribution_matched ha h₁, ih hss h₂, Derivation.inputAll,
      String.ofList_append]
    rfl
  | @nonterminal n a rule es ds ss hrule hes h ihes ih =>
    obtain ⟨ha, hss⟩ := List.forall_mem_cons.mp hss
    obtain ⟨r₁, r₂, h₁, h₂, rfl⟩ := Derivation.contributions_cons_eq_ok hr
    obtain ⟨own, r', hr', htext⟩ := Derivation.allTexts_contribution_derived ha h₁
    rw [Content.allTexts_append, htext, ihes (hB rule (List.mem_of_mem_filter hrule)) hr', ih hss h₂,
      Derivation.inputAll, String.ofList_append]
    rfl

variable {e : ElementHead × List Content}

/-- The document of a derivation from a start symbol that keeps text has the text that is matched. -/
theorem KeepsText.content_of_root (hB : B.KeepsText) (h : B.NameDerives B.startName ds)
    (he : Derivation.root o [.derived B.start.attributes ds] = .ok e) (b : Draft) (states : List String) :
    (Xml.treeOf (b.document states e.1 e.2)).map Xml.Node.content = some (String.ofList (Derivation.inputAll ds)) := by
  obtain ⟨rule, hrule, hds⟩ := h
  obtain ⟨r, hr, hroot⟩ := Derivation.allTexts_root he
  obtain ⟨own, r', hr', htext⟩ := Derivation.allTexts_contribution_derived hB.start hr
  rw [b.treeOf_document states e.1 (Derivation.neat_root he), Option.map_some, b.content_rootNode, hroot, htext,
    hds.allTexts_contributions hB.rules (hB.rules rule (List.mem_of_mem_filter hrule)) hr']

end Bnf

end Ixml
