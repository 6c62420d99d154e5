import Ixml.Proofs.Bnf.References
import Ixml.Proofs.Compile.Stages
import Ixml.Proofs.Document.Sound
import Ixml.Proofs.Language.Derivations

/-!
# The names in a compiled grammar

Every symbol of a compiled grammar has a name of characters of XML and no other namespace than that of the grammar
(`isSound_of_ofSource`): what is read is like that, and so are the names that a simplification makes up.
-/

namespace Ixml

open Attributes Layout Simplify

namespace Bnf.OfGrammar

variable {g : Grammar} {l : Label} {name key : String} {mark : Mark} {rename : Option String} {a : Attributes}

theorem get?_name_sharedAttributes : (sharedAttributes g name mark rename).get? nameKey = some name := by
  rw [sharedAttributes, get?_ite_of_ne (by decide), get?_setIf_of_ne (by decide), get?_setIf_of_ne (by decide),
    get?_setOption_of_ne (by decide), get?_set_self]

theorem get?_xmlns_sharedAttributes : (sharedAttributes g name mark rename).get? xmlnsKey = none ∨
    (sharedAttributes g name mark rename).get? xmlnsKey = g.defaultNamespace := by
  have hbase (o : Option String) (c d : Bool) :
      (((((({} : Attributes).set markKey (String.singleton mark.sign)).set nameKey name).setOption renameKey o).setIf c
        pruningKey "allowed").setIf d discardEmptyKey "true").get? xmlnsKey = none := by
    rw [get?_setIf_of_ne (by decide), get?_setIf_of_ne (by decide), get?_setOption_of_ne (by decide),
      get?_set_of_ne (by decide), get?_set_of_ne (by decide)]
    rfl
  rw [sharedAttributes]
  split
  · cases hd : g.defaultNamespace with
    | none => exact Or.inl (hbase _ _ _)
    | some uri => exact Or.inr get?_set_self
  · exact Or.inl (hbase _ _ _)

theorem get?_usedSymbol (hk : key ≠ priorityKey) (hk' : key ≠ discardEmptyKey) (hk'' : key ≠ optionalKey) :
    (usedSymbol g l).attributes.get? key = (sharedAttributes g l.nameText
      (((ownMark? l.kind) <|> (ruleNamed? g l.nameText).bind fun r => ruleMark? r.kind).getD .element)
      ((ownRename? l.kind) <|> (ruleNamed? g l.nameText).bind fun r => ruleRename? r.kind)).get? key := by
  simp only [usedSymbol, Symbol.attributes]
  rw [get?_setDefaultPriority hk, get?_setReferencePragmas hk hk', get?_setIf_of_ne hk'']

theorem get?_setRulePragmas (h : key ∉ [priorityKey, tokenKey, regexKey, metadataKey]) (ps : List Pragma) :
    (ps.foldl setRulePragma a).get? key = a.get? key := by
  simp only [List.mem_cons, List.not_mem_nil, or_false, not_or] at h
  induction ps generalizing a with
  | nil => rfl
  | cons p ps ih =>
    rw [List.foldl_cons, ih, setRulePragma]
    split
    · exact get?_set_of_ne h.1
    · exact get?_set_of_ne h.2.1
    · exact get?_set_of_ne h.2.2.1
    · exact get?_set_of_ne h.2.2.2
    · rfl

theorem get?_definedSymbol (hk : key ∉ [priorityKey, tokenKey, regexKey, metadataKey]) (hk' : key ≠ optionalKey) :
    (definedSymbol g l).attributes.get? key =
      (sharedAttributes g l.nameText ((ruleMark? l.kind).getD .element) (ruleRename? l.kind)).get? key := by
  simp only [definedSymbol, Symbol.attributes]
  rw [get?_setDefaultPriority (fun h => hk (by simp [h])), get?_setRulePragmas hk, get?_setIf_of_ne hk']

theorem mark_definedSymbol : (definedSymbol g l).attributes.mark = ((ruleMark? l.kind).getD .element).sign := by
  refine signAt_of_get? ?_
  rw [get?_definedSymbol (by decide) (by decide), get?_mark_sharedAttributes]

theorem isSound_usedSymbol (h : Xml.IsText l.nameText) : (usedSymbol g l).attributes.IsSound g.defaultNamespace where
  name := by
    rw [Attributes.name, get?_usedSymbol (by decide) (by decide) (by decide), get?_name_sharedAttributes]
    exact h
  uri := by
    rw [get?_usedSymbol (by decide) (by decide) (by decide)]
    exact get?_xmlns_sharedAttributes

theorem isSound_definedSymbol (h : Xml.IsText l.nameText) :
    (definedSymbol g l).attributes.IsSound g.defaultNamespace where
  name := by
    rw [Attributes.name, get?_definedSymbol (by decide) (by decide), get?_name_sharedAttributes]
    exact h
  uri := by
    rw [get?_definedSymbol (by decide) (by decide)]
    exact get?_xmlns_sharedAttributes

theorem isSound_insertionSymbol (text : String) (ns : Option String) :
    (insertionSymbol text).attributes.IsSound ns where
  name := by
    have hname : (insertionSymbol text).attributes.get? nameKey = some insertionRule := by
      simp only [insertionSymbol, Symbol.attributes]
      rw [get?_set_of_ne (by decide), get?_set_of_ne (by decide), get?_set_self]
    rw [Attributes.name, hname]
    exact (by decide : Xml.IsText insertionRule)
  uri := by
    left
    simp only [insertionSymbol, Symbol.attributes]
    rw [get?_set_of_ne (by decide), get?_set_of_ne (by decide), get?_set_of_ne (by decide), get?_set_of_ne (by decide)]
    rfl

theorem isSound_terminalAttributes (mark : TerminalMark) (o : Option String) (ns : Option String) :
    ((terminalAttributes mark).setOption replacementKey o).IsSound ns where
  name := by
    rw [Attributes.name, get?_setOption_of_ne (by decide), terminalAttributes, get?_set_of_ne (by decide)]
    exact Xml.isText_empty
  uri := by
    left
    rw [get?_setOption_of_ne (by decide), terminalAttributes, get?_set_of_ne (by decide)]
    rfl

theorem isSound_of_becomes {t : Layout} {xs : List Symbol} (h : Becomes g t xs)
    (ht : t.Every fun l _ => Xml.IsText l.nameText) : ∀ x ∈ xs, x.attributes.IsSound g.defaultNamespace := by
  intro x hx
  cases h with
  | nonterminal hl =>
    rw [List.mem_singleton.mp hx]
    exact isSound_usedSymbol (every_node.mp ht).1
  | literal hl =>
    obtain ⟨i, hi, rfl⟩ := List.mem_mapIdx.mp hx
    exact isSound_terminalAttributes _ _ _
  | insertion hl =>
    rw [List.mem_singleton.mp hx]
    exact isSound_insertionSymbol _ _
  | set hl =>
    rw [List.mem_singleton.mp hx]
    exact isSound_terminalAttributes _ none _

end Bnf.OfGrammar

namespace Bnf

open OfGrammar

/-- Every symbol that a derivation goes into has a name that can be written and no namespace but the default one. -/
structure IsSound (B : Bnf) : Prop where
  start : B.start.attributes.IsSound B.defaultNamespace
  rules : ∀ rule ∈ B.rules, ∀ x ∈ rule.rhs, x.attributes.IsSound B.defaultNamespace

end Bnf

open Bnf.OfGrammar

variable {g : Grammar} {J : List Layout} {B : Bnf} {source : String} {options : Options}

theorem Bnf.OfGrammar.IsBuilt.isSound (hB : IsBuilt g J B) (hJ : ∀ t ∈ J, t.Every fun l _ => Xml.IsText l.nameText) :
    B.IsSound := by
  constructor
  · obtain ⟨⟨i, l, ts⟩, ht, hstart⟩ := hB.start
    rw [hstart, hB.defaultNamespace]
    exact isSound_definedSymbol (every_node.mp (hJ _ (List.mem_of_find?_eq_some ht))).1
  · intro r hr x hx
    obtain ⟨t, ht, -, -, a, ha, u, hu, xs, hbecomes, hx⟩ := hB.exists_factor hr hx
    rw [hB.defaultNamespace]
    exact isSound_of_becomes hbecomes ((hJ t ht).factor (by rw [ha]; simp) hu) x hx

/-- What a text compiles to shows no name that cannot be written. -/
theorem isSound_of_ofSource (h : Bnf.ofSource source options = .ok B) : B.IsSound := by
  obtain ⟨g₀, g, rootLabel, b, J, J', m, -, -, hs, hbuilt⟩ := exists_stages_of_bnf_ofSource h
  refine hbuilt.isSound (every_name_of_steps hs.steps (fun X n hX => hX.isText) Xml.isText_empty ?_ hs.understood.texts)
  exact (by decide : Xml.IsText emptyRule)

end Ixml
