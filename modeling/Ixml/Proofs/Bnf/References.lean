import Ixml.Proofs.Bnf.Build

/-!
# Attributes of references

A reference shows its own mark, or the one of the rule that it names (`mark_usedSymbol`). What it shows apart
from that depends on the grammar only by that rule, the start and the default namespace
(`usedSymbol_congr`).
-/

namespace Ixml

namespace Attributes

variable {a : Attributes} {key other value : String} {o : Option String} {c : Bool}

theorem get?_set_self : (a.set key value).get? key = some value :=
  Assoc.find?_insert_self key value a.entries

theorem get?_set_of_ne (h : other ≠ key) : (a.set key value).get? other = a.get? other :=
  Assoc.find?_insert_of_ne h value a.entries

theorem get?_setOption_of_ne (h : other ≠ key) : (a.setOption key o).get? other = a.get? other := by
  cases o with
  | none => rfl
  | some value => exact get?_set_of_ne h

theorem get?_setIf_of_ne (h : other ≠ key) : (a.setIf c key value).get? other = a.get? other := by
  cases c with
  | false => rfl
  | true => exact get?_set_of_ne h

theorem get?_setOption_self : (a.setOption key o).get? key = (o <|> a.get? key) := by
  cases o with
  | none => rfl
  | some value => exact get?_set_self

theorem get?_setIf_self : (a.setIf c key value).get? key = if c then some value else a.get? key := by
  cases c with
  | false => rfl
  | true => exact get?_set_self

theorem get?_ite_of_ne {p : Prop} [Decidable p] (h : other ≠ key) :
    (if p then a.setOption key o else a).get? other = a.get? other := by
  split
  · exact get?_setOption_of_ne h
  · rfl

end Attributes

namespace Bnf.OfGrammar

open Attributes

variable {g h : Grammar} {l : Label} {name key : String} {mark : Mark} {rename : Option String} {a : Attributes}

theorem signAt_of_get? {s : Char} (h : a.get? key = some (String.singleton s)) : a.signAt key = s := by
  simp [signAt, h]

theorem get?_mark_sharedAttributes :
    (sharedAttributes g name mark rename).get? markKey = some (String.singleton mark.sign) := by
  rw [sharedAttributes, get?_ite_of_ne (by decide), get?_setIf_of_ne (by decide), get?_setIf_of_ne (by decide),
    get?_setOption_of_ne (by decide), get?_set_of_ne (by decide), get?_set_self]

theorem get?_setDefaultPriority (h : key ≠ priorityKey) (w : Option Float) :
    (setDefaultPriority a w).get? key = a.get? key := by
  rw [setDefaultPriority]
  split
  · rfl
  · exact get?_setOption_of_ne h

theorem get?_setReferencePragmas (h : key ≠ priorityKey) (h' : key ≠ discardEmptyKey) (ps : List Pragma) :
    (ps.foldl setReferencePragma a).get? key = a.get? key := by
  induction ps generalizing a with
  | nil => rfl
  | cons p ps ih =>
    rw [List.foldl_cons, ih, setReferencePragma]
    split
    · exact get?_set_of_ne h
    · exact get?_set_of_ne h'
    · rfl

theorem mark_usedSymbol : (usedSymbol g l).attributes.mark =
    (((ownMark? l.kind) <|> (ruleNamed? g l.nameText).bind fun r => ruleMark? r.kind).getD .element).sign := by
  refine signAt_of_get? ?_
  simp only [usedSymbol, Symbol.attributes]
  rw [get?_setDefaultPriority (by decide), get?_setReferencePragmas (by decide) (by decide),
    get?_setIf_of_ne (by decide), get?_mark_sharedAttributes]

theorem isInsertion_insertionSymbol (text : String) : isInsertion (insertionSymbol text) = true := by
  rw [isInsertion, beq_iff_eq]
  refine signAt_of_get? ?_
  simp only [insertionSymbol, Symbol.attributes]
  rw [get?_set_of_ne (by decide), get?_set_of_ne (by decide), get?_set_of_ne (by decide), get?_set_self]
  rfl

theorem usedSymbol_congr (hr : ruleNamed? g l.nameText = ruleNamed? h l.nameText) (hs : g.start = h.start)
    (hd : g.defaultNamespace = h.defaultNamespace) : usedSymbol g l = usedSymbol h l := by
  simp only [usedSymbol, sharedAttributes, hr, hs, hd]

theorem definedSymbol_congr (hr : ruleNamed? g l.nameText = ruleNamed? h l.nameText) (hs : g.start = h.start)
    (hd : g.defaultNamespace = h.defaultNamespace)
    (hp : (g.node Grammar.root).pragmas = (h.node Grammar.root).pragmas) : definedSymbol g l = definedSymbol h l := by
  simp only [definedSymbol, sharedAttributes, hr, hs, hd, hp]

/-! ### Rules of a name -/

open Layout Simplify

variable {rootLabel : Label} {b : Grammar} {J W : List Layout} {ks : List Construct} {m : Nat}

theorem ruleNamed?_eq (h : Holds rootLabel b J W g) (name : String) : ruleNamed? g name =
    (J.find? fun t => t.kind.isRule && t.label.nameText == name).map Layout.label := by
  rw [ruleNamed?, definitions_eq h, List.head?_map, List.head?_filter, Option.map_map]
  refine Option.map_congr fun t ht => ?_
  exact (h.keeps (List.mem_of_find?_eq_some ht)).toLabel_eq

theorem exists_of_ruleNamed? {name : String} {k : Label} (h : Holds rootLabel b J W g)
    (hk : ruleNamed? g name = some k) : ∃ t ∈ J, IsRuleNamed name t ∧ t.label = k := by
  rw [ruleNamed?_eq h] at hk
  obtain ⟨t, ht, rfl⟩ := Option.map_eq_some_iff.mp hk
  have hrule := List.find?_some ht
  rw [Bool.and_eq_true, beq_iff_eq] at hrule
  exact ⟨t, List.mem_of_find?_eq_some ht, hrule, rfl⟩

theorem exists_ruleNamed?_eq_some {name : String} (h : Holds rootLabel b J W g) (hn : ∃ t ∈ J, IsRuleNamed name t) :
    ∃ t ∈ J, IsRuleNamed name t ∧ ruleNamed? g name = some t.label := by
  obtain ⟨t, ht, hr, hn⟩ := hn
  have hfind : (J.find? fun t => t.kind.isRule && t.label.nameText == name).isSome = true :=
    List.find?_isSome.mpr ⟨t, ht, by simp [hr, hn]⟩
  obtain ⟨u, hu⟩ := Option.isSome_iff_exists.mp hfind
  have hsome : ruleNamed? g name = some u.label := by rw [ruleNamed?_eq h, hu, Option.map_some]
  have hrule := List.find?_some hu
  rw [Bool.and_eq_true, beq_iff_eq] at hrule
  exact ⟨u, List.mem_of_find?_eq_some hu, hrule, hsome⟩

/-- References to a made-up rule inherit from a hidden rule. -/
theorem exists_ruleNamed?_of_isMade {name : String} (h : Holds rootLabel b J W g) (hS : Stock.Sound ⟨J, m⟩)
    (hn : IsMade name) (hr : ∃ t ∈ J, IsRuleNamed name t) :
    ∃ k, ruleNamed? g name = some k ∧ k.kind = .rule .hidden none := by
  obtain ⟨t, ht, ⟨hrule, hname⟩, hnamed⟩ := exists_ruleNamed?_eq_some h hr
  exact ⟨t.label, hnamed, (hS.proper t ht).label.kind_of_isRule (hname ▸ hn) hrule⟩

theorem mark_usedSymbol_of_isMade (h : Holds rootLabel b J W g) (hS : Stock.Sound ⟨J, m⟩) (hp : Proper m l ks)
    (hl : l.kind.isNonterminal = true) (hn : IsMade l.nameText) (hr : ∃ t ∈ J, IsRuleNamed l.nameText t) :
    (usedSymbol g l).attributes.mark = '-' := by
  obtain ⟨k, hnamed, hk⟩ := exists_ruleNamed?_of_isMade h hS hn hr
  rw [mark_usedSymbol, hnamed, hp.kind_of_isNonterminal hn hl, Option.bind_some, hk]
  rfl

theorem isMade_insertionRule : IsMade insertionRule := by
  rfl

theorem nameText_ne_insertionRule (h : Proper m l ks) : l.nameText ≠ insertionRule := fun hn => by
  rcases h.number (hn ▸ isMade_insertionRule) with he | ⟨n, -, hint, word, -, -, he⟩
  · exact absurd (hn.symm.trans he) (by decide)
  · have hmem : '_' ∈ insertionRule.toList := by rw [← hn, he]; simp
    exact absurd hmem (by decide)

end Bnf.OfGrammar

end Ixml
