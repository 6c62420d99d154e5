import Ixml.Proofs.Compile.Annotations
import Ixml.Proofs.Compile.Closed
import Ixml.Proofs.Simplify.Groups

/-!
# Weights of rules and references

The weight of a rule is read in two places: on the left-hand sides the last of its priority pragmas counts, and references
that have none of their own inherit the first. `Bnf.Weighs` says so of one name, and `Bnf.IsWeighed` of all names of a
compiled grammar (`exists_isWeighed`), of which those that are made up for groups have the pragmas in front of the groups.
So rules and references agree if and only if the first and the last weight are the same (`Bnf.Weighs.agree_iff`).
-/

namespace Ixml

open Attributes Layout Simplify Bnf.OfGrammar

/-! ### Attributes -/

/-- The weights that pragmas state, in order and as they are written in a compiled grammar. -/
def weights (ps : List Pragma) : List String :=
  ps.filterMap fun p => p.directive.priority?.map Decimal.text

/-- The weight of rules that state none. -/
def Grammar.defaultWeight? (g : Grammar) : Option String :=
  (firstOf Directive.defaultPriority? (g.node Grammar.root).pragmas).map Decimal.text

namespace Bnf.OfGrammar

variable {g : Grammar} {l : Label} {name : String} {mark : Mark} {rename : Option String} {a : Attributes}
  {ps : List Pragma}

theorem head?_weights : (weights ps).head? = (firstOf Directive.priority? ps).map Decimal.text := by
  rw [weights, List.head?_filterMap, firstOf, List.map_findSome?]
  rfl

/-- Where pragmas set the weight one after the other the last one stays. -/
theorem get?_priority_foldl {f : Attributes → Pragma → Attributes}
    (hf : ∀ a p, (f a p).get? priorityKey = (p.directive.priority?.map Decimal.text <|> a.get? priorityKey)) :
    (ps.foldl f a).get? priorityKey = ((weights ps).getLast? <|> a.get? priorityKey) := by
  induction ps generalizing a with
  | nil => rfl
  | cons p ps ih =>
    rw [List.foldl_cons, ih, hf, weights, weights, List.filterMap_cons]
    cases p.directive.priority? with
    | none => rfl
    | some w =>
      rw [Option.map_some, List.getLast?_cons]
      cases (ps.filterMap fun p => p.directive.priority?.map Decimal.text).getLast? <;> rfl

theorem get?_priority_setRulePragma (a : Attributes) (p : Pragma) :
    (setRulePragma a p).get? priorityKey = (p.directive.priority?.map Decimal.text <|> a.get? priorityKey) := by
  rw [setRulePragma]
  cases p.directive with
  | priority w => exact get?_set_self
  | token s => exact get?_set_of_ne (by decide)
  | regex s => exact get?_set_of_ne (by decide)
  | metadata uri data => exact get?_set_of_ne (by decide)
  | _ => rfl

theorem get?_priority_setReferencePragma (a : Attributes) (p : Pragma) :
    (setReferencePragma a p).get? priorityKey = (p.directive.priority?.map Decimal.text <|> a.get? priorityKey) := by
  rw [setReferencePragma]
  cases p.directive with
  | priority w => exact get?_set_self
  | discardEmpty => exact get?_set_of_ne (by decide)
  | _ => rfl

theorem get?_priority_setDefaultPriority {w : Option Float} :
    (setDefaultPriority a w).get? priorityKey = (a.get? priorityKey <|> w.map Decimal.text) := by
  rw [setDefaultPriority, has]
  cases ha : a.get? priorityKey with
  | none =>
    rw [Option.isSome_none, if_neg Bool.false_ne_true, get?_setOption_self, ha]
    cases w <;> rfl
  | some s => rw [Option.isSome_some, if_pos rfl, ha]; rfl

theorem get?_priority_sharedAttributes : (sharedAttributes g name mark rename).get? priorityKey = none := by
  rw [sharedAttributes, get?_ite_of_ne (by decide), get?_setIf_of_ne (by decide), get?_setIf_of_ne (by decide),
    get?_setOption_of_ne (by decide), get?_set_of_ne (by decide), get?_set_of_ne (by decide)]
  rfl

/-- A rule has the last weight that is stated on it. -/
theorem get?_priority_definedSymbol :
    (definedSymbol g l).attributes.get? priorityKey = ((weights l.pragmas).getLast? <|> g.defaultWeight?) := by
  simp only [definedSymbol, Symbol.attributes]
  rw [get?_priority_setDefaultPriority, get?_priority_foldl get?_priority_setRulePragma,
    get?_setIf_of_ne (by decide), get?_priority_sharedAttributes, Grammar.defaultWeight?]
  cases (weights l.pragmas).getLast? <;> rfl

/-- A reference has the last weight that is stated on it, or the first of the rule that it names. -/
theorem get?_priority_usedSymbol : (usedSymbol g l).attributes.get? priorityKey =
    ((weights l.pragmas).getLast? <|> (ruleNamed? g l.nameText).bind fun r => (weights r.pragmas).head?) := by
  simp only [usedSymbol, Symbol.attributes, head?_weights]
  rw [get?_priority_setDefaultPriority, get?_priority_foldl get?_priority_setReferencePragma,
    get?_setIf_of_ne (by decide), get?_priority_sharedAttributes, Option.map_bind]
  cases (weights l.pragmas).getLast? <;> rfl

end Bnf.OfGrammar

/-! ### What weighs what -/

/-- `g.HasReference rule n qs` says that a rule refers to the name `n`, with the pragmas `qs` on the reference. -/
def Grammar.HasReference (g : Grammar) (rule n : String) (qs : List Pragma) : Prop :=
  ∃ t ∈ g.forest, t.kind.isRule = true ∧ t.label.nameText = rule ∧
    ∃ v ∈ t.leaves, v.kind.isNonterminal = true ∧ v.label.nameText = n ∧ v.label.pragmas = qs

/-- `g.HasGroup rule x` says that the group `x` stands in a rule. -/
def Grammar.HasGroup (g : Grammar) (rule : String) (x : Group) : Prop :=
  ∃ t ∈ g.forest, t.kind.isRule = true ∧ t.label.nameText = rule ∧ x ∈ t.groups false

/-- What a name with the pragmas `ps` weighs in a compiled grammar. -/
structure Bnf.Weighs (B : Bnf) (g : Grammar) (n : String) (ps : List Pragma) : Prop where
  defined : B.Defines n
  /-- Every rule of the name has the last weight, or the one of rules that state none. -/
  rules : ∀ r ∈ B.rules, r.name = n → r.lhs.attributes.get? priorityKey = ((weights ps).getLast? <|> g.defaultWeight?)
  /-- Every reference to the name is one of the grammar text or made up, and has its own last weight, or the first one
  of the name. -/
  references : ∀ r ∈ B.rules, ∀ a, .nonterminal n a ∈ r.rhs → ∃ qs,
    (IsMade n ∧ qs = [] ∨ ∃ rule, g.HasReference rule n qs ∧ B.Reaches rule r.name) ∧
      a.get? priorityKey = ((weights qs).getLast? <|> (weights ps).head?)
  /-- Every reference of the grammar text to the name is there. -/
  complete : ∀ rule qs, g.HasReference rule n qs → ∃ r ∈ B.rules, B.Reaches rule r.name ∧
    ∃ a, .nonterminal n a ∈ r.rhs ∧ a.get? priorityKey = ((weights qs).getLast? <|> (weights ps).head?)

/-- What the names of a compiled grammar weigh. -/
structure Bnf.IsWeighed (B : Bnf) (g : Grammar) : Prop where
  /-- The name of a rule of the grammar text has the pragmas of the rule. -/
  rule : ∀ t ∈ g.forest, t.kind.isRule = true → B.Weighs g t.label.nameText t.label.pragmas
  /-- For every group that is not empty there is a made-up name with the pragmas in front of it. -/
  group : ∀ rule x, g.HasGroup rule x → x.isFull = true →
    ∃ n, IsMade n ∧ B.Reaches rule n ∧ B.Weighs g n x.pragmas
  /-- Every other made-up name has the pragmas in front of a group as well, or none. -/
  made : ∀ r ∈ B.rules, IsMade r.name → r.name ≠ insertionRule → ∃ ps, B.Weighs g r.name ps ∧
    (ps = [] ∨ ∃ rule x, g.HasGroup rule x ∧ x.pragmas = ps ∧ B.Reaches rule r.name)
  /-- Every name is one of those. -/
  total : ∀ r ∈ B.rules, IsMade r.name ∨ ∃ t ∈ g.forest, t.kind.isRule = true ∧ t.label.nameText = r.name

variable {rootLabel : Label} {b g₀ g : Grammar} {J J' : List Layout} {m : Nat} {B : Bnf} {t : Layout} {r : Rule}
  {n rule : String} {ps qs : List Pragma} {x : Group} {c : Bool}

namespace Stages

theorem defaultWeight?_eq (h : Stages rootLabel b J J' m g₀ g) : g.defaultWeight? = g₀.defaultWeight? := by
  have hroot : (g.node Grammar.root).pragmas = (g₀.node Grammar.root).pragmas :=
    congrArg Label.pragmas ((toLabel_root h.holds).trans (toLabel_root h.understood.holds).symm)
  rw [Grammar.defaultWeight?, Grammar.defaultWeight?, hroot]

theorem hasReference_iff (h : Stages rootLabel b J J' m g₀ g) : g₀.HasReference rule n qs ↔ ∃ v,
    Stock.HasLeaf ⟨J, b.madeUp⟩ rule v ∧ v.kind.isNonterminal = true ∧ v.label.nameText = n ∧ v.label.pragmas = qs := by
  simp only [Grammar.HasReference, Stock.HasLeaf, h.understood.holds.forest_eq, List.mem_map]
  constructor
  · rintro ⟨-, ⟨t, ht, rfl⟩, hr, hn, v, hv, hrest⟩
    rw [kind_erase] at hr
    rw [label_erase] at hn
    exact ⟨v, ⟨t, ht, ⟨hr, hn⟩, hv⟩, hrest⟩
  · rintro ⟨v, ⟨t, ht, ⟨hr, hn⟩, hv⟩, hrest⟩
    exact ⟨t.erase, ⟨t, ht, rfl⟩, by rwa [kind_erase], by rwa [label_erase], v, hv, hrest⟩

theorem hasGroup_iff (h : Stages rootLabel b J J' m g₀ g) :
    g₀.HasGroup rule x ↔ Stock.Carries ⟨J, b.madeUp⟩ rule x := by
  simp only [Grammar.HasGroup, Stock.Carries, h.understood.holds.forest_eq, List.mem_map]
  constructor
  · rintro ⟨-, ⟨t, ht, rfl⟩, hr, hn, hx⟩
    rw [kind_erase] at hr
    rw [label_erase] at hn
    exact ⟨t, ht, ⟨hr, hn⟩, .inl hx⟩
  · rintro ⟨t, ht, ⟨hr, hn⟩, hx | ⟨hmade, -⟩⟩
    · exact ⟨t.erase, ⟨t, ht, rfl⟩, by rwa [kind_erase], by rwa [label_erase], hx⟩
    · exact absurd hmade (h.understood.shape t ht).label.2

/-- References to a name inherit the first weight of its rules. -/
theorem get?_priority_reference (h : Stages rootLabel b J J' m g₀ g) (hc : g₀.check c = .ok ()) (ht : t ∈ J')
    (hr : t.kind.isRule = true) {l : Label} (hn : l.nameText = t.label.nameText) :
    (usedSymbol g l).attributes.get? priorityKey = ((weights l.pragmas).getLast? <|> (weights t.label.pragmas).head?) := by
  obtain ⟨u, hu, ⟨hur, hun⟩, hnamed⟩ := exists_ruleNamed?_eq_some h.holds ⟨t, ht, hr, hn.symm⟩
  have huniform := isUniform_of_steps h.steps h.understood.sound (isUniform_of_check h.understood.holds hc)
  have hpragmas : u.label.pragmas = t.label.pragmas :=
    congrArg (·.1.pragmas) (huniform u hu t ht hur hr (hun.trans hn))
  rw [get?_priority_usedSymbol, hnamed, Option.bind_some, hpragmas]

/-- The rules of a name and the references to it have the weights that are stated on one of the rules. -/
theorem weighs (h : Stages rootLabel b J J' m g₀ g) (hB : IsBuilt g J' B) (hc : g₀.check c = .ok ()) (ht : t ∈ J')
    (hr : t.kind.isRule = true) : B.Weighs g₀ t.label.nameText t.label.pragmas where
  defined := hB.defines ht hr
  rules r hr' hn := by
    obtain ⟨r₀, hr₀, hbec⟩ := hB.exists_mem ht hr
    obtain ⟨hr₀, hn₀⟩ := List.mem_filter.mp hr₀
    rw [h.lhs_eq hB hc hr' hr₀ (hn.trans (beq_iff_eq.mp hn₀).symm), hbec.lhs, get?_priority_definedSymbol,
      h.defaultWeight?_eq]
  references r hr' a hx := by
    obtain ⟨t', ht', -, hbec, u, xs, hu, hxs, hmem, rule, -, hreach, hor⟩ := h.exists_origin hB hr' hx
    have hne : t.label.nameText ≠ insertionRule := nameText_ne_insertionRule (h.sound.proper t ht).label
    obtain ⟨hk, hn, hused⟩ := (hxs.nonterminal_cases hmem).resolve_right fun hins => hne hins.1
    refine ⟨u.label.pragmas, ?_, ?_⟩
    · rcases hor with hleaf | ⟨hmade, -, hps⟩
      · refine .inr ⟨rule, h.hasReference_iff.mpr ⟨_, hleaf, ?_, ?_, ?_⟩, ?_⟩
        · rwa [kind_erase]
        · rw [label_erase, hn]
        · rw [label_erase]
        · rw [hbec.name_eq]
          exact h.reaches hB hreach
      · exact .inl ⟨hn ▸ hmade, hps⟩
    · rw [← h.get?_priority_reference hc ht hr hn.symm, ← hused]
      rfl
  complete rule qs href := by
    obtain ⟨v, hleaf, hk, hn, rfl⟩ := h.hasReference_iff.mp href
    obtain ⟨n', hreach, hleaf⟩ := exists_hasLeaf_of_steps h.steps h.understood.sound hleaf
    obtain ⟨r, hrn, u, ss, rfl, hss, hin⟩ := h.exists_part hB hleaf
    obtain ⟨hr', hn'⟩ := List.mem_filter.mp hrn
    rw [kind_erase] at hk
    rw [label_erase] at hn ⊢
    rw [hss.eq_of_isNonterminal hk] at hin
    refine ⟨r, hr', beq_iff_eq.mp hn' ▸ h.reaches hB hreach, (usedSymbol g u.label).attributes, ?_,
      h.get?_priority_reference hc ht hr hn⟩
    rw [← hn]
    exact hin.subset (List.mem_singleton_self _)

theorem isWeighed (h : Stages rootLabel b J J' m g₀ g) (hB : IsBuilt g J' B) (hc : g₀.check c = .ok ()) :
    B.IsWeighed g₀ where
  rule t ht hr := by
    rw [h.understood.holds.forest_eq] at ht
    obtain ⟨t, hJ, rfl⟩ := List.mem_map.mp ht
    rw [kind_erase] at hr
    have hlabels := labels_prefix_of_steps h.steps h.understood.sound
    obtain ⟨u, hu, hl⟩ := List.mem_map.mp (hlabels.subset (List.mem_map_of_mem hJ))
    rw [label_erase, ← hl]
    exact h.weighs hB hc hu (by rw [kind, hl]; exact hr)
  group rule x hx hfull := by
    obtain ⟨n, hreach, t, ht, ⟨hr, rfl⟩, hx | ⟨hmade, hps⟩⟩ :=
      exists_carries_of_steps h.steps h.understood.sound hfull (h.hasGroup_iff.mp hx)
    · exact absurd hx (not_mem_groups (h.canonical t ht).2)
    · exact ⟨_, hmade, h.reaches hB hreach, hps ▸ h.weighs hB hc ht hr⟩
  made r hr hmade hne := by
    rcases h.lhs_cases hB hr with ⟨t, ht, ⟨hrule, hname⟩, -, -⟩ | rfl
    · refine ⟨t.label.pragmas, hname ▸ h.weighs hB hc ht hrule, ?_⟩
      have hcarries : Stock.Carries ⟨J', m⟩ r.name ⟨t.label.pragmas, true⟩ :=
        ⟨t, ht, ⟨hrule, hname⟩, .inr ⟨hname ▸ hmade, rfl⟩⟩
      rcases exists_carried_of_steps h.steps h.understood.sound hcarries with hps | ⟨rule, x, hx, hps, hreach⟩
      · exact .inl hps
      · exact .inr ⟨rule, x, h.hasGroup_iff.mpr hx, hps, h.reaches hB hreach⟩
    · exact absurd rfl hne
  total r hr := by
    rcases h.lhs_cases hB hr with ⟨t, ht, ⟨hrule, hname⟩, -, -⟩ | rfl
    · rcases h.exists_outlook ht hrule with ⟨t₀, ht₀, hl⟩ | ⟨hmade, -⟩
      · refine .inr ⟨t₀.erase, ?_, ?_, ?_⟩
        · rw [h.understood.holds.forest_eq]
          exact List.mem_map_of_mem ht₀
        · rw [kind_erase, kind, ← show t.label.kind = t₀.label.kind from congrArg (·.1.kind) hl]
          exact hrule
        · rw [label_erase, ← hname]
          exact (congrArg Prod.snd hl).symm
      · exact .inl (hname ▸ hmade)
    · exact .inl isMade_insertionRule

end Stages

/-- The rules of a name and the references to it have the same weight. -/
def Bnf.Agree (B : Bnf) (n : String) : Prop :=
  ∀ r ∈ B.rules, r.name = n → ∀ r' ∈ B.rules, ∀ a, .nonterminal n a ∈ r'.rhs →
    a.get? priorityKey = r.lhs.attributes.get? priorityKey

/-- Where the references to a name state no weight, they agree with its rules if and only if the first weight of the name
is the last one. -/
theorem Bnf.Weighs.agree_iff (h : B.Weighs g n ps) (hps : weights ps ≠ []) (href : ∃ rule qs, g.HasReference rule n qs)
    (hnone : ∀ rule qs, g.HasReference rule n qs → weights qs = []) :
    B.Agree n ↔ (weights ps).head? = (weights ps).getLast? := by
  obtain ⟨w, hw⟩ : ∃ w, (weights ps).getLast? = some w := ⟨_, List.getLast?_eq_some_getLast hps⟩
  have hrule {r : Rule} (hr : r ∈ B.rules) (hn : r.name = n) : r.lhs.attributes.get? priorityKey = some w := by
    rw [h.rules r hr hn, hw]
    rfl
  rw [hw]
  constructor
  · intro hagree
    obtain ⟨r, hr, a', hlhs⟩ := h.defined
    obtain ⟨rule, qs, href⟩ := href
    obtain ⟨r', hr', -, a, ha, hweight⟩ := h.complete rule qs href
    have hn : r.name = n := by rw [Rule.name, hlhs]; rfl
    rw [hnone rule qs href] at hweight
    exact hweight.symm.trans ((hagree r hr hn r' hr' a ha).trans (hrule hr hn))
  · intro hhead r hr hn r' hr' a ha
    obtain ⟨qs, hqs, hweight⟩ := h.references r' hr' a ha
    have hqs : weights qs = [] := by
      rcases hqs with ⟨-, rfl⟩ | ⟨rule, hqs, -⟩
      · rfl
      · exact hnone rule qs hqs
    rw [hweight, hrule hr hn, hqs, hhead]
    rfl

variable {source : String} {options : Options}

/-- Whatever the strategy is, the rules and references of a grammar text that compiles weigh what is stated on rules, groups
and references. -/
theorem exists_isWeighed (h : Bnf.ofSource source options = .ok B) :
    ∃ g₀, Grammar.understood source = .ok g₀ ∧ B.IsWeighed g₀ := by
  obtain ⟨g₀, g, rootLabel, b, J, J', m, hu, hcheck, hs, hbuilt⟩ := exists_stages_of_bnf_ofSource h
  exact ⟨g₀, hu, hs.isWeighed hbuilt hcheck⟩

/-- The weights of the rules and of what they refer to. -/
def Bnf.balance (B : Bnf) : List (String × Option String × List (String × Option String)) :=
  B.rules.map fun r => (r.name, r.lhs.attributes.get? priorityKey,
    r.rhs.map fun x => (x.nameText, x.attributes.get? priorityKey))

/-- A grammar text with a weight on a reference, on a group below an option and on a rule. -/
def threeWeights : String :=
  "s: \x7b[priority 5]\x7d a, \x7b[priority 2]\x7d ('x'; a)?. \x7b[priority 3]\x7d a: 'y'."

theorem exists_isWeighed_group : ∃ B g₀, Bnf.ofSource threeWeights {} = .ok B ∧
    Grammar.understood threeWeights = .ok g₀ ∧ B.IsWeighed g₀ ∧ B.balance =
      [("s", none, [("a", some "5"), ("$x_1_option", none)]), ("a", some "3", [("", none)]), ("$x_1_option", none, []),
        ("$x_2_alts", some "2", [("", none)]), ("$x_1_option", none, [("$x_2_alts", some "2")]),
        ("$x_2_alts", some "2", [("a", some "3")])] := by
  obtain ⟨B, hB, hbalance⟩ := exists_eq_ok_and (x := Bnf.ofSource threeWeights {}) (p := fun B => B.balance ==
      [("s", none, [("a", some "5"), ("$x_1_option", none)]), ("a", some "3", [("", none)]), ("$x_1_option", none, []),
        ("$x_2_alts", some "2", [("", none)]), ("$x_1_option", none, [("$x_2_alts", some "2")]),
        ("$x_2_alts", some "2", [("a", some "3")])]) (by decide +kernel)
  obtain ⟨g₀, hu, hweighed⟩ := exists_isWeighed hB
  exact ⟨B, g₀, hB, hu, hweighed, beq_iff_eq.mp hbalance⟩

/-- A grammar text with two weights on a rule. -/
def twoWeights : String :=
  "s: a. \x7b[priority 1]\x7d \x7b[priority 2]\x7d a: 'x'."

/-- Where two weights are stated on a rule, it does not agree with the references to it. -/
theorem not_agree : ∃ B g₀, Bnf.ofSource twoWeights {} = .ok B ∧ Grammar.understood twoWeights = .ok g₀ ∧
    (∃ t ∈ g₀.forest, t.kind.isRule = true ∧ t.label.nameText = "a" ∧ weights t.label.pragmas = ["1", "2"]) ∧
    (∀ rule qs, g₀.HasReference rule "a" qs → weights qs = []) ∧ ¬B.Agree "a" := by
  obtain ⟨g₀, hu, hstated⟩ := exists_eq_ok_and (x := Grammar.understood twoWeights) (p := fun g =>
    (g.forest.any fun t => t.kind.isRule && t.label.nameText == "a" && weights t.label.pragmas == ["1", "2"]) &&
      g.forest.all fun t => t.leaves.all fun v => weights v.label.pragmas == []) (by decide +kernel)
  obtain ⟨B, hB, hbalance⟩ := exists_eq_ok_and (x := Bnf.ofSource twoWeights {}) (p := fun B =>
    (B.rules.any fun r => r.name == "a" && r.lhs.attributes.get? priorityKey == some "2") &&
      B.rules.any fun r => r.rhs.any fun x => x.name? == some "a" && x.attributes.get? priorityKey == some "1")
    (by decide +kernel)
  simp only [Bool.and_eq_true, List.any_eq_true, List.all_eq_true, beq_iff_eq] at hstated hbalance
  obtain ⟨⟨t, ht, ⟨hr, hn⟩, hw⟩, hnone⟩ := hstated
  refine ⟨B, g₀, hB, hu, ⟨t, ht, hr, hn, hw⟩, ?_, fun hagree => ?_⟩
  · rintro rule qs ⟨t, ht, -, -, v, hv, -, -, rfl⟩
    exact hnone t ht v hv
  · obtain ⟨⟨r, hr, hn, hweight⟩, r', hr', x, hx, hname, hweight'⟩ := hbalance
    cases x with
    | terminal => cases hname
    | nonterminal n a =>
      obtain rfl := Option.some.inj hname
      have he := hagree r hr hn r' hr' a hx
      rw [hweight, show a.get? priorityKey = some "1" from hweight'] at he
      exact absurd he (by decide)

end Ixml
