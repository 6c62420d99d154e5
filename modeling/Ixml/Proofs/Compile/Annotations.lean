import Ixml.Proofs.Compile.Checking
import Ixml.Proofs.Compile.Names
import Ixml.Proofs.Compile.Origins
import Ixml.Proofs.Compile.Strategies

/-!
# Annotations survive a compile

Marks, other names and pragmas of a grammar text are found again on the symbols of the compiled grammar: `Grammar.Shows`
says which symbols show what is annotated on a leaf, and `Bnf.IsAnnotated` that every symbol that is not made up shows a
leaf of the text, that made-up symbols are hidden, and that no leaf is lost (`exists_isAnnotated`).
-/

namespace Ixml

open Attributes Layout Simplify Bnf.OfGrammar

/-! ### What is kept -/

namespace Bnf

/-- A rule of one name refers to another name, which is made up. -/
def Refers (B : Bnf) (n n' : String) : Prop :=
  IsMade n' ∧ ∃ r ∈ B.rulesFor n, ∃ a, .nonterminal n' a ∈ r.rhs

/-- A name is reached from another through references to made-up rules. -/
def Reaches (B : Bnf) : String → String → Prop :=
  Relation.ReflTransGen B.Refers

end Bnf

/-- `g.Shows v ss` says that the symbols `ss` show what is annotated on the leaf `v` of the grammar `g`: a reference its
own mark and other name, or those of its rule, and whether it or its rule asks for empty elements to be left out; the
terminals of a literal or a set the mark of it; an insertion its text. -/
inductive Grammar.Shows (g : Grammar) : Tree → List Symbol → Prop
  | reference {l : Label} {ts : List Tree} {t : Tree} {mark : Option Mark} {ruleMark : Mark}
    {rename ruleRename : Option String} {a : Attributes} (hl : l.kind = .nonterminal mark rename)
    (ht : t ∈ g.forest) (hk : t.kind = .rule ruleMark ruleRename) (hn : t.label.nameText = l.nameText)
    (hmark : a.mark = (mark.getD ruleMark).sign) (hrename : a.get? renameKey = (rename <|> ruleRename))
    (hdiscard : a.discardEmpty = (discardsEmpty l.pragmas || discardsEmpty t.label.pragmas)) :
    Shows g (.node l ts) [.nonterminal l.nameText a]
  | literal {l : Label} {ts : List Tree} {mark : TerminalMark} {value : Literal} {ss : List Symbol}
    (hl : l.kind = .literal mark value)
    (hss : List.Forall₂ (fun c s => ∃ a, s = .terminal (.char c) a ∧ a.terminalMark = mark.sign) value.text.toList ss) :
    Shows g (.node l ts) ss
  | insertion {l : Label} {ts : List Tree} {value : Literal} {a : Attributes} (hl : l.kind = .insertion value)
    (hmark : a.mark = '+')
    (htext : a.get? insertionKey = some ((firstOf Directive.replacement? l.pragmas).getD value.text)) :
    Shows g (.node l ts) [.nonterminal insertionRule a]
  | set {l : Label} {ts : List Tree} {mark : TerminalMark} {inclusion : Bool} {s : CharSet} {description : String}
    {a : Attributes} (hl : l.kind = .setOf mark inclusion) (hs : ∀ c, s.contains c = true ↔ ∃ t ∈ ts, t.kind.Admits c)
    (hmark : a.terminalMark = mark.sign) : Shows g (.node l ts) [.terminal (.set s inclusion description) a]

/-- A made-up symbol shows nothing of its own. -/
def Symbol.IsHidden (x : Symbol) : Prop :=
  x.attributes.mark = '-' ∧ x.attributes.get? renameKey = none

/-- The symbols of a compiled grammar show what is annotated in a grammar text. -/
structure Bnf.IsAnnotated (B : Bnf) (g : Grammar) : Prop where
  /-- Rules of one name have the same left-hand side. -/
  lhs : ∀ r ∈ B.rules, ∀ r' ∈ B.rules, r.name = r'.name → r.lhs.attributes = r'.lhs.attributes
  /-- What is not made up shows a leaf of a rule from which it is reached. -/
  origin : ∀ r ∈ B.rules, ∀ x ∈ r.rhs, ¬IsMade x.nameText ∨ x.nameText = insertionRule →
    ∃ t ∈ g.forest, t.kind.isRule = true ∧ B.Reaches t.label.nameText r.name ∧
      ∃ v ∈ t.leaves, ∃ ss, g.Shows v ss ∧ x ∈ ss
  hiddenLhs : ∀ r ∈ B.rules, IsMade r.name → r.lhs.IsHidden
  hiddenRhs : ∀ r ∈ B.rules, ∀ x ∈ r.rhs, IsMade x.nameText → x.nameText ≠ insertionRule → x.IsHidden
  /-- Every leaf is shown, by symbols that are not empty unless it is an empty literal. -/
  complete : ∀ t ∈ g.forest, t.kind.isRule = true → ∀ v ∈ t.leaves, ∃ r ∈ B.rules, B.Reaches t.label.nameText r.name ∧
    ∃ ss, g.Shows v ss ∧ ss <:+: r.rhs ∧
      (ss = [] → ∃ mark value, v.kind = .literal mark value ∧ value.text = "")

/-! ### Attributes -/

namespace Bnf.OfGrammar

variable {g : Grammar} {l k : Label} {name : String} {mark : Mark} {rename : Option String} {a : Attributes}
  {ps : List Pragma}

theorem get?_rename_sharedAttributes : (sharedAttributes g name mark rename).get? renameKey = rename := by
  rw [sharedAttributes, get?_ite_of_ne (by decide), get?_setIf_of_ne (by decide), get?_setIf_of_ne (by decide),
    get?_setOption_self, get?_set_of_ne (by decide), get?_set_of_ne (by decide)]
  cases rename <;> rfl

theorem discardEmpty_sharedAttributes : (sharedAttributes g name mark rename).discardEmpty =
    (ruleNamed? g name).any fun l => discardsEmpty l.pragmas := by
  rw [discardEmpty, sharedAttributes, get?_ite_of_ne (by decide), get?_setIf_self, get?_setIf_of_ne (by decide),
    get?_setOption_of_ne (by decide), get?_set_of_ne (by decide), get?_set_of_ne (by decide)]
  cases (ruleNamed? g name).any fun l => discardsEmpty l.pragmas <;> rfl

theorem discardEmpty_setReferencePragmas :
    (ps.foldl setReferencePragma a).discardEmpty = (discardsEmpty ps || a.discardEmpty) := by
  induction ps generalizing a with
  | nil => rfl
  | cons p ps ih =>
    rw [List.foldl_cons, ih, discardsEmpty, discardsEmpty, List.any_cons, setReferencePragma]
    cases p.directive with
    | discardEmpty => simp [discardEmpty, get?_set_self, Directive.isDiscardEmpty]
    | priority w =>
      have hne : discardEmptyKey ≠ priorityKey := by decide
      simp [discardEmpty, get?_set_of_ne hne, Directive.isDiscardEmpty]
    | _ => simp [Directive.isDiscardEmpty]

theorem discardEmpty_usedSymbol : (usedSymbol g l).attributes.discardEmpty =
    (discardsEmpty l.pragmas || (ruleNamed? g l.nameText).any fun r => discardsEmpty r.pragmas) := by
  simp only [usedSymbol, Symbol.attributes]
  rw [discardEmpty, get?_setDefaultPriority (by decide), ← discardEmpty, discardEmpty_setReferencePragmas]
  congr 1
  rw [discardEmpty, get?_setIf_of_ne (by decide), ← discardEmpty, discardEmpty_sharedAttributes]

theorem definedSymbol_of_outlook (h : outlook l = outlook k) : definedSymbol g l = definedSymbol g k := by
  have hn : l.nameText = k.nameText := congrArg Prod.snd h
  have hkind : l.kind = k.kind := congrArg (·.1.kind) h
  have hoptional : l.isOptional = k.isOptional := congrArg (·.1.isOptional) h
  have hpragmas : l.pragmas = k.pragmas := congrArg (·.1.pragmas) h
  simp only [definedSymbol, hn, hkind, hoptional, hpragmas]

theorem terminalMark_setOption (mark : TerminalMark) (o : Option String) :
    ((terminalAttributes mark).setOption replacementKey o).terminalMark = mark.sign := by
  refine signAt_of_get? ?_
  rw [get?_setOption_of_ne (by decide)]
  exact get?_set_self

/-- The terminals of a literal match its characters, one by one, and have its mark. -/
theorem forall₂_literalSymbols (mark : TerminalMark) (text : List Char) (o : Option String) :
    List.Forall₂ (fun c s => ∃ a, s = Symbol.terminal (.char c) a ∧ a.terminalMark = mark.sign) text
      (literalSymbols mark text o) := by
  have hall (f : Nat → Option String) : List.Forall₂ (fun c s => ∃ a, s = Symbol.terminal (.char c) a ∧
      a.terminalMark = mark.sign) text
      (text.mapIdx fun i c => .terminal (.char c) ((terminalAttributes mark).setOption replacementKey (f i))) := by
    induction text generalizing f with
    | nil => exact .nil
    | cons c text ih =>
      rw [List.mapIdx_cons]
      exact .cons ⟨_, rfl, terminalMark_setOption mark _⟩ (ih fun i => f (i + 1))
  exact hall _

theorem insertion_insertionSymbol (text : String) :
    (insertionSymbol text).attributes.get? insertionKey = some text :=
  get?_set_self

end Bnf.OfGrammar

/-! ### Leaves -/

variable {rootLabel : Label} {b g₀ g : Grammar} {J J' : List Layout} {m : Nat} {B : Bnf} {t u : Layout} {v : Tree}
  {x : Symbol} {ss : List Symbol} {n n' : String} {r : Rule} {l : Label}

namespace Grammar.Shows

/-- No symbols but those of an empty literal are none. -/
theorem ne_nil (h : g.Shows v ss) (hss : ss = []) : ∃ mark value, v.kind = .literal mark value ∧ value.text = "" := by
  subst hss
  cases h with
  | @literal l ts mark value _ hl hss =>
    refine ⟨mark, value, hl, ?_⟩
    rwa [List.forall₂_nil_right_iff, String.toList_eq_nil_iff] at hss

end Grammar.Shows

/-- A reference to a rule shows what is annotated on it and on the rule. -/
theorem shows_usedSymbol {W : List Layout} {ts : List Tree} (h : Holds rootLabel b J W g)
    (hl : l.kind.isNonterminal = true) (hn : ∃ t ∈ J, IsRuleNamed l.nameText t) :
    g.Shows (.node l ts) [usedSymbol g l] := by
  obtain ⟨t, ht, ⟨hrule, hname⟩, hnamed⟩ := exists_ruleNamed?_eq_some h hn
  have hforest : t.erase ∈ g.forest := by
    rw [h.forest_eq]
    exact List.mem_map_of_mem ht
  have hused : usedSymbol g l = .nonterminal l.nameText (usedSymbol g l).attributes := rfl
  rw [hused]
  cases hk : t.kind with
  | rule ruleMark ruleRename =>
    have hk' : t.label.kind = .rule ruleMark ruleRename := hk
    cases hl' : l.kind with
    | nonterminal mark rename =>
      refine .reference hl' hforest (by rw [kind_erase, hk]) (by rw [label_erase, hname]) ?_ ?_ ?_
      · rw [mark_usedSymbol, hnamed, Option.bind_some, hk', hl']
        cases mark <;> rfl
      · rw [get?_usedSymbol (by decide) (by decide) (by decide), get?_rename_sharedAttributes, hnamed,
          Option.bind_some, hk', hl']
        rfl
      · rw [discardEmpty_usedSymbol, hnamed, label_erase]
        rfl
    | _ => simp [hl', Construct.isNonterminal] at hl
  | _ => simp [hk, Construct.isRule] at hrule

theorem isHidden_usedSymbol {W : List Layout} {ks : List Construct} (h : Holds rootLabel b J W g)
    (hS : Stock.Sound ⟨J, m⟩) (hp : Proper m l ks) (hl : l.kind.isNonterminal = true) (hn : IsMade l.nameText)
    (hr : ∃ t ∈ J, IsRuleNamed l.nameText t) : (usedSymbol g l).IsHidden := by
  obtain ⟨k, hnamed, hk⟩ := exists_ruleNamed?_of_isMade h hS hn hr
  refine ⟨mark_usedSymbol_of_isMade h hS hp hl hn hr, ?_⟩
  rw [get?_usedSymbol (by decide) (by decide) (by decide), get?_rename_sharedAttributes, hnamed,
    hp.kind_of_isNonterminal hn hl, Option.bind_some, hk]
  rfl

theorem IsUnderstood.not_isMade_of_mem_leaves (h : IsUnderstood rootLabel b J g) (ht : t ∈ J) (hv : v ∈ t.leaves) :
    ¬IsMade v.label.nameText :=
  ((h.shape t ht).label_of_mem_leaves hv).2

namespace Stages

/-- In a grammar with a rule for each reference, a leaf becomes symbols that show it. -/
theorem shows_of_becomes (h : Stages rootLabel b J J' m g₀ g) (hc : g₀.check true = .ok ()) (ht : t ∈ J)
    (hr : t.kind.isRule = true) (hu : u.erase ∈ t.leaves) (hss : Becomes g u ss) : g₀.Shows u.erase ss := by
  cases hss with
  | @nonterminal i l ts hl =>
    rw [erase_node] at hu ⊢
    have hn : ¬IsMade l.nameText := h.understood.not_isMade_of_mem_leaves ht hu
    rw [h.usedSymbol_eq hn]
    exact shows_usedSymbol h.understood.holds hl (exists_rule_of_check h.understood.holds hc ht hr hu hl)
  | @literal i l ts mark value hl =>
    rw [erase_node]
    exact .literal hl (forall₂_literalSymbols _ _ _)
  | @insertion i l ts value hl =>
    rw [erase_node]
    refine .insertion hl ?_ (insertion_insertionSymbol _)
    exact beq_iff_eq.mp (isInsertion_insertionSymbol _)
  | @set i l ts mark inclusion s description hl hs hd =>
    rw [erase_node]
    refine .set hl (fun c => ?_) (signAt_of_get? get?_set_self)
    rw [hs c]
    simp

/-- The symbols of a leaf stand in a rule, one after the other. -/
theorem exists_part (h : Stages rootLabel b J J' m g₀ g) (hB : IsBuilt g J' B) (hv : Stock.HasLeaf ⟨J', m⟩ n v) :
    ∃ r ∈ B.rulesFor n, ∃ u ss, u.erase = v ∧ Becomes g u ss ∧ ss <:+: r.rhs := by
  obtain ⟨t, ht, ⟨hrule, rfl⟩, hleaf⟩ := hv
  obtain ⟨r, hr, hbecomes⟩ := hB.exists_mem ht hrule
  obtain ⟨a, parts, ha, hparts, hrhs⟩ := hbecomes.rhs
  obtain ⟨u, hu, rfl⟩ := ((h.canonical t ht).mem_leaves (h.sound.proper t ht) hrule ha).mp hleaf
  obtain ⟨ss, hss, hbec⟩ := exists_of_forall₂ hparts hu
  exact ⟨r, hr, u, ss, rfl, hbec, hrhs ▸ List.infix_of_mem_flatten hss⟩

theorem reaches (h : Stages rootLabel b J J' m g₀ g) (hB : IsBuilt g J' B) (hn : Stock.Reaches ⟨J', m⟩ n n') :
    B.Reaches n n' := by
  refine Relation.ReflTransGen.mono (fun n n' href => ?_) _ _ hn
  obtain ⟨hmade, v, hv, hk, rfl⟩ := href
  obtain ⟨r, hr, u, ss, rfl, hbec, hss⟩ := h.exists_part hB hv
  rw [kind_erase] at hk
  rw [label_erase] at hmade ⊢
  rw [hbec.eq_of_isNonterminal hk] at hss
  exact ⟨hmade, r, hr, _, hss.subset (List.mem_singleton_self _)⟩

/-- A rule that is built comes from a rule of its name, or is the shared one of insertions. -/
theorem lhs_cases (h : Stages rootLabel b J J' m g₀ g) (hB : IsBuilt g J' B) (hr : r ∈ B.rules) :
    (∃ t ∈ J', IsRuleNamed r.name t ∧ r.name ≠ insertionRule ∧ r.lhs = definedSymbol g t.label) ∨
      r = insertionRuleEntry := by
  rcases hB.exists_of_mem (List.mem_filter.mpr ⟨hr, beq_self_eq_true r.name⟩) with ⟨t, ht, hrule, hbec⟩ | ⟨-, he⟩
  · refine .inl ⟨t, ht, hrule, ?_, hbec.lhs⟩
    rw [← hrule.2]
    exact nameText_ne_insertionRule (h.sound.proper t ht).label
  · exact .inr he

/-- Rules of one name have the same left-hand side. -/
theorem lhs_eq (h : Stages rootLabel b J J' m g₀ g) (hB : IsBuilt g J' B) {c : Bool} (hc : g₀.check c = .ok ())
    {r' : Rule} (hr : r ∈ B.rules) (hr' : r' ∈ B.rules) (hn : r.name = r'.name) : r.lhs = r'.lhs := by
  have huniform := isUniform_of_steps h.steps h.understood.sound (isUniform_of_check h.understood.holds hc)
  -- no rule but the shared one has the name of the insertions
  rcases h.lhs_cases hB hr with ⟨t, ht, ⟨hrule, hname⟩, hne, hlhs⟩ | rfl <;>
    rcases h.lhs_cases hB hr' with ⟨t', ht', ⟨hrule', hname'⟩, hne', hlhs'⟩ | rfl
  · rw [hlhs, hlhs']
    exact definedSymbol_of_outlook (huniform t ht t' ht' hrule hrule' (hname.trans (hn.trans hname'.symm)))
  · exact absurd hn hne
  · exact absurd hn.symm hne'
  · rfl

theorem isHidden_lhs (h : Stages rootLabel b J J' m g₀ g) (hB : IsBuilt g J' B) (hr : r ∈ B.rules)
    (hmade : IsMade r.name) : r.lhs.IsHidden := by
  rcases h.lhs_cases hB hr with ⟨t, ht, ⟨hrule, hname⟩, -, hlhs⟩ | rfl
  · have hk : t.label.kind = .rule .hidden none :=
      (h.sound.proper t ht).label.kind_of_isRule (hname ▸ hmade) hrule
    rw [hlhs, Symbol.IsHidden, mark_definedSymbol, get?_definedSymbol (by decide) (by decide),
      get?_rename_sharedAttributes, hk]
    exact ⟨rfl, rfl⟩
  · exact ⟨rfl, rfl⟩

theorem isHidden_rhs (h : Stages rootLabel b J J' m g₀ g) (hB : IsBuilt g J' B) (hr : r ∈ B.rules) (hx : x ∈ r.rhs)
    (hmade : IsMade x.nameText) (hne : x.nameText ≠ insertionRule) : x.IsHidden := by
  obtain ⟨t, ht, htr, -, u, ss, hu, hss, hx, n, -, -, hor⟩ := h.exists_origin hB hr hx
  cases hss with
  | @nonterminal i l ts hl =>
    obtain rfl := List.mem_singleton.mp hx
    have hmade : IsMade l.nameText := hmade
    rcases hor with ⟨t₀, ht₀, -, hleaf⟩ | ⟨-, hrule, -⟩
    · exact absurd hmade (h.understood.not_isMade_of_mem_leaves ht₀ hleaf)
    · exact isHidden_usedSymbol h.holds h.sound hu.label hl hmade hrule
  | @literal i l ts mark value hl =>
    obtain ⟨i, hi, rfl⟩ := List.mem_mapIdx.mp hx
    cases hmade
  | insertion hl =>
    rw [List.mem_singleton.mp hx] at hne
    exact absurd rfl hne
  | set hl =>
    rw [List.mem_singleton.mp hx] at hmade
    cases hmade

/-- A symbol that is not made up shows a leaf of a rule from which it is reached. -/
theorem exists_shows (h : Stages rootLabel b J J' m g₀ g) (hB : IsBuilt g J' B) (hc : g₀.check true = .ok ())
    (hr : r ∈ B.rules) (hx : x ∈ r.rhs) (hn : ¬IsMade x.nameText ∨ x.nameText = insertionRule) :
    ∃ t ∈ g₀.forest, t.kind.isRule = true ∧ B.Reaches t.label.nameText r.name ∧
      ∃ v ∈ t.leaves, ∃ ss, g₀.Shows v ss ∧ x ∈ ss := by
  obtain ⟨t, ht, htr, hbec, u, ss, hu, hss, hx, n, -, hreach, hor⟩ := h.exists_origin hB hr hx
  rcases hor with ⟨t₀, ht₀, ⟨hrule, rfl⟩, hleaf⟩ | ⟨hmade, -⟩
  · refine ⟨t₀.erase, ?_, by rwa [kind_erase], ?_, u.erase, hleaf, ss, h.shows_of_becomes hc ht₀ hrule hleaf hss, hx⟩
    · rw [h.understood.holds.forest_eq]
      exact List.mem_map_of_mem ht₀
    · rw [label_erase, hbec.name_eq]
      exact h.reaches hB hreach
  · -- a made-up leaf is a reference, and becomes a symbol with its name
    have hkind := hu.label.hidden hmade
    cases hss with
    | @nonterminal i l ts hl =>
      obtain rfl := List.mem_singleton.mp hx
      rcases hn with hn | hn
      · exact absurd hmade hn
      · exact absurd hn (nameText_ne_insertionRule hu.label)
    | literal hl => simp [hl] at hkind
    | insertion hl => simp [hl] at hkind
    | @set i l ts mark inclusion s description hl hs hd =>
      rw [label_node, hl] at hkind
      cases inclusion <;> simp [Construct.setOf] at hkind

/-- Every leaf is shown in a rule that is reached from its rule. -/
theorem exists_shown (h : Stages rootLabel b J J' m g₀ g) (hB : IsBuilt g J' B) (hc : g₀.check true = .ok ())
    (ht : t ∈ J) (hr : t.kind.isRule = true) (hv : v ∈ t.leaves) : ∃ r ∈ B.rules, B.Reaches t.label.nameText r.name ∧
      ∃ ss, g₀.Shows v ss ∧ ss <:+: r.rhs ∧
        (ss = [] → ∃ mark value, v.kind = .literal mark value ∧ value.text = "") := by
  have hleaf : Stock.HasLeaf ⟨J, b.madeUp⟩ t.label.nameText v := ⟨t, ht, ⟨hr, rfl⟩, hv⟩
  obtain ⟨n, hreach, hleaf⟩ := exists_hasLeaf_of_steps h.steps h.understood.sound hleaf
  obtain ⟨r, hrn, u, ss, rfl, hss, hin⟩ := h.exists_part hB hleaf
  obtain ⟨hr', hn⟩ := List.mem_filter.mp hrn
  have hshows := h.shows_of_becomes hc ht hr hv hss
  refine ⟨r, hr', ?_, ss, hshows, hin, hshows.ne_nil⟩
  rw [beq_iff_eq.mp hn]
  exact h.reaches hB hreach

/-- A grammar that passes the check is compiled to an annotated grammar. -/
theorem isAnnotated (h : Stages rootLabel b J J' m g₀ g) (hB : IsBuilt g J' B) (hc : g₀.check true = .ok ()) :
    B.IsAnnotated g₀ where
  lhs r hr r' hr' hn := by rw [h.lhs_eq hB hc hr hr' hn]
  origin r hr x hx hn := h.exists_shows hB hc hr hx hn
  hiddenLhs r hr hn := h.isHidden_lhs hB hr hn
  hiddenRhs r hr x hx hn hne := h.isHidden_rhs hB hr hx hn hne
  complete t ht hr v hv := by
    rw [h.understood.holds.forest_eq] at ht
    obtain ⟨u, hu, rfl⟩ := List.mem_map.mp ht
    rw [label_erase]
    exact h.exists_shown hB hc hu (by rwa [kind_erase] at hr) hv

end Stages

variable {source : String} {options : Options}

/-- Where references must name rules, whatever the strategy is, a text that compiles is compiled to a grammar that shows
all its annotations. -/
theorem exists_isAnnotated (h : Bnf.ofSource source options = .ok B)
    (hc : options.checkUndefinedNonterminals = true) :
    ∃ g₀, Grammar.understood source = .ok g₀ ∧ B.IsAnnotated g₀ := by
  obtain ⟨g₀, g, rootLabel, b, J, J', m, hu, hcheck, hs, hbuilt⟩ := exists_stages_of_bnf_ofSource h
  exact ⟨g₀, hu, hs.isAnnotated hbuilt (hc ▸ hcheck)⟩

/-- The names that rules define and refer to, with the marks and other names of the references. -/
def Bnf.outline (B : Bnf) : List (String × List (String × Char × Option String)) :=
  B.rules.map fun r => (r.name, r.rhs.map fun x => (x.nameText, x.attributes.mark, x.attributes.get? renameKey))

/-- A reference that is shown as an element under another name is so in the rule for the option around it. -/
theorem exists_isAnnotated_option : ∃ B g₀, Bnf.ofSource "s: \x7b[rename b]\x7d ^a?. @a: 'x'." {} = .ok B ∧
    ({} : Options).checkUndefinedNonterminals = true ∧
    Grammar.understood "s: \x7b[rename b]\x7d ^a?. @a: 'x'." = .ok g₀ ∧ B.IsAnnotated g₀ ∧
    B.outline = [("s", [("$a_1_option", '-', none)]), ("a", [("", '^', none)]), ("$a_1_option", []),
      ("$a_1_option", [("a", '^', some "b")])] := by
  obtain ⟨B, hB, houtline⟩ := exists_eq_ok_and (x := Bnf.ofSource "s: \x7b[rename b]\x7d ^a?. @a: 'x'." {})
    (p := fun B => B.outline == [("s", [("$a_1_option", '-', none)]), ("a", [("", '^', none)]), ("$a_1_option", []),
      ("$a_1_option", [("a", '^', some "b")])]) (by decide +kernel)
  obtain ⟨g₀, hu, hannotated⟩ := exists_isAnnotated hB rfl
  exact ⟨B, g₀, hB, rfl, hu, hannotated, beq_iff_eq.mp houtline⟩

end Ixml
