import Ixml.Proofs.Compile.Names
import Ixml.Proofs.Compile.Origins
import Ixml.Proofs.Document.Matched
import Ixml.Proofs.Document.Rendering

/-!
# Results with the text of the input

A grammar text without `@`, hidden terminals, insertions and texts that replace literals compiles to symbols that keep
the text below them (`Stages.keepsText`). So the result of every input that is recognised has the text of the input,
whatever derivation is chosen (`content_render_eq_input`).
-/

namespace Ixml

open Attributes Layout Simplify Bnf.OfGrammar

/-- Whether nothing in a label hides, moves, adds or replaces text. -/
def Label.keepsText (l : Label) : Bool :=
  match l.kind with
  | .rule mark _ => mark != .attr
  | .nonterminal mark _ => mark != some .attr
  | .literal mark _ => mark == .keep && (firstOf Directive.replacement? l.pragmas).isNone
  | .inclusion mark => mark == .keep
  | .exclusion mark => mark == .keep
  | .insertion _ => false
  | _ => true

/-- Whether a grammar has no attribute, no hidden terminal, no insertion and no literal that is replaced. -/
def Grammar.keepsText (g : Grammar) : Bool :=
  g.forest.all fun t => t.label.keepsText && t.leaves.all (·.label.keepsText)

variable {rootLabel : Label} {b g₀ g : Grammar} {J J' W : List Layout} {m : Nat} {B : Bnf} {l : Label} {u : Layout}
  {xs : List Symbol}

theorem Mark.sign_ne {mark : Mark} (h : mark ≠ .attr) : mark.sign ≠ '@' ∧ mark.sign ≠ '+' := by
  cases mark with
  | attr => exact absurd rfl h
  | element => decide
  | hidden => decide

namespace Bnf.OfGrammar

theorem mark_ne_attr_of_keepsText (hr : l.kind.isRule = true) (hl : l.keepsText = true) :
    (ruleMark? l.kind).getD .element ≠ .attr := by
  unfold Label.keepsText at hl
  cases hk : l.kind <;> simp_all [Construct.isRule, ruleMark?]

/-- A reference keeps text if neither it nor the rule that it names asks for an attribute. -/
theorem keepsText_usedSymbol (h : Holds rootLabel b J W g)
    (hrules : ∀ t ∈ J, t.kind.isRule = true → t.label.keepsText = true) (hl : l.keepsText = true)
    (hk : l.kind.isNonterminal = true) : (usedSymbol g l).KeepsText := by
  show (usedSymbol g l).attributes.mark ≠ '@' ∧ (usedSymbol g l).attributes.mark ≠ '+'
  rw [mark_usedSymbol]
  refine Mark.sign_ne ?_
  have hrule : ((ruleNamed? g l.nameText).bind fun r => ruleMark? r.kind).getD .element ≠ .attr := by
    cases hf : ruleNamed? g l.nameText with
    | none => simp
    | some k =>
      obtain ⟨t, ht, hr, rfl⟩ := exists_of_ruleNamed? h hf
      exact mark_ne_attr_of_keepsText hr.1 (hrules t ht hr.1)
  unfold Label.keepsText at hl
  cases hkind : l.kind with
  | nonterminal mark rename =>
    cases mark with
    | none => simpa [ownMark?] using hrule
    | some mark =>
      rw [hkind] at hl
      simpa [ownMark?] using hl
  | _ => simp [hkind, Construct.isNonterminal] at hk

theorem keepsText_terminal (matcher : Matcher) :
    (Symbol.terminal matcher (terminalAttributes .keep)).KeepsText := by
  constructor
  · show (terminalAttributes .keep).terminalMark ≠ '-'
    decide
  · rfl

/-- A leaf that keeps text becomes symbols that keep text. -/
theorem keepsText_of_becomes (h : Holds rootLabel b J W g)
    (hrules : ∀ t ∈ J, t.kind.isRule = true → t.label.keepsText = true) (hu : u.label.keepsText = true)
    (hxs : Becomes g u xs) : ∀ x ∈ xs, x.KeepsText := by
  intro x hx
  cases hxs with
  | nonterminal hl =>
    rw [List.mem_singleton.mp hx]
    exact keepsText_usedSymbol h hrules hu hl
  | @literal i l ts mark value hl =>
    rw [label_node, Label.keepsText, hl] at hu
    simp only [Bool.and_eq_true, beq_iff_eq, Option.isNone_iff_eq_none] at hu
    obtain ⟨rfl, hnone⟩ := hu
    obtain ⟨i, hi, rfl⟩ := List.mem_mapIdx.mp hx
    rw [hnone]
    exact keepsText_terminal _
  | @insertion i l ts value hl =>
    rw [label_node, Label.keepsText, hl] at hu
    cases hu
  | @set i l ts mark inclusion s description hl hs hd =>
    rw [List.mem_singleton.mp hx]
    rw [label_node, Label.keepsText, hl] at hu
    have hmark : mark = .keep := by cases inclusion <;> simpa [Construct.setOf] using hu
    rw [hmark]
    exact keepsText_terminal _

end Bnf.OfGrammar

namespace Stages

/-- What is made up keeps text, and so a compile does. -/
theorem keepsText (h : Stages rootLabel b J J' m g₀ g) (hB : IsBuilt g J' B) (hg : g₀.keepsText = true) :
    B.KeepsText := by
  rw [Grammar.keepsText, h.understood.holds.forest_eq, List.all_map] at hg
  have hall : ∀ t ∈ J, t.label.keepsText = true ∧ ∀ v ∈ t.leaves, v.label.keepsText = true := fun t ht => by
    have := List.all_eq_true.mp hg t ht
    simpa [Layout.leaves] using this
  -- a rule has the mark that it was written with, or is made up and hidden
  have hrules : ∀ t ∈ J', t.kind.isRule = true → t.label.keepsText = true := fun t ht hr => by
    rcases h.exists_outlook ht hr with ⟨t₀, ht₀, he⟩ | ⟨-, hk⟩
    · have hkind : t.label.kind = t₀.label.kind := congrArg (·.1.kind) he
      have hps : t.label.pragmas = t₀.label.pragmas := congrArg (·.1.pragmas) he
      rw [Label.keepsText, hkind, hps]
      exact (hall t₀ ht₀).1
    · rw [Label.keepsText, show t.label.kind = _ from hk]
      rfl
  constructor
  · obtain ⟨t, ht, hr, hstart⟩ := hB.exists_start
    rw [hstart, mark_definedSymbol]
    exact Mark.sign_ne (mark_ne_attr_of_keepsText hr (hrules t ht hr))
  · intro r hr x hx
    obtain ⟨t, ht, htr, -, u, xs, hu, hxs, hx, n, -, -, hor⟩ := h.exists_origin hB hr hx
    refine keepsText_of_becomes h.holds hrules ?_ hxs x hx
    rcases hor with ⟨t₀, ht₀, -, hleaf⟩ | ⟨hmade, -⟩
    · rw [← label_erase]
      exact (hall t₀ ht₀).2 _ hleaf
    · rcases hu.label.hidden hmade with hk | hk <;> rw [Label.keepsText, hk] <;> rfl

end Stages

variable {σ : Type} {source input : String} {options o : Options} {r : Recognition} {s : σ} {es : List Xml.Event}

/-- If the grammar text keeps text, then the document of an input that is recognised, if there is one, has just the
input as its text, whatever the options are and whatever is chosen. -/
theorem content_render_eq_input (hu : Grammar.understood source = .ok g₀) (hg : g₀.keepsText = true)
    (hB : Bnf.ofSource source options = .ok B) (hr : Recognition.parse? B input = some r) (c : Renderer σ)
    (hs : c.draft s = B.draft o) (he : ((c.render r).perform s).1 = .ok es) :
    (Xml.treeOf es).map Xml.Node.content = some input := by
  obtain ⟨g₀', g, rootLabel, b, J, J', m, hu', -, hstages, hbuilt⟩ := exists_stages_of_bnf_ofSource hB
  obtain rfl : g₀ = g₀' := Except.ok.inj (hu.symm.trans hu')
  obtain ⟨ds, states, hds, hin, hverdict⟩ := Renderer.verdict_render hr hs
  rw [he] at hverdict
  cases hroot : Derivation.root o [.derived B.start.attributes ds] with
  | error e =>
    rw [hroot] at hverdict
    cases hverdict
  | ok e =>
    rw [hroot] at hverdict
    cases hverdict
    rw [(hstages.keepsText hbuilt hg).content_of_root hds hroot, hin, String.ofList_toList]

/-- What a rule with a group compiles to. -/
def groupBnf : Bnf where
  rules := [⟨.nonterminal "s" ⟨[("mark", "^"), ("name", "s")]⟩, [.terminal (.char 'a') ⟨[("tmark", "^")]⟩,
      .nonterminal "$b_1_alts" ⟨[("mark", "-"), ("name", "$b_1_alts"), ("pruning", "allowed")]⟩]⟩,
    ⟨.nonterminal "$b_1_alts" ⟨[("mark", "-"), ("name", "$b_1_alts"), ("pruning", "allowed")]⟩,
      [.terminal (.char 'b') ⟨[("tmark", "^")]⟩]⟩,
    ⟨.nonterminal "$b_1_alts" ⟨[("mark", "-"), ("name", "$b_1_alts"), ("pruning", "allowed")]⟩,
      [.terminal (.char 'c') ⟨[("tmark", "^")]⟩]⟩]
  start := .nonterminal "s" ⟨[("mark", "^"), ("name", "s")]⟩

/-- The derivation of `ac` by that grammar. -/
def groupDerivation : List Derivation :=
  [.matched 'a' ⟨[("tmark", "^")]⟩, .derived ⟨[("mark", "-"), ("name", "$b_1_alts"), ("pruning", "allowed")]⟩
    [.matched 'c' ⟨[("tmark", "^")]⟩]]

theorem nameDerives_groupDerivation : groupBnf.NameDerives "s" groupDerivation := by
  have hs : groupBnf.rulesFor "s" = [groupBnf.rules[0]] := by decide
  have hc : groupBnf.rules[2] ∈ groupBnf.rulesFor "$b_1_alts" := by decide
  refine ⟨groupBnf.rules[0], by rw [hs]; exact List.mem_singleton_self _, ?_⟩
  exact .terminal (by decide) (.nonterminal hc (.terminal (by decide) .nil) .nil)

theorem eq_groupDerivation {ds : List Derivation} (h : groupBnf.NameDerives "s" ds)
    (hin : Derivation.inputAll ds = ['a', 'c']) : ds = groupDerivation := by
  have hs : groupBnf.rulesFor "s" = [groupBnf.rules[0]] := by decide
  have hgroup : groupBnf.rulesFor "$b_1_alts" = [groupBnf.rules[1], groupBnf.rules[2]] := by decide
  obtain ⟨rule, hrule, hds⟩ := h
  rw [hs, List.mem_singleton] at hrule
  subst hrule
  cases hds with
  | terminal hc hrest =>
    cases hrest with
    | nonterminal hr hes hrest =>
      cases hrest
      rw [hgroup] at hr
      simp only [List.mem_cons, List.not_mem_nil, or_false] at hr
      rcases hr with rfl | rfl
      all_goals
        cases hes with
        | terminal hc' hrest =>
          cases hrest
          simp_all [Derivation.inputAll, Derivation.input, groupDerivation, Matcher.accepts]

theorem content_render_eq_input_group : ∃ g₀ r es, Grammar.understood "s: 'a', ('b'; 'c')." = .ok g₀ ∧
    g₀.keepsText = true ∧ Bnf.ofSource "s: 'a', ('b'; 'c')." {} = .ok groupBnf ∧
      Recognition.parse? groupBnf "ac" = some r ∧ ((Rendering.renderer.render r).perform
        { draft := groupBnf.draft { showBnfNonterminals := true } }).1 = .ok es ∧
      (Xml.treeOf es).map Xml.Node.content = some "ac" := by
  have hB : Bnf.ofSource "s: 'a', ('b'; 'c')." {} = .ok groupBnf := by decide +kernel
  obtain ⟨g₀, hu, hg⟩ := exists_eq_ok_and (x := Grammar.understood "s: 'a', ('b'; 'c').") (p := Grammar.keepsText)
    (by decide +kernel)
  have hin : "ac".toList ∈ groupBnf.language groupBnf.startName := ⟨groupDerivation, nameDerives_groupDerivation, rfl⟩
  obtain ⟨r, hr⟩ := Option.isSome_iff_exists.mp (Recognition.isSome_parse?_iff.mpr hin)
  have hs : Rendering.renderer.draft { draft := groupBnf.draft { showBnfNonterminals := true } } =
    groupBnf.draft { showBnfNonterminals := true } := rfl
  obtain ⟨ds, states, hds, hin, hverdict⟩ := Renderer.verdict_render hr hs
  obtain ⟨e, he⟩ : ∃ e, Derivation.root { showBnfNonterminals := true }
    [.derived groupBnf.start.attributes groupDerivation] = .ok e := ⟨_, rfl⟩
  rw [eq_groupDerivation hds hin, he] at hverdict
  exact ⟨g₀, r, _, hu, hg, hB, hr, hverdict, content_render_eq_input hu hg hB hr Rendering.renderer hs hverdict⟩

end Ixml
