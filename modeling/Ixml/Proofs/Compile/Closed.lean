import Ixml.Proofs.Compile.Checking
import Ixml.Proofs.Compile.Origins

/-!
# Compiled grammars are closed

The check accepts a grammar if and only if it is closed: it defines each name once and defines every name that it
refers to (`Grammar.check_eq_ok_iff_isClosed`). A rule keeps its name through every step of a simplification, and what
a step refers to anew it defines, so that the rules that are built from a closed grammar are closed too
(`Stages.isClosed`).
-/

namespace Ixml

open Layout Simplify Bnf.OfGrammar

/-! ### What closed means -/

/-- All references of a tree, at whatever depth, are to some of the given names. -/
def Tree.RefersTo (names : List String) (t : Tree) : Prop :=
  t.Every fun l _ => l.kind.isNonterminal = true → l.nameText ∈ names

namespace Grammar

/-- The names that the rules define, in order. -/
def defined (g : Grammar) : List String :=
  (g.forest.filter (·.kind.isRule)).map (·.label.nameText)

/-- Each name is defined once, and every reference below a rule is to a name that is defined. -/
structure IsClosed (g : Grammar) : Prop where
  nodup : g.defined.Nodup
  refers : ∀ t ∈ g.forest, t.kind.isRule = true → t.RefersTo g.defined

end Grammar

namespace Bnf

/-- There is a rule for the nonterminal with a given name. -/
def Defines (B : Bnf) (n : String) : Prop :=
  ∃ r ∈ B.rules, ∃ a, r.lhs = .nonterminal n a

/-- The start symbol is a nonterminal with a rule, and so is every nonterminal on a right-hand side. -/
structure IsClosed (B : Bnf) : Prop where
  start : ∃ n a, B.start = .nonterminal n a ∧ B.Defines n
  refers : ∀ r ∈ B.rules, ∀ n a, .nonterminal n a ∈ r.rhs → B.Defines n

end Bnf

variable {rootLabel : Label} {b g₀ g : Grammar} {J J' W : List Layout} {m : Nat} {R : List NodeId} {source : String}
  {options : Options} {B : Bnf} {n : String} {t : Layout} {S S' : Stock}

/-! ### The check -/

theorem Unread.exists_holds (h : Unread R g) : ∃ rootLabel b J, Holds rootLabel b J [] g := by
  obtain ⟨b, ⟨i, l, J⟩, junk, hl, hw, -, ht⟩ := h
  obtain rfl : i = Grammar.root := ht.id
  refine ⟨l, b, J, junk, ?_⟩
  rw [show ({ b with waiting := [].map Layout.id } : Grammar) = b by rw [List.map_nil, ← hw]]
  exact hl

theorem Simplify.Holds.defined_eq (h : Holds rootLabel b J W g) : g.defined = g.rules.map g.nameText := by
  rw [names_eq h, Grammar.defined, h.forest_eq, List.filter_map, List.map_map]
  simp [Function.comp_def]

theorem Simplify.Holds.check_eq_ok_iff (h : Holds rootLabel b J W g) : g.check true = .ok () ↔ g.IsClosed := by
  have hrefers : (∀ rule ∈ g.rules, ∀ id ∈ g.references rule, g.nameText id ∈ g.rules.map g.nameText) ↔
      ∀ t ∈ g.forest, t.kind.isRule = true → t.RefersTo g.defined := by
    rw [h.rules_eq, h.forest_eq, h.defined_eq]
    simp only [List.forall_mem_map, List.mem_filter, and_imp, kind_erase]
    exact forall₂_congr fun t ht => forall_congr' fun _ => h.rules_eq ▸ forall_references_iff h ht
  rw [Grammar.check_eq_ok_iff, ← h.defined_eq]
  constructor
  · rintro ⟨hnodup, hall⟩
    exact ⟨hnodup, hrefers.mp (h.defined_eq ▸ hall rfl)⟩
  · rintro ⟨hnodup, hall⟩
    exact ⟨hnodup, fun _ => h.defined_eq ▸ hrefers.mpr hall⟩

/-- The check accepts a grammar, before or after its pragmas are understood, if and only if it is closed. -/
theorem Grammar.check_eq_ok_iff_isClosed (h : Grammar.read source = .ok g ∨ Grammar.understood source = .ok g) :
    g.check true = .ok () ↔ g.IsClosed := by
  rcases h with h | h
  · obtain ⟨rootLabel, b, J, hJ⟩ := (unread_of_read h).exists_holds
    exact hJ.check_eq_ok_iff
  · obtain ⟨rootLabel, b, J, hJ⟩ := exists_isUnderstood h
    exact hJ.holds.check_eq_ok_iff

/-! ### The rules -/

theorem Simplify.exists_isRuleNamed_of_steps (h : Relation.ReflTransGen Step S S') (hS : S.Sound)
    (hn : ∃ r ∈ S.tops, IsRuleNamed n r) : ∃ r ∈ S'.tops, IsRuleNamed n r := by
  induction h with
  | refl => exact hn
  | tail hsteps h ih => exact h.exists_isRuleNamed (sound_of_steps hsteps hS) ih

theorem Bnf.OfGrammar.IsBuilt.defines (hB : IsBuilt g J B) (ht : t ∈ J) (hr : t.kind.isRule = true) :
    B.Defines t.label.nameText := by
  obtain ⟨r, hr, hb⟩ := hB.exists_mem ht hr
  exact ⟨r, List.mem_of_mem_filter hr, _, hb.lhs⟩

namespace Stages

theorem defines (h : Stages rootLabel b J J' m g₀ g) (hB : IsBuilt g J' B) (hn : ∃ t ∈ J, IsRuleNamed n t) :
    B.Defines n := by
  obtain ⟨t, ht, hr, rfl⟩ := exists_isRuleNamed_of_steps h.steps h.understood.sound hn
  exact hB.defines ht hr

theorem isClosed (h : Stages rootLabel b J J' m g₀ g) (hB : IsBuilt g J' B) (hc : g₀.check true = .ok ()) :
    B.IsClosed := by
  constructor
  · obtain ⟨t, ht, hr, hstart⟩ := hB.exists_start
    exact ⟨_, _, hstart, hB.defines ht hr⟩
  · intro r hr n a hx
    obtain ⟨t, -, -, -, u, xs, -, hbec, hmem, n', -, -, hor⟩ := h.exists_origin hB hr hx
    rcases hbec.nonterminal_cases hmem with ⟨hl, rfl, -⟩ | ⟨rfl, text, he⟩
    · -- the reference stood in the text, or was made up together with a rule
      rcases hor with ⟨t₀, ht₀, hn', hleaf⟩ | ⟨-, ⟨r', hr', hrule, hname⟩, -⟩
      · rw [kind, ← label_erase] at hl
        rw [← label_erase]
        exact h.defines hB (exists_rule_of_check h.understood.holds hc ht₀ hn'.1 hleaf hl)
      · exact hname ▸ hB.defines hr' hrule
    · have hins : r.rhs.any isInsertion = true :=
        List.any_eq_true.mpr ⟨_, hx, he ▸ isInsertion_insertionSymbol text⟩
      exact ⟨insertionRuleEntry, List.mem_of_mem_filter (hB.insertionRule_mem hr hins), _, rfl⟩

end Stages

/-- The check that is asked to look for undefined names accepts just the closed grammars, and the rules that are
built, however the grammar is simplified, are closed and define every name that the text defines. -/
theorem isClosed_of_ofSource (source : String) :
    (∀ g, Grammar.read source = .ok g ∨ Grammar.understood source = .ok g → (g.check true = .ok () ↔ g.IsClosed)) ∧
    ∀ options B, options.checkUndefinedNonterminals = true → Bnf.ofSource source options = .ok B →
      B.IsClosed ∧ ∃ g, Grammar.understood source = .ok g ∧ ∀ n ∈ g.defined, B.Defines n := by
  refine ⟨fun g h => Grammar.check_eq_ok_iff_isClosed h, fun options B hcheck hB => ?_⟩
  obtain ⟨g₀, g, rootLabel, b, J, J', m, hu, hc, hs, hbuilt⟩ := exists_stages_of_bnf_ofSource hB
  rw [hcheck] at hc
  refine ⟨hs.isClosed hbuilt hc, g₀, hu, fun n hn => ?_⟩
  rw [hs.understood.holds.defined_eq, names_eq hs.understood.holds] at hn
  obtain ⟨t, ht, rfl⟩ := List.mem_map.mp hn
  obtain ⟨ht, hr⟩ := List.mem_filter.mp ht
  exact hs.defines hbuilt ⟨t, ht, hr, rfl⟩

theorem isClosed_of_ofSource_group : ∃ g B, Grammar.understood "s: (a; )*. a: +'x'." = .ok g ∧
    g.check true = .ok () ∧ g.IsClosed ∧ Bnf.ofSource "s: (a; )*. a: +'x'." {} = .ok B ∧
      B.IsClosed ∧ ∀ n ∈ g.defined, B.Defines n := by
  obtain ⟨hcheck, hrules⟩ := isClosed_of_ofSource "s: (a; )*. a: +'x'."
  obtain ⟨g, hg, hok⟩ := exists_eq_ok_and (x := Grammar.understood "s: (a; )*. a: +'x'.")
    (p := fun g => (g.check true).isOk) (by decide +kernel)
  obtain ⟨⟨⟩, hok⟩ := exists_eq_ok hok
  obtain ⟨B, hB⟩ := exists_eq_ok (x := Bnf.ofSource "s: (a; )*. a: +'x'." {}) (by decide +kernel)
  obtain ⟨hclosed, g', hg', hdefined⟩ := hrules {} B rfl hB
  obtain rfl : g = g' := Except.ok.inj (hg.symm.trans hg')
  exact ⟨g, B, hg, hok, (hcheck g (.inr hg)).mp hok, hB, hclosed, hdefined⟩

end Ixml
