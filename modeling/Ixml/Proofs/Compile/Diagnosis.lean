import Ixml.Proofs.Compile.Names
import Ixml.Proofs.Compile.Origins
import Ixml.Proofs.Document.Diagnosis
import Ixml.Proofs.Recogniser.Divisions
import Ixml.Rendering

/-!
# Failures that are well formed

What a failure shows of the rules is their names, which can be written, and their terminals. A terminal that is a single
character is written as a quoted string even if it is one of the two characters that no document may have, and a set is
described as it would be written in a grammar text, with whatever its strings hold. There is nothing else that would
make the document of a failure ill-formed (`isElement_failure_iff`).
-/

namespace Ixml

open Layout Simplify Bnf.OfGrammar
open Xml (IsElement IsText isText_append textOf)

variable {rootLabel : Label} {b g₀ g : Grammar} {J J' : List Layout} {m : Nat} {B : Bnf} {source input : String}
  {options o : Options} {f : Failure} {r : Rule} {x : Symbol} {i : DottedRule} {l : Label} {k : Matcher}
  {showChart inclusion : Bool}

/-! ### Texts of terminals -/

/-- The text of a terminal can be written. -/
def Matcher.IsLegible : Matcher → Prop
  | char c => c ≠ '\uFFFE' ∧ c ≠ '\uFFFF'
  | set _ _ description => IsText description

/-- A member of a set is no string with a character that no document may have. -/
def Construct.IsLegible : Construct → Prop
  | literal _ (.quoted s) => IsText s
  | _ => True

theorem isText_of_inClass {c : Unicode.GeneralCategory} {code : String} (h : c.inClass code = true) : IsText code := by
  have hall : ∀ c ∈ Unicode.GeneralCategory.all, IsText c.code ∧ IsText c.major := by decide
  obtain ⟨hcode, hmajor⟩ := hall c (Unicode.GeneralCategory.mem_all c)
  simp only [Unicode.GeneralCategory.inClass, Bool.or_eq_true, Bool.and_eq_true, beq_iff_eq] at h
  rcases h with (h | h) | ⟨h, -⟩
  · exact h ▸ hcode
  · exact h ▸ hmajor
  · exact h ▸ (by decide : IsText "LC")

theorem TerminalMark.isText_optionalSign (mark : TerminalMark) : IsText mark.optionalSign := by
  cases mark <;> decide

theorem Literal.isText_render_quoted_iff {s : String} : IsText (render (.quoted s)) ↔ IsText s := by
  have hquote : IsText "\"" := by decide
  have hdoubled (c : Char) : IsText (doubled c) ↔ Xml.isChar c = true := by
    unfold doubled
    split
    · next h => rw [beq_iff_eq.mp h]; decide
    · exact Xml.isText_singleton
  simp only [render, isText_append, hquote, true_and, and_true, Xml.isText_join, List.forall_mem_map, hdoubled]
  rfl

/-- The notation of a member of a set. -/
theorem Grammar.isText_member_iff (h : l.kind.isMember = true) : IsText (nodeText l true []) ↔ l.kind.IsLegible := by
  have hcode (c : Char) : IsText ("#" ++ Text.Hex.lower c.toNat) :=
    isText_append.mpr ⟨by decide, Text.Hex.isText_lower _⟩
  unfold nodeText
  cases hk : l.kind with
  | literal mark value =>
    simp only [isText_append, mark.isText_optionalSign, true_and]
    cases value with
    | quoted s => exact Literal.isText_render_quoted_iff
    | coded c => exact iff_of_true (hcode c) trivial
  | range a b =>
    refine iff_of_true ?_ trivial
    have hminus : IsText "-#" := by decide
    simp only [isText_append]
    exact ⟨⟨isText_append.mp (hcode a), hminus⟩, Text.Hex.isText_lower _⟩
  | charClass code =>
    rw [hk, Construct.isMember, CharSet.isCategoryCode, Bool.not_eq_true', List.isEmpty_eq_false_iff_exists_mem] at h
    obtain ⟨c, hc⟩ := h
    exact iff_of_true (isText_of_inClass (CharSet.mem_categoriesOf.mp hc)) trivial
  | _ => simp [hk, Construct.isMember] at h

theorem Grammar.isText_setNotation_iff {ls : List Label} (h : ∀ l ∈ ls, l.kind.isMember = true) :
    IsText (setNotation inclusion ls) ↔ ∀ l ∈ ls, l.kind.IsLegible := by
  have hsign : IsText (if inclusion then "" else "~") := by cases inclusion <;> decide
  have hbrackets : IsText "[" ∧ IsText "]" := by decide
  rw [setNotation, setText, isText_append, isText_append, isText_append, Xml.isText_intercalate_iff (by decide),
    List.forall_mem_map, and_iff_right hsign, and_iff_right hbrackets.1, and_iff_left hbrackets.2]
  exact forall₂_congr fun l hl => isText_member_iff (h l hl)

theorem Grammar.setNotation_ne_empty (ls : List Label) : setNotation inclusion ls ≠ "" := by
  intro h
  have := congrArg String.length h
  simp [setNotation, setText] at this

/-! ### The symbols of the rules -/

namespace Bnf

/-- Every name can be written, and every set of characters has a description. -/
structure IsShowable (B : Bnf) : Prop where
  lhs : ∀ r ∈ B.rules, IsText r.lhs.text
  rhs : ∀ r ∈ B.rules, ∀ x ∈ r.rhs, ∀ n a, x = .nonterminal n a → IsText n
  sets : ∀ r ∈ B.rules, ∀ s inclusion d a, .terminal (.set s inclusion d) a ∈ r.rhs → d ≠ ""

theorem IsShowable.isText_terminal_iff (hB : B.IsShowable) (hr : r ∈ B.rules) {a : Attributes}
    (hx : .terminal k a ∈ r.rhs) : IsText (Symbol.text (.terminal k a)) ↔ k.IsLegible := by
  cases k with
  | char c => exact CharSet.isText_memberText_iff
  | set s inclusion d =>
    have hne : d.isEmpty = false := by simpa using hB.sets r hr s inclusion d a hx
    rw [Symbol.text, Matcher.text, hne]
    rfl

end Bnf

theorem DottedRule.isText_text_iff : IsText i.text ↔ IsText i.rule.lhs.text ∧ ∀ x ∈ i.rule.rhs, IsText x.text := by
  have hends : IsText " ::=" ∧ IsText " •" ∧ IsText " " ∧ IsText " (" ∧ IsText ")" := by decide
  obtain ⟨hsign, hdot, hblank, hopen, hclose⟩ := hends
  have hjoin : IsText (String.join (i.rule.rhs.mapIdx fun index s =>
      (if index = i.dot then " •" else "") ++ " " ++ s.text)) ↔ ∀ x ∈ i.rule.rhs, IsText x.text := by
    have hpart (index : Nat) (s : Symbol) :
        IsText ((if index = i.dot then " •" else "") ++ " " ++ s.text) ↔ IsText s.text := by
      have : IsText (if index = i.dot then " •" else "") := by split <;> simp [hdot]
      rw [isText_append, isText_append, and_iff_right ⟨this, hblank⟩]
    rw [Xml.isText_join]
    constructor
    · intro h x hx
      obtain ⟨n, hn, rfl⟩ := List.mem_iff_getElem.mp hx
      exact (hpart n _).mp (h _ (List.mem_mapIdx.mpr ⟨n, hn, rfl⟩))
    · intro h t ht
      obtain ⟨n, hn, rfl⟩ := List.mem_mapIdx.mp ht
      exact (hpart n _).mpr (h _ (List.getElem_mem hn))
  have hcomplete : IsText (if i.isComplete then " •" else "") := by split <;> simp [hdot]
  have hstart : IsText s!" ({i.start})" := by
    refine isText_append.mpr ⟨isText_append.mpr ⟨?_, Xml.isText_repr _⟩, hclose⟩
    exact hopen
  rw [DottedRule.text, isText_append, isText_append, isText_append, isText_append, hjoin, and_iff_left hstart,
    and_iff_left hcomplete, and_iff_left hsign]

theorem Bnf.OfGrammar.IsBuilt.isShowable (hB : IsBuilt g J B)
    (hJ : ∀ t ∈ J, t.Every fun l _ => IsText l.nameText) : B.IsShowable where
  lhs r hr := by
    rcases hB.exists_of_mem (List.mem_filter.mpr ⟨hr, beq_self_eq_true r.name⟩) with ⟨t, ht, -, hb⟩ | ⟨-, rfl⟩
    · rw [hb.lhs]
      exact (hJ t ht).label
    · exact (by decide : IsText insertionRule)
  rhs r hr x hx n a he := by
    obtain ⟨t, ht, -, -, c, hc, u, hu, xs, hbec, hx⟩ := hB.exists_factor hr hx
    subst he
    rcases hbec.nonterminal_cases hx with ⟨-, rfl, -⟩ | ⟨rfl, -⟩
    · exact ((hJ t ht).factor (by rw [hc]; simp) hu).label
    · exact (by decide : IsText insertionRule)
  sets r hr s inclusion d a hx := by
    obtain ⟨t, ht, -, -, c, hc, u, hu, xs, hbec, hx⟩ := hB.exists_factor hr hx
    obtain ⟨-, -, rfl⟩ := hbec.set_cases hx
    exact Grammar.setNotation_ne_empty _

/-- A set on a right-hand side is a set of the grammar text, and its description shows the members as they were written
there. -/
theorem Stages.exists_set (h : Stages rootLabel b J J' m g₀ g) (hB : IsBuilt g J' B) (hr : r ∈ B.rules) {S : CharSet}
    {d : String} {a : Attributes} (hx : .terminal (.set S inclusion d) a ∈ r.rhs) : ∃ t ∈ g₀.forest, ∃ v ∈ t.leaves,
      (∃ mark, v.kind = .setOf mark inclusion) ∧ (∀ c, S.contains c = true ↔ ∃ u ∈ v.children, u.kind.Admits c) ∧
        (IsText d ↔ ∀ u ∈ v.children, u.kind.IsLegible) := by
  obtain ⟨t, ht, u, hleaf, hk, hreadable, hs, rfl⟩ := h.exists_leaf_of_set hB hr hx
  have hmember : ∀ l ∈ u.children.map label, l.kind.isMember = true :=
    List.forall_mem_map.mpr fun v hv => (hreadable v hv).isMember
  obtain ⟨i, l, ts⟩ := u
  rw [erase_node] at hleaf
  refine ⟨t.erase, ?_, _, hleaf, hk, fun c => ?_, ?_⟩
  · rw [h.understood.holds.forest_eq]
    exact List.mem_map_of_mem ht
  · rw [hs c]
    simp [Tree.children]
  · rw [Grammar.isText_setNotation_iff hmember, children_node]
    simp [Tree.children, kind]

/-! ### What a failure shows -/

/-- The document of a failure shows a terminal: it was possible or, if the chart is shown, it stands in a rule there. -/
def Failure.Shows (f : Failure) (showChart : Bool) (k : Matcher) : Prop :=
  ∃ a, .terminal k a ∈ f.possible ∨ ∃ i ∈ f.shownItems showChart, .terminal k a ∈ i.rule.rhs

namespace Chart

theorem exists_rule_of_itemIn {rules : List Rule} {j : Item} (h : itemIn rules.toArray j = some i) : i.rule ∈ rules := by
  obtain ⟨r, hr, rfl⟩ := Option.map_eq_some_iff.mp h
  rw [List.getElem?_toArray] at hr
  exact List.mem_of_getElem? hr

theorem rule_mem_of_shownItems (h : i ∈ (failure B input).shownItems showChart) : i.rule ∈ B.rules := by
  unfold Failure.shownItems at h
  split at h
  · obtain ⟨row, hrow, hi⟩ := List.mem_flatten.mp h
    obtain ⟨items, -, rfl⟩ := List.mem_map.mp hrow
    obtain ⟨j, -, hj⟩ := List.mem_filterMap.mp hi
    exact exists_rule_of_itemIn hj
  · cases h

theorem exists_rule_of_possible (h : x ∈ (failure B input).possible) :
    x.isTerminal = true ∧ ∃ r ∈ B.rules, x ∈ r.rhs := by
  rcases List.mem_append.mp h with h | h
  · obtain ⟨h, hterminal⟩ := List.mem_filter.mp h
    obtain ⟨j, -, hj⟩ := List.mem_filterMap.mp h
    obtain ⟨r, hr, hx⟩ := Option.bind_eq_some_iff.mp hj
    rw [List.getElem?_toArray] at hr
    exact ⟨hterminal, r, List.mem_of_getElem? hr, List.mem_of_getElem? hx⟩
  · obtain ⟨h, hterminal⟩ := List.mem_filter.mp h
    obtain ⟨i, hi, hx⟩ := List.mem_filterMap.mp h
    refine ⟨hterminal, i.rule, ?_, List.mem_of_getElem? hx⟩
    cases hrow : ((failure B input).chart.bind ChartRows.lastRow?) with
    | none =>
      rw [hrow] at hi
      cases hi
    | some row =>
      rw [hrow] at hi
      obtain ⟨rows, hrows, hlast⟩ := Option.bind_eq_some_iff.mp hrow
      have hmem : row ∈ rows := List.mem_reverse.mp (List.mem_of_find?_eq_some hlast)
      have hshown : i ∈ (failure B input).shownItems true := by
        rw [Failure.shownItems, hrows]
        exact List.mem_flatten.mpr ⟨row, hmem, hi⟩
      exact rule_mem_of_shownItems hshown

/-- What a failure shows of rules that can be shown is legible if the terminals are. -/
theorem isText_shown_iff (hB : B.IsShowable) :
    ((∀ x ∈ (failure B input).possible, IsText x.text) ∧
        ∀ i ∈ (failure B input).shownItems showChart, IsText i.text) ↔
      ∀ k, (failure B input).Shows showChart k → k.IsLegible := by
  constructor
  · rintro ⟨hpossible, hitems⟩ k ⟨a, hk | ⟨i, hi, hk⟩⟩
    · obtain ⟨-, r, hr, hx⟩ := exists_rule_of_possible hk
      exact (hB.isText_terminal_iff hr hx).mp (hpossible _ hk)
    · have htext := (DottedRule.isText_text_iff.mp (hitems i hi)).2 _ hk
      exact (hB.isText_terminal_iff (rule_mem_of_shownItems hi) hk).mp htext
  · intro h
    refine ⟨fun x hx => ?_, fun i hi => ?_⟩
    · obtain ⟨hterminal, r, hr, hmem⟩ := exists_rule_of_possible hx
      cases x with
      | nonterminal n a => cases hterminal
      | terminal k a => exact (hB.isText_terminal_iff hr hmem).mpr (h k ⟨a, .inl hx⟩)
    · have hr := rule_mem_of_shownItems hi
      refine DottedRule.isText_text_iff.mpr ⟨hB.lhs _ hr, fun x hx => ?_⟩
      cases x with
      | nonterminal n a => exact hB.rhs _ hr _ hx n a rfl
      | terminal k a => exact (hB.isText_terminal_iff hr hx).mpr (h k ⟨a, .inr ⟨i, hi, hx⟩⟩)

end Chart

/-! ### Documents of failures -/

theorem Bnf.outcome_of_notMem (h : input.toList ∉ B.language B.startName) (o : Options) :
    B.outcome o input = .refused (Chart.failure B input) := by
  have hnone : Recognition.parse? B input = none := by
    rw [← Option.not_isSome_iff_eq_none, Recognition.isSome_parse?_iff]
    exact h
  rw [Bnf.outcome, hnone]

/-- Where a single rule with a single terminal is all, only its characters are recognised. -/
theorem Bnf.outcome_of_terminal {a : Attributes} (hB : B.rules = [r]) (hr : r.rhs = [.terminal k a])
    (h : ∀ c, input.toList = [c] → ¬k.accepts c = true) (o : Options) :
    B.outcome o input = .refused (Chart.failure B input) := by
  refine Bnf.outcome_of_notMem (fun hmem => ?_) o
  obtain ⟨r', hr', hgen⟩ := Bnf.mem_language_iff.mp hmem
  obtain rfl : r' = r := List.mem_singleton.mp (hB ▸ List.mem_of_mem_filter hr')
  rw [hr] at hgen
  generalize input.toList = w at h hgen
  cases hgen with
  | terminal hc hnil =>
    cases hnil
    exact h _ rfl hc

/-- The one sentence is a single character. -/
def characterBnf (c : Char) : Bnf where
  rules := [⟨.nonterminal "s" ⟨[("mark", "^"), ("name", "s")]⟩, [.terminal (.char c) ⟨[("tmark", "^")]⟩]⟩]
  start := .nonterminal "s" ⟨[("mark", "^"), ("name", "s")]⟩

theorem outcome_characterBnf {c : Char} (h : input.toList ≠ [c]) (o : Options) :
    (characterBnf c).outcome o input = .refused (Chart.failure (characterBnf c) input) := by
  refine Bnf.outcome_of_terminal rfl rfl (fun d hd hc => h ?_) o
  rw [hd, beq_iff_eq.mp hc]

/-- A failure of a grammar is what is known of it where the grammar does not have the input. -/
theorem Bnf.eq_failure_of_outcome (h : B.outcome o input = .refused f) : f = Chart.failure B input := by
  unfold Bnf.outcome at h
  split at h
  · cases h
  · exact (Outcome.refused.inj h).symm

/-- The document of a failure is a well-formed element, and its events hand on characters of XML only, if and only if
every terminal that it shows is legible. A set that it shows is one of the grammar text, and is legible if and only if
its strings hold characters of XML only. -/
theorem isElement_failure_iff (h : Bnf.ofSource source options = .ok B) (ho : B.outcome o input = .refused f) :
    (IsElement (textOf (f.document o.showChart)) ↔ ∀ e ∈ f.document o.showChart, e.IsText) ∧
    ((∀ e ∈ f.document o.showChart, e.IsText) ↔ ∀ k, f.Shows o.showChart k → k.IsLegible) ∧
    ∃ g, Grammar.understood source = .ok g ∧ ∀ s inclusion d, f.Shows o.showChart (.set s inclusion d) →
      ∃ t ∈ g.forest, ∃ v ∈ t.leaves, (∃ mark, v.kind = .setOf mark inclusion) ∧
        (∀ c, s.contains c = true ↔ ∃ u ∈ v.children, u.kind.Admits c) ∧
          (IsText d ↔ ∀ u ∈ v.children, u.kind.IsLegible) := by
  obtain ⟨g₀, g, rootLabel, b, J, J', m, hu, -, hs, hbuilt⟩ := exists_stages_of_bnf_ofSource h
  have hnames := every_name_of_steps hs.steps (fun X n hX => hX.isText) Xml.isText_empty
    (by decide : IsText emptyRule) hs.understood.texts
  obtain rfl := Bnf.eq_failure_of_outcome ho
  obtain ⟨helement, htext⟩ := (Chart.failure B input).isText_document_iff o.showChart
  refine ⟨helement, htext.trans (Chart.isText_shown_iff (hbuilt.isShowable hnames)), g₀, hu, ?_⟩
  rintro s inclusion d ⟨a, hx | ⟨i, hi, hx⟩⟩
  · obtain ⟨-, r, hr, hx⟩ := Chart.exists_rule_of_possible hx
    exact hs.exists_set hbuilt hr hx
  · exact hs.exists_set hbuilt (Chart.rule_mem_of_shownItems hi) hx

/-- A terminal that is a control character is shown by its code. -/
theorem isElement_failure_iff_control : ∃ B f, Bnf.ofSource "s: #1." {} = .ok B ∧
    B.outcome {} "x" = .refused f ∧ IsElement (textOf (f.document false)) := by
  have hB : Bnf.ofSource "s: #1." {} = .ok (characterBnf '\u0001') := by decide +kernel
  have ho := outcome_characterBnf (c := '\u0001') (by decide : "x".toList ≠ _) {}
  refine ⟨_, _, hB, ho, ?_⟩
  obtain ⟨helement, htext, -⟩ := isElement_failure_iff hB ho
  refine helement.mpr (htext.mpr ?_)
  rintro k ⟨a, hk | ⟨i, hi, -⟩⟩
  · obtain ⟨-, r, hr, hk⟩ := Chart.exists_rule_of_possible hk
    rw [List.mem_singleton.mp hr, List.mem_singleton] at hk
    cases hk
    exact ⟨by decide, by decide⟩
  · cases hi

/-- A terminal that is one of the last two characters of the basic plane is shown as it is. -/
theorem not_isElement_failure : ∃ B f, Bnf.ofSource "s: #fffe." {} = .ok B ∧
    B.outcome {} "x" = .refused f ∧ ¬(∀ e ∈ f.document false, e.IsText) ∧ ¬IsElement (textOf (f.document false)) := by
  have hB : Bnf.ofSource "s: #fffe." {} = .ok (characterBnf '\uFFFE') := by decide +kernel
  have hmem : .terminal (.char '\uFFFE') ⟨[("tmark", "^")]⟩ ∈ (Chart.failure (characterBnf '\uFFFE') "x").possible := by
    decide +kernel
  obtain ⟨helement, htext⟩ := (Chart.failure (characterBnf '\uFFFE') "x").isText_document_iff false
  have hnot : ¬∀ e ∈ (Chart.failure (characterBnf '\uFFFE') "x").document false, e.IsText := fun h =>
    absurd ((htext.mp h).1 _ hmem) (by decide)
  exact ⟨_, _, hB, outcome_characterBnf (by decide) {}, hnot, fun h => hnot (helement.mp h)⟩

end Ixml
