import Ixml.Proofs.Ambiguity.RuleTrees
import Ixml.Proofs.Ambiguity.Steps
import Ixml.Proofs.Compile.Strategies

/-!
# A compile introduces no ambiguity

The tallies of the parse trees bound the rules of the grammar that is understood, steps of simplification keep such
bounds, and so do the rules that are built (`IsBuilt.bounded`). So a text with a single parse tree has a single
derivation tree (`existsUnique_tree`).
-/

namespace Ixml

open Layout Simplify Tally

namespace Bnf.OfGrammar

variable {rootLabel : Label} {b g : Grammar} {J W : List Layout} {m : Nat} {B : Bnf} {ρ : String → Tally Char}
  {t : Layout} {r : Rule} {rs : List Rule} {ss : List Symbol} {n : String}

/-! ### Factors and rules -/

theorem prod_tally_terminals (f : Nat → Attributes) (text : List Char) :
    ((text.mapIdx fun i c => Symbol.terminal (.char c) (f i)).map (Symbol.tally ρ)).prod = indicator {text} := by
  induction text generalizing f with
  | nil => exact indicator_one.symm
  | cons c text ih =>
    have hc : (Symbol.terminal (.char c) (f 0)).tally ρ = indicator {[c]} := by
      rw [Symbol.tally]
      congr 1
      ext w
      constructor
      · rintro ⟨d, hd, rfl⟩
        rw [Matcher.accepts, beq_iff_eq] at hd
        rw [hd]
        rfl
      · rintro rfl
        exact ⟨c, beq_self_eq_true c, rfl⟩
    rw [List.mapIdx_cons, List.map_cons, List.prod_cons, ih fun i => f (i + 1), hc, indicator_mul_indicator]
    rfl

theorem tally_becomes (h : Becomes g t ss) (hins : ρ insertionRule = 1) :
    (ss.map (Symbol.tally ρ)).prod = t.erase.tally ρ := by
  cases h with
  | @nonterminal i l ts hk =>
    rw [erase_node, Tree.tally_of_nonterminal hk, List.map_singleton, List.prod_singleton]
    rfl
  | @literal i l ts mark value hk =>
    rw [erase_node, Tree.tally_of_isFlat (by rw [hk]; rfl) (by rw [hk]; rfl), literalSymbols, prod_tally_terminals]
    simp only [Sense.strings, hk]
  | @insertion i l ts value hk =>
    rw [erase_node, Tree.tally_of_isFlat (by rw [hk]; rfl) (by rw [hk]; rfl), List.map_singleton, List.prod_singleton]
    simp only [Sense.strings, hk, indicator_one]
    exact hins
  | @set i l ts mark inclusion s description hk hs hd =>
    have hflat : l.kind.isNonterminal = false ∧ l.kind.isFlat = true := by
      rw [hk]
      cases inclusion <;> exact ⟨rfl, rfl⟩
    have hmem (c : Char) : s.contains c = true ↔ ∃ t ∈ ts.map erase, t.kind.Admits c := by
      rw [hs]
      simp
    rw [erase_node, Tree.tally_of_isFlat hflat.1 hflat.2, List.map_singleton, List.prod_singleton, Symbol.tally]
    congr 1
    ext w
    cases inclusion with
    | true =>
      simp only [Sense.strings, hk, Construct.setOf, if_true]
      show (∃ c, (s.contains c == true) = true ∧ w = [c]) ↔ ∃ c, w = [c] ∧ ∃ t ∈ ts.map erase, t.kind.Admits c
      simp only [← hmem, beq_true, and_comm]
    | false =>
      simp only [Sense.strings, hk, Construct.setOf, Bool.false_eq_true, if_false]
      show (∃ c, (s.contains c == false) = true ∧ w = [c]) ↔ ∃ c, w = [c] ∧ ¬∃ t ∈ ts.map erase, t.kind.Admits c
      simp only [← hmem, beq_false, Bool.not_eq_true, Bool.not_eq_true', and_comm]

theorem tally_parts {cs : List Layout} {parts : List (List Symbol)} (hcs : List.Forall₂ (Becomes g) cs parts)
    (hins : ρ insertionRule = 1) :
    (parts.flatten.map (Symbol.tally ρ)).prod = (cs.map fun c => c.erase.tally ρ).prod := by
  induction hcs with
  | nil => rfl
  | cons hc _ ih =>
    rw [List.flatten_cons, List.map_append, List.prod_append, List.map_cons, List.prod_cons, ih, tally_becomes hc hins]

/-- A rule has as many ways as the canonical rule that it comes from. -/
theorem share_becomesRule (hb : BecomesRule g t r) (hp : t.Every (Proper m)) (hr : t.kind.isRule = true)
    (hc : Canonical t) (hins : ρ insertionRule = 1) : r.share ρ n = t.erase.share ρ n := by
  obtain ⟨a, parts, ha, hparts, hrhs⟩ := hb.rhs
  obtain ⟨a₁, ha₁, hk, -⟩ := hc.isFlat hp hr
  obtain rfl : a = a₁ := by rw [ha₁] at ha; simpa using ha.symm
  obtain ⟨i, l, ts⟩ := t
  obtain rfl : ts = [a] := ha₁
  obtain ⟨j, k, cs⟩ := a
  have hname : r.name = l.nameText := hb.name_eq
  rw [Rule.share, hname, hrhs, tally_parts hparts hins]
  by_cases hn : l.nameText = n
  · rw [if_pos hn, share_rule (l := l) hr hn, tally_erase (l := k) hk rfl]
    rfl
  · rw [if_neg hn, share_of_ne hn]

/-! ### All rules -/

theorem total_filter_isRule : total ρ n (J.filter (·.kind.isRule)) = total ρ n J := by
  induction J with
  | nil => rfl
  | cons t J ih =>
    rw [total_cons, List.filter_cons]
    split
    · rw [total_cons, ih]
    · next hr => rw [share_eq_zero fun h => hr h.1, zero_add, ih]

theorem sum_share_eq_total {T : List Layout} (hrs : List.Forall₂ (BecomesRule g) T rs)
    (hT : ∀ t ∈ T, t.Every (Proper m) ∧ t.kind.isRule = true ∧ Canonical t) (hins : ρ insertionRule = 1) :
    (rs.map (Rule.share ρ n)).sum = total ρ n T := by
  induction hrs with
  | nil => rfl
  | @cons t r T rs hb _ ih =>
    obtain ⟨hp, hr, hc⟩ := hT t (List.mem_cons_self ..)
    rw [List.map_cons, List.sum_cons, total_cons, share_becomesRule hb hp hr hc hins,
      ih fun t ht => hT t (List.mem_cons_of_mem _ ht)]

/-- What bounds the canonical rules bounds the rules that are built, with one way for the rule of insertions. -/
theorem IsBuilt.bounded (hB : IsBuilt g J B) (hS : Stock.Sound ⟨J, m⟩) (hcan : ∀ t ∈ J, Canonical t)
    (hρ : Stock.Bounded ⟨J, m⟩ ρ) : B.Bounded (Function.update ρ insertionRule 1) := by
  obtain ⟨rs, hrs, hrules⟩ := hB.rules
  have hfresh : ∀ t ∈ J, t.Every fun l _ => l.nameText ≠ insertionRule := fun t ht =>
    (hS.proper t ht).mono fun _ _ hp => nameText_ne_insertionRule hp
  have hrule : ∀ t ∈ J.filter (·.kind.isRule), t.Every (Proper m) ∧ t.kind.isRule = true ∧ Canonical t := fun t ht => by
    obtain ⟨ht, hr⟩ := List.mem_filter.mp ht
    exact ⟨hS.proper t ht, hr, hcan t ht⟩
  have hsum (n : String) : (rs.map (Rule.share (Function.update ρ insertionRule 1) n)).sum = total ρ n J := by
    rw [sum_share_eq_total hrs hrule (Function.update_self ..), total_filter_isRule, total_update hfresh]
  have hentry : insertionRuleEntry.share (Function.update ρ insertionRule 1) insertionRule = 1 := if_pos rfl
  intro n
  have hle : (B.rules.map (Rule.share (Function.update ρ insertionRule 1) n)).sum ≤
      total ρ n J + insertionRuleEntry.share (Function.update ρ insertionRule 1) n := by
    rw [hrules]
    split
    · rw [List.map_append, List.sum_append, hsum, List.map_singleton, List.sum_singleton]
    · rw [hsum]
      exact le_add_of_nonneg_right (zero_le _)
  refine hle.trans ?_
  by_cases hn : n = insertionRule
  · subst hn
    rw [hentry, total_eq_zero fun t ht => name_ne_of_every (hfresh t ht), zero_add, Function.update_self]
  · have hzero : insertionRuleEntry.share (Function.update ρ insertionRule 1) n = 0 := if_neg (Ne.symm hn)
    rw [hzero, add_zero, Function.update_of_ne hn]
    exact bounded_iff.mp hρ n

end Bnf.OfGrammar

open Bnf.OfGrammar

variable {rootLabel : Label} {b g₀ g : Grammar} {J J' : List Layout} {m : Nat} {source : String} {options : Options}
  {B : Bnf} {n : String} {w : List Char}

/-- Tallies of the rules that are built which, for all names that are not made up, are those of the parse trees. -/
theorem Stages.exists_bounded (h : Stages rootLabel b J J' m g₀ g) (hB : IsBuilt g J' B) :
    ∃ ρ, B.Bounded ρ ∧ ∀ n, ¬IsMade n → ρ n = count (g₀.parses n) Parse.yield := by
  have hfit : ∀ r ∈ g₀.forest, r.Every fun l ks => l.kind.fits ks = true := by
    rw [h.understood.holds.forest_eq]
    intro r hr
    obtain ⟨t, ht, rfl⟩ := List.mem_map.mp hr
    exact Every.mono (h.understood.shape t ht) fun _ _ h => h.1
  have hbounded := bounded_count hfit
  rw [h.understood.holds.forest_eq] at hbounded
  have hfresh : ∀ t ∈ J, t.Every fun l _ => l.nameText ≠ emptyRule := fun t ht =>
    Every.mono (h.understood.shape t ht) fun _ _ h he => h.2 (he ▸ isMade_emptyRule)
  have hstart : Stock.Bounded ⟨J, b.madeUp⟩
      (Function.update (fun n => count (g₀.parses n) Parse.yield) emptyRule 1) := by
    rw [bounded_iff]
    intro n
    rw [total_update hfresh]
    by_cases hn : n = emptyRule
    · subst hn
      rw [total_eq_zero fun t ht => name_ne_of_every (hfresh t ht)]
      exact Tally.zero_le _
    · rw [Function.update_of_ne hn, Grammar.parses, h.understood.holds.forest_eq]
      exact (bounded_iff (S := ⟨J, b.madeUp⟩)).mp hbounded n
  obtain ⟨ρ, hρ, -, heq⟩ := exists_bounded_of_steps h.steps h.understood.sound hstart (Function.update_self ..)
  refine ⟨_, hB.bounded h.sound h.canonical hρ, fun n hn => ?_⟩
  have hne : n ≠ insertionRule := fun he => hn (he ▸ isMade_insertionRule)
  have hne' : n ≠ emptyRule := fun he => hn (he ▸ isMade_emptyRule)
  rw [Function.update_of_ne hne, heq n hn, Function.update_of_ne hne']

theorem Stages.existsUnique_tree (h : Stages rootLabel b J J' m g₀ g) (hB : IsBuilt g J' B) (hn : ¬IsMade n)
    (hp : ∃! p, p ∈ g₀.parses n ∧ p.yield = w) : ∃! t, t ∈ B.trees n ∧ t.yield = w := by
  obtain ⟨p, ⟨hp, rfl⟩, hone⟩ := hp
  obtain ⟨ρ, hρ, heq⟩ := h.exists_bounded hB
  have hw : ρ n p.yield ≤ 1 := by
    rw [heq n hn]
    refine Set.encard_le_one_iff.mpr fun q q' hq hq' => ?_
    rw [hone q hq, hone q' hq']
  have hmem := yield_mem_language hp
  rw [← h.language_eq hB hn] at hmem
  obtain ⟨t, ht, hyield⟩ := Bnf.mem_language_iff_exists_tree.mp hmem
  exact ⟨t, ⟨ht, hyield⟩, fun u hu => Bnf.tree_unique hρ hw hu.1 ht hu.2 hyield⟩

/-- If a text has exactly one parse tree in the grammar of a source text, it has exactly one derivation tree in the
rules that are built from it. This holds for the start symbol, which is a name of the source, and for every other
name of it. -/
theorem existsUnique_tree_of_ofSource (h : Bnf.ofSource source options = .ok B) :
    ∃ g₀, Grammar.understood source = .ok g₀ ∧ (∃ rule ∈ g₀.rules, g₀.nameText rule = B.startName) ∧
      g₀.start = some B.startName ∧ ∀ rule ∈ g₀.rules, ∀ w : List Char,
        (∃! p, p ∈ g₀.parses (g₀.nameText rule) ∧ p.yield = w) →
          ∃! t, t ∈ B.trees (g₀.nameText rule) ∧ t.yield = w := by
  obtain ⟨g, hg, hB⟩ := bnf_ofSource_eq_ok_iff.mp h
  obtain ⟨g₀, rootLabel, b, J, J', m, hu, hs⟩ := exists_stages_of_ofSource hg
  obtain ⟨B', hB', hbuilt⟩ := hs.exists_isBuilt
  obtain rfl : B = B' := Except.ok.inj (hB.symm.trans hB')
  have hstart : g₀.start = some B.startName := by
    obtain ⟨name, l, hname, -, -, hl, hstart⟩ := hs.exists_start_eq hbuilt
    rw [hname, Bnf.startName, hstart, ← hl]
    rfl
  refine ⟨g₀, hu, ?_, hstart, fun rule hrule w hp =>
    hs.existsUnique_tree hbuilt (hs.understood.not_isMade rule hrule) hp⟩
  obtain ⟨t, ht, hr, hn⟩ := hs.understood.exists_start
  rw [← hs.understood.holds.start_eq, hstart] at hn
  refine ⟨t.id, ?_, ?_⟩
  · rw [hs.understood.holds.rules_eq]
    exact List.mem_map_of_mem (List.mem_filter.mpr ⟨ht, hr⟩)
  · rw [(hs.understood.holds.keeps ht).nameText_eq, nameText_of_name hn]

namespace Tree

mutual

/-- Whether a tree is the same as another one, and without pragmas. -/
def isPlainCopy : Tree → Tree → Bool
  | node l ts, node k us =>
    l.kind == k.kind && l.name == k.name && l.isOptional == k.isOptional && l.pragmas.isEmpty && k.pragmas.isEmpty &&
      arePlainCopies ts us

def arePlainCopies : List Tree → List Tree → Bool
  | [], [] => true
  | t :: ts, u :: us => isPlainCopy t u && arePlainCopies ts us
  | _, _ => false

end

mutual

theorem eq_of_isPlainCopy : ∀ {t u : Tree}, t.isPlainCopy u = true → t = u
  | node ⟨_, _, _, _⟩ ts, node ⟨_, _, _, _⟩ us, h => by
    simp only [isPlainCopy, Bool.and_eq_true, beq_iff_eq, List.isEmpty_iff] at h
    obtain ⟨⟨⟨⟨⟨rfl, rfl⟩, rfl⟩, rfl⟩, rfl⟩, h⟩ := h
    rw [eq_of_arePlainCopies h]

theorem eq_of_arePlainCopies : ∀ {ts us : List Tree}, arePlainCopies ts us = true → ts = us
  | [], [], _ => rfl
  | t :: ts, u :: us, h => by
    rw [arePlainCopies, Bool.and_eq_true] at h
    rw [eq_of_isPlainCopy h.1, eq_of_arePlainCopies h.2]

end

end Tree

/-- One or more characters `a`, and perhaps another one at the end. -/
def endedSource : String :=
  "s: 'a'+, ('b' | 'c')?."

/-- A literal between quotes that is kept. -/
def quotedTree (s : String) : Tree :=
  .ofKind (.literal .keep (.quoted s))

/-- The end is absent, or it is one of two alternatives. -/
def endTree : Tree :=
  .ofKind .option [.ofKind .alts [.ofKind .alt [quotedTree "b"], .ofKind .alt [quotedTree "c"]]]

def endedForest : List Tree :=
  [.named (.rule .element none) "s"
    [.ofKind .alts [.ofKind .alt [.ofKind .repeat1 [quotedTree "a"], endTree]]]]

def endedParse : Parse :=
  .reference 0 (.sequence [.alternative 0 (.sequence
    [.repetition [.leaf ['a']], .present [.alternative 0 (.sequence [.leaf ['b']])]])])

section Ended

variable {rules : List Tree} {p : Parse} {ps : List Parse} {s : String}

theorem parsesAll_literal : ParsesAll rules [quotedTree s] ps ↔ ps = [.leaf s.toList] := by
  have hp (p : Parse) : Parses rules (quotedTree s) p ↔ p = .leaf s.toList := by
    rw [quotedTree, Tree.ofKind, parses_of_isFlat rfl rfl]
    exact exists_eq_right
  simp only [parsesAll_singleton, hp, exists_eq_right]

theorem parses_alt_literal : Parses rules (.ofKind .alt [quotedTree s]) p ↔ p = .sequence [.leaf s.toList] := by
  rw [Tree.ofKind, parses_of_isSequence rfl]
  simp only [parsesAll_literal, exists_eq_right]

theorem parses_alts_pair {t u : Tree} : Parses rules (.ofKind .alts [t, u]) p ↔
    (∃ q, p = .alternative 0 q ∧ Parses rules t q) ∨ ∃ q, p = .alternative 1 q ∧ Parses rules u q := by
  rw [Tree.ofKind, parses_of_alts rfl]
  constructor
  · rintro ⟨i, v, q, rfl, hv, hq⟩
    match i, hv with
    | 0, rfl => exact .inl ⟨q, rfl, hq⟩
    | 1, rfl => exact .inr ⟨q, rfl, hq⟩
  · rintro (⟨q, rfl, hq⟩ | ⟨q, rfl, hq⟩)
    · exact ⟨0, t, q, rfl, rfl, hq⟩
    · exact ⟨1, u, q, rfl, rfl, hq⟩

theorem parses_endTree : Parses rules endTree p ↔ p = .absent ∨
    p = .present [.alternative 0 (.sequence [.leaf ['b']])] ∨
      p = .present [.alternative 1 (.sequence [.leaf ['c']])] := by
  rw [endTree, Tree.ofKind, parses_of_option rfl]
  simp [parsesAll_singleton, parses_alts_pair, parses_alt_literal, and_or_left, exists_or]

/-- What remains of the rounds after the first. -/
theorem parsesRounds_literal (h : ParsesRounds rules [quotedTree s] ps) :
    ps = [] ∨ ∃ qs, ps = .leaf s.toList :: qs := by
  rcases parsesRounds_iff.mp h with rfl | ⟨qs, rs, rfl, hqs, -⟩
  · exact .inl rfl
  · rw [parsesAll_literal.mp hqs]
    exact .inr ⟨rs, rfl⟩

theorem mem_parses_endedForest : endedParse ∈ Tree.parses endedForest "s" := by
  refine ⟨0, _, _, rfl, rfl, ⟨rfl, rfl⟩, .sequence rfl (.cons (.alternative (i := 0) rfl rfl (.sequence rfl ?_)) .nil)⟩
  have ha : ParsesAll endedForest [quotedTree "a"] [.leaf ['a']] := parsesAll_literal.mpr rfl
  have hround : Parses endedForest (.ofKind .repeat1 [quotedTree "a"]) (.repetition [.leaf ['a']]) :=
    (parses_of_repeat1 rfl).mpr ⟨[.leaf ['a']], [], rfl, ha, .nil⟩
  exact .cons hround (.cons (parses_endTree.mpr (.inr (.inl rfl))) .nil)

theorem eq_endedParse (hp : p ∈ Tree.parses endedForest "s") (hw : p.yield = ['a', 'b']) : p = endedParse := by
  obtain ⟨i, r, q, rfl, hr, -, hq⟩ := hp
  match i, hr with
  | 0, rfl =>
    obtain ⟨qs, rfl, hqs⟩ := (parses_of_isSequence rfl).mp hq
    obtain ⟨b, rfl, hb⟩ := parsesAll_singleton.mp hqs
    obtain ⟨j, t, a, rfl, ht, ha⟩ := (parses_of_alts rfl).mp hb
    match j, ht with
    | 0, rfl =>
      obtain ⟨fs, rfl, hfs⟩ := (parses_of_isSequence rfl).mp ha
      obtain ⟨f, es, rfl, hf, hes⟩ := parsesAll_cons.mp hfs
      obtain ⟨e, rfl, he⟩ := parsesAll_singleton.mp hes
      obtain ⟨us, vs, rfl, hus, hvs⟩ := (parses_of_repeat1 rfl).mp hf
      obtain rfl := parsesAll_literal.mp hus
      -- a second round would need another `a`, and the end must be there
      rcases parsesRounds_literal hvs with rfl | ⟨vs, rfl⟩ <;> rcases parses_endTree.mp he with rfl | rfl | rfl <;>
        simp [Parse.yield, Parse.yieldAll] at hw
      rfl

end Ended

/-- The repetition, the option and the group have become rules of their own. -/
theorem existsUnique_tree_of_ofSource_ended : ∃ B, Bnf.ofSource endedSource {} = .ok B ∧ B.rules.length = 7 ∧
    ∃! t, t ∈ B.trees "s" ∧ t.yield = ['a', 'b'] := by
  obtain ⟨B, hB, hcheck⟩ := exists_eq_ok_and (x := Bnf.ofSource endedSource {})
    (p := fun B => B.rules.length == 7 && B.startName == "s") (by decide +kernel)
  rw [Bool.and_eq_true, beq_iff_eq, beq_iff_eq] at hcheck
  obtain ⟨g₁, hu₁, hforest⟩ := exists_eq_ok_and (x := Grammar.understood endedSource)
    (p := fun g => Tree.arePlainCopies g.forest endedForest) (by decide +kernel)
  obtain ⟨g₀, hu, ⟨rule, hrule, hn⟩, -, hone⟩ := existsUnique_tree_of_ofSource hB
  obtain rfl : g₁ = g₀ := Except.ok.inj (hu₁.symm.trans hu)
  have hone := hone rule hrule ['a', 'b']
  rw [hn, hcheck.2, Grammar.parses, Tree.eq_of_arePlainCopies hforest] at hone
  exact ⟨B, hB, hcheck.1, hone ⟨endedParse, ⟨mem_parses_endedForest, rfl⟩, fun p hp => eq_endedParse hp.1 hp.2⟩⟩

end Ixml
