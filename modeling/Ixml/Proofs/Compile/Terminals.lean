import Ixml.Proofs.CharSet.Construction
import Ixml.Proofs.Compile.Diagnosis
import Ixml.Proofs.Compile.Single

/-!
# What the notation of a terminal says

A terminal of compiled rules has a notation that is read as a term with the same characters, and so has a set without a
description. So the notation of a terminal compiles to a terminal that accepts the same characters, and terminals with
the same notation, of which an error document lists only one, accept the same characters (`text_denotes`).
-/

namespace Ixml

open Bnf.OfGrammar Phrase

variable {rootLabel : Label} {b g₀ g : Grammar} {J J' : List Layout} {k : Nat} {B : Bnf} {r : Rule} {a : Attributes}
  {m n : Matcher} {source : String} {options : Options}

/-- A terminal on a right-hand side of compiled rules is written as a term that stands for it. -/
theorem Stages.isWritable (h : Stages rootLabel b J J' k g₀ g) (hB : IsBuilt g J' B) (hr : r ∈ B.rules)
    (hx : .terminal m a ∈ r.rhs) : m.IsWritable := by
  cases m with
  | char c => exact Matcher.isWritable_char c
  | set S inclusion d =>
    obtain ⟨-, -, u, -, -, hreadable, hs, rfl⟩ := h.exists_leaf_of_set hB hr hx
    refine Matcher.isWritable_set (List.forall_mem_map.mpr hreadable) fun c => ?_
    rw [hs c]
    simp [Layout.kind]

namespace Matcher

/-- A terminal of compiled rules, or a set without a description, made in any way. -/
inductive Arises : Matcher → Prop
  | compiled {source : String} {options : Options} {B : Bnf} {r : Rule} {m : Matcher} {a : Attributes}
    (hB : Bnf.ofSource source options = .ok B) (hr : r ∈ B.rules) (hm : .terminal m a ∈ r.rhs) : Arises m
  | bare (r : CharSet.Recipe) (inclusion : Bool) : Arises (.set r.set inclusion "")

theorem Arises.isWritable (h : m.Arises) : m.IsWritable := by
  cases h with
  | compiled hB hr hm =>
    obtain ⟨g₀, g, rootLabel, b, J, J', k, -, -, hs, hbuilt⟩ := exists_stages_of_bnf_ofSource hB
    exact hs.isWritable hbuilt hr hm
  | bare r inclusion => exact isWritable_bare r.isSeparated.isOrdered inclusion

theorem IsWritable.exists_ofSource_eq_ok (h : m.IsWritable) (options : Options) :
    ∃ B r m' a, Bnf.ofSource ("s: " ++ m.text ++ ".") options = .ok B ∧ B.rules = [r] ∧ r.name = "s" ∧
      r.rhs = [.terminal m' a] ∧ ∀ c, m'.accepts c = m.accepts c := by
  obtain ⟨t, ht, hs⟩ := h
  have hname : Token.IsSpelt (.ident "s") := Token.isSpelt_ident (by decide) (by decide)
  exact Ixml.exists_ofSource_eq_ok hname ht hs options

theorem IsWritable.accepts_eq (hm : m.IsWritable) (hn : n.IsWritable) (h : n.text = m.text) (c : Char) :
    n.accepts c = m.accepts c := by
  obtain ⟨B, r, m', a, hB, hr, -, hrhs, hm⟩ := hm.exists_ofSource_eq_ok {}
  obtain ⟨B', r', n', a', hB', hr', -, hrhs', hn⟩ := hn.exists_ofSource_eq_ok {}
  rw [h] at hB'
  obtain rfl : B = B' := Except.ok.inj (hB.symm.trans hB')
  obtain rfl : r = r' := List.singleton_inj.mp (hr.symm.trans hr')
  obtain ⟨rfl, -⟩ : m' = n' ∧ a = a' := by simpa using hrhs.symm.trans hrhs'
  rw [← hn, hm]

/-- The notation of a terminal denotes it. As the only term of a rule it compiles, with any options, to a single terminal
that accepts the same characters; another terminal with this notation accepts the same characters, too; and so nothing
is hidden where the document of a failure lists the terminals that were possible by their notation. -/
theorem text_denotes (h : m.Arises) :
    (∀ options, ∃ B r m' a, Bnf.ofSource ("s: " ++ m.text ++ ".") options = .ok B ∧ B.rules = [r] ∧ r.name = "s" ∧
      r.rhs = [.terminal m' a] ∧ ∀ c, m'.accepts c = m.accepts c) ∧
    (∀ n : Matcher, n.Arises → n.text = m.text → ∀ c, n.accepts c = m.accepts c) ∧
    ∀ source options B o input f a, Bnf.ofSource source options = .ok B → B.outcome o input = .refused f →
      .terminal m a ∈ f.possible → m.text ∈ f.permitted ∧
        ∀ n a', .terminal n a' ∈ f.possible → n.text = m.text → ∀ c, n.accepts c = m.accepts c := by
  have hsame : ∀ n : Matcher, n.Arises → n.text = m.text → ∀ c, n.accepts c = m.accepts c :=
    fun n hn hnm => h.isWritable.accepts_eq hn.isWritable hnm
  refine ⟨h.isWritable.exists_ofSource_eq_ok, hsame, fun source options B o input f a hB ho hx => ⟨?_, ?_⟩⟩
  · rw [Failure.mem_permitted, Failure.possibleTexts_eq]
    exact List.mem_map_of_mem hx
  · obtain rfl := Bnf.eq_failure_of_outcome ho
    intro n a' hn hnm
    obtain ⟨-, r, hr, hn⟩ := Chart.exists_rule_of_possible hn
    exact hsame n (.compiled hB hr hn) hnm

/-- The control characters up to the tab, without the null character, as a set of a grammar text. -/
def controls : Matcher :=
  .set (.range '\u0001' '\t') true "[#1-#9]"

def controlsBnf : Bnf where
  rules := [⟨.nonterminal "s" ⟨[("mark", "^"), ("name", "s")]⟩, [.terminal controls ⟨[("tmark", "^")]⟩]⟩]
  start := .nonterminal "s" ⟨[("mark", "^"), ("name", "s")]⟩

/-- A compiled set of control characters has the notation that it would have without its description. -/
theorem text_denotes_control : ∃ B r m a f, Bnf.ofSource "s: [#1-#9]." {} = .ok B ∧ B.rules = [r] ∧
    r.rhs = [.terminal m a] ∧ m.text = "[#1-#9]" ∧ B.outcome {} "x" = .refused f ∧ m.text ∈ f.permitted ∧
    (∃ B r m' a, Bnf.ofSource ("s: " ++ m.text ++ ".") {} = .ok B ∧ B.rules = [r] ∧ r.name = "s" ∧
      r.rhs = [.terminal m' a] ∧ ∀ c, m'.accepts c = m.accepts c) ∧
    ∀ c, (set (CharSet.Recipe.range '\u0001' '\t').set true "").accepts c = m.accepts c := by
  have hB : Bnf.ofSource "s: [#1-#9]." {} = .ok controlsBnf := by decide +kernel
  have ho : controlsBnf.outcome {} "x" = .refused (Chart.failure controlsBnf "x") := by
    refine Bnf.outcome_of_terminal rfl rfl (fun c hc hacc => ?_) {}
    obtain rfl : 'x' = c := (List.cons.inj hc).1
    rw [controls, accepts_set_iff, CharSet.contains_range] at hacc
    exact absurd (hacc.mpr rfl) (by decide)
  have hx : .terminal controls ⟨[("tmark", "^")]⟩ ∈ (Chart.failure controlsBnf "x").possible := by decide +kernel
  obtain ⟨hcompile, hsame, hfailure⟩ :=
    text_denotes (.compiled hB (List.mem_singleton_self _) (List.mem_singleton_self _) : Arises controls)
  exact ⟨_, _, _, _, _, hB, rfl, rfl, rfl, ho, (hfailure _ _ _ _ _ _ _ hB ho hx).1, hcompile {},
    hsame _ (.bare (.range '\u0001' '\t') true) (by decide)⟩

end Matcher

end Ixml
