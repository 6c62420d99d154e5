import Ixml.Proofs.Grammar.Completeness
import Ixml.Proofs.Grammar.Soundness
import Ixml.Proofs.Grammar.Understanding

/-!
# What is accepted

Tokens are read as a grammar exactly if they are derived as one (`readTokens_exact`). What is read is the forest
of their greedy derivation, and the store that is built holds it below its root.
-/

namespace Ixml

open Phrase

variable {ts : List Token.Placed} {F : List Tree}

theorem Phrase.IsGrammar.readTokens_eq (h : IsGrammar greedy (ts.map (·.token)) F) :
    Grammar.readTokens ts = .ok F := by
  obtain ⟨rest, hread, -⟩ := h.gives ts rfl
  exact Grammar.readTokens_eq_ok_iff_reader.mpr ⟨rest, hread⟩

/-- What is read is the forest of the greedy derivation, of which there is only one. -/
theorem readTokens_eq_ok_iff : Grammar.readTokens ts = .ok F ↔ IsGrammar greedy (ts.map (·.token)) F := by
  constructor
  · intro h
    obtain ⟨F', hF'⟩ := (isGrammar_of_readTokens h).exists_greedy
    obtain rfl : F = F' := Except.ok.inj (h.symm.trans hF'.readTokens_eq)
    exact hF'
  · exact IsGrammar.readTokens_eq

/-- Every rule has a name. -/
def IsNamed (t : Tree) : Prop :=
  t.kind.isRule = true → t.label.name.isSome = true

theorem isNamed_of_mem_pragmaTrees {ps : List (String × String)} {t : Tree} (h : t ∈ pragmaTrees ps) : IsNamed t := by
  obtain ⟨p, -, rfl⟩ := List.mem_map.mp h
  exact nofun

theorem Phrase.IsRule.isNamed {J : Joint} {us : List Token} {ps : List Tree} {t : Tree} (h : IsRule J ps us t) :
    IsNamed t := by
  obtain ⟨m, name, hs, ht⟩ := h
  exact fun _ => rfl

theorem Phrase.IsRules.isNamed {J : Joint} {us : List Token} (h : IsRules J us F) : ∀ t ∈ F, IsNamed t := by
  induction h with
  | one ps qs hr =>
    intro t ht
    rcases List.mem_append.mp ht with ht | ht
    · exact isNamed_of_mem_pragmaTrees (List.mem_of_mem_filter ht)
    · rcases List.mem_cons.mp ht with rfl | ht
      · exact hr.isNamed
      · exact isNamed_of_mem_pragmaTrees ht
  | cons ps hr hts ih =>
    intro t ht
    rcases List.mem_append.mp ht with ht | ht
    · exact isNamed_of_mem_pragmaTrees (List.mem_of_mem_filter ht)
    · rcases List.mem_cons.mp ht with rfl | ht
      · exact hr.isNamed
      · exact ih t ht

theorem Phrase.IsGrammar.isNamed {J : Joint} {us : List Token} (h : IsGrammar J us F) : ∀ t ∈ F, IsNamed t := by
  cases h with
  | plain h => exact h.isNamed
  | prolog ps qs v h =>
    intro t ht
    rcases List.mem_append.mp ht with ht | ht
    · rcases List.mem_cons.mp ht with rfl | ht
      · exact nofun
      · exact isNamed_of_mem_pragmaTrees ht
    · exact h.isNamed t ht

theorem tree_ofForest (h : ∀ t ∈ F, IsNamed t) :
    (Grammar.ofForest F).tree Grammar.root = .node { kind := .ixml } F := by
  obtain ⟨J, rfl, hJ⟩ := planted_foldl planted_empty h
  obtain ⟨⟨b, ⟨hl, -⟩, -⟩, -⟩ := hJ
  have htree := hl.tree_eq (z := []) (List.mem_singleton_self _)
  rwa [Layout.erase_node] at htree

/-- Tokens are read exactly if they are derived, and the store that is built is the tree of a derivation. -/
theorem readTokens_exact (ts : List Token.Placed) :
    ((∃ F, Grammar.readTokens ts = .ok F) ↔ ∃ F, IsGrammar free (ts.map (·.token)) F) ∧
      ∀ F, Grammar.readTokens ts = .ok F → IsGrammar free (ts.map (·.token)) F ∧
        (Grammar.ofForest F).tree Grammar.root = .node { kind := .ixml } F := by
  have hfree {F : List Tree} (h : Grammar.readTokens ts = .ok F) : IsGrammar free (ts.map (·.token)) F :=
    (readTokens_eq_ok_iff.mp h).mono fun _ _ _ => trivial
  refine ⟨⟨fun ⟨F, h⟩ => ⟨F, hfree h⟩, fun ⟨F, h⟩ => ?_⟩, fun F h => ⟨hfree h, tree_ofForest (hfree h).isNamed⟩⟩
  obtain ⟨F', hF'⟩ := h.exists_greedy
  exact ⟨F', readTokens_eq_ok_iff.mpr hF'⟩

/-- The tokens of `s: a + "x".`, where the plus sign repeats the reference. -/
def plusTokens : List Token.Placed :=
  [.ident "s", .colon, .ident "a", .plus, .string "x", .period].map (⟨·, .start⟩)

def plusForest : List Tree :=
  [.named (.rule .element none) "s" [.ofKind .alts [.ofKind .alt
    [.ofKind .repeat1 [.named (.nonterminal none none) "a"], .ofKind (.literal .keep (.quoted "x"))]]]]

theorem readTokens_exact_plus : Grammar.readTokens plusTokens = .ok plusForest ∧
    IsGrammar free (plusTokens.map (·.token)) plusForest ∧
      (Grammar.ofForest plusForest).tree Grammar.root = .node { kind := .ixml } plusForest :=
  ⟨rfl, (readTokens_exact plusTokens).2 plusForest rfl⟩

end Ixml
