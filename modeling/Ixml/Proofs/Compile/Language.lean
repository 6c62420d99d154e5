import Ixml.Proofs.Compile.Stages
import Ixml.Proofs.Language.Derivations

/-!
# A compile keeps the language

Derivations read as the texts that they match give the sense of texts (`sense_strings`), so that a name derives
in the rules that are built just the texts that it denotes in the grammar that is understood
(`language_of_ofSource`).
-/

namespace Ixml

open Layout Simplify Bnf.OfGrammar

/-- Read derivations as the texts that they match. -/
def Reading.strings : Reading Char where
  token c _ := [c]
  node _ w := w

namespace Reading

mutual

theorem read_strings : ∀ d : Derivation, d.read strings = d.input
  | .matched _ _ => rfl
  | .derived _ ds => readAll_strings ds

theorem readAll_strings : ∀ ds : List Derivation, Derivation.readAll strings ds = Derivation.inputAll ds
  | [] => rfl
  | d :: ds => by rw [Derivation.readAll, Derivation.inputAll, read_strings d, readAll_strings ds]

end

theorem seesThrough_strings : strings.SeesThrough := fun _ _ _ => rfl

theorem sense_strings (attributes : Label → Attributes) : strings.sense attributes = Sense.strings := by
  refine Sense.ext (funext fun l => funext fun ts => ?_) (funext fun l => funext fun L => ?_)
  · simp only [sense, Sense.strings]
    cases l.kind with
    | literal mark value =>
      refine (prod_terminals (fun c _ => c) (fun _ _ => rfl) _ _).trans (congrArg _ ?_)
      exact List.ext_getElem (by simp) (by simp)
    | inclusion mark =>
      ext w
      exact exists_congr fun c => and_comm
    | exclusion mark =>
      ext w
      exact exists_congr fun c => and_comm
    | _ => rfl
  · ext w
    rw [mem_reference]
    show (IsMade l.nameText ∧ w ∈ L) ∨ ¬IsMade l.nameText ∧ (∃ v ∈ L, w = v) ↔ w ∈ L
    rw [exists_eq_right']
    tauto

end Reading

variable {rootLabel : Label} {b g₀ g : Grammar} {J J' : List Layout} {m : Nat} {source : String} {options : Options}
  {B : Bnf} {n : String}

theorem readings_strings : readings Reading.strings B n = B.language n := by
  ext w
  exact exists_congr fun ds => by rw [Reading.readAll_strings]

theorem Simplify.Holds.forest_eq {W : List Layout} (h : Holds rootLabel b J W g) : g.forest = J.map erase := by
  rw [Grammar.forest, h.children_root, List.map_map]
  refine List.map_congr_left fun t ht => ?_
  obtain ⟨A, B, rfl⟩ := List.append_of_mem ht
  obtain ⟨junk, h⟩ := h
  exact h.lays.tree_eq (z := [⟨Grammar.root, rootLabel, A, B⟩]) (List.mem_cons_self ..)

/-- Through all stages the names denote the same, up to those that are made up. -/
theorem Stages.language_eq (h : Stages rootLabel b J J' m g₀ g) (hB : IsBuilt g J' B) (hn : ¬IsMade n) :
    B.language n = g₀.language n := by
  have hne : n ≠ insertionRule := fun he => hn (he ▸ isMade_insertionRule)
  have hread := hB.meaning_eq_readings h.holds h.sound h.canonical Reading.seesThrough_strings
    (A := fun l => (usedSymbol g l).attributes) (fun _ _ => rfl) hne
  have hsteps := meaning_eq_of_steps h.steps (Reading.transparent_sense (R := Reading.strings)
    (A := fun l => (usedSymbol g l).attributes)) h.understood.sound hn
  rw [← readings_strings, ← hread, ← hsteps, Reading.sense_strings, Grammar.language, h.understood.holds.forest_eq]
  rfl

theorem IsUnderstood.not_isMade (h : IsUnderstood rootLabel b J g) : ∀ rule ∈ g.rules, ¬IsMade (g.nameText rule) := by
  rw [h.holds.rules_eq]
  intro rule hrule
  obtain ⟨t, ht, rfl⟩ := List.mem_map.mp hrule
  have ht := List.mem_of_mem_filter ht
  rw [(h.holds.keeps ht).nameText_eq]
  have hshape := h.shape t ht
  obtain ⟨i, l, ts⟩ := t
  exact (every_node.mp hshape).1.2

/-- Every rule of a grammar text derives, in the rules that are built, just the texts that it denotes. -/
theorem language_of_ofSource (h : Grammar.ofSource source options = .ok g) :
    ∃ g₀ B, Grammar.understood source = .ok g₀ ∧ Bnf.ofGrammar g = .ok B ∧
      ∀ rule ∈ g₀.rules, B.language (g₀.nameText rule) = g₀.language (g₀.nameText rule) := by
  obtain ⟨g₀, rootLabel, b, J, J', m, hu, hs⟩ := exists_stages_of_ofSource h
  obtain ⟨B, hB, hbuilt⟩ := hs.exists_isBuilt
  exact ⟨g₀, B, hu, hB, fun rule hrule => hs.language_eq hbuilt (hs.understood.not_isMade rule hrule)⟩

theorem language_of_ofSource_list : ∃ g₀ g B, Grammar.understood "list: ['0'-'9']**','." = .ok g₀ ∧
    Grammar.ofSource "list: ['0'-'9']**','." {} = .ok g ∧ Bnf.ofGrammar g = .ok B ∧
      B.language "list" = g₀.language "list" := by
  obtain ⟨g, hg⟩ := exists_eq_ok (x := Grammar.ofSource "list: ['0'-'9']**','." {}) (by decide +kernel)
  obtain ⟨g₀, B, hu, hB, hl⟩ := language_of_ofSource hg
  have hnames : ((Grammar.understood "list: ['0'-'9']**','.").toOption.map fun g => g.rules.map g.nameText) =
      some ["list"] := by decide +kernel
  rw [hu] at hnames
  obtain ⟨rule, hrule, hn⟩ := List.mem_map.mp ((Option.some.inj hnames).symm ▸ List.mem_singleton_self "list")
  exact ⟨g₀, g, B, hu, hg, hB, hn ▸ hl rule hrule⟩

end Ixml
