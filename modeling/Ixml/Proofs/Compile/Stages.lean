import Ixml.Proofs.Bnf.Build
import Ixml.Proofs.Grammar.Understanding

/-!
# From a text to its rules

A text that compiles goes through the `Stages` of a compile: what is understood is sound, and steps of
simplification lead from it to canonical rules, which the builder accepts (`ofSource_canonical`).
-/

namespace Ixml

open Layout Simplify Bnf.OfGrammar

/-- What stands below the root when a grammar is understood, and what when it is simplified: first `J`, then
`J'`, for which `m` names have been made up. -/
structure Stages (rootLabel : Label) (b : Grammar) (J J' : List Layout) (m : Nat) (g₀ g : Grammar) : Prop where
  understood : IsUnderstood rootLabel b J g₀
  holds : Holds rootLabel { b with madeUp := m } J' [] g
  steps : Relation.ReflTransGen Step ⟨J, b.madeUp⟩ ⟨J', m⟩
  canonical : ∀ t ∈ J', Canonical t

variable {rootLabel : Label} {b g₀ g : Grammar} {J J' : List Layout} {m : Nat} {source : String} {options : Options}

theorem IsUnderstood.exists_stages (h : IsUnderstood rootLabel b J g₀) (strategy : Strategy) :
    ∃ J' m, Stages rootLabel b J J' m g₀ (simplify strategy g₀).grammar := by
  obtain ⟨J', m, hh, hs, hc⟩ :=
    holds_simplify h.holds (by rw [h.root]; exact nofun) h.sound h.isSome_start strategy
  exact ⟨J', m, h, hh, hs, hc⟩

theorem ofSource_eq_ok_iff : Grammar.ofSource source options = .ok g ↔ ∃ g₀, Grammar.understood source = .ok g₀ ∧
    g₀.check options.checkUndefinedNonterminals = .ok () ∧ g = (simplify options.strategy g₀).grammar := by
  unfold Grammar.ofSource
  cases hu : Grammar.understood source with
  | error e => simp [bind, Except.bind]
  | ok g₀ =>
    cases hc : g₀.check options.checkUndefinedNonterminals with
    | error e => simp [bind, Except.bind, hc]
    | ok u => simp [bind, Except.bind, hc, pure, Except.pure, eq_comm]

/-- A text that compiles goes through all stages. -/
theorem exists_stages_of_ofSource (h : Grammar.ofSource source options = .ok g) :
    ∃ g₀ rootLabel b J J' m, Grammar.understood source = .ok g₀ ∧ Stages rootLabel b J J' m g₀ g := by
  obtain ⟨g₀, hu, -, rfl⟩ := ofSource_eq_ok_iff.mp h
  obtain ⟨rootLabel, b, J, hJ⟩ := exists_isUnderstood hu
  obtain ⟨J', m, hs⟩ := hJ.exists_stages options.strategy
  exact ⟨g₀, rootLabel, b, J, J', m, hu, hs⟩

namespace Stages

theorem sound (h : Stages rootLabel b J J' m g₀ g) : Stock.Sound ⟨J', m⟩ :=
  sound_of_steps h.steps h.understood.sound

theorem exists_start (h : Stages rootLabel b J J' m g₀ g) :
    ∃ name, b.start = some name ∧ ∃ t ∈ J', IsRuleNamed name t := by
  obtain ⟨t, ht, hr, hn⟩ := h.understood.exists_start
  obtain ⟨name, hname⟩ := Option.isSome_iff_exists.mp (h.understood.isSome_start)
  have hmem : t.label ∈ J'.map label :=
    (labels_prefix_of_steps h.steps h.understood.sound).subset (List.mem_map_of_mem ht)
  obtain ⟨u, hu, hl⟩ := List.mem_map.mp hmem
  refine ⟨name, hname, u, hu, ?_, ?_⟩
  · rw [kind, hl]
    exact hr
  · rw [hl]
    exact nameText_of_name (hn.trans hname)

theorem exists_isBuilt (h : Stages rootLabel b J J' m g₀ g) : ∃ B, Bnf.ofGrammar g = .ok B ∧ IsBuilt g J' B := by
  obtain ⟨name, hname, hstart⟩ := h.exists_start
  exact exists_ofGrammar_eq_ok h.holds h.sound h.canonical hname hstart

/-- Every rule has a single alternative of flat factors. -/
theorem rules_canonical (h : Stages rootLabel b J J' m g₀ g) : ∀ rule ∈ g.rules, ∃ alt, g.children rule = [alt] ∧
    g.kind alt = .alt ∧ ∀ c ∈ g.children alt, (g.kind c).isFlat = true := by
  rw [h.holds.rules_eq]
  intro rule hrule
  obtain ⟨t, ht, rfl⟩ := List.mem_map.mp hrule
  obtain ⟨ht, hr⟩ := List.mem_filter.mp ht
  obtain ⟨a, ha, hk, hflat⟩ := (h.canonical t ht).isFlat (h.sound.proper t ht) hr
  have hkt := h.holds.keeps ht
  have hka := hkt.child (c := a) (by rw [ha]; exact List.mem_singleton_self a)
  refine ⟨a.id, by rw [hkt.children_eq, ha]; rfl, by rw [hka.kind_eq, hk], fun c hc => ?_⟩
  rw [hka.children_eq] at hc
  obtain ⟨u, hu, rfl⟩ := List.mem_map.mp hc
  rw [(hka.child hu).kind_eq]
  exact hflat u hu

end Stages

theorem bnf_ofSource_eq_ok_iff {B : Bnf} : Bnf.ofSource source options = .ok B ↔
    ∃ g, Grammar.ofSource source options = .ok g ∧ Bnf.ofGrammar g = .ok B := by
  unfold Bnf.ofSource
  cases Grammar.ofSource source options <;> simp [bind, Except.bind]

/-- A text that compiles to rules goes through all stages. -/
theorem exists_stages_of_bnf_ofSource {B : Bnf} (h : Bnf.ofSource source options = .ok B) :
    ∃ g₀ g rootLabel b J J' m, Grammar.understood source = .ok g₀ ∧
      g₀.check options.checkUndefinedNonterminals = .ok () ∧ Stages rootLabel b J J' m g₀ g ∧ IsBuilt g J' B := by
  obtain ⟨g, hg, hbnf⟩ := bnf_ofSource_eq_ok_iff.mp h
  obtain ⟨g₀, hu, hcheck, rfl⟩ := ofSource_eq_ok_iff.mp hg
  obtain ⟨rootLabel, b, J, hJ⟩ := exists_isUnderstood hu
  obtain ⟨J', m, hs⟩ := hJ.exists_stages options.strategy
  obtain ⟨B', hB', hbuilt⟩ := hs.exists_isBuilt
  obtain rfl : B = B' := Except.ok.inj (hbnf.symm.trans hB')
  exact ⟨g₀, _, rootLabel, b, J, J', m, hu, hcheck, hs, hbuilt⟩

/-- A simplified grammar is canonical, the builder accepts it, and to simplify it again, in either way, takes a
single pass and changes nothing; so a text that does not compile is refused before. -/
theorem ofSource_canonical (source : String) (options : Options) :
    (∀ g, Grammar.ofSource source options = .ok g →
      (∀ rule ∈ g.rules, ∃ alt, g.children rule = [alt] ∧ g.kind alt = .alt ∧
        ∀ c ∈ g.children alt, (g.kind c).isFlat = true) ∧
      g.waiting = [] ∧ (∃ B, Bnf.ofGrammar g = .ok B) ∧
      ∀ strategy, simplify strategy g = ⟨g, strategy, [g.rules.length], 0⟩) ∧
    ∀ e, Bnf.ofSource source options = .error e ↔ Grammar.ofSource source options = .error e := by
  have hok (g : Grammar) (h : Grammar.ofSource source options = .ok g) : ∃ B, Bnf.ofGrammar g = .ok B := by
    obtain ⟨g₀, rootLabel, b, J, J', m, -, hs⟩ := exists_stages_of_ofSource h
    obtain ⟨B, hB, -⟩ := hs.exists_isBuilt
    exact ⟨B, hB⟩
  refine ⟨fun g h => ?_, fun e => ?_⟩
  · obtain ⟨g₀, rootLabel, b, J, J', m, -, hs⟩ := exists_stages_of_ofSource h
    exact ⟨hs.rules_canonical, hs.holds.waiting_eq, hok g h, simplify_of_canonical hs.holds hs.canonical⟩
  · unfold Bnf.ofSource
    cases hg : Grammar.ofSource source options with
    | error e' => simp only [bind, Except.bind, Except.error.injEq]
    | ok g =>
      obtain ⟨B, hB⟩ := hok g hg
      simp only [bind, Except.bind, hB, reduceCtorEq]

theorem ofSource_canonical_list : ∃ g, Grammar.ofSource "list: ['0'-'9']**','." {} = .ok g ∧ g.waiting = [] ∧
    (∃ B, Bnf.ofGrammar g = .ok B) ∧ ∀ strategy, simplify strategy g = ⟨g, strategy, [g.rules.length], 0⟩ := by
  obtain ⟨g, hg⟩ := exists_eq_ok (x := Grammar.ofSource "list: ['0'-'9']**','." {}) (by decide +kernel)
  exact ⟨g, hg, ((ofSource_canonical _ {}).1 g hg).2⟩

end Ixml
