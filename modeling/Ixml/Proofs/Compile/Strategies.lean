import Ixml.Proofs.Compile.Language
import Ixml.Proofs.Document.Hidden
import Ixml.Proofs.Document.Result
import Ixml.Rendering
import Mathlib.Data.List.Find

/-!
# Strategies are interchangeable

Whatever the strategy, a compile keeps the first rule of every name, the prolog, and what names denote for the
reading without hidden nodes. So the derivations of a text, each drafted and finished, come to the same results
(`results_of_strategies`).
-/

namespace Ixml

open Layout Simplify Bnf.OfGrammar

/-! ### What steps keep -/

namespace Simplify

variable {S S' : Stock} {n : String}

/-- The label of a rule of a given name. -/
def isRuleLabel (n : String) (l : Label) : Bool :=
  l.kind.isRule && l.nameText == n

theorem Step.find?_labels (h : Step S S') (hS : S.Sound) (hn : ¬IsMade n) :
    (S'.tops.map label).find? (isRuleLabel n) = (S.tops.map label).find? (isRuleLabel n) := by
  obtain ⟨ls, he, hls⟩ := h.exists_labels hS
  rw [he, List.find?_append]
  cases hf : (S.tops.map label).find? (isRuleLabel n) with
  | some l => rfl
  | none =>
    rw [Option.none_or, List.find?_eq_none]
    intro l hl hrule
    rw [isRuleLabel, Bool.and_eq_true, beq_iff_eq] at hrule
    rcases hls with hls | ⟨l', rfl, hmade, -⟩
    · obtain ⟨t, ht, he⟩ := hls l hl
      have hk : l.kind = t.label.kind := congrArg (·.1.kind) he
      have hname : l.nameText = t.label.nameText := congrArg Prod.snd he
      refine List.find?_eq_none.mp hf t.label (List.mem_map_of_mem ht) ?_
      rw [isRuleLabel, ← hname, Bool.and_eq_true, beq_iff_eq, ← hk]
      exact hrule
    · rw [List.mem_singleton.mp hl] at hrule
      exact hn (hrule.2 ▸ hmade)

theorem Step.filter_tops (h : Step S S') (hS : S.Sound) :
    (S'.tops.filter fun t => !t.kind.isRule) = S.tops.filter fun t => !t.kind.isRule := by
  cases h with
  | @exchange A B f z t u rs m m' h hf hu =>
    have hrule : (fill (f :: z) t).kind.isRule = true := by
      refine isRule_of_mem_spots (hS.proper _ (by simp)) (hS.top _ (by simp)) (q := none)
        (mem_spots_fill.mpr (Or.inl (top_mem_spots _ t))) h.isCompound
    have hrs : (rs.filter fun t => !t.kind.isRule) = [] := by
      refine List.filter_eq_nil_iff.mpr fun r hr => ?_
      rw [(h.label_rules hr).1]
      exact Bool.false_ne_true
    have hrule' : (fill (f :: z) u).kind.isRule = true := by rwa [kind_fill_cons f z u t]
    simp only [List.filter_append, List.filter_cons, hrule, hrule', hrs, List.append_nil, Bool.not_true,
      Bool.false_eq_true, if_false]
  | @split A B rs i b l k a as m hl hk hrs =>
    have hrs : (rs.filter fun t => !t.kind.isRule) = [] := by
      refine List.filter_eq_nil_iff.mpr fun r hr => ?_
      obtain ⟨v, -, j, rfl⟩ := exists_of_forall₂ hrs hr
      simp [hl]
    simp [List.filter_append, hl, hrs]
  | @shared T r a m hT => simp [List.filter_append, hiddenLabel, Construct.isRule]

theorem find?_labels_of_steps (h : Relation.ReflTransGen Step S S') (hS : S.Sound) (hn : ¬IsMade n) :
    (S'.tops.map label).find? (isRuleLabel n) = (S.tops.map label).find? (isRuleLabel n) := by
  induction h with
  | refl => rfl
  | tail hs h ih => rw [h.find?_labels (sound_of_steps hs hS) hn, ih]

theorem filter_tops_of_steps (h : Relation.ReflTransGen Step S S') (hS : S.Sound) :
    (S'.tops.filter fun t => !t.kind.isRule) = S.tops.filter fun t => !t.kind.isRule := by
  induction h with
  | refl => rfl
  | tail hs h ih => rw [h.filter_tops (sound_of_steps hs hS), ih]

end Simplify

/-! ### What a compile keeps -/

/-- The version that a node of the prolog states. -/
def Construct.version? : Construct → Option String
  | version v => some v
  | _ => none

variable {rootLabel : Label} {b g₀ g : Grammar} {J J' W : List Layout} {m : Nat} {source : String}
  {options : Options} {B : Bnf} {n : String} {l : Label}

theorem version_eq (h : Holds rootLabel b J W g) : g.version =
    ((J.filter fun t => !t.kind.isRule).find? (·.kind == .prolog)).bind fun t =>
      t.children.findSome? (·.kind.version?) := by
  have hfind : (J.filter fun t => !t.kind.isRule).find? (·.kind == .prolog) = J.find? (·.kind == .prolog) := by
    rw [List.find?_filter]
    congr 1
    funext t
    cases hk : t.kind <;> simp [Construct.isRule]
  have hroot : (g.children Grammar.root).find? (fun id => g.kind id == .prolog) =
      (J.find? (·.kind == .prolog)).map Layout.id := by
    rw [h.children_root, List.find?_map]
    refine congrArg _ (List.find?_congr fun t ht => ?_)
    rw [Function.comp_apply, h.kind_eq ht]
  rw [Grammar.version, hroot, hfind]
  cases hf : J.find? (·.kind == .prolog) with
  | none => rfl
  | some t =>
    have hk := h.keeps (List.mem_of_find?_eq_some hf)
    rw [Option.map_some, Option.bind_some, Option.bind_some, hk.children_eq, List.findSome?_map,
      ← List.head?_filterMap, ← List.head?_filterMap]
    refine congrArg _ (List.filterMap_congr fun c hc => ?_)
    rw [Function.comp_apply, Grammar.versionAt?, (hk.child hc).kind_eq]
    rfl

theorem ruleNamed?_eq_find? (h : Holds rootLabel b J W g) (name : String) :
    ruleNamed? g name = (J.map label).find? (isRuleLabel name) := by
  rw [ruleNamed?_eq h, List.find?_map]
  rfl

theorem defaultNamespace_eq (h : Holds rootLabel b J W g) : g.defaultNamespace = b.defaultNamespace := by
  obtain ⟨junk, h⟩ := h
  rw [show g.defaultNamespace = g.bare.defaultNamespace from rfl, h.bare]

theorem toLabel_root (h : Holds rootLabel b J W g) : (g.node Grammar.root).toLabel = rootLabel := by
  obtain ⟨junk, h⟩ := h
  exact h.toLabel_eq (z := []) (List.mem_cons_self ..)

namespace Stages

theorem ruleNamed?_eq (h : Stages rootLabel b J J' m g₀ g) (hn : ¬IsMade n) : ruleNamed? g n = ruleNamed? g₀ n := by
  rw [ruleNamed?_eq_find? h.holds, ruleNamed?_eq_find? h.understood.holds]
  exact find?_labels_of_steps h.steps h.understood.sound hn

theorem start_eq (h : Stages rootLabel b J J' m g₀ g) : g.start = g₀.start := by
  rw [h.holds.start_eq, h.understood.holds.start_eq]

theorem defaultNamespace_eq (h : Stages rootLabel b J J' m g₀ g) : g.defaultNamespace = g₀.defaultNamespace := by
  rw [Ixml.defaultNamespace_eq h.holds, Ixml.defaultNamespace_eq h.understood.holds]

theorem version_eq (h : Stages rootLabel b J J' m g₀ g) : g.version = g₀.version := by
  rw [Ixml.version_eq h.holds, Ixml.version_eq h.understood.holds, filter_tops_of_steps h.steps h.understood.sound]

theorem usedSymbol_eq (h : Stages rootLabel b J J' m g₀ g) (hn : ¬IsMade l.nameText) :
    usedSymbol g l = usedSymbol g₀ l :=
  usedSymbol_congr (h.ruleNamed?_eq hn) h.start_eq h.defaultNamespace_eq

theorem definedSymbol_eq (h : Stages rootLabel b J J' m g₀ g) (hn : ¬IsMade l.nameText) :
    definedSymbol g l = definedSymbol g₀ l := by
  refine definedSymbol_congr (h.ruleNamed?_eq hn) h.start_eq h.defaultNamespace_eq ?_
  exact congrArg Label.pragmas ((toLabel_root h.holds).trans (toLabel_root h.understood.holds).symm)

/-- The start symbol is the one of the first rule. -/
theorem exists_start_eq (h : Stages rootLabel b J J' m g₀ g) (hB : IsBuilt g J' B) :
    ∃ name l, g₀.start = some name ∧ ¬IsMade name ∧ ruleNamed? g₀ name = some l ∧ l.nameText = name ∧
      B.start = definedSymbol g₀ l := by
  obtain ⟨t, ht, hr, hn⟩ := h.understood.exists_start
  obtain ⟨name, hname⟩ := Option.isSome_iff_exists.mp (h.understood.isSome_start)
  have hmade : ¬IsMade name := by
    have hshape := h.understood.shape t ht
    rw [hname] at hn
    rw [← nameText_of_name hn]
    obtain ⟨i, l, ts⟩ := t
    exact (every_node.mp hshape).1.2
  obtain ⟨u, hu, hstart⟩ := hB.start
  have hg : g.start = some name := h.holds.start_eq.trans hname
  have hl : isRuleLabel name u.label = true := by
    have := List.find?_some hu
    rw [hg, Option.some_beq_some] at this
    exact this
  have hnu : u.label.nameText = name := by
    rw [isRuleLabel, Bool.and_eq_true, beq_iff_eq] at hl
    exact hl.2
  refine ⟨name, u.label, h.start_eq.symm.trans hg, hmade, ?_, hnu, ?_⟩
  · rw [← h.ruleNamed?_eq hmade, ruleNamed?_eq_find? h.holds, List.find?_map]
    rw [hg] at hu
    simp only [Option.some_beq_some] at hu
    exact congrArg (Option.map label) hu
  · rw [hstart, h.definedSymbol_eq (by rwa [hnu])]

end Stages

/-! ### Results -/

namespace Bnf

/-- The results of a text: what a fresh draft makes of each of its derivations, when it is finished for given
states of the chooser. -/
def results (B : Bnf) (o : Options) (undecided chosen : Bool) (text : String) : Set (Except Error (List Xml.Event)) :=
  {v | ∃ ds, B.NameDerives B.startName ds ∧ Derivation.inputAll ds = text.toList ∧ v =
    (Work.perform (do
      Draft.follow (Derivation.derived B.start.attributes ds).events
      Draft.finish undecided chosen) (B.draft o)).1}

/-- The results depend on the derivations only by what is left of them without hidden nodes. -/
theorem mem_results {o : Options} {undecided chosen : Bool} {text : String} {v : Except Error (List Xml.Event)}
    (ho : o.showBnfNonterminals = false) : v ∈ B.results o undecided chosen text ↔
      ∃ ds ∈ readings Reading.visible B B.startName, Derivation.inputAll ds = text.toList ∧
        v = (Derivation.root o [.derived B.start.attributes ds]).map fun r =>
          (B.draft o).document ((B.draft o).states (if o.strictAmbiguity then chosen else undecided)) r.1 r.2 := by
  have hverdict (ds : List Derivation) : (Work.perform (do
      Draft.follow (Derivation.derived B.start.attributes ds).events
      Draft.finish undecided chosen) (B.draft o)).1 =
      (Derivation.root o [.derived B.start.attributes (Derivation.readAll Reading.visible ds)]).map fun r =>
        (B.draft o).document ((B.draft o).states (if o.strictAmbiguity then chosen else undecided)) r.1 r.2 := by
    rw [Derivation.root_readAll ho]
    have := Draft.verdict_follow_finish (B.draft o) rfl rfl undecided chosen [.derived B.start.attributes ds]
    simp only [Derivation.eventsAll, List.append_nil] at this
    exact this
  constructor
  · rintro ⟨ds, hds, hin, rfl⟩
    exact ⟨_, ⟨ds, hds, rfl⟩, by rw [Derivation.inputAll_readAll, hin], hverdict ds⟩
  · rintro ⟨_, ⟨ds, hds, rfl⟩, hin, rfl⟩
    exact ⟨ds, hds, by rw [← hin, Derivation.inputAll_readAll], (hverdict ds).symm⟩

end Bnf

/-- Without hidden nodes, a name derives what it denotes in the grammar that is understood. -/
theorem Stages.readings_visible (h : Stages rootLabel b J J' m g₀ g) (hB : IsBuilt g J' B) (hn : ¬IsMade n) :
    readings Reading.visible B n =
      Stock.meaning (Reading.visible.sense fun l => (usedSymbol g₀ l).attributes) ⟨J, b.madeUp⟩ n := by
  have hne : n ≠ insertionRule := fun he => hn (he ▸ isMade_insertionRule)
  rw [meaning_eq_of_steps h.steps Reading.transparent_sense h.understood.sound hn]
  exact (hB.meaning_eq_readings h.holds h.sound h.canonical Reading.seesThrough_visible
    (fun l hl => by rw [h.usedSymbol_eq hl]) hne).symm

/-- If a grammar text compiles with one strategy, it does with every other, and as long as hidden nonterminals are
not shown, every text has the same results. -/
theorem results_of_strategies (strategy strategy' : Strategy) (ho : options.showBnfNonterminals = false)
    (h : Bnf.ofSource source { options with strategy := strategy } = .ok B) :
    ∃ B', Bnf.ofSource source { options with strategy := strategy' } = .ok B' ∧
      ∀ undecided chosen text, B.results options undecided chosen text = B'.results options undecided chosen text := by
  obtain ⟨g, hg, hB⟩ := bnf_ofSource_eq_ok_iff.mp h
  obtain ⟨g₀, hu, hcheck, rfl⟩ := ofSource_eq_ok_iff.mp hg
  obtain ⟨rootLabel, b, J, hJ⟩ := exists_isUnderstood hu
  obtain ⟨J₁, m₁, h₁⟩ := hJ.exists_stages strategy
  obtain ⟨J₂, m₂, h₂⟩ := hJ.exists_stages strategy'
  obtain ⟨B₁, hB₁, hbuilt₁⟩ := h₁.exists_isBuilt
  obtain ⟨B', hB', hbuilt₂⟩ := h₂.exists_isBuilt
  obtain rfl : B = B₁ := Except.ok.inj (hB.symm.trans hB₁)
  refine ⟨B', bnf_ofSource_eq_ok_iff.mpr ⟨_, ofSource_eq_ok_iff.mpr ⟨g₀, hu, hcheck, rfl⟩, hB'⟩, ?_⟩
  obtain ⟨name, l, hname, hn, hl, hln, hs₁⟩ := h₁.exists_start_eq hbuilt₁
  obtain ⟨name', l', hname', -, hl', -, hs₂⟩ := h₂.exists_start_eq hbuilt₂
  obtain rfl : name = name' := Option.some.inj (hname.symm.trans hname')
  obtain rfl : l = l' := Option.some.inj (hl.symm.trans hl')
  have hstart : B.start = B'.start := hs₁.trans hs₂.symm
  have hstartName : B.startName = name := by
    rw [Bnf.startName, hs₁, ← hln]
    rfl
  have hread : readings Reading.visible B B.startName = readings Reading.visible B' B'.startName := by
    rw [show B'.startName = B.startName by rw [Bnf.startName, Bnf.startName, hstart], hstartName,
      h₁.readings_visible hbuilt₁ hn, h₂.readings_visible hbuilt₂ hn]
  have hdraft : B.draft options = B'.draft options := by
    rw [Bnf.draft, Bnf.draft, hbuilt₁.version, hbuilt₂.version, h₁.version_eq, h₂.version_eq,
      hbuilt₁.defaultNamespace, hbuilt₂.defaultNamespace, h₁.defaultNamespace_eq, h₂.defaultNamespace_eq]
  intro undecided chosen text
  ext v
  rw [Bnf.mem_results ho, Bnf.mem_results ho, hread, hstart, hdraft]

theorem results_of_strategies_list : ∃ B B',
    Bnf.ofSource "list: ['0'-'9']**','." { strategy := .spec } = .ok B ∧
      Bnf.ofSource "list: ['0'-'9']**','." { strategy := .alternate } = .ok B' ∧
        ∀ undecided chosen text, B.results {} undecided chosen text = B'.results {} undecided chosen text := by
  obtain ⟨B, hB⟩ := exists_eq_ok (x := Bnf.ofSource "list: ['0'-'9']**','." { strategy := .spec }) (by decide +kernel)
  obtain ⟨B', hB', hr⟩ := results_of_strategies .spec .alternate (show ({} : Options).showBnfNonterminals = false from rfl) hB
  exact ⟨B, B', hB, hB', hr⟩

end Ixml
