import Ixml.Proofs.Document.Rendering
import Ixml.Proofs.Document.Written
import Ixml.Proofs.Recogniser.Choices
import Ixml.Source

/-!
# Choices and the state of a document

A rendering consults its chooser (`consults_visitor`), so that what it counts is decided by the trees that are lowest
throughout. A document reports that it is ambiguous just if it was finished so and the state is not suppressed
(`reportsAmbiguity_document_iff`).
-/

namespace Ixml

namespace Xml

/-- The attributes of the first element. -/
def rootAttributes (es : List Event) : List Attribute :=
  (es.findSome? fun
    | .startElement _ _ _ attributes => some attributes
    | _ => none).getD []

/-- The root has an attribute for states, and one of them is that the document is ambiguous. -/
def ReportsAmbiguity (es : List Event) : Prop :=
  ∃ states, "ambiguous" ∈ states ∧
    .qualified Draft.ixmlNamespace "ixml" "state" (" ".intercalate states) ∈ rootAttributes es

end Xml

theorem mem_toList_intercalate {sep s : String} {ss : List String} {c : Char} (hs : s ∈ ss) (hc : c ∈ s.toList) :
    c ∈ (sep.intercalate ss).toList := by
  induction ss with
  | nil => cases hs
  | cons s' ss ih =>
    cases ss with
    | nil => simpa [List.mem_singleton.mp hs] using hc
    | cons s'' ss =>
      rw [String.intercalate_cons_cons, String.toList_append, String.toList_append]
      rcases List.mem_cons.mp hs with rfl | hs
      · exact List.mem_append_left _ (List.mem_append_left _ hc)
      · exact List.mem_append_right _ (ih hs)

namespace Draft

variable {b : Draft} {states : List String} {head : ElementHead} {children : List Content} {undecided chosen : Bool}
  {es : List Xml.Event}

theorem rootAttributes_document : Xml.rootAttributes (b.document states head children) =
    stateEventAttributes states ++ Content.eventAttributes head := by
  have hdeclare (ds : List (String × String)) (rest : List Xml.Event) :
      Xml.rootAttributes (ds.map (fun d => .declare d.1 d.2) ++ rest) = Xml.rootAttributes rest := by
    induction ds with
    | nil => rfl
    | cons d ds ih => exact ih
  rw [document_eq_rootEvents, List.append_assoc]
  exact hdeclare _ _

/-- The attribute for the states is the only one of its namespace. -/
theorem mem_rootAttributes_document_iff {text : String} :
    .qualified ixmlNamespace "ixml" "state" text ∈ Xml.rootAttributes (b.document states head children) ↔
      states ≠ [] ∧ text = " ".intercalate states := by
  have hplain : .qualified ixmlNamespace "ixml" "state" text ∉ Content.eventAttributes head := fun h => by
    obtain ⟨⟨k, v⟩, -, ha⟩ := List.mem_map.mp h
    have huri : "" = ixmlNamespace := congrArg Xml.Attribute.uri ha
    exact absurd huri (by decide)
  rw [rootAttributes_document, List.mem_append, or_iff_left hplain, stateEventAttributes]
  cases states with
  | nil => simp
  | cons s ss => simp [Xml.Attribute.qualified]

theorem reportsAmbiguity_document_iff {ambiguous : Bool} :
    Xml.ReportsAmbiguity (b.document (b.states ambiguous) head children) ↔
      ambiguous = true ∧ b.options.suppressAmbiguousState = false := by
  simp only [Xml.ReportsAmbiguity, mem_rootAttributes_document_iff]
  constructor
  · rintro ⟨states, hmem, hne, htext⟩
    by_contra hno
    have hnot : (ambiguous && !b.options.suppressAmbiguousState) = false := by
      simpa [Bool.and_eq_true] using hno
    have hg : 'g' ∈ (" ".intercalate states).toList := mem_toList_intercalate hmem (by decide)
    -- the other state does not have all the letters
    rw [htext, Draft.states, hnot, if_neg Bool.false_ne_true, List.nil_append] at hg
    split at hg <;> exact absurd hg (by decide)
  · rintro ⟨rfl, hs⟩
    refine ⟨b.states true, ?_, ?_, rfl⟩ <;> simp [Draft.states, hs]

/-- What is finished is the document of the only root. -/
theorem eq_of_yields_finish {t : Draft} (h : (finish undecided chosen).Yields b (.ok (es, t))) :
    b.stack = [] ∧ ∃ head children, b.top = [.element head children] ∧ t = b ∧
      es = b.document (b.states (if b.options.strictAmbiguity then chosen else undecided)) head children := by
  rcases hs : b.stack with _ | ⟨n, rest⟩
  · have he := h.unique (yields_finish hs undecided chosen)
    split at he
    · next head children htop =>
      cases he
      exact ⟨rfl, head, children, htop, rfl, rfl⟩
    · cases he
  · have herror : (finish undecided chosen).Yields b (.error (.unbalancedEvents (n.symbol ++ " is still open"))) := by
      refine .bind_ok (.current b) ?_
      rw [hs]
      exact .throw _ b
    cases h.unique herror

/-- The draft with strict options, or without. -/
def setStrict (b : Draft) (strict : Bool) : Draft :=
  { b with options := { b.options with strictAmbiguity := strict } }

/-- If there is no undecided choice without a choice, strict options report whatever others do. -/
theorem reportsAmbiguity_setStrict (hle : undecided = true → chosen = true)
    (h : (finish undecided chosen).Yields (b.setStrict false) (.ok (es, b.setStrict false)))
    (hes : Xml.ReportsAmbiguity es) :
    ∃ es', (finish undecided chosen).Yields (b.setStrict true) (.ok (es', b.setStrict true)) ∧
      Xml.ReportsAmbiguity es' := by
  obtain ⟨hstack, head, children, htop, -, rfl⟩ := eq_of_yields_finish h
  have hy := yields_finish (b := b.setStrict true) hstack undecided chosen
  rw [show (b.setStrict true).top = [.element head children] from htop] at hy
  rw [show (b.setStrict false).options.strictAmbiguity = false from rfl, if_neg Bool.false_ne_true,
    reportsAmbiguity_document_iff] at hes
  refine ⟨_, hy, ?_⟩
  rw [show (b.setStrict true).options.strictAmbiguity = true from rfl, if_pos rfl, reportsAmbiguity_document_iff]
  exact ⟨hle hes.1, hes.2⟩

end Draft

namespace Rendering

open Work (left)

theorem consults_visitor : visitor.Consults Rendering.chooser where
  choose rules s i d h := by
    have hy : (onChooser (Chooser.choose rules)).Yields s.state _ := .onPart h
    obtain ⟨ns, hns⟩ := hy s.notes
    exact ⟨_, hns, rfl⟩
  visit e s := by
    show (left (onDraft (Draft.step e) s)).chooser = _
    rw [onDraft, Work.onPart]
    split <;> rfl

end Rendering

namespace Recognition

open Work (left)

section

variable {B : Bnf} {input : String} {r : Recognition} {σ : Type} {v : Visitor σ} {c : σ → Chooser} {s : Noted σ}

theorem Visitor.Consults.decides (hv : v.Consults c) : v.Decides := fun rules s => by
  rcases Nat.lt_or_ge 1 rules.length with hlt | hle
  · obtain ⟨i, tied, hy⟩ := Chooser.exists_yields_choose hlt (c s.state)
    obtain ⟨t, ht, -⟩ := hv.choose rules s i _ hy
    exact ⟨i, t, ht⟩
  · obtain ⟨t, ht, -⟩ := hv.choose rules s 0 _ (Chooser.yields_choose_of_le hle _)
    exact ⟨0, t, ht⟩

theorem chooser_eq_of_subsingleton (hr : parse? B input = some r) (hv : v.Consults c)
    (h : (B.lowest B.startName input.toList).Subsingleton) : c (left (r.walk v s)) = c s.state :=
  (counts_walk hr hv).keeps (Set.not_nontrivial_iff.mpr h) s

/-- A walk that comes to its end has had a choice just if several trees of the input are lowest throughout. -/
theorem hadChoice_iff_of_walk (hr : parse? B input = some r) (hv : v.Consults c) (hs : c s.state = {}) {t : Noted σ}
    (hw : r.walk v s = .ok () t) :
    (c t.state).hadChoice = true ↔ (B.lowest B.startName input.toList).Nontrivial := by
  have hcounts := counts_walk hr hv
  rw [Chooser.hadChoice, decide_eq_true_iff]
  by_cases hmany : (B.lowest B.startName input.toList).Nontrivial
  · have hlt := hcounts.lt hmany s t hw
    rw [hs] at hlt
    exact iff_of_true hlt hmany
  · have hkeeps := hcounts.keeps hmany s
    rw [hw, hs] at hkeeps
    refine iff_of_false ?_ hmany
    rw [show c t.state = {} from hkeeps]
    decide

/-- If an input has exactly one derivation tree, no visitor that consults a fresh chooser has had a choice, wherever its
walk ends. And whatever a chooser is asked, it had an undecided choice only if it had a choice, so that strict options
report every document as ambiguous that others do. -/
theorem no_choice_of_unique_tree :
    (∀ (B : Bnf) (input : String), (∃! t, t ∈ B.trees B.startName ∧ t.yield = input.toList) →
      ∃ r, parse? B input = some r ∧
        ∀ (σ : Type) (v : Visitor σ) (c : σ → Chooser), v.Consults c → ∀ s : Noted σ, c s.state = {} →
          (c (left (r.walk v s))).hadChoice = false ∧ (c (left (r.walk v s))).hadUndecided = false) ∧
    ∀ requests : List Chooser.Request, ∃ d : Chooser,
      (requests.forM Chooser.Request.work).Yields {} (.ok ((), d)) ∧
        (d.hadUndecided = true → d.hadChoice = true) ∧
        ∀ (b : Draft) (es : List Xml.Event),
          (Draft.finish d.hadUndecided d.hadChoice).Yields (b.setStrict false) (.ok (es, b.setStrict false)) →
          Xml.ReportsAmbiguity es →
          ∃ es', (Draft.finish d.hadUndecided d.hadChoice).Yields (b.setStrict true) (.ok (es', b.setStrict true)) ∧
            Xml.ReportsAmbiguity es' := by
  constructor
  · intro B input h
    obtain ⟨t, ht, hone⟩ := id h
    obtain ⟨r, hr⟩ := Option.isSome_iff_exists.mp (isSome_parse?_iff.mpr (Bnf.mem_language_iff_exists_tree.mpr ⟨t, ht⟩))
    refine ⟨r, hr, fun σ v c hv s hs => ?_⟩
    have hsub : (B.lowest B.startName input.toList).Subsingleton := fun u hu u' hu' =>
      h.unique ⟨hu.1, hu.2.1⟩ ⟨hu'.1, hu'.2.1⟩
    rw [chooser_eq_of_subsingleton hr hv hsub, hs]
    exact ⟨rfl, rfl⟩
  · intro requests
    obtain ⟨d, hd, hle⟩ := Chooser.undecided_le_of_requests requests (c := {}) (Nat.le_refl _)
    have himp : d.hadUndecided = true → d.hadChoice = true := fun h =>
      decide_eq_true (Nat.lt_of_lt_of_le (of_decide_eq_true h) hle)
    exact ⟨d, hd, himp, fun b es h hes => Draft.reportsAmbiguity_setStrict himp h hes⟩

end

/-- Two names, one of which stands for one letter, and the other for the same letter or another. -/
def lettersBnf : Bnf :=
  let symbol (n : String) : Symbol := .nonterminal n {}
  let letter (c : Char) : Symbol := .terminal (.char c) {}
  { rules := [⟨symbol "s", [symbol "a"]⟩, ⟨symbol "s", [symbol "b"]⟩, ⟨symbol "a", [letter 'x']⟩,
      ⟨symbol "b", [letter 'x']⟩, ⟨symbol "b", [letter 'y']⟩]
    start := symbol "s" }

theorem trees_lettersBnf : lettersBnf.trees "s" =
    {.node 0 [.node 2 [.leaf 'x']], .node 1 [.node 3 [.leaf 'x']], .node 1 [.node 4 [.leaf 'y']]} := by
  let symbol (n : String) : Symbol := .nonterminal n {}
  let letter (c : Char) : Symbol := .terminal (.char c) {}
  have hs : lettersBnf.rules.zipIdx.filter (·.1.name == "s") =
      [(⟨symbol "s", [symbol "a"]⟩, 0), (⟨symbol "s", [symbol "b"]⟩, 1)] := by decide
  have ha : lettersBnf.rules.zipIdx.filter (·.1.name == "a") = [(⟨symbol "a", [letter 'x']⟩, 2)] := by decide
  have hb : lettersBnf.rules.zipIdx.filter (·.1.name == "b") =
      [(⟨symbol "b", [letter 'x']⟩, 3), (⟨symbol "b", [letter 'y']⟩, 4)] := by decide
  ext t
  simp [Bnf.mem_trees_iff, hs, ha, hb, symbol, letter, Bnf.builds_nonterminal_iff, Bnf.builds_terminal_iff,
    Bnf.builds_nil_iff, Matcher.accepts, and_or_left, exists_or]

/-- The other letter has one tree only. -/
theorem no_choice_of_unique_tree_letters :
    (∃! t, t ∈ lettersBnf.trees lettersBnf.startName ∧ t.yield = "y".toList) ∧ ∃ r, parse? lettersBnf "y" = some r ∧
      ∀ s : Noted Rendering, s.state.chooser = {} →
        (left (r.walk Rendering.visitor s)).chooser.hadChoice = false ∧
          (left (r.walk Rendering.visitor s)).chooser.hadUndecided = false := by
  have hone : ∃! t, t ∈ lettersBnf.trees lettersBnf.startName ∧ t.yield = "y".toList := by
    rw [show lettersBnf.startName = "s" from rfl, trees_lettersBnf]
    refine ⟨.node 1 [.node 4 [.leaf 'y']], ⟨by simp, rfl⟩, ?_⟩
    rintro t ⟨rfl | rfl | rfl, hy⟩
    · cases hy
    · cases hy
    · rfl
  obtain ⟨r, hr, hwalk⟩ := no_choice_of_unique_tree.1 lettersBnf "y" hone
  exact ⟨hone, r, hr, hwalk Rendering Rendering.visitor Rendering.chooser Rendering.consults_visitor⟩

/-! ### Several trees -/

/-- A walk comes to its end unless the visitor fails, and has then had a choice just if several trees of the input are
lowest throughout. In strict mode a document reports just that, unless the state is suppressed. -/
theorem choice_iff_several_lowest {B : Bnf} {input : String} {r : Recognition} (hr : parse? B input = some r) :
    (∀ (σ : Type) (v : Visitor σ) (c : σ → Chooser), v.Consults c → ∀ s : Noted σ, c s.state = {} →
      ((∀ e s, ∃ t, v.visit e s = .ok () t) → ∃ t, r.walk v s = .ok () t) ∧
        ∀ t, r.walk v s = .ok () t →
          ((c t.state).hadChoice = true ↔ (B.lowest B.startName input.toList).Nontrivial)) ∧
    ∀ (o : Options) (es : List Xml.Event), o.strictAmbiguity = true →
      ((Rendering.render r).perform { draft := B.draft o }).1 = .ok es →
        (Xml.ReportsAmbiguity es ↔
          (B.lowest B.startName input.toList).Nontrivial ∧ o.suppressAmbiguousState = false) := by
  constructor
  · intro σ v c hv s hs
    refine ⟨fun hvisit => ?_, fun t hw => hadChoice_iff_of_walk hr hv hs hw⟩
    obtain ⟨es, -, ht⟩ := tells_walk hr hv.decides s
    exact ht.exists_ok hvisit
  · intro o es ho hes
    have hdraft : Rendering.renderer.draft { draft := B.draft o } = B.draft o := rfl
    obtain ⟨ds, states, -, -, hverdict, hstates⟩ := Renderer.verdict_render_states hr hdraft
    rw [← Rendering.render_renderer] at hes
    obtain ⟨t, hw, rfl⟩ := hstates es hes
    obtain ⟨e, -, rfl⟩ := exists_of_map_eq_ok (hverdict.symm.trans hes)
    rw [ho, if_pos rfl, Draft.reportsAmbiguity_document_iff]
    exact and_congr_left' (hadChoice_iff_of_walk hr Rendering.consults_visitor rfl hw)

/-- A visitor that has a chooser and takes no notice of events. -/
def listener : Visitor Chooser where
  choose := Chooser.choose
  visit _ := pure ()

theorem consults_listener : listener.Consults id where
  choose rules s i d h := by
    obtain ⟨ns, hns⟩ := h s.notes
    exact ⟨_, hns, rfl⟩
  visit _ _ := rfl

theorem isLowest_lettersBnf {i j : Nat} {letter : Char}
    (hi : ∀ rule, lettersBnf.rules[i]? = some rule → rule.name = "s") :
    lettersBnf.IsLowest (.node i [.node j [.leaf letter]]) := by
  have hpos (n : String) (t : RuleTree) (ht : t ∈ lettersBnf.trees n) : 1 ≤ t.height := by
    obtain ⟨_, _, us, rfl, -⟩ := ht
    exact Nat.succ_pos _
  have htwo : ∀ t ∈ lettersBnf.trees "s", 2 ≤ t.height := by
    rw [trees_lettersBnf]
    rintro t (rfl | rfl | rfl) <;> decide
  simp only [Bnf.IsLowest, Bnf.IsLowestAll]
  refine ⟨fun rule hrule t ht _ => ?_, ⟨fun rule _ t ht _ => hpos _ t ht, trivial, trivial⟩, trivial⟩
  rw [hi rule hrule] at ht
  exact htwo t ht

/-- The letter that both names stand for has two trees of the same height. -/
theorem choice_iff_several_lowest_letters : ∃ r, parse? lettersBnf "x" = some r ∧
    ∃ t, r.walk listener ⟨{}, []⟩ = .ok () t ∧ t.state.hadChoice = true := by
  have hmany : (lettersBnf.lowest lettersBnf.startName "x".toList).Nontrivial := by
    refine ⟨.node 0 [.node 2 [.leaf 'x']], ⟨?_, rfl, isLowest_lettersBnf (by decide)⟩,
      .node 1 [.node 3 [.leaf 'x']], ⟨?_, rfl, isLowest_lettersBnf (by decide)⟩, by simp⟩
    all_goals
      rw [show lettersBnf.startName = "s" from rfl, trees_lettersBnf]
      simp
  obtain ⟨tree, htree⟩ := hmany.nonempty
  have hin : "x".toList ∈ lettersBnf.language lettersBnf.startName :=
    Bnf.mem_language_iff_exists_tree.mpr ⟨tree, htree.1, htree.2.1⟩
  obtain ⟨r, hr⟩ := Option.isSome_iff_exists.mp (isSome_parse?_iff.mpr hin)
  obtain ⟨hok, hchoice⟩ := (choice_iff_several_lowest hr).1 Chooser listener id consults_listener ⟨{}, []⟩ rfl
  obtain ⟨t, ht⟩ := hok fun _ s => ⟨s, rfl⟩
  exact ⟨r, hr, t, ht, (hchoice t ht).mpr hmany⟩

/-- What two alternatives of different heights compile to. -/
def unevenBnf : Bnf :=
  let symbol (n : String) : Symbol := .nonterminal n ⟨[("mark", "^"), ("name", n)]⟩
  let letter : Symbol := .terminal (.char 'x') ⟨[("tmark", "^")]⟩
  { rules := [⟨symbol "s", [symbol "a"]⟩, ⟨symbol "a", [letter]⟩, ⟨symbol "b", [symbol "c"]⟩, ⟨symbol "c", [letter]⟩,
      ⟨symbol "s", [symbol "b"]⟩]
    start := symbol "s" }

theorem trees_unevenBnf : unevenBnf.trees "s" =
    {.node 0 [.node 1 [.leaf 'x']], .node 4 [.node 2 [.node 3 [.leaf 'x']]]} := by
  let symbol (n : String) : Symbol := .nonterminal n ⟨[("mark", "^"), ("name", n)]⟩
  let letter : Symbol := .terminal (.char 'x') ⟨[("tmark", "^")]⟩
  have hs : unevenBnf.rules.zipIdx.filter (·.1.name == "s") =
      [(⟨symbol "s", [symbol "a"]⟩, 0), (⟨symbol "s", [symbol "b"]⟩, 4)] := by decide
  have ha : unevenBnf.rules.zipIdx.filter (·.1.name == "a") = [(⟨symbol "a", [letter]⟩, 1)] := by decide
  have hb : unevenBnf.rules.zipIdx.filter (·.1.name == "b") = [(⟨symbol "b", [symbol "c"]⟩, 2)] := by decide
  have hc : unevenBnf.rules.zipIdx.filter (·.1.name == "c") = [(⟨symbol "c", [letter]⟩, 3)] := by decide
  ext t
  simp [Bnf.mem_trees_iff, hs, ha, hb, hc, symbol, letter, Bnf.builds_nonterminal_iff, Bnf.builds_terminal_iff,
    Bnf.builds_nil_iff, Matcher.accepts]

/-- An input with two trees, of which one is lower: there is nothing to choose. -/
theorem uneven_trees_without_choice : ∃ B r, Bnf.ofSource "s: a; b. a: 'x'. b: c. c: 'x'." {} = .ok B ∧
    parse? B "x" = some r ∧ {t ∈ B.trees B.startName | t.yield = "x".toList}.Nontrivial ∧
    {t ∈ B.trees B.startName | t.yield = "x".toList}.Finite ∧
    ∃ t, r.walk listener ⟨{}, []⟩ = .ok () t ∧ t.state.hadChoice = false := by
  have hB : Bnf.ofSource "s: a; b. a: 'x'. b: c. c: 'x'." {} = .ok unevenBnf := by decide +kernel
  have hlow : .node 0 [.node 1 [.leaf 'x']] ∈ unevenBnf.trees "s" := by simp [trees_unevenBnf]
  have hhigh : .node 4 [.node 2 [.node 3 [.leaf 'x']]] ∈ unevenBnf.trees "s" := by simp [trees_unevenBnf]
  have hsub : (unevenBnf.lowest unevenBnf.startName "x".toList).Subsingleton := by
    suffices h : ∀ t ∈ unevenBnf.lowest "s" "x".toList, t = .node 0 [.node 1 [.leaf 'x']] from
      fun t ht u hu => (h t ht).trans (h u hu).symm
    rintro t ⟨ht, -, hlowest⟩
    rw [trees_unevenBnf] at ht
    rcases ht with rfl | rfl
    · rfl
    · -- the other tree of the same text is lower
      rw [Bnf.IsLowest] at hlowest
      exact absurd (hlowest.1 _ rfl _ hlow rfl) (by decide)
  have hin : "x".toList ∈ unevenBnf.language unevenBnf.startName := Bnf.mem_language_iff_exists_tree.mpr ⟨_, hlow, rfl⟩
  obtain ⟨r, hr⟩ := Option.isSome_iff_exists.mp (isSome_parse?_iff.mpr hin)
  obtain ⟨es, -, htold⟩ := tells_walk hr consults_listener.decides ⟨{}, []⟩
  obtain ⟨t, ht⟩ := htold.exists_ok fun _ s => ⟨s, rfl⟩
  have hkeeps := chooser_eq_of_subsingleton (s := ⟨{}, []⟩) hr consults_listener hsub
  rw [ht] at hkeeps
  refine ⟨unevenBnf, r, hB, hr, ⟨_, ⟨hlow, rfl⟩, _, ⟨hhigh, rfl⟩, by simp⟩, ?_, t, ht, ?_⟩
  · have hfinite : (unevenBnf.trees "s").Finite := by
      rw [trees_unevenBnf]
      exact Set.toFinite _
    exact hfinite.subset fun t ht => ht.1
  · rw [show t.state = {} from hkeeps]
    rfl

end Recognition

end Ixml
