import Ixml.Proofs.Compile.Names
import Ixml.Proofs.Compile.Stages
import Ixml.Proofs.Document.Rendering
import Ixml.Proofs.Document.Text
import Ixml.Proofs.Recogniser.Walking

/-!
# Results that are well formed

With both checks on, a walk keeps the draft of a result sound, whatever is chosen on the way, since no symbol that it
goes into has a name that cannot be written (`Renderer.ensures_render`). So the text of the result is a well-formed
element but for the two things that no check looks at: the namespace that the grammar states, and an attribute of the
root with the name of the one for the states (`isElement_textOf_iff`).
-/

namespace Ixml

open Xml (IsElement IsText SingleState textOf)

variable {ns : Option String}

namespace Draft

variable {b : Draft}

theorem isText_of_mem_states {s : String} {ambiguous : Bool} (h : s ∈ b.states ambiguous) : IsText s := by
  have hall : ∀ s ∈ ["ambiguous", "version-mismatch"], IsText s := by decide
  refine hall s ?_
  rcases List.mem_append.mp h with h | h
  all_goals split at h <;> simp_all

/-- A draft that is sound and finished gives an element, if its namespace can be written and no other attribute has
been taken for the states. -/
theorem ensures_finish (h : b.IsSound ns) (undecided chosen : Bool) : (finish undecided chosen).Ensures b fun es _ =>
    (IsElement (textOf es) ↔ IsText (ns.getD "") ∧ SingleState es) := by
  refine .current ?_
  split
  · exact .throw _ _
  · rename_i head children hstack htop
    have hroot := h.top
    rw [htop] at hroot
    obtain ⟨hhead, hchildren⟩ := hroot.1
    refine (Work.Ensures.detail _ b).bind fun _ b' _ => .pure ?_
    rw [singleState_document_iff hhead hchildren]
    exact isElement_document_iff h hhead hchildren fun s hs => isText_of_mem_states hs
  · exact .throw _ _

end Draft

variable {σ : Type} {s : σ} {r : Recognition}

namespace Renderer

/-- No choice changes the draft, and no event of a symbol that can be written spoils it. -/
theorem keeps_visitor (c : Renderer σ) : c.visitor.Keeps (Attributes.IsSound ns) fun s => (c.draft s).IsSound ns where
  choose rules s hs := by
    intro notes i t hi
    obtain ⟨i', t', hchoose, hdraft⟩ := c.exists_choose rules ⟨s, notes⟩
    cases hchoose.symm.trans hi
    rwa [hdraft]
  visit e s he hs := by
    have hstep : (Draft.step e).Ensures (c.draft s) fun _ b => b.IsSound ns := by
      refine Draft.ensures_step hs ?_
      rintro a rfl
      exact he
    have hvisit : (c.visitor.visit e).Ensures s fun _ t => ∃ b, b.IsSound ns ∧ t = c.put b s := .onPart hstep
    refine hvisit.mono fun _ t h => ?_
    obtain ⟨b, hb, rfl⟩ := h
    rwa [c.draft_put]

theorem ensures_render (c : Renderer σ) (hr : r.grammar.IsSound)
    (hs : (c.draft s).IsSound r.grammar.defaultNamespace) : (c.render r).Ensures s fun es _ =>
      (IsElement (textOf es) ↔ IsText (r.grammar.defaultNamespace.getD "") ∧ SingleState es) := by
  refine (Recognition.ensures_walk c.keeps_visitor hr.rules hr.start hs).bind fun _ s' hs' => .current ?_
  refine (Work.Ensures.onPart (Draft.ensures_finish hs' _ _)).mono fun es s'' h => ?_
  obtain ⟨b, hes, -⟩ := h
  exact hes

end Renderer

variable {B : Bnf} {source input : String} {options o : Options} {es : List Xml.Event}

theorem Bnf.IsSound.isElement_iff (hB : B.IsSound) (hn : o.assertValidXmlNames = true)
    (hc : o.assertValidXmlCharacters = true) (hr : Recognition.parse? B input = some r) (c : Renderer σ)
    (hs : c.draft s = B.draft o) (he : ((c.render r).perform s).1 = .ok es) :
    IsElement (textOf es) ↔ IsText (B.defaultNamespace.getD "") ∧ SingleState es := by
  obtain rfl := Recognition.grammar_of_parse? hr
  have hdraft : (c.draft s).IsSound r.grammar.defaultNamespace := by
    rw [hs]
    exact ⟨hn, hc, rfl, fun n hn => (List.not_mem_nil hn).elim, trivial⟩
  exact (c.ensures_render hB hdraft).perform he

/-! ### A rule that is empty -/

variable {lhs : Symbol}

namespace Recognition
variable {σ : Type}

/-- Where there is one rule, and it is empty, the empty text is recognised and walked by it. -/
theorem exists_walk_of_emptyRule (h : B.rules = [⟨lhs, []⟩]) (hs : B.start = lhs) (v : Visitor σ) :
    ∃ r, parse? B "" = some r ∧ r.walk v = (v.choose [⟨lhs, []⟩] >>= fun _ =>
      v.visit (.opens lhs.attributes) >>= fun _ => v.visit (.closes lhs.attributes)) := by
  let r₀ : Recognition := { grammar := B, input := #[] }
  let r := r₀.record 1 [⟨lhs.nameText, 0, 0⟩]
  have hfirst : r₀.newSpans 1 = [⟨lhs.nameText, 0, 0⟩] := by
    simp [r₀, newSpans, h, newSpansOf, places, ends, Rule.name]
  have hsecond : r.newSpans 2 = [] := by
    simp [r, r₀, newSpans, h, newSpansOf, places, ends, record, Rule.name]
  have hrounds : ofInput B "" = r := by
    have hfuel : spanCount B 0 = 1 := by simp [spanCount, h]
    show rounds (spanCount B 0 + 1) 1 r₀ = r
    rw [hfuel, rounds, hfirst]
    show rounds 1 2 r = r
    rw [rounds, hsecond]
  have hheight : r.heights[(⟨lhs.nameText, 0, 0⟩ : Span)]? = some 1 := by
    simp [r, r₀, record, Std.HashMap.getElem_insertIfNew]
  have hways : r.ways 1 ⟨lhs.nameText, 0, 0⟩ = [(⟨lhs, []⟩, [])] := by
    simp [ways, r, r₀, record, Bnf.rulesFor, h, Rule.name, divisions, divisionLimit]
  refine ⟨r, ?_, ?_⟩
  · simp [parse?, hrounds, r, r₀, record, whole, Bnf.startName, hs]
  · have hwhole : r.whole = ⟨lhs.nameText, 0, 0⟩ := by
      simp [r, r₀, whole, Bnf.startName, record, hs]
    have hstart : r.grammar.start = lhs := hs
    show walkSymbol r v ((r.heights[r.whole]?).getD 0) r.grammar.start 0 0 = _
    rw [hwhole, hheight, hstart, Option.getD_some, walkSymbol]
    simp only [hheight, hways]
    refine bind_congr fun choice => ?_
    rw [List.length_singleton, Nat.sub_self, Nat.min_zero]
    rfl

end Recognition

/-- A grammar of one rule, which is empty. -/
def emptyRuleBnf (lhs : Symbol) (version ns : Option String) : Bnf where
  rules := [⟨lhs, []⟩]
  start := lhs
  version := version
  defaultNamespace := ns

/-- Such a grammar renders the empty text: the start symbol opens and closes. -/
theorem Rendering.perform_emptyRuleBnf (lhs : Symbol) (version ns : Option String) (o : Options) :
    ∃ r, Recognition.parse? (emptyRuleBnf lhs version ns) "" = some r ∧
      (Rendering.render r).perform { draft := (emptyRuleBnf lhs version ns).draft o } = Work.perform (do
        Rendering.onDraft (Draft.step (.opens lhs.attributes))
        Rendering.onDraft (Draft.step (.closes lhs.attributes))
        let c := (← Work.current).chooser
        Rendering.onDraft (Draft.finish c.hadUndecided c.hadChoice))
          { draft := (emptyRuleBnf lhs version ns).draft o } := by
  obtain ⟨r, hr, hw⟩ := Recognition.exists_walk_of_emptyRule (B := emptyRuleBnf lhs version ns) rfl rfl visitor
  refine ⟨r, hr, ?_⟩
  have hchoose : visitor.choose [⟨lhs, []⟩] = pure 0 := rfl
  simp only [Rendering.render, hw, hchoose, pure_bind, bind_assoc]
  rfl

/-- With both checks on, the text of a result is a well-formed element if and only if the namespace that the grammar
states consists of characters of XML and no start tag has two attributes for states. -/
theorem isElement_textOf_iff (h : Bnf.ofSource source options = .ok B) (hn : o.assertValidXmlNames = true)
    (hc : o.assertValidXmlCharacters = true) (hr : Recognition.parse? B input = some r) (c : Renderer σ)
    (hs : c.draft s = B.draft o) (he : ((c.render r).perform s).1 = .ok es) :
    IsElement (textOf es) ↔ IsText (B.defaultNamespace.getD "") ∧ SingleState es :=
  (isSound_of_ofSource h).isElement_iff hn hc hr c hs he

theorem isElement_textOf_iff_mismatch : ∃ B r es, Bnf.ofSource "ixml version \"2.0\". s: ." {} = .ok B ∧
    Recognition.parse? B "" = some r ∧
    ((Rendering.renderer.render r).perform { draft := B.draft {} }).1 = .ok es ∧ IsElement (textOf es) ∧ textOf es =
      "<s xmlns:ixml=\"http://invisiblexml.org/NS\" ixml:state=\"version-mismatch\"/>" := by
  have hB : Bnf.ofSource "ixml version \"2.0\". s: ." {} =
      .ok (emptyRuleBnf (.nonterminal "s" ⟨[("mark", "^"), ("name", "s")]⟩) "2.0" none) := by decide +kernel
  obtain ⟨r, hr, he⟩ := Rendering.perform_emptyRuleBnf (.nonterminal "s" ⟨[("mark", "^"), ("name", "s")]⟩) "2.0" none {}
  refine ⟨_, r, _, hB, hr, congrArg Prod.fst he, ?_, by decide +kernel⟩
  refine (isElement_textOf_iff hB rfl rfl hr Rendering.renderer rfl (congrArg Prod.fst he)).mpr ⟨Xml.isText_empty, ?_⟩
  decide +kernel

/-- No check looks at the namespace: it can bring a character into the result that no document may have. -/
theorem not_isElement_textOf : ∃ B r es,
    Bnf.ofSource "ixml version \"1.0\" \x7b[xmlns \"urn:\u0001\"]\x7d. s: ." {} = .ok B ∧
      ({} : Options).assertValidXmlNames = true ∧ ({} : Options).assertValidXmlCharacters = true ∧
      Recognition.parse? B "" = some r ∧
      ((Rendering.renderer.render r).perform { draft := B.draft {} }).1 = .ok es ∧ ¬IsElement (textOf es) := by
  have hB : Bnf.ofSource "ixml version \"1.0\" \x7b[xmlns \"urn:\u0001\"]\x7d. s: ." {} =
      .ok (emptyRuleBnf (.nonterminal "s" ⟨[("mark", "^"), ("name", "s"), ("xmlns", "urn:\u0001")]⟩) "1.0"
        "urn:\u0001") := by decide +kernel
  obtain ⟨r, hr, he⟩ := Rendering.perform_emptyRuleBnf
    (.nonterminal "s" ⟨[("mark", "^"), ("name", "s"), ("xmlns", "urn:\u0001")]⟩) "1.0" "urn:\u0001" {}
  refine ⟨_, r, _, hB, rfl, rfl, hr, congrArg Prod.fst he, fun h => ?_⟩
  have htext := Xml.isText_of_isElement h
  revert htext
  decide +kernel

end Ixml
