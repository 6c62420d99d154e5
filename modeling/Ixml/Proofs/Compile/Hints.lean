import Ixml.Proofs.Compile.Stages
import Ixml.Proofs.Grammar.Attaching
import Ixml.Proofs.Simplify.Hints
import Mathlib.Data.List.Induction
import Mathlib.Logic.Function.Iterate

/-!
# How the names of rules that are made up come about

Each move of a simplification that makes up a name makes it up for a node, and the name hints at the first symbol of
that node (`isHinted_of_ofSource`). As long as that is a symbol of the text, its text is escaped once. But a rule may be
made up for a construct whose first symbol has given way to a reference before; then the hint in the name of that
reference, which has been escaped, is escaped again. So a hint is the text of some symbol, escaped as often as
references have come in between, and once more.
-/

namespace Ixml

open Layout Simplify

/-- A symbol below the root has a given text. -/
def Grammar.HasSymbol (g : Grammar) (s : String) : Prop :=
  ∃ i ∈ g.nodesFrom Grammar.root, (g.node i).symbolText? = some s

/-! ### The lexicon of a text -/

/-- What a grammar that is read draws on: names that are not made up, and the texts of its symbols. -/
def Lexicon.ofText (g : Grammar) : Lexicon where
  rules X := ¬IsMade X
  references X := ¬IsMade X ∧ g.HasSymbol X
  texts := g.HasSymbol

theorem IsForest.drawsOn {tokens : List Token} {J : List Layout} {g : Grammar} (h : IsForest tokens J g) :
    g.DrawsOn (.ofText g) := by
  intro i
  by_cases hi : i < g.nodes.size
  · -- every node that is read is below the root
    have hmem : i ∈ g.nodesFrom Grammar.root := h.lays.mem_nodesFrom_iff.mpr hi
    have hmade := (h.isIdentifier i).notMade
    exact ⟨fun _ => hmade, fun hk => ⟨hmade, i, hmem, Label.symbolText?_of_isNonterminal hk⟩,
      fun s hs => ⟨i, hmem, Label.symbolText?_of_terminalText? hs⟩⟩
  · rw [Lays.node_of_size_le (Nat.le_of_not_lt hi)]
    exact .quiet rfl rfl rfl

namespace Pragma

theorem terminalText?_setRename (name : String) (l : Label) :
    Label.terminalText? { l with kind := setRename name l.kind } = l.terminalText? := by
  rw [Label.terminalText?, Label.terminalText?]
  cases l.kind <;> rfl

theorem drawsOn_attachTo {L : Lexicon} {l : Label} (h : l.DrawsOn L) (ps : List Pragma) :
    (attachTo l ps).DrawsOn L := by
  rw [attachTo]
  -- another name in the result is neither the name of the node nor its text
  refine foldl_setRename (fun k => Label.DrawsOn L { l with kind := k, pragmas := l.pragmas ++ ps })
    (fun name k hk => ⟨fun hr => hk.rule ?_, fun hn => hk.reference ?_, fun s hs => hk.text s ?_⟩) _ (h.congr rfl rfl)
  · simpa using hr
  · simpa using hn
  · rwa [← terminalText?_setRename name]

theorem Altered.drawsOn {L : Lexicon} {g₀ g : Grammar} {D : List NodeId} {given : NodeId → List Pragma}
    (h : Altered g₀ D given g) (hg : g₀.DrawsOn L) : g.DrawsOn L := fun i => by
  rw [h.toLabel_eq]
  exact drawsOn_attachTo (hg i) _

end Pragma

theorem exists_drawsOn_of_understood {source : String} {g₁ : Grammar} (h : Grammar.understood source = .ok g₁) :
    ∃ g₀, Grammar.read source = .ok g₀ ∧ g₁.DrawsOn (.ofText g₀) := by
  obtain ⟨tokens, J, g₀, D, bs, -, hr, hJ, hg, -⟩ := Pragma.exists_gave_of_understood h
  exact ⟨g₀, hr, hg.altered.drawsOn hJ.drawsOn⟩

/-! ### The names that are made up -/

namespace Simplify

/-- The hint that is taken from the node `c` after some moves. -/
def hintAfter (strategy : Strategy) (g₁ : Grammar) (ns : List Move) (c : NodeId) : String :=
  Edit.hint (run strategy ns g₁) c

/-- The move `mv`, which is made after the moves `ns`, makes up the name `X` for the node `c`. -/
structure MakesUp (strategy : Strategy) (g₁ : Grammar) (ns : List Move) (mv : Move) (c : NodeId) (X : String) :
    Prop where
  name : ∃ word, mv.source? = some (c, word) ∧
    X = "$" ++ hintAfter strategy g₁ ns c ++ "_" ++ toString ((run strategy ns g₁).madeUp + 1) ++ "_" ++ word
  counted : (run strategy (ns ++ [mv]) g₁).madeUp = (run strategy ns g₁).madeUp + 1

/-- `HintsAt strategy g₀ g₁ ns c s` says that `s` is what a name hints at that is made up for the node `c` after the
moves `ns`, where `g₀` is the grammar as it was read. -/
inductive HintsAt (strategy : Strategy) (g₀ g₁ : Grammar) (ns : List Move) (c : NodeId) : String → Prop
  /-- There is no symbol at or below the node. -/
  | nothing (h : ∀ i, ¬(run strategy ns g₁).FirstSymbol c i) : HintsAt strategy g₀ g₁ ns c ""
  /-- The first symbol is one that was read. -/
  | written {i : NodeId} {s : String} (hi : (run strategy ns g₁).FirstSymbol c i)
    (hs : ((run strategy ns g₁).node i).symbolText? = some s)
    (hm : ((run strategy ns g₁).kind i).isNonterminal = true → ¬IsMade s) (hg : g₀.HasSymbol s) :
    HintsAt strategy g₀ g₁ ns c s
  /-- It is a reference to the shared rule. -/
  | shared {i : NodeId} (hi : (run strategy ns g₁).FirstSymbol c i)
    (hk : ((run strategy ns g₁).kind i).isNonterminal = true) (hX : (run strategy ns g₁).nameText i = emptyRule) :
    HintsAt strategy g₀ g₁ ns c "empty"
  /-- It is a reference whose name an earlier move has made up. -/
  | made {i c' : NodeId} {ns' : List Move} {mv' : Move} (hi : (run strategy ns g₁).FirstSymbol c i)
    (hk : ((run strategy ns g₁).kind i).isNonterminal = true) (hp : ns' ++ [mv'] <+: ns)
    (hX : MakesUp strategy g₁ ns' mv' c' ((run strategy ns g₁).nameText i)) :
    HintsAt strategy g₀ g₁ ns c (hintAfter strategy g₁ ns' c')

/-- How the name `X` comes about that the move `mv` makes up for the node `c` after the moves `ns`. -/
structure IsHinted (strategy : Strategy) (g₀ g₁ : Grammar) (ns : List Move) (mv : Move) (c : NodeId) (X : String) :
    Prop where
  makesUp : MakesUp strategy g₁ ns mv c X
  /-- No underscore is in the hint, so that it can be told from the rest of the name. -/
  separate : '_' ∉ (hintAfter strategy g₁ ns c).toList
  text : ∃ s, HintsAt strategy g₀ g₁ ns c s ∧ hintAfter strategy g₁ ns c = hintFor s
  /-- In the end it is a symbol of the text that a name hints at. -/
  origin : hintAfter strategy g₁ ns c = "empty" ∨
    ∃ s, g₀.HasSymbol s ∧ ∃ k, hintAfter strategy g₁ ns c = escaped^[k + 1] s

variable {strategy : Strategy} {g₀ g₁ g : Grammar} {L : Lexicon} {ms ns : List Move} {mv : Move} {c : NodeId}
  {X : String}

/-- One of some moves has made up a name. -/
def IsMadeUp (strategy : Strategy) (g₁ : Grammar) (ms : List Move) (X : String) : Prop :=
  ∃ ns mv c, ns ++ [mv] <+: ms ∧ MakesUp strategy g₁ ns mv c X

/-- The lexicon that a grammar draws on after some moves. -/
def lexiconAfter (L : Lexicon) (strategy : Strategy) (g₁ : Grammar) (ms : List Move) : Lexicon where
  rules X := L.rules X ∨ X = emptyRule ∨ IsMadeUp strategy g₁ ms X
  references X := L.references X ∨ X = emptyRule ∨ IsMadeUp strategy g₁ ms X
  texts := L.texts

theorem IsMadeUp.concat (h : IsMadeUp strategy g₁ ms X) (mv : Move) : IsMadeUp strategy g₁ (ms ++ [mv]) X := by
  obtain ⟨ns, mv', c, hp, hX⟩ := h
  exact ⟨ns, mv', c, hp.trans (List.prefix_append ..), hX⟩

theorem lexiconAfter_le (L : Lexicon) (ms : List Move) (mv : Move) :
    (lexiconAfter L strategy g₁ ms).Le (lexiconAfter L strategy g₁ (ms ++ [mv])) :=
  ⟨fun _ => .imp_right (.imp_right (·.concat mv)), fun _ => .imp_right (.imp_right (·.concat mv)), fun _ => id⟩

/-- Whatever names there are after some moves were there before, or one of the moves has made them up. -/
theorem drawsOn_run (h : g₁.DrawsOn L) (ms : List Move) :
    (run strategy ms g₁).DrawsOn (lexiconAfter L strategy g₁ ms) := by
  induction ms using List.reverseRecOn with
  | nil => exact h.mono ⟨fun _ => .inl, fun _ => .inl, fun _ => id⟩
  | append_singleton ms mv ih =>
    have hmade (hm : (run strategy (ms ++ [mv]) g₁).madeUp = (run strategy ms g₁).madeUp + 1) (c : NodeId)
        (word : String) (hs : mv.source? = some (c, word)) : IsMadeUp strategy g₁ (ms ++ [mv])
          ((run strategy ms g₁).nextName (Edit.hint (run strategy ms g₁) c) word) :=
      ⟨ms, mv, c, List.prefix_refl _, ⟨word, hs, rfl⟩, hm⟩
    rw [run_append]
    refine drawsOn_make strategy mv ⟨.inr (.inl rfl), .inr (.inl rfl)⟩ (fun hm c word hs => ?_)
      (ih.mono (lexiconAfter_le L ms mv))
    have hX := hmade (by rw [run_append]; exact hm) c word hs
    exact ⟨.inr (.inr hX), .inr (.inr hX)⟩

/-- What the hint at a node is, by the first symbol that is met. -/
theorem exists_hintsAt (h : g₁.DrawsOn (.ofText g₀))
    (hd : (run strategy ns g₁).DepthLe (run strategy ns g₁).depthBound c) :
    ∃ s, HintsAt strategy g₀ g₁ ns c s ∧ hintAfter strategy g₁ ns c = hintFor s := by
  by_cases hi : ∃ i, (run strategy ns g₁).FirstSymbol c i
  · obtain ⟨i, hi⟩ := hi
    obtain ⟨s, hs⟩ := Option.isSome_iff_exists.mp hi.isSome
    have hdraws : ((run strategy ns g₁).node i).DrawsOn (lexiconAfter (.ofText g₀) strategy g₁ ns) :=
      drawsOn_run h ns i
    rcases Label.symbolText?_cases hs with ⟨hk, hX⟩ | ⟨hk, ht⟩
    · rcases hdraws.reference hk with ⟨hm, hg⟩ | hE | ⟨ns', mv', c', hp, hmade⟩
      · rw [hX] at hm hg
        exact ⟨s, .written hi hs (fun _ => hm) hg, Edit.hint_of_symbol hd hi hs fun _ => hm⟩
      · exact ⟨_, .shared hi hk hE, (Edit.hint_of_emptyRule hd hi hs hk (hX.symm.trans hE)).trans (by decide +kernel)⟩
      · refine ⟨_, .made hi hk hp hmade, ?_⟩
        obtain ⟨word, hw, hname⟩ := hmade.name
        exact Edit.hint_of_made hd hi hs hk (underscore_notMem_word hw) (hX.symm.trans hname)
    · have hm : ((run strategy ns g₁).kind i).isNonterminal = true → ¬IsMade s := fun hk' =>
        absurd (hk.symm.trans hk') nofun
      exact ⟨s, .written hi hs hm (hdraws.text s ht), Edit.hint_of_symbol hd hi hs hm⟩
  · have hi : ∀ i, ¬(run strategy ns g₁).FirstSymbol c i := fun i h => hi ⟨i, h⟩
    exact ⟨"", .nothing hi, Edit.hint_of_no_symbol hi⟩

/-- Wherever some moves are interrupted, all walks down are bounded. -/
def IsBounded (strategy : Strategy) (g₁ : Grammar) (ms : List Move) : Prop :=
  ∀ ns, ns <+: ms → ∀ c, (run strategy ns g₁).DepthLe (run strategy ns g₁).depthBound c

/-- A hint is the text of a symbol that was read, escaped at least once. -/
theorem IsBounded.hint_origin (hd : IsBounded strategy g₁ ms) (h : g₁.DrawsOn (.ofText g₀)) (hns : ns <+: ms)
    (c : NodeId) : hintAfter strategy g₁ ns c = "empty" ∨
      ∃ s, g₀.HasSymbol s ∧ ∃ k, hintAfter strategy g₁ ns c = escaped^[k + 1] s := by
  -- a reference to a made-up rule takes the hint of an earlier move
  induction hn : ns.length using Nat.strongRecOn generalizing ns c with
  | ind n ih =>
    obtain ⟨s, hs, he⟩ := exists_hintsAt h (hd ns hns c)
    rw [he]
    cases hs with
    | nothing => exact .inl rfl
    | written _ _ _ hg =>
      unfold hintFor
      split
      · exact .inl rfl
      · exact .inr ⟨s, hg, 0, rfl⟩
    | shared => exact .inl (by decide +kernel)
    | @made i c' ns' mv' _ _ hp hX =>
      have hlt : ns'.length < n := by
        have := hp.length_le
        rw [List.length_append, List.length_singleton] at this
        omega
      rcases ih ns'.length hlt ((List.prefix_append ns' [mv']).trans (hp.trans hns)) c' rfl with h' | ⟨s, hg, k, h'⟩
      · rw [h']
        exact .inl (by decide +kernel)
      · refine .inr ⟨s, hg, k + 1, ?_⟩
        have hne : hintAfter strategy g₁ ns' c' ≠ "" := Edit.hint_ne_empty _ c'
        rw [hintFor, if_neg hne, h', ← Function.iterate_succ_apply' escaped]

/-- A made-up name of a rule comes about by one of the moves. -/
theorem IsBounded.exists_isHinted (hd : IsBounded strategy g₁ ms) (h : g₁.DrawsOn (.ofText g₀)) {r : NodeId}
    (hr : ((run strategy ms g₁).kind r).isRule = true) (hm : IsMade ((run strategy ms g₁).nameText r))
    (hE : (run strategy ms g₁).nameText r ≠ emptyRule) :
    ∃ ns mv c, ns ++ [mv] <+: ms ∧ IsHinted strategy g₀ g₁ ns mv c ((run strategy ms g₁).nameText r) := by
  rcases (drawsOn_run h ms r).rule hr with hn | he | ⟨ns, mv, c, hp, hX⟩
  · exact absurd hm hn
  · exact absurd he hE
  · have hns : ns <+: ms := (List.prefix_append ns [mv]).trans hp
    exact ⟨ns, mv, c, hp, hX, Edit.underscore_notMem_hint _ c, exists_hintsAt h (hd ns hns c), hd.hint_origin h hns c⟩

variable {rootLabel : Label} {b : Grammar} {S T : Standing}

theorem Standing.Stands.depthLe (h : S.Stands rootLabel b) (c : NodeId) :
    S.grammar.DepthLe S.grammar.depthBound c := by
  obtain ⟨junk, hl⟩ := h.holds
  have hroot : Grammar.root < S.grammar.nodes.size := hl.lays.mem_ids_iff.mp (by simp)
  exact hl.lays.depthLe (Nat.lt_of_le_of_lt (Nat.zero_le _) hroot) c

theorem Course.isBounded (h : Course strategy rootLabel b ms S T) (hS : S.Stands rootLabel b) :
    IsBounded strategy S.grammar ms := by
  intro ns hns c
  obtain ⟨U, hU⟩ := h.exists_of_prefix hns
  have hgrammar := hU.grammar_eq
  rw [← hgrammar]
  exact (hU.stands hS).depthLe c

end Simplify

/-- How the names of the made-up rules of a text that compiles come about. -/
theorem isHinted_of_ofSource (source : String) (options : Options) (g : Grammar)
    (h : Grammar.ofSource source options = .ok g) : ∃ g₀ g₁, Grammar.read source = .ok g₀ ∧
      Grammar.understood source = .ok g₁ ∧ run options.strategy (moves options.strategy g₁) g₁ = g ∧
      ∀ r ∈ g.rules, IsMade (g.nameText r) → g.nameText r ≠ emptyRule →
        ∃ ns mv c, ns ++ [mv] <+: moves options.strategy g₁ ∧
          IsHinted options.strategy g₀ g₁ ns mv c (g.nameText r) := by
  obtain ⟨g₁, hu, -, rfl⟩ := ofSource_eq_ok_iff.mp h
  obtain ⟨g₀, hr, hdraws⟩ := exists_drawsOn_of_understood hu
  obtain ⟨rootLabel, b, J, hJ⟩ := exists_isUnderstood hu
  obtain ⟨J', m', hcourse⟩ :=
    exists_course hJ.holds (by rw [hJ.root]; exact nofun) hJ.sound hJ.isSome_start options.strategy
  have hbounded : IsBounded options.strategy g₁ (moves options.strategy g₁) :=
    hcourse.isBounded ⟨hJ.holds, by simpa using hJ.sound⟩
  refine ⟨g₀, g₁, hr, hu, run_moves _ _, fun r hr hm hE => ?_⟩
  rw [← run_moves] at hr hm hE ⊢
  exact hbounded.exists_isHinted hdraws (List.mem_filter.mp hr).2 hm hE

/-- An option around a repetition, which has given way to a reference when a rule is made up for the option. -/
def nestedOption : String :=
  "s: (','+)?."

theorem isHinted_of_ofSource_nestedOption : ∃ g g₀ g₁, Grammar.ofSource nestedOption {} = .ok g ∧
    g.rules.map g.nameText =
      ["s", "$%2C_1_plus", "$%252C_2_option", "$%252C_3_alts", "$%2C_1_plus", "$%252C_2_option"] ∧
    Grammar.read nestedOption = .ok g₀ ∧ Grammar.understood nestedOption = .ok g₁ ∧
    ∀ r ∈ g.rules, IsMade (g.nameText r) → g.nameText r ≠ emptyRule →
      ∃ ns mv c, ns ++ [mv] <+: moves .spec g₁ ∧ IsHinted .spec g₀ g₁ ns mv c (g.nameText r) := by
  obtain ⟨g, hg, hnames⟩ := exists_eq_ok_and (x := Grammar.ofSource nestedOption {})
    (p := fun g => g.rules.map g.nameText ==
      ["s", "$%2C_1_plus", "$%252C_2_option", "$%252C_3_alts", "$%2C_1_plus", "$%252C_2_option"]) (by decide +kernel)
  obtain ⟨g₀, g₁, hr, hu, -, hhinted⟩ := isHinted_of_ofSource nestedOption {} g hg
  exact ⟨g, g₀, g₁, hg, by simpa using hnames, hr, hu, hhinted⟩

/-- The hint in a name is that of no symbol, or the text of a symbol that was read, escaped once. -/
def HintsOnce (g₀ : Grammar) (X : String) : Prop :=
  ∃ (hint : String) (n : Nat) (word : String), X = "$" ++ hint ++ "_" ++ toString n ++ "_" ++ word ∧
    (hint = "empty" ∨ ∃ s, g₀.HasSymbol s ∧ hint = escaped s)

/-- Not every made-up name has a hint that has been escaped once only. -/
theorem not_hintsOnce : ∃ g g₀, Grammar.ofSource nestedOption {} = .ok g ∧ Grammar.read nestedOption = .ok g₀ ∧
    ∃ r ∈ g.rules, IsMade (g.nameText r) ∧ g.nameText r ≠ emptyRule ∧ ¬HintsOnce g₀ (g.nameText r) := by
  obtain ⟨g, hg, hnames⟩ := exists_eq_ok_and (x := Grammar.ofSource nestedOption {})
    (p := fun g => "$%252C_2_option" ∈ g.rules.map g.nameText) (by decide +kernel)
  obtain ⟨g₀, hr, hsymbols⟩ := exists_eq_ok_and (x := Grammar.read nestedOption)
    (p := fun g => (g.nodesFrom Grammar.root).filterMap (fun i => (g.node i).symbolText?) = [","]) (by decide +kernel)
  obtain ⟨r, hrule, hname⟩ := List.mem_map.mp (of_decide_eq_true hnames)
  refine ⟨g, g₀, hg, hr, r, hrule, ?_⟩
  rw [hname]
  refine ⟨by rfl, by decide +kernel, ?_⟩
  rintro ⟨hint, n, word, he, hhint⟩
  have he := congrArg String.toList he
  rcases hhint with rfl | ⟨s, ⟨i, hi, hs⟩, rfl⟩
  · simp [String.toList_append] at he
  · have hmem : s ∈ (g₀.nodesFrom Grammar.root).filterMap fun i => (g₀.node i).symbolText? :=
      List.mem_filterMap.mpr ⟨i, hi, hs⟩
    rw [of_decide_eq_true hsymbols, List.mem_singleton] at hmem
    subst hmem
    rw [show escaped "," = "%2C" by decide +kernel] at he
    simp [String.toList_append] at he

end Ixml
