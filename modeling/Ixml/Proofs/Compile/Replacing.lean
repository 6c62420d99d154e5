import Ixml.Proofs.Compile.Strategies
import Ixml.Proofs.Document.Giving

/-!
# Texts that replace

What a grammar text is compiled to gives for each match of a literal or an insertion one text as a whole. In
`Sense.giving` a literal denotes the derivations that match its characters and give that text, so that every derivation
of the compiled grammar is divided along the grammar text (`giving_of_ofSource`). A text that replaces a literal stands
on its first character, and so an empty literal gives nothing even if it is replaced (`not_giving_statedText`).
-/

namespace Ixml

open Attributes Layout Simplify Bnf.OfGrammar

/-! ### What a literal gives -/

/-- The text that a literal or an insertion asks for: the one that replaces it, or its own. A hidden literal asks for
none. -/
def Label.statedText (l : Label) : String :=
  match l.kind with
  | .literal .keep value => (firstOf Directive.replacement? l.pragmas).getD value.text
  | .insertion value => (firstOf Directive.replacement? l.pragmas).getD value.text
  | _ => ""

/-- The text that a literal or an insertion gives: the one that it asks for, but nothing for an empty literal. -/
def Label.givenText (l : Label) : String :=
  match l.kind with
  | .literal _ value => if value.text.isEmpty then "" else l.statedText
  | _ => l.statedText

/-- A literal denotes the derivations that match its characters and give its text, an insertion those that match
nothing and give its text, and everything else what it does for derivations without hidden nodes. -/
def Sense.giving (text : Label → String) (attributes : Label → Attributes) : Sense Derivation where
  leaf l ts :=
    match l.kind with
    | .literal _ value => {ds | Derivation.inputAll ds = value.text.toList ∧ Draft.Gives ds (text l)}
    | .insertion _ => {ds | Derivation.inputAll ds = [] ∧ Draft.Gives ds (text l)}
    | _ => (Reading.visible.sense attributes).leaf l ts
  reference := (Reading.visible.sense attributes).reference
  mono := (Reading.visible.sense attributes).mono

/-! ### What tokens give -/

theorem Derivation.inputAll_matched (f : Nat → Attributes) (text : List Char) :
    inputAll (text.mapIdx fun i c => matched c (f i)) = text := by
  induction text generalizing f with
  | nil => rfl
  | cons c text ih =>
    rw [List.mapIdx_cons, inputAll, ih fun i => f (i + 1)]
    rfl

theorem tokenText_terminal (mark : TerminalMark) (o : Option String) (c : Char) :
    ((terminalAttributes mark).setOption replacementKey o).tokenText c =
      if mark = .hidden then "" else o.getD (String.singleton c) := by
  cases mark <;> cases o <;> rfl

/-- What the terminals of a literal match. -/
def literalTokens (mark : TerminalMark) (text : List Char) (replacement : Option String) : List Derivation :=
  text.mapIdx fun i c => .matched c ((terminalAttributes mark).setOption replacementKey
    (replacement.map fun s => if i = 0 then s else ""))

section Tokens

variable (text : List Char) (replacement : Option String)

theorem join_map_empty : String.join (text.map fun _ => "") = "" := by
  rw [← String.toList_inj]
  simp

theorem gives_hidden : Draft.Gives (literalTokens .hidden text replacement) "" := by
  have h := Draft.Gives.tokens text (fun _ => "") fun i c =>
    tokenText_terminal .hidden (replacement.map fun s => if i = 0 then s else "") c
  rwa [join_map_empty] at h

theorem gives_own : Draft.Gives (literalTokens .keep text none) (String.ofList text) := by
  have h := Draft.Gives.tokens text String.singleton fun i c => tokenText_terminal .keep none c
  have hs : String.join (text.map String.singleton) = String.ofList text := by
    rw [← String.toList_inj]
    simp [List.flatMap_map]
  rwa [hs] at h

variable {text} in
/-- The first token gives the text that replaces the literal, and the others give nothing. -/
theorem gives_replacement (h : text ≠ []) (s : String) : Draft.Gives (literalTokens .keep text (some s)) s := by
  obtain ⟨c, text, rfl⟩ := List.exists_cons_of_ne_nil h
  have hc := Draft.Gives.matched c ((terminalAttributes .keep).setOption replacementKey (some s))
  have hcs := Draft.Gives.tokens text (fun _ => "") fun i c => tokenText_terminal .keep (some "") c
  rw [join_map_empty] at hcs
  have hall := hc.append hcs
  rw [tokenText_terminal, String.append_empty] at hall
  rw [literalTokens, List.mapIdx_cons]
  exact hall

end Tokens

variable {l : Label} {A : Label → Attributes}

theorem gives_literalTokens {mark : TerminalMark} {value : Literal} (hl : l.kind = .literal mark value) :
    Draft.Gives (literalTokens mark value.text.toList (firstOf Directive.replacement? l.pragmas)) l.givenText := by
  rw [Label.givenText, hl]
  dsimp only
  split
  · next he =>
    rw [String.isEmpty_iff.mp he]
    exact .nil
  · next he =>
    rw [Label.statedText, hl]
    cases mark with
    | hidden => exact gives_hidden _ _
    | keep =>
      cases firstOf Directive.replacement? l.pragmas with
      | none =>
        have h := gives_own value.text.toList
        rwa [String.ofList_toList] at h
      | some s => exact gives_replacement (by simpa using he) s

/-- What a leaf is compiled to matches its characters and gives its text. -/
theorem leaf_le_giving : (Reading.visible.sense A).leaf ≤ (Sense.giving Label.givenText A).leaf := by
  intro l ts ds hds
  unfold Reading.sense at hds
  cases hl : l.kind with
  | literal mark value =>
    simp only [hl] at hds
    rw [literalSymbols, Reading.prod_terminals Derivation.matched fun _ _ => rfl] at hds
    obtain rfl : ds = literalTokens mark value.text.toList _ := hds
    simp only [Sense.giving, hl]
    exact ⟨Derivation.inputAll_matched _ _, gives_literalTokens hl⟩
  | insertion value =>
    simp only [hl] at hds
    obtain rfl := Set.mem_singleton_iff.mp hds
    simp only [Sense.giving, hl]
    refine ⟨rfl, ?_⟩
    rw [Label.givenText, Label.statedText, hl]
    exact Draft.Gives.insertion (a := (insertionSymbol _).attributes) rfl
  | _ =>
    simp only [Sense.giving, hl]
    exact hds

variable {rootLabel : Label} {b g₀ g : Grammar} {J J' : List Layout} {m : Nat} {source : String} {options : Options}
  {B : Bnf} {n : String} {ds : List Derivation}

/-- What is derived is divided along the grammar that is understood. -/
theorem Stages.mem_giving (h : Stages rootLabel b J J' m g₀ g) (hB : IsBuilt g J' B) (hn : ¬IsMade n)
    (hds : B.NameDerives n ds) : Derivation.readAll Reading.visible ds ∈
      Tree.meaning (Sense.giving Label.givenText fun l => (usedSymbol g₀ l).attributes) g₀.forest n := by
  have hread : Derivation.readAll Reading.visible ds ∈ readings Reading.visible B n := ⟨ds, hds, rfl⟩
  rw [h.readings_visible hB hn] at hread
  rw [h.understood.holds.forest_eq]
  exact Tree.meaning_le_of_sense leaf_le_giving le_rfl n hread

/-- A compiled grammar text has derivations of just the texts that it denotes, and each of them is divided along the
grammar text, without its hidden nodes, such that every match of a literal or an insertion gives its text as a whole and
once. -/
theorem giving_of_ofSource (h : Bnf.ofSource source options = .ok B) : ∃ g₀, Grammar.understood source = .ok g₀ ∧
    B.language B.startName = g₀.language B.startName ∧
    ∀ ds, B.NameDerives B.startName ds → Derivation.readAll Reading.visible ds ∈
      Tree.meaning (Sense.giving Label.givenText fun l => (usedSymbol g₀ l).attributes) g₀.forest B.startName := by
  obtain ⟨g₀, g, rootLabel, b, J, J', m, hu, -, hstages, hbuilt⟩ := exists_stages_of_bnf_ofSource h
  obtain ⟨name, l, -, hn, -, rfl, hstart⟩ := hstages.exists_start_eq hbuilt
  have hname : B.startName = l.nameText := by
    rw [Bnf.startName, hstart]
    rfl
  rw [hname]
  exact ⟨g₀, hu, hstages.language_eq hbuilt hn, fun ds hds => hstages.mem_giving hbuilt hn hds⟩

/-- A grammar text with a literal and an insertion that are replaced. -/
def replacedTwice : String :=
  "s: \x7b[rewrite \"xyz\"]\x7d \"ab\", \x7b[rewrite \"q\"]\x7d +\"c\"."

/-- What it compiles to. -/
def replacedBnf : Bnf where
  rules := [⟨.nonterminal "s" ⟨[("mark", "^"), ("name", "s")]⟩,
      [.terminal (.char 'a') ⟨[("tmark", "^"), ("rewrite", "xyz")]⟩,
        .terminal (.char 'b') ⟨[("tmark", "^"), ("rewrite", "")]⟩, insertionSymbol "q"]⟩, insertionRuleEntry]
  start := .nonterminal "s" ⟨[("mark", "^"), ("name", "s")]⟩

/-- Its derivation of `ab`. -/
def replacedDerivation : List Derivation :=
  [.matched 'a' ⟨[("tmark", "^"), ("rewrite", "xyz")]⟩, .matched 'b' ⟨[("tmark", "^"), ("rewrite", "")]⟩,
    .derived (insertionSymbol "q").attributes []]

theorem nameDerives_replacedDerivation : replacedBnf.NameDerives "s" replacedDerivation := by
  have hs : replacedBnf.rules[0] ∈ replacedBnf.rulesFor "s" := by decide
  have hi : insertionRuleEntry ∈ replacedBnf.rulesFor insertionRule := by decide
  exact ⟨_, hs, .terminal (by decide) (.terminal (by decide) (.nonterminal hi .nil .nil))⟩

theorem giving_of_ofSource_replaced : ∃ g₀, Bnf.ofSource replacedTwice { strategy := .alternate } = .ok replacedBnf ∧
    Grammar.understood replacedTwice = .ok g₀ ∧ "ab".toList ∈ g₀.language "s" ∧
    Derivation.readAll Reading.visible replacedDerivation ∈
      Tree.meaning (Sense.giving Label.givenText fun l => (usedSymbol g₀ l).attributes) g₀.forest "s" ∧
    Derivation.root {} [.derived replacedBnf.start.attributes replacedDerivation] =
      .ok ({ name := "s" }, [.text "xyzq"]) := by
  have hB : Bnf.ofSource replacedTwice { strategy := .alternate } = .ok replacedBnf := by decide +kernel
  obtain ⟨g₀, hu, hlanguage, hgiving⟩ := giving_of_ofSource hB
  have hab : "ab".toList ∈ replacedBnf.language replacedBnf.startName :=
    ⟨replacedDerivation, nameDerives_replacedDerivation, rfl⟩
  rw [hlanguage] at hab
  exact ⟨g₀, hB, hu, hab, hgiving _ nameDerives_replacedDerivation, rfl⟩

/-- A grammar text with an empty literal that is replaced. -/
def emptyReplaced : String :=
  "s: \x7b[rewrite \"x\"]\x7d \"\"."

/-- Whether a grammar has a single rule, of a single empty literal that asks for a given text. -/
def Grammar.asksOnly (s : String) (g : Grammar) : Bool :=
  match g.forest with
  | [.node r [.node k [.node a [.node l []]]]] =>
    r.kind == .rule .element none && k.kind == .alts && a.kind == .alt && l.kind == .literal .keep (.quoted "") &&
      l.statedText == s
  | _ => false

theorem gives_of_asksOnly {s : String} (h : g.asksOnly s = true)
    (hds : ds ∈ Tree.meaning (Sense.giving Label.statedText A) g.forest n) : Draft.Gives ds s := by
  unfold Grammar.asksOnly at h
  split at h
  · next r k a l hforest =>
    simp only [Bool.and_eq_true, beq_iff_eq] at h
    obtain ⟨⟨⟨⟨hr, hk⟩, ha⟩, hl⟩, rfl⟩ := h
    obtain ⟨t, ht, -, hds⟩ := Tree.mem_meaning.mp hds
    rw [hforest, List.mem_singleton] at ht
    rw [ht, Tree.denote_of_not_isFlat (by rw [hr]; rfl), List.map_singleton,
      Tree.denote_of_not_isFlat (by rw [hk]; rfl), List.map_singleton, Tree.denote_of_not_isFlat (by rw [ha]; rfl),
      List.map_singleton, Tree.denote_of_isFlat (by rw [hl]; rfl) (by rw [hl]; rfl), hr, hk, ha] at hds
    simp only [Construct.combine, List.prod_singleton, List.sum_singleton] at hds
    simp only [Sense.giving, hl] at hds
    exact hds.2
  · cases h

/-- An empty literal does not give the text that replaces it. -/
theorem not_giving_statedText : ∃ g₀ B ds, Grammar.understood emptyReplaced = .ok g₀ ∧
    Bnf.ofSource emptyReplaced {} = .ok B ∧ B.NameDerives B.startName ds ∧ Derivation.readAll Reading.visible ds ∉
      Tree.meaning (Sense.giving Label.statedText fun l => (usedSymbol g₀ l).attributes) g₀.forest B.startName := by
  obtain ⟨g₀, hu, hg⟩ := exists_eq_ok_and (x := Grammar.understood emptyReplaced) (p := Grammar.asksOnly "x")
    (by decide +kernel)
  obtain ⟨B, hB, hnil⟩ := exists_eq_ok_and (x := Bnf.ofSource emptyReplaced {}) (p := fun B =>
    (B.rulesFor B.startName).any fun r => r.rhs == []) (by decide +kernel)
  obtain ⟨r, hr, hrhs⟩ := List.any_eq_true.mp hnil
  refine ⟨g₀, B, [], hu, hB, ⟨r, hr, ?_⟩, fun hds => ?_⟩
  · rw [beq_iff_eq.mp hrhs]
    exact .nil
  · exact absurd ((gives_of_asksOnly hg hds).unique .nil) (by decide)

end Ixml
