import Std.Data.HashMap
import Ixml.Bnf.Basic
import Ixml.Document.Draft

/-!
# Recognising an input

A span is a nonterminal with the two places of the input between which it can be derived. They are found in
rounds: a round finds all spans that can be derived by one rule from spans of earlier rounds, so that the
number of the round is the height of the lowest derivation. A derivation is then walked from the top down,
only ever into spans of smaller height, which comes to an end even where a nonterminal derives itself.
-/

namespace Ixml

/-- A nonterminal, and the places where it begins and ends. -/
structure Span where
  name : String
  first : Nat
  last : Nat
deriving DecidableEq, Hashable, Repr, Inhabited

/-- The height of the lowest derivation of each span. -/
abbrev Heights := Std.HashMap Span Nat

namespace Heights

/-- Whether a span has a derivation that is lower than `bound`. -/
def below (h : Heights) (bound : Nat) (s : Span) : Bool :=
  match h[s]? with
  | some n => n < bound
  | none => false

end Heights

/-- A grammar and an input, with what has been recognised in it. -/
structure Recognition where
  grammar : Bnf
  input : Array Char
  heights : Heights := ∅

namespace Recognition

/-- The places of the input, the end included. -/
def places (r : Recognition) : List Nat :=
  List.range (r.input.size + 1)

/-- Whether a symbol is a terminal that matches the character at a place. -/
def acceptsAt (r : Recognition) (s : Symbol) (p : Nat) : Bool :=
  match r.input[p]? with
  | some c => s.accepts c
  | none => false

/-- Where a symbol can end that begins at one of the given places, by spans lower than `bound`. -/
def advance (r : Recognition) (bound : Nat) (starts : List Nat) : Symbol → List Nat
  | .nonterminal name _ =>
    r.places.filter fun q => starts.any fun p => p ≤ q && r.heights.below bound ⟨name, p, q⟩
  | s => (starts.filter (r.acceptsAt s)).map (· + 1)

/-- Where symbols can end that begin at `start`, by spans lower than `bound`. -/
def ends (r : Recognition) (bound : Nat) (symbols : List Symbol) (start : Nat) : List Nat :=
  symbols.foldl (r.advance bound) [start]

/-- The spans that a rule derives from spans lower than `bound` and that have no height yet. -/
def newSpansOf (r : Recognition) (bound : Nat) (rule : Rule) : List Span :=
  (r.places.flatMap fun p => (r.ends bound rule.rhs p).map fun q => ⟨rule.name, p, q⟩).filter
    fun s => !r.heights.contains s

/-- The spans that can be derived from spans lower than `bound` and that have no height yet. -/
def newSpans (r : Recognition) (bound : Nat) : List Span :=
  r.grammar.rules.flatMap (r.newSpansOf bound)

/-- Give spans a height. -/
def record (r : Recognition) (height : Nat) (spans : List Span) : Recognition :=
  { r with heights := spans.foldl (fun h s => h.insertIfNew s height) r.heights }

/-- Do rounds, from the given number on, until one finds nothing new. -/
def rounds : Nat → Nat → Recognition → Recognition
  | 0, _, r => r
  | fuel + 1, round, r =>
    match r.newSpans round with
    | [] => r
    | spans => rounds fuel (round + 1) (r.record round spans)

/-- The number of spans that there can be. Every round but the last finds one of them. -/
def spanCount (g : Bnf) (length : Nat) : Nat :=
  g.rules.length * (length + 1) * (length + 1)

/-- All that can be recognised in an input. -/
def ofInput (g : Bnf) (input : String) : Recognition :=
  let cs := input.toList.toArray
  rounds (spanCount g cs.size + 1) 1 { grammar := g, input := cs }

/-- The span of the start symbol over the whole input. -/
def whole (r : Recognition) : Span :=
  ⟨r.grammar.startName, 0, r.input.size⟩

/-- Recognise an input; nothing if the start symbol does not derive it. -/
def parse? (g : Bnf) (input : String) : Option Recognition :=
  let r := ofInput g input
  if r.heights.contains r.whole then some r else none

/-- What a symbol of a rule stands for in a derivation: the character at a place, or the part between two
places. -/
inductive Part
  | matched (place : Nat)
  | derived (first last : Nat)
deriving DecidableEq, Repr, Inhabited

/-- The most ways to derive a span by one rule that are looked at. -/
def divisionLimit : Nat := 32

/-- Put a part in front of each of some lists of parts. -/
def withPart (part : Part) (ways : List (List Part)) : List (List Part) :=
  ways.map (part :: ·)

/-- Collect the ways that `f` gives for each of some places, at most `limit` in all. `f` is told how many are
still wanted. -/
def collect (f : Nat → Nat → List (List Part)) : Nat → List Nat → List (List Part)
  | _, [] => []
  | limit, q :: qs =>
    if limit = 0 then []
    else
      let here := f limit q
      here ++ collect f (limit - here.length) qs

/-- The ways to derive the part from `p` to `last` by symbols, by spans lower than `bound`. There are at most
`limit` of them, those with the shortest first parts first. -/
def divisions (r : Recognition) (bound last : Nat) : List Symbol → Nat → Nat → List (List Part)
  | [], limit, p => if limit = 0 then [] else if p = last then [[]] else []
  | .nonterminal name _ :: rest, limit, p =>
    collect (fun limit q => withPart (.derived p q) (divisions r bound last rest limit q)) limit
      (r.places.filter fun q => p ≤ q && q ≤ last && r.heights.below bound ⟨name, p, q⟩)
  | s :: rest, limit, p =>
    if p < last && r.acceptsAt s p then withPart (.matched p) (divisions r bound last rest limit (p + 1))
    else []

/-- The rules for a span and the ways to derive it by them, by spans lower than `bound`. -/
def ways (r : Recognition) (bound : Nat) (s : Span) : List (Rule × List Part) :=
  (r.grammar.rulesFor s.name).flatMap fun rule =>
    (r.divisions bound s.last rule.rhs divisionLimit s.first).map fun parts => (rule, parts)

/-- What takes part in a walk: it chooses among rules and is told what happens. -/
structure Visitor (σ : Type) where
  choose : List Rule → Work σ Nat
  visit : DerivationEvent → Work σ Unit

variable {σ : Type}

/-- The failure to find a derivation. -/
def noDerivation {α : Type} (s : Span) : Work σ α :=
  throw (.unbalancedEvents ("no derivation of " ++ s.name ++ s!" over {s.first}..{s.last}"))

/-- Walk one derivation of a symbol between two places. `fuel` is at least the height of the span. -/
def walkSymbol (r : Recognition) (v : Visitor σ) : Nat → Symbol → Nat → Nat → Work σ Unit
  | 0, symbol, first, last => noDerivation ⟨symbol.nameText, first, last⟩
  | fuel + 1, symbol, first, last => do
    let s : Span := ⟨symbol.nameText, first, last⟩
    match r.heights[s]? with
    | none => noDerivation s
    | some height =>
      let options := r.ways height s
      if options.isEmpty then
        noDerivation s
      else
        let choice ← v.choose (options.map (·.1))
        match options[min choice (options.length - 1)]? with
        | none => noDerivation s
        | some (rule, parts) => do
          v.visit (.opens symbol.attributes)
          (rule.rhs.zip parts).forM fun (child, part) =>
            match part with
            | .matched p =>
              match r.input[p]? with
              | some c => v.visit (.matched c child.attributes)
              | none => noDerivation s
            | .derived p q => walkSymbol r v fuel child p q
          v.visit (.closes symbol.attributes)

/-- Walk one derivation of the whole input. -/
def walk (r : Recognition) (v : Visitor σ) : Work σ Unit :=
  walkSymbol r v ((r.heights[r.whole]?).getD 0) r.grammar.start 0 r.input.size

end Recognition

end Ixml
