import Ixml.Proofs.Ambiguity.Tally
import Ixml.Proofs.Language.Denotation

/-!
# Parse trees

A `Parse` tells how a text is matched: which alternative and which rule is taken, by its position, whether an option
is there, and what each round of a repetition matches. `Grammar.parses` are the trees by which a name matches. Their
texts are those that the name denotes (`yield_mem_language`), and their tally is closed under the rules
(`tally_le_count`), with a repetition as a sum over its rounds.
-/

namespace Ixml

open Computability

inductive Parse
  | leaf (text : List Char)
  /-- The rule of a reference, by its position below the root. -/
  | reference (position : Nat) (tree : Parse)
  | alternative (position : Nat) (tree : Parse)
  | sequence (trees : List Parse)
  | absent
  | present (trees : List Parse)
  /-- The factors and separators of all rounds, in order. -/
  | repetition (trees : List Parse)

namespace Parse

mutual

def yield : Parse → List Char
  | leaf text => text
  | reference _ p => yield p
  | alternative _ p => yield p
  | absent => []
  | sequence ps => yieldAll ps
  | present ps => yieldAll ps
  | repetition ps => yieldAll ps

def yieldAll : List Parse → List Char
  | [] => []
  | p :: ps => yield p ++ yieldAll ps

end

theorem yieldAll_append (ps qs : List Parse) : yieldAll (ps ++ qs) = yieldAll ps ++ yieldAll qs := by
  induction ps with
  | nil => rfl
  | cons p ps ih => rw [List.cons_append, yieldAll, ih, yieldAll, List.append_assoc]

end Parse

namespace Construct

/-- What the first round of a repetition consists of: the factor. -/
def firstRound {β : Type} : List β → List β
  | [f, _] => [f]
  | bs => bs

/-- What every other round consists of: the separator, if there is one, and the factor. -/
def nextRound {β : Type} : List β → List β
  | [f, s] => [s, f]
  | bs => bs

/-- Whether the children of a construct follow each other, once each. -/
def isSequence (k : Construct) : Bool :=
  !k.isFlat && !k.isCompound

end Construct

mutual

/-- `Parses rules t p` says that `p` is a parse tree for the construct `t` by the given rules. -/
inductive Parses (rules : List Tree) : Tree → Parse → Prop
  | leaf {l : Label} {ts : List Tree} {w : List Char} (hl : l.kind.isNonterminal = false)
    (hf : l.kind.isFlat = true) (hw : w ∈ Sense.strings.leaf l ts) : Parses rules (.node l ts) (.leaf w)
  | reference {l : Label} {ts : List Tree} {i : Nat} {r : Tree} {p : Parse} (hl : l.kind.isNonterminal = true)
    (hr : rules[i]? = some r) (hn : r.IsRuleNamed l.nameText) (hp : Parses rules r p) :
    Parses rules (.node l ts) (.reference i p)
  | alternative {l : Label} {ts : List Tree} {i : Nat} {t : Tree} {p : Parse} (hl : l.kind = .alts)
    (ht : ts[i]? = some t) (hp : Parses rules t p) : Parses rules (.node l ts) (.alternative i p)
  | sequence {l : Label} {ts : List Tree} {ps : List Parse} (hl : l.kind.isSequence = true)
    (hps : ParsesAll rules ts ps) : Parses rules (.node l ts) (.sequence ps)
  | absent {l : Label} {ts : List Tree} (hl : l.kind = .option) : Parses rules (.node l ts) .absent
  | present {l : Label} {ts : List Tree} {ps : List Parse} (hl : l.kind = .option) (hps : ParsesAll rules ts ps) :
    Parses rules (.node l ts) (.present ps)
  | noRound {l : Label} {ts : List Tree} (hl : l.kind = .repeat0) : Parses rules (.node l ts) (.repetition [])
  | rounds {l : Label} {ts : List Tree} {ps qs : List Parse} (hl : l.kind = .repeat0 ∨ l.kind = .repeat1)
    (hps : ParsesAll rules (Construct.firstRound ts) ps) (hqs : ParsesRounds rules (Construct.nextRound ts) qs) :
    Parses rules (.node l ts) (.repetition (ps ++ qs))

/-- Parse trees for constructs that follow each other. -/
inductive ParsesAll (rules : List Tree) : List Tree → List Parse → Prop
  | nil : ParsesAll rules [] []
  | cons {t : Tree} {ts : List Tree} {p : Parse} {ps : List Parse} (hp : Parses rules t p)
    (hps : ParsesAll rules ts ps) : ParsesAll rules (t :: ts) (p :: ps)

/-- Parse trees for any number of rounds of a repetition. -/
inductive ParsesRounds (rules : List Tree) : List Tree → List Parse → Prop
  | nil {ts : List Tree} : ParsesRounds rules ts []
  | cons {ts : List Tree} {ps qs : List Parse} (hps : ParsesAll rules ts ps) (hqs : ParsesRounds rules ts qs) :
    ParsesRounds rules ts (ps ++ qs)

end

/-- The trees by which a name matches, each with the position of its rule. -/
def Tree.parses (rules : List Tree) (name : String) : Set Parse :=
  {p | ∃ i r q, p = .reference i q ∧ rules[i]? = some r ∧ r.IsRuleNamed name ∧ Parses rules r q}

def Grammar.parses (g : Grammar) : String → Set Parse :=
  Tree.parses g.forest

variable {rules ts us : List Tree} {t : Tree} {l : Label} {p : Parse} {ps : List Parse} {name : String} {k : Construct}
  {ρ ρ' : String → Tally Char}

/-! ### Inversion -/

/-- Whether constructs of the kind can have such a parse tree. -/
def Parse.fits (k : Construct) : Parse → Bool
  | leaf _ => !k.isNonterminal && k.isFlat
  | reference .. => k.isNonterminal
  | alternative .. => k == .alts
  | sequence _ => k.isSequence
  | absent | present _ => k == .option
  | repetition _ => k == .repeat0 || k == .repeat1

theorem Parses.fits (h : Parses rules (.node l ts) p) : p.fits l.kind = true := by
  cases h with
  | leaf hl hf _ => simp [Parse.fits, hl, hf]
  | reference hl _ _ _ | sequence hl _ => exact hl
  | alternative hl _ _ | absent hl | present hl _ | noRound hl => simp [Parse.fits, hl]
  | rounds hl _ _ => simpa [Parse.fits] using hl

theorem parses_of_isSequence (hl : l.kind.isSequence = true) :
    Parses rules (.node l ts) p ↔ ∃ ps, p = .sequence ps ∧ ParsesAll rules ts ps := by
  constructor
  · intro h
    have hp := h.fits
    cases h with
    | sequence _ hps => exact ⟨_, rfl, hps⟩
    | _ =>
      generalize l.kind = k at hl hp
      cases k <;> first | exact absurd hl Bool.false_ne_true | exact absurd hp Bool.false_ne_true
  · rintro ⟨ps, rfl, hps⟩
    exact .sequence hl hps

theorem parses_of_isFlat (hl : l.kind.isNonterminal = false) (hf : l.kind.isFlat = true) :
    Parses rules (.node l ts) p ↔ ∃ w, p = .leaf w ∧ w ∈ Sense.strings.leaf l ts := by
  constructor
  · intro h
    have hp := h.fits
    cases h with
    | leaf _ _ hw => exact ⟨_, rfl, hw⟩
    | reference hn _ _ _ => exact absurd (hl.symm.trans hn) Bool.false_ne_true
    | _ =>
      generalize l.kind = k at hf hp
      cases k <;> first | exact absurd hf Bool.false_ne_true | exact absurd hp Bool.false_ne_true
  · rintro ⟨w, rfl, hw⟩
    exact .leaf hl hf hw

theorem parses_of_alts (hl : l.kind = .alts) :
    Parses rules (.node l ts) p ↔ ∃ i t q, p = .alternative i q ∧ ts[i]? = some t ∧ Parses rules t q := by
  constructor
  · intro h
    have hp := h.fits
    rw [hl] at hp
    cases h with
    | alternative _ ht hq => exact ⟨_, _, _, rfl, ht, hq⟩
    | _ => exact absurd hp Bool.false_ne_true
  · rintro ⟨i, t, q, rfl, ht, hq⟩
    exact .alternative hl ht hq

theorem parses_of_option (hl : l.kind = .option) :
    Parses rules (.node l ts) p ↔ p = .absent ∨ ∃ ps, p = .present ps ∧ ParsesAll rules ts ps := by
  constructor
  · intro h
    have hp := h.fits
    rw [hl] at hp
    cases h with
    | absent _ => exact .inl rfl
    | present _ hps => exact .inr ⟨_, rfl, hps⟩
    | _ => exact absurd hp Bool.false_ne_true
  · rintro (rfl | ⟨ps, rfl, hps⟩)
    · exact .absent hl
    · exact .present hl hps

theorem parses_of_repeat1 (hl : l.kind = .repeat1) :
    Parses rules (.node l ts) p ↔ ∃ ps qs, p = .repetition (ps ++ qs) ∧
      ParsesAll rules (Construct.firstRound ts) ps ∧ ParsesRounds rules (Construct.nextRound ts) qs := by
  constructor
  · intro h
    have hp := h.fits
    rw [hl] at hp
    cases h with
    | rounds _ hps hqs => exact ⟨_, _, rfl, hps, hqs⟩
    | noRound hk => exact absurd (hl.symm.trans hk) Construct.noConfusion
    | _ => exact absurd hp Bool.false_ne_true
  · rintro ⟨ps, qs, rfl, hps, hqs⟩
    exact .rounds (.inr hl) hps hqs

theorem parsesRounds_iff : ParsesRounds rules ts ps ↔
    ps = [] ∨ ∃ qs rs, ps = qs ++ rs ∧ ParsesAll rules ts qs ∧ ParsesRounds rules ts rs := by
  constructor
  · intro h
    cases h with
    | nil => exact .inl rfl
    | cons hqs hrs => exact .inr ⟨_, _, rfl, hqs, hrs⟩
  · rintro (rfl | ⟨qs, rs, rfl, hqs, hrs⟩)
    · exact .nil
    · exact .cons hqs hrs

theorem parsesAll_cons : ParsesAll rules (t :: ts) ps ↔
    ∃ p qs, ps = p :: qs ∧ Parses rules t p ∧ ParsesAll rules ts qs := by
  constructor
  · intro h
    cases h with
    | cons hp hqs => exact ⟨_, _, rfl, hp, hqs⟩
  · rintro ⟨p, qs, rfl, hp, hqs⟩
    exact .cons hp hqs

theorem parsesAll_singleton : ParsesAll rules [t] ps ↔ ∃ p, ps = [p] ∧ Parses rules t p := by
  constructor
  · intro h
    cases h with
    | cons hp hps =>
      cases hps
      exact ⟨_, rfl, hp⟩
  · rintro ⟨p, rfl, hp⟩
    exact .cons hp .nil

/-! ### Their texts -/

theorem Construct.one_le_combine (Ls : List (Language Char)) : 1 ≤ repeat0.combine Ls := by
  match Ls with
  | [] => exact one_le_kstar
  | [F] => exact one_le_kstar
  | [F, S] => exact le_self_add
  | F :: S :: T :: Ls => exact one_le_kstar

theorem Construct.rounds_le_combine (hk : k = .repeat0 ∨ k = .repeat1) (Ls : List (Language Char)) :
    (firstRound Ls).prod * (nextRound Ls).prod∗ ≤ k.combine Ls := by
  rcases hk with rfl | rfl
  · match Ls with
    | [] => exact (Eq.trans (one_mul _) rfl).le
    | [F] => exact mul_kstar_le_kstar
    | [F, S] =>
      simp only [firstRound, nextRound, combine, List.prod_cons, List.prod_nil, mul_one]
      exact le_add_self
    | F :: S :: T :: Ls => exact mul_kstar_le_kstar
  · match Ls with
    | [] => exact le_rfl
    | [F] => exact le_rfl
    | [F, S] =>
      simp only [firstRound, nextRound, combine, List.prod_cons, List.prod_nil, mul_one]
      exact le_rfl
    | F :: S :: T :: Ls => exact le_rfl

theorem Construct.map_firstRound {β γ : Type} (f : β → γ) (bs : List β) :
    (firstRound bs).map f = firstRound (bs.map f) := by
  match bs with
  | [] | [_] | [_, _] | _ :: _ :: _ :: _ => rfl

theorem Construct.map_nextRound {β γ : Type} (f : β → γ) (bs : List β) :
    (nextRound bs).map f = nextRound (bs.map f) := by
  match bs with
  | [] | [_] | [_, _] | _ :: _ :: _ :: _ => rfl

theorem Construct.combine_of_isSequence (hk : k.isSequence = true) (Ls : List (Language Char)) :
    k.combine Ls = Ls.prod := by
  cases k <;> first | rfl | cases hk

theorem mem_of_le {L M : Language Char} {w : List Char} (h : L ≤ M) (hw : w ∈ L) : w ∈ M :=
  h hw

mutual

/-- What a parse tree matches is denoted by the construct. -/
theorem yield_mem_denote : ∀ {t : Tree} {p : Parse}, Parses rules t p →
    p.yield ∈ t.denote Sense.strings (Tree.meaning Sense.strings rules)
  | _, _, .leaf hl hf hw => by
    rw [Tree.denote_of_isFlat hl hf]
    exact hw
  | _, _, .reference hl hr hn hp => by
    rw [Tree.denote_of_nonterminal hl]
    have hq := yield_mem_denote hp
    exact Tree.mem_meaning.mpr ⟨_, List.mem_of_getElem? hr, hn, hq⟩
  | .node l ts, .alternative i p, .alternative hl ht hp => by
    rw [Tree.denote_of_not_isFlat (by rw [hl]; rfl), hl]
    have hq := yield_mem_denote hp
    refine mem_of_le ?_ hq
    exact List.single_le_sum (fun _ _ => bot_le) _ (List.mem_map_of_mem (List.mem_of_getElem? ht))
  | .node l ts, .sequence ps, .sequence hl hps => by
    rw [Construct.isSequence, Bool.and_eq_true, Bool.not_eq_true'] at hl
    rw [Tree.denote_of_not_isFlat hl.1, Construct.combine_of_isSequence (by simp [Construct.isSequence, hl])]
    exact yieldAll_mem_prod hps
  | .node l ts, .absent, .absent hl => by
    rw [Tree.denote_of_not_isFlat (by rw [hl]; rfl), hl]
    exact Or.inl rfl
  | .node l ts, .present ps, .present hl hps => by
    rw [Tree.denote_of_not_isFlat (by rw [hl]; rfl), hl]
    exact Or.inr (yieldAll_mem_prod hps)
  | .node l ts, .repetition [], .noRound hl => by
    rw [Tree.denote_of_not_isFlat (by rw [hl]; rfl), hl]
    exact mem_of_le (Construct.one_le_combine _) rfl
  | .node l ts, .repetition _, .rounds hl hps hqs => by
    rw [Tree.denote_of_not_isFlat (by rcases hl with hl | hl <;> rw [hl] <;> rfl)]
    refine mem_of_le (Construct.rounds_le_combine hl _) ?_
    rw [← Construct.map_firstRound, ← Construct.map_nextRound, Parse.yield, Parse.yieldAll_append]
    exact Language.append_mem_mul (yieldAll_mem_prod hps) (yieldAll_mem_kstar hqs)

/-- What parse trees for constructs in a row match is denoted by these. -/
theorem yieldAll_mem_prod : ∀ {ts : List Tree} {ps : List Parse}, ParsesAll rules ts ps →
    Parse.yieldAll ps ∈ (ts.map (Tree.denote Sense.strings (Tree.meaning Sense.strings rules))).prod
  | _, _, .nil => rfl
  | _, _, .cons hp hps => by
    rw [List.map_cons, List.prod_cons]
    exact Language.append_mem_mul (yield_mem_denote hp) (yieldAll_mem_prod hps)

/-- What the rounds of a repetition match. -/
theorem yieldAll_mem_kstar : ∀ {ts : List Tree} {ps : List Parse}, ParsesRounds rules ts ps →
    Parse.yieldAll ps ∈ (ts.map (Tree.denote Sense.strings (Tree.meaning Sense.strings rules))).prod∗
  | _, _, .nil => mem_of_le one_le_kstar rfl
  | _, _, .cons hps hqs => by
    rw [Parse.yieldAll_append]
    exact mem_of_le mul_kstar_le_kstar (Language.append_mem_mul (yieldAll_mem_prod hps) (yieldAll_mem_kstar hqs))

end

theorem yield_mem_language {g : Grammar} (hp : p ∈ g.parses name) : p.yield ∈ g.language name := by
  obtain ⟨i, r, q, rfl, hr, hn, hq⟩ := hp
  have hyield := yield_mem_denote hq
  exact Tree.mem_meaning.mpr ⟨r, List.mem_of_getElem? hr, hn, hyield⟩

end Ixml
