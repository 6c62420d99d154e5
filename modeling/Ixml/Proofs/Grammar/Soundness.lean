import Ixml.Proofs.Grammar.Running

/-!
# What is read is derived

Whatever a reader gives, the tokens that it takes derive it (`Derives`), and a grammar is read to the end of the
tokens (`takes_grammar`).
-/

namespace Ixml.Reader

open Phrase

variable {α : Type} {us vs : List Token} {a : Literal} {last : Text.Position} {fuel : Nat}

/-- Whatever the reader gives is derived from the tokens that it takes. -/
def Derives (m : Reader α) (P : List Token → α → Prop) : Prop :=
  ∀ us, Takes m us fun a vs => ∃ ws, us = ws ++ vs ∧ P ws a

/-! ### Sets -/

theorem takes_literal : Takes (literal last) us fun a vs => ∃ u, us = u :: vs ∧ IsValue u a := by
  refine gives_take.bindTakes ?_
  cases us with
  | nil => exact .fail _
  | cons u us =>
    split
    · rename_i s h
      obtain rfl := Option.some.inj h
      exact .pure ⟨_, rfl, .string s⟩
    · rename_i digits h
      obtain rfl := Option.some.inj h
      refine .lift fun a ha => ?_
      obtain ⟨c, rfl, hc⟩ := Literal.ofHex_eq_ok_iff.mp ha
      exact ⟨_, rfl, .hex hc⟩
    · exact .fail _

theorem takes_bound : Takes (bound last a) us fun x vs => vs = us ∧ a.text = String.singleton x := by
  cases a with
  | coded c => exact .pure ⟨rfl, rfl⟩
  | quoted s =>
    unfold bound
    dsimp only
    split
    · rename_i c hs
      refine .pure ⟨rfl, String.toList_inj.mp ?_⟩
      rw [String.toList_singleton]
      exact hs
    · exact .fail _

theorem takes_memberFrom {u : Token} (hu : IsValue u a) : Takes (memberFrom last a) us fun m vs =>
    ∃ ws, u :: us = ws ++ vs ∧ IsMember ws m := by
  refine (gives_sees _).bindTakes ?_
  split
  · exact .pure ⟨[u], rfl, .value hu⟩
  · rename_i hminus
    cases us with
    | nil => exact absurd rfl hminus
    | cons v us =>
      obtain rfl : v = .minus := by simpa using hminus
      refine gives_discard.bindTakes (takes_literal.bind fun b vs ⟨v, hvs, hv⟩ => ?_)
      obtain rfl : us = v :: vs := hvs
      refine takes_bound.bind fun x vs' ⟨hvs', hx⟩ => takes_bound.bind fun y vs'' ⟨hvs'', hy⟩ => ?_
      obtain rfl : vs'' = vs := hvs''.trans hvs'
      split
      · exact .throw _
      · rename_i hxy
        exact .pure ⟨[u, .minus, v], rfl, .range hu hv hx hy (Char.not_lt.mp hxy)⟩

theorem derives_member : Derives (member last) IsMember := by
  intro us
  rw [member_eq]
  refine gives_peek.bindTakes ?_
  split
  · rename_i code h
    obtain ⟨vs, rfl⟩ := List.head?_eq_some_iff.mp h
    refine gives_discard.bindTakes ?_
    split
    · rename_i hcode
      exact .pure ⟨[.ident code], rfl, .category hcode⟩
    · exact .throw _
  · refine takes_literal.bind fun a vs ⟨u, hus, hu⟩ => ?_
    rw [hus]
    exact takes_memberFrom hu

theorem takes_members (fuel : Nat) : Takes (members last fuel) us fun ms vs =>
    ∃ ws, us = ws ++ .rightBracket :: vs ∧ IsMembers ws ms := by
  induction fuel generalizing us with
  | zero => exact .fail _
  | succ fuel ih =>
    refine (gives_sees _).bindTakes ?_
    split
    · rename_i h
      obtain ⟨u, vs, rfl, hu⟩ := exists_of_any_head? h
      obtain rfl : u = .rightBracket := by simpa using hu
      exact gives_discard.bindTakes (.pure ⟨[], rfl, .nil⟩)
    · refine gives_atEnd.bindTakes ?_
      split
      · exact .fail _
      · refine (derives_member us).bind fun m vs ⟨ws, hus, hm⟩ => (gives_sees _).bindTakes ?_
        subst hus
        split
        · rename_i h
          obtain ⟨s, vs, rfl, hs⟩ := exists_of_any_head? h
          refine gives_discard.bindTakes (ih.bind fun ms vs' ⟨ws', hvs, hms⟩ => .pure ?_)
          obtain rfl : vs = ws' ++ .rightBracket :: vs' := hvs
          have hs : s = .semicolon ∨ s = .pipe ∨ s = .comma := by
            simpa [isMemberEnd, or_assoc] using hs
          exact ⟨ws ++ s :: ws', by simp, .ended hm hs hms⟩
        · refine ih.bind fun ms vs' ⟨ws', hvs, hms⟩ => .pure ⟨ws ++ ws', ?_, .cons hm hms⟩
          rw [hvs, List.append_assoc]

theorem takes_bracketed (k : Construct) : Takes (bracketed last k) us fun t vs =>
    ∃ ws ms, us = .leftBracket :: ws ++ .rightBracket :: vs ∧ IsMembers ws ms ∧ t = .ofKind k ms := by
  refine (takes_expect _).bind fun _ vs hvs => .getBind fun ts _ => ?_
  refine (takes_members _).bind fun ms vs' ⟨ws, hvs', hms⟩ => .pure ⟨ws, ms, ?_, hms, rfl⟩
  rw [hvs, hvs']
  rfl

/-! ### Terms -/

theorem takes_terminalMark (m : Option Mark) : Takes (terminalMark (m.map Mark.sign)) us fun k vs =>
    vs = us ∧ ∃ n : Option TerminalMark, markTokens m = terminalMarkTokens n ∧ k = n.getD .keep := by
  rcases m with _ | _ | _ | _
  · exact .pure ⟨rfl, none, rfl, rfl⟩
  · exact .lift fun k hk => ⟨rfl, some .keep, rfl, by cases hk; rfl⟩
  · exact .lift fun k hk => by cases hk
  · exact .lift fun k hk => ⟨rfl, some .hidden, rfl, by cases hk; rfl⟩

theorem takes_markedLiteral (m : Option Mark) : Takes (do
      let k ← terminalMark (m.map Mark.sign)
      let value ← literal last
      return Tree.ofKind (.literal k value)) us fun t vs =>
    ∃ ws, markTokens m ++ us = ws ++ vs ∧ IsTerm free ws t := by
  refine (takes_terminalMark m).bind fun k us' ⟨hus', n, hn, hk⟩ => ?_
  refine takes_literal.bind fun a vs ⟨u, hvs, hu⟩ => .pure ⟨terminalMarkTokens n ++ [u], ?_, ?_⟩
  · rw [hn, ← hus', hvs, List.append_assoc]
    rfl
  · rw [hk]
    exact .literal n hu

theorem takes_markedSet (m : Option Mark) : Takes (do
      let k ← terminalMark (m.map Mark.sign)
      charSet last k) us fun t vs => ∃ ws, markTokens m ++ us = ws ++ vs ∧ IsTerm free ws t := by
  refine (takes_terminalMark m).bind fun k us' ⟨hus', n, hn, hk⟩ => ?_
  subst hus' hk
  rw [charSet_eq, hn]
  refine (gives_sees _).bindTakes ?_
  split
  · rename_i h
    obtain ⟨u, vs, rfl, hu⟩ := exists_of_any_head? h
    obtain rfl : u = .tilde := by simpa using hu
    refine gives_discard.bindTakes ((takes_bracketed _).mono ?_)
    rintro t vs' ⟨ws, ms, hvs, hms, rfl⟩
    obtain rfl : vs = .leftBracket :: ws ++ .rightBracket :: vs' := hvs
    exact ⟨_, by simp, .exclusion n hms⟩
  · refine (takes_bracketed _).mono ?_
    rintro t vs' ⟨ws, ms, rfl, hms, rfl⟩
    exact ⟨_, by simp, .inclusion n hms⟩

theorem takes_marked (m : Option Mark) : Takes (marked last (m.map Mark.sign)) us fun t vs =>
    ∃ ws, markTokens m ++ us = ws ++ vs ∧ IsTerm free ws t := by
  refine gives_peek.bindTakes ?_
  split
  · rename_i name h
    obtain ⟨vs, rfl⟩ := List.head?_eq_some_iff.mp h
    refine gives_discard.bindTakes ?_
    cases m with
    | none => exact .pure ⟨[.ident name], rfl, .nonterminal none name⟩
    | some m =>
      refine (Gives.lift m.ofSign_sign).bindTakes (.pure ⟨[m.token, .ident name], rfl, .nonterminal (some m) name⟩)
  · exact takes_markedLiteral m
  · exact takes_markedLiteral m
  · exact takes_markedSet m
  · exact takes_markedSet m
  · exact .fail _

/-! ### Factors and alternatives -/

/-- What the readers of factors derive that call each other. -/
structure DerivesFactors (last : Text.Position) (fuel : Nat) : Prop where
  alts : Derives (alts last fuel) (IsAlts free)
  furtherAlts : Derives (furtherAlts last fuel) (IsFurtherAlts free)
  alt : Derives (alt last fuel) (IsAlt free)
  commaTerms : Derives (commaTerms last fuel) (IsCommaFactors free)
  adjacentTerms : Derives (adjacentTerms last fuel) (IsFactors free)
  term : Derives (term last fuel) fun us t => ∃ e, IsFactor free e us t
  factor : Derives (factor last fuel) (IsTerm free)

theorem DerivesFactors.alts_succ (h : DerivesFactors last fuel) :
    Derives (Reader.alts last (fuel + 1)) (IsAlts free) := by
  intro us
  rw [Reader.alts]
  refine (h.alt us).bind fun t vs ⟨us', hus, ht⟩ => (h.furtherAlts vs).bind fun ts ws ⟨vs', hvs, hts⟩ => ?_
  exact .pure ⟨us' ++ vs', by rw [hus, hvs, List.append_assoc], .mk ht hts⟩

theorem DerivesFactors.furtherAlts_succ (h : DerivesFactors last fuel) :
    Derives (Reader.furtherAlts last (fuel + 1)) (IsFurtherAlts free) := by
  intro us
  rw [Reader.furtherAlts]
  refine (gives_sees _).bindTakes ?_
  split
  · rename_i hbar
    obtain ⟨s, us, rfl, hs⟩ := exists_of_any_head? hbar
    refine gives_discard.bindTakes ((h.alt _).bind fun t vs ⟨us', hus, ht⟩ => ?_)
    refine (h.furtherAlts vs).bind fun ts ws ⟨vs', hvs, hts⟩ => .pure ⟨s :: us' ++ vs', ?_, .cons ?_ ht hts⟩
    · obtain rfl : us = us' ++ vs := hus
      rw [hvs]
      simp
    · simpa [isBar] using hs
  · exact .pure ⟨[], rfl, .nil⟩

theorem DerivesFactors.alt_succ (h : DerivesFactors last fuel) :
    Derives (Reader.alt last (fuel + 1)) (IsAlt free) := by
  intro us
  rw [Reader.alt]
  refine gives_atAltEnd.bindTakes ?_
  split
  · exact .pure ⟨[], rfl, .adjacent .nil⟩
  · refine (h.term us).bind fun t vs ⟨us', hus, e, ht⟩ => (gives_sees _).bindTakes ?_
    subst hus
    split
    · refine (h.commaTerms vs).bind fun ts ws ⟨vs', hvs, hts⟩ => .pure ⟨us' ++ vs', ?_, .commas ht hts⟩
      rw [hvs, List.append_assoc]
    · refine (h.adjacentTerms vs).bind fun ts ws ⟨vs', hvs, hts⟩ => .pure ⟨us' ++ vs', ?_, ?_⟩
      · rw [hvs, List.append_assoc]
      · exact .adjacent (.cons ht trivial hts)

theorem DerivesFactors.commaTerms_succ (h : DerivesFactors last fuel) :
    Derives (Reader.commaTerms last (fuel + 1)) (IsCommaFactors free) := by
  intro us
  rw [Reader.commaTerms]
  refine (gives_sees _).bindTakes ?_
  split
  · rename_i hcomma
    obtain ⟨s, us, rfl, hs⟩ := exists_of_any_head? hcomma
    obtain rfl : s = .comma := by simpa using hs
    refine gives_discard.bindTakes ((h.term _).bind fun t vs ⟨us', hus, e, ht⟩ => ?_)
    refine (h.commaTerms vs).bind fun ts ws ⟨vs', hvs, hts⟩ => .pure ⟨.comma :: us' ++ vs', ?_, .cons ht hts⟩
    obtain rfl : us = us' ++ vs := hus
    rw [hvs]
    simp
  · exact .pure ⟨[], rfl, .nil⟩

theorem DerivesFactors.adjacentTerms_succ (h : DerivesFactors last fuel) :
    Derives (Reader.adjacentTerms last (fuel + 1)) (IsFactors free) := by
  intro us
  rw [Reader.adjacentTerms]
  refine gives_atAltEnd.bindTakes ?_
  split
  · exact .pure ⟨[], rfl, .nil⟩
  · refine (h.term us).bind fun t vs ⟨us', hus, e, ht⟩ => (h.adjacentTerms vs).bind fun ts ws ⟨vs', hvs, hts⟩ => ?_
    exact .pure ⟨us' ++ vs', by rw [hus, hvs, List.append_assoc], .cons ht trivial hts⟩

theorem exists_sign_of_suffix? {k : Construct} (h : us.head?.bind suffix? = some (k, false)) :
    ∃ s vs, us = s :: vs ∧ IsSign s k := by
  obtain ⟨s, hs, hk⟩ := Option.bind_eq_some_iff.mp h
  obtain ⟨vs, rfl⟩ := List.head?_eq_some_iff.mp hs
  refine ⟨s, vs, rfl, ?_⟩
  unfold suffix? at hk
  split at hk <;> cases hk <;> constructor

theorem exists_doubleSign_of_suffix? {k : Construct} (h : us.head?.bind suffix? = some (k, true)) :
    ∃ s vs, us = s :: vs ∧ IsDoubleSign s k := by
  obtain ⟨s, hs, hk⟩ := Option.bind_eq_some_iff.mp h
  obtain ⟨vs, rfl⟩ := List.head?_eq_some_iff.mp hs
  refine ⟨s, vs, rfl, ?_⟩
  unfold suffix? at hk
  split at hk <;> cases hk <;> constructor

theorem DerivesFactors.term_succ (h : DerivesFactors last fuel) :
    Derives (Reader.term last (fuel + 1)) fun us t => ∃ e, IsFactor free e us t := by
  intro us
  obtain ⟨ps, us, rfl, hus⟩ := exists_pragmas us
  rw [Reader.term]
  refine (gives_pragmas ps hus).bindTakes ((h.factor us).bind fun t vs ⟨us', hus', ht⟩ => ?_)
  subst hus'
  refine gives_peek.bindTakes ?_
  split
  · exact .pure ⟨pragmaTokens ps ++ us', by rw [List.append_assoc], true, .bare ps ht⟩
  · rename_i k hsuffix
    obtain ⟨s, vs, rfl, hs⟩ := exists_sign_of_suffix? hsuffix
    exact gives_discard.bindTakes (.pure ⟨pragmaTokens ps ++ us' ++ [s], by simp, false, .signed ps ht hs⟩)
  · rename_i k hsuffix
    obtain ⟨s, vs, rfl, hs⟩ := exists_doubleSign_of_suffix? hsuffix
    refine gives_discard.bindTakes ((h.term _).bind fun u ws ⟨vs', hvs, e, hu⟩ => ?_)
    obtain rfl : vs = vs' ++ ws := hvs
    exact .pure ⟨pragmaTokens ps ++ us' ++ s :: vs', by simp, e, .separated ps ht hs hu⟩

theorem DerivesFactors.factor_succ (h : DerivesFactors last fuel) :
    Derives (Reader.factor last (fuel + 1)) (IsTerm free) := by
  intro us
  rw [Reader.factor_succ]
  refine gives_peek.bindTakes ?_
  split
  · rename_i hparen
    obtain ⟨us, rfl⟩ := List.head?_eq_some_iff.mp hparen
    refine gives_discard.bindTakes ((h.alts _).bind fun t vs ⟨us', hus, ht⟩ => ?_)
    refine (takes_expect _).bind fun _ ws hvs => .pure ⟨.leftParen :: us' ++ [.rightParen], ?_, .group ht⟩
    obtain rfl : us = us' ++ vs := hus
    rw [hvs]
    simp
  · rename_i hplus
    obtain ⟨us, rfl⟩ := List.head?_eq_some_iff.mp hplus
    refine gives_discard.bindTakes (takes_literal.bind fun a vs ⟨u, hus, hu⟩ => ?_)
    obtain rfl : us = u :: vs := hus
    exact .pure ⟨[.plus, u], rfl, .insertion hu⟩
  · obtain ⟨m, vs, rfl, hm⟩ := exists_mark us
    exact hm.bindTakes (takes_marked m)

theorem derivesFactors (fuel : Nat) : DerivesFactors last fuel := by
  induction fuel with
  | zero =>
    constructor <;> intro us
    · rw [alts]; exact .fail _
    · rw [furtherAlts]; exact .fail _
    · rw [alt]; exact .fail _
    · rw [commaTerms]; exact .fail _
    · rw [adjacentTerms]; exact .fail _
    · rw [term]; exact .fail _
    · rw [factor]; exact .fail _
  | succ fuel ih =>
    exact ⟨ih.alts_succ, ih.furtherAlts_succ, ih.alt_succ, ih.commaTerms_succ, ih.adjacentTerms_succ,
      ih.term_succ, ih.factor_succ⟩

/-! ### Rules -/

theorem takes_ruleFrom (ps : List Tree) (m : Option Mark) : Takes (ruleFrom last ps (m.getD .element)) us fun t vs =>
    ∃ ws, markTokens m ++ us = ws ++ vs ∧ IsRule free ps ws t := by
  refine gives_take.bindTakes ?_
  split
  · rename_i name h
    obtain ⟨us, rfl⟩ := List.head?_eq_some_iff.mp h
    refine (gives_sees _).bindTakes ?_
    split
    · exact .fail _
    · rename_i hsees
      obtain ⟨s, us, rfl, hs⟩ := exists_of_any_head? (by simpa using hsees)
      refine gives_discard.bindTakes (.getBind fun ts _ => ((derivesFactors _).alts _).bind fun t vs ⟨us', hus, ht⟩ => ?_)
      refine (gives_sees _).bindTakes ?_
      split
      · exact .fail _
      · rename_i hperiod
        obtain ⟨p, vs, rfl, hp⟩ := exists_of_any_head? (by simpa using hperiod)
        obtain rfl : p = .period := by simpa using hp
        obtain rfl : us = us' ++ .period :: vs := hus
        exact gives_discard.bindTakes (.pure ⟨markTokens m ++ .ident name :: s :: us' ++ [.period], by simp,
          .mk m name (by simpa using hs) ht⟩)
  · exact .fail _

theorem derives_rule (ps : List Tree) : Derives (rule last ps) (IsRule free ps) := by
  intro us
  obtain ⟨m, us, rfl, hm⟩ := exists_mark us
  rw [rule_eq]
  refine hm.bindTakes ?_
  cases m with
  | none => exact takes_ruleFrom ps none
  | some m => exact (Gives.lift m.ofSign_sign).bindTakes (takes_ruleFrom ps (some m))

theorem takes_rules (ps : List (String × String)) (hfuel : us.length < fuel) :
    Takes (rules last fuel (pragmaTrees ps)) us fun ts vs => vs = [] ∧
      (IsRules free (pragmaTokens ps ++ us) ts ∨
        ∃ qs, pragmaTokens ps ++ us = pragmaTokens qs ∧ ts = pragmaTrees qs) := by
  induction fuel generalizing us ps with
  | zero => omega
  | succ fuel ih =>
    rw [rules]
    refine gives_atEnd.bindTakes ?_
    split
    · rename_i hnil
      obtain rfl := List.isEmpty_iff.mp hnil
      exact .pure ⟨rfl, .inr ⟨ps, List.append_nil _, rfl⟩⟩
    · obtain ⟨qs, us, rfl, hus⟩ := exists_pragmas us
      refine (gives_pragmas qs hus).bindTakes (gives_atEnd.bindTakes ?_)
      rw [← pragmaTrees_append]
      split
      · rename_i hnil
        obtain rfl := List.isEmpty_iff.mp hnil
        exact .pure ⟨rfl, .inr ⟨ps ++ qs, by rw [List.append_nil, pragmaTokens_append], rfl⟩⟩
      · refine (derives_rule _ us).bind fun r vs ⟨us', hus', hr⟩ => ?_
        subst hus'
        have hlen : vs.length < fuel := by
          obtain ⟨u, ws, rfl, -⟩ := hr.exists_cons
          simp only [List.length_append, List.length_cons] at hfuel
          omega
        refine (ih [] hlen).bind fun ts ws ⟨hws, hts⟩ => ?_
        subst hws
        rw [← List.append_assoc, ← pragmaTokens_append, ← List.append_assoc]
        rcases hts with hts | ⟨rs, hrs, rfl⟩
        · exact .pure ⟨rfl, .inl (.cons (ps ++ qs) hr hts)⟩
        · obtain rfl : vs = pragmaTokens rs := hrs
          exact .pure ⟨rfl, .inl (.one (ps ++ qs) rs hr)⟩

theorem any_isRule_pragmaTrees (ps : List (String × String)) :
    (pragmaTrees ps).any (·.label.kind.isRule) = false := by
  rw [pragmaTrees, List.any_map]
  exact List.any_eq_false.mpr fun _ _ => Bool.false_ne_true

theorem takes_grammarFrom (top : List Tree) (ps : List (String × String)) :
    Takes (grammarFrom last top (pragmaTrees ps)) us fun ts vs => vs = [] ∧
      ∃ rs, ts = top ++ rs ∧ IsRules free (pragmaTokens ps ++ us) rs := by
  refine .getBind fun ws hws => (takes_rules ps ?_).bind fun ts vs ⟨hvs, hts⟩ => ?_
  · rw [← hws, List.length_map]
    omega
  · subst hvs
    split
    · rename_i hany
      rcases hts with hts | ⟨qs, -, rfl⟩
      · exact .pure ⟨rfl, ts, rfl, hts⟩
      · rw [any_isRule_pragmaTrees] at hany
        cases hany
    · exact .throw _

theorem takes_prolog (ps : List Tree) {u v : Token} :
    Takes (prolog last ps) (u :: v :: us) fun ts vs => ∃ version qs,
      us = .string version :: pragmaTokens qs ++ .period :: vs ∧
      ts = .ofKind .prolog [.ofKind (.version version)] :: (ps ++ pragmaTrees qs) := by
  refine gives_discard.bindTakes (gives_discard.bindTakes (gives_take.bindTakes ?_))
  split
  · rename_i version h
    obtain ⟨us, rfl⟩ := List.head?_eq_some_iff.mp h
    obtain ⟨qs, us, rfl, hus⟩ := exists_pragmas us
    refine (gives_pragmas qs hus).bindTakes ((takes_expect _).bind fun _ vs hvs => .pure ⟨version, qs, ?_, rfl⟩)
    rw [hvs]
    rfl
  · exact .fail _

theorem exists_of_opensProlog {ts : List Token.Placed} (hts : ts.map (·.token) = us) (h : opensProlog ts = true) :
    ∃ vs, us = .ident "ixml" :: .ident "version" :: vs := by
  rcases us with _ | ⟨u, _ | ⟨v, us⟩⟩
  · obtain rfl := List.map_eq_nil_iff.mp hts
    cases h
  · obtain ⟨t, rfl, -⟩ := List.map_eq_singleton_iff.mp hts
    cases h
  · rw [opensProlog_eq hts, Bool.and_eq_true, beq_iff_eq, beq_iff_eq] at h
    obtain ⟨rfl, rfl⟩ := h
    exact ⟨us, rfl⟩

/-- What is read as a grammar is derived, and no tokens are left. -/
theorem takes_grammar : Takes (grammar last) us fun ts vs => vs = [] ∧ IsGrammar free us ts := by
  obtain ⟨ps, us, rfl, hus⟩ := exists_pragmas us
  rw [grammar_eq]
  refine (gives_pragmas ps hus).bindTakes (.getBind fun ws hws => ?_)
  split
  · rename_i hopens
    obtain ⟨us, rfl⟩ := exists_of_opensProlog hws hopens
    refine (takes_prolog _).bind ?_
    rintro top vs ⟨version, qs, rfl, rfl⟩
    refine (takes_grammarFrom _ []).mono ?_
    rintro ts ws ⟨hws, rs, rfl, hrs⟩
    have := IsGrammar.prolog ps qs version hrs
    rw [pragmaTrees_append] at this
    exact ⟨hws, by simpa [pragmaTokens] using this⟩
  · refine (takes_grammarFrom [] ps).mono ?_
    rintro ts ws ⟨hws, rs, rfl, hrs⟩
    exact ⟨hws, .plain hrs⟩

end Ixml.Reader
