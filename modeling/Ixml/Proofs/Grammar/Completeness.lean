import Ixml.Proofs.Grammar.Running

/-!
# What is derived is read

On the tokens of a greedy derivation the readers give exactly its trees. A reader for a part of a grammar takes
the tokens of that part when those that follow cannot go on with it, and its bound is large enough when it
exceeds six times their number by the number of calls that the reader makes before it takes a token.
-/

namespace Ixml

namespace Reader

open Phrase

variable {us vs ws : List Token} {u : Token} {a : Literal} {x : Char} {t m : Tree} {ts ms : List Tree}
  {k : Construct} {last : Text.Position} {fuel : Nat}

/-! ### Sets -/

theorem gives_literal (h : IsValue u a) : Gives (literal last) (u :: us) a us := by
  cases h with
  | string s => exact gives_take.bind .pure
  | hex h => exact gives_take.bind (.lift (Literal.ofHex_eq_ok_iff.mpr ⟨_, rfl, h⟩))

theorem gives_bound (h : a.text = String.singleton x) : Gives (bound last a) us x us := by
  cases a with
  | coded c =>
    obtain rfl : c = x := by simpa [Literal.text] using congrArg String.toList h
    exact .pure
  | quoted s =>
    obtain rfl : s = String.singleton x := h
    simp only [bound, String.toList_singleton]
    exact .pure

theorem gives_member (ha : IsValue u a) (h : Gives (memberFrom last a) us m vs) :
    Gives (member last) (u :: us) m vs := by
  rw [member_eq]
  refine gives_peek.bind ?_
  cases ha with
  | string s => exact (gives_literal (.string s)).bind h
  | hex hc => exact (gives_literal (.hex hc)).bind h

theorem gives_member_of_isMember (h : IsMember us m) (hv : vs.head?.any (· == .minus) = false) :
    Gives (member last) (us ++ vs) m vs := by
  cases h with
  | category h =>
    refine gives_peek.bind (gives_discard.bind ?_)
    rw [if_pos h]
    exact .pure
  | value h =>
    rw [List.singleton_append]
    refine gives_member h ((gives_sees _).bind ?_)
    rw [hv]
    exact .pure
  | range ha hb hx hy h =>
    refine gives_member ha ((gives_sees _).bind (gives_discard.bind ((gives_literal hb).bind ?_)))
    refine (gives_bound hx).bind ((gives_bound hy).bind ?_)
    rw [if_neg (Char.not_lt.mpr h)]
    exact .pure

theorem exists_cons_of_isMember (h : IsMember us m) :
    ∃ u vs, us = u :: vs ∧ u ≠ .rightBracket ∧ u ≠ .minus ∧ isMemberEnd u = false := by
  have hvalue {u : Token} {a : Literal} (h : IsValue u a) :
      u ≠ .rightBracket ∧ u ≠ .minus ∧ isMemberEnd u = false := by
    cases h <;> exact ⟨nofun, nofun, rfl⟩
  cases h with
  | category h => exact ⟨_, _, rfl, nofun, nofun, rfl⟩
  | value h => exact ⟨_, _, rfl, hvalue h⟩
  | range ha => exact ⟨_, _, rfl, hvalue ha⟩

theorem gives_members_nil : Gives (members last (fuel + 1)) (.rightBracket :: vs) [] vs :=
  (gives_sees _).bind (gives_discard.bind .pure)

theorem gives_members_cons (hm : IsMember us m) (hv : vs.head?.any (· == .minus) = false)
    (h : Gives (members last fuel) (if vs.head?.any isMemberEnd then vs.tail else vs) ms ws) :
    Gives (members last (fuel + 1)) (us ++ vs) (m :: ms) ws := by
  obtain ⟨u, us, rfl, hu, -⟩ := exists_cons_of_isMember hm
  rw [members]
  refine (gives_sees _).bind ?_
  rw [if_neg (by simpa using hu)]
  refine gives_atEnd.bind ((gives_member_of_isMember hm hv).bind ((gives_sees _).bind ?_))
  by_cases hend : vs.head?.any isMemberEnd = true
  · rw [if_pos hend] at h ⊢
    exact gives_discard.bind (h.bind .pure)
  · rw [if_neg hend] at h ⊢
    exact h.bind .pure

theorem gives_members (h : IsMembers us ms) (hfuel : us.length < fuel) :
    Gives (members last fuel) (us ++ .rightBracket :: vs) ms vs := by
  induction h generalizing fuel with
  | nil =>
    obtain ⟨fuel, rfl⟩ := Nat.exists_eq_add_one_of_ne_zero (Nat.ne_zero_of_lt hfuel)
    exact gives_members_nil
  | @cons us ws m ms hm hms ih =>
    obtain ⟨fuel, rfl⟩ := Nat.exists_eq_add_one_of_ne_zero (Nat.ne_zero_of_lt hfuel)
    obtain ⟨u, us, rfl, -⟩ := exists_cons_of_isMember hm
    have hnext : (ws ++ .rightBracket :: vs).head?.any (· == .minus) = false ∧
        (ws ++ .rightBracket :: vs).head?.any isMemberEnd = false := by
      cases hms with
      | nil => exact ⟨rfl, rfl⟩
      | cons hm hms =>
        obtain ⟨u, us, rfl, -, hu, hend⟩ := exists_cons_of_isMember hm
        exact ⟨by simpa using hu, hend⟩
      | ended hm hs hms =>
        obtain ⟨u, us, rfl, -, hu, hend⟩ := exists_cons_of_isMember hm
        exact ⟨by simpa using hu, hend⟩
    rw [List.append_assoc]
    refine gives_members_cons hm hnext.1 ?_
    rw [hnext.2]
    exact ih (by simp at hfuel; omega)
  | @ended us ws s m ms hm hs hms ih =>
    obtain ⟨fuel, rfl⟩ := Nat.exists_eq_add_one_of_ne_zero (Nat.ne_zero_of_lt hfuel)
    rw [List.append_assoc]
    have hnext : isMemberEnd s = true ∧ s ≠ .minus := by
      rcases hs with rfl | rfl | rfl <;> exact ⟨rfl, nofun⟩
    refine gives_members_cons hm (by simpa using hnext.2) ?_
    rw [if_pos (by simpa using hnext.1)]
    exact ih (by simp at hfuel; omega)

theorem gives_bracketed (h : IsMembers us ms) :
    Gives (bracketed last k) (.leftBracket :: us ++ .rightBracket :: vs) (.ofKind k ms) vs := by
  refine (gives_expect _).bind (.getBind fun ts hts => (gives_members h ?_).bind .pure)
  have := congrArg List.length hts
  simp at this
  omega

theorem gives_inclusion (n : TerminalMark) (h : IsMembers us ms) :
    Gives (charSet last n) (.leftBracket :: us ++ .rightBracket :: vs) (.ofKind (.inclusion n) ms) vs := by
  rw [charSet_eq]
  exact (gives_sees _).bind (gives_bracketed h)

theorem gives_exclusion (n : TerminalMark) (h : IsMembers us ms) :
    Gives (charSet last n) (.tilde :: .leftBracket :: us ++ .rightBracket :: vs) (.ofKind (.exclusion n) ms) vs := by
  rw [charSet_eq]
  exact (gives_sees _).bind (gives_discard.bind (gives_bracketed h))

/-! ### Terms -/

theorem gives_group (h : Gives (alts last fuel) us t (.rightParen :: vs)) :
    Gives (factor last (fuel + 1)) (.leftParen :: us) t vs := by
  rw [factor_succ]
  exact gives_peek.bind (gives_discard.bind (h.bind ((gives_expect _).bind .pure)))

theorem gives_insertion (h : IsValue u a) :
    Gives (factor last (fuel + 1)) (.plus :: u :: us) (.ofKind (.insertion a)) us := by
  rw [factor_succ]
  exact gives_peek.bind (gives_discard.bind ((gives_literal h).bind .pure))

theorem gives_marked {sign : Option Char} (hu : u ≠ .leftParen) (hu' : u ≠ .plus)
    (h : Gives mark (u :: us) sign vs) (hv : Gives (marked last sign) vs t ws) :
    Gives (factor last (fuel + 1)) (u :: us) t ws := by
  rw [factor_succ]
  refine gives_peek.bind ?_
  split
  · rename_i h
    exact absurd (Option.some.inj h) hu
  · rename_i h
    exact absurd (Option.some.inj h) hu'
  · exact h.bind hv

theorem gives_nonterminal (m : Option Mark) (name : String) :
    Gives (factor last (fuel + 1)) (markTokens m ++ .ident name :: us) (.named (.nonterminal m none) name) us := by
  have h : Gives mark (markTokens m ++ .ident name :: us) (m.map Mark.sign) (.ident name :: us) := gives_mark m rfl
  rcases m with _ | m
  · exact gives_marked nofun nofun h (gives_peek.bind (gives_discard.bind .pure))
  · refine gives_marked ?_ ?_ h (gives_peek.bind (gives_discard.bind (Gives.bind (.lift m.ofSign_sign) .pure)))
    all_goals cases m <;> exact nofun

theorem gives_terminal (n : Option TerminalMark) (hu : u ≠ .leftParen ∧ u ≠ .plus ∧ markSign? u = none)
    (h : Gives (marked last (n.map TerminalMark.sign)) (u :: us) t vs) :
    Gives (factor last (fuel + 1)) (terminalMarkTokens n ++ u :: us) t vs := by
  have hmark : Gives mark (terminalMarkTokens n ++ u :: us) (n.map TerminalMark.sign) (u :: us) :=
    gives_terminalMarkSign n hu.2.2
  rcases n with _ | _ | _
  · exact gives_marked hu.1 hu.2.1 hmark h
  · exact gives_marked nofun nofun hmark h
  · exact gives_marked nofun nofun hmark h

theorem gives_term_literal (n : Option TerminalMark) (h : IsValue u a) :
    Gives (factor last (fuel + 1)) (terminalMarkTokens n ++ u :: us) (.ofKind (.literal (n.getD .keep) a)) us := by
  have hmark : Gives (terminalMark (n.map TerminalMark.sign)) (u :: us) (n.getD .keep) (u :: us) :=
    gives_terminalMark n
  cases h with
  | string s =>
    exact gives_terminal n ⟨nofun, nofun, rfl⟩ (gives_peek.bind (hmark.bind ((gives_literal (.string s)).bind .pure)))
  | hex h =>
    exact gives_terminal n ⟨nofun, nofun, rfl⟩ (gives_peek.bind (hmark.bind ((gives_literal (.hex h)).bind .pure)))

theorem gives_term_inclusion (n : Option TerminalMark) (h : IsMembers us ms) :
    Gives (factor last (fuel + 1)) (terminalMarkTokens n ++ .leftBracket :: us ++ .rightBracket :: vs)
      (.ofKind (.inclusion (n.getD .keep)) ms) vs := by
  rw [List.append_assoc]
  exact gives_terminal n ⟨nofun, nofun, rfl⟩ (gives_peek.bind ((gives_terminalMark n).bind (gives_inclusion _ h)))

theorem gives_term_exclusion (n : Option TerminalMark) (h : IsMembers us ms) :
    Gives (factor last (fuel + 1)) (terminalMarkTokens n ++ .tilde :: .leftBracket :: us ++ .rightBracket :: vs)
      (.ofKind (.exclusion (n.getD .keep)) ms) vs := by
  rw [List.append_assoc]
  exact gives_terminal n ⟨nofun, nofun, rfl⟩ (gives_peek.bind ((gives_terminalMark n).bind (gives_exclusion _ h)))

/-! ### Factors and alternatives, step by step -/

section Steps

variable {ps : List (String × String)} {s : Token} {v : Tree}

theorem gives_bare (hpragma : ∀ u ∈ us.head?, pragmaTree? u = none) (h : Gives (factor last fuel) us t vs)
    (hv : vs.head?.bind suffix? = none) :
    Gives (term last (fuel + 1)) (pragmaTokens ps ++ us) (t.append (pragmaTrees ps)) vs := by
  rw [term]
  refine (gives_pragmas ps hpragma).bind (h.bind (gives_peek.bind ?_))
  rw [hv]
  exact .pure

theorem gives_signed (hpragma : ∀ u ∈ us.head?, pragmaTree? u = none) (h : Gives (factor last fuel) us t (s :: vs))
    (hs : IsSign s k) :
    Gives (term last (fuel + 1)) (pragmaTokens ps ++ us) (.ofKind k [t.append (pragmaTrees ps)]) vs := by
  rw [term]
  refine (gives_pragmas ps hpragma).bind (h.bind (gives_peek.bind ?_))
  cases hs <;> exact gives_discard.bind .pure

theorem gives_separated (hpragma : ∀ u ∈ us.head?, pragmaTree? u = none)
    (h : Gives (factor last fuel) us t (s :: vs)) (hs : IsDoubleSign s k) (hv : Gives (term last fuel) vs v ws) :
    Gives (term last (fuel + 1)) (pragmaTokens ps ++ us)
      (.ofKind k [t.append (pragmaTrees ps), .ofKind .sep [v]]) ws := by
  rw [term]
  refine (gives_pragmas ps hpragma).bind (h.bind (gives_peek.bind ?_))
  cases hs <;> exact gives_discard.bind (hv.bind .pure)

theorem gives_adjacentTerms_nil (h : us.head?.all isAltEnd = true) :
    Gives (adjacentTerms last (fuel + 1)) us [] us := by
  rw [adjacentTerms]
  refine gives_atAltEnd.bind ?_
  rw [if_pos h]
  exact .pure

theorem gives_adjacentTerms_cons (h : us.head?.all isAltEnd = false) (ht : Gives (term last fuel) us t vs)
    (hts : Gives (adjacentTerms last fuel) vs ts ws) : Gives (adjacentTerms last (fuel + 1)) us (t :: ts) ws := by
  rw [adjacentTerms]
  refine gives_atAltEnd.bind ?_
  rw [if_neg (by simp [h])]
  exact ht.bind (hts.bind .pure)

theorem gives_commaTerms_nil (h : us.head?.any (· == .comma) = false) :
    Gives (commaTerms last (fuel + 1)) us [] us := by
  rw [commaTerms]
  refine (gives_sees _).bind ?_
  rw [if_neg (by simp [h])]
  exact .pure

theorem gives_commaTerms_cons (ht : Gives (term last fuel) us t vs) (hts : Gives (commaTerms last fuel) vs ts ws) :
    Gives (commaTerms last (fuel + 1)) (.comma :: us) (t :: ts) ws := by
  rw [commaTerms]
  exact (gives_sees _).bind (gives_discard.bind (ht.bind (hts.bind .pure)))

theorem gives_alt_nil (h : us.head?.all isAltEnd = true) : Gives (alt last (fuel + 1)) us (.ofKind .alt) us := by
  rw [alt]
  refine gives_atAltEnd.bind ?_
  rw [if_pos h]
  exact .pure

theorem gives_alt_cons (h : us.head?.all isAltEnd = false) (ht : Gives (term last fuel) us t vs)
    (hts : Gives (if vs.head?.any (· == .comma) then commaTerms last fuel else adjacentTerms last fuel) vs ts ws) :
    Gives (alt last (fuel + 1)) us (.ofKind .alt (t :: ts)) ws := by
  rw [alt]
  refine gives_atAltEnd.bind ?_
  rw [if_neg (by simp [h])]
  refine ht.bind ((gives_sees _).bind ?_)
  split at hts
  · rename_i hcomma
    rw [if_pos hcomma]
    exact hts.bind .pure
  · rename_i hcomma
    rw [if_neg hcomma]
    exact hts.bind .pure

theorem gives_furtherAlts_nil (h : us.head?.any isBar = false) : Gives (furtherAlts last (fuel + 1)) us [] us := by
  rw [furtherAlts]
  refine (gives_sees _).bind ?_
  rw [if_neg (by simp [h])]
  exact .pure

theorem gives_furtherAlts_cons (hu : isBar u = true) (ht : Gives (alt last fuel) us t vs)
    (hts : Gives (furtherAlts last fuel) vs ts ws) : Gives (furtherAlts last (fuel + 1)) (u :: us) (t :: ts) ws := by
  rw [furtherAlts]
  refine (gives_sees _).bind ?_
  rw [if_pos (by simpa using hu)]
  exact gives_discard.bind (ht.bind (hts.bind .pure))

theorem gives_alts (ht : Gives (alt last fuel) us t vs) (hts : Gives (furtherAlts last fuel) vs ts ws) :
    Gives (alts last (fuel + 1)) us (.ofKind .alts (t :: ts)) ws := by
  rw [alts]
  exact ht.bind (hts.bind .pure)

end Steps

end Reader

namespace Phrase

open Reader

variable {J : Joint} {e : Bool} {us vs : List Token} {t : Tree} {ts : List Tree} {last : Text.Position}

/-! ### What may follow -/

theorem any_comma_eq_false (h : vs.head?.all isAltEnd = true) : vs.head?.any (· == .comma) = false := by
  cases vs with
  | nil => rfl
  | cons v vs => cases v <;> first | rfl | cases h

theorem bind_suffix?_eq_none (h : vs.head?.all isAltEnd = true) : vs.head?.bind suffix? = none := by
  cases vs with
  | nil => rfl
  | cons v vs => cases v <;> first | rfl | cases h

theorem IsFurtherAlts.all_isAltEnd (h : IsFurtherAlts J us ts) (hv : vs.head?.all isAltEnd = true) :
    (us ++ vs).head?.all isAltEnd = true := by
  cases h with
  | nil => exact hv
  | cons hs => rcases hs with rfl | rfl <;> rfl

theorem IsCommaFactors.cases_nil (h : IsCommaFactors J us ts) : us = [] ∧ ts = [] ∨ ∃ vs, us = .comma :: vs := by
  cases h with
  | nil => exact .inl ⟨rfl, rfl⟩
  | cons ht hts => exact .inr ⟨_, rfl⟩

theorem IsCommaFactors.suffix?_eq_none (h : IsCommaFactors J us ts) (hv : vs.head?.all isAltEnd = true) :
    (us ++ vs).head?.bind suffix? = none := by
  rcases h.cases_nil with ⟨rfl, -⟩ | ⟨ws, rfl⟩
  · exact bind_suffix?_eq_none hv
  · rfl

/-- What may follow an open factor in a greedy derivation does not go on with it. -/
theorem IsFactors.suffix?_eq_none (h : IsFactors J us ts) (hj : greedy true us)
    (hv : vs.head?.all isAltEnd = true) : (us ++ vs).head?.bind suffix? = none := by
  cases h with
  | nil => exact bind_suffix?_eq_none hv
  | cons ht =>
    obtain ⟨u, us, rfl, -, -, hu | rfl⟩ := ht.exists_cons
    · exact hu
    · exact absurd rfl (hj rfl)

theorem IsFactors.any_comma (h : IsFactors J us ts) (hv : vs.head?.all isAltEnd = true) :
    (us ++ vs).head?.any (· == .comma) = false := by
  cases h with
  | nil => exact any_comma_eq_false hv
  | cons ht =>
    obtain ⟨u, us, rfl, -, hu, -⟩ := ht.exists_cons
    simpa using hu

theorem IsFactor.starts (h : IsFactor J e us t) : 0 < us.length ∧ ∀ vs, (us ++ vs).head?.all isAltEnd = false := by
  obtain ⟨u, us, rfl, hu, -⟩ := h.exists_cons
  exact ⟨Nat.succ_pos _, fun _ => hu⟩

theorem IsTerm.pragmaTree?_eq_none (h : IsTerm J us t) : ∀ u ∈ (us ++ vs).head?, pragmaTree? u = none := by
  obtain ⟨u, us, rfl, hu⟩ := h.exists_cons
  rintro u ⟨⟩
  exact (opensTerm_spec hu).1

/-! ### Whole derivations -/

mutual

theorem IsAlts.gives : ∀ {us t}, IsAlts greedy us t → ∀ {fuel vs}, 6 * us.length + 5 ≤ fuel →
    vs.head?.all isAltEnd = true → vs.head?.any isBar = false → Gives (alts last fuel) (us ++ vs) t vs
  | _, _, .mk ht hts, fuel, vs, hfuel, hend, hbar => by
    obtain _ | fuel := fuel
    · omega
    rw [List.length_append] at hfuel
    rw [List.append_assoc]
    exact gives_alts (ht.gives (by omega) (hts.all_isAltEnd hend)) (hts.gives (by omega) hend hbar)

theorem IsFurtherAlts.gives : ∀ {us ts}, IsFurtherAlts greedy us ts → ∀ {fuel vs}, 6 * us.length + 1 ≤ fuel →
    vs.head?.all isAltEnd = true → vs.head?.any isBar = false → Gives (furtherAlts last fuel) (us ++ vs) ts vs
  | _, _, .nil, fuel, vs, hfuel, hend, hbar => by
    obtain _ | fuel := fuel
    · omega
    exact gives_furtherAlts_nil hbar
  | _, _, .cons hs ht hts, fuel, vs, hfuel, hend, hbar => by
    obtain _ | fuel := fuel
    · omega
    rw [List.length_append, List.length_cons] at hfuel
    rw [List.append_assoc]
    refine gives_furtherAlts_cons ?_ (ht.gives (by omega) (hts.all_isAltEnd hend)) (hts.gives (by omega) hend hbar)
    rcases hs with rfl | rfl <;> rfl

theorem IsAlt.gives : ∀ {us t}, IsAlt greedy us t → ∀ {fuel vs}, 6 * us.length + 4 ≤ fuel →
    vs.head?.all isAltEnd = true → Gives (alt last fuel) (us ++ vs) t vs
  | _, _, @IsAlt.commas _ e us ws t ts ht hts, fuel, vs, hfuel, hend => by
    obtain _ | fuel := fuel
    · omega
    obtain ⟨hlen, hstart⟩ := ht.starts
    rw [List.length_append] at hfuel
    rw [List.append_assoc]
    have hrest : Gives (commaTerms last fuel) (ws ++ vs) ts vs := hts.gives (by omega) hend
    refine gives_alt_cons (hstart _) (ht.gives (by omega) fun _ => hts.suffix?_eq_none hend) ?_
    rcases hts.cases_nil with ⟨rfl, rfl⟩ | ⟨ws, rfl⟩
    · obtain _ | fuel := fuel
      · omega
      rw [List.nil_append, if_neg (by rw [any_comma_eq_false hend]; exact Bool.false_ne_true)]
      exact gives_adjacentTerms_nil hend
    · exact hrest
  | _, _, .adjacent hts, fuel, vs, hfuel, hend => (hts.gives hfuel hend).2

theorem IsCommaFactors.gives : ∀ {us ts}, IsCommaFactors greedy us ts → ∀ {fuel vs}, 6 * us.length + 1 ≤ fuel →
    vs.head?.all isAltEnd = true → Gives (commaTerms last fuel) (us ++ vs) ts vs
  | _, _, .nil, fuel, vs, hfuel, hend => by
    obtain _ | fuel := fuel
    · omega
    exact gives_commaTerms_nil (any_comma_eq_false hend)
  | _, _, .cons ht hts, fuel, vs, hfuel, hend => by
    obtain _ | fuel := fuel
    · omega
    rw [List.length_append, List.length_cons] at hfuel
    rw [List.append_assoc]
    exact gives_commaTerms_cons (ht.gives (by omega) fun _ => hts.suffix?_eq_none hend) (hts.gives (by omega) hend)

theorem IsFactors.gives : ∀ {us ts}, IsFactors greedy us ts → ∀ {fuel vs}, 6 * us.length + 4 ≤ fuel →
    vs.head?.all isAltEnd = true →
    Gives (adjacentTerms last fuel) (us ++ vs) ts vs ∧ Gives (alt last fuel) (us ++ vs) (.ofKind .alt ts) vs
  | _, _, .nil, fuel, vs, hfuel, hend => by
    obtain _ | fuel := fuel
    · omega
    exact ⟨gives_adjacentTerms_nil hend, gives_alt_nil hend⟩
  | _, _, @IsFactors.cons _ e us ws t ts ht hj hts, fuel, vs, hfuel, hend => by
    obtain _ | fuel := fuel
    · omega
    obtain ⟨hlen, hstart⟩ := ht.starts
    rw [List.length_append] at hfuel
    rw [List.append_assoc]
    have hterm : Gives (term last fuel) (us ++ (ws ++ vs)) t (ws ++ vs) :=
      ht.gives (by omega) fun he => hts.suffix?_eq_none (he ▸ hj) hend
    have hrest : Gives (adjacentTerms last fuel) (ws ++ vs) ts vs := (hts.gives (by omega) hend).1
    refine ⟨gives_adjacentTerms_cons (hstart _) hterm hrest, gives_alt_cons (hstart _) hterm ?_⟩
    rwa [if_neg (by rw [hts.any_comma hend]; exact Bool.false_ne_true)]

theorem IsFactor.gives : ∀ {e us t}, IsFactor greedy e us t → ∀ {fuel vs}, 6 * us.length + 3 ≤ fuel →
    (e = true → vs.head?.bind suffix? = none) → Gives (term last fuel) (us ++ vs) t vs
  | _, _, _, .bare ps ht, fuel, vs, hfuel, hv => by
    obtain _ | fuel := fuel
    · omega
    rw [List.length_append] at hfuel
    rw [List.append_assoc]
    exact gives_bare ht.pragmaTree?_eq_none (ht.gives (by omega)) (hv rfl)
  | _, _, _, .signed ps ht hs, fuel, vs, hfuel, hv => by
    obtain _ | fuel := fuel
    · omega
    simp only [List.length_append] at hfuel
    rw [List.append_assoc, List.append_assoc]
    exact gives_signed ht.pragmaTree?_eq_none (ht.gives (by omega)) hs
  | _, _, _, .separated ps ht hs hu, fuel, vs, hfuel, hv => by
    obtain _ | fuel := fuel
    · omega
    simp only [List.length_append, List.length_cons] at hfuel
    rw [List.append_assoc, List.append_assoc]
    exact gives_separated ht.pragmaTree?_eq_none (ht.gives (by omega)) hs (hu.gives (by omega) hv)

theorem IsTerm.gives : ∀ {us t}, IsTerm greedy us t → ∀ {fuel vs}, 6 * us.length + 2 ≤ fuel →
    Gives (factor last fuel) (us ++ vs) t vs
  | _, _, .group ht, fuel, vs, hfuel => by
    obtain _ | fuel := fuel
    · omega
    simp only [List.length_append, List.length_cons] at hfuel
    rw [List.append_assoc]
    exact gives_group (ht.gives (by omega) rfl rfl)
  | _, _, .insertion h, fuel, vs, hfuel => by
    obtain _ | fuel := fuel
    · omega
    exact gives_insertion h
  | _, _, .nonterminal m name, fuel, vs, hfuel => by
    obtain _ | fuel := fuel
    · omega
    rw [List.append_assoc]
    exact gives_nonterminal m name
  | _, _, .literal n h, fuel, vs, hfuel => by
    obtain _ | fuel := fuel
    · omega
    rw [List.append_assoc]
    exact gives_term_literal n h
  | _, _, .inclusion n h, fuel, vs, hfuel => by
    obtain _ | fuel := fuel
    · omega
    rw [List.append_assoc]
    exact gives_term_inclusion n h
  | _, _, .exclusion n h, fuel, vs, hfuel => by
    obtain _ | fuel := fuel
    · omega
    rw [List.append_assoc]
    exact gives_term_exclusion n h

end

/-! ### Rules -/

theorem gives_ruleFrom {ps : List Tree} {s : Token} {m : Mark} {name : String}
    (hs : s = .colon ∨ s = .equals) (ht : IsAlts greedy us t) :
    Gives (ruleFrom last ps m) (.ident name :: s :: us ++ .period :: vs) (.named (.rule m none) name (ps ++ [t])) vs := by
  refine gives_take.bind ((gives_sees _).bind ?_)
  rw [if_neg (by simpa [Decidable.or_iff_not_imp_left] using hs)]
  refine gives_discard.bind (.getBind fun ts hts => (ht.gives ?_ rfl rfl).bind ?_)
  · have := congrArg List.length hts
    simp at this
    omega
  · exact (gives_sees _).bind (gives_discard.bind .pure)

theorem IsRule.gives {ps : List Tree} (h : IsRule greedy ps us t) : Gives (rule last ps) (us ++ vs) t vs := by
  obtain ⟨m, name, hs, ht⟩ := h
  rw [rule_eq, List.append_assoc, List.append_assoc]
  refine (gives_mark m rfl).bind ?_
  cases m with
  | none => exact gives_ruleFrom hs ht
  | some m => exact Gives.bind (.lift m.ofSign_sign) (gives_ruleFrom hs ht)

/-- Tokens after which there are no more pragmas begin with their pragmas in one way only. -/
theorem exists_append_of_pragmaTokens {ps qs : List (String × String)} (hv : ∀ v ∈ vs.head?, pragmaTree? v = none)
    (h : pragmaTokens qs ++ vs = pragmaTokens ps ++ us) : ∃ rs, qs = ps ++ rs ∧ us = pragmaTokens rs ++ vs := by
  induction ps generalizing qs with
  | nil => exact ⟨qs, rfl, h.symm⟩
  | cons p ps ih =>
    cases qs with
    | nil =>
      obtain rfl : vs = .pragma p.1 p.2 :: (pragmaTokens ps ++ us) := h
      exact absurd (hv _ rfl) nofun
    | cons q qs =>
      obtain ⟨hp, h⟩ := List.cons.inj h
      obtain ⟨rs, rfl, rfl⟩ := ih h
      obtain rfl : q = p := Prod.ext (Token.pragma.inj hp).1 (Token.pragma.inj hp).2
      exact ⟨rs, rfl, rfl⟩

theorem gives_rules_pragmas (qs : List (String × String)) (hfuel : (pragmaTokens qs).length < fuel) :
    Gives (rules last fuel []) (pragmaTokens qs) (pragmaTrees qs) [] := by
  obtain _ | fuel := fuel
  · omega
  refine gives_atEnd.bind ?_
  cases qs with
  | nil => exact .pure
  | cons q qs =>
    have h : Gives pragmas (pragmaTokens (q :: qs) ++ []) (pragmaTrees (q :: qs)) [] := gives_pragmas _ nofun
    rw [List.append_nil] at h
    exact h.bind (gives_atEnd.bind .pure)

theorem gives_rules_cons {ps qs : List (String × String)} {ws : List Token}
    (hr : IsRule greedy ((pragmaTrees (ps ++ qs)).filter (!isDeclaration ·)) us t)
    (hts : Gives (rules last fuel []) vs ts ws) :
    Gives (rules last (fuel + 1) (pragmaTrees ps)) (pragmaTokens qs ++ us ++ vs)
      ((pragmaTrees (ps ++ qs)).filter isDeclaration ++ t :: ts) ws := by
  obtain ⟨u, us', hus, hu⟩ := hr.exists_cons
  have hnext : (pragmaTokens qs ++ us ++ vs).isEmpty = false := by
    rw [hus]
    simp
  rw [rules]
  refine gives_atEnd.bind ?_
  rw [hnext, List.append_assoc]
  refine (gives_pragmas qs ?_).bind (gives_atEnd.bind ?_)
  · rw [hus]
    simpa using hu
  · rw [show (us ++ vs).isEmpty = false by rw [hus]; rfl, ← pragmaTrees_append]
    exact hr.gives.bind (hts.bind .pure)

/-- Some of the pragmas before the first rule may have been read already. -/
theorem IsRules.gives (h : IsRules greedy us ts) : ∀ {ps vs fuel}, us = pragmaTokens ps ++ vs → vs.length < fuel →
    Gives (rules last fuel (pragmaTrees ps)) vs ts [] := by
  induction h with
  | one ps' qs hr =>
    rintro ps vs (_ | fuel) hus hfuel
    · omega
    obtain ⟨u, us', rfl, hu⟩ := hr.exists_cons
    rw [List.append_assoc] at hus
    obtain ⟨rs, rfl, rfl⟩ := exists_append_of_pragmaTokens (by simpa using hu) hus
    rw [← List.append_assoc]
    refine gives_rules_cons hr (gives_rules_pragmas qs ?_)
    simp only [List.length_append, List.length_cons] at hfuel
    omega
  | cons ps' hr hts ih =>
    rintro ps vs (_ | fuel) hus hfuel
    · omega
    obtain ⟨u, us', rfl, hu⟩ := hr.exists_cons
    rw [List.append_assoc] at hus
    obtain ⟨rs, rfl, rfl⟩ := exists_append_of_pragmaTokens (by simpa using hu) hus
    rw [← List.append_assoc]
    refine gives_rules_cons hr (@ih [] _ _ rfl ?_)
    simp only [List.length_append, List.length_cons] at hfuel
    omega

theorem gives_grammarFrom {top : List Tree} {ps : List (String × String)}
    (h : IsRules greedy (pragmaTokens ps ++ us) ts) :
    Gives (grammarFrom last top (pragmaTrees ps)) us (top ++ ts) [] := by
  refine .getBind fun ws hws => (h.gives rfl ?_).bind ?_
  · have := congrArg List.length hws
    simp at this
    omega
  · rw [if_pos (List.any_eq_true.mpr h.exists_isRule)]
    exact .pure

/-- A rule is not taken for a prolog. -/
theorem IsRule.opensProlog_eq_false {ps : List Tree} (h : IsRule J ps us t) {ts : List Token.Placed}
    (hts : ts.map (·.token) = us ++ vs) : opensProlog ts = false := by
  obtain ⟨m, name, hs, -⟩ := h
  cases m with
  | none =>
    rw [opensProlog_eq hts]
    rcases hs with rfl | rfl <;> exact Bool.and_false _
  | some m =>
    rw [opensProlog_eq hts]
    cases m <;> rfl

theorem IsRules.exists_rule (h : IsRules J us ts) :
    ∃ ps vs ws t qs, us = pragmaTokens ps ++ (vs ++ ws) ∧ IsRule J qs vs t := by
  cases h with
  | one ps qs hr => exact ⟨ps, _, _, _, _, List.append_assoc .., hr⟩
  | cons ps hr hts => exact ⟨ps, _, _, _, _, List.append_assoc .., hr⟩

theorem gives_prolog {ps : List Tree} (qs : List (String × String)) (v : String) :
    Gives (prolog last ps) (.ident "ixml" :: .ident "version" :: .string v :: pragmaTokens qs ++ .period :: us)
      (.ofKind .prolog [.ofKind (.version v)] :: (ps ++ pragmaTrees qs)) us :=
  gives_discard.bind (gives_discard.bind (gives_take.bind ((gives_pragmas qs (by rintro u ⟨⟩; rfl)).bind
    ((gives_expect _).bind .pure))))

/-- What is derived greedily is read to its end, and its trees are those of the derivation. -/
theorem IsGrammar.gives (h : IsGrammar greedy us ts) : Gives (grammar last) us ts [] := by
  rw [grammar_eq]
  cases h with
  | plain h =>
    obtain ⟨ps, vs, ws, t, qs, rfl, hr⟩ := h.exists_rule
    obtain ⟨u, us', hus, hu⟩ := hr.exists_cons
    refine (gives_pragmas ps ?_).bind (.getBind fun ts' hts' => ?_)
    · rw [hus]
      simpa using hu
    · rw [if_neg (by simp [hr.opensProlog_eq_false hts'])]
      exact gives_grammarFrom h
  | prolog ps qs v h =>
    rw [List.append_assoc]
    refine (gives_pragmas ps (by rintro u ⟨⟩; rfl)).bind (.getBind fun ts' hts' => ?_)
    have hopens : opensProlog ts' = true := opensProlog_eq hts'
    rw [if_pos hopens, pragmaTrees_append]
    exact (gives_prolog qs v).bind (@gives_grammarFrom _ _ _ _ [] h)

end Phrase

end Ixml
