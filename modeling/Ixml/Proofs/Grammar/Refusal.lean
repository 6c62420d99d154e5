import Ixml.Proofs.Grammar.Following

/-!
# What readers refuse

Each reader follows the goal that stands for its production. So does the reader of a whole grammar
(`follows_grammar`): it reads on as long as no goal refuses the next token, and an error of syntax is placed at the
token that is refused, or one or two tokens after it (`lag`).
-/

namespace Ixml.Reader

open Text (Position)
open Goal (Goes)

variable {pre us : List Token} {t : Token.Placed} {ts ws rest : List Token.Placed} {K : List Goal} {g : Goal} {n : Nat}
  {last : Position}

/-! ### Sets -/

theorem bound_cases (last : Position) (a : Literal) (ts : List Token.Placed) :
    (∃ x, a.char? = some x ∧ bound last a ts = .ok (x, ts)) ∨
      a.char? = none ∧ ∃ e, bound last a ts = .error e ∧ IsPlacedLate last ts e := by
  cases a with
  | coded c => exact .inl ⟨c, rfl, rfl⟩
  | quoted s =>
    rcases hs : s.toList with _ | ⟨c, _ | ⟨d, cs⟩⟩
    case cons.nil => exact .inl ⟨c, by simp [Literal.char?, hs], by simp only [bound, hs]; rfl⟩
    all_goals
      refine .inr ⟨by simp [Literal.char?, hs], _, by simp only [bound, hs]; rfl, ?_⟩
      rintro _ _ ⟨⟩
      exact ⟨by simp [List.isPrefixOf], rfl⟩

/-- What is left of a range once its minus sign has been taken. -/
def rangeFrom (last : Position) (a : Literal) : Reader Tree := do
  let other ← literal last
  let x ← bound last a
  let y ← bound last other
  if y < x then
    throw (.invalidRange x y)
  else
    return .ofKind (.range x y)

theorem memberFrom_of_ne (a : Literal) (h : (tokens ts).head? ≠ some .minus) :
    memberFrom last a ts = .ok (.ofKind (.literal .keep a), ts) := by
  have hsees : sees (· == .minus) ts = .ok (false, ts) := by
    cases ts with
    | nil => rfl
    | cons t ts =>
      have ht : (t.token == .minus) = false := beq_eq_false_iff_ne.mpr fun ht => h (congrArg some ht)
      have hrun : sees (· == .minus) (t :: ts) = .ok (t.token == .minus, t :: ts) := rfl
      rw [hrun, ht]
  rw [memberFrom, bind_run, hsees]
  rfl

theorem memberFrom_minus (last : Position) (a : Literal) (ht : t.token = .minus) :
    memberFrom last a (t :: ts) = rangeFrom last a ts := by
  obtain ⟨_, p⟩ := t
  subst ht
  rfl

/-- A range is read up to its second literal, or refused there. -/
theorem rangeFrom_cases (last : Position) (a : Literal) (ts : List Token.Placed) :
    (∃ x m t rest, a.char? = some x ∧ ts = t :: rest ∧ (Goal.rangeEnd x).look (some t.token) = .take [] ∧
        rangeFrom last a ts = .ok (m, rest)) ∨
      (∀ x, a.char? = some x → (Goal.rangeEnd x).look (tokens ts).head? = .stop) ∧
        ∃ e, rangeFrom last a ts = .error e ∧ IsPlacedLate last ts.tail e := by
  rcases literal_cases last ts with ⟨t, rest, b, rfl, hb, hlit⟩ | ⟨hnone, e, hlit, hlate⟩
  case inr =>
    exact .inr ⟨fun x _ => by simp [Goal.look, hnone], e, by rw [rangeFrom, bind_run, hlit]; rfl, hlate⟩
  rcases bound_cases last a rest with ⟨x, hx, hax⟩ | ⟨hx, e, hax, hlate⟩
  case inr =>
    refine .inr ⟨fun y hy => ?_, e, ?_, hlate⟩
    · cases hx.symm.trans hy
    · simp only [rangeFrom, bind_run, hlit, hax, Except.bind]
  have hx' (y : Char) (hy : a.char? = some y) : y = x := Option.some.inj (hy.symm.trans hx)
  rcases bound_cases last b rest with ⟨y, hy, hby⟩ | ⟨hy, e, hby, hlate⟩
  case inr =>
    refine .inr ⟨fun _ _ => by simp [Goal.look, hb, hy], e, ?_, hlate⟩
    simp only [rangeFrom, bind_run, hlit, hax, hby, Except.bind]
  by_cases hyx : y < x
  · refine .inr ⟨fun x' h => by simp [Goal.look, hb, hy, hx' x' h, hyx], .invalidRange x y, ?_, ?_⟩
    · simp only [rangeFrom, bind_run, hlit, hax, hby, Except.bind, if_pos hyx]
      rfl
    · rintro _ _ ⟨⟩
  · refine .inl ⟨x, .ofKind (.range x y), t, rest, hx, rfl, by simp [Goal.look, hb, hy, hyx], ?_⟩
    simp only [rangeFrom, bind_run, hlit, hax, hby, Except.bind, if_neg hyx]
    rfl

/-- A literal that gives no character is a string that begins no range. -/
theorem opensBadRange_of_char? {a : Literal} {u : Token} (hu : u.value? = some a) (ha : a.char? = none)
    (vs : List Token) : opensBadRange [u] (.minus :: vs) = true := by
  cases u with
  | string s =>
    obtain rfl := Option.some.inj hu
    have hlen : s.length ≠ 1 := by
      rw [← String.length_toList]
      intro h
      obtain ⟨c, hc⟩ := List.length_eq_one_iff.mp h
      simp [Literal.char?, hc] at ha
    simpa [opensBadRange] using hlen
  | hex digits =>
    cases hd : Literal.ofHex digits with
    | error e => simp [Token.value?, hd, Except.toOption] at hu
    | ok b =>
      obtain ⟨c, rfl, -⟩ := Literal.ofHex_eq_ok_iff.mp hd
      obtain rfl : a = .coded c := by simpa [Token.value?, hd, Except.toOption] using hu.symm
      cases ha
  | _ => cases hu

/-- What follows a literal in a set is read as a range from the literal, or left. -/
theorem follows_memberFrom {a : Literal} {u : Token} (hu : u.value? = some a) :
    Follows last 0 (memberFrom last a) (.afterValue a :: K) K (pre ++ [u]) ts := by
  by_cases hminus : (tokens ts).head? = some .minus
  case neg =>
    have hpass : (Goal.afterValue a).look (tokens ts).head? = .pass [] := by simp [Goal.look, hminus]
    exact .of_ok (memberFrom_of_ne a hminus) (List.nil_append ts).symm (Nat.zero_le _) (.drop hpass)
  obtain ⟨t, ts, rfl, ht⟩ := exists_cons_of_head? hminus
  have hrun : memberFrom last a (t :: ts) = rangeFrom last a ts := memberFrom_minus last a ht
  rcases rangeFrom_cases last a ts with ⟨x, m, v, rest, hx, rfl, htake, hm⟩ | ⟨hstop, e, he, hlate⟩
  · have hminus : (Goal.afterValue a).look (some t.token) = .take [.rangeEnd x] := by simp [Goal.look, ht, hx]
    exact .of_ok (hrun.trans hm) (by rfl : t :: v :: rest = [t, v] ++ rest) (Nat.zero_le _)
      (.take hminus (.take htake (.refl _ _)))
  · refine .of_error (hrun.trans he) ?_
    cases hx : a.char? with
    | none =>
      -- the minus sign is at fault, but the error is found when what should be a literal has been taken as well
      have hminus : (Goal.afterValue a).look (some t.token) = .stop := by simp [Goal.look, ht, hx]
      refine .of_stop hminus fun message p h => ?_
      obtain ⟨hlate, rfl⟩ := hlate message p h
      rw [lag, if_pos hlate, opensBadRange_append, tokens_cons, ht, opensBadRange_of_char? hu hx, if_pos rfl,
        List.drop_succ_cons, List.drop_one]
    | some x =>
      -- what stands in the place of the second literal is at fault
      have hminus : (Goal.afterValue a).look (some t.token) = .take [.rangeEnd x] := by simp [Goal.look, ht, hx]
      refine .of_goes (List.singleton_append).symm (.take hminus (.refl _ _)) (.of_late (hstop x hx) hlate ?_)
      rw [tokens_cons, tokens_nil, opensBadRange_append, ht]
      rfl

theorem follows_member (hbad : opensBadRange pre (tokens ts) = false)
    (hclose : (tokens ts).head? ≠ some .rightBracket) :
    Follows last 1 (member last) (.members :: K) (.memberEnd :: .members :: K) pre ts := by
  rw [member_eq]
  refine .peek_bind ?_
  split
  · rename_i code hcode
    obtain ⟨t, ts, rfl, ht⟩ := exists_cons_of_head? hcode
    by_cases hcat : CharSet.isCategoryCode code = true
    · have htake : Goal.members.look (some t.token) = .take [.memberEnd, .members] := by simp [Goal.look, ht, hcat]
      refine .discard_bind htake ?_
      rw [if_pos hcat]
      exact .pure (.refl _ _)
    · have hstop : Goal.members.look (some t.token) = .stop := by simp [Goal.look, ht, hcat]
      refine .of_error (e := .unknownClass code) ?_ (.of_stop hstop ?_)
      · simp only [if_neg hcat]
        rfl
      · rintro _ _ ⟨⟩
  · rename_i hident
    refine .literal_bind hbad (fun hnone => ?_) fun t rest a hts ha => ?_
    · simp [Goal.look_members hclose hident, hnone]
    · subst hts
      have hlook := Goal.look_members hclose hident
      refine ⟨[.afterValue a, .memberEnd, .members], hlook.trans ?_, follows_memberFrom ha⟩
      rw [tokens_cons, List.head?_cons, Option.bind_some, ha]

/-- A member leaves no minus sign that is after a string, except after that of a range. -/
theorem takes_member : Takes (member last) us fun _ vs =>
    ∃ ws u, us = ws ++ u :: vs ∧ opensBadRange [u] vs = false := by
  rw [member_eq]
  refine gives_peek.bindTakes ?_
  split
  · rename_i code h
    obtain ⟨vs, rfl⟩ := List.head?_eq_some_iff.mp h
    refine gives_discard.bindTakes ?_
    split
    · exact .pure ⟨[], .ident code, rfl, rfl⟩
    · exact .throw _
  refine takes_literal.bind fun a vs ⟨u, hus, hu⟩ => (gives_sees _).bindTakes ?_
  subst hus
  split
  · rename_i hminus
    exact .pure ⟨[], u, rfl, opensBadRange_of_ne fun h => by simp [h] at hminus⟩
  · rename_i hminus
    cases vs with
    | nil => exact absurd rfl hminus
    | cons v vs =>
      refine gives_discard.bindTakes (takes_literal.bind fun b vs' ⟨v', hvs, hv⟩ => ?_)
      obtain rfl : vs = v' :: vs' := hvs
      refine takes_bound.bind fun x ws ⟨hws, hx⟩ => takes_bound.bind fun y ws' ⟨hws', hy⟩ => ?_
      obtain rfl : ws' = vs' := hws'.trans hws
      split
      · exact .throw _
      · refine .pure ⟨[u, v], v', rfl, ?_⟩
        refine opensBadRange_singleton fun s hs => ?_
        subst hs
        cases hv
        rw [show s = String.singleton y from hy, String.length_singleton]

theorem opensBadRange_of_member {m : Tree} (h : member last ts = .ok (m, rest)) (hts : ts = ws ++ rest) :
    opensBadRange (pre ++ tokens ws) (tokens rest) = false := by
  obtain ⟨ws', u, hws', hu⟩ := takes_member ts m rest rfl h
  have hall : tokens ws ++ tokens rest = ws' ++ [u] ++ tokens rest := by
    rw [← tokens_append, ← hts, List.append_assoc]
    exact hws'
  rw [List.append_cancel_right hall, ← List.append_assoc, opensBadRange_append]
  exact hu

theorem follows_members (hfuel : ts.length < n) (hbad : opensBadRange pre (tokens ts) = false) :
    Follows last 1 (members last n) (.members :: K) K pre ts := by
  induction n generalizing ts pre with
  | zero => omega
  | succ n ih =>
    rw [members]
    refine .sees_ite (fun t rest hts ht => ?_) fun hclose => .atEnd_bind ?_
    · subst hts
      exact .discard_bind (by rw [beq_iff_eq.mp ht]; rfl) (.pure (.refl _ _))
    split
    · rename_i hnil
      obtain rfl := List.isEmpty_iff.mp hnil
      exact .fail rfl (by simp [List.isPrefixOf])
    have hclose : (tokens ts).head? ≠ some .rightBracket := fun h => by simp [h] at hclose
    refine .bind (follows_member hbad hclose) fun m ws rest hm hts hws => ?_
    have hrest : opensBadRange (pre ++ tokens ws) (tokens rest) = false := opensBadRange_of_member hm hts
    subst hts
    rw [List.length_append] at hfuel
    refine .sees_ite (fun t rest' hts ht => ?_) fun hend => ?_
    · subst hts
      have htake : Goal.memberEnd.look (some t.token) = .take [] := by simp [Goal.look, ht]
      have hbad : opensBadRange (pre ++ tokens ws ++ [t.token]) (tokens rest') = false := by
        rw [opensBadRange_append, opensBadRange_singleton fun s hs => by simp [hs, isMemberEnd] at ht]
      refine .zero (.discard_bind htake (.bind (ih ?_ hbad).zero fun _ _ _ _ _ _ => .pure (.refl _ _)))
      rw [List.length_cons] at hfuel
      omega
    · have hpass : Goal.memberEnd.look (tokens rest).head? = .pass [] := by simp [Goal.look, hend]
      refine .pass hpass (.bind (ih ?_ hrest).zero fun _ _ _ _ _ _ => .pure (.refl _ _))
      omega

theorem follows_bracketed (k : Construct) (htake : g.look (some .leftBracket) = .take [.members])
    (hstop : (tokens ts).head? ≠ some .leftBracket → g.look (tokens ts).head? = .stop) :
    Follows last 1 (bracketed last k) (g :: K) K pre ts := by
  refine .expect_bind htake hstop (fun found => by simp [List.isPrefixOf]) fun t rest _ => ?_
  have hbad : opensBadRange (pre ++ [.leftBracket]) (tokens rest) = false := by rw [opensBadRange_append]; rfl
  exact .get_bind (.bind (follows_members (Nat.lt_succ_self _) hbad).zero fun _ _ _ _ _ _ => .pure (.refl _ _))

/-! ### Factors and alternatives -/

theorem follows_markedLiteral (m : Option Mark) (ho : ∀ name, (tokens ts).head? ≠ some (.ident name))
    (hset : (tokens ts).head? ≠ some .leftBracket ∧ (tokens ts).head? ≠ some .tilde)
    (hminus : (tokens ts).head? ≠ some .minus) :
    Follows last 1 (do
      let k ← terminalMark (m.map Mark.sign)
      let value ← literal last
      return Tree.ofKind (.literal k value)) (.marked m :: K) K pre ts := by
  refine .terminalMark_bind (fun hm => by rw [hm, Goal.look_marked_attr ho]) fun hm k => ?_
  have hlook := Goal.look_marked hm ho hset
  refine .literal_bind (opensBadRange_of_ne hminus) (fun hnone => by simp [hlook, hnone]) fun t rest a hts ha => ?_
  subst hts
  refine ⟨[], hlook.trans ?_, .pure (.refl _ _)⟩
  rw [tokens_cons, List.head?_cons, Option.bind_some, ha]
  rfl

theorem follows_markedSet (m : Option Mark)
    (hset : (tokens ts).head? = some .leftBracket ∨ (tokens ts).head? = some .tilde) :
    Follows last 1 (do
      let k ← terminalMark (m.map Mark.sign)
      charSet last k) (.marked m :: K) K pre ts := by
  refine .terminalMark_bind (fun hm => ?_) fun hm k => ?_
  · rcases hset with h | h <;> rw [hm, h] <;> rfl
  have hlook {u : Token} (hu : u = .leftBracket ∨ u = .tilde) :
      (Goal.marked m).look (some u) = .take (if u = .tilde then [.bracket] else [.members]) := by
    rcases m with _ | _ | _ | _
    case some.attr => exact absurd rfl hm
    all_goals rcases hu with rfl | rfl <;> rfl
  rw [charSet_eq]
  refine .sees_ite (fun t rest hts ht => ?_) fun htilde => ?_
  · subst hts
    have htake : (Goal.marked m).look (some t.token) = .take [.bracket] := by
      rw [beq_iff_eq.mp ht, hlook (.inr rfl), if_pos rfl]
    refine .discard_bind htake (follows_bracketed _ rfl fun h => ?_).zero
    simp [Goal.look, Goal.lookSign, h]
  · have hbracket : (tokens ts).head? = some .leftBracket := hset.resolve_right fun h => by simp [h] at htilde
    exact follows_bracketed _ (hlook (.inl rfl)) fun h => absurd hbracket h

theorem follows_marked (m : Option Mark) :
    Follows last 1 (marked last (m.map Mark.sign)) (.marked m :: K) K pre ts := by
  refine .peek_bind ?_
  split
  · rename_i name h
    obtain ⟨t, rest, rfl, ht⟩ := exists_cons_of_head? h
    refine .discard_bind (by rw [ht]; cases m <;> rfl) ?_
    cases m with
    | none => exact .pure (.refl _ _)
    | some m => exact .lift_bind m.ofSign_sign (.pure (.refl _ _))
  · rename_i s h
    exact follows_markedLiteral m (by simp [h]) (by simp [h]) (by simp [h])
  · rename_i s h
    exact follows_markedLiteral m (by simp [h]) (by simp [h]) (by simp [h])
  · rename_i h
    exact follows_markedSet m (.inl h)
  · rename_i h
    exact follows_markedSet m (.inr h)
  · rename_i hident hstring hhex hbracket htilde
    refine .fail ?_ (by simp [List.isPrefixOf])
    by_cases hm : m = some .attr
    · rw [hm, Goal.look_marked_attr hident]
    · rw [Goal.look_marked hm hident ⟨hbracket, htilde⟩, if_neg]
      cases h : (tokens ts).head? with
      | none => exact Bool.false_ne_true
      | some u =>
        cases u with
        | string s => exact absurd h (hstring s)
        | hex digits => exact absurd h (hhex digits)
        | _ => exact Bool.false_ne_true

/-- With calls enough for the tokens, six for each and `calls` for the end, the reader follows the goals `γ` and takes
`n` tokens or more. -/
def FollowsWithin {α : Type} (last : Position) (fuel calls n : Nat) (m : Reader α) (γ : List Goal) : Prop :=
  ∀ K pre ts, 6 * ts.length + calls ≤ fuel → Follows last n m (γ ++ K) K pre ts

/-- What the readers of factors follow that call each other. -/
structure FollowsFactors (last : Position) (fuel : Nat) : Prop where
  alts : FollowsWithin last fuel 4 0 (alts last fuel) [.alt, .furtherAlts]
  furtherAlts : FollowsWithin last fuel 1 0 (furtherAlts last fuel) [.furtherAlts]
  alt : FollowsWithin last fuel 3 0 (alt last fuel) [.alt]
  commaTerms : FollowsWithin last fuel 1 0 (commaTerms last fuel) [.commaFactors]
  adjacentTerms : FollowsWithin last fuel 3 0 (adjacentTerms last fuel) [.adjacentFactors]
  term : FollowsWithin last fuel 2 1 (term last fuel) [.term]
  factor : FollowsWithin last fuel 1 1 (factor last fuel) [.factor]

section

variable {fuel : Nat}

theorem FollowsFactors.alts_succ (h : FollowsFactors last fuel) :
    FollowsWithin last (fuel + 1) 4 0 (Reader.alts last (fuel + 1)) [.alt, .furtherAlts] := by
  intro K pre ts hfuel
  rw [Reader.alts]
  refine .bind (h.alt _ _ _ (by omega)) fun t ws rest _ hts _ => ?_
  rw [hts, List.length_append] at hfuel
  exact .bind (h.furtherAlts _ _ _ (by omega)) fun _ _ _ _ _ _ => .pure (.refl _ _)

theorem FollowsFactors.furtherAlts_succ (h : FollowsFactors last fuel) :
    FollowsWithin last (fuel + 1) 1 0 (Reader.furtherAlts last (fuel + 1)) [.furtherAlts] := by
  intro K pre ts hfuel
  rw [Reader.furtherAlts]
  refine .sees_ite (fun t rest hts ht => ?_) fun hbar => ?_
  · subst hts
    rw [List.length_cons] at hfuel
    have htake : Goal.furtherAlts.look (some t.token) = .take [.alt, .furtherAlts] := by simp [Goal.look, ht]
    refine .zero (.discard_bind htake (.bind (h.alt _ _ _ (by omega)) fun _ ws rest' _ hts _ => ?_))
    rw [hts, List.length_append] at hfuel
    exact .bind (h.furtherAlts _ _ _ (by omega)) fun _ _ _ _ _ _ => .pure (.refl _ _)
  · exact .pure (.drop (by simp [Goal.look, hbar]))

theorem FollowsFactors.alt_succ (h : FollowsFactors last fuel) :
    FollowsWithin last (fuel + 1) 3 0 (Reader.alt last (fuel + 1)) [.alt] := by
  intro K pre ts hfuel
  rw [Reader.alt]
  refine .atAltEnd_bind ?_
  split
  · rename_i hend
    exact .pure (.drop (by simp [Goal.look, hend]))
  rename_i hend
  have hpass : Goal.alt.look (tokens ts).head? = .pass [.term, .factors] := by simp [Goal.look, hend]
  refine .pass hpass (.zero (.bind (h.term _ _ _ (by omega)) fun t ws rest _ hts hws => ?_))
  rw [hts, List.length_append] at hfuel
  refine .sees_ite (fun t rest' hts ht => ?_) fun hcomma => ?_
  · subst hts
    have hpass : Goal.factors.look (some t.token) = .pass [.commaFactors] := by simp [Goal.look, beq_iff_eq.mp ht]
    exact .pass hpass (.bind (h.commaTerms _ _ _ (by omega)) fun _ _ _ _ _ _ => .pure (.refl _ _))
  · have hpass : Goal.factors.look (tokens rest).head? = .pass [.adjacentFactors] := by simp [Goal.look, hcomma]
    exact .pass hpass (.bind (h.adjacentTerms _ _ _ (by omega)) fun _ _ _ _ _ _ => .pure (.refl _ _))

theorem FollowsFactors.commaTerms_succ (h : FollowsFactors last fuel) :
    FollowsWithin last (fuel + 1) 1 0 (Reader.commaTerms last (fuel + 1)) [.commaFactors] := by
  intro K pre ts hfuel
  rw [Reader.commaTerms]
  refine .sees_ite (fun t rest hts ht => ?_) fun hcomma => ?_
  · subst hts
    rw [List.length_cons] at hfuel
    have htake : Goal.commaFactors.look (some t.token) = .take [.term, .commaFactors] := by
      simp [Goal.look, beq_iff_eq.mp ht]
    refine .zero (.discard_bind htake (.bind (.zero (h.term _ _ _ (by omega))) fun _ ws rest' _ hts _ => ?_))
    rw [hts, List.length_append] at hfuel
    exact .bind (h.commaTerms _ _ _ (by omega)) fun _ _ _ _ _ _ => .pure (.refl _ _)
  · exact .pure (.drop (by simp [Goal.look, hcomma]))

theorem FollowsFactors.adjacentTerms_succ (h : FollowsFactors last fuel) :
    FollowsWithin last (fuel + 1) 3 0 (Reader.adjacentTerms last (fuel + 1)) [.adjacentFactors] := by
  intro K pre ts hfuel
  rw [Reader.adjacentTerms]
  refine .atAltEnd_bind ?_
  split
  · rename_i hend
    exact .pure (.drop (by simp [Goal.look, hend]))
  rename_i hend
  have hpass : Goal.adjacentFactors.look (tokens ts).head? = .pass [.term, .adjacentFactors] := by
    simp [Goal.look, hend]
  refine .pass hpass (.zero (.bind (h.term _ _ _ (by omega)) fun t ws rest _ hts hws => ?_))
  rw [hts, List.length_append] at hfuel
  exact .bind (h.adjacentTerms _ _ _ (by omega)) fun _ _ _ _ _ _ => .pure (.refl _ _)

theorem FollowsFactors.term_succ (h : FollowsFactors last fuel) :
    FollowsWithin last (fuel + 1) 2 1 (Reader.term last (fuel + 1)) [.term] := by
  intro K pre ts hfuel
  rw [Reader.term]
  refine .pragmas_bind (fun name data => rfl) fun qs ws ts hts _ hnone => ?_
  rw [hts, List.length_append] at hfuel
  have hpass : Goal.term.look (tokens ts).head? = .pass [.factor, .sign] := by simp [Goal.look, hnone]
  refine .pass hpass (.bind (h.factor _ _ _ (by omega)) fun t ws' rest _ hts hws' => .peek_bind ?_)
  rw [hts, List.length_append] at hfuel
  split
  · rename_i hsuffix
    exact .pure (.drop (by simp [Goal.look, hsuffix]))
  · rename_i k hsuffix
    obtain ⟨u, hu, hk⟩ := Option.bind_eq_some_iff.mp hsuffix
    obtain ⟨t', rest, rfl, rfl⟩ := exists_cons_of_head? hu
    have htake : Goal.sign.look (some t'.token) = .take [] := by simp [Goal.look, hk]
    exact .zero (.discard_bind htake (.pure (.refl _ _)))
  · rename_i k hsuffix
    obtain ⟨u, hu, hk⟩ := Option.bind_eq_some_iff.mp hsuffix
    obtain ⟨t', rest, rfl, rfl⟩ := exists_cons_of_head? hu
    rw [List.length_cons] at hfuel
    have htake : Goal.sign.look (some t'.token) = .take [.term] := by simp [Goal.look, hk]
    refine .zero (.discard_bind htake (.zero (.bind (h.term _ _ _ (by omega)) fun _ _ _ _ _ _ => .pure (.refl _ _))))

theorem FollowsFactors.factor_succ (h : FollowsFactors last fuel) :
    FollowsWithin last (fuel + 1) 1 1 (Reader.factor last (fuel + 1)) [.factor] := by
  intro K pre ts hfuel
  rw [Reader.factor_succ]
  refine .peek_bind ?_
  split
  · rename_i hparen
    obtain ⟨t, ts, rfl, ht⟩ := exists_cons_of_head? hparen
    rw [List.length_cons] at hfuel
    have htake : Goal.factor.look (some t.token) = .take [.alt, .furtherAlts, .closeParen] := by rw [ht]; rfl
    refine .discard_bind htake (.bind (h.alts (.closeParen :: K) _ _ (by omega)) fun body ws rest _ _ _ => ?_)
    have hclose : Goal.closeParen.look (some .rightParen) = .take [] := rfl
    refine .zero (.expect_bind hclose (fun hstop => ?_) (fun found => ?_) fun _ _ _ => .pure (.refl _ _))
    · simp [Goal.look, Goal.lookSign, hstop]
    · simp [List.isPrefixOf]
  · rename_i hplus
    obtain ⟨t, ts, rfl, ht⟩ := exists_cons_of_head? hplus
    have htake : Goal.factor.look (some t.token) = .take [.value] := by rw [ht]; rfl
    refine .discard_bind htake (.zero (.literal_bind ?_ (fun hnone => ?_) fun t rest a hts ha => ?_))
    · rw [opensBadRange_append, ht]; rfl
    · simp [Goal.look, hnone]
    · exact ⟨[], by simp [Goal.look, ha], .pure (.refl _ _)⟩
  · rename_i hparen hplus
    refine .mark_bind (fun t rest m hts hm => ?_) fun hnone => ?_
    · subst hts
      refine ⟨[.marked (some m)], ?_, (follows_marked (some m)).zero⟩
      exact (Goal.look_factor hparen hplus).trans (by rw [tokens_cons, List.head?_cons, Option.bind_some, hm])
    · have hpass : Goal.factor.look (tokens ts).head? = .pass [.marked none] := by
        rw [Goal.look_factor hparen hplus, hnone]
      exact .pass hpass (follows_marked none)

theorem followsFactors (fuel : Nat) : FollowsFactors last fuel := by
  induction fuel with
  | zero => constructor <;> (intro K pre ts hfuel; omega)
  | succ fuel ih =>
    exact ⟨ih.alts_succ, ih.furtherAlts_succ, ih.alt_succ, ih.commaTerms_succ, ih.adjacentTerms_succ, ih.term_succ,
      ih.factor_succ⟩

end

/-! ### Rules -/

theorem follows_ruleFrom (ps : List Tree) (m : Mark) (hbad : opensBadRange pre (tokens ts) = false)
    (hident : ∀ t rest name, ts = t :: rest → t.token = .ident name →
      ∃ c, g.look (some t.token) = .take [c] ∧ c.look (tokens rest).head? = Goal.lookColon (tokens rest).head?)
    (hstop : (∀ name, (tokens ts).head? ≠ some (.ident name)) → g.look (tokens ts).head? = .stop) :
    Follows last 1 (ruleFrom last ps m) (g :: K) (.rules true :: K) pre ts := by
  by_cases h : ∃ name, (tokens ts).head? = some (.ident name)
  case neg =>
    refine .late ("Expected rule name, got " ++ Token.describeFound (tokens ts).head?)
      (hstop fun name hn => h ⟨name, hn⟩) ?_ (by simp [List.isPrefixOf]) hbad
    split
    · rename_i name hn
      exact absurd ⟨name, hn⟩ h
    · rfl
  obtain ⟨name, h⟩ := h
  obtain ⟨⟨_, p⟩, ts, rfl, rfl⟩ := exists_cons_of_head? h
  obtain ⟨c, htake, hc⟩ := hident _ ts name rfl rfl
  refine .take_bind htake (.sees_not_ite (fun t rest hts ht => ?_) fun hcolon => ?_)
  · subst hts
    have htake : c.look (some t.token) = .take [.alt, .furtherAlts, .period, .rules true] := by
      refine hc.trans (if_pos ?_)
      simpa using ht
    refine .zero (.discard_bind htake (.get_bind (.bind ((followsFactors _).alts (.period :: .rules true :: K) _ _ ?_)
      fun body ws rest' _ _ _ => .sees_not_ite (fun t' rest'' hts' ht' => ?_) fun hperiod => ?_)))
    · omega
    · subst hts'
      have htake : Goal.period.look (some t'.token) = .take [] := by simp [Goal.look, Goal.lookSign, beq_iff_eq.mp ht']
      exact .zero (.discard_bind htake (.pure (.refl _ _)))
    · exact .fail (if_neg fun h => by simp [h] at hperiod) (by simp [List.isPrefixOf])
  · refine .fail (hc.trans (if_neg fun h => ?_)) (by simp [List.isPrefixOf])
    rcases h with h | h <;> simp [h] at hcolon

/-- At the given tokens, which a pragma does not begin, the goal waits for a rule. -/
structure BeginsRule (g : Goal) (us : List Token) : Prop where
  ident (name : String) (vs : List Token) : us = .ident name :: vs →
    ∃ c, g.look us.head? = .take [c] ∧ c.look vs.head? = Goal.lookColon vs.head?
  mark (u : Token) (vs : List Token) (m : Mark) : us = u :: vs → u.mark? = some m → g.look (some u) = .take [.name]
  stop (u : Token) (vs : List Token) : us = u :: vs → (∀ name, u ≠ .ident name) → u.mark? = none →
    pragmaTree? u = none → g.look (some u) = .stop

theorem beginsRule_rules (b : Bool) (us : List Token) : BeginsRule (.rules b) us where
  ident name vs hus := ⟨.colon, by rw [hus]; cases b <;> rfl, rfl⟩
  mark u vs m _ hm := by cases b <;> exact Goal.lookRule_mark hm
  stop u vs _ hident hm hp := by cases b <;> exact Goal.lookRule_stop hident hm hp

theorem beginsRule_opening {us : List Token} (h : ∀ vs, us ≠ .ident "ixml" :: .ident "version" :: vs) :
    BeginsRule .opening us where
  ident name vs hus := by
    subst hus
    by_cases hname : name = "ixml"
    · subst hname
      refine ⟨.afterIxml, rfl, if_neg fun hv => ?_⟩
      obtain ⟨vs', rfl⟩ := List.head?_eq_some_iff.mp hv
      exact h vs' rfl
    · exact ⟨.colon, if_neg (by simpa using hname), rfl⟩
  mark u vs m _ hm := (if_neg (by rintro ⟨⟩; cases hm)).trans (Goal.lookRule_mark hm)
  stop u vs _ hident hm hp := (if_neg (by rintro ⟨⟩; exact hident _ rfl)).trans (Goal.lookRule_stop hident hm hp)

theorem follows_rule (ps : List Tree) (hg : BeginsRule g (tokens (t :: ts))) (hp : pragmaTree? t.token = none) :
    Follows last 1 (rule last ps) (g :: K) (.rules true :: K) pre (t :: ts) := by
  rw [rule_eq]
  refine .mark_bind (fun t' rest m hts hm => ?_) fun hm => ?_
  · obtain ⟨rfl, rfl⟩ := List.cons.inj hts
    refine ⟨[.name], hg.mark _ _ m rfl hm, .lift_bind m.ofSign_sign (.zero (follows_ruleFrom ps m ?_ ?_ ?_))⟩
    · refine (opensBadRange_append ..).trans (opensBadRange_singleton fun s hs => ?_)
      rw [hs] at hm
      cases hm
    · exact fun t rest name _ ht => ⟨.colon, by rw [ht]; rfl, rfl⟩
    · exact Goal.look_name
  · refine follows_ruleFrom ps .element (opensBadRange_of_ne fun h => ?_) ?_ fun hident => ?_
    · rw [h] at hm
      cases hm
    · rintro _ _ name ⟨⟩ ht
      exact hg.ident name (tokens ts) (by rw [tokens_cons, ht])
    · exact hg.stop t.token (tokens ts) rfl (fun name hn => hident name (congrArg some hn)) hm hp

/-- Whether a rule is still to come, or only pragmas. -/
def comesRule (us : List Token) : Bool :=
  us.any fun u => (pragmaTree? u).isNone

theorem comesRule_pragmaTokens (qs : List (String × String)) (us : List Token) :
    comesRule (Phrase.pragmaTokens qs ++ us) = comesRule us := by
  induction qs with
  | nil => rfl
  | cons q qs ih => exact ih

theorem comesRule_of_isRules {J : Phrase.Joint} {us : List Token} {F : List Tree} (h : Phrase.IsRules J us F) :
    comesRule us = true := by
  have hrule {ps qs : List (String × String)} {vs ws : List Token} {t : Tree}
      (hr : Phrase.IsRule J ((Phrase.pragmaTrees ps).filter (!isDeclaration ·)) vs t) :
      comesRule (Phrase.pragmaTokens qs ++ vs ++ ws) = true := by
    obtain ⟨u, vs, rfl, hu⟩ := hr.exists_cons
    rw [List.append_assoc, comesRule_pragmaTokens, comesRule, List.cons_append, List.any_cons, hu]
    rfl
  cases h with
  | one ps qs hr => exact hrule hr
  | cons ps hr hts => exact hrule hr

theorem follows_rules {fuel : Nat} (ps : List Tree) (hfuel : ts.length < fuel)
    (hg : ∀ name data, g.look (some (.pragma name data)) = .take [g])
    (hrule : ∀ qs us, tokens ts = Phrase.pragmaTokens qs ++ us → BeginsRule g us) :
    Follows last 0 (rules last fuel ps) (g :: K) (if comesRule (tokens ts) then .rules true :: K else g :: K)
      pre ts := by
  induction fuel generalizing g ps pre ts with
  | zero => omega
  | succ fuel ih =>
    rw [rules]
    refine .atEnd_bind ?_
    split
    · rename_i hnil
      obtain rfl := List.isEmpty_iff.mp hnil
      exact .pure (.refl _ _)
    refine .pragmas_bind hg fun qs ws rest hts hws hnone => .atEnd_bind ?_
    subst hts
    rw [tokens_append, hws, comesRule_pragmaTokens]
    cases rest with
    | nil => exact .pure (.refl _ _)
    | cons t rest =>
      have hcomes : comesRule (tokens (t :: rest)) = true := by
        rw [comesRule, tokens_cons, List.any_cons, show pragmaTree? t.token = none from hnone]
        rfl
      rw [hcomes, if_pos rfl, if_neg (by simp)]
      have hbegins : BeginsRule g (tokens (t :: rest)) := hrule qs _ (by rw [tokens_append, hws])
      -- after the first rule the goal is `rules true`, whatever it was before, and the induction goes on with that
      refine .zero (.bind (follows_rule _ hbegins hnone) fun r ws' rest' _ hts' hws' => ?_)
      rw [List.length_append, hts', List.length_append] at hfuel
      refine .bind (ih [] (by omega) (fun _ _ => rfl) fun _ us _ => beginsRule_rules true us) fun _ _ _ _ _ _ => ?_
      rw [ite_self]
      exact .pure (.refl _ _)

theorem follows_prolog (ps : List Tree) {us : List Token}
    (hts : tokens ts = .ident "ixml" :: .ident "version" :: us) :
    Follows last 0 (prolog last ps) (.opening :: K) (.rules false :: K) pre ts := by
  obtain ⟨⟨_, p⟩, ts, rfl, rfl, hts'⟩ := List.map_eq_cons_iff.mp hts
  obtain ⟨⟨_, q⟩, ts, rfl, rfl, -⟩ := List.map_eq_cons_iff.mp hts'
  have hixml : Goal.opening.look (some (.ident "ixml")) = .take [.afterIxml] := rfl
  have hversion : Goal.afterIxml.look (some (.ident "version")) = .take [.version, .prologEnd, .rules false] := rfl
  refine .zero (.discard_bind hixml (.zero (.discard_bind hversion ?_)))
  by_cases h : ∃ v, (tokens ts).head? = some (.string v)
  case neg =>
    refine .late ("Expected version string, got " ++ Token.describeFound (tokens ts).head?) ?_ ?_
      (by simp [List.isPrefixOf]) ?_
    · exact Goal.look_version fun v hv => h ⟨v, hv⟩
    · split
      · rename_i v hv
        exact absurd ⟨v, hv⟩ h
      · rfl
    · rw [opensBadRange_append]
      rfl
  obtain ⟨v, h⟩ := h
  obtain ⟨⟨_, p⟩, ts, rfl, rfl⟩ := exists_cons_of_head? h
  have htake : Goal.version.look (some (.string v)) = .take [] := rfl
  refine .zero (.take_bind htake (.pragmas_bind (fun _ _ => rfl) fun qs ws rest _ _ hnone => ?_))
  have hperiod : Goal.prologEnd.look (some .period) = .take [] := rfl
  refine .zero (.expect_bind hperiod (fun hstop => ?_) (fun found => ?_) fun _ _ _ => .pure (.refl _ _))
  · simp [Goal.look, Goal.lookSign, hnone, hstop]
  · simp [List.isPrefixOf]

theorem follows_grammarFrom (top : List Tree) (ps : List (String × String)) (hstop : g.look none = .stop)
    (hg : ∀ name data, g.look (some (.pragma name data)) = .take [g])
    (hrule : ∀ qs us, tokens ts = Phrase.pragmaTokens qs ++ us → BeginsRule g us) :
    Follows last 0 (grammarFrom last top (Phrase.pragmaTrees ps)) (g :: K) (.rules true :: K) pre ts := by
  refine .get_bind (.bind (follows_rules _ (Nat.lt_succ_self _) hg hrule) fun F ws rest hm _ _ => ?_)
  obtain ⟨hrest, hF⟩ := takes_rules ps (by rw [List.length_map]; exact Nat.lt_succ_self _) ts F rest rfl hm
  obtain rfl := List.map_eq_nil_iff.mp hrest
  split
  · rename_i hany
    rcases hF with hF | ⟨qs, -, rfl⟩
    · have hcomes := comesRule_of_isRules hF
      rw [comesRule_pragmaTokens] at hcomes
      rw [show comesRule (tokens ts) = true from hcomes, if_pos rfl]
      exact .pure (.refl _ _)
    · rw [any_isRule_pragmaTrees] at hany
      cases hany
  · rename_i hany
    rcases hF with hF | ⟨qs, hqs, rfl⟩
    · exact absurd (List.any_eq_true.mpr hF.exists_isRule) hany
    · -- there were only pragmas, so that the goal still waits for a rule where the tokens end
      have hcomes : comesRule (tokens ts) = false := by
        rw [← comesRule_pragmaTokens ps, show _ ++ tokens ts = _ from hqs, ← List.append_nil (Phrase.pragmaTokens qs),
          comesRule_pragmaTokens]
        rfl
      rw [hcomes, if_neg Bool.false_ne_true]
      exact .of_error (e := .emptyGrammar) rfl (.of_stop hstop nofun)

theorem follows_grammar : Follows last 0 (grammar last) [.opening] [.rules true] pre ts := by
  rw [grammar_eq]
  refine .pragmas_bind (fun _ _ => rfl) fun qs ws rest hts hws hnone => .get_bind ?_
  split
  · rename_i hopens
    obtain ⟨us, hus⟩ := exists_of_opensProlog rfl hopens
    refine .bind (follows_prolog _ hus) fun top ws' rest' _ _ _ => ?_
    exact follows_grammarFrom top [] rfl (fun _ _ => rfl) fun _ us _ => beginsRule_rules false us
  · rename_i hopens
    refine follows_grammarFrom [] qs rfl (fun _ _ => rfl) fun qs' us hus => beginsRule_opening fun vs hvs => ?_
    cases qs' with
    | nil => exact hopens ((opensProlog_eq (hus.trans hvs)).trans rfl)
    | cons q qs' =>
      rw [hus] at hnone
      cases hnone

end Ixml.Reader
