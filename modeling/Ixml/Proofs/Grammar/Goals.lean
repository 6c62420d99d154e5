import Ixml.Proofs.Grammar.Phrases

/-!
# What is still to come

What a reader waits for while it reads a grammar is a stack of goals. The next token alone decides what becomes of the
goal on top (`Goal.look`), so that tokens lead from one stack to another in one way only (`Goes`). Every stack that
occurs can be closed: there are tokens that lead from it to the end of a grammar (`Goes.exists_nil`). A prefix of the
tokens can therefore be completed as long as no goal has refused one of them.
-/

namespace Ixml

/-- The mark that a sign stands for. -/
def Token.mark? : Token → Option Mark
  | .atSign => some .attr
  | .minus => some .hidden
  | .caret => some .element
  | _ => none

/-- The value that a string or a numeral gives. -/
def Token.value? : Token → Option Literal
  | .string s => some (.quoted s)
  | .hex digits => (Literal.ofHex digits).toOption
  | _ => none

/-- The character that a literal gives as the end of a range. -/
def Literal.char? : Literal → Option Char
  | .coded c => some c
  | .quoted s =>
    match s.toList with
    | [c] => some c
    | _ => none

/-- What a reader may wait for. -/
inductive Goal
  /-- The front of a text: pragmas, and a prolog or the first rule. -/
  | opening
  /-- What follows the word `ixml` at the front: the rest of the prolog, or of a rule of that name. -/
  | afterIxml
  | version
  | prologEnd
  /-- Rules and pragmas up to the end; whether there has been a rule. -/
  | rules (hasRule : Bool)
  | name
  | colon
  | period
  | alt
  | furtherAlts
  /-- The terms after the first one of an alternative. -/
  | factors
  | commaFactors
  | adjacentFactors
  | term
  | factor
  /-- The rest of a factor that is neither a group nor an insertion. -/
  | marked (m : Option Mark)
  /-- A sign after a factor. -/
  | sign
  | closeParen
  | value
  | bracket
  | members
  /-- What follows a literal in a set: it may begin a range. -/
  | afterValue (a : Literal)
  | rangeEnd (x : Char)
  | memberEnd
deriving DecidableEq, Repr

namespace Goal

/-- What a goal makes of the next token: it takes it, or passes it on to other goals, or refuses it. -/
inductive Look
  | take (goals : List Goal)
  | pass (goals : List Goal)
  | stop

open Reader (pragmaTree? suffix? isAltEnd isBar isMemberEnd)

def lookRule (again : Goal) (atEnd : Look) : Option Token → Look
  | none => atEnd
  | some (.pragma ..) => .take [again]
  | some (.ident _) => .take [colon]
  | some u => if u.mark?.isSome then .take [name] else .stop

def lookColon (o : Option Token) : Look :=
  if o = some .colon ∨ o = some .equals then .take [alt, furtherAlts, period, rules true] else .stop

def lookSign (u : Token) (goals : List Goal) (o : Option Token) : Look :=
  if o = some u then .take goals else .stop

/-- What becomes of a goal when the next token is seen, or the end of the tokens. -/
def look : Goal → Option Token → Look
  | opening, o => if o = some (.ident "ixml") then .take [afterIxml] else lookRule opening .stop o
  | rules true, o => lookRule (rules true) (.pass []) o
  | rules false, o => lookRule (rules false) .stop o
  | afterIxml, o =>
    if o = some (.ident "version") then .take [version, prologEnd, rules false] else lookColon o
  | version, some (.string _) => .take []
  | version, _ => .stop
  | prologEnd, o => if (o.bind pragmaTree?).isSome then .take [prologEnd] else lookSign .period [] o
  | name, some (.ident _) => .take [colon]
  | name, _ => .stop
  | colon, o => lookColon o
  | period, o => lookSign .period [] o
  | alt, o => if o.all isAltEnd then .pass [] else .pass [term, factors]
  | furtherAlts, o => if o.any isBar then .take [alt, furtherAlts] else .pass []
  | factors, o => if o.any (· == .comma) then .pass [commaFactors] else .pass [adjacentFactors]
  | commaFactors, o => if o.any (· == .comma) then .take [term, commaFactors] else .pass []
  | adjacentFactors, o => if o.all isAltEnd then .pass [] else .pass [term, adjacentFactors]
  | term, o => if (o.bind pragmaTree?).isSome then .take [term] else .pass [factor, sign]
  | factor, some .leftParen => .take [alt, furtherAlts, closeParen]
  | factor, some .plus => .take [value]
  | factor, o =>
    match o.bind Token.mark? with
    | some m => .take [marked (some m)]
    | none => .pass [marked none]
  | marked _, some (.ident _) => .take []
  | marked (some .attr), _ => .stop
  | marked _, some .leftBracket => .take [members]
  | marked _, some .tilde => .take [bracket]
  | marked _, o => if (o.bind Token.value?).isSome then .take [] else .stop
  | sign, o =>
    match o.bind suffix? with
    | none => .pass []
    | some (_, false) => .take []
    | some (_, true) => .take [term]
  | closeParen, o => lookSign .rightParen [] o
  | value, o => if (o.bind Token.value?).isSome then .take [] else .stop
  | bracket, o => lookSign .leftBracket [members] o
  | members, some .rightBracket => .take []
  | members, some (.ident code) => if CharSet.isCategoryCode code then .take [memberEnd, members] else .stop
  | members, o =>
    match o.bind Token.value? with
    | some a => .take [afterValue a, memberEnd, members]
    | none => .stop
  | afterValue a, o =>
    if o = some .minus then
      match a.char? with
      | some x => .take [rangeEnd x]
      | none => .stop
    else .pass []
  | rangeEnd x, o =>
    match (o.bind Token.value?).bind Literal.char? with
    | some y => if y < x then .stop else .take []
    | none => .stop
  | memberEnd, o => if o.any isMemberEnd then .take [] else .pass []

theorem lookRule_stop {again : Goal} {atEnd : Look} {u : Token} (hident : ∀ name, u ≠ .ident name)
    (hm : u.mark? = none) (hp : pragmaTree? u = none) : lookRule again atEnd (some u) = .stop := by
  cases u with
  | ident name => exact absurd rfl (hident name)
  | atSign => cases hm
  | minus => cases hm
  | caret => cases hm
  | pragma name data => cases hp
  | _ => rfl

theorem lookRule_mark {again : Goal} {atEnd : Look} {u : Token} {m : Mark} (hm : u.mark? = some m) :
    lookRule again atEnd (some u) = .take [.name] := by
  cases u with
  | atSign => rfl
  | minus => rfl
  | caret => rfl
  | _ => cases hm

theorem look_name {o : Option Token} (h : ∀ name, o ≠ some (.ident name)) : name.look o = .stop := by
  rcases o with _ | u
  · rfl
  cases u with
  | ident name => exact absurd rfl (h name)
  | _ => rfl

theorem look_version {o : Option Token} (h : ∀ v, o ≠ some (.string v)) : version.look o = .stop := by
  rcases o with _ | u
  · rfl
  cases u with
  | string v => exact absurd rfl (h v)
  | _ => rfl

theorem look_marked_attr {o : Option Token} (ho : ∀ name, o ≠ some (.ident name)) :
    (marked (some .attr)).look o = .stop := by
  rcases o with _ | u
  · rfl
  cases u with
  | ident name => exact absurd rfl (ho name)
  | _ => rfl

theorem look_marked {m : Option Mark} {o : Option Token} (hm : m ≠ some .attr) (ho : ∀ name, o ≠ some (.ident name))
    (hset : o ≠ some .leftBracket ∧ o ≠ some .tilde) :
    (marked m).look o = if (o.bind Token.value?).isSome then .take [] else .stop := by
  obtain ⟨hbracket, htilde⟩ := hset
  rcases m with _ | _ | _ | _
  case some.attr => exact absurd rfl hm
  all_goals
    rcases o with _ | u
    · rfl
    cases u with
    | ident name => exact absurd rfl (ho name)
    | leftBracket => exact absurd rfl hbracket
    | tilde => exact absurd rfl htilde
    | _ => rfl

theorem look_factor {o : Option Token} (hparen : o ≠ some .leftParen) (hplus : o ≠ some .plus) :
    factor.look o = match o.bind Token.mark? with
      | some m => .take [.marked (some m)]
      | none => .pass [.marked none] := by
  rcases o with _ | u
  · rfl
  cases u with
  | leftParen => exact absurd rfl hparen
  | plus => exact absurd rfl hplus
  | _ => rfl

theorem look_members {o : Option Token} (hclose : o ≠ some .rightBracket) (hident : ∀ code, o ≠ some (.ident code)) :
    members.look o = match o.bind Token.value? with
      | some a => .take [.afterValue a, .memberEnd, .members]
      | none => .stop := by
  rcases o with _ | u
  · rfl
  cases u with
  | rightBracket => exact absurd rfl hclose
  | ident code => exact absurd rfl (hident code)
  | _ => rfl

/-- Tokens lead from one stack of goals to another. -/
inductive Goes : List Goal → List Token → List Goal → List Token → Prop
  | refl (S : List Goal) (us : List Token) : Goes S us S us
  | pass {g : Goal} {γ S T : List Goal} {us vs : List Token} (h : g.look us.head? = .pass γ)
    (hr : Goes (γ ++ S) us T vs) : Goes (g :: S) us T vs
  | take {g : Goal} {γ S T : List Goal} {u : Token} {us vs : List Token} (h : g.look (some u) = .take γ)
    (hr : Goes (γ ++ S) us T vs) : Goes (g :: S) (u :: us) T vs

variable {g : Goal} {γ S T U : List Goal} {u : Token} {us vs ws xs : List Token} {o : Option Token}

namespace Goes

theorem drop (h : g.look us.head? = .pass []) : Goes (g :: S) us S us :=
  .pass h (.refl S us)

theorem trans (h : Goes S us T vs) (h' : Goes T vs U ws) : Goes S us U ws := by
  induction h with
  | refl => exact h'
  | pass hl _ ih => exact .pass hl (ih h')
  | take hl _ ih => exact .take hl (ih h')

/-- Goals that are reached at the end are not reached where a goal refuses what is next. -/
theorem not_stop (h : Goes S us [] []) (h' : Goes S us (g :: T) vs) : g.look vs.head? ≠ .stop := by
  intro hstop
  generalize hU : g :: T = U at h'
  induction h' with
  | refl =>
    subst hU
    cases h with
    | pass hl => exact nomatch hl.symm.trans hstop
    | take hl => exact nomatch hl.symm.trans hstop
  | pass hl _ ih =>
    cases h with
    | pass hl' hr =>
      cases hl.symm.trans hl'
      exact ih hr hstop hU
    | take hl' => exact nomatch hl.symm.trans hl'
  | take hl _ ih =>
    cases h with
    | pass hl' => exact nomatch hl.symm.trans hl'
    | take hl' hr =>
      cases hl.symm.trans hl'
      exact ih hr hstop hU

/-- Between two stacks, some tokens are taken, whatever follows them. After that only the next token is looked at. -/
theorem exists_append (h : Goes S us T vs) : ∃ ws K, us = ws ++ vs ∧ (∀ xs, Goes S (ws ++ xs) K xs) ∧
    ∀ xs, xs.head? = vs.head? → Goes K xs T xs := by
  induction h with
  | refl S us => exact ⟨[], S, rfl, fun xs => .refl S xs, fun xs _ => .refl S xs⟩
  | @pass g γ S T us vs hl _ ih =>
    obtain ⟨ws, K, rfl, htake, hpass⟩ := ih
    cases ws with
    | nil =>
      -- the goal is left for later, as the next token may be another one then
      refine ⟨[], g :: S, rfl, fun xs => .refl _ xs, fun xs hxs => .pass (hxs ▸ hl) ?_⟩
      exact (htake xs).trans (hpass xs hxs)
    | cons w ws => exact ⟨w :: ws, K, rfl, fun xs => .pass hl (htake xs), hpass⟩
  | @take g γ S T u us vs hl _ ih =>
    obtain ⟨ws, K, rfl, htake, hpass⟩ := ih
    exact ⟨u :: ws, K, rfl, fun xs => .take hl (htake xs), hpass⟩

end Goes

/-! ### Stacks can be closed -/

/-- Tokens that end a goal. -/
def closing : Goal → List Token
  | opening | rules false | name => [.ident "a", .colon, .period]
  | afterIxml | colon => [.colon, .period]
  | version => [.string "1.0"]
  | prologEnd | period => [.period]
  | term | factor | marked _ => [.ident "a"]
  | closeParen => [.rightParen]
  | value => [.string ""]
  | bracket => [.leftBracket, .rightBracket]
  | members => [.rightBracket]
  | rangeEnd x => [.string (String.singleton x)]
  | rules true | alt | furtherAlts | factors | commaFactors | adjacentFactors | sign | afterValue _ | memberEnd => []

/-- Whether a goal can be ended if a given token comes after it. -/
def endsBefore : Goal → Option Token → Bool
  | opening, o | afterIxml, o | rules _, o | name, o | colon, o => o.isNone
  | version, _ | prologEnd, _ | period, _ => true
  | afterValue _, o | rangeEnd _, o | memberEnd, o => o == some .rightBracket
  | _, o => o == some .period || o == some .rightParen

/-- Each goal of a stack can be ended before those below it are. -/
def Fits : List Goal → Prop
  | [] => True
  | g :: S => g.endsBefore (S.flatMap closing).head? = true ∧ Fits S

/-- The goals of an answer can be put in front of others. -/
def Look.Fits (S : List Goal) : Look → Prop
  | take γ | pass γ => Goal.Fits (γ ++ S)
  | stop => True

theorem fits_lookColon (hend : (S.flatMap closing).head?.isNone = true) (hS : Fits S) : (lookColon o).Fits S := by
  rw [lookColon]
  split
  · exact ⟨rfl, rfl, rfl, hend, hS⟩
  · exact True.intro

theorem fits_lookRule {atEnd : Look} (hend : (S.flatMap closing).head?.isNone = true) (hg : Fits (g :: S))
    (hatEnd : atEnd.Fits S) : (lookRule g atEnd o).Fits S := by
  fun_cases lookRule g atEnd o
  case case1 => exact hatEnd
  case case2 => exact hg
  case case5 => exact True.intro
  all_goals exact ⟨hend, hg.2⟩

theorem fits_lookSign {u : Token} {γ : List Goal} (hγ : Fits (γ ++ S)) : (lookSign u γ o).Fits S := by
  rw [lookSign]
  split
  · exact hγ
  · exact True.intro

theorem fits_look (hg : Fits (g :: S)) : (g.look o).Fits S := by
  obtain ⟨hend, hS⟩ := hg
  fun_cases look g o
  case case2 | case4 => exact fits_lookRule hend ⟨hend, hS⟩ True.intro
  case case3 => exact fits_lookRule hend ⟨hend, hS⟩ hS
  case case6 | case13 => exact fits_lookColon hend hS
  -- the last of the new goals is ended where the goal was, and each of the others before the closing tokens of the next
  all_goals first
    | exact True.intro
    | exact hS
    | exact fits_lookSign hS
    | exact fits_lookSign ⟨hend, hS⟩
    | exact ⟨hend, hS⟩
    | exact ⟨hend, hend, hS⟩
    | exact ⟨rfl, hend, hS⟩
    | exact ⟨rfl, rfl, hend, hS⟩

theorem Goes.fits (h : Goes S us T vs) (hS : Fits S) : Fits T := by
  induction h with
  | refl => exact hS
  | pass hl _ ih | take hl _ ih =>
    have hγ : Look.Fits _ _ := hl ▸ fits_look hS
    exact ih hγ

theorem exists_of_endsBefore (h : (vs.head? == some .period || vs.head? == some .rightParen) = true) :
    ∃ ws, vs = .period :: ws ∨ vs = .rightParen :: ws := by
  cases vs with
  | nil => cases h
  | cons v vs => exact ⟨vs, by simpa using h⟩

theorem goes_body (S : List Goal) : Goes (alt :: furtherAlts :: period :: rules true :: S) [.period] S [] :=
  .pass rfl (.pass rfl (.take rfl (.pass rfl (.refl S []))))

theorem goes_colon (S : List Goal) : Goes (colon :: S) [.colon, .period] S [] :=
  .take rfl (goes_body S)

theorem goes_closing (hg : g.endsBefore vs.head? = true) : Goes (g :: S) (g.closing ++ vs) S vs := by
  cases g with
  | opening | name =>
    obtain rfl : vs = [] := List.head?_eq_none_iff.mp (Option.isNone_iff_eq_none.mp hg)
    exact .take rfl (goes_colon S)
  | afterIxml | colon =>
    obtain rfl : vs = [] := List.head?_eq_none_iff.mp (Option.isNone_iff_eq_none.mp hg)
    exact .take rfl (goes_body S)
  | rules b =>
    obtain rfl : vs = [] := List.head?_eq_none_iff.mp (Option.isNone_iff_eq_none.mp hg)
    cases b with
    | false => exact .take rfl (goes_colon S)
    | true => exact .drop rfl
  | version | prologEnd | period | closeParen | value | members => exact .take rfl (.refl S vs)
  | bracket => exact .take rfl (.take rfl (.refl S vs))
  | rangeEnd x =>
    have hx : (rangeEnd x).look (some (.string (String.singleton x))) = .take [] := by
      simp [look, Token.value?, Literal.char?]
    exact .take hx (.refl S vs)
  | afterValue a | memberEnd =>
    obtain ⟨ws, rfl⟩ := List.head?_eq_some_iff.mp (beq_iff_eq.mp hg)
    exact .drop rfl
  | alt | furtherAlts | commaFactors | adjacentFactors | sign =>
    obtain ⟨ws, rfl | rfl⟩ := exists_of_endsBefore hg <;> exact .drop rfl
  | factors =>
    obtain ⟨ws, rfl | rfl⟩ := exists_of_endsBefore hg <;> exact .pass rfl (.drop rfl)
  | term =>
    obtain ⟨ws, rfl | rfl⟩ := exists_of_endsBefore hg <;> exact .pass rfl (.pass rfl (.take rfl (.drop rfl)))
  | factor => exact .pass rfl (.take rfl (.refl S vs))
  | marked m =>
    rcases m with _ | _ | _ | _ <;> exact .take rfl (.refl S vs)

/-- A stack is ended by the closing tokens of its goals. -/
theorem Fits.goes (hS : Fits S) : Goes S (S.flatMap closing) [] [] := by
  induction S with
  | nil => exact .refl _ _
  | cons g S ih => exact (goes_closing hS.1).trans (ih hS.2)

theorem Goes.exists_nil (h : Goes S (ws ++ vs) T vs) (hS : Fits S) : ∃ xs, Goes S (ws ++ xs) [] [] := by
  obtain ⟨ws', K, hw, htake, -⟩ := h.exists_append
  obtain rfl := List.append_cancel_right hw
  have hK : Fits K := (htake []).fits hS
  exact ⟨_, (htake _).trans hK.goes⟩

end Goal

end Ixml
