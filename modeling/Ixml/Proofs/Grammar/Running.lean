import Ixml.Proofs.Grammar.Phrases

/-!
# Running readers

What a reader does on tokens, wherever in a text they stand. `Gives m us a vs` says that on the tokens `us` the
reader `m` gives `a` and leaves `vs`; `Takes m us Q` says that whatever it gives and leaves, if it does not fail,
satisfies `Q`.
-/

namespace Ixml.Reader

open Phrase

variable {α β : Type} {m : Reader α} {f : α → Reader β} {us vs ws : List Token} {u : Token} {a : α} {b : β}
  {Q : α → List Token → Prop} {R : β → List Token → Prop} {last : Text.Position}

def Gives (m : Reader α) (us : List Token) (a : α) (vs : List Token) : Prop :=
  ∀ ts : List Token.Placed, ts.map (·.token) = us → ∃ rest, m ts = .ok (a, rest) ∧ rest.map (·.token) = vs

def Takes (m : Reader α) (us : List Token) (Q : α → List Token → Prop) : Prop :=
  ∀ (ts : List Token.Placed) (a : α) (rest : List Token.Placed), ts.map (·.token) = us → m ts = .ok (a, rest) →
    Q a (rest.map (·.token))

theorem bind_run (ts : List Token.Placed) : (m >>= f) ts = (m ts).bind fun p => f p.1 p.2 :=
  rfl

namespace Gives

theorem pure : Gives (Pure.pure a) us a us := fun ts h => ⟨ts, rfl, h⟩

theorem bind (h : Gives m us a vs) (hf : Gives (f a) vs b ws) : Gives (m >>= f) us b ws := by
  intro ts hts
  obtain ⟨rest, hm, hrest⟩ := h ts hts
  obtain ⟨rest', hf, hrest'⟩ := hf rest hrest
  exact ⟨rest', by rw [bind_run, hm]; exact hf, hrest'⟩

theorem bindTakes (h : Gives m us a vs) (hf : Takes (f a) vs R) : Takes (m >>= f) us R := by
  intro ts b rest hts hb
  obtain ⟨rest', hm, hrest'⟩ := h ts hts
  rw [bind_run, hm] at hb
  exact hf rest' b rest hrest' hb

theorem lift {e : Except Error α} (h : e = .ok a) : Gives (liftM e : Reader α) us a us := by
  subst h
  exact fun ts h => ⟨ts, rfl, h⟩

theorem getBind {f : List Token.Placed → Reader β} (h : ∀ ts, ts.map (·.token) = us → Gives (f ts) us b vs) :
    Gives (get >>= f) us b vs :=
  fun ts hts => h ts hts ts hts

end Gives

namespace Takes

theorem pure (h : Q a us) : Takes (Pure.pure a) us Q := by
  intro ts b rest hts hb
  cases hb
  rwa [hts]

theorem bind (h : Takes m us Q) (hf : ∀ a vs, Q a vs → Takes (f a) vs R) : Takes (m >>= f) us R := by
  intro ts b rest hts hb
  rw [bind_run] at hb
  cases hm : m ts with
  | error e =>
    rw [hm] at hb
    cases hb
  | ok p =>
    rw [hm] at hb
    exact hf p.1 _ (h ts p.1 p.2 hts hm) p.2 b rest rfl hb

theorem mono {Q' : α → List Token → Prop} (h : Takes m us Q) (hQ : ∀ a vs, Q a vs → Q' a vs) : Takes m us Q' :=
  fun ts a rest hts hm => hQ a _ (h ts a rest hts hm)

theorem throw (e : Error) : Takes (MonadExcept.throw e : Reader α) us Q := by
  intro ts a rest hts hm
  cases hm

theorem lift {e : Except Error α} (h : ∀ a, e = .ok a → Q a us) : Takes (liftM e : Reader α) us Q := by
  intro ts a rest hts hm
  cases e with
  | error e => cases hm
  | ok b =>
    cases hm
    rw [hts]
    exact h a rfl

theorem getBind {f : List Token.Placed → Reader β} (h : ∀ ts, ts.map (·.token) = us → Takes (f ts) us R) :
    Takes (get >>= f) us R :=
  fun ts b rest hts hb => h ts hts ts b rest hts hb

theorem fail (message : String) : Takes (Reader.fail last message : Reader α) us Q :=
  .getBind fun _ _ => .throw _

end Takes

/-! ### Looking at the next token, and taking it -/

theorem gives_peek : Gives peek us us.head? us := by
  intro ts hts
  exact ⟨ts, by rw [← hts, List.head?_map]; rfl, hts⟩

theorem gives_take : Gives take us us.head? us.tail := by
  intro ts hts
  exact ⟨ts.tail, by rw [← hts, List.head?_map]; rfl, by rw [List.map_tail, hts]⟩

theorem gives_discard : Gives (discard take) us () us.tail :=
  Gives.bind (f := fun _ => Pure.pure ()) gives_take .pure

theorem gives_sees (p : Token → Bool) : Gives (sees p) us (us.head?.any p) us :=
  gives_peek.bind .pure

theorem gives_atEnd : Gives atEnd us us.isEmpty us := by
  intro ts hts
  exact ⟨ts, by rw [← hts, List.isEmpty_map]; rfl, hts⟩

theorem gives_atAltEnd : Gives atAltEnd us (us.head?.all isAltEnd) us := by
  refine gives_peek.bind ?_
  cases us with
  | nil => exact .pure
  | cons u us => exact .pure

theorem gives_expect (description : String) : Gives (expect last u description) (u :: us) () us := by
  refine gives_peek.bind ?_
  rw [List.head?_cons, if_pos (beq_self_eq_true _)]
  exact gives_discard

theorem takes_expect (description : String) :
    Takes (expect last u description) us fun _ vs => us = u :: vs := by
  refine gives_peek.bindTakes ?_
  split
  · rename_i h
    obtain ⟨vs, rfl⟩ := List.head?_eq_some_iff.mp (beq_iff_eq.mp h)
    exact gives_discard.bindTakes (.pure rfl)
  · exact .fail _

theorem exists_of_any_head? {p : Token → Bool} (h : us.head?.any p = true) : ∃ u vs, us = u :: vs ∧ p u = true := by
  cases us with
  | nil => cases h
  | cons u us => exact ⟨u, us, rfl, h⟩

/-! ### Pragmas and marks -/

theorem splitPragmas_append (ps : List (String × String)) (ts : List Token.Placed)
    (hts : ts.map (·.token) = pragmaTokens ps ++ us) (hu : ∀ u ∈ us.head?, pragmaTree? u = none) :
    (splitPragmas ts).1 = pragmaTrees ps ∧ (splitPragmas ts).2.map (·.token) = us := by
  induction ps generalizing ts with
  | nil =>
    rw [pragmaTokens, List.map_nil, List.nil_append] at hts
    cases ts with
    | nil => exact ⟨rfl, hts⟩
    | cons t ts =>
      have ht : pragmaTree? t.token = none := hu _ (by rw [← hts]; rfl)
      simp only [splitPragmas, ht]
      exact ⟨rfl, hts⟩
  | cons p ps ih =>
    obtain ⟨t, ts, rfl, ht, hts⟩ := List.map_eq_cons_iff.mp hts
    obtain ⟨h₁, h₂⟩ := ih ts hts
    have ht : pragmaTree? t.token = some (.ofKind (.pragma p.1 p.2)) := by rw [ht]; rfl
    simp only [splitPragmas, ht]
    exact ⟨congrArg _ h₁, h₂⟩

theorem gives_pragmas (ps : List (String × String)) (hu : ∀ u ∈ us.head?, pragmaTree? u = none) :
    Gives pragmas (pragmaTokens ps ++ us) (pragmaTrees ps) us := by
  intro ts hts
  obtain ⟨h₁, h₂⟩ := splitPragmas_append ps ts hts hu
  exact ⟨_, by rw [← h₁]; rfl, h₂⟩

theorem exists_pragmas (us : List Token) :
    ∃ ps vs, us = pragmaTokens ps ++ vs ∧ ∀ v ∈ vs.head?, pragmaTree? v = none := by
  induction us with
  | nil => exact ⟨[], [], rfl, by simp⟩
  | cons u us ih =>
    by_cases hu : pragmaTree? u = none
    · exact ⟨[], u :: us, rfl, by simpa using hu⟩
    · obtain ⟨ps, vs, rfl, hvs⟩ := ih
      cases u with
      | pragma name data => exact ⟨(name, data) :: ps, vs, rfl, hvs⟩
      | _ => exact absurd rfl hu

theorem gives_mark (m : Option Mark) (hu : markSign? u = none) :
    Gives mark (markTokens m ++ u :: us) (m.map Mark.sign) (u :: us) := by
  refine gives_peek.bind ?_
  cases m with
  | none =>
    rw [markTokens, Option.map_none, Option.toList_none, List.nil_append, List.head?_cons, Option.bind_some, hu]
    exact .pure
  | some m => cases m <;> exact gives_discard.bind .pure

theorem gives_terminalMarkSign (n : Option TerminalMark) (hu : markSign? u = none) :
    Gives mark (terminalMarkTokens n ++ u :: us) (n.map TerminalMark.sign) (u :: us) := by
  rcases n with _ | _ | _
  · exact gives_mark none hu
  · exact gives_mark (some .element) hu
  · exact gives_mark (some .hidden) hu

theorem gives_terminalMark (n : Option TerminalMark) :
    Gives (terminalMark (n.map TerminalMark.sign)) us (n.getD .keep) us := by
  cases n with
  | none => exact .pure
  | some n => exact .lift n.ofSign_sign

theorem exists_mark (us : List Token) :
    ∃ m vs, us = markTokens m ++ vs ∧ Gives mark us (m.map Mark.sign) vs := by
  cases h : us.head?.bind markSign? with
  | none =>
    refine ⟨none, us, rfl, gives_peek.bind ?_⟩
    rw [h]
    exact .pure
  | some c =>
    obtain ⟨u, hu, hc⟩ := Option.bind_eq_some_iff.mp h
    obtain ⟨vs, rfl⟩ := List.head?_eq_some_iff.mp hu
    cases u with
    | atSign => exact ⟨some .attr, vs, rfl, gives_peek.bind (gives_discard.bind .pure)⟩
    | minus => exact ⟨some .hidden, vs, rfl, gives_peek.bind (gives_discard.bind .pure)⟩
    | caret => exact ⟨some .element, vs, rfl, gives_peek.bind (gives_discard.bind .pure)⟩
    | _ => cases hc

/-- Whether there is a prolog is seen from two tokens. -/
theorem opensProlog_eq {u v : Token} {ts : List Token.Placed} (hts : ts.map (·.token) = u :: v :: us) :
    opensProlog ts = (u == .ident "ixml" && v == .ident "version") := by
  obtain ⟨a, ts, rfl, rfl, h⟩ := List.map_eq_cons_iff.mp hts
  obtain ⟨b, ts, rfl, rfl, -⟩ := List.map_eq_cons_iff.mp h
  rfl

/-! ### Parts of readers -/

/-- What is left of a member that is not a category code, once its first literal has been taken. -/
def memberFrom (last : Text.Position) (value : Literal) : Reader Tree := do
  if !(← sees (· == .minus)) then
    return .ofKind (.literal .keep value)
  else
    discard take
    let other ← literal last
    let a ← bound last value
    let b ← bound last other
    if b < a then
      throw (.invalidRange a b)
    else
      return .ofKind (.range a b)

theorem member_eq : member last = (do
    match ← peek with
    | some (.ident code) => do
      discard take
      if CharSet.isCategoryCode code then
        return .ofKind (.charClass code)
      else
        throw (.unknownClass code)
    | _ => do
      memberFrom last (← literal last)) :=
  rfl

/-- A set of a given kind, from its bracket. -/
def bracketed (last : Text.Position) (kind : Construct) : Reader Tree := do
  expect last .leftBracket "'['"
  let ms ← members last ((← get).length + 1)
  return .ofKind kind ms

theorem charSet_eq (n : TerminalMark) : charSet last n = (do
    if ← sees (· == .tilde) then do
      discard take
      bracketed last (.exclusion n)
    else
      bracketed last (.inclusion n)) :=
  rfl

/-- What is left of a factor that is neither a group nor an insertion, once its mark has been taken. -/
def marked (last : Text.Position) (sign : Option Char) : Reader Tree := do
  match ← peek with
  | some (.ident name) => do
    discard take
    match sign with
    | none => return .named (.nonterminal none none) name
    | some c => do
      let m ← liftM (Mark.ofSign c)
      return .named (.nonterminal (some m) none) name
  | some (.string _) | some (.hex _) => do
    let m ← terminalMark sign
    let value ← literal last
    return .ofKind (.literal m value)
  | some .leftBracket | some .tilde => do
    let m ← terminalMark sign
    charSet last m
  | other => fail last ("Expected factor, got " ++ Token.describeFound other)

theorem factor_succ (fuel : Nat) : factor last (fuel + 1) = (do
    match ← peek with
    | some .leftParen => do
      discard take
      let t ← alts last fuel
      expect last .rightParen "')' after grouped alternatives"
      return t
    | some .plus => do
      discard take
      let value ← literal last
      return .ofKind (.insertion value)
    | _ => do
      marked last (← mark)) := by
  rw [factor]
  rfl

/-- What is left of a rule once its mark has been taken. -/
def ruleFrom (last : Text.Position) (ps : List Tree) (m : Mark) : Reader Tree := do
  match ← take with
  | some (.ident name) => do
    if !(← sees fun t => t == .colon || t == .equals) then
      fail last ("Expected ':' after rule name '" ++ name ++ "'")
    else
      discard take
      let body ← alts last (6 * ((← get).length + 1))
      if !(← sees (· == .period)) then
        fail last ("Expected '.' at end of rule '" ++ name ++ "'")
      else
        discard take
        return .named (.rule m none) name (ps ++ [body])
  | other => fail last ("Expected rule name, got " ++ Token.describeFound other)

theorem rule_eq (ps : List Tree) : rule last ps = (do
    match ← mark with
    | some c => do
      let m ← liftM (Mark.ofSign c)
      ruleFrom last ps m
    | none => ruleFrom last ps .element) :=
  rfl

/-- What is left of a grammar after its prolog, or after the pragmas at its front. -/
def grammarFrom (last : Text.Position) (top ps : List Tree) : Reader (List Tree) := do
  let rest ← rules last ((← get).length + 1) ps
  if rest.any (·.label.kind.isRule) then
    return top ++ rest
  else
    throw .emptyGrammar

theorem grammar_eq : grammar last = (do
    let ps ← pragmas
    if opensProlog (← get) then do
      let top ← prolog last ps
      grammarFrom last top []
    else
      grammarFrom last [] ps) :=
  rfl

end Ixml.Reader
