import Ixml.Error
import Ixml.Text.Blank
import Ixml.Token.Basic

/-!
# Tokens of a text

`Token.scan` splits a text into tokens, each with its place. Blanks and comments in braces, which may be
nested, only separate tokens; a comment that opens with a bracket is a pragma and is a token itself. The
scan goes on along the rest of the text, which every step makes shorter.
-/

namespace Ixml

open Text (Position)

/-- What is left of a text, and the place where it begins. -/
structure Cursor where
  rest : List Char
  position : Position := .start
deriving DecidableEq, Repr

namespace Token

/-- An error at a place of the text. -/
def failure {α : Type} (message : String) (p : Position) : Except Error α :=
  .error (.syntaxError message p)

/-- A character that may begin an identifier. -/
def isIdentStart (c : Char) : Bool :=
  Unicode.isAlphabetic c || c == '_'

/-- A character that may stand in an identifier. -/
def isIdentChar (c : Char) : Bool :=
  Unicode.isAlphanumeric c || c == '_' || c == '-' || c == '\xb7'

/-- Pass over the rest of a comment. `depth` is the number of comments around the present one. -/
def skipComment : Nat → List Char → Position → Except Error Cursor
  | _, [], p => failure "Unclosed comment" p
  | depth, c :: cs, p =>
    if c == '\x7b' then skipComment (depth + 1) cs (p.after c)
    else if c == '\x7d' then
      match depth with
      | 0 => .ok ⟨cs, p.after c⟩
      | depth + 1 => skipComment depth cs (p.after c)
    else skipComment depth cs (p.after c)

/-- The body of a pragma up to its end, and what follows. -/
def pragmaBody : List Char → Position → Except Error (List Char × Cursor)
  | [], p => failure "Unclosed pragma" p
  | c :: cs, p =>
    if c == ']' && cs.head? == some '\x7d' then .ok ([], ⟨cs.tail, (p.after c).after '\x7d'⟩)
    else
      match pragmaBody cs (p.after c) with
      | .ok (body, k) => .ok (c :: body, k)
      | .error e => .error e

/-- The text of a string up to its closing `quote`, which stands for itself where it is doubled, and
what follows. -/
def quoted (quote : Char) : List Char → Position → Except Error (List Char × Cursor)
  | [], p => failure "Unterminated string" p
  | [c], p =>
    if c == quote then .ok ([], ⟨[], p.after c⟩)
    else if c == '\n' then failure "Line break inside string" (p.after c)
    else failure "Unterminated string" (p.after c)
  | c :: d :: cs, p =>
    if c == quote then
      if d == quote then
        match quoted quote cs ((p.after c).after d) with
        | .ok (s, k) => .ok (quote :: s, k)
        | .error e => .error e
      else .ok ([], ⟨d :: cs, p.after c⟩)
    else if c == '\n' then failure "Line break inside string" (p.after c)
    else
      match quoted quote (d :: cs) (p.after c) with
      | .ok (s, k) => .ok (c :: s, k)
      | .error e => .error e

/-- The longest piece in front of which all characters have `q`, and what follows. -/
def piece (q : Char → Bool) (cs : List Char) (p : Position) : List Char × Cursor :=
  (cs.takeWhile q, ⟨cs.dropWhile q, p.afterAll (cs.takeWhile q)⟩)

/-- A pragma with a given body: the first word is its name, the rest its data. -/
def pragmaOf (body : List Char) (p : Position) : Except Error Token :=
  let body := Text.trimChars body
  let name := body.takeWhile (!Unicode.isWhiteSpace ·)
  let data := Text.trimChars (body.dropWhile (!Unicode.isWhiteSpace ·))
  if name = [] then failure "Pragma without a name" p
  else .ok (.pragma (String.ofList name) (String.ofList data))

/-- A sign of one character. -/
def sign? : Char → Option Token
  | ':' => some .colon
  | '=' => some .equals
  | '.' => some .period
  | ';' => some .semicolon
  | '|' => some .pipe
  | ',' => some .comma
  | '+' => some .plus
  | '*' => some .star
  | '?' => some .question
  | '@' => some .atSign
  | '-' => some .minus
  | '^' => some .caret
  | '~' => some .tilde
  | '(' => some .leftParen
  | ')' => some .rightParen
  | '[' => some .leftBracket
  | ']' => some .rightBracket
  | _ => none

/-- The sign that two characters make up. -/
def doubleSign? (c : Char) (next : Option Char) : Option Token :=
  if c == '+' && next == some '+' then some .doublePlus
  else if c == '*' && next == some '*' then some .doubleStar
  else none

/-- The token that begins with `c` at `p`, with `cs` after it; what follows the token. -/
def lexeme (c : Char) (cs : List Char) (p : Position) : Except Error (Token × Cursor) :=
  let q := p.after c
  if c == '\x7b' then
    match pragmaBody cs.tail (q.after '[') with
    | .ok (body, k) => (pragmaOf body p).map (·, k)
    | .error e => .error e
  else if c == '"' || c == '\'' then
    (quoted c cs q).map fun (s, k) => (.string (String.ofList s), k)
  else if c == '#' then
    let (digits, k) := piece Text.Hex.isDigit cs q
    if digits = [] then failure "Expected hexadecimal digits after '#'" q
    else .ok (.hex (String.ofList digits), k)
  else
    match doubleSign? c cs.head?, sign? c with
    | some t, _ => .ok (t, ⟨cs.tail, q.after c⟩)
    | none, some t => .ok (t, ⟨cs, q⟩)
    | none, none =>
      if isIdentStart c then
        let (name, k) := piece isIdentChar cs q
        .ok (.ident (String.ofList (c :: name)), k)
      else failure ("Unexpected character: " ++ String.singleton c) p

theorem length_skipComment {depth : Nat} {cs : List Char} {p : Position} {k : Cursor}
    (h : skipComment depth cs p = .ok k) : k.rest.length ≤ cs.length := by
  fun_induction skipComment depth cs p with
  | case1 => simp [failure] at h
  | case2 depth c cs p _ ih => exact Nat.le_succ_of_le (ih h)
  | case3 c cs p _ _ => cases h; exact Nat.le_succ _
  | case4 c cs p _ _ depth ih => exact Nat.le_succ_of_le (ih h)
  | case5 depth c cs p _ _ ih => exact Nat.le_succ_of_le (ih h)

theorem length_pragmaBody {cs body : List Char} {p : Position} {k : Cursor}
    (h : pragmaBody cs p = .ok (body, k)) : k.rest.length ≤ cs.length := by
  fun_induction pragmaBody cs p generalizing body k with
  | case1 => simp [failure] at h
  | case2 c cs p _ =>
    cases h
    simp only [List.length_tail, List.length_cons]
    omega
  | case3 c cs p _ body' k' _ ih =>
    cases h
    exact Nat.le_succ_of_le (ih ‹_›)
  | case4 => simp at h

theorem length_quoted {quote : Char} {cs s : List Char} {p : Position} {k : Cursor}
    (h : quoted quote cs p = .ok (s, k)) : k.rest.length ≤ cs.length := by
  fun_induction quoted quote cs p generalizing s k with
  | case1 => simp [failure] at h
  | case2 => cases h; simp
  | case3 => simp [failure] at h
  | case4 => simp [failure] at h
  | case5 c d cs p _ _ s' k' _ ih =>
    cases h
    have := ih ‹_›
    simp only [List.length_cons]
    omega
  | case6 => simp at h
  | case7 => cases h; simp
  | case8 => simp [failure] at h
  | case9 c d cs p _ _ s' k' _ ih =>
    cases h
    exact Nat.le_succ_of_le (ih ‹_›)
  | case10 => simp at h

theorem length_piece {q : Char → Bool} {cs : List Char} {p : Position} :
    (piece q cs p).2.rest.length ≤ cs.length :=
  (List.dropWhile_sublist q).length_le

/-- How a token comes about. -/
theorem lexeme_cases {c : Char} {cs : List Char} {p : Position} {t : Token} {k : Cursor}
    (h : lexeme c cs p = .ok (t, k)) :
    (c = '\x7b' ∧ ∃ body, pragmaBody cs.tail ((p.after c).after '[') = .ok (body, k) ∧ pragmaOf body p = .ok t) ∨
    ((c = '"' ∨ c = '\'') ∧ ∃ s, quoted c cs (p.after c) = .ok (s, k) ∧ t = .string (String.ofList s)) ∨
    (c = '#' ∧ ∃ digits, digits ≠ [] ∧ piece Text.Hex.isDigit cs (p.after c) = (digits, k) ∧
      t = .hex (String.ofList digits)) ∨
    (doubleSign? c cs.head? = some t ∧ k = ⟨cs.tail, (p.after c).after c⟩) ∨
    (sign? c = some t ∧ k = ⟨cs, p.after c⟩) ∨
    (isIdentStart c = true ∧ ∃ name, piece isIdentChar cs (p.after c) = (name, k) ∧
      t = .ident (String.ofList (c :: name))) := by
  unfold lexeme at h
  dsimp only at h
  split at h
  · rename_i hc
    refine .inl ⟨by simpa using hc, ?_⟩
    split at h
    · rename_i body k' hb
      cases hp : pragmaOf body p with
      | error e => simp [hp, Except.map] at h
      | ok t' =>
        rw [hp] at h
        cases h
        exact ⟨body, hb, hp⟩
    · cases h
  · split at h
    · rename_i hc
      refine .inr (.inl ⟨by simpa using hc, ?_⟩)
      cases hq : quoted c cs (p.after c) with
      | error e => simp [hq, Except.map] at h
      | ok r =>
        rw [hq] at h
        cases h
        exact ⟨r.1, rfl, rfl⟩
    · split at h
      · rename_i hc
        refine .inr (.inr (.inl ⟨by simpa using hc, ?_⟩))
        split at h
        · simp [failure] at h
        · rename_i hne
          cases h
          exact ⟨_, hne, rfl, rfl⟩
      · refine .inr (.inr (.inr ?_))
        split at h
        · rename_i ht
          cases h
          exact .inl ⟨ht, rfl⟩
        · rename_i ht
          cases h
          exact .inr (.inl ⟨ht, rfl⟩)
        · split at h
          · rename_i hs
            cases h
            exact .inr (.inr ⟨hs, _, rfl, rfl⟩)
          · simp [failure] at h

theorem length_lexeme {c : Char} {cs : List Char} {p : Position} {t : Token} {k : Cursor}
    (h : lexeme c cs p = .ok (t, k)) : k.rest.length ≤ cs.length := by
  have tail : cs.tail.length ≤ cs.length := by simp
  have hpiece {q : Char → Bool} {ds : List Char} (hk : piece q cs (p.after c) = (ds, k)) :
      k.rest.length ≤ cs.length := by
    have hlen : (piece q cs (p.after c)).2.rest.length ≤ cs.length := length_piece
    rwa [hk] at hlen
  rcases lexeme_cases h with ⟨-, body, hb, -⟩ | ⟨-, s, hq, -⟩ | ⟨-, digits, -, hk, -⟩ | ⟨-, rfl⟩ | ⟨-, rfl⟩ |
    ⟨-, name, hk, -⟩
  · exact Nat.le_trans (length_pragmaBody hb) tail
  · exact length_quoted hq
  · exact hpiece hk
  · exact tail
  · exact Nat.le_refl _
  · exact hpiece hk

/-- The tokens of what is left of a text. -/
def tokens : Cursor → Except Error (List Placed)
  | ⟨[], _⟩ => .ok []
  | ⟨c :: cs, p⟩ =>
    if Unicode.isWhiteSpace c then tokens ⟨cs, p.after c⟩
    else if c == '\x7b' && cs.head? != some '[' then
      match _h : skipComment 0 cs (p.after c) with
      | .ok k => tokens k
      | .error e => .error e
    else
      match _h : lexeme c cs p with
      | .ok (t, k) =>
        match tokens k with
        | .ok ts => .ok (⟨t, p⟩ :: ts)
        | .error e => .error e
      | .error e => .error e
termination_by k => k.rest.length
decreasing_by
  · simp
  · exact Nat.lt_succ_of_le (length_skipComment ‹_›)
  · exact Nat.lt_succ_of_le (length_lexeme ‹_›)

def scan (text : String) : Except Error (List Placed) :=
  tokens ⟨text.toList, .start⟩

end Token

end Ixml
