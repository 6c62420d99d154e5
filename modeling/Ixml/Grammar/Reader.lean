import Ixml.CharSet.Category
import Ixml.Grammar.Basic
import Ixml.Token.Lexer

/-!
# Reading grammars

A reader for each production of the notation takes tokens from the front and gives the tree of what it has
read. An error is placed at the token that is next when it is found, and at the last token of the text when
there is no next.

The readers that call each other take a bound on the depth of their calls. Between two tokens there are at
most five calls, so that six for each token are always enough.
-/

namespace Ixml

open Text (Position)

/-- A reader: it takes tokens from the front of those that are left. -/
abbrev Reader := StateT (List Token.Placed) (Except Error)

namespace Reader

/-- The next token, which stays where it is. -/
def peek : Reader (Option Token) := do
  return (← get).head?.map (·.token)

/-- Take the next token, if there is one. -/
def take : Reader (Option Token) := do
  let ts ← get
  set ts.tail
  return ts.head?.map (·.token)

/-- Whether there is a next token and it satisfies `p`. -/
def sees (p : Token → Bool) : Reader Bool := do
  return (← peek).any p

def atEnd : Reader Bool := do
  return (← get).isEmpty

/-- Fail at the next token, or at `last` if there is none. -/
def fail {α : Type} (last : Position) (message : String) : Reader α := do
  let p := match (← get).head? with
    | some t => t.position
    | none => last
  throw (.syntaxError message p)

/-- Take the token `t`, which `description` names in the message if another is next. -/
def expect (last : Position) (t : Token) (description : String) : Reader Unit := do
  let found ← peek
  if found == some t then
    discard take
  else
    fail last ("Expected " ++ description ++ ", found " ++ Token.describeFound found)

def pragmaTree? : Token → Option Tree
  | .pragma name data => some (.ofKind (.pragma name data))
  | _ => none

/-- The pragmas in front of other tokens, and those tokens. -/
def splitPragmas : List Token.Placed → List Tree × List Token.Placed
  | [] => ([], [])
  | t :: ts =>
    match pragmaTree? t.token with
    | some tree => let (trees, rest) := splitPragmas ts; (tree :: trees, rest)
    | none => ([], t :: ts)

def pragmas : Reader (List Tree) := do
  let (trees, rest) := splitPragmas (← get)
  set rest
  return trees

def markSign? : Token → Option Char
  | .atSign => some '@'
  | .minus => some '-'
  | .caret => some '^'
  | _ => none

def mark : Reader (Option Char) := do
  match (← peek).bind markSign? with
  | some c => do
    discard take
    return some c
  | none => return none

/-- Read a string or a coded character. -/
def literal (last : Position) : Reader Literal := do
  match ← take with
  | some (.string s) => return .quoted s
  | some (.hex h) => liftM (Literal.ofHex h)
  | other => fail last ("Expected string or #hex, got " ++ Token.describeFound other)

/-- The character that a literal gives as the end of a range. -/
def bound (last : Position) : Literal → Reader Char
  | .coded c => return c
  | .quoted s =>
    match s.toList with
    | [c] => return c
    | _ => fail last ("Range bound must be a single character, got \"" ++ s ++ "\"")

/-- Read a member of a set: a category code, a literal, or a range between two literals. -/
def member (last : Position) : Reader Tree := do
  match ← peek with
  | some (.ident code) => do
    discard take
    if CharSet.isCategoryCode code then
      return .ofKind (.charClass code)
    else
      throw (.unknownClass code)
  | _ => do
    let value ← literal last
    if !(← sees (· == .minus)) then
      return .ofKind (.literal .keep value)
    else
      discard take
      let other ← literal last
      let a ← bound last value
      let b ← bound last other
      if b < a then
        throw (.invalidRange a b)
      else
        return .ofKind (.range a b)

/-- A sign that may follow a member of a set. -/
def isMemberEnd (t : Token) : Bool :=
  t == .semicolon || t == .pipe || t == .comma

/-- Read members up to the bracket that closes the set, and the bracket. -/
def members (last : Position) : Nat → Reader (List Tree)
  | 0 => fail last "Unterminated character set"
  | fuel + 1 => do
    if ← sees (· == .rightBracket) then
      discard take
      return []
    else if ← atEnd then
      fail last "Unterminated character set"
    else
      let m ← member last
      if ← sees isMemberEnd then
        discard take
      let ms ← members last fuel
      return m :: ms

/-- Read a set, from its tilde or bracket. -/
def charSet (last : Position) (mark : TerminalMark) : Reader Tree := do
  let kind ← if ← sees (· == .tilde) then do
      discard take
      pure (Construct.exclusion mark)
    else
      pure (Construct.inclusion mark)
  expect last .leftBracket "'['"
  let ms ← members last ((← get).length + 1)
  return .ofKind kind ms

/-- The mark of a terminal; without a sign it is kept. -/
def terminalMark : Option Char → Reader TerminalMark
  | some c => liftM (TerminalMark.ofSign c)
  | none => return .keep

/-- A token that ends an alternative. -/
def isAltEnd (t : Token) : Bool :=
  t == .period || t == .pipe || t == .semicolon || t == .rightParen

/-- Whether an alternative cannot go on. -/
def atAltEnd : Reader Bool := do
  match ← peek with
  | some t => return isAltEnd t
  | none => return true

/-- The kind of construct that a sign after a factor makes, and whether a separator follows. -/
def suffix? : Token → Option (Construct × Bool)
  | .question => some (.option, false)
  | .star => some (.repeat0, false)
  | .doubleStar => some (.repeat0, true)
  | .plus => some (.repeat1, false)
  | .doublePlus => some (.repeat1, true)
  | _ => none

/-- A sign between alternatives. -/
def isBar (t : Token) : Bool :=
  t == .pipe || t == .semicolon

mutual

/-- Read alternatives; there is at least one, which may be empty. -/
def alts (last : Position) : Nat → Reader Tree
  | 0 => fail last "Expected factor"
  | fuel + 1 => do
    let first ← alt last fuel
    let rest ← furtherAlts last fuel
    return .ofKind .alts (first :: rest)

/-- Read the alternatives that follow a bar. -/
def furtherAlts (last : Position) : Nat → Reader (List Tree)
  | 0 => fail last "Expected factor"
  | fuel + 1 => do
    if ← sees isBar then
      discard take
      let t ← alt last fuel
      let ts ← furtherAlts last fuel
      return t :: ts
    else
      return []

/-- Read an alternative: nothing, or terms that are either all or none separated by commas. -/
def alt (last : Position) : Nat → Reader Tree
  | 0 => fail last "Expected factor"
  | fuel + 1 => do
    if ← atAltEnd then
      return .ofKind .alt
    else
      let first ← term last fuel
      let rest ← if ← sees (· == .comma) then commaTerms last fuel else adjacentTerms last fuel
      return .ofKind .alt (first :: rest)

/-- Read the terms that follow a comma. -/
def commaTerms (last : Position) : Nat → Reader (List Tree)
  | 0 => fail last "Expected factor"
  | fuel + 1 => do
    if ← sees (· == .comma) then
      discard take
      let t ← term last fuel
      let ts ← commaTerms last fuel
      return t :: ts
    else
      return []

/-- Read terms up to the end of the alternative. -/
def adjacentTerms (last : Position) : Nat → Reader (List Tree)
  | 0 => fail last "Expected factor"
  | fuel + 1 => do
    if ← atAltEnd then
      return []
    else
      let t ← term last fuel
      let ts ← adjacentTerms last fuel
      return t :: ts

/-- Read a term: pragmas, a factor, and a sign of repetition or option if there is one. The pragmas are put
below the factor, after what is there. -/
def term (last : Position) : Nat → Reader Tree
  | 0 => fail last "Expected factor"
  | fuel + 1 => do
    let ps ← pragmas
    let t := (← factor last fuel).append ps
    match (← peek).bind suffix? with
    | none => return t
    | some (kind, false) => do
      discard take
      return .ofKind kind [t]
    | some (kind, true) => do
      discard take
      let s ← term last fuel
      return .ofKind kind [t, .ofKind .sep [s]]

/-- Read a factor: a group, an insertion, a reference, a literal or a set. -/
def factor (last : Position) : Nat → Reader Tree
  | 0 => fail last "Expected factor"
  | fuel + 1 => do
    match ← peek with
    | some .leftParen => do
      discard take
      let t ← alts last fuel
      expect last .rightParen "')' after grouped alternatives"
      return t
    | some .plus => do
      discard take
      let value ← literal last
      return .ofKind (.insertion value)
    | _ => do
      let sign ← mark
      match ← peek with
      | some (.ident name) => do
        discard take
        match sign with
        | none => return .named (.nonterminal none none) name
        | some c => do
          let m ← liftM (Mark.ofSign c)
          return .named (.nonterminal (some m) none) name
      | some (.string _) | some (.hex _) => do
        let m ← terminalMark sign
        let value ← literal last
        return .ofKind (.literal m value)
      | some .leftBracket | some .tilde => do
        let m ← terminalMark sign
        charSet last m
      | other => fail last ("Expected factor, got " ++ Token.describeFound other)

end

/-- Read a rule, with the pragmas that came before it. -/
def rule (last : Position) (ps : List Tree) : Reader Tree := do
  let m ← match ← mark with
    | some c => liftM (Mark.ofSign c)
    | none => pure Mark.element
  match ← take with
  | some (.ident name) => do
    if !(← sees fun t => t == .colon || t == .equals) then
      fail last ("Expected ':' after rule name '" ++ name ++ "'")
    else
      discard take
      let body ← alts last (6 * ((← get).length + 1))
      if !(← sees (· == .period)) then
        fail last ("Expected '.' at end of rule '" ++ name ++ "'")
      else
        discard take
        return .named (.rule m none) name (ps ++ [body])
  | other => fail last ("Expected rule name, got " ++ Token.describeFound other)

/-- A namespace declaration, which belongs to the grammar as a whole wherever it stands between rules. -/
def isDeclaration (t : Tree) : Bool :=
  match t.label.kind with
  | .pragma name _ => "ixmlns:".isPrefixOf name
  | _ => false

/-- Read rules up to the end, with the pragmas in front of each; `ps` are the pragmas that came before. The
declarations among them come first, and pragmas after the last rule come last. -/
def rules (last : Position) : Nat → List Tree → Reader (List Tree)
  | 0, ps => return ps
  | fuel + 1, ps => do
    if ← atEnd then
      return ps
    else
      let ps := ps ++ (← pragmas)
      if ← atEnd then
        return ps
      else
        let r ← rule last (ps.filter (!isDeclaration ·))
        let rest ← rules last fuel []
        return ps.filter isDeclaration ++ r :: rest

/-- Read the prolog; pragmas before it and in it come after it. -/
def prolog (last : Position) (ps : List Tree) : Reader (List Tree) := do
  discard take
  discard take
  match ← take with
  | some (.string v) => do
    let qs ← pragmas
    expect last .period "'.' after version declaration"
    return .ofKind .prolog [.ofKind (.version v)] :: (ps ++ qs)
  | other => fail last ("Expected version string, got " ++ Token.describeFound other)

/-- Whether a prolog begins with the given tokens. -/
def opensProlog (ts : List Token.Placed) : Bool :=
  match ts with
  | a :: b :: _ => a.token == .ident "ixml" && b.token == .ident "version"
  | _ => false

/-- Read a whole grammar: the trees below its root, with at least one rule. -/
def grammar (last : Position) : Reader (List Tree) := do
  let ps ← pragmas
  let (top, ps) ← if opensProlog (← get) then do
      let top ← prolog last ps
      pure (top, [])
    else
      pure ([], ps)
  let rest ← rules last ((← get).length + 1) ps
  if rest.any (·.label.kind.isRule) then
    return top ++ rest
  else
    throw .emptyGrammar

end Reader

namespace Grammar

/-- The place of the last token. -/
def lastPosition (ts : List Token.Placed) : Position :=
  match ts.getLast? with
  | some t => t.position
  | none => .start

/-- Read tokens as a grammar: the trees below the root. -/
def readTokens (ts : List Token.Placed) : Except Error (List Tree) :=
  (·.1) <$> (Reader.grammar (lastPosition ts)).run ts

/-- Read a text as a grammar. -/
def read (text : String) : Except Error Grammar := do
  let ts ← Token.scan text
  let forest ← readTokens ts
  return ofForest forest

end Grammar

end Ixml
