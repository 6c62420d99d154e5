import Ixml.Text.Hex

/-!
# Reading JSON

A reader for option texts. Numbers are checked and not kept, for no option is a number. A string has
no text if one of its escapes is half of a surrogate pair and the other half is missing. The members of
an object are kept in order, repeated ones included.
-/

namespace Ixml

/-- A JSON value. -/
inductive Json
  | null
  | bool (b : Bool)
  | number
  | string (text : Option String)
  | array (items : List Json)
  | object (members : List (Option String × Json))
deriving Repr, Inhabited

namespace Json

open Text (Hex.isDigit Hex.value)

/-- Pass over white space. -/
def skip (cs : List Char) : List Char :=
  cs.dropWhile fun c => c == ' ' || c == '\t' || c == '\n' || c == '\r'

/-- What follows the digits in front, of which there must be at least one. -/
def digits? (cs : List Char) : Option (List Char) :=
  match cs with
  | c :: _ => if c.isDigit then some (cs.dropWhile Char.isDigit) else none
  | [] => none

/-- The integer part of a number, without a zero in front of other digits. -/
def whole? : List Char → Option (List Char)
  | '0' :: rest =>
    match rest with
    | c :: _ => if c.isDigit then none else some rest
    | [] => some rest
  | cs => digits? cs

/-- The places after the point, if there is a point. -/
def places? : List Char → Option (List Char)
  | '.' :: rest => digits? rest
  | cs => some cs

/-- The exponent, if there is one. -/
def exponent? : List Char → Option (List Char)
  | c :: rest =>
    if c == 'e' || c == 'E' then
      match rest with
      | '+' :: rest => digits? rest
      | '-' :: rest => digits? rest
      | rest => digits? rest
    else some (c :: rest)
  | [] => some []

/-- What follows a number. -/
def number? (cs : List Char) : Option (List Char) :=
  let cs := match cs with
    | '-' :: rest => rest
    | cs => cs
  (whole? cs).bind places? |>.bind exponent?

/-- A unit of a string: a character, or an escaped code that may be half of a surrogate pair. -/
inductive Piece
  | char (c : Char)
  | code (n : Nat)
deriving Repr

/-- What an escape letter stands for. -/
def escaped? : Char → Option Char
  | '"' => some '"'
  | '\\' => some '\\'
  | '/' => some '/'
  | 'b' => some '\x08'
  | 'f' => some '\x0c'
  | 'n' => some '\n'
  | 'r' => some '\r'
  | 't' => some '\t'
  | _ => none

/-- The units of a string up to its closing quote, and what follows. -/
def pieces? : List Char → Option (List Piece × List Char)
  | [] => none
  | '"' :: rest => some ([], rest)
  | '\\' :: 'u' :: a :: b :: c :: d :: rest =>
    if [a, b, c, d].all Hex.isDigit then
      (pieces? rest).map fun (ps, rest) => (.code (Hex.value [a, b, c, d]) :: ps, rest)
    else none
  | '\\' :: c :: rest =>
    (escaped? c).bind fun c => (pieces? rest).map fun (ps, rest) => (.char c :: ps, rest)
  | c :: rest =>
    if c.toNat < 0x20 || c == '\\' then none
    else (pieces? rest).map fun (ps, rest) => (.char c :: ps, rest)

/-- The text of a string, unless half of a surrogate pair stands alone. -/
def textOf? : List Piece → Option (List Char)
  | [] => some []
  | .char c :: ps => (textOf? ps).map (c :: ·)
  | .code n :: ps =>
    if 0xd800 ≤ n ∧ n < 0xdc00 then
      match ps with
      | .code m :: ps =>
        if 0xdc00 ≤ m ∧ m < 0xe000 then
          (textOf? ps).map (Char.ofNat (0x10000 + (n - 0xd800) * 0x400 + (m - 0xdc00)) :: ·)
        else none
      | _ => none
    else if 0xdc00 ≤ n ∧ n < 0xe000 then none
    else (textOf? ps).map (Char.ofNat n :: ·)

/-- A string after its opening quote. -/
def string? (cs : List Char) : Option (Option String × List Char) :=
  (pieces? cs).map fun (ps, rest) => ((textOf? ps).map String.ofList, rest)

/-- What follows a word, if the text begins with it. -/
def word? (w : String) (cs : List Char) : Option (List Char) :=
  if w.toList.isPrefixOf cs then some (cs.drop w.length) else none

mutual

/-- Read a value. Each reader takes a bound on the depth of its calls, for which the length of the text
and one more is always enough. -/
def value? : Nat → List Char → Option (Json × List Char)
  | 0, _ => none
  | fuel + 1, cs =>
    match skip cs with
    | '"' :: rest => (string? rest).map fun (s, rest) => (.string s, rest)
    | '[' :: rest =>
      match skip rest with
      | ']' :: rest => some (.array [], rest)
      | rest => (items? fuel rest).map fun (xs, rest) => (.array xs, rest)
    | '\x7b' :: rest =>
      match skip rest with
      | '\x7d' :: rest => some (.object [], rest)
      | rest => (members? fuel rest).map fun (ms, rest) => (.object ms, rest)
    | 't' :: rest => (word? "rue" rest).map fun rest => (.bool true, rest)
    | 'f' :: rest => (word? "alse" rest).map fun rest => (.bool false, rest)
    | 'n' :: rest => (word? "ull" rest).map fun rest => (.null, rest)
    | cs => (number? cs).map fun rest => (.number, rest)

/-- Read the items of an array up to its closing bracket; there is at least one. -/
def items? : Nat → List Char → Option (List Json × List Char)
  | 0, _ => none
  | fuel + 1, cs => do
    let (x, rest) ← value? fuel cs
    match skip rest with
    | ',' :: rest => do
      let (xs, rest) ← items? fuel rest
      return (x :: xs, rest)
    | ']' :: rest => return ([x], rest)
    | _ => none

/-- Read the members of an object up to its closing brace; there is at least one. -/
def members? : Nat → List Char → Option (List (Option String × Json) × List Char)
  | 0, _ => none
  | fuel + 1, cs =>
    match skip cs with
    | '"' :: rest => do
      let (key, rest) ← string? rest
      match skip rest with
      | ':' :: rest => do
        let (x, rest) ← value? fuel rest
        match skip rest with
        | ',' :: rest => do
          let (ms, rest) ← members? fuel rest
          return ((key, x) :: ms, rest)
        | '\x7d' :: rest => return ([(key, x)], rest)
        | _ => none
      | _ => none
    | _ => none

end

/-- Read a text that holds one value and white space. -/
def read? (s : String) : Option Json :=
  let cs := s.toList
  match value? (2 * cs.length + 2) cs with
  | some (x, rest) => if skip rest = [] then some x else none
  | none => none

end Json

end Ixml
