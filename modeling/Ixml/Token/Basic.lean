import Ixml.Text.Position
import Ixml.Text.Quoted

/-!
# Tokens

The words and signs that a grammar text is made of.
-/

namespace Ixml

inductive Token
  | ident (name : String)
  | string (text : String)
  /-- The digits of a `#hex` character, without the sign. -/
  | hex (digits : String)
  | pragma (name data : String)
  | colon | equals | period | semicolon | pipe | comma
  | plus | doublePlus | star | doubleStar | question
  | atSign | minus | caret | tilde
  | leftParen | rightParen | leftBracket | rightBracket
deriving DecidableEq, Repr, Inhabited

namespace Token

/-- A token and the place where it begins. -/
structure Placed where
  token : Token
  position : Text.Position
deriving DecidableEq, Repr

/-- The name of the kind of token. -/
def label : Token → String
  | ident _ => "Ident"
  | string _ => "String"
  | hex _ => "Hex"
  | pragma .. => "Pragma"
  | colon => "Colon"
  | equals => "Equals"
  | period => "Period"
  | semicolon => "Semicolon"
  | pipe => "Pipe"
  | comma => "Comma"
  | plus => "Plus"
  | doublePlus => "DoublePlus"
  | star => "Star"
  | doubleStar => "DoubleStar"
  | question => "Question"
  | atSign => "At"
  | minus => "Minus"
  | caret => "Caret"
  | tilde => "Tilde"
  | leftParen => "LParen"
  | rightParen => "RParen"
  | leftBracket => "LBracket"
  | rightBracket => "RBracket"

/-- A token in a message: its kind, and its text if it has one. -/
def describe (t : Token) : String :=
  match t with
  | ident s | string s | hex s => t.label ++ "(" ++ Text.Quoted.string s ++ ")"
  | pragma name data =>
    t.label ++ " \x7b name: " ++ Text.Quoted.string name ++ ", data: " ++
      Text.Quoted.string data ++ " \x7d"
  | _ => t.label

/-- What a message says was found, at the end of the text nothing. -/
def describeFound : Option Token → String
  | some t => "Some(" ++ t.describe ++ ")"
  | none => "None"

end Token

end Ixml
