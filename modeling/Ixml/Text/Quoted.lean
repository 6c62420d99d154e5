import Ixml.Text.Hex
import Ixml.Unicode.Property

/-!
# Quoted text in messages

A message shows a string or a character between quotes, such that each character of it can be told:
what has no visible form of its own, or would end the quotation, is escaped.
-/

namespace Ixml.Text.Quoted

open Unicode (isShowable)

/-- How a character is written between two `quote` signs. -/
def escape (quote c : Char) : String :=
  if c == '\x00' then "\\0"
  else if c == '\t' then "\\t"
  else if c == '\r' then "\\r"
  else if c == '\n' then "\\n"
  else if c == '\\' then "\\\\"
  else if c == quote then "\\" ++ String.singleton c
  else if isShowable c then String.singleton c
  else "\\u\x7b" ++ Hex.lower c.toNat ++ "\x7d"

def string (s : String) : String :=
  "\"" ++ String.join (s.toList.map (escape '"')) ++ "\""

def char (c : Char) : String :=
  "'" ++ escape '\'' c ++ "'"

end Ixml.Text.Quoted
