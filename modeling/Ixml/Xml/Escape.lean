/-!
# Escaping

Character data and attribute values are written with references in place of the characters that
mean something else there.
-/

namespace Ixml.Xml

/-- A character of character data. -/
def escapeTextChar : Char → String
  | '&' => "&amp;"
  | '<' => "&lt;"
  | '>' => "&gt;"
  | c => String.singleton c

/-- A character of an attribute value between double quotes. White space other than the blank would
be read back as a blank and is written as a reference. -/
def escapeAttributeChar : Char → String
  | '&' => "&amp;"
  | '<' => "&lt;"
  | '"' => "&quot;"
  | '\t' => "&#9;"
  | '\n' => "&#10;"
  | '\r' => "&#13;"
  | c => String.singleton c

def escapeText (s : String) : String :=
  String.join (s.toList.map escapeTextChar)

/-- An attribute value, to be put between double quotes. -/
def escapeAttribute (s : String) : String :=
  String.join (s.toList.map escapeAttributeChar)

end Ixml.Xml
