import Ixml.Unicode.Property

/-!
# Characters and names of XML

The productions `Char`, `NameStartChar`, `NameChar` and `Name` of XML 1.0.
-/

namespace Ixml.Xml

open Unicode (CodeRange isControl isWhiteSpace)

/-- The production `NameStartChar`. -/
def nameStartRanges : List CodeRange :=
  [(0x3a, 0x3a), (0x41, 0x5a), (0x5f, 0x5f), (0x61, 0x7a), (0xc0, 0xd6), (0xd8, 0xf6),
    (0xf8, 0x2ff), (0x370, 0x37d), (0x37f, 0x1fff), (0x200c, 0x200d), (0x2070, 0x218f),
    (0x2c00, 0x2fef), (0x3001, 0xd7ff), (0xf900, 0xfdcf), (0xfdf0, 0xfffd), (0x10000, 0xeffff)]

/-- What `NameChar` allows beyond `NameStartChar`. -/
def nameExtraRanges : List CodeRange :=
  [(0x2d, 0x2e), (0x30, 0x39), (0xb7, 0xb7), (0x300, 0x36f), (0x203f, 0x2040)]

/-- The production `Char`. -/
def charRanges : List CodeRange :=
  [(0x9, 0xa), (0xd, 0xd), (0x20, 0xd7ff), (0xe000, 0xfffd), (0x10000, 0x10ffff)]

/-- A character that may begin a name. -/
def isNameStart (c : Char) : Bool :=
  CodeRange.covers nameStartRanges c.toNat

/-- A character that may stand in a name. -/
def isNameChar (c : Char) : Bool :=
  isNameStart c || CodeRange.covers nameExtraRanges c.toNat

/-- A character that may stand in a document. -/
def isChar (c : Char) : Bool :=
  CodeRange.covers charRanges c.toNat

/-- A name: one character that may begin it, and any that may stand in it. -/
def isName (s : String) : Bool :=
  match s.toList with
  | [] => false
  | c :: cs => isNameStart c && cs.all isNameChar

/-- The first character of a text that may not stand in a document. -/
def firstInvalid? (s : String) : Option Char :=
  s.toList.find? (!isChar ·)

/-- A character that a diagnosis can show as itself. -/
def isPrintable (c : Char) : Bool :=
  isChar c && !isControl c && !isWhiteSpace c

end Ixml.Xml
