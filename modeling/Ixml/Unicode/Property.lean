import Ixml.Unicode.PropertyRanges

/-!
# Properties of characters

The character classes that identifiers, blanks and readable messages are made of. Below U+0080 the
answers are given without a look at the tables.
-/

namespace Ixml.Unicode

open CodeRange (covers)

/-- The property `Alphabetic`. -/
def isAlphabetic (c : Char) : Bool :=
  if c.toNat < 0x80 then c.isAlpha else covers Ranges.alphabetic c.toNat

/-- A character of one of the number categories. -/
def isNumeric (c : Char) : Bool :=
  if c.toNat < 0x80 then c.isDigit else covers Ranges.numeric c.toNat

def isAlphanumeric (c : Char) : Bool :=
  isAlphabetic c || isNumeric c

/-- The code points with the property `White_Space`. -/
def whiteSpace : List CodeRange :=
  [(0x9, 0xd), (0x20, 0x20), (0x85, 0x85), (0xa0, 0xa0), (0x1680, 0x1680), (0x2000, 0x200a),
    (0x2028, 0x2029), (0x202f, 0x202f), (0x205f, 0x205f), (0x3000, 0x3000)]

/-- The property `White_Space`. -/
def isWhiteSpace (c : Char) : Bool :=
  covers whiteSpace c.toNat

/-- A control character, of category `Cc`. -/
def isControl (c : Char) : Bool :=
  c.toNat < 0x20 || (0x7f ≤ c.toNat && c.toNat < 0xa0)

/-- The two halfwidth voicing marks of Katakana. -/
def isVoicingMark (n : Nat) : Bool :=
  n == 0xff9e || n == 0xff9f

/-- Whether a code point combines with what stands before it. The halfwidth voicing marks extend a
cluster too, but they fill a cell of their own. -/
def isCombining (n : Nat) : Bool :=
  covers Ranges.graphemeExtend n && !isVoicingMark n

/-- A character that a message can show by itself: it has a form of its own, leaves a trace where it
stands and does not combine with what stands before it. -/
def isShowable (c : Char) : Bool :=
  if c.toNat < 0x80 then 0x20 ≤ c.toNat && c.toNat < 0x7f
  else covers Ranges.graphic c.toNat && !covers Ranges.defaultIgnorable c.toNat &&
    !isCombining c.toNat

end Ixml.Unicode
