import Ixml.Unicode.Property

/-!
# Blanks around and between words

A blank is a character with the property `White_Space`.
-/

namespace Ixml.Text

open Unicode (isWhiteSpace)

/-- The characters without the blanks in front. -/
def trimLeft (cs : List Char) : List Char :=
  cs.dropWhile isWhiteSpace

/-- The characters without the blanks at either end. -/
def trimChars (cs : List Char) : List Char :=
  (trimLeft (trimLeft cs).reverse).reverse

/-- The text without the blanks at either end. -/
def trim (s : String) : String :=
  String.ofList (trimChars s.toList)

/-- The characters before the first blank, and those after it if there is a blank. -/
def splitBlank (cs : List Char) : List Char × Option (List Char) :=
  match cs.dropWhile (!isWhiteSpace ·) with
  | [] => (cs, none)
  | _ :: rest => (cs.takeWhile (!isWhiteSpace ·), some rest)

/-- The characters before the first occurrence of `c`, and those after it if there is one. -/
def splitAt (c : Char) (cs : List Char) : List Char × Option (List Char) :=
  match cs.dropWhile (· != c) with
  | [] => (cs, none)
  | _ :: rest => (cs.takeWhile (· != c), some rest)

theorem trimLeft_eq_self {cs : List Char} (h : ∀ c, cs.head? = some c → isWhiteSpace c = false) :
    trimLeft cs = cs := by
  cases cs with
  | nil => rfl
  | cons c cs => simp [trimLeft, List.dropWhile, h c rfl]

end Ixml.Text
