/-!
# Hexadecimal numerals

Code points are written in hexadecimal digits, in lower case in grammar text and in upper case in
escaped names.
-/

namespace Ixml.Text.Hex

/-- The shortest numeral of `n`, in lower case. -/
def lower (n : Nat) : String :=
  String.ofList (Nat.toDigits 16 n)

/-- The numeral of `n` in upper case. -/
def upper (n : Nat) : String :=
  String.ofList ((Nat.toDigits 16 n).map Char.toUpper)

/-- The numeral of `n` in upper case, with at least two digits. -/
def upperPair (n : Nat) : String :=
  if n < 16 then "0" ++ upper n else upper n

/-- A hexadecimal digit of either case. -/
def isDigit (c : Char) : Bool :=
  c.isDigit || ('a' ≤ c && c ≤ 'f') || ('A' ≤ c && c ≤ 'F')

/-- What a digit stands for. -/
def digitValue (c : Char) : Nat :=
  if c.isDigit then c.toNat - '0'.toNat
  else if 'a' ≤ c then c.toNat - 'a'.toNat + 10
  else c.toNat - 'A'.toNat + 10

/-- The number that digits stand for. -/
def value (cs : List Char) : Nat :=
  cs.foldl (fun n c => 16 * n + digitValue c) 0

/-- Read a numeral: digits, at least one, that may follow one plus sign. -/
def read? (cs : List Char) : Option Nat :=
  let digits := match cs with
    | '+' :: rest => rest
    | cs => cs
  if digits ≠ [] ∧ digits.all isDigit then some (value digits) else none

end Ixml.Text.Hex
