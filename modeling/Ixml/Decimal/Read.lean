import Ixml.Decimal.Basic

/-!
# Reading decimals

A numeral is a sign that may be absent, digits with a point that may stand anywhere among them, and
an exponent that may be absent. `inf`, `infinity` and `nan` are read in either case. Nothing else is a
numeral, so blanks are not allowed.
-/

namespace Ixml.Decimal

namespace Numeral

/-- The number that decimal digits stand for. -/
def ofDigits (cs : List Char) : Nat :=
  cs.foldl (fun n c => 10 * n + (c.toNat - '0'.toNat)) 0

/-- Digits, at least one, that may follow a sign. -/
def signed? (cs : List Char) : Option Int :=
  let (negative, digits) := match cs with
    | '-' :: rest => (true, rest)
    | '+' :: rest => (false, rest)
    | cs => (false, cs)
  if digits ≠ [] ∧ digits.all Char.isDigit then
    let n : Int := ofDigits digits
    some (if negative then -n else n)
  else none

/-- The exponent that `cs` states after the digits: nothing, or the letter `e` and a number. -/
def exponent? : List Char → Option Int
  | [] => some 0
  | c :: rest => if c == 'e' || c == 'E' then signed? rest else none

/-- Read digits with a point and an exponent. -/
def read? (cs : List Char) : Option Numeral :=
  let whole := cs.takeWhile Char.isDigit
  let (places, rest) := match cs.dropWhile Char.isDigit with
    | '.' :: rest => (rest.takeWhile Char.isDigit, rest.dropWhile Char.isDigit)
    | rest => ([], rest)
  if whole = [] ∧ places = [] then none
  else (exponent? rest).map fun e => ⟨ofDigits (whole ++ places), e - places.length⟩

/-- The double nearest to the number. A number with more than four hundred digits before the point is
beyond all doubles, and one with more than four hundred zeros after it is too small to differ from
zero. -/
def toFloat (n : Numeral) : Float :=
  let size : Int := (Nat.toDigits 10 n.digits).length + n.exponent
  if n.digits = 0 ∨ size < -400 then 0.0
  else if 400 < size then 1.0 / 0.0
  else if n.exponent < 0 then Float.ofScientific n.digits true n.exponent.natAbs
  else Float.ofScientific n.digits false n.exponent.natAbs

end Numeral

/-- Read an unsigned number. -/
def unsigned? (cs : List Char) : Option Float :=
  let word := String.ofList (cs.map Char.toLower)
  if word == "inf" || word == "infinity" then some (1.0 / 0.0)
  else if word == "nan" then some (0.0 / 0.0)
  else (Numeral.read? cs).map Numeral.toFloat

def read? (s : String) : Option Float :=
  match s.toList with
  | '-' :: rest => (unsigned? rest).map (-·)
  | '+' :: rest => unsigned? rest
  | cs => unsigned? cs

end Ixml.Decimal
