/-!
# Decimal numerals

Digits with a power of ten, and their notation without an exponent.
-/

namespace Ixml.Decimal

/-- The number `digits * 10 ^ exponent`. -/
structure Numeral where
  digits : Nat
  exponent : Int
deriving DecidableEq, Repr

namespace Numeral

/-- Drop zeros at the end of the digits, at most `fuel` of them. -/
def strip : Nat → Numeral → Numeral
  | 0, d => d
  | fuel + 1, d =>
    if d.digits ≠ 0 ∧ d.digits % 10 = 0 then strip fuel ⟨d.digits / 10, d.exponent + 1⟩ else d

def text (d : Numeral) : String :=
  let cs := Nat.toDigits 10 d.digits
  if 0 ≤ d.exponent then
    if d.digits = 0 then "0" else String.ofList (cs ++ List.replicate d.exponent.toNat '0')
  else
    let places := (-d.exponent).toNat
    let cs := List.replicate (places + 1 - cs.length) '0' ++ cs
    String.ofList (cs.take (cs.length - places) ++ '.' :: cs.drop (cs.length - places))

end Numeral

end Ixml.Decimal
