import Ixml.Decimal.Basic

/-!
# The shortest decimal of a binary number

A positive double is `m * 2 ^ q`. Among the decimals that round to it those with the fewest digits
are sought, and of these the nearest. `Binary.shortest` tries one digit, two digits and so on: for
each count it tests the two neighbours of the number on the grid of decimals with so many digits, in
exact arithmetic.
-/

namespace Ixml.Decimal

/-- A finite positive binary number `mantissa * 2 ^ exponent`. The numbers next to it lie one unit of
the mantissa away, except that the one below is half as far when `narrowBelow` holds. -/
structure Binary where
  mantissa : Nat
  exponent : Int
  narrowBelow : Bool
deriving DecidableEq, Repr

structure Fraction where
  num : Nat
  den : Nat
deriving DecidableEq, Repr

namespace Fraction

/-- `n * base ^ e`. -/
def scaled (n base : Nat) (e : Int) : Fraction :=
  ⟨n * base.pow e.toNat, base.pow (-e).toNat⟩

def lt (x y : Fraction) : Bool :=
  x.num * y.den < y.num * x.den

def le (x y : Fraction) : Bool :=
  x.num * y.den ≤ y.num * x.den

def dist (x y : Fraction) : Fraction :=
  let a := x.num * y.den
  let b := y.num * x.den
  ⟨if a ≤ b then b - a else a - b, x.den * y.den⟩

end Fraction

namespace Numeral

def value (d : Numeral) : Fraction :=
  .scaled d.digits 10 d.exponent

end Numeral

namespace Binary

def value (b : Binary) : Fraction :=
  .scaled b.mantissa 2 b.exponent

/-- The least value that may round to the number: the middle between it and the one below. -/
def low (b : Binary) : Fraction :=
  .scaled (4 * b.mantissa - if b.narrowBelow then 1 else 2) 2 (b.exponent - 2)

/-- The greatest value that may round to the number. -/
def high (b : Binary) : Fraction :=
  .scaled (4 * b.mantissa + 2) 2 (b.exponent - 2)

/-- Whether a fraction rounds to the number. A middle goes to the even mantissa. -/
def rounds (b : Binary) (x : Fraction) : Bool :=
  if b.mantissa % 2 = 0 then b.low.le x && x.le b.high else b.low.lt x && x.lt b.high

/-- The count of digits before the point, or for a number below one minus the count of zeros after
the point. -/
def magnitude (b : Binary) : Int :=
  let v := b.value
  if v.den ≤ v.num then (Nat.toDigits 10 (v.num / v.den)).length
  else
    match (List.range 400).find? (fun j => v.den ≤ v.num * Nat.pow 10 (j + 1)) with
    | some j => -(j : Int)
    | none => -400

/-- The nearest decimal with `n` digits that rounds to the number. Of two that are equally near it is
the greater. -/
def onGrid (b : Binary) (n : Nat) : Option Numeral :=
  let e := b.magnitude - n
  let v := b.value
  let step := Fraction.scaled 1 10 e
  let below : Numeral := ⟨v.num * step.den / (v.den * step.num), e⟩
  let above : Numeral := ⟨below.digits + 1, e⟩
  match b.rounds below.value, b.rounds above.value with
  | false, false => none
  | true, false => some below
  | false, true => some above
  | true, true =>
    some (if (below.value.dist v).lt (above.value.dist v) then below else above)

/-- The shortest decimal that rounds to the number. Seventeen digits always suffice. -/
def shortest (b : Binary) : Numeral :=
  match (List.range 17).findSome? (fun i => b.onGrid (i + 1)) with
  | some d => d.strip 17
  | none => ⟨0, 0⟩

end Binary

/-- What the bits of a double say. -/
inductive Reading
  | nan
  | infinite
  | zero
  | finite (b : Binary)
deriving DecidableEq, Repr

/-- The bit in front of the fraction field, which is not stored. -/
def hiddenBit : Nat := 0x10000000000000

/-- Read the exponent and fraction fields of a double; the sign is apart. -/
def Reading.ofBits (bits : Nat) : Reading :=
  let field : Nat := bits / hiddenBit % 2048
  let fraction : Nat := bits % hiddenBit
  if field = 2047 then if fraction = 0 then .infinite else .nan
  else if field = 0 then if fraction = 0 then .zero else .finite ⟨fraction, -1074, false⟩
  else .finite ⟨hiddenBit + fraction, (field : Int) - 1075, fraction = 0 && 1 < field⟩

/-- The text of a double: the shortest decimal in positional notation, a minus sign before a negative
number (zero included), and words for what is no number. -/
def text (x : Float) : String :=
  let bits := x.toBits.toNat
  let signed (s : String) := if bits.testBit 63 then "-" ++ s else s
  match Reading.ofBits bits with
  | .nan => "NaN"
  | .infinite => signed "inf"
  | .zero => signed "0"
  | .finite b => signed b.shortest.text

end Ixml.Decimal
