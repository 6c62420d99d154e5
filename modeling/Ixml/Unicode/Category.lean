import Ixml.Unicode.LetterRanges
import Ixml.Unicode.SignRanges

/-!
# General categories

Every character has one of the thirty general categories of Unicode. `GeneralCategory.ofChar` looks
it up in a table with one entry for each code point, filled once from the range lists.
-/

namespace Ixml.Unicode

/-- The general categories, by their two-letter codes. -/
inductive GeneralCategory
  | Lu | Ll | Lt | Lm | Lo
  | Mn | Mc | Me
  | Nd | Nl | No
  | Pc | Pd | Ps | Pe | Pi | Pf | Po
  | Sm | Sc | Sk | So
  | Zs | Zl | Zp
  | Cc | Cf | Cs | Co | Cn
deriving DecidableEq, Repr, Inhabited

namespace GeneralCategory

def all : List GeneralCategory :=
  [Lu, Ll, Lt, Lm, Lo, Mn, Mc, Me, Nd, Nl, No, Pc, Pd, Ps, Pe, Pi, Pf, Po,
    Sm, Sc, Sk, So, Zs, Zl, Zp, Cc, Cf, Cs, Co, Cn]

theorem mem_all (c : GeneralCategory) : c ∈ all := by
  cases c <;> decide

def code : GeneralCategory → String
  | Lu => "Lu" | Ll => "Ll" | Lt => "Lt" | Lm => "Lm" | Lo => "Lo"
  | Mn => "Mn" | Mc => "Mc" | Me => "Me"
  | Nd => "Nd" | Nl => "Nl" | No => "No"
  | Pc => "Pc" | Pd => "Pd" | Ps => "Ps" | Pe => "Pe" | Pi => "Pi" | Pf => "Pf" | Po => "Po"
  | Sm => "Sm" | Sc => "Sc" | Sk => "Sk" | So => "So"
  | Zs => "Zs" | Zl => "Zl" | Zp => "Zp"
  | Cc => "Cc" | Cf => "Cf" | Cs => "Cs" | Co => "Co" | Cn => "Cn"

/-- The code of the major class that a category belongs to. -/
def major : GeneralCategory → String
  | Lu | Ll | Lt | Lm | Lo => "L"
  | Mn | Mc | Me => "M"
  | Nd | Nl | No => "N"
  | Pc | Pd | Ps | Pe | Pi | Pf | Po => "P"
  | Sm | Sc | Sk | So => "S"
  | Zs | Zl | Zp => "Z"
  | Cc | Cf | Cs | Co | Cn => "C"

/-- Whether a category is one of the cased letters, the class `LC`. -/
def isCased : GeneralCategory → Bool
  | Lu | Ll | Lt => true
  | _ => false

/-- Whether a category belongs to the class that `code` names: a single category, a major class or
the cased letters. -/
def inClass (c : GeneralCategory) (code : String) : Bool :=
  c.code == code || c.major == code || (code == "LC" && c.isCased)

/-- The code points of a category. Unassigned code points and surrogates are not listed. -/
def ranges : GeneralCategory → List CodeRange
  | Lu => Ranges.uppercaseLetter
  | Ll => Ranges.lowercaseLetter
  | Lt => Ranges.titlecaseLetter
  | Lm => Ranges.modifierLetter
  | Lo => Ranges.otherLetter
  | Mn => Ranges.nonspacingMark
  | Mc => Ranges.spacingMark
  | Me => Ranges.enclosingMark
  | Nd => Ranges.decimalNumber
  | Nl => Ranges.letterNumber
  | No => Ranges.otherNumber
  | Pc => Ranges.connectorPunctuation
  | Pd => Ranges.dashPunctuation
  | Ps => Ranges.openPunctuation
  | Pe => Ranges.closePunctuation
  | Pi => Ranges.initialPunctuation
  | Pf => Ranges.finalPunctuation
  | Po => Ranges.otherPunctuation
  | Sm => Ranges.mathSymbol
  | Sc => Ranges.currencySymbol
  | Sk => Ranges.modifierSymbol
  | So => Ranges.otherSymbol
  | Zs => Ranges.spaceSeparator
  | Zl => Ranges.lineSeparator
  | Zp => Ranges.paragraphSeparator
  | Cc => Ranges.control
  | Cf => Ranges.format
  | Co => Ranges.privateUse
  | Cs | Cn => []

/-- Enter a category for every code point of a range. -/
def fill (table : Array GeneralCategory) (c : GeneralCategory) (r : CodeRange) :
    Array GeneralCategory :=
  Nat.fold (r.2 + 1 - r.1) (fun i _ t => t.setIfInBounds (r.1 + i) c) table

/-- The category of every code point, in order. -/
def table : Array GeneralCategory :=
  all.foldl (fun t c => c.ranges.foldl (fun t r => fill t c r) t) (Array.replicate 0x110000 Cn)

def ofChar (c : Char) : GeneralCategory :=
  table.getD c.toNat Cn

end GeneralCategory

end Ixml.Unicode
