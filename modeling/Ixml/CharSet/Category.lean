import Ixml.CharSet.Basic
import Ixml.Unicode.Category

/-!
# The set of a general category

A category code names the set of all characters of that category or class. The set is found by one
scan over the characters in order, which collects runs of members; the surrogates are no characters,
so that a run may go on across their gap.
-/

namespace Ixml.CharSet

open Unicode (GeneralCategory)

/-- The general categories that `code` stands for: one, those of a major class or those of the cased
letters, and none where `code` is no category code. -/
def categoriesOf (code : String) : List GeneralCategory :=
  GeneralCategory.all.filter (·.inClass code)

/-- Whether `code` names a general category, a major class or the cased letters. -/
def isCategoryCode (code : String) : Bool :=
  !(categoriesOf code).isEmpty

theorem mem_categoriesOf {code : String} {c : GeneralCategory} :
    c ∈ categoriesOf code ↔ c.inClass code = true := by
  simp [categoriesOf, GeneralCategory.mem_all]

/-- The state of a scan: the runs that have ended, and the run that has not. -/
structure Scan where
  ended : Array CharRange := #[]
  run : Option CharRange := none
deriving Repr, Inhabited

namespace Scan

/-- Go on to the next character. -/
def step (p : Char → Bool) (s : Scan) (c : Char) : Scan :=
  if p c then
    match s.run with
    | some (a, _) => { s with run := some (a, c) }
    | none => { s with run := some (c, c) }
  else
    match s.run with
    | some r => ⟨s.ended.push r, none⟩
    | none => s

/-- Go on to the next code point; surrogates are passed over. -/
def stepCode (p : Char → Bool) (s : Scan) (n : Nat) : Scan :=
  if h : n.isValidChar then s.step p (Char.ofNatAux n h) else s

/-- All runs, once the scan is over. -/
def runs (s : Scan) : List CharRange :=
  match s.run with
  | some r => s.ended.toList ++ [r]
  | none => s.ended.toList

end Scan

/-- The maximal runs of characters with `p`, in ascending order. -/
def runsOf (p : Char → Bool) : List CharRange :=
  (Nat.fold 0x110000 (fun n _ s => Scan.stepCode p s n) {}).runs

/-- The set that a category code names, for an assignment of categories to characters. -/
def ofCategoryIn (category : Char → GeneralCategory) (code : String) : Option CharSet :=
  let categories := categoriesOf code
  if categories.isEmpty then none
  else some (ofRanges (runsOf fun c => categories.contains (category c)))

/-- The set that a category code names. -/
def ofCategory (code : String) : Option CharSet :=
  ofCategoryIn GeneralCategory.ofChar code

end Ixml.CharSet
