import Ixml.Text.Hex
import Ixml.Unicode.Property

/-!
# Sets of characters

A `CharSet` lists inclusive ranges in ascending order, such that no two of them touch. Every operation
restores that form by `CharSet.normalize`, and membership is decided by binary search.
-/

namespace Ixml

open Unicode (isControl isWhiteSpace)

/-- The characters from the first to the second component, both included. -/
abbrev CharRange := Char × Char

structure CharSet where
  ranges : Array CharRange := #[]
deriving DecidableEq, Repr, Inhabited

namespace CharSet

/-- Join ranges that come in ascending order of their starts: `run` grows for as long as the next range
overlaps it or begins right after it. -/
def coalesce (run : CharRange) : List CharRange → List CharRange
  | [] => [run]
  | r :: rs =>
    if r.1.toNat ≤ run.2.toNat + 1 then coalesce (run.1, if run.2 < r.2 then r.2 else run.2) rs
    else run :: coalesce r rs

/-- Sort ranges by their starts and join those that overlap or touch. -/
def normalize (rs : List CharRange) : List CharRange :=
  match rs.mergeSort (fun a b => a.1 ≤ b.1) with
  | [] => []
  | r :: rs => coalesce r rs

def ofRanges (rs : List CharRange) : CharSet :=
  ⟨(normalize rs).toArray⟩

def empty : CharSet := {}

def singleton (c : Char) : CharSet :=
  ⟨#[(c, c)]⟩

/-- The set of a range, empty if the range is reversed. -/
def range (a b : Char) : CharSet :=
  if a ≤ b then ⟨#[(a, b)]⟩ else empty

def isEmpty (s : CharSet) : Bool :=
  s.ranges.isEmpty

/-- Add the characters of a range; a reversed range has none. -/
def insertRange (s : CharSet) (a b : Char) : CharSet :=
  if a ≤ b then ofRanges (s.ranges.toList ++ [(a, b)]) else s

def insert (s : CharSet) (c : Char) : CharSet :=
  s.insertRange c c

def union (s t : CharSet) : CharSet :=
  ofRanges (s.ranges.toList ++ t.ranges.toList)

/-- Look for `c` in the ranges with index from `lo` to below `hi`. -/
def search (rs : Array CharRange) (c : Char) (lo hi : Nat) : Bool :=
  if lo < hi then
    let mid := (lo + hi) / 2
    match rs[mid]? with
    | none => false
    | some r =>
      if r.2 < c then search rs c (mid + 1) hi
      else if c < r.1 then search rs c lo mid
      else true
  else false
termination_by hi - lo

def contains (s : CharSet) (c : Char) : Bool :=
  search s.ranges c 0 s.ranges.size

/-- One character as a member of a set in grammar text: quoted, or by its code point where it would
not be seen. -/
def memberText (c : Char) : String :=
  if c == '\'' then "\"'\""
  else if isControl c || isWhiteSpace c then "#" ++ Text.Hex.lower c.toNat
  else "'" ++ String.singleton c ++ "'"

/-- A range as a member of a set in grammar text. -/
def rangeText (r : CharRange) : String :=
  if r.1 == r.2 then memberText r.1 else memberText r.1 ++ "-" ++ memberText r.2

/-- The ranges as the members of a set in grammar text. -/
def text (s : CharSet) : String :=
  "; ".intercalate (s.ranges.toList.map rangeText)

@[simp] theorem ranges_singleton (c : Char) : (singleton c).ranges = #[(c, c)] := rfl

theorem toList_ranges_ofRanges (rs : List CharRange) : (ofRanges rs).ranges.toList = normalize rs := rfl

end CharSet

end Ixml
