/-!
# Ranges of code points

A table of Unicode data is a list of inclusive ranges.
-/

namespace Ixml.Unicode

/-- The code points from the first to the second component, both included. -/
abbrev CodeRange := Nat × Nat

namespace CodeRange

def contains (r : CodeRange) (n : Nat) : Bool :=
  r.1 ≤ n && n ≤ r.2

/-- Whether `n` lies in one of the ranges of a table. -/
def covers (table : List CodeRange) (n : Nat) : Bool :=
  table.any (·.contains n)

theorem covers_eq_true_iff {table : List CodeRange} {n : Nat} :
    covers table n = true ↔ ∃ r ∈ table, r.1 ≤ n ∧ n ≤ r.2 := by
  simp [covers, contains, List.any_eq_true]

end CodeRange

end Ixml.Unicode
