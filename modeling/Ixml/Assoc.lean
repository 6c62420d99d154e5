/-!
# Pairs in order

Text keys with text values, each key at most once, in the order in which the keys came first.
-/

namespace Ixml

/-- Keys with their values. -/
abbrev Assoc := List (String × String)

namespace Assoc

/-- Give a key a value. A key that is there keeps its place. -/
def insert (key value : String) : Assoc → Assoc
  | [] => [(key, value)]
  | (k, v) :: rest => if k = key then (k, value) :: rest else (k, v) :: insert key value rest

def find? (key : String) : Assoc → Option String
  | [] => none
  | (k, v) :: rest => if k = key then some v else find? key rest

def has (key : String) (a : Assoc) : Bool :=
  (find? key a).isSome

@[simp] theorem find?_nil (key : String) : find? key [] = none := rfl

theorem find?_insert_self (key value : String) (a : Assoc) :
    find? key (insert key value a) = some value := by
  induction a with
  | nil => simp [insert, find?]
  | cons p rest ih =>
    obtain ⟨k, v⟩ := p
    by_cases h : k = key <;> simp [insert, find?, h, ih]

theorem find?_insert_of_ne {key other : String} (h : other ≠ key) (value : String) (a : Assoc) :
    find? other (insert key value a) = find? other a := by
  induction a with
  | nil => simp [insert, find?, h.symm]
  | cons p rest ih =>
    obtain ⟨k, v⟩ := p
    by_cases hk : k = key
    · subst hk
      simp [insert, find?, h.symm]
    · by_cases ho : k = other
      · subst ho
        simp [insert, find?, hk]
      · simp [insert, find?, hk, ho, ih]

end Assoc

end Ixml
