import Ixml.Proofs.CharSet.Members

/-!
# Sets of characters by their construction

However a set is made by the operations (`CharSet.Recipe`), its ranges are in order with a gap between them, and it
contains just what has been put in (`Recipe.isSeparated_set`).
-/

namespace Ixml.CharSet

open Unicode (GeneralCategory)

/-- A way to make a set by the operations on sets. -/
inductive Recipe
  | empty
  | singleton (c : Char)
  | range (a b : Char)
  | insert (r : Recipe) (c : Char)
  | insertRange (r : Recipe) (a b : Char)
  | union (r s : Recipe)
  /-- The characters of a category code; none if there is no such code. -/
  | category (code : String)

namespace Recipe

def set : Recipe → CharSet
  | empty => .empty
  | singleton c => .singleton c
  | range a b => .range a b
  | insert r c => r.set.insert c
  | insertRange r a b => r.set.insertRange a b
  | union r s => r.set.union s.set
  | category code => (ofCategory code).getD .empty

/-- A character is covered by something that is put in: a range that is not reversed, a character or a category. -/
def Puts (c : Char) : Recipe → Prop
  | empty => False
  | singleton d => c = d
  | range a b => a ≤ b ∧ a ≤ c ∧ c ≤ b
  | insert r d => r.Puts c ∨ c = d
  | insertRange r a b => r.Puts c ∨ a ≤ b ∧ a ≤ c ∧ c ≤ b
  | union r s => r.Puts c ∨ s.Puts c
  | category code => (GeneralCategory.ofChar c).inClass code = true

end Recipe

variable {a b c d : Char} {S : CharSet} {r : Recipe}

theorem le_and_covers_iff : a ≤ b ∧ a ≤ c ∧ c ≤ b ↔ a ≤ c ∧ c ≤ b := by
  simp only [le_iff_toNat]
  omega

theorem isSeparated_empty : empty.IsSeparated :=
  ⟨by simp [empty], by simp [empty]⟩

theorem isSeparated_of_ranges_eq (h : S.ranges = #[(a, b)]) (hab : a ≤ b) : S.IsSeparated := by
  rw [IsSeparated, h]
  exact ⟨by simpa using hab, by simp⟩

theorem contains_of_ranges_eq (h : S.ranges = #[(a, b)]) (hab : a ≤ b) :
    S.contains c = true ↔ a ≤ c ∧ c ≤ b := by
  rw [contains_iff (isSeparated_of_ranges_eq h hab).isOrdered, h]
  simp

theorem contains_singleton : (singleton d).contains c = true ↔ c = d := by
  rw [contains_of_ranges_eq (ranges_singleton d) (Nat.le_refl _), ← Char.toNat_inj]
  simp only [le_iff_toNat]
  omega

theorem isSeparated_range (a b : Char) : (range a b).IsSeparated := by
  unfold range
  split
  · next hab => exact isSeparated_of_ranges_eq rfl hab
  · exact isSeparated_empty

theorem contains_range : (range a b).contains c = true ↔ a ≤ b ∧ a ≤ c ∧ c ≤ b := by
  unfold range
  split
  · next hab => rw [contains_of_ranges_eq rfl hab, and_iff_right hab]
  · next hab => simp [contains_empty, hab]

theorem category_spec (code : String) : (Recipe.category code).set.IsSeparated ∧
    ∀ c, (Recipe.category code).set.contains c = true ↔ (GeneralCategory.ofChar c).inClass code = true := by
  rw [Recipe.set]
  by_cases hcode : isCategoryCode code = true
  · obtain ⟨S, hS, hsep, hcont⟩ := ofCategoryIn_spec GeneralCategory.ofChar hcode
    rw [ofCategory, hS]
    exact ⟨hsep, hcont⟩
  · have hempty : categoriesOf code = [] := by simpa [isCategoryCode] using hcode
    have hnone : ofCategory code = none := by simp [ofCategory, ofCategoryIn, hempty]
    rw [hnone]
    refine ⟨isSeparated_empty, fun c => ?_⟩
    rw [← mem_categoriesOf, hempty]
    simp [contains_empty]

namespace Recipe

theorem isSeparated (r : Recipe) : r.set.IsSeparated := by
  induction r with
  | empty => exact isSeparated_empty
  | singleton c => exact isSeparated_of_ranges_eq (ranges_singleton c) (Nat.le_refl _)
  | range a b => exact isSeparated_range a b
  | insert r c ih => exact isSeparated_insertRange ih c c
  | insertRange r a b ih => exact isSeparated_insertRange ih a b
  | union r s ihr ihs => exact isSeparated_union ihr ihs
  | category code => exact (category_spec code).1

theorem contains_set (r : Recipe) : r.set.contains c = true ↔ r.Puts c := by
  induction r with
  | empty => simp [set, Puts, contains_empty]
  | singleton d => exact contains_singleton
  | range a b => exact contains_range
  | insert r d ih => rw [set, Puts, (insert_spec r.isSeparated.isOrdered d).2, ih]
  | insertRange r a b ih =>
    rw [set, Puts, (insertRange_spec r.isSeparated.isOrdered a b).2, ih, le_and_covers_iff]
  | union r s ihr ihs =>
    rw [set, Puts, (union_spec r.isSeparated.isOrdered s.isSeparated.isOrdered).2, ihr, ihs]
  | category code => exact (category_spec code).2 c

/-- A set has its ranges in ascending order with a gap between them, and it contains exactly what is put in. -/
theorem isSeparated_set (r : Recipe) :
    r.set.IsSeparated ∧ ∀ c, r.set.contains c = true ↔ r.Puts c :=
  ⟨r.isSeparated, fun _ => r.contains_set⟩

/-- Ranges that meet become one, but those on both sides of the surrogates do not. -/
example : (set (.union (.insertRange (.range 'a' 'c') 'd' 'f') (.insert (.range 'z' 'a') 'e'))).ranges = #[('a', 'f')] ∧
    (set (.insert (.range '\uD7FE' '\uD7FF') '\uE000')).ranges = #[('\uD7FE', '\uD7FF'), ('\uE000', '\uE000')] := by
  constructor <;> cbv

end Recipe

end Ixml.CharSet
