import Ixml.Proofs.CharSet.Construction
import Ixml.Proofs.CharSet.Runs

/-!
# Equal sets of characters

Ranges are joined by their code points, so that a set lists the same ranges as another if both have the same
characters, but for one case: the last character before the surrogates and the first after them are joined only where
one range is put in that goes over the surrogates (`Recipe.Spans`, `Recipe.set_eq_iff`).
-/

namespace Ixml.CharSet

open Unicode (GeneralCategory)

variable {S T : CharSet} {a b c : Char} {n : Nat}

/-- A range of the set goes over a code point. -/
def IsFilled (S : CharSet) (n : Nat) : Prop :=
  Fills S.ranges.toList n

theorem isFilled_ofRanges {rs : List CharRange} (hrs : ∀ r ∈ rs, r.1 ≤ r.2) :
    (ofRanges rs).IsFilled n ↔ Fills rs n :=
  (separated_normalize hrs).2 n

theorem not_isFilled_empty : ¬empty.IsFilled n :=
  fills_nil

theorem isFilled_of_ranges_eq (h : S.ranges = #[(a, b)]) : S.IsFilled n ↔ a.toNat ≤ n ∧ n ≤ b.toNat := by
  rw [IsFilled, h]
  simp

theorem isFilled_range : (range a b).IsFilled n ↔ a.toNat ≤ n ∧ n ≤ b.toNat := by
  unfold range
  split
  · exact isFilled_of_ranges_eq rfl
  · next hab =>
    rw [le_iff_toNat] at hab
    refine iff_of_false not_isFilled_empty ?_
    omega

theorem isFilled_insertRange (hS : S.IsOrdered) :
    (S.insertRange a b).IsFilled n ↔ S.IsFilled n ∨ (a.toNat ≤ n ∧ n ≤ b.toNat) := by
  unfold insertRange
  split
  · next hab =>
    rw [isFilled_ofRanges (nonempty_insertRange hS hab), fills_append, fills_cons, or_iff_left fills_nil]
    exact Iff.rfl
  · next hab =>
    rw [le_iff_toNat] at hab
    rw [or_iff_left]
    omega

theorem isFilled_union (hS : S.IsOrdered) (hT : T.IsOrdered) :
    (S.union T).IsFilled n ↔ S.IsFilled n ∨ T.IsFilled n := by
  rw [union, isFilled_ofRanges (nonempty_union hS hT), fills_append]
  exact Iff.rfl

theorem contains_iff_isFilled (hS : S.IsOrdered) : S.contains c = true ↔ S.IsFilled c.toNat :=
  contains_iff hS

theorem IsSeparated.eq_of_isFilled (hS : S.IsSeparated) (hT : T.IsSeparated) (h : ∀ n, S.IsFilled n ↔ T.IsFilled n) :
    S = T := by
  obtain ⟨rs⟩ := S
  obtain ⟨ss⟩ := T
  have hranges : rs.toList = ss.toList := Separated.eq_of_fills hS hT h
  rw [Array.toList_inj.mp hranges]

/-! ### The surrogates -/

/-- A code point that is no character is a surrogate or comes after all characters. -/
theorem surrogate_of_not_isValidChar (hn : ¬n.isValidChar) : (0xD7FF < n ∧ n < 0xE000) ∨ 0x10FFFF < n := by
  unfold Nat.isValidChar at hn
  omega

theorem toNat_le (c : Char) : c.toNat ≤ 0x10FFFF := by
  rcases c.valid with h | ⟨-, h⟩
  · exact Nat.le_trans (Nat.le_of_lt h) (by omega)
  · exact Nat.le_of_lt_succ h

theorem toNat_lt_or_lt (c : Char) : c.toNat ≤ 0xD7FF ∨ 0xE000 ≤ c.toNat := by
  rcases c.valid with h | ⟨h, -⟩
  · exact .inl (Nat.le_of_lt_succ h)
  · exact .inr h

/-- A range goes over a surrogate if it has the characters on both sides. -/
theorem surrogate_mem_iff (hn : 0xD7FF < n ∧ n < 0xE000) :
    a.toNat ≤ n ∧ n ≤ b.toNat ↔ a ≤ '\uD7FF' ∧ '\uE000' ≤ b := by
  have ha := toNat_lt_or_lt a
  have hb := toNat_lt_or_lt b
  have h₁ : '\uD7FF'.toNat = 0xD7FF := rfl
  have h₂ : '\uE000'.toNat = 0xE000 := rfl
  rw [le_iff_toNat, le_iff_toNat]
  omega

theorem not_surrogate_mem (hn : 0xD7FF < n ∧ n < 0xE000) : ¬(c.toNat ≤ n ∧ n ≤ c.toNat) := by
  have := toNat_lt_or_lt c
  omega

theorem eq_or_eq_of_le (h₁ : '\uD7FF' ≤ c) (h₂ : c ≤ '\uE000') : c = '\uD7FF' ∨ c = '\uE000' := by
  have hfirst : '\uD7FF'.toNat = 0xD7FF := rfl
  have hlast : '\uE000'.toNat = 0xE000 := rfl
  rw [← Char.toNat_inj, ← Char.toNat_inj]
  rw [le_iff_toNat] at h₁ h₂
  rcases toNat_lt_or_lt c with hc | hc
  · exact .inl (by omega)
  · exact .inr (by omega)

theorem surrogates_le : '\uD7FF' ≤ '\uE000' := by decide

/-- A set of runs goes over the surrogates if it has the characters on both sides. -/
theorem ListsRuns.isFilled_surrogate_iff {member : Char → Prop} (h : S.ListsRuns member)
    (hn : 0xD7FF < n ∧ n < 0xE000) : S.IsFilled n ↔ member '\uD7FF' ∧ member '\uE000' := by
  have hcov (c : Char) : member c ↔ Covers S.ranges.toList c := by
    rw [← h.contains_iff, CharSet.contains_iff h.separated.isOrdered]
  constructor
  · rintro ⟨r, hr, hrun⟩
    obtain ⟨hfirst, hlast⟩ := (surrogate_mem_iff hn).mp hrun
    exact ⟨(hcov _).mpr ⟨r, hr, hfirst, Nat.le_trans surrogates_le hlast⟩,
      (hcov _).mpr ⟨r, hr, Nat.le_trans hfirst surrogates_le, hlast⟩⟩
  · rintro ⟨hfirst, hlast⟩
    have hall (c : Char) (h₁ : '\uD7FF' ≤ c) (h₂ : c ≤ '\uE000') : member c := by
      rcases eq_or_eq_of_le h₁ h₂ with rfl | rfl
      · exact hfirst
      · exact hlast
    obtain ⟨r, hr, hrun⟩ := h.joined _ _ surrogates_le hall
    exact ⟨r, Array.mem_toList_iff.mpr hr, (surrogate_mem_iff hn).mpr hrun⟩

/-! ### Construction -/

theorem listsRuns_category (code : String) :
    (Recipe.category code).set.ListsRuns fun c => (GeneralCategory.ofChar c).inClass code = true := by
  obtain ⟨hsep, hcont⟩ := category_spec code
  by_cases hcode : isCategoryCode code = true
  · obtain ⟨S, hS, hruns⟩ := listsRuns_ofCategoryIn GeneralCategory.ofChar hcode
    rw [Recipe.set, ofCategory, hS]
    exact hruns
  · have hnone : ofCategory code = none := ofCategoryIn_eq_none _ hcode
    refine ⟨hsep, hcont, fun a b hab hall => ?_⟩
    have ha := (hcont a).mpr (hall a (Nat.le_refl _) hab)
    rw [Recipe.set, hnone, Option.getD_none, contains_empty] at ha
    cases ha

namespace Recipe

/-- Something that is put in goes over the surrogates: a range from before to after them, or a category of the
characters on both sides. -/
def Spans : Recipe → Prop
  | empty => False
  | singleton _ => False
  | range a b => a ≤ '\uD7FF' ∧ '\uE000' ≤ b
  | insert r _ => r.Spans
  | insertRange r a b => r.Spans ∨ a ≤ '\uD7FF' ∧ '\uE000' ≤ b
  | union r s => r.Spans ∨ s.Spans
  | category code => (GeneralCategory.ofChar '\uD7FF').inClass code = true ∧
      (GeneralCategory.ofChar '\uE000').inClass code = true

theorem isFilled_surrogate_iff (r : Recipe) (hn : 0xD7FF < n ∧ n < 0xE000) : r.set.IsFilled n ↔ r.Spans := by
  induction r with
  | empty => exact iff_of_false not_isFilled_empty id
  | singleton c => exact (isFilled_of_ranges_eq (ranges_singleton c)).trans (iff_of_false (not_surrogate_mem hn) id)
  | range a b => exact isFilled_range.trans (surrogate_mem_iff hn)
  | insert r c ih =>
    rw [set, CharSet.insert, isFilled_insertRange r.isSeparated.isOrdered, or_iff_left (not_surrogate_mem hn), ih, Spans]
  | insertRange r a b ih =>
    rw [set, isFilled_insertRange r.isSeparated.isOrdered, surrogate_mem_iff hn, ih, Spans]
  | union r s ihr ihs =>
    rw [set, isFilled_union r.isSeparated.isOrdered s.isSeparated.isOrdered, ihr, ihs, Spans]
  | category code => exact (listsRuns_category code).isFilled_surrogate_iff hn

theorem not_isFilled (r : Recipe) (hn : 0x10FFFF < n) : ¬r.set.IsFilled n := by
  rintro ⟨s, -, -, hns⟩
  have := toNat_le s.2
  omega

/-- Two sets are the same value exactly if they have the same characters and go over the surrogates both or neither. -/
theorem set_eq_iff (r s : Recipe) :
    r.set = s.set ↔ (∀ c, r.set.contains c = s.set.contains c) ∧ (r.Spans ↔ s.Spans) := by
  constructor
  · intro h
    have hn : 0xD7FF < 0xD800 ∧ 0xD800 < 0xE000 := by omega
    rw [← r.isFilled_surrogate_iff hn, ← s.isFilled_surrogate_iff hn, h]
    exact ⟨fun _ => rfl, Iff.rfl⟩
  · rintro ⟨hcont, hspans⟩
    have hfill (n : Nat) : r.set.IsFilled n ↔ s.set.IsFilled n := by
      by_cases hn : n.isValidChar
      · have hc := hcont (Char.ofNatAux n hn)
        rw [Bool.eq_iff_iff, contains_iff_isFilled r.isSeparated.isOrdered,
          contains_iff_isFilled s.isSeparated.isOrdered] at hc
        exact hc
      · rcases surrogate_of_not_isValidChar hn with hn | hn
        · rw [r.isFilled_surrogate_iff hn, s.isFilled_surrogate_iff hn, hspans]
        · exact iff_of_false (r.not_isFilled hn) (s.not_isFilled hn)
    exact r.isSeparated.eq_of_isFilled s.isSeparated hfill

/-- The two characters around the surrogates make one range or two, by the way they are put in. -/
theorem not_canonical : ¬∀ r s : Recipe, r.set = s.set ↔ ∀ c, r.set.contains c = s.set.contains c := by
  intro h
  have hcont (c : Char) : (range '\uD7FF' '\uE000').set.contains c =
      (insert (singleton '\uD7FF') '\uE000').set.contains c := by
    rw [Bool.eq_iff_iff, contains_set, contains_set]
    simp only [Puts]
    constructor
    · rintro ⟨-, h₁, h₂⟩
      exact eq_or_eq_of_le h₁ h₂
    · rintro (rfl | rfl)
      · exact ⟨surrogates_le, Nat.le_refl _, surrogates_le⟩
      · exact ⟨surrogates_le, surrogates_le, Nat.le_refl _⟩
  have hn : 0xD7FF < 0xD800 ∧ 0xD800 < 0xE000 := by omega
  have hspans : (range '\uD7FF' '\uE000').Spans ↔ (insert (singleton '\uD7FF') '\uE000').Spans := by
    rw [← isFilled_surrogate_iff _ hn, ← isFilled_surrogate_iff _ hn, (h _ _).mpr hcont]
  exact hspans.mp ⟨Nat.le_refl _, Nat.le_refl _⟩

end Recipe

end Ixml.CharSet
