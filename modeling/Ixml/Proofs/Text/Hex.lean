import Ixml.Text.Hex
import Ixml.Proofs.Xml.Text

/-!
# Reading back numerals

`lower n` is a numeral of `n`: it consists of digits, and what is read from it is `n` (`read?_lower`).
-/

namespace Ixml.Text.Hex

variable {n d : Nat} {c : Char} {cs ds : List Char}

theorem isDigit_digitChar (h : d < 16) : isDigit d.digitChar = true ∧ digitValue d.digitChar = d := by
  revert d
  decide

theorem value_append_singleton (cs : List Char) (c : Char) : value (cs ++ [c]) = 16 * value cs + digitValue c := by
  simp [value, List.foldl_append]

theorem toDigits_spec (n : Nat) : (∀ c ∈ Nat.toDigits 16 n, isDigit c = true) ∧ value (Nat.toDigits 16 n) = n := by
  induction n using Nat.strongRecOn with
  | ind n ih =>
    by_cases hn : n < 16
    · obtain ⟨hd, hv⟩ := isDigit_digitChar hn
      rw [Nat.toDigits_of_lt_base hn]
      exact ⟨by simpa using hd, by simpa [value] using hv⟩
    · obtain ⟨hds, hvs⟩ := ih (n / 16) (by omega)
      obtain ⟨hd, hv⟩ := isDigit_digitChar (Nat.mod_lt n (by decide : 0 < 16))
      rw [Nat.toDigits_of_base_le (by decide) (by omega)]
      refine ⟨fun c hc => ?_, ?_⟩
      · rcases List.mem_append.mp hc with hc | hc
        · exact hds c hc
        · rwa [List.mem_singleton.mp hc]
      · rw [value_append_singleton, hvs, hv]
        omega

theorem toList_lower (n : Nat) : (lower n).toList = Nat.toDigits 16 n :=
  String.toList_ofList

theorem isDigit_of_mem_lower (h : c ∈ (lower n).toList) : isDigit c = true :=
  (toDigits_spec n).1 c (toList_lower n ▸ h)

theorem lower_ne_empty : (lower n).toList ≠ [] := by
  rw [toList_lower]
  exact Nat.toDigits_ne_nil

theorem isAlphanum_of_isDigit (h : isDigit c = true) : c.isAlphanum = true := by
  simp only [isDigit, Bool.or_eq_true, Bool.and_eq_true, decide_eq_true_eq] at h
  rw [Xml.isAlphanum_iff_toNat]
  rcases h with (h | ⟨ha, hf⟩) | ⟨ha, hf⟩
  · exact Xml.isAlphanum_iff_toNat.mp (by rw [Char.isAlphanum, h, Bool.or_true])
  · have hbounds : 97 ≤ c.toNat ∧ c.toNat ≤ 102 := ⟨ha, hf⟩
    omega
  · have hbounds : 65 ≤ c.toNat ∧ c.toNat ≤ 70 := ⟨ha, hf⟩
    omega

theorem ne_plus_of_isDigit (h : isDigit c = true) : c ≠ '+' := by
  rintro rfl
  exact absurd h (by decide)

/-- A numeral may follow a plus sign. -/
theorem read?_eq_some_iff : read? cs = some n ↔
    ∃ ds, (cs = ds ∨ cs = '+' :: ds) ∧ ds ≠ [] ∧ (∀ c ∈ ds, isDigit c = true) ∧ value ds = n := by
  have hdigits (ds : List Char) : (if ds ≠ [] ∧ ds.all isDigit then some (value ds) else none) = some n ↔
      ds ≠ [] ∧ (∀ c ∈ ds, isDigit c = true) ∧ value ds = n := by
    rw [Option.ite_none_right_eq_some, List.all_eq_true, Option.some.injEq, and_assoc]
  by_cases hplus : ∃ ds, cs = '+' :: ds
  · obtain ⟨rest, rfl⟩ := hplus
    rw [read?, hdigits]
    constructor
    · exact fun h => ⟨rest, .inr rfl, h⟩
    · rintro ⟨ds, rfl | hds, h⟩
      · exact absurd rfl (ne_plus_of_isDigit (h.2.1 '+' (List.mem_cons_self ..)))
      · rwa [(List.cons.inj hds).2]
  · have hread : read? cs = if cs ≠ [] ∧ cs.all isDigit then some (value cs) else none := by
      rw [read?]
      exact fun rest h => hplus ⟨rest, h⟩
    rw [hread, hdigits]
    constructor
    · exact fun h => ⟨cs, .inl rfl, h⟩
    · rintro ⟨ds, rfl | hds, h⟩
      · exact h
      · exact absurd ⟨ds, hds⟩ hplus

/-- What is read from the numeral of a number is that number. -/
theorem read?_lower (n : Nat) : read? (lower n).toList = some n :=
  read?_eq_some_iff.mpr ⟨_, .inl rfl, lower_ne_empty, fun _ hc => isDigit_of_mem_lower hc,
    toList_lower n ▸ (toDigits_spec n).2⟩

theorem isText_lower (n : Nat) : Xml.IsText (lower n) := by
  intro c hc
  have hd := isDigit_of_mem_lower hc
  simp only [isDigit, Char.isDigit, Bool.or_eq_true, Bool.and_eq_true, decide_eq_true_eq, Char.le_def,
    UInt32.le_iff_toNat_le] at hd
  have hd : ((48 ≤ c.toNat ∧ c.toNat ≤ 57) ∨ 97 ≤ c.toNat ∧ c.toNat ≤ 102) ∨ 65 ≤ c.toNat ∧ c.toNat ≤ 70 := hd
  refine Xml.isChar_of_le ?_ ?_ <;> omega

end Ixml.Text.Hex
