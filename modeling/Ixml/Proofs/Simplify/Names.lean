import Ixml.Proofs.Xml.Text
import Ixml.Simplify.Basic

/-!
# Made-up names

The names of rules that are made up begin with a dollar sign, which no name of a grammar text does. Each but
the one of the shared empty rule carries a number (`Numbered`), and the number can be read off the name
(`Numbered.unique`), so that a name with a new number is new. What a name hints at is spelled in it with letters,
digits and a few signs (`isText_hint`).
-/

namespace Ixml.Simplify

/-- A name that is made up begins with a dollar sign. -/
def IsMade (name : String) : Prop :=
  name.toList.head? = some '$'

/-- What comes last in a made-up name: a word without an underscore. -/
def IsSuffix (word : String) : Prop :=
  '_' ∉ word.toList ∧ Xml.IsText word

instance (word : String) : Decidable (IsSuffix word) :=
  inferInstanceAs (Decidable ('_' ∉ word.toList ∧ Xml.IsText word))

/-- The name is made up with a given number: it ends in the number and a word between underscores. -/
def Numbered (name : String) (n : Nat) : Prop :=
  ∃ hint word : String, Xml.IsText hint ∧ IsSuffix word ∧ name = "$" ++ hint ++ "_" ++ toString n ++ "_" ++ word

theorem Numbered.isMade {name : String} {n : Nat} (h : Numbered name n) : IsMade name := by
  obtain ⟨hint, word, -, -, rfl⟩ := h
  simp [IsMade]

theorem isMade_emptyRule : IsMade emptyRule := by
  rfl

theorem Numbered.ne_emptyRule {name : String} {n : Nat} (h : Numbered name n) : name ≠ emptyRule := by
  rintro rfl
  obtain ⟨hint, word, -, -, he⟩ := h
  have hmem : '_' ∈ emptyRule.toList := by rw [he]; simp
  exact absurd hmem (by decide)

theorem toDigits_inj {m n : Nat} (h : Nat.toDigits 10 m = Nat.toDigits 10 n) : m = n := by
  rw [← Nat.ofDigitChars_toDigits (b := 10) (n := m) (by decide) (by decide), h,
    Nat.ofDigitChars_toDigits (by decide) (by decide)]

theorem underscore_notMem_repr (n : Nat) : '_' ∉ (toString n).toList := fun h => by
  have hd := Nat.isDigit_of_mem_toDigits (by decide) (by decide) (Nat.toList_repr (n := n) ▸ h)
  exact absurd hd (by decide)

theorem append_cons_inj_of_notMem_right {xs ys s t : List Char} {c : Char} (hs : c ∉ s) (ht : c ∉ t)
    (h : xs ++ c :: s = ys ++ c :: t) : xs = ys ∧ s = t := by
  simp only [List.append_eq_append_iff, List.cons_eq_append_iff, List.cons.injEq] at h
  rcases h with ⟨a, rfl, ⟨rfl, h⟩ | ⟨b, rfl, rfl⟩⟩ | ⟨a, rfl, ⟨rfl, h⟩ | ⟨b, rfl, rfl⟩⟩ <;> simp_all

theorem Numbered.unique {name : String} {m n : Nat} (hm : Numbered name m) (hn : Numbered name n) : m = n := by
  obtain ⟨hint, word, -, ⟨hw, -⟩, rfl⟩ := hm
  obtain ⟨hint', word', -, ⟨hw', -⟩, he⟩ := hn
  have he := congrArg String.toList he
  simp only [String.toList_append, show "_".toList = ['_'] from rfl, List.append_assoc,
    List.singleton_append] at he
  simp only [← List.append_assoc] at he
  obtain ⟨he, -⟩ := append_cons_inj_of_notMem_right hw hw' he
  simp only [List.append_assoc] at he
  simp only [← List.append_assoc] at he
  obtain ⟨-, he⟩ :=
    append_cons_inj_of_notMem_right (underscore_notMem_repr m) (underscore_notMem_repr n) he
  exact toDigits_inj (by simpa [toString] using he)

theorem Numbered.isText {name : String} {n : Nat} (h : Numbered name n) : Xml.IsText name := by
  obtain ⟨hint, word, hh, ⟨-, hw⟩, rfl⟩ := h
  have hn := Xml.isText_repr n
  have hsigns : Xml.IsText "$" ∧ Xml.IsText "_" := by decide
  simp only [Xml.isText_append]
  exact ⟨⟨⟨⟨⟨hsigns.1, hh⟩, hsigns.2⟩, hn⟩, hsigns.2⟩, hw⟩

theorem exists_digit_of_mem_upperPair {n : Nat} {c : Char} (h : c ∈ (Text.Hex.upperPair n).toList) :
    ∃ d < 16, c = d.digitChar.toUpper := by
  have hdigits (n : Nat) : ∀ c ∈ Nat.toDigits 16 n, ∃ d < 16, c = d.digitChar := by
    induction n using Nat.strongRecOn with
    | ind n ih =>
      by_cases hn : n < 16
      · rw [Nat.toDigits_of_lt_base hn]
        simpa using ⟨n, hn, rfl⟩
      · rw [Nat.toDigits_of_base_le (by decide) (by omega)]
        refine List.forall_mem_append.mpr ⟨ih (n / 16) (by omega), ?_⟩
        simpa using ⟨n % 16, Nat.mod_lt n (by decide), rfl⟩
  have hupper (h : c ∈ (Text.Hex.upper n).toList) : ∃ d < 16, c = d.digitChar.toUpper := by
    rw [Text.Hex.upper, String.toList_ofList] at h
    obtain ⟨x, hx, rfl⟩ := List.mem_map.mp h
    obtain ⟨d, hd, rfl⟩ := hdigits n x hx
    exact ⟨d, hd, rfl⟩
  unfold Text.Hex.upperPair at h
  split at h
  · rw [String.toList_append, List.mem_append] at h
    rcases h with h | h
    · exact ⟨0, by decide, (List.mem_singleton.mp h).trans (by decide)⟩
    · exact hupper h
  · exact hupper h

theorem isText_upperPair (n : Nat) : Xml.IsText (Text.Hex.upperPair n) := by
  have hdigit : ∀ d < 16, Xml.isChar d.digitChar.toUpper = true := by decide
  intro c hc
  obtain ⟨d, hd, rfl⟩ := exists_digit_of_mem_upperPair hc
  exact hdigit d hd

theorem isText_hint (g : Grammar) (id : NodeId) : Xml.IsText (Edit.hint g id) := by
  unfold Edit.hint
  split
  · decide
  refine Xml.isText_join.mpr fun s hs => ?_
  obtain ⟨c, -, rfl⟩ := List.mem_map.mp hs
  unfold Edit.hintChar
  split
  · rename_i hc
    rw [Xml.isText_singleton]
    simp only [Bool.or_eq_true, beq_iff_eq] at hc
    rcases hc with (hc | rfl) | rfl
    · exact Xml.isChar_of_isAlphanum hc
    · decide
    · decide
  · exact Xml.isText_append.mpr ⟨by decide, isText_upperPair _⟩

theorem numbered_nextName (g : Grammar) (id : NodeId) {word : String} (hw : IsSuffix word) :
    Numbered (g.nextName (Edit.hint g id) word) (g.madeUp + 1) :=
  ⟨Edit.hint g id, word, isText_hint g id, hw, rfl⟩

end Ixml.Simplify
