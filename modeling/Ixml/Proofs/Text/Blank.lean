import Ixml.Proofs.Xml.Text
import Ixml.Text.Blank

/-!
# Blanks

A blank is no letter and no digit (`Unicode.not_isAlphanumeric_of_isWhiteSpace`), because the ranges of the tables have
no code point in common. Trimming takes the blanks around a text away and nothing else (`Text.trimChars_append`).
-/

namespace Ixml

namespace Unicode

namespace CodeRange

/-- No range of a table has a code point in common with a range of another. -/
def Apart (table table' : List CodeRange) : Prop :=
  ∀ r ∈ table, ∀ q ∈ table', r.2 < q.1 ∨ q.2 < r.1

instance (table table' : List CodeRange) : Decidable (Apart table table') :=
  inferInstanceAs (Decidable (∀ r ∈ table, ∀ q ∈ table', r.2 < q.1 ∨ q.2 < r.1))

theorem not_covers_of_apart {table table' : List CodeRange} {n : Nat} (h : Apart table table')
    (hn : covers table n = true) : ¬covers table' n = true := by
  intro hn'
  obtain ⟨r, hr, h₁, h₂⟩ := covers_eq_true_iff.mp hn
  obtain ⟨q, hq, h₁', h₂'⟩ := covers_eq_true_iff.mp hn'
  have := h r hr q hq
  omega

end CodeRange

variable {c : Char}

theorem not_isAlphanum_of_isWhiteSpace (hc : isWhiteSpace c = true) : ¬c.isAlphanum = true := by
  intro h
  have hrange : CodeRange.covers [(65, 90), (97, 122), (48, 57)] c.toNat = true := by
    simpa [CodeRange.covers, CodeRange.contains, or_assoc] using Xml.isAlphanum_iff_toNat.mp h
  exact CodeRange.not_covers_of_apart (by decide) hc hrange

theorem not_isAlphabetic_of_isWhiteSpace (hc : isWhiteSpace c = true) : ¬isAlphabetic c = true := by
  unfold isAlphabetic
  split
  · intro h
    exact not_isAlphanum_of_isWhiteSpace hc (by rw [Char.isAlphanum, h, Bool.true_or])
  · have hapart : CodeRange.Apart whiteSpace Ranges.alphabetic := by decide +kernel
    exact CodeRange.not_covers_of_apart hapart hc

theorem not_isNumeric_of_isWhiteSpace (hc : isWhiteSpace c = true) : ¬isNumeric c = true := by
  unfold isNumeric
  split
  · intro h
    exact not_isAlphanum_of_isWhiteSpace hc (by rw [Char.isAlphanum, h, Bool.or_true])
  · have hapart : CodeRange.Apart whiteSpace Ranges.numeric := by decide +kernel
    exact CodeRange.not_covers_of_apart hapart hc

theorem not_isAlphanumeric_of_isWhiteSpace (hc : isWhiteSpace c = true) : ¬isAlphanumeric c = true := by
  rw [isAlphanumeric, Bool.or_eq_true]
  rintro (h | h)
  · exact not_isAlphabetic_of_isWhiteSpace hc h
  · exact not_isNumeric_of_isWhiteSpace hc h

end Unicode

namespace Text

open Unicode (isWhiteSpace)

variable {bs cs ds : List Char}

/-- All characters are blanks. -/
def IsBlank (cs : List Char) : Prop :=
  ∀ c ∈ cs, isWhiteSpace c = true

theorem trimLeft_append (hbs : IsBlank bs) (cs : List Char) : trimLeft (bs ++ cs) = trimLeft cs :=
  List.dropWhile_append_of_pos hbs

theorem trimLeft_eq_nil (hbs : IsBlank bs) : trimLeft bs = [] := by
  rw [← List.append_nil bs, trimLeft_append hbs, trimLeft, List.dropWhile_nil]

theorem trimLeft_append_of_eq_self (h : trimLeft cs = cs) (hne : cs ≠ []) (ds : List Char) :
    trimLeft (cs ++ ds) = cs ++ ds := by
  cases cs with
  | nil => exact absurd rfl hne
  | cons c cs =>
    by_cases hc : isWhiteSpace c = true
    · have hlen := (List.dropWhile_sublist isWhiteSpace (l := cs)).length_le
      rw [trimLeft, List.dropWhile_cons_of_pos hc] at h
      rw [h, List.length_cons] at hlen
      omega
    · rw [trimLeft, List.cons_append, List.dropWhile_cons_of_neg hc]

/-- Nothing is taken away from a text that neither begins nor ends with a blank. -/
theorem trimChars_eq_self_iff : trimChars cs = cs ↔ trimLeft cs = cs ∧ trimLeft cs.reverse = cs.reverse := by
  constructor
  · intro h
    have hsuffix : trimLeft cs <:+ cs := List.dropWhile_suffix _
    have hlen : cs.length ≤ (trimLeft cs).length := by
      calc cs.length = (trimChars cs).length := by rw [h]
        _ ≤ (trimLeft cs).reverse.length := by
          rw [trimChars, List.length_reverse]
          exact (List.dropWhile_sublist _).length_le
        _ = (trimLeft cs).length := List.length_reverse
    have hleft : trimLeft cs = cs := hsuffix.eq_of_length_le hlen
    refine ⟨hleft, ?_⟩
    rw [trimChars, hleft] at h
    rw [← List.reverse_inj, h, List.reverse_reverse]
  · rintro ⟨hleft, hright⟩
    rw [trimChars, hleft, hright, List.reverse_reverse]

theorem trimChars_append (hbs : IsBlank bs) (hds : IsBlank ds) (h : trimChars cs = cs) :
    trimChars (bs ++ cs ++ ds) = cs := by
  have hrev : IsBlank ds.reverse := fun c hc => hds c (List.mem_reverse.mp hc)
  obtain ⟨hleft, hright⟩ := trimChars_eq_self_iff.mp h
  rw [trimChars, List.append_assoc, trimLeft_append hbs]
  by_cases hcs : cs = []
  · rw [hcs, List.nil_append, trimLeft_eq_nil hds, List.reverse_nil, trimLeft, List.dropWhile_nil, List.reverse_nil]
  · rw [trimLeft_append_of_eq_self hleft hcs, List.reverse_append, trimLeft_append hrev, hright, List.reverse_reverse]

end Text

end Ixml
