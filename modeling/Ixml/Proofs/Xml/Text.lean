import Ixml.Xml.Char
import Mathlib.Data.List.Basic

/-!
# Texts of characters of XML

`Xml.IsText` says that all characters of a text may stand in a document. Names are such texts (`isText_of_isName`),
because each range of their characters lies in a range of characters of XML (`CodeRange.covers_of_within`).
-/

namespace Ixml

namespace Unicode.CodeRange

/-- Each range of a table lies within a range of another. -/
def Within (table table' : List CodeRange) : Prop :=
  ∀ r ∈ table, ∃ q ∈ table', q.1 ≤ r.1 ∧ r.2 ≤ q.2

instance (table table' : List CodeRange) : Decidable (Within table table') :=
  inferInstanceAs (Decidable (∀ r ∈ table, ∃ q ∈ table', q.1 ≤ r.1 ∧ r.2 ≤ q.2))

theorem covers_of_within {table table' : List CodeRange} {n : Nat} (h : Within table table')
    (hn : covers table n = true) : covers table' n = true := by
  obtain ⟨r, hr, h₁, h₂⟩ := covers_eq_true_iff.mp hn
  obtain ⟨q, hq, h₁', h₂'⟩ := h r hr
  exact covers_eq_true_iff.mpr ⟨q, hq, Nat.le_trans h₁' h₁, Nat.le_trans h₂ h₂'⟩

end Unicode.CodeRange

namespace Xml

open Unicode

/-- Every character may stand in a document. -/
def IsText (s : String) : Prop :=
  ∀ c ∈ s.toList, isChar c = true

instance (s : String) : Decidable (IsText s) :=
  decidable_of_iff (s.toList.all isChar = true) List.all_eq_true

variable {s t : String} {c : Char}

@[simp] theorem isText_empty : IsText "" := by
  simp [IsText]

@[simp] theorem isText_append : IsText (s ++ t) ↔ IsText s ∧ IsText t := by
  simp [IsText, or_imp, forall_and]

@[simp] theorem isText_singleton : IsText (String.singleton c) ↔ isChar c = true := by
  simp [IsText]

theorem isText_join {ss : List String} : IsText (String.join ss) ↔ ∀ s ∈ ss, IsText s := by
  induction ss with
  | nil => simp
  | cons s ss ih => simp [ih]

theorem isText_intercalate_iff {sep : String} {ss : List String} (h : IsText sep) :
    IsText (sep.intercalate ss) ↔ ∀ s ∈ ss, IsText s := by
  induction ss with
  | nil => simp
  | cons s ss ih =>
    cases ss with
    | nil => simp
    | cons t ss =>
      rw [String.intercalate_cons_cons, isText_append, isText_append, ih, and_iff_left h]
      exact List.forall_mem_cons.symm

theorem firstInvalid?_eq_none_iff : firstInvalid? s = none ↔ IsText s := by
  simp [firstInvalid?, IsText]

theorem isChar_of_le (h : 0x20 ≤ c.toNat) (h' : c.toNat ≤ 0xd7ff) : isChar c = true :=
  CodeRange.covers_eq_true_iff.mpr ⟨(0x20, 0xd7ff), by decide, h, h'⟩

theorem isAlphanum_iff_toNat : c.isAlphanum = true ↔
    (65 ≤ c.toNat ∧ c.toNat ≤ 90 ∨ 97 ≤ c.toNat ∧ c.toNat ≤ 122) ∨ 48 ≤ c.toNat ∧ c.toNat ≤ 57 := by
  show (decide ('A'.val ≤ c.val ∧ c.val ≤ 'Z'.val) || decide ('a'.val ≤ c.val) && decide (c.val ≤ 'z'.val) ||
      decide ('0'.val ≤ c.val) && decide (c.val ≤ '9'.val)) = true ↔ _
  simp only [Bool.or_eq_true, Bool.and_eq_true, decide_eq_true_eq, UInt32.le_iff_toNat_le]
  rfl

theorem isChar_of_isAlphanum (h : c.isAlphanum = true) : isChar c = true := by
  have h := isAlphanum_iff_toNat.mp h
  refine isChar_of_le ?_ ?_ <;> omega

theorem isText_repr (n : Nat) : IsText (toString n) := fun c hc => by
  have hd := Nat.isDigit_of_mem_toDigits (by decide) (by decide) (Nat.toList_repr (n := n) ▸ hc)
  exact isChar_of_isAlphanum (by rw [Char.isAlphanum, hd, Bool.or_true])

theorem isChar_of_isNameChar (h : isNameChar c = true) : isChar c = true := by
  rw [isNameChar, Bool.or_eq_true] at h
  rcases h with h | h
  · exact CodeRange.covers_of_within (by decide : CodeRange.Within nameStartRanges charRanges) h
  · exact CodeRange.covers_of_within (by decide : CodeRange.Within nameExtraRanges charRanges) h

/-- A name begins with one of its characters, and there are no others in it. -/
theorem exists_of_isName (h : isName s = true) : ∃ c cs, s.toList = c :: cs ∧ ∀ d ∈ c :: cs, isNameChar d = true := by
  rw [isName] at h
  split at h
  · cases h
  · rename_i c cs hs
    rw [Bool.and_eq_true, List.all_eq_true] at h
    refine ⟨c, cs, hs, fun d hd => ?_⟩
    rcases List.mem_cons.mp hd with rfl | hd
    · rw [isNameChar, h.1, Bool.true_or]
    · exact h.2 d hd

theorem isNameChar_of_isName (h : isName s = true) : ∀ c ∈ s.toList, isNameChar c = true := by
  obtain ⟨c, cs, hs, hcs⟩ := exists_of_isName h
  rwa [hs]

theorem isText_of_isName (h : isName s = true) : IsText s := fun c hc =>
  isChar_of_isNameChar (isNameChar_of_isName h c hc)

end Xml

end Ixml
