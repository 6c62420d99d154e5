import Ixml.Proofs.Simplify.Names
import Ixml.Token.Lexer

/-!
# Lexemes

What a token that is found in a text can be (`isLexeme_of_lexeme`). In particular no identifier is like a made-up
name, and each consists of characters of XML (`isPlain_of_tokens`).
-/

namespace Ixml

open Simplify

/-- What a name in a text is like: it is not made up, and it consists of characters of XML. -/
structure IsIdentifier (name : String) : Prop where
  notMade : ¬IsMade name
  isText : Xml.IsText name

theorem isIdentifier_empty : IsIdentifier "" :=
  ⟨by simp [IsMade], Xml.isText_empty⟩

namespace Token

/-- A token as it can be found in a text: no identifier is like a made-up name, and no string goes over the end of a
line. -/
def IsPlain : Token → Prop
  | .ident name => IsIdentifier name
  | .string s => '\n' ∉ s.toList
  | _ => True

def isPragma : Token → Bool
  | .pragma .. => true
  | _ => false

/-- A token that is not a pragma and that a text can spell. -/
def IsSpelt : Token → Prop
  | .ident name => ∃ c ds, name = String.ofList (c :: ds) ∧ Unicode.isWhiteSpace c = false ∧
      isIdentStart c = true ∧ ∀ d ∈ ds, isIdentChar d = true
  | .string s => '\n' ∉ s.toList
  | .pragma .. => False
  | _ => True

theorem pragmaOf_eq_ok {body : List Char} {p : Text.Position} {u : Token} (h : pragmaOf body p = .ok u) :
    ∃ name data, u = .pragma name data := by
  unfold pragmaOf at h
  dsimp only at h
  split at h
  · simp [failure] at h
  · cases h
    exact ⟨_, _, rfl⟩

theorem isChar_of_isAlphabetic {c : Char} (h : Unicode.isAlphabetic c = true) : Xml.isChar c = true := by
  unfold Unicode.isAlphabetic at h
  split at h
  · exact Xml.isChar_of_isAlphanum (by rw [Char.isAlphanum, h, Bool.true_or])
  · have hw : Unicode.CodeRange.Within Unicode.Ranges.alphabetic Xml.charRanges := by decide +kernel
    exact Unicode.CodeRange.covers_of_within hw h

theorem isChar_of_isNumeric {c : Char} (h : Unicode.isNumeric c = true) : Xml.isChar c = true := by
  unfold Unicode.isNumeric at h
  split at h
  · exact Xml.isChar_of_isAlphanum (by rw [Char.isAlphanum, h, Bool.or_true])
  · have hw : Unicode.CodeRange.Within Unicode.Ranges.numeric Xml.charRanges := by decide +kernel
    exact Unicode.CodeRange.covers_of_within hw h

theorem isChar_of_isIdentChar {c : Char} (h : isIdentChar c = true) : Xml.isChar c = true := by
  simp only [isIdentChar, Unicode.isAlphanumeric, Bool.or_eq_true, beq_iff_eq] at h
  rcases h with (((h | h) | rfl) | rfl) | rfl
  · exact isChar_of_isAlphabetic h
  · exact isChar_of_isNumeric h
  · decide
  · decide
  · decide

theorem isIdentChar_of_isIdentStart {c : Char} (h : isIdentStart c = true) : isIdentChar c = true := by
  simp only [isIdentStart, Bool.or_eq_true, beq_iff_eq] at h
  simp only [isIdentChar, Unicode.isAlphanumeric, Bool.or_eq_true, beq_iff_eq]
  tauto

theorem isIdentifier_of_isIdentStart {c : Char} {cs : List Char} (h : isIdentStart c = true)
    (hcs : ∀ d ∈ cs, isIdentChar d = true) : IsIdentifier (String.ofList (c :: cs)) := by
  refine ⟨?_, fun d hd => ?_⟩
  · rw [IsMade, String.toList_ofList, List.head?_cons, Option.some.injEq]
    rintro rfl
    exact absurd h (by decide)
  · rw [String.toList_ofList] at hd
    rcases List.mem_cons.mp hd with rfl | hd
    · exact isChar_of_isIdentChar (isIdentChar_of_isIdentStart h)
    · exact isChar_of_isIdentChar (hcs d hd)

/-- What a lexeme can be. -/
inductive IsLexeme (c : Char) (cs : List Char) (p : Text.Position) : Token → Cursor → Prop
  | pragma (name data : String) (k : Cursor) : IsLexeme c cs p (.pragma name data) k
  | string {s : List Char} {k : Cursor} (hc : c = '"' ∨ c = '\'') (h : quoted c cs (p.after c) = .ok (s, k)) :
      IsLexeme c cs p (.string (String.ofList s)) k
  | hex (digits : List Char) (k : Cursor) : IsLexeme c cs p (.hex (String.ofList digits)) k
  | doubleSign {t : Token} {k : Cursor} (h : doubleSign? c cs.head? = some t) : IsLexeme c cs p t k
  | sign {t : Token} {k : Cursor} (h : sign? c = some t) : IsLexeme c cs p t k
  | ident {k : Cursor} (h : isIdentStart c = true) :
      IsLexeme c cs p (.ident (String.ofList (c :: cs.takeWhile isIdentChar))) k

theorem isLexeme_of_lexeme {c : Char} {cs : List Char} {p : Text.Position} {t : Token} {k : Cursor}
    (h : lexeme c cs p = .ok (t, k)) : IsLexeme c cs p t k := by
  rcases lexeme_cases h with ⟨-, body, -, hp⟩ | ⟨hc, s, hq, rfl⟩ | ⟨-, digits, -, -, rfl⟩ | ⟨ht, -⟩ | ⟨ht, -⟩ |
    ⟨hs, name, hk, rfl⟩
  · obtain ⟨name, data, rfl⟩ := pragmaOf_eq_ok hp
    exact .pragma name data k
  · exact .string hc hq
  · exact .hex digits k
  · exact .doubleSign ht
  · exact .sign ht
  · obtain ⟨rfl, -⟩ := Prod.mk.inj hk
    exact .ident hs

theorem newline_notMem_of_quoted {quote : Char} {cs s : List Char} {p : Text.Position} {k : Cursor}
    (hq : quote ≠ '\n') (h : quoted quote cs p = .ok (s, k)) : '\n' ∉ s := by
  fun_induction quoted quote cs p generalizing s k with
  | case1 => simp [failure] at h
  | case2 => cases h; simp
  | case3 => simp [failure] at h
  | case4 => simp [failure] at h
  | case5 c d cs p _ _ s' k' _ ih =>
    cases h
    have := ih ‹_›
    simp [this, hq.symm]
  | case6 => simp at h
  | case7 => cases h; simp
  | case8 => simp [failure] at h
  | case9 c d cs p _ hc s' k' _ ih =>
    cases h
    have := ih ‹_›
    simp only [beq_iff_eq] at hc
    simp [this, Ne.symm hc]
  | case10 => simp at h

theorem isSpelt_of_sign? {c : Char} {u : Token} (h : sign? c = some u) : IsSpelt u := by
  unfold sign? at h
  split at h <;> cases h <;> trivial

theorem isSpelt_of_doubleSign? {c : Char} {o : Option Char} {u : Token} (h : doubleSign? c o = some u) :
    IsSpelt u := by
  unfold doubleSign? at h
  split at h
  · cases h
    trivial
  · split at h <;> cases h
    trivial

theorem isSpelt_of_lexeme {c : Char} {cs : List Char} {p : Text.Position} {u : Token} {k : Cursor}
    (hw : Unicode.isWhiteSpace c = false) (h : lexeme c cs p = .ok (u, k)) : u.isPragma = true ∨ IsSpelt u := by
  cases isLexeme_of_lexeme h with
  | pragma name data => exact .inl rfl
  | string hc hs =>
    have hquote : c ≠ '\n' := by rcases hc with rfl | rfl <;> decide
    refine .inr ?_
    rw [IsSpelt, String.toList_ofList]
    exact newline_notMem_of_quoted hquote hs
  | hex => exact .inr trivial
  | doubleSign hd => exact .inr (isSpelt_of_doubleSign? hd)
  | sign hs => exact .inr (isSpelt_of_sign? hs)
  | ident hs => exact .inr ⟨c, _, rfl, hw, hs, List.all_eq_true.mp List.all_takeWhile⟩

theorem isSpelt_of_tokens {k : Cursor} {ts : List Placed} (h : tokens k = .ok ts) :
    ∀ t ∈ ts, t.token.isPragma = true ∨ IsSpelt t.token := by
  fun_induction tokens k generalizing ts with
  | case1 =>
    cases h
    simp
  | case2 c cs p _ ih => exact ih h
  | case3 c cs p _ _ k _ ih => exact ih h
  | case4 => simp at h
  | case5 c cs p hw _ t k hl ts' hts ih =>
    cases h
    exact List.forall_mem_cons.mpr ⟨isSpelt_of_lexeme (by simpa using hw) hl, ih hts⟩
  | case6 => simp at h
  | case7 => simp at h

theorem IsSpelt.isPlain {u : Token} (h : IsSpelt u) : u.IsPlain := by
  cases u with
  | ident name =>
    obtain ⟨c, ds, rfl, -, hc, hds⟩ := h
    exact isIdentifier_of_isIdentStart hc hds
  | string s => exact h
  | _ => trivial

theorem isPlain_of_tokens {k : Cursor} {ts : List Placed} (h : tokens k = .ok ts) : ∀ t ∈ ts, t.token.IsPlain := by
  intro t ht
  rcases isSpelt_of_tokens h t ht with hp | hs
  · cases hu : t.token <;> rw [hu] at hp <;> cases hp
    trivial
  · exact hs.isPlain

end Token

end Ixml
