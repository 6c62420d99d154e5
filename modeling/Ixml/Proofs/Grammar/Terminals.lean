import Ixml.Proofs.Bnf.Build
import Ixml.Proofs.Grammar.RoundTrip
import Ixml.Proofs.Token.Writing

/-!
# Terminals in grammar text

The notation of a terminal spells a term: a literal of one character, or a set. A set without a description is written
by its ranges (`Matcher.isWritable_bare`), and a set with one as it stands in a grammar text (`Matcher.isWritable_set`).
In each case the term has the same characters as the terminal.
-/

namespace Ixml

open Unicode (isControl isWhiteSpace)

namespace Token

variable {name : String}

theorem isSpelt_ident (hhead : name.toList.head?.any isIdentStart = true) (hall : name.toList.all isIdentChar = true) :
    IsSpelt (.ident name) := by
  cases hname : name.toList with
  | nil =>
    rw [hname] at hhead
    cases hhead
  | cons c ds =>
    rw [hname] at hhead hall
    rw [List.all_cons, Bool.and_eq_true, List.all_eq_true] at hall
    refine ⟨c, ds, ?_, isWhiteSpace_of_isIdentStart hhead, hhead, hall.2⟩
    rw [← hname, String.ofList_toList]

/-- A category code is a word. -/
theorem isSpelt_of_isCategoryCode (h : CharSet.isCategoryCode name = true) : IsSpelt (.ident name) := by
  have hwords : ∀ c ∈ Unicode.GeneralCategory.all,
      (c.code.toList.head?.any isIdentStart = true ∧ c.code.toList.all isIdentChar = true) ∧
        c.major.toList.head?.any isIdentStart = true ∧ c.major.toList.all isIdentChar = true := by decide
  rw [CharSet.isCategoryCode, Bool.not_eq_true', List.isEmpty_eq_false_iff_exists_mem] at h
  obtain ⟨c, hc⟩ := h
  obtain ⟨⟨hcode, hcode'⟩, hmajor, hmajor'⟩ := hwords c (Unicode.GeneralCategory.mem_all c)
  have hclass := CharSet.mem_categoriesOf.mp hc
  simp only [Unicode.GeneralCategory.inClass, Bool.or_eq_true, Bool.and_eq_true, beq_iff_eq] at hclass
  rcases hclass with (rfl | rfl) | ⟨rfl, -⟩
  · exact isSpelt_ident hcode hcode'
  · exact isSpelt_ident hmajor hmajor'
  · exact isSpelt_ident (by decide) (by decide)

end Token

namespace Phrase

open Token (Spells EndsTerm)

variable {c d : Char} {r : CharRange} {l : Label} {inclusion : Bool}

/-! ### Members of sets -/

/-- A character that may follow a value in a set: it ends a term, or stands between the bounds of a range. -/
def EndsValue (c : Char) : Prop :=
  EndsTerm c ∨ c = '-'

theorem EndsValue.spec (h : EndsValue c) : Text.Hex.isDigit c = false ∧ c ≠ '"' ∧ c ≠ '\'' := by
  rcases h with h | rfl
  · unfold EndsTerm at h
    simp only [List.mem_cons, List.not_mem_nil, or_false] at h
    rcases h with rfl | rfl | rfl | rfl | rfl | rfl | rfl | rfl <;> decide
  · decide

/-- The value that stands for one character: a string where the character can be seen. -/
def valueOf (c : Char) : Literal :=
  if isControl c || isWhiteSpace c then .coded c else .quoted (String.singleton c)

theorem text_valueOf (c : Char) : (valueOf c).text = String.singleton c := by
  unfold valueOf
  split <;> rfl

theorem spelled_memberText (c : Char) :
    ∃ u, IsValue u (valueOf c) ∧ Spells EndsValue (CharSet.memberText c) [u] := by
  by_cases hcode : (isControl c || isWhiteSpace c) = true
  · have hquote : ¬(c == '\'') = true := by
      intro h
      rw [beq_iff_eq.mp h] at hcode
      exact absurd hcode (by decide)
    rw [CharSet.memberText, if_neg hquote, if_pos hcode, valueOf, if_pos hcode]
    have hs := Token.spells_hex c.toNat
    exact ⟨_, .hex (Text.Hex.read?_lower c.toNat), hs.mono fun _ (hd : EndsValue _) => hd.spec.1⟩
  have hbreak : c ≠ '\n' := by
    rintro rfl
    exact hcode (by decide)
  rw [valueOf, if_neg hcode]
  refine ⟨_, .string _, ?_⟩
  -- a single quote stands between double quotes, every other character between single quotes
  by_cases hquote : c = '\''
  · rw [hquote, CharSet.memberText, if_pos (by decide)]
    have hs := Token.spells_quoted (.inl rfl : '"' = '"' ∨ '"' = '\'') (by decide : '\n' ∉ ['\''])
    exact hs.mono fun _ (hd : EndsValue _) => hd.spec.2.1
  · rw [CharSet.memberText, if_neg (by simpa using hquote), if_neg hcode]
    have hmem : '\n' ∉ [c] := by simpa using hbreak.symm
    have hs := Token.spells_quoted (.inr rfl : '\'' = '"' ∨ '\'' = '\'') hmem
    have htext : "'" ++ String.singleton c ++ "'" = String.ofList ('\'' :: (Token.doubling '\'' [c] ++ ['\''])) := by
      rw [← String.toList_inj]
      simp [Token.doubling, hquote]
    rw [htext]
    exact hs.mono fun _ (hd : EndsValue _) => hd.spec.2.2

/-- The member of a set that a range is written as. -/
def memberOf (r : CharRange) : Construct :=
  if r.1 = r.2 then .literal .keep (valueOf r.1) else .range r.1 r.2

theorem admits_memberOf : (memberOf r).Admits c ↔ r.1 ≤ c ∧ c ≤ r.2 := by
  unfold memberOf
  split
  · next h =>
    rw [Construct.Admits, text_valueOf, ← h, String.toList_singleton, List.mem_singleton, ← Char.toNat_inj]
    simp only [CharSet.le_iff_toNat]
    omega
  · exact Iff.rfl

theorem spelled_rangeText (hr : r.1 ≤ r.2) :
    Spelled EndsTerm (CharSet.rangeText r) (IsMember · (.ofKind (memberOf r))) := by
  obtain ⟨u, hu, hus⟩ := spelled_memberText r.1
  obtain ⟨v, hv, hvs⟩ := spelled_memberText r.2
  unfold CharSet.rangeText memberOf
  by_cases h : r.1 = r.2
  · rw [if_pos h, if_pos (beq_iff_eq.mpr h)]
    exact ⟨[u], .value hu, hus.mono fun d hd => .inl hd⟩
  · rw [if_neg h, if_neg (by simpa using h), String.append_assoc]
    refine ⟨_, .range hu hv (text_valueOf _) (text_valueOf _) hr, ?_⟩
    exact hus.cons_of_head (spells_minus.cons (hvs.mono fun d hd => .inl hd)) (c := '-') (by simp) (.inr rfl)

theorem IsMember.isMember_kind {us : List Token} {m : Tree} (h : IsMember us m) : m.kind.isMember = true := by
  cases h with
  | category h => exact h
  | value | range => rfl

/-- A member of a set is written as it can be read again. -/
theorem spelled_readable (h : l.kind.IsReadable) :
    Spelled EndsTerm (Grammar.nodeText l true []) (IsMember · (.ofKind l.kind)) := by
  unfold Grammar.nodeText
  cases hk : l.kind with
  | literal mark value =>
    rw [hk] at h
    obtain ⟨rfl, hbreak⟩ := h
    cases value with
    | quoted s =>
      exact ⟨_, .value (.string s), (Token.spells_string (hbreak s rfl)).mono fun d hd => hd.spec.2.2⟩
    | coded c =>
      refine ⟨_, .value (.hex (Text.Hex.read?_lower c.toNat)), ?_⟩
      exact (Token.spells_hex c.toNat).mono fun d hd => hd.spec.2.1
  | range x y =>
    rw [hk] at h
    exact spelled_range h
  | charClass code =>
    rw [hk] at h
    exact ⟨_, .category h, (Token.spells_ident (Token.isSpelt_of_isCategoryCode h)).mono fun d hd => hd.spec.1⟩
  | _ =>
    rw [hk] at h
    exact h.elim

/-! ### Terms -/

/-- A literal of one character or a set, and the characters that it stands for. -/
inductive IsTerminal (accepts : Char → Bool) : Tree → Prop
  | char {a : Literal} {d : Char} (ha : a.text = String.singleton d) (h : ∀ c, accepts c = (d == c)) :
      IsTerminal accepts (.ofKind (.literal .keep a))
  | set {inclusion : Bool} {ks : List Construct} (hks : ∀ k ∈ ks, k.isMember = true)
      (h : ∀ c, accepts c = true ↔ ((∃ k ∈ ks, k.Admits c) ↔ inclusion = true)) :
      IsTerminal accepts (.ofKind (.setOf .keep inclusion) (ks.map (Tree.ofKind ·)))

theorem spelled_setOf (inclusion : Bool) {texts : List String} {ms : List Tree}
    (h : List.Forall₂ (fun s m => Spelled EndsTerm s (IsMember · m)) texts ms) :
    Spelled EndsTerm ((if inclusion then "" else "~") ++ Grammar.setText texts)
      (IsTerm never · (.ofKind (.setOf .keep inclusion) ms)) := by
  cases inclusion with
  | true => simpa [Construct.setOf, TerminalMark.optionalSign] using spelled_inclusion none h
  | false => simpa [Construct.setOf, TerminalMark.optionalSign] using spelled_exclusion none h

end Phrase

namespace Matcher

open Phrase

variable {S : CharSet} {inclusion : Bool} {d : String}

/-- The notation of a terminal is that of a term with the same characters. -/
def IsWritable (m : Matcher) : Prop :=
  ∃ t, IsTerminal m.accepts t ∧ Spelled Token.EndsTerm m.text (IsTerm never · t)

theorem accepts_set_iff {c : Char} :
    (set S inclusion d).accepts c = true ↔ (S.contains c = true ↔ inclusion = true) := by
  rw [accepts, beq_iff_eq, Bool.eq_iff_iff]

theorem isWritable_char (c : Char) : (char c).IsWritable := by
  obtain ⟨u, hu, hs⟩ := spelled_memberText c
  exact ⟨_, .char (text_valueOf c) fun _ => rfl, [u], .literal none hu, hs.mono fun d hd => .inl hd⟩

/-- A set is written by members that have its characters together. -/
theorem isWritable_of_members {α : Type} {xs : List α} {f : α → String} {k : α → Construct}
    (hf : ∀ x ∈ xs, Spelled Token.EndsTerm (f x) (IsMember · (.ofKind (k x))))
    (hS : ∀ c, S.contains c = true ↔ ∃ x ∈ xs, (k x).Admits c)
    (htext : (set S inclusion d).text = (if inclusion then "" else "~") ++ Grammar.setText (xs.map f)) :
    (set S inclusion d).IsWritable := by
  have hmembers : List.Forall₂ (fun s m => Spelled Token.EndsTerm s (IsMember · m))
      (xs.map f) ((xs.map k).map (Tree.ofKind ·)) := by
    rw [List.map_map, List.forall₂_map_left_iff, List.forall₂_map_right_iff, List.forall₂_same]
    exact hf
  have hks : ∀ q ∈ xs.map k, q.isMember = true := List.forall_mem_map.mpr fun x hx => by
    obtain ⟨us, hus, -⟩ := hf x hx
    exact hus.isMember_kind
  refine ⟨.ofKind (.setOf .keep inclusion) _, .set hks fun c => ?_, ?_⟩
  · rw [accepts_set_iff, hS]
    simp
  · rw [htext]
    exact spelled_setOf inclusion hmembers

theorem isWritable_bare (hS : S.IsOrdered) (inclusion : Bool) : (set S inclusion "").IsWritable := by
  refine isWritable_of_members (fun r hr => spelled_rangeText (hS.nonempty r hr)) (fun c => ?_) ?_
  · rw [CharSet.contains_iff hS]
    simp [CharSet.Covers, admits_memberOf]
  · rw [Grammar.setText, ← String.append_assoc, ← String.append_assoc]
    rfl

theorem isWritable_set {ls : List Label} (hls : ∀ l ∈ ls, l.kind.IsReadable)
    (hS : ∀ c, S.contains c = true ↔ ∃ l ∈ ls, l.kind.Admits c) :
    (set S inclusion (Grammar.setNotation inclusion ls)).IsWritable := by
  refine isWritable_of_members (fun l hl => spelled_readable (hls l hl)) hS ?_
  have hne : (Grammar.setNotation inclusion ls).isEmpty = false := by simp [Grammar.setNotation, Grammar.setText]
  rw [text, hne]
  rfl

end Matcher

end Ixml
