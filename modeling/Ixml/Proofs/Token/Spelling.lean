import Ixml.Grammar.Node
import Ixml.Proofs.Text.Hex
import Ixml.Proofs.Token.Lexing

/-!
# Spelling tokens

`Scans cs us` says that the characters `cs` are split into the tokens `us`, wherever they stand. A text spells
tokens where they are what it is split into in front of any other text, as long as that text does not go on with
the last of them: `Spells B s us` says so for what begins with a character of `B`.

Conversely a token that is found in a text can be spelled (`isSpelt_of_tokens`).
-/

namespace Ixml.Token

open Text (Position)

variable {B C : Char → Prop} {c d : Char} {cs ds : List Char} {s t : String} {u : Token} {us vs : List Token}
  {p : Position}

def Scans (cs : List Char) (us : List Token) : Prop :=
  ∀ p, ∃ ts, tokens ⟨cs, p⟩ = .ok ts ∧ ts.map (·.token) = us

theorem scans_nil : Scans [] [] := by
  intro p
  exact ⟨[], by rw [tokens], rfl⟩

theorem scans_blank (hc : Unicode.isWhiteSpace c = true) (h : Scans cs us) : Scans (c :: cs) us := by
  intro p
  obtain ⟨ts, hts, hus⟩ := h (p.after c)
  refine ⟨ts, ?_, hus⟩
  rw [tokens, if_pos hc]
  exact hts

theorem scans_lexeme (hw : Unicode.isWhiteSpace c = false) (hc : c ≠ '\x7b')
    (hl : ∀ p, ∃ q, lexeme c cs p = .ok (u, ⟨ds, q⟩)) (h : Scans ds us) : Scans (c :: cs) (u :: us) := by
  intro p
  obtain ⟨q, hl⟩ := hl p
  obtain ⟨ts, hts, hus⟩ := h q
  refine ⟨⟨u, p⟩ :: ts, ?_, by rw [List.map_cons, hus]⟩
  rw [tokens, if_neg (by simp [hw]), if_neg (by simp [hc])]
  split
  · rename_i t k hk
    obtain ⟨rfl, rfl⟩ := Prod.mk.inj (Except.ok.inj (hk.symm.trans hl))
    rw [hts]
  · rename_i e hk
    cases hk.symm.trans hl

/-! ### Single tokens -/

theorem scans_sign (hs : sign? c = some u) (hd : doubleSign? c cs.head? = none) (h : Scans cs us) :
    Scans (c :: cs) (u :: us) := by
  have hc : Unicode.isWhiteSpace c = false ∧ c ≠ '\x7b' ∧ (c == '"' || c == '\'') = false ∧ (c == '#') = false := by
    unfold sign? at hs
    split at hs <;> first | decide | cases hs
  obtain ⟨hw, hb, hq, hh⟩ := hc
  refine scans_lexeme hw hb (fun p => ⟨p.after c, ?_⟩) h
  simp only [lexeme, beq_eq_false_iff_ne.mpr hb, hq, hh, hd, hs, Bool.false_eq_true, if_false]

theorem scans_doubleSign (hd : doubleSign? c (some d) = some u) (h : Scans cs us) :
    Scans (c :: d :: cs) (u :: us) := by
  have hc : Unicode.isWhiteSpace c = false ∧ c ≠ '\x7b' ∧ (c == '"' || c == '\'') = false ∧ (c == '#') = false := by
    unfold doubleSign? at hd
    split at hd
    · rename_i hc
      obtain rfl : c = '+' := by simpa using (Bool.and_eq_true_iff.mp hc).1
      decide
    · split at hd
      · rename_i hc
        obtain rfl : c = '*' := by simpa using (Bool.and_eq_true_iff.mp hc).1
        decide
      · cases hd
  obtain ⟨hw, hb, hq, hh⟩ := hc
  refine scans_lexeme hw hb (fun p => ⟨(p.after c).after c, ?_⟩) h
  simp only [lexeme, beq_eq_false_iff_ne.mpr hb, hq, hh, List.head?_cons, hd, Bool.false_eq_true, if_false,
    List.tail_cons]

theorem takeWhile_dropWhile_append {q : Char → Bool} (hds : ∀ d ∈ ds, q d = true) (hcs : ∀ c ∈ cs.head?, q c = false) :
    (ds ++ cs).takeWhile q = ds ∧ (ds ++ cs).dropWhile q = cs := by
  rw [List.takeWhile_append_of_pos hds, List.dropWhile_append_of_pos hds]
  cases cs with
  | nil => simp
  | cons c cs =>
    have hc : q c = false := hcs c rfl
    simp [hc]

theorem piece_append {q : Char → Bool} (hds : ∀ d ∈ ds, q d = true) (hcs : ∀ c ∈ cs.head?, q c = false)
    (p : Position) : piece q (ds ++ cs) p = (ds, ⟨cs, p.afterAll ds⟩) := by
  obtain ⟨htake, hdrop⟩ := takeWhile_dropWhile_append hds hcs
  rw [piece, htake, hdrop]

theorem scans_hex {digits : List Char} (hd : digits ≠ []) (hall : ∀ d ∈ digits, Text.Hex.isDigit d = true)
    (hcs : ∀ c ∈ cs.head?, Text.Hex.isDigit c = false) (h : Scans cs us) :
    Scans ('#' :: (digits ++ cs)) (.hex (String.ofList digits) :: us) := by
  refine scans_lexeme (by decide) (by decide) (fun p => ⟨(p.after '#').afterAll digits, ?_⟩) h
  simp only [lexeme, piece_append hall hcs, if_neg hd]
  rfl

theorem scans_ident (hw : Unicode.isWhiteSpace c = false) (hc : isIdentStart c = true)
    (hds : ∀ d ∈ ds, isIdentChar d = true) (hcs : ∀ c ∈ cs.head?, isIdentChar c = false) (h : Scans cs us) :
    Scans (c :: (ds ++ cs)) (.ident (String.ofList (c :: ds)) :: us) := by
  have hne {d : Char} (hd : isIdentStart d = false) : c ≠ d := by
    rintro rfl
    rw [hc] at hd
    cases hd
  have hbrace : c ≠ '\x7b' := hne (by decide)
  have hdouble {o : Option Char} : doubleSign? c o = none := by
    simp [doubleSign?, hne (d := '+') (by decide), hne (d := '*') (by decide)]
  have hsign : sign? c = none := by
    unfold sign?
    split <;> first | rfl | exact absurd hc (by decide)
  refine scans_lexeme hw hbrace (fun p => ⟨(p.after c).afterAll ds, ?_⟩) h
  simp only [lexeme, piece_append hds hcs, hdouble, hsign, if_pos hc]
  simp [hbrace, hne (d := '"') (by decide), hne (d := '\'') (by decide), hne (d := '#') (by decide)]

/-- What stands between the quotes of a string: each quote in it twice. -/
def doubling (quote : Char) (ds : List Char) : List Char :=
  ds.flatMap fun d => if d = quote then [quote, quote] else [d]

theorem quoted_doubling {quote : Char} (hcs : cs.head? ≠ some quote) (hds : '\n' ∉ ds) (p : Position) :
    ∃ q, quoted quote (doubling quote ds ++ quote :: cs) p = .ok (ds, ⟨cs, q⟩) := by
  induction ds generalizing p with
  | nil =>
    rw [doubling, List.flatMap_nil, List.nil_append]
    cases cs with
    | nil => exact ⟨p.after quote, by simp [quoted]⟩
    | cons c cs =>
      have hc : c ≠ quote := by simpa using hcs
      exact ⟨p.after quote, by simp [quoted, hc]⟩
  | cons d ds ih =>
    have hd : d ≠ '\n' := fun h => hds (h ▸ List.mem_cons_self ..)
    have ih := ih fun h => hds (List.mem_cons_of_mem _ h)
    rw [doubling, List.flatMap_cons, List.append_assoc, ← doubling]
    by_cases hq : d = quote
    · obtain ⟨q, hq'⟩ := ih ((p.after quote).after quote)
      refine ⟨q, ?_⟩
      rw [if_pos hq, hq]
      simp [quoted, hq']
    · obtain ⟨q, hq'⟩ := ih (p.after d)
      -- the text goes on, since the closing quote is still to come
      obtain ⟨e, es, hes⟩ := List.exists_cons_of_ne_nil (l := doubling quote ds ++ quote :: cs) (by simp)
      refine ⟨q, ?_⟩
      rw [if_neg hq, hes]
      rw [hes] at hq'
      simp [quoted, hq, hd, hq']

/-- A string between quotes of either kind. -/
theorem scans_quoted {quote : Char} (hquote : quote = '"' ∨ quote = '\'') (hcs : cs.head? ≠ some quote)
    (hds : '\n' ∉ ds) (h : Scans cs us) :
    Scans (quote :: (doubling quote ds ++ quote :: cs)) (.string (String.ofList ds) :: us) := by
  have hc : Unicode.isWhiteSpace quote = false ∧ quote ≠ '\x7b' ∧ (quote == '"' || quote == '\'') = true := by
    rcases hquote with rfl | rfl <;> decide
  obtain ⟨hw, hb, hq⟩ := hc
  refine scans_lexeme hw hb (fun p => ?_) h
  obtain ⟨q, hq'⟩ := quoted_doubling hcs hds (p.after quote)
  refine ⟨q, ?_⟩
  simp only [lexeme, beq_eq_false_iff_ne.mpr hb, Bool.false_eq_true, if_false, hq, if_true, hq', Except.map]

theorem scans_string (hcs : cs.head? ≠ some '"') (hds : '\n' ∉ s.toList) (h : Scans cs us) :
    Scans ((Literal.quoted s).render.toList ++ cs) (.string s :: us) := by
  have hdoubled (d : Char) : (Literal.doubled d).toList = if d = '"' then ['"', '"'] else [d] := by
    by_cases hd : d = '"'
    · rw [hd]
      decide
    · simp [Literal.doubled, hd]
  have hrender : (Literal.quoted s).render.toList ++ cs = '"' :: (doubling '"' s.toList ++ '"' :: cs) := by
    simp [Literal.render, String.toList_join, List.flatMap_map, doubling, hdoubled]
  have hscan := scans_quoted (.inl rfl) hcs hds h
  rwa [hrender, ← String.ofList_toList (s := s), String.toList_ofList]

/-! ### Texts that spell tokens -/

def Spells (B : Char → Prop) (s : String) (us : List Token) : Prop :=
  ∀ cs vs, (∀ c ∈ cs.head?, B c) → Scans cs vs → Scans (s.toList ++ cs) (us ++ vs)

theorem spells_empty : Spells B "" [] := fun _ _ _ h => h

namespace Spells

theorem mono (h : Spells B s us) (hB : ∀ c, C c → B c) : Spells C s us := fun cs vs hc =>
  h cs vs fun c hcs => hB c (hc c hcs)

theorem append (hs : Spells B s us) (ht : Spells B t vs) (hB : ∀ c ∈ t.toList.head?, B c) :
    Spells B (s ++ t) (us ++ vs) := by
  intro cs ws hc h
  rw [String.toList_append, List.append_assoc, List.append_assoc]
  refine hs _ _ ?_ (ht cs ws hc h)
  cases hnil : t.toList with
  | nil => exact hc
  | cons d ds =>
    rw [hnil] at hB
    exact hB

/-- The text that follows decides whether the first goes on. -/
theorem append_of_head (hs : Spells B s us) (ht : Spells C t vs) (hc : t.toList.head? = some c) (hB : B c) :
    Spells C (s ++ t) (us ++ vs) := by
  intro cs ws hcs h
  rw [String.toList_append, List.append_assoc, List.append_assoc]
  obtain ⟨ds, hds⟩ := List.head?_eq_some_iff.mp hc
  refine hs _ _ ?_ (ht cs ws hcs h)
  rw [hds]
  rintro d ⟨⟩
  exact hB

theorem append_any (hs : Spells (fun _ => True) s us) (ht : Spells C t vs) : Spells C (s ++ t) (us ++ vs) := by
  intro cs ws hcs h
  rw [String.toList_append, List.append_assoc, List.append_assoc]
  exact hs _ _ (fun _ _ => trivial) (ht cs ws hcs h)

theorem cons (hs : Spells (fun _ => True) s [u]) (ht : Spells C t vs) : Spells C (s ++ t) (u :: vs) :=
  hs.append_any ht

theorem cons_of_head (hs : Spells B s [u]) (ht : Spells C t vs) (hc : t.toList.head? = some c) (hB : B c) :
    Spells C (s ++ t) (u :: vs) :=
  hs.append_of_head ht hc hB

end Spells

theorem spells_sign (hs : s.toList = [c]) (hc : sign? c = some u) (hd : ∀ d, B d → doubleSign? c (some d) = none) :
    Spells B s [u] := by
  intro cs vs hcs h
  rw [hs]
  refine scans_sign hc ?_ h
  cases cs with
  | nil => simp [doubleSign?]
  | cons d ds => exact hd d (hcs d rfl)

theorem spells_plus : Spells (· ≠ '+') "+" [.plus] :=
  spells_sign (c := '+') rfl rfl fun d hd => by simp [doubleSign?, hd]

theorem spells_star : Spells (· ≠ '*') "*" [.star] :=
  spells_sign (c := '*') rfl rfl fun d hd => by simp [doubleSign?, hd]

theorem spells_sign_blank (hs : s.toList = [c, ' ']) (hc : sign? c = some u) : Spells B s [u] := by
  intro cs vs hcs h
  rw [hs]
  exact scans_sign hc (by simp [doubleSign?]) (scans_blank (by decide) h)

theorem spells_doubleSign (hs : s.toList = [c, d]) (hd : doubleSign? c (some d) = some u) : Spells B s [u] := by
  intro cs vs hcs h
  rw [hs]
  exact scans_doubleSign hd h

/-- A character that may follow a factor in a text. -/
def EndsFactor (c : Char) : Prop :=
  c ∈ [',', ';', '.', ')', ']']

/-- A character that may follow a term in a text. -/
def EndsTerm (c : Char) : Prop :=
  c ∈ [',', ';', '.', ')', ']', '?', '*', '+']

theorem EndsFactor.endsTerm (h : EndsFactor c) : EndsTerm c := by
  unfold EndsFactor at h
  unfold EndsTerm
  simp only [List.mem_cons, List.not_mem_nil, or_false] at h ⊢
  tauto

theorem EndsFactor.ne (h : EndsFactor c) : c ≠ '*' ∧ c ≠ '+' := by
  constructor
  all_goals
    rintro rfl
    simp [EndsFactor] at h

theorem EndsTerm.spec (h : EndsTerm c) : isIdentChar c = false ∧ Text.Hex.isDigit c = false ∧ c ≠ '"' := by
  unfold EndsTerm at h
  simp only [List.mem_cons, List.not_mem_nil, or_false] at h
  rcases h with rfl | rfl | rfl | rfl | rfl | rfl | rfl | rfl <;> decide

theorem spells_hex (n : Nat) :
    Spells (fun c => Text.Hex.isDigit c = false) ("#" ++ Text.Hex.lower n) [.hex (Text.Hex.lower n)] := by
  intro cs vs hcs h
  have hscan := scans_hex (Text.Hex.lower_ne_empty (n := n)) (fun d => Text.Hex.isDigit_of_mem_lower) hcs h
  rw [String.ofList_toList] at hscan
  simpa [String.toList_append] using hscan

theorem spells_string (hs : '\n' ∉ s.toList) : Spells (· ≠ '"') (Literal.quoted s).render [.string s] := by
  intro cs vs hcs h
  refine scans_string ?_ hs h
  intro hq
  exact hcs '"' hq rfl

theorem spells_quoted {quote : Char} (hquote : quote = '"' ∨ quote = '\'') (hds : '\n' ∉ ds) :
    Spells (· ≠ quote) (String.ofList (quote :: (doubling quote ds ++ [quote]))) [.string (String.ofList ds)] := by
  intro cs vs hcs h
  have hhead : cs.head? ≠ some quote := fun hq => hcs quote hq rfl
  rw [String.toList_ofList, List.cons_append, List.append_assoc]
  exact scans_quoted hquote hhead hds h

/-! ### Tokens that can be spelled -/

theorem spells_ident {name : String} (h : IsSpelt (.ident name)) :
    Spells (fun c => isIdentChar c = false) name [.ident name] := by
  obtain ⟨c, ds, rfl, hw, hc, hds⟩ := h
  intro cs vs hcs hs
  rw [String.toList_ofList]
  exact scans_ident hw hc hds hcs hs

end Ixml.Token
