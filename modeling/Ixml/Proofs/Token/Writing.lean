import Ixml.Proofs.Text.Blank
import Ixml.Proofs.Token.Spelling

/-!
# Writing tokens

A token can be spelled in several ways (`Spelling`): a string between quotes of either kind, a pragma with any blanks
around its name and its data. Tokens are written one after the other with blanks and comments between them
(`Writing`). However tokens are written, a scan finds just these tokens again (`exists_scan_of_writing`).
-/

namespace Ixml.Token

open Text (IsBlank Position trimChars)
open Unicode (isWhiteSpace)

variable {c : Char} {cs ds gap body : List Char} {name data : List Char} {u v : Token} {us vs : List Token}

/-! ### Separators -/

/-- Every opening brace has its closing brace, and the other way round. -/
inductive Balanced : List Char → Prop
  | nil : Balanced []
  | char {c : Char} {cs : List Char} (hopen : c ≠ '\x7b') (hclose : c ≠ '\x7d') (h : Balanced cs) : Balanced (c :: cs)
  | nested {cs ds : List Char} (h : Balanced cs) (h' : Balanced ds) : Balanced ('\x7b' :: (cs ++ '\x7d' :: ds))

/-- What may stand between tokens: blanks and comments, at least one. A comment is in braces and does not open as a
pragma does. -/
inductive Separation : List Char → Prop
  | blank {c : Char} (h : isWhiteSpace c = true) : Separation [c]
  | comment {cs : List Char} (h : Balanced cs) (hopen : cs.head? ≠ some '[') : Separation ('\x7b' :: (cs ++ ['\x7d']))
  | append {cs ds : List Char} (h : Separation cs) (h' : Separation ds) : Separation (cs ++ ds)

theorem skipComment_open (depth : Nat) (cs : List Char) (p : Position) :
    skipComment depth ('\x7b' :: cs) p = skipComment (depth + 1) cs (p.after '\x7b') := by
  rw [skipComment.eq_def]
  rfl

theorem skipComment_close (depth : Nat) (cs : List Char) (p : Position) :
    skipComment (depth + 1) ('\x7d' :: cs) p = skipComment depth cs (p.after '\x7d') := by
  rw [skipComment.eq_def]
  rfl

theorem skipComment_char (hopen : c ≠ '\x7b') (hclose : c ≠ '\x7d') (depth : Nat) (cs : List Char) (p : Position) :
    skipComment depth (c :: cs) p = skipComment depth cs (p.after c) := by
  rw [skipComment.eq_def]
  simp [hopen, hclose]

theorem skipComment_balanced (h : Balanced cs) (depth : Nat) (ds : List Char) (p : Position) :
    skipComment depth (cs ++ ds) p = skipComment depth ds (p.afterAll cs) := by
  induction h generalizing depth ds p with
  | nil => rfl
  | char hopen hclose _ ih => rw [List.cons_append, skipComment_char hopen hclose, ih, Position.afterAll_cons]
  | @nested cs es _ _ ih ih' =>
    -- the inner braces make the comment one level deeper and lead back
    rw [List.cons_append, List.append_assoc, skipComment_open, ih, List.cons_append, skipComment_close, ih',
      Position.afterAll_cons, Position.afterAll_append, Position.afterAll_cons]

theorem scans_comment (hb : Balanced cs) (hopen : cs.head? ≠ some '[') (h : Scans ds us) :
    Scans ('\x7b' :: (cs ++ '\x7d' :: ds)) us := by
  intro p
  have hskip : skipComment 0 (cs ++ '\x7d' :: ds) (p.after '\x7b') =
      .ok ⟨ds, ((p.after '\x7b').afterAll cs).after '\x7d'⟩ := by
    rw [skipComment_balanced hb]
    rfl
  obtain ⟨ts, hts, hus⟩ := h (((p.after '\x7b').afterAll cs).after '\x7d')
  refine ⟨ts, ?_, hus⟩
  have hhead : (cs ++ '\x7d' :: ds).head? ≠ some '[' := by
    cases cs with
    | nil => simp
    | cons c cs => exact hopen
  rw [tokens, if_neg (by decide), if_pos (by simpa using hhead)]
  split
  · next k hk =>
    obtain rfl := Except.ok.inj (hk.symm.trans hskip)
    exact hts
  · next e he => cases he.symm.trans hskip

theorem Separation.scans (hgap : Separation gap) (h : Scans cs us) : Scans (gap ++ cs) us := by
  induction hgap generalizing cs with
  | blank hc => exact scans_blank hc h
  | comment hb hopen =>
    rw [List.cons_append, List.append_assoc]
    exact scans_comment hb hopen h
  | append _ _ ih ih' =>
    rw [List.append_assoc]
    exact ih (ih' h)

/-- A character that separates tokens: a blank, or the brace that opens a comment. -/
def Separates (c : Char) : Prop :=
  isWhiteSpace c = true ∨ c = '\x7b'

theorem Separation.exists_cons (h : Separation gap) : ∃ c cs, gap = c :: cs ∧ Separates c := by
  induction h with
  | blank hc => exact ⟨_, [], rfl, .inl hc⟩
  | comment => exact ⟨_, _, rfl, .inr rfl⟩
  | append _ _ ih _ =>
    obtain ⟨c, cs, rfl, hc⟩ := ih
    exact ⟨c, _, rfl, hc⟩

theorem Separates.ne (h : Separates c) {d : Char} (hw : isWhiteSpace d = false) (hd : d ≠ '\x7b') : c ≠ d := by
  rintro rfl
  rcases h with h | h
  · rw [hw] at h
    cases h
  · exact hd h

theorem Separates.isIdentChar_eq_false (h : Separates c) : isIdentChar c = false := by
  have halnum : Unicode.isAlphanumeric c = false := by
    rcases h with h | rfl
    · exact Bool.eq_false_iff.mpr (Unicode.not_isAlphanumeric_of_isWhiteSpace h)
    · decide
  have hbar : c ≠ '_' := h.ne (by decide) (by decide)
  have hdash : c ≠ '-' := h.ne (by decide) (by decide)
  have hdot : c ≠ '\xb7' := h.ne (by decide) (by decide)
  simp [isIdentChar, halnum, hbar, hdash, hdot]

theorem Separates.isDigit_eq_false (h : Separates c) : Text.Hex.isDigit c = false := by
  rw [Bool.eq_false_iff]
  intro hd
  have halnum : c.isAlphanum = true := Text.Hex.isAlphanum_of_isDigit hd
  rcases h with h | rfl
  · exact Unicode.not_isAlphanum_of_isWhiteSpace h halnum
  · exact absurd halnum (by decide)

theorem isWhiteSpace_of_isIdentStart (hc : isIdentStart c = true) : isWhiteSpace c = false := by
  rw [Bool.eq_false_iff]
  intro hw
  have hident := (Separates.isIdentChar_eq_false (.inl hw)).symm.trans (isIdentChar_of_isIdentStart hc)
  cases hident

/-! ### Spellings -/

/-- The signs, and how they are written. -/
def signText : Token → Option (List Char)
  | colon => some [':']
  | equals => some ['=']
  | period => some ['.']
  | semicolon => some [';']
  | pipe => some ['|']
  | comma => some [',']
  | plus => some ['+']
  | doublePlus => some ['+', '+']
  | star => some ['*']
  | doubleStar => some ['*', '*']
  | question => some ['?']
  | atSign => some ['@']
  | minus => some ['-']
  | caret => some ['^']
  | tilde => some ['~']
  | leftParen => some ['(']
  | rightParen => some [')']
  | leftBracket => some ['[']
  | rightBracket => some [']']
  | ident _ | string _ | hex _ | pragma .. => none

/-- The body of a pragma: its name, and behind it the data if there is any, with blanks around both. -/
inductive PragmaBody (name : List Char) : List Char → List Char → Prop
  | name {pre post : List Char} (hpre : IsBlank pre) (hpost : IsBlank post) : PragmaBody name [] (pre ++ name ++ post)
  | data {data pre gap post : List Char} (hpre : IsBlank pre) (hgap : IsBlank gap) (hne : gap ≠ [])
      (hdata : data ≠ []) (hpost : IsBlank post) : PragmaBody name data (pre ++ (name ++ gap ++ data) ++ post)

/-- How a token can be written. -/
inductive Spelling : Token → List Char → Prop
  | ident {c : Char} {cs : List Char} (hc : isIdentStart c = true) (hcs : ∀ d ∈ cs, isIdentChar d = true) :
      Spelling (.ident (String.ofList (c :: cs))) (c :: cs)
  | string {quote : Char} {cs : List Char} (hquote : quote = '"' ∨ quote = '\'') (hcs : '\n' ∉ cs) :
      Spelling (.string (String.ofList cs)) (quote :: (doubling quote cs ++ [quote]))
  | hex {digits : List Char} (hne : digits ≠ []) (hdigits : ∀ d ∈ digits, Text.Hex.isDigit d = true) :
      Spelling (.hex (String.ofList digits)) ('#' :: digits)
  | pragma {name data body : List Char} (hne : name ≠ []) (hname : ∀ c ∈ name, isWhiteSpace c = false)
      (hdata : trimChars data = data) (hbody : PragmaBody name data body) (hclose : ¬[']', '\x7d'] <:+: body) :
      Spelling (.pragma (String.ofList name) (String.ofList data)) ('\x7b' :: '[' :: (body ++ [']', '\x7d']))
  | sign {u : Token} {cs : List Char} (h : signText u = some cs) : Spelling u cs

/-- Tokens one after the other, with something between each and the next that separates them. -/
inductive Writing : List Token → List Char → Prop
  | nil : Writing [] []
  | last {u : Token} {cs : List Char} (h : Spelling u cs) : Writing [u] cs
  | cons {u v : Token} {us : List Token} {cs gap ds : List Char} (h : Spelling u cs) (hgap : Separation gap)
      (hds : Writing (v :: us) ds) : Writing (u :: v :: us) (cs ++ gap ++ ds)

theorem pragmaBody_append (hclose : ¬[']', '\x7d'] <:+: body) (cs : List Char) (p : Position) :
    ∃ q, pragmaBody (body ++ ']' :: '\x7d' :: cs) p = .ok (body, ⟨cs, q⟩) := by
  induction body generalizing p with
  | nil => exact ⟨_, rfl⟩
  | cons c body ih =>
    obtain ⟨q, hq⟩ := ih (fun h => hclose (h.trans (List.suffix_cons c body).isInfix)) (p.after c)
    refine ⟨q, ?_⟩
    have hgo : (c == ']' && (body ++ ']' :: '\x7d' :: cs).head? == some '\x7d') = false := by
      cases body with
      | nil => simp
      | cons d body =>
        rw [Bool.eq_false_iff]
        intro h
        simp only [Bool.and_eq_true, beq_iff_eq, List.cons_append, List.head?_cons, Option.some.injEq] at h
        obtain ⟨rfl, rfl⟩ := h
        exact hclose ⟨[], body, rfl⟩
    rw [List.cons_append, pragmaBody, hgo, if_neg Bool.false_ne_true, hq]

/-- The body without the blanks around it is the name, and what follows it. -/
theorem PragmaBody.trimChars_eq (h : PragmaBody name data body) (hne : name ≠ [])
    (hname : ∀ c ∈ name, isWhiteSpace c = false) (hdata : trimChars data = data) :
    ∃ rest, trimChars body = name ++ rest ∧ (∀ c ∈ rest.head?, isWhiteSpace c = true) ∧ trimChars rest = data := by
  have hleft (rest : List Char) : Text.trimLeft (name ++ rest) = name ++ rest :=
    Text.trimLeft_append_of_eq_self (Text.trimLeft_eq_self fun c hc => hname c (List.mem_of_mem_head? hc)) hne rest
  cases h with
  | name hpre hpost =>
    have hrev : Text.trimLeft name.reverse = name.reverse :=
      Text.trimLeft_eq_self fun c hc => hname c (List.mem_reverse.mp (List.mem_of_mem_head? hc))
    have hcore : trimChars name = name := Text.trimChars_eq_self_iff.mpr ⟨by simpa using hleft [], hrev⟩
    refine ⟨[], ?_, by simp, hdata⟩
    rw [Text.trimChars_append hpre hpost hcore, List.append_nil]
  | @data _ pre gap post hpre hgap hgapne hdatane hpost =>
    obtain ⟨-, hright⟩ := Text.trimChars_eq_self_iff.mp hdata
    have hcore : trimChars (name ++ gap ++ data) = name ++ gap ++ data := by
      refine Text.trimChars_eq_self_iff.mpr ⟨by rw [List.append_assoc, hleft], ?_⟩
      rw [List.reverse_append, Text.trimLeft_append_of_eq_self hright (by simpa using hdatane)]
    refine ⟨gap ++ data, ?_, fun c hc => ?_, ?_⟩
    · rw [Text.trimChars_append hpre hpost hcore, List.append_assoc]
    · cases gap with
      | nil => exact absurd rfl hgapne
      | cons d gap =>
        obtain rfl : d = c := by simpa using hc
        exact hgap d (List.mem_cons_self ..)
    · have hnil : IsBlank [] := nofun
      have htrim := Text.trimChars_append hgap hnil hdata
      rwa [List.append_nil] at htrim

theorem pragmaOf_body (h : PragmaBody name data body) (hne : name ≠ []) (hname : ∀ c ∈ name, isWhiteSpace c = false)
    (hdata : trimChars data = data) (p : Position) :
    pragmaOf body p = .ok (.pragma (String.ofList name) (String.ofList data)) := by
  obtain ⟨rest, hbody, hrest, htrim⟩ := h.trimChars_eq hne hname hdata
  have hvisible : ∀ c ∈ name, (!isWhiteSpace c) = true := by simpa using hname
  have hblank : ∀ c ∈ rest.head?, (!isWhiteSpace c) = false := by simpa using hrest
  obtain ⟨htake, hdrop⟩ := takeWhile_dropWhile_append (q := (!isWhiteSpace ·)) hvisible hblank
  simp only [pragmaOf, hbody, htake, hdrop, htrim, if_neg hne]

theorem scans_pragma (hne : name ≠ []) (hname : ∀ c ∈ name, isWhiteSpace c = false) (hdata : trimChars data = data)
    (hbody : PragmaBody name data body) (hclose : ¬[']', '\x7d'] <:+: body) (h : Scans cs us) :
    Scans ('\x7b' :: '[' :: (body ++ ']' :: '\x7d' :: cs)) (.pragma (String.ofList name) (String.ofList data) :: us) := by
  intro p
  obtain ⟨q, hq⟩ := pragmaBody_append hclose cs ((p.after '\x7b').after '[')
  have hlex : lexeme '\x7b' ('[' :: (body ++ ']' :: '\x7d' :: cs)) p =
      .ok (.pragma (String.ofList name) (String.ofList data), ⟨cs, q⟩) := by
    rw [lexeme, if_pos (by decide), List.tail_cons, hq]
    simp only [pragmaOf_body hbody hne hname hdata, Except.map]
  obtain ⟨ts, hts, hus⟩ := h q
  refine ⟨⟨_, p⟩ :: ts, ?_, by rw [List.map_cons, hus]⟩
  rw [tokens, if_neg (by decide), if_neg (by simp)]
  split
  · next t k hk =>
    obtain ⟨rfl, rfl⟩ := Prod.mk.inj (Except.ok.inj (hk.symm.trans hlex))
    rw [hts]
  · next e he => cases he.symm.trans hlex

theorem sign?_of_signText (h : signText u = some cs) :
    (∃ c, cs = [c] ∧ sign? c = some u) ∨ ∃ c, cs = [c, c] ∧ doubleSign? c (some c) = some u := by
  cases u <;> simp only [signText, Option.some.injEq, reduceCtorEq] at h <;> subst h
  case doublePlus => exact .inr ⟨'+', rfl, rfl⟩
  case doubleStar => exact .inr ⟨'*', rfl, rfl⟩
  all_goals exact .inl ⟨_, rfl, rfl⟩

theorem scans_signText (hu : signText u = some ds) (hcs : ∀ c ∈ cs.head?, Separates c) (h : Scans cs us) :
    Scans (ds ++ cs) (u :: us) := by
  rcases sign?_of_signText hu with ⟨c, rfl, hc⟩ | ⟨c, rfl, hc⟩
  · refine scans_sign hc ?_ h
    cases cs with
    | nil => simp [doubleSign?]
    | cons d cs =>
      have hd : Separates d := hcs d rfl
      have hplus : d ≠ '+' := hd.ne (by decide) (by decide)
      have hstar : d ≠ '*' := hd.ne (by decide) (by decide)
      simp [doubleSign?, hplus, hstar]
  · exact scans_doubleSign hc h

/-- A spelling is split into its token wherever something that separates it follows. -/
theorem Spelling.scans (hu : Spelling u ds) (hcs : ∀ c ∈ cs.head?, Separates c) (h : Scans cs us) :
    Scans (ds ++ cs) (u :: us) := by
  cases hu with
  | ident hc hds =>
    exact scans_ident (isWhiteSpace_of_isIdentStart hc) hc hds (fun c hc => (hcs c hc).isIdentChar_eq_false) h
  | @string quote ds hquote hds =>
    have hhead : cs.head? ≠ some quote := by
      intro hq
      have hne : quote ≠ quote := (hcs quote hq).ne (by rcases hquote with rfl | rfl <;> decide)
        (by rcases hquote with rfl | rfl <;> decide)
      exact hne rfl
    rw [List.cons_append, List.append_assoc]
    exact scans_quoted hquote hhead hds h
  | hex hne hdigits => exact scans_hex hne hdigits (fun c hc => (hcs c hc).isDigit_eq_false) h
  | pragma hne hname hdata hbody hclose =>
    rw [List.cons_append, List.cons_append, List.append_assoc]
    exact scans_pragma hne hname hdata hbody hclose h
  | sign hs => exact scans_signText hs hcs h

theorem Writing.scans (h : Writing us cs) : Scans cs us := by
  induction h with
  | nil => exact scans_nil
  | last hu => simpa using hu.scans (by simp) scans_nil
  | @cons u v us cs gap ds hu hgap hds ih =>
    rw [List.append_assoc]
    refine hu.scans (fun c hc => ?_) (hgap.scans ih)
    obtain ⟨d, gap, rfl, hd⟩ := hgap.exists_cons
    obtain rfl : d = c := by simpa using hc
    exact hd

/-- However tokens are written, with blanks and comments between them, they are found again. -/
theorem exists_scan_of_writing {text : String} (h : Writing us text.toList) :
    ∃ ts, scan text = .ok ts ∧ ts.map (·.token) = us :=
  h.scans .start

/-- A comment in a comment separates, and so does the blank between signs that would be another sign together. -/
theorem exists_scan_of_writing_signs : ∃ ts, scan "a\x7b-\x7b\x7d\x7d++ +" = .ok ts ∧
    ts.map (·.token) = [.ident "a", .doublePlus, .plus] := by
  have hident : Spelling (.ident "a") ['a'] := .ident (by decide : isIdentStart 'a' = true) (List.forall_mem_nil _)
  have hcomment : Balanced ['-', '\x7b', '\x7d'] := .char (by decide) (by decide) (.nested .nil .nil)
  have hblank : Separation [' '] := .blank (by decide)
  have hsigns : Writing [.doublePlus, .plus] (['+', '+'] ++ [' '] ++ ['+']) :=
    .cons (.sign rfl) hblank (.last (.sign rfl))
  exact exists_scan_of_writing (.cons hident (.comment hcomment (by decide)) hsigns)

end Ixml.Token
