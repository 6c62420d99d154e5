import Ixml.Proofs.Token.Writing

/-!
# The tokens of a text cover it

A scan ends because every token takes characters away, and it loses nothing: the text is a gap, the spelling of the
first token, a gap, and so on up to a last gap, where a gap holds blanks and comments only. Each token is placed where its
spelling begins, as the line and the column are counted from the start of the text (`exists_isCovering`).
-/

namespace Ixml

namespace Text

variable {cs : List Char}

theorem exists_trimChars (cs : List Char) :
    ∃ bs ds, IsBlank bs ∧ IsBlank ds ∧ cs = bs ++ trimChars cs ++ ds := by
  have hblank {ds : List Char} : IsBlank (ds.takeWhile Unicode.isWhiteSpace) :=
    List.all_eq_true.mp List.all_takeWhile
  refine ⟨cs.takeWhile Unicode.isWhiteSpace, ((trimLeft cs).reverse.takeWhile Unicode.isWhiteSpace).reverse, hblank,
    fun c hc => hblank c (List.mem_reverse.mp hc), ?_⟩
  rw [List.append_assoc, trimChars, trimLeft, trimLeft, ← List.reverse_append, List.takeWhile_append_dropWhile,
    List.reverse_reverse, List.takeWhile_append_dropWhile]

theorem isWhiteSpace_of_head?_trimLeft {c : Char} (hc : (trimLeft cs).head? = some c) :
    Unicode.isWhiteSpace c = false := by
  have hhead := List.head?_dropWhile_not Unicode.isWhiteSpace cs
  rw [← trimLeft, hc] at hhead
  simpa using hhead

theorem trimChars_trimChars (cs : List Char) : trimChars (trimChars cs) = trimChars cs := by
  refine trimChars_eq_self_iff.mpr ⟨trimLeft_eq_self fun c hc => ?_, ?_⟩
  · -- what is left begins as it does before its end is trimmed
    have hsuffix : trimLeft (trimLeft cs).reverse <:+ (trimLeft cs).reverse := List.dropWhile_suffix _
    have hpre : trimChars cs <+: trimLeft cs := by
      rw [← List.reverse_suffix, trimChars, List.reverse_reverse]
      exact hsuffix
    obtain ⟨ds, hds⟩ := hpre
    obtain ⟨es, hes⟩ := List.head?_eq_some_iff.mp hc
    have hhead : (trimLeft cs).head? = some c := by rw [← hds, hes, List.cons_append, List.head?_cons]
    exact isWhiteSpace_of_head?_trimLeft hhead
  · rw [trimChars, List.reverse_reverse]
    exact trimLeft_eq_self fun c hc => isWhiteSpace_of_head?_trimLeft hc

namespace Position

variable {p q r : Position}

/-- The place `p` comes before `q`: on an earlier line, or on the same line further to the left. -/
def IsBefore (p q : Position) : Prop :=
  p.line < q.line ∨ p.line = q.line ∧ p.column < q.column

theorem IsBefore.trans (h : p.IsBefore q) (h' : q.IsBefore r) : p.IsBefore r := by
  unfold IsBefore at *
  omega

theorem isBefore_after (p : Position) (c : Char) : p.IsBefore (p.after c) := by
  unfold after IsBefore
  split <;> simp

theorem isBefore_afterAll (p : Position) (hcs : cs ≠ []) : p.IsBefore (p.afterAll cs) := by
  induction cs generalizing p with
  | nil => exact absurd rfl hcs
  | cons c cs ih =>
    cases cs with
    | nil => exact isBefore_after p c
    | cons d ds => exact (isBefore_after p c).trans (ih _ nofun)

end Position

end Text

/-- What is left of the characters `cs`, which begin at `p`, when `ds` have been taken from the front. -/
structure Cursor.Follows (k : Cursor) (ds cs : List Char) (p : Text.Position) : Prop where
  rest : cs = ds ++ k.rest
  position : k.position = p.afterAll ds

namespace Token

open Text (IsBlank Position trimChars)
open Unicode (isWhiteSpace)

variable {c quote : Char} {cs body : List Char} {p : Position} {k : Cursor} {t : Token} {ts : List Placed}

/-! ### What a scanner takes -/

/-- A comment is passed over up to the brace that closes it, at whatever depth it stands. -/
theorem exists_balanced_of_skipComment {depth : Nat} {cs : List Char} {p : Position} (h : skipComment depth cs p = .ok k) :
    ∃ ds es, Balanced ds ∧ cs = ds ++ '\x7d' :: es ∧ skipComment depth ('\x7d' :: es) (p.afterAll ds) = .ok k := by
  match cs with
  | [] => simp [skipComment, failure] at h
  | c :: cs =>
    by_cases hopen : c = '\x7b'
    · -- an inner comment is passed over first, and then what follows it
      subst hopen
      rw [skipComment_open] at h
      obtain ⟨ds, es, hds, rfl, hin⟩ := exists_balanced_of_skipComment h
      rw [skipComment_close] at hin
      obtain ⟨ds', es', hds', rfl, hout⟩ := exists_balanced_of_skipComment hin
      refine ⟨'\x7b' :: (ds ++ '\x7d' :: ds'), es', .nested hds hds', by simp, ?_⟩
      rwa [Position.afterAll_cons, Position.afterAll_append, Position.afterAll_cons]
    · by_cases hclose : c = '\x7d'
      · exact ⟨[], cs, .nil, by rw [hclose, List.nil_append], by rwa [← hclose]⟩
      · rw [skipComment_char hopen hclose] at h
        obtain ⟨ds, es, hds, rfl, hout⟩ := exists_balanced_of_skipComment h
        exact ⟨c :: ds, es, .char hopen hclose hds, rfl, hout⟩
termination_by cs.length

theorem pragmaBody_follows (h : pragmaBody cs p = .ok (body, k)) :
    k.Follows (body ++ [']', '\x7d']) cs p ∧ ¬[']', '\x7d'] <:+: body := by
  fun_induction pragmaBody cs p generalizing body k with
  | case1 => simp [failure] at h
  | case2 c cs p hc =>
    simp only [Bool.and_eq_true, beq_iff_eq] at hc
    obtain ⟨rfl, hd⟩ := hc
    obtain ⟨es, rfl⟩ := List.head?_eq_some_iff.mp hd
    cases h
    exact ⟨⟨rfl, rfl⟩, by simp⟩
  | case3 c cs p hc body' k' _ ih =>
    cases h
    obtain ⟨⟨hrest, hpos⟩, hclose⟩ := ih ‹_›
    refine ⟨⟨by rw [hrest]; rfl, hpos⟩, fun hinfix => ?_⟩
    rcases List.infix_cons_iff.mp hinfix with hpre | hinfix
    · -- the pragma would have ended here
      obtain ⟨es, hes⟩ := hpre
      obtain ⟨rfl, rfl⟩ := List.cons.inj hes
      rw [hrest] at hc
      exact hc (by simp)
    · exact hclose hinfix
  | case4 => simp at h

theorem quoted_follows {s : List Char} (hq : quote ≠ '\n') (h : quoted quote cs p = .ok (s, k)) :
    k.Follows (doubling quote s ++ [quote]) cs p := by
  fun_induction quoted quote cs p generalizing s k with
  | case1 => simp [failure] at h
  | case2 c p hc =>
    cases h
    exact ⟨by simp_all [doubling], by simp_all [doubling]⟩
  | case3 => simp [failure] at h
  | case4 => simp [failure] at h
  | case5 c d cs p hc hd s' k' _ ih =>
    cases h
    obtain ⟨hrest, hpos⟩ := ih ‹_›
    simp only [beq_iff_eq] at hc hd
    subst hc hd
    refine ⟨?_, ?_⟩
    · rw [hrest]
      simp [doubling]
    · rw [hpos]
      simp [doubling]
  | case6 => simp at h
  | case7 c d cs p hc hd =>
    cases h
    simp only [beq_iff_eq] at hc
    subst hc
    exact ⟨rfl, rfl⟩
  | case8 => simp [failure] at h
  | case9 c d cs p hc hd s' k' _ ih =>
    cases h
    obtain ⟨hrest, hpos⟩ := ih ‹_›
    simp only [beq_iff_eq] at hc
    refine ⟨?_, ?_⟩
    · rw [hrest]
      simp [doubling, hc]
    · rw [hpos]
      simp [doubling, hc]
  | case10 => simp at h

theorem piece_follows (q : Char → Bool) (cs : List Char) (p : Position) :
    (piece q cs p).2.Follows (piece q cs p).1 cs p :=
  ⟨List.takeWhile_append_dropWhile.symm, rfl⟩

/-! ### What a token is spelled like -/

/-- The first word of the body of a pragma is its name, and the rest without the blanks around it its data. -/
theorem exists_pragmaBody_of_pragmaOf (h : pragmaOf body p = .ok t) : ∃ name data, name ≠ [] ∧
    (∀ c ∈ name, isWhiteSpace c = false) ∧ trimChars data = data ∧ PragmaBody name data body ∧
      t = .pragma (String.ofList name) (String.ofList data) := by
  unfold pragmaOf at h
  dsimp only at h
  split at h
  · simp [failure] at h
  rename_i hne
  cases h
  obtain ⟨pre, post, hpre, hpost, hbody⟩ := Text.exists_trimChars body
  have hparts := List.takeWhile_append_dropWhile (p := (!isWhiteSpace ·)) (l := trimChars body)
  generalize hname : (trimChars body).takeWhile (!isWhiteSpace ·) = name at hne hparts ⊢
  generalize hrest : (trimChars body).dropWhile (!isWhiteSpace ·) = rest at hparts ⊢
  have htrim := Text.trimChars_trimChars rest
  obtain ⟨gap, post', hgap, hpost', hdata⟩ := Text.exists_trimChars rest
  generalize trimChars rest = data at htrim hdata ⊢
  subst hdata
  have hend : IsBlank (post' ++ post) := List.forall_mem_append.mpr ⟨hpost', hpost⟩
  refine ⟨name, data, hne, fun c hc => ?_, htrim, ?_, rfl⟩
  · rw [← hname] at hc
    simpa using List.all_eq_true.mp List.all_takeWhile c hc
  · rw [hbody, ← hparts]
    by_cases hnil : data = []
    · have hblank : IsBlank (gap ++ (post' ++ post)) := List.forall_mem_append.mpr ⟨hgap, hend⟩
      have hsplit : pre ++ (name ++ (gap ++ data ++ post')) ++ post = pre ++ name ++ (gap ++ (post' ++ post)) := by
        simp [hnil]
      rw [hsplit, hnil]
      exact .name hpre hblank
    · -- what follows the name begins with a blank, and the data do not
      have hgapne : gap ≠ [] := by
        rintro rfl
        obtain ⟨d, ds, rfl⟩ := List.exists_cons_of_ne_nil hnil
        have hleft : (Text.trimLeft (d :: ds)).head? = some d := by
          rw [(Text.trimChars_eq_self_iff.mp htrim).1, List.head?_cons]
        have hd : isWhiteSpace d = false := Text.isWhiteSpace_of_head?_trimLeft hleft
        have hhead := List.head?_dropWhile_not (!isWhiteSpace ·) (trimChars body)
        rw [hrest] at hhead
        simp [hd] at hhead
      have hsplit : pre ++ (name ++ (gap ++ data ++ post')) ++ post = pre ++ (name ++ gap ++ data) ++ (post' ++ post) := by
        simp
      rw [hsplit]
      exact .data hpre hgap hgapne hnil hend

theorem signText_of_sign? (h : sign? c = some t) : signText t = some [c] := by
  unfold sign? at h
  split at h <;> cases h <;> rfl

theorem signText_of_doubleSign? {o : Option Char} (h : doubleSign? c o = some t) :
    o = some c ∧ signText t = some [c, c] := by
  unfold doubleSign? at h
  split at h
  · rename_i hc
    simp only [Bool.and_eq_true, beq_iff_eq] at hc
    obtain ⟨rfl, rfl⟩ := hc
    cases h
    exact ⟨rfl, rfl⟩
  · split at h
    · rename_i hc
      simp only [Bool.and_eq_true, beq_iff_eq] at hc
      obtain ⟨rfl, rfl⟩ := hc
      cases h
      exact ⟨rfl, rfl⟩
    · cases h

/-- A token is taken with one of its spellings. A brace opens a pragma only if a bracket follows it. -/
theorem exists_spelling_of_lexeme (hbrace : c = '\x7b' → cs.head? = some '[') (h : lexeme c cs p = .ok (t, k)) :
    ∃ ds, Spelling t ds ∧ k.Follows ds (c :: cs) p := by
  rcases lexeme_cases h with ⟨rfl, body, hb, hp⟩ | ⟨hquote, s, hq, rfl⟩ | ⟨rfl, digits, hne, hk, rfl⟩ | ⟨ht, rfl⟩ |
    ⟨ht, rfl⟩ | ⟨hs, name, hk, rfl⟩
  · obtain ⟨cs, rfl⟩ := List.head?_eq_some_iff.mp (hbrace rfl)
    obtain ⟨⟨hrest, hpos⟩, hclose⟩ := pragmaBody_follows hb
    obtain ⟨name, data, hne, hname, hdata, hbody, rfl⟩ := exists_pragmaBody_of_pragmaOf hp
    rw [List.tail_cons] at hrest
    exact ⟨_, .pragma hne hname hdata hbody hclose, by rw [hrest]; rfl, hpos⟩
  · have hline : c ≠ '\n' := by rcases hquote with rfl | rfl <;> decide
    obtain ⟨hrest, hpos⟩ := quoted_follows hline hq
    exact ⟨_, .string hquote (newline_notMem_of_quoted hline hq), by rw [hrest]; rfl, hpos⟩
  · obtain ⟨rfl, rfl⟩ := Prod.mk.inj hk
    obtain ⟨hrest, hpos⟩ := piece_follows Text.Hex.isDigit cs (p.after '#')
    exact ⟨_, .hex hne (List.all_eq_true.mp List.all_takeWhile), congrArg ('#' :: ·) hrest, hpos⟩
  · obtain ⟨hnext, htext⟩ := signText_of_doubleSign? ht
    obtain ⟨cs, rfl⟩ := List.head?_eq_some_iff.mp hnext
    exact ⟨_, .sign htext, rfl, rfl⟩
  · exact ⟨_, .sign (signText_of_sign? ht), rfl, rfl⟩
  · obtain ⟨rfl, rfl⟩ := Prod.mk.inj hk
    obtain ⟨hrest, hpos⟩ := piece_follows isIdentChar cs (p.after c)
    exact ⟨_, .ident hs (List.all_eq_true.mp List.all_takeWhile), congrArg (c :: ·) hrest, hpos⟩

theorem Spelling.ne_nil (h : Spelling t cs) : cs ≠ [] := by
  cases h with
  | sign h =>
    rcases sign?_of_signText h with ⟨c, rfl, -⟩ | ⟨c, rfl, -⟩ <;> exact nofun
  | _ => exact nofun

/-! ### The whole text -/

/-- What may stand before, between and after tokens: nothing, or blanks and comments. -/
def IsGap (cs : List Char) : Prop :=
  cs = [] ∨ Separation cs

theorem IsGap.append {ds : List Char} (h : IsGap cs) (h' : IsGap ds) : IsGap (cs ++ ds) := by
  rcases h with rfl | h
  · exact h'
  · rcases h' with rfl | h'
    · rw [List.append_nil]
      exact .inr h
    · exact .inr (.append h h')

/-- `Covers p ts cs` says that the characters `cs`, which begin at `p`, are gaps and the spellings of the tokens `ts`
between them, each of them at its place. -/
inductive Covers : Position → List Placed → List Char → Prop
  | nil {p : Position} {gap : List Char} (hgap : IsGap gap) : Covers p [] gap
  | cons {p : Position} {t : Token} {ts : List Placed} {gap ds cs : List Char} (hgap : IsGap gap) (ht : Spelling t ds)
      (hts : Covers ((p.afterAll gap).afterAll ds) ts cs) : Covers p (⟨t, p.afterAll gap⟩ :: ts) (gap ++ ds ++ cs)

/-- The first gap may be longer. -/
theorem IsGap.covers {gap : List Char} (hgap : IsGap gap) (h : Covers (p.afterAll gap) ts cs) :
    Covers p ts (gap ++ cs) := by
  generalize hq : p.afterAll gap = q at h
  cases h with
  | nil hgap' => exact .nil (hgap.append hgap')
  | @cons _ t ts gap' ds cs hgap' ht hts =>
    subst hq
    rw [← Position.afterAll_append p gap gap'] at hts ⊢
    rw [← List.append_assoc, ← List.append_assoc]
    exact .cons (hgap.append hgap') ht hts

theorem covers_of_tokens (h : tokens k = .ok ts) : Covers k.position ts k.rest := by
  fun_induction tokens k generalizing ts with
  | case1 =>
    cases h
    exact .nil (.inl rfl)
  | case2 c cs p hw ih =>
    have hgap : IsGap [c] := .inr (.blank hw)
    exact hgap.covers (ih h)
  | case3 c cs p _ hc k hk ih =>
    simp only [Bool.and_eq_true, beq_iff_eq, bne_iff_ne, ne_eq] at hc
    obtain ⟨rfl, hopen⟩ := hc
    obtain ⟨ds, es, hds, rfl, hend⟩ := exists_balanced_of_skipComment hk
    have hclose : skipComment 0 ('\x7d' :: es) ((p.after '\x7b').afterAll ds) =
        .ok ⟨es, ((p.after '\x7b').afterAll ds).after '\x7d'⟩ := rfl
    obtain rfl := Except.ok.inj (hclose.symm.trans hend)
    have hhead : ds.head? ≠ some '[' := by
      cases ds with
      | nil => simp
      | cons d ds => exact hopen
    have hgap : IsGap ('\x7b' :: (ds ++ ['\x7d'])) := .inr (.comment hds hhead)
    have hcovers : Covers p ts ('\x7b' :: (ds ++ ['\x7d']) ++ es) :=
      hgap.covers (by simpa [Position.afterAll_append] using ih h)
    simpa using hcovers
  | case4 => simp at h
  | case5 c cs p hw hc t k hl ts' hts ih =>
    cases h
    have hbrace : c = '\x7b' → cs.head? = some '[' := by
      rintro rfl
      simpa using hc
    obtain ⟨ds, hds, hrest, hpos⟩ := exists_spelling_of_lexeme hbrace hl
    have hih := ih hts
    rw [hpos] at hih
    have hnogap : IsGap [] := .inl rfl
    have hcovers := Covers.cons (p := p) hnogap hds hih
    rwa [List.nil_append, ← hrest] at hcovers
  | case6 => simp at h
  | case7 => simp at h

/-- A token as it stands in a text: the gap in front of it, and its spelling. -/
structure Segment where
  gap : List Char
  spelling : List Char

namespace Segment

def chars (x : Segment) : List Char :=
  x.gap ++ x.spelling

/-- How many characters there are before the spelling of each segment, when there are `n` before the first segment. -/
def offsets : Nat → List Segment → List Nat
  | _, [] => []
  | n, x :: xs => (n + x.gap.length) :: offsets (n + x.chars.length) xs

end Segment

/-- A text is gaps and the spellings of the tokens `ts` between them. -/
structure IsCovering (text : String) (ts : List Placed) (xs : List Segment) (last : List Char) : Prop where
  chars : text.toList = xs.flatMap Segment.chars ++ last
  gaps : (∀ x ∈ xs, IsGap x.gap) ∧ IsGap last
  spellings : List.Forall₂ (fun x t => Spelling t.token x.spelling) xs ts
  /-- Each token is placed where its spelling begins. -/
  positions : ts.map (·.position) = (Segment.offsets 0 xs).map (Text.positionAt text)
  ordered : ts.Pairwise fun t u => t.position.IsBefore u.position

/-- The segments of a text behind the characters `before`. -/
theorem Covers.exists_segments {before : List Char} (h : Covers (Position.start.afterAll before) ts cs) :
    ∃ xs last, cs = xs.flatMap Segment.chars ++ last ∧ ((∀ x ∈ xs, IsGap x.gap) ∧ IsGap last) ∧
      List.Forall₂ (fun x t => Spelling t.token x.spelling) xs ts ∧
      ts.map (·.position) = (Segment.offsets before.length xs).map fun n => Position.start.afterAll ((before ++ cs).take n) := by
  generalize hp : Position.start.afterAll before = p at h
  induction h generalizing before with
  | nil hgap => exact ⟨[], _, rfl, ⟨by simp, hgap⟩, .nil, rfl⟩
  | @cons p t ts gap ds cs hgap ht _ ih =>
    subst hp
    have hstart : Position.start.afterAll (before ++ gap ++ ds) =
        ((Position.start.afterAll before).afterAll gap).afterAll ds := by
      rw [Position.afterAll_append, Position.afterAll_append]
    obtain ⟨xs, last, hchars, hgaps, hspellings, hpositions⟩ := ih hstart
    refine ⟨⟨gap, ds⟩ :: xs, last, ?_, ⟨List.forall_mem_cons.mpr ⟨hgap, hgaps.1⟩, hgaps.2⟩, .cons ht hspellings, ?_⟩
    · simp [Segment.chars, hchars]
    · have hplace : (before ++ (gap ++ ds ++ cs)).take (before.length + gap.length) = before ++ gap := by
        rw [← List.append_assoc, ← List.append_assoc, List.append_assoc, ← List.length_append,
          List.take_left]
      rw [List.map_cons, Segment.offsets, List.map_cons, hplace, Position.afterAll_append, hpositions]
      simp [Segment.chars]

theorem Covers.pairwise (h : Covers p ts cs) :
    (∀ t ∈ ts, p = t.position ∨ p.IsBefore t.position) ∧ ts.Pairwise fun t u => t.position.IsBefore u.position := by
  induction h with
  | nil => exact ⟨by simp, .nil⟩
  | @cons p t ts gap ds cs hgap ht _ ih =>
    obtain ⟨hfirst, hts⟩ := ih
    have hgo : p = p.afterAll gap ∨ p.IsBefore (p.afterAll gap) := by
      cases gap with
      | nil => exact .inl rfl
      | cons c gap => exact .inr (Position.isBefore_afterAll p nofun)
    have hnext : ∀ u ∈ ts, (p.afterAll gap).IsBefore u.position := fun u hu => by
      have hds := Position.isBefore_afterAll (p.afterAll gap) ht.ne_nil
      rcases hfirst u hu with heq | hlt
      · rwa [heq] at hds
      · exact hds.trans hlt
    refine ⟨List.forall_mem_cons.mpr ⟨hgo, fun u hu => .inr ?_⟩, List.pairwise_cons.mpr ⟨hnext, hts⟩⟩
    rcases hgo with heq | hlt
    · rw [heq]
      exact hnext u hu
    · exact hlt.trans (hnext u hu)

/-- A text of which the tokens are found consists of gaps and the spellings of the tokens, and each token is placed
where the line and the column are that are counted up to its spelling. -/
theorem exists_isCovering {text : String} (h : scan text = .ok ts) : ∃ xs last, IsCovering text ts xs last := by
  have hcovers : Covers (Position.start.afterAll []) ts text.toList := covers_of_tokens h
  obtain ⟨xs, last, hchars, hgaps, hspellings, hpositions⟩ := hcovers.exists_segments
  exact ⟨xs, last, hchars, hgaps, hspellings, hpositions, hcovers.pairwise.2⟩

/-- Comments may be nested and go over lines, and a character of several bytes takes one column. -/
theorem exists_isCovering_comment : ∃ ts xs last, scan "é\x7b-\x7b\n\x7d\n\x7d :'a'." = .ok ts ∧
    IsCovering "é\x7b-\x7b\n\x7d\n\x7d :'a'." ts xs last ∧
    ts = [⟨.ident "é", ⟨1, 1⟩⟩, ⟨.colon, ⟨3, 3⟩⟩, ⟨.string "a", ⟨3, 4⟩⟩, ⟨.period, ⟨3, 7⟩⟩] := by
  have hscan : scan "é\x7b-\x7b\n\x7d\n\x7d :'a'." =
      .ok [⟨.ident "é", ⟨1, 1⟩⟩, ⟨.colon, ⟨3, 3⟩⟩, ⟨.string "a", ⟨3, 4⟩⟩, ⟨.period, ⟨3, 7⟩⟩] := by decide +kernel
  obtain ⟨xs, last, h⟩ := exists_isCovering hscan
  exact ⟨_, xs, last, hscan, h, rfl⟩

end Token

end Ixml
