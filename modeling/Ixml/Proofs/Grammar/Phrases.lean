import Ixml.Grammar.Reader

/-!
# The phrases of the notation

The productions of the notation, over lists of tokens and without any reader: `IsGrammar J ts F` says that the
tokens `ts` are derived as a whole grammar, and that `F` are the trees of the derivation.

A plus sign after a factor may either repeat it or open an insertion that is next to it. The derivations are
therefore told apart by `J`, which says what may be next to a factor: anything (`free`), or no plus sign after
a factor that could take it (`greedy`). Whatever is derived freely is derived greedily too, with the signs
regrouped (`IsGrammar.exists_greedy`).
-/

namespace Ixml

def Mark.token : Mark → Token
  | element => .caret
  | attr => .atSign
  | hidden => .minus

def TerminalMark.token : TerminalMark → Token
  | keep => .caret
  | hidden => .minus

theorem Literal.ofHex_eq_ok_iff {digits : String} {a : Literal} :
    ofHex digits = .ok a ↔ ∃ c : Char, a = .coded c ∧ Text.Hex.read? digits.toList = some c.toNat := by
  unfold ofHex
  cases hd : Text.Hex.read? digits.toList with
  | none => simp
  | some n =>
    dsimp only
    by_cases hn : n.isValidChar
    · rw [dif_pos hn]
      constructor
      · intro h
        obtain rfl := Except.ok.inj h
        exact ⟨_, rfl, rfl⟩
      · rintro ⟨c, rfl, hc⟩
        obtain rfl := Option.some.inj hc
        exact congrArg (Except.ok ∘ coded) (Char.ext rfl)
    · rw [dif_neg hn]
      constructor
      · exact nofun
      · rintro ⟨c, -, hc⟩
        obtain rfl := Option.some.inj hc
        exact absurd c.valid hn

namespace Phrase

def pragmaTokens (ps : List (String × String)) : List Token :=
  ps.map fun p => .pragma p.1 p.2

def pragmaTrees (ps : List (String × String)) : List Tree :=
  ps.map fun p => .ofKind (.pragma p.1 p.2)

theorem pragmaTokens_append (ps qs : List (String × String)) :
    pragmaTokens (ps ++ qs) = pragmaTokens ps ++ pragmaTokens qs :=
  List.map_append

theorem pragmaTrees_append (ps qs : List (String × String)) :
    pragmaTrees (ps ++ qs) = pragmaTrees ps ++ pragmaTrees qs :=
  List.map_append

def markTokens (m : Option Mark) : List Token :=
  (m.map Mark.token).toList

def terminalMarkTokens (m : Option TerminalMark) : List Token :=
  (m.map TerminalMark.token).toList

/-- A string, or a numeral of a character. -/
inductive IsValue : Token → Literal → Prop
  | string (s : String) : IsValue (.string s) (.quoted s)
  | hex {digits : String} {c : Char} (h : Text.Hex.read? digits.toList = some c.toNat) :
      IsValue (.hex digits) (.coded c)

inductive IsMember : List Token → Tree → Prop
  | category {code : String} (h : CharSet.isCategoryCode code = true) :
      IsMember [.ident code] (.ofKind (.charClass code))
  | value {u : Token} {a : Literal} (h : IsValue u a) : IsMember [u] (.ofKind (.literal .keep a))
  | range {u v : Token} {a b : Literal} {x y : Char} (ha : IsValue u a) (hb : IsValue v b)
      (hx : a.text = String.singleton x) (hy : b.text = String.singleton y) (h : x ≤ y) :
      IsMember [u, .minus, v] (.ofKind (.range x y))

inductive IsMembers : List Token → List Tree → Prop
  | nil : IsMembers [] []
  | cons {us vs : List Token} {m : Tree} {ms : List Tree} (hm : IsMember us m) (hms : IsMembers vs ms) :
      IsMembers (us ++ vs) (m :: ms)
  | ended {us vs : List Token} {s : Token} {m : Tree} {ms : List Tree} (hm : IsMember us m)
      (hs : s = .semicolon ∨ s = .pipe ∨ s = .comma) (hms : IsMembers vs ms) :
      IsMembers (us ++ s :: vs) (m :: ms)

/-- A sign that ends a factor. -/
inductive IsSign : Token → Construct → Prop
  | question : IsSign .question .option
  | star : IsSign .star .repeat0
  | plus : IsSign .plus .repeat1

/-- A sign that a separator follows. -/
inductive IsDoubleSign : Token → Construct → Prop
  | doubleStar : IsDoubleSign .doubleStar .repeat0
  | doublePlus : IsDoubleSign .doublePlus .repeat1

/-- What may be next to a factor in an alternative without commas. A factor is open if it could still take a
sign, because none ends it. -/
abbrev Joint := Bool → List Token → Prop

def free : Joint := fun _ _ => True

/-- An open factor takes a plus sign that is next to it. -/
def greedy : Joint := fun isOpen us => isOpen = true → us.head? ≠ some .plus

section Productions

variable (J : Joint)

mutual

inductive IsAlts : List Token → Tree → Prop
  | mk {us vs : List Token} {t : Tree} {ts : List Tree} (ht : IsAlt us t) (hts : IsFurtherAlts vs ts) :
      IsAlts (us ++ vs) (.ofKind .alts (t :: ts))

/-- Alternatives, each after a bar. -/
inductive IsFurtherAlts : List Token → List Tree → Prop
  | nil : IsFurtherAlts [] []
  | cons {s : Token} {us vs : List Token} {t : Tree} {ts : List Tree} (hs : s = .pipe ∨ s = .semicolon)
      (ht : IsAlt us t) (hts : IsFurtherAlts vs ts) : IsFurtherAlts (s :: us ++ vs) (t :: ts)

/-- An alternative: factors with commas between them, or factors next to each other. -/
inductive IsAlt : List Token → Tree → Prop
  | commas {e : Bool} {us vs : List Token} {t : Tree} {ts : List Tree} (ht : IsFactor e us t)
      (hts : IsCommaFactors vs ts) : IsAlt (us ++ vs) (.ofKind .alt (t :: ts))
  | adjacent {us : List Token} {ts : List Tree} (hts : IsFactors us ts) : IsAlt us (.ofKind .alt ts)

/-- Factors, each after a comma. -/
inductive IsCommaFactors : List Token → List Tree → Prop
  | nil : IsCommaFactors [] []
  | cons {e : Bool} {us vs : List Token} {t : Tree} {ts : List Tree} (ht : IsFactor e us t)
      (hts : IsCommaFactors vs ts) : IsCommaFactors (.comma :: us ++ vs) (t :: ts)

/-- Factors next to each other. -/
inductive IsFactors : List Token → List Tree → Prop
  | nil : IsFactors [] []
  | cons {e : Bool} {us vs : List Token} {t : Tree} {ts : List Tree} (ht : IsFactor e us t) (hj : J e vs)
      (hts : IsFactors vs ts) : IsFactors (us ++ vs) (t :: ts)

/-- A factor, and whether it is open. Its pragmas are put below its term, after what is there. -/
inductive IsFactor : Bool → List Token → Tree → Prop
  | bare {us : List Token} {t : Tree} (ps : List (String × String)) (ht : IsTerm us t) :
      IsFactor true (pragmaTokens ps ++ us) (t.append (pragmaTrees ps))
  | signed {us : List Token} {t : Tree} {s : Token} {k : Construct} (ps : List (String × String))
      (ht : IsTerm us t) (hs : IsSign s k) :
      IsFactor false (pragmaTokens ps ++ us ++ [s]) (.ofKind k [t.append (pragmaTrees ps)])
  | separated {e : Bool} {us vs : List Token} {t u : Tree} {s : Token} {k : Construct}
      (ps : List (String × String)) (ht : IsTerm us t) (hs : IsDoubleSign s k) (hu : IsFactor e vs u) :
      IsFactor e (pragmaTokens ps ++ us ++ s :: vs)
        (.ofKind k [t.append (pragmaTrees ps), .ofKind .sep [u]])

inductive IsTerm : List Token → Tree → Prop
  | group {us : List Token} {t : Tree} (ht : IsAlts us t) : IsTerm (.leftParen :: us ++ [.rightParen]) t
  | insertion {u : Token} {a : Literal} (h : IsValue u a) : IsTerm [.plus, u] (.ofKind (.insertion a))
  | nonterminal (m : Option Mark) (name : String) :
      IsTerm (markTokens m ++ [.ident name]) (.named (.nonterminal m none) name)
  | literal {u : Token} {a : Literal} (m : Option TerminalMark) (h : IsValue u a) :
      IsTerm (terminalMarkTokens m ++ [u]) (.ofKind (.literal (m.getD .keep) a))
  | inclusion {us : List Token} {ms : List Tree} (m : Option TerminalMark) (h : IsMembers us ms) :
      IsTerm (terminalMarkTokens m ++ .leftBracket :: us ++ [.rightBracket])
        (.ofKind (.inclusion (m.getD .keep)) ms)
  | exclusion {us : List Token} {ms : List Tree} (m : Option TerminalMark) (h : IsMembers us ms) :
      IsTerm (terminalMarkTokens m ++ .tilde :: .leftBracket :: us ++ [.rightBracket])
        (.ofKind (.exclusion (m.getD .keep)) ms)

end

/-- A rule with the trees of its pragmas, which are put before its body. -/
inductive IsRule (ps : List Tree) : List Token → Tree → Prop
  | mk {s : Token} {us : List Token} {t : Tree} (m : Option Mark) (name : String)
      (hs : s = .colon ∨ s = .equals) (ht : IsAlts J us t) :
      IsRule ps (markTokens m ++ .ident name :: s :: us ++ [.period])
        (.named (.rule (m.getD .element) none) name (ps ++ [t]))

/-- Rules, at least one, with the pragmas before each and after the last. Among the pragmas before a rule the
declarations do not belong to it. -/
inductive IsRules : List Token → List Tree → Prop
  | one {us : List Token} {t : Tree} (ps qs : List (String × String))
      (ht : IsRule J ((pragmaTrees ps).filter (!Reader.isDeclaration ·)) us t) :
      IsRules (pragmaTokens ps ++ us ++ pragmaTokens qs)
        ((pragmaTrees ps).filter Reader.isDeclaration ++ t :: pragmaTrees qs)
  | cons {us vs : List Token} {t : Tree} {ts : List Tree} (ps : List (String × String))
      (ht : IsRule J ((pragmaTrees ps).filter (!Reader.isDeclaration ·)) us t) (hts : IsRules vs ts) :
      IsRules (pragmaTokens ps ++ us ++ vs) ((pragmaTrees ps).filter Reader.isDeclaration ++ t :: ts)

/-- A whole grammar, with a prolog or without. Without one, the pragmas at the front are those of the first
rule. -/
inductive IsGrammar : List Token → List Tree → Prop
  | plain {us : List Token} {ts : List Tree} (hts : IsRules J us ts) : IsGrammar us ts
  | prolog {us : List Token} {ts : List Tree} (ps qs : List (String × String)) (v : String)
      (hts : IsRules J us ts) :
      IsGrammar
        (pragmaTokens ps ++ .ident "ixml" :: .ident "version" :: .string v :: pragmaTokens qs ++ .period :: us)
        (.ofKind .prolog [.ofKind (.version v)] :: pragmaTrees (ps ++ qs) ++ ts)

end Productions

/-! ### Derivations with other joints -/

variable {J K : Joint}

mutual

theorem IsAlts.mono (hJ : ∀ e us, J e us → K e us) : ∀ {us t}, IsAlts J us t → IsAlts K us t
  | _, _, .mk ht hts => .mk (ht.mono hJ) (hts.mono hJ)

theorem IsFurtherAlts.mono (hJ : ∀ e us, J e us → K e us) : ∀ {us ts}, IsFurtherAlts J us ts → IsFurtherAlts K us ts
  | _, _, .nil => .nil
  | _, _, .cons hs ht hts => .cons hs (ht.mono hJ) (hts.mono hJ)

theorem IsAlt.mono (hJ : ∀ e us, J e us → K e us) : ∀ {us t}, IsAlt J us t → IsAlt K us t
  | _, _, .commas ht hts => .commas (ht.mono hJ) (hts.mono hJ)
  | _, _, .adjacent hts => .adjacent (hts.mono hJ)

theorem IsCommaFactors.mono (hJ : ∀ e us, J e us → K e us) : ∀ {us ts}, IsCommaFactors J us ts → IsCommaFactors K us ts
  | _, _, .nil => .nil
  | _, _, .cons ht hts => .cons (ht.mono hJ) (hts.mono hJ)

theorem IsFactors.mono (hJ : ∀ e us, J e us → K e us) : ∀ {us ts}, IsFactors J us ts → IsFactors K us ts
  | _, _, .nil => .nil
  | _, _, .cons ht hj hts => .cons (ht.mono hJ) (hJ _ _ hj) (hts.mono hJ)

theorem IsFactor.mono (hJ : ∀ e us, J e us → K e us) : ∀ {e us t}, IsFactor J e us t → IsFactor K e us t
  | _, _, _, .bare ps ht => .bare ps (ht.mono hJ)
  | _, _, _, .signed ps ht hs => .signed ps (ht.mono hJ) hs
  | _, _, _, .separated ps ht hs hu => .separated ps (ht.mono hJ) hs (hu.mono hJ)

theorem IsTerm.mono (hJ : ∀ e us, J e us → K e us) : ∀ {us t}, IsTerm J us t → IsTerm K us t
  | _, _, .group ht => .group (ht.mono hJ)
  | _, _, .insertion h => .insertion h
  | _, _, .nonterminal m name => .nonterminal m name
  | _, _, .literal m h => .literal m h
  | _, _, .inclusion m h => .inclusion m h
  | _, _, .exclusion m h => .exclusion m h

end

theorem IsRule.mono {ps : List Tree} {us : List Token} {t : Tree} (hJ : ∀ e us, J e us → K e us) (h : IsRule J ps us t) :
    IsRule K ps us t := by
  obtain ⟨m, name, hs, ht⟩ := h
  exact .mk m name hs (ht.mono hJ)

theorem IsRules.mono {us : List Token} {ts : List Tree} (hJ : ∀ e us, J e us → K e us) (h : IsRules J us ts) :
    IsRules K us ts := by
  induction h with
  | one ps qs ht => exact .one ps qs (ht.mono hJ)
  | cons ps ht hts ih => exact .cons ps (ht.mono hJ) ih

theorem IsGrammar.mono {us : List Token} {ts : List Tree} (hJ : ∀ e us, J e us → K e us) (h : IsGrammar J us ts) :
    IsGrammar K us ts := by
  cases h with
  | plain hts => exact .plain (hts.mono hJ)
  | prolog ps qs v hts => exact .prolog ps qs v (hts.mono hJ)

/-! ### How terms and factors begin -/

/-- A token that a term may begin with. -/
def opensTerm : Token → Bool
  | .leftParen | .plus | .atSign | .minus | .caret | .ident _ | .string _ | .hex _ | .leftBracket | .tilde => true
  | _ => false

variable {e : Bool} {u : Token} {us vs : List Token} {t : Tree} {ts : List Tree}

theorem opensTerm_spec (h : opensTerm u = true) :
    Reader.pragmaTree? u = none ∧ Reader.isAltEnd u = false ∧ u ≠ .comma ∧ (Reader.suffix? u = none ∨ u = .plus) := by
  cases u <;> simp_all [opensTerm, Reader.pragmaTree?, Reader.isAltEnd, Reader.suffix?]

theorem IsValue.opensTerm {a : Literal} (h : IsValue u a) : opensTerm u = true := by
  cases h <;> rfl

theorem IsTerm.exists_cons (h : IsTerm J us t) : ∃ u vs, us = u :: vs ∧ opensTerm u = true := by
  cases h with
  | group ht => exact ⟨_, _, rfl, rfl⟩
  | insertion h => exact ⟨_, _, rfl, rfl⟩
  | nonterminal m name => rcases m with _ | _ | _ | _ <;> exact ⟨_, _, rfl, rfl⟩
  | literal m h =>
    rcases m with _ | _ | _
    · exact ⟨_, _, rfl, h.opensTerm⟩
    · exact ⟨_, _, rfl, rfl⟩
    · exact ⟨_, _, rfl, rfl⟩
  | inclusion m h => rcases m with _ | _ | _ <;> exact ⟨_, _, rfl, rfl⟩
  | exclusion m h => rcases m with _ | _ | _ <;> exact ⟨_, _, rfl, rfl⟩

/-- Only an insertion begins with a plus sign, and its value is a term as well. -/
theorem IsTerm.of_plus (h : IsTerm J (.plus :: us) t) : ∃ t', IsTerm J us t' := by
  generalize hws : Token.plus :: us = ws at h
  cases h with
  | insertion h =>
    obtain ⟨-, rfl⟩ := List.cons.inj hws
    exact ⟨_, .literal none h⟩
  | group ht => cases hws
  | nonterminal m name => rcases m with _ | _ | _ | _ <;> cases hws
  | literal m h => rcases m with _ | _ | _ <;> cases hws; cases h
  | inclusion m h => rcases m with _ | _ | _ <;> cases hws
  | exclusion m h => rcases m with _ | _ | _ <;> cases hws

/-- A factor begins neither like what ends one, except with a plus sign, nor like what ends an alternative. -/
theorem IsFactor.exists_cons (h : IsFactor J e us t) : ∃ u vs, us = u :: vs ∧ Reader.isAltEnd u = false ∧
    u ≠ .comma ∧ (Reader.suffix? u = none ∨ u = .plus) := by
  have hopens {ps : List (String × String)} {us vs : List Token} {t : Tree} (ht : IsTerm J us t) :
      ∃ u ws, pragmaTokens ps ++ us ++ vs = u :: ws ∧ Reader.isAltEnd u = false ∧ u ≠ .comma ∧
        (Reader.suffix? u = none ∨ u = .plus) := by
    cases ps with
    | nil =>
      obtain ⟨u, us, rfl, hu⟩ := ht.exists_cons
      exact ⟨u, us ++ vs, rfl, (opensTerm_spec hu).2⟩
    | cons p ps => exact ⟨_, _, rfl, rfl, nofun, .inl rfl⟩
  cases h with
  | bare ps ht =>
    have h := @hopens ps _ [] _ ht
    rwa [List.append_nil] at h
  | signed ps ht hs => exact hopens ht
  | separated ps ht hs hu => exact hopens ht

theorem IsRule.exists_cons {ps : List Tree} (h : IsRule J ps us t) :
    ∃ u vs, us = u :: vs ∧ Reader.pragmaTree? u = none := by
  obtain ⟨m, name, -, -⟩ := h
  rcases m with _ | _ | _ | _ <;> exact ⟨_, _, rfl, rfl⟩

theorem IsRule.isRule {ps : List Tree} (h : IsRule J ps us t) : t.label.kind.isRule = true := by
  obtain ⟨m, name, hs, ht⟩ := h
  rfl

theorem IsRules.exists_isRule (h : IsRules J us ts) : ∃ t ∈ ts, t.label.kind.isRule = true := by
  cases h with
  | one ps qs hr => exact ⟨_, List.mem_append_right _ (List.mem_cons_self ..), hr.isRule⟩
  | cons ps hr hts => exact ⟨_, List.mem_append_right _ (List.mem_cons_self ..), hr.isRule⟩

/-! ### Regrouping plus signs -/

theorem IsFactor.close : ∀ {us t}, IsFactor J true us t → ∃ t', IsFactor J false (us ++ [.plus]) t'
  | _, _, .bare ps ht => ⟨_, .signed ps ht .plus⟩
  | _, _, .separated ps ht hs hu => by
    obtain ⟨u', hu'⟩ := hu.close
    have := IsFactor.separated ps ht hs hu'
    exact ⟨_, by simpa using this⟩

theorem IsFactor.of_plus (h : IsFactor J e (.plus :: us) t) : ∃ t', IsFactor J e us t' := by
  have hterm {ps : List (String × String)} {vs ws : List Token} {t : Tree} (ht : IsTerm J vs t)
      (hws : Token.plus :: us = pragmaTokens ps ++ vs ++ ws) : ps = [] ∧ ∃ vs' t', IsTerm J vs' t' ∧ us = vs' ++ ws := by
    cases ps with
    | cons p ps => cases hws
    | nil =>
      obtain ⟨v, vs, rfl, -⟩ := ht.exists_cons
      obtain ⟨rfl, rfl⟩ := List.cons.inj hws
      obtain ⟨t', ht'⟩ := ht.of_plus
      exact ⟨rfl, _, t', ht', rfl⟩
  generalize hws : Token.plus :: us = ws at h
  cases h with
  | bare ps ht =>
    rw [← List.append_nil (_ ++ _)] at hws
    obtain ⟨-, vs, t', ht', rfl⟩ := hterm ht hws
    rw [List.append_nil]
    exact ⟨_, .bare [] ht'⟩
  | signed ps ht hs =>
    obtain ⟨-, vs, t', ht', rfl⟩ := hterm ht hws
    exact ⟨_, .signed [] ht' hs⟩
  | separated ps ht hs hu =>
    obtain ⟨-, vs, t', ht', rfl⟩ := hterm ht hws
    exact ⟨_, .separated [] ht' hs hu⟩

mutual

theorem IsAlts.exists_greedy : ∀ {us t}, IsAlts J us t → ∃ t', IsAlts greedy us t'
  | _, _, .mk ht hts =>
    have ⟨_, ht⟩ := ht.exists_greedy
    have ⟨_, hts⟩ := hts.exists_greedy
    ⟨_, .mk ht hts⟩

theorem IsFurtherAlts.exists_greedy : ∀ {us ts}, IsFurtherAlts J us ts → ∃ ts', IsFurtherAlts greedy us ts'
  | _, _, .nil => ⟨_, .nil⟩
  | _, _, .cons hs ht hts =>
    have ⟨_, ht⟩ := ht.exists_greedy
    have ⟨_, hts⟩ := hts.exists_greedy
    ⟨_, .cons hs ht hts⟩

theorem IsAlt.exists_greedy : ∀ {us t}, IsAlt J us t → ∃ t', IsAlt greedy us t'
  | _, _, .commas ht hts =>
    have ⟨_, ht⟩ := ht.exists_greedy
    have ⟨_, hts⟩ := hts.exists_greedy
    ⟨_, .commas ht hts⟩
  | _, _, .adjacent hts =>
    have ⟨_, hts⟩ := hts.exists_greedy
    ⟨_, .adjacent hts⟩

theorem IsCommaFactors.exists_greedy : ∀ {us ts}, IsCommaFactors J us ts → ∃ ts', IsCommaFactors greedy us ts'
  | _, _, .nil => ⟨_, .nil⟩
  | _, _, .cons ht hts =>
    have ⟨_, ht⟩ := ht.exists_greedy
    have ⟨_, hts⟩ := hts.exists_greedy
    ⟨_, .cons ht hts⟩

theorem IsFactors.exists_greedy : ∀ {us ts}, IsFactors J us ts → ∃ ts', IsFactors greedy us ts'
  | _, _, .nil => ⟨_, .nil⟩
  | _, _, .cons ht _ hts =>
    have ⟨_, ht⟩ := ht.exists_greedy
    hts.exists_greedy_after ht

/-- Factors that are next to one that has been regrouped: if that one is open and a plus sign is next to it, it
takes the sign, and what is left of the factor that began with the sign is next to it. -/
theorem IsFactors.exists_greedy_after : ∀ {vs ts}, IsFactors J vs ts → ∀ {e us t}, IsFactor greedy e us t →
    ∃ ts', IsFactors greedy (us ++ vs) ts'
  | _, _, .nil, _, _, _, hf => ⟨_, .cons hf (by simp [greedy]) .nil⟩
  | _, _, @IsFactors.cons _ _ vs ws _ _ ht _ hts, e, us, _, hf => by
    obtain ⟨t, ht⟩ := ht.exists_greedy
    by_cases hplus : e = true ∧ vs.head? = some .plus
    · obtain ⟨rfl, hhead⟩ := hplus
      obtain ⟨vs, rfl⟩ := List.head?_eq_some_iff.mp hhead
      obtain ⟨f, hf⟩ := hf.close
      obtain ⟨t', ht'⟩ := ht.of_plus
      obtain ⟨ts', hts'⟩ := hts.exists_greedy_after ht'
      refine ⟨f :: ts', ?_⟩
      have := IsFactors.cons hf (by simp [greedy]) hts'
      simpa using this
    · obtain ⟨ts', hts'⟩ := hts.exists_greedy_after ht
      obtain ⟨v, vs, rfl, -⟩ := ht.exists_cons
      exact ⟨_, .cons hf (fun he hhead => hplus ⟨he, hhead⟩) hts'⟩

theorem IsFactor.exists_greedy : ∀ {e us t}, IsFactor J e us t → ∃ t', IsFactor greedy e us t'
  | _, _, _, .bare ps ht =>
    have ⟨_, ht⟩ := ht.exists_greedy
    ⟨_, .bare ps ht⟩
  | _, _, _, .signed ps ht hs =>
    have ⟨_, ht⟩ := ht.exists_greedy
    ⟨_, .signed ps ht hs⟩
  | _, _, _, .separated ps ht hs hu =>
    have ⟨_, ht⟩ := ht.exists_greedy
    have ⟨_, hu⟩ := hu.exists_greedy
    ⟨_, .separated ps ht hs hu⟩

theorem IsTerm.exists_greedy : ∀ {us t}, IsTerm J us t → ∃ t', IsTerm greedy us t'
  | _, _, .group ht =>
    have ⟨_, ht⟩ := ht.exists_greedy
    ⟨_, .group ht⟩
  | _, _, .insertion h => ⟨_, .insertion h⟩
  | _, _, .nonterminal m name => ⟨_, .nonterminal m name⟩
  | _, _, .literal m h => ⟨_, .literal m h⟩
  | _, _, .inclusion m h => ⟨_, .inclusion m h⟩
  | _, _, .exclusion m h => ⟨_, .exclusion m h⟩

end

theorem IsRule.exists_greedy {ps : List Tree} (h : IsRule J ps us t) : ∃ t', IsRule greedy ps us t' := by
  obtain ⟨m, name, hs, ht⟩ := h
  obtain ⟨t', ht'⟩ := ht.exists_greedy
  exact ⟨_, .mk m name hs ht'⟩

theorem IsRules.exists_greedy (h : IsRules J us ts) : ∃ ts', IsRules greedy us ts' := by
  induction h with
  | one ps qs ht =>
    obtain ⟨t', ht'⟩ := ht.exists_greedy
    exact ⟨_, .one ps qs ht'⟩
  | cons ps ht hts ih =>
    obtain ⟨t', ht'⟩ := ht.exists_greedy
    obtain ⟨ts', hts'⟩ := ih
    exact ⟨_, .cons ps ht' hts'⟩

theorem IsGrammar.exists_greedy (h : IsGrammar J us ts) : ∃ ts', IsGrammar greedy us ts' := by
  cases h with
  | plain hts =>
    obtain ⟨ts', hts'⟩ := hts.exists_greedy
    exact ⟨_, .plain hts'⟩
  | prolog ps qs v hts =>
    obtain ⟨ts', hts'⟩ := hts.exists_greedy
    exact ⟨_, .prolog ps qs v hts'⟩

end Phrase

end Ixml
