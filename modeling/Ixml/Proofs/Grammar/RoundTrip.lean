import Ixml.Proofs.Grammar.Acceptance
import Ixml.Proofs.Grammar.Text
import Ixml.Proofs.Simplify.Round
import Ixml.Proofs.Token.Spelling

/-!
# Reading back grammar text

The text of a tree spells tokens from which the same tree is derived, with commas between the factors of every
alternative. So the text of the rules of a grammar without pragmas is read as the same rules
(`exists_read_join_render`).
-/

namespace Ixml

namespace Phrase

open Token (Spells IsSpelt EndsTerm EndsFactor)

variable {B : Char → Prop} {J : Joint} {e : Bool} {us vs : List Token} {u : Token} {a : Literal} {t m : Tree}
  {ts ms : List Tree}

/-- No two factors are next to each other. -/
def never : Joint := fun _ _ => False

/-- The text spells tokens that have `P`. -/
def Spelled (B : Char → Prop) (s : String) (P : List Token → Prop) : Prop :=
  ∃ us, P us ∧ Spells B s us

theorem eq_nil_of_isSpelt {ps : List (String × String)} (h : ∀ u ∈ pragmaTokens ps, IsSpelt u) : ps = [] := by
  cases ps with
  | nil => rfl
  | cons p ps => exact (h _ (List.mem_cons_self ..)).elim

/-! ### Terminals -/

theorem IsValue.spelled (h : IsValue u a) (hu : IsSpelt u) :
    ∃ v, IsValue v a ∧ Spells EndsTerm a.render [v] := by
  cases h with
  | string s => exact ⟨_, .string s, (Token.spells_string hu).mono fun c hc => hc.spec.2.2⟩
  | @hex digits c h =>
    exact ⟨_, .hex (Text.Hex.read?_lower c.toNat), (Token.spells_hex c.toNat).mono fun c hc => hc.spec.2.1⟩

theorem exists_head_render (a : Literal) : ∃ c, a.render.toList.head? = some c ∧ c ≠ '+' := by
  cases a with
  | quoted s => exact ⟨'"', by simp [Literal.render], by decide⟩
  | coded c => exact ⟨'#', by simp [Literal.render], by decide⟩

theorem spells_minus : Spells B "-" [.minus] :=
  Token.spells_sign rfl rfl fun _ _ => rfl

theorem spelled_range {x y : Char} (h : x ≤ y) :
    Spelled EndsTerm ((Tree.ofKind (.range x y)).render true) (IsMember · (.ofKind (.range x y))) := by
  have htext : (Tree.ofKind (.range x y)).render true =
      "#" ++ Text.Hex.lower x.toNat ++ ("-" ++ ("#" ++ Text.Hex.lower y.toNat)) := by
    simp only [Tree.ofKind, Tree.render_node, Grammar.nodeText, show "-#" = "-" ++ "#" from rfl, String.append_assoc]
  refine ⟨_, .range (.hex (Text.Hex.read?_lower x.toNat)) (.hex (Text.Hex.read?_lower y.toNat)) rfl rfl h, ?_⟩
  rw [htext]
  have hy := (Token.spells_hex y.toNat).mono fun c (hc : EndsTerm c) => hc.spec.2.1
  exact (Token.spells_hex x.toNat).cons_of_head (spells_minus.cons hy) (c := '-') (by simp) (by decide)

theorem IsMember.spelled (h : IsMember us m) (hus : ∀ u ∈ us, IsSpelt u) :
    Spelled EndsTerm (m.render true) (IsMember · m) := by
  cases h with
  | @category code h =>
    refine ⟨_, .category h, ?_⟩
    exact (Token.spells_ident (hus _ (List.mem_cons_self ..))).mono fun c hc => hc.spec.1
  | @value u a h =>
    obtain ⟨v, hv, hs⟩ := h.spelled (hus _ (List.mem_cons_self ..))
    refine ⟨_, .value hv, ?_⟩
    simpa [Tree.ofKind, Grammar.nodeText, TerminalMark.optionalSign] using hs
  | range _ _ _ _ h => exact spelled_range h

theorem IsMembers.spelled (h : IsMembers us ms) (hus : ∀ u ∈ us, IsSpelt u) :
    ∀ m ∈ ms, Spelled EndsTerm (m.render true) (IsMember · m) := by
  induction h with
  | nil => simp
  | cons hm hms ih =>
    rw [List.forall_mem_append] at hus
    exact List.forall_mem_cons.mpr ⟨hm.spelled hus.1, ih hus.2⟩
  | ended hm hs hms ih =>
    rw [List.forall_mem_append, List.forall_mem_cons] at hus
    exact List.forall_mem_cons.mpr ⟨hm.spelled hus.1, ih hus.2.2⟩

theorem spells_semicolon : Spells B "; " [.semicolon] :=
  Token.spells_sign_blank rfl rfl

theorem spells_comma : Spells B ", " [.comma] :=
  Token.spells_sign_blank rfl rfl

theorem spelled_members {texts : List String} (h : List.Forall₂ (fun s m => Spelled EndsTerm s (IsMember · m)) texts ms) :
    Spelled EndsTerm ("; ".intercalate texts) (IsMembers · ms) := by
  induction h with
  | nil => exact ⟨[], .nil, Token.spells_empty⟩
  | @cons s m texts ms hm hms ih =>
    obtain ⟨us, hm, hs⟩ := hm
    cases hms with
    | nil =>
      refine ⟨us ++ [], .cons hm .nil, ?_⟩
      simpa using hs
    | cons =>
      obtain ⟨vs, hms, hvs⟩ := ih
      refine ⟨us ++ .semicolon :: vs, .ended hm (.inl rfl) hms, ?_⟩
      rw [String.intercalate_cons_cons, String.append_assoc]
      exact hs.append_of_head (spells_semicolon.cons hvs) (c := ';') (by simp) (by simp [EndsTerm])

theorem spelled_set {texts : List String} (h : List.Forall₂ (fun s m => Spelled EndsTerm s (IsMember · m)) texts ms) :
    ∃ us, IsMembers us ms ∧ Spells B (Grammar.setText texts) (.leftBracket :: us ++ [.rightBracket]) := by
  obtain ⟨us, hms, hs⟩ := spelled_members h
  refine ⟨us, hms, ?_⟩
  have hopen : Spells (fun _ => True) "[" [.leftBracket] := Token.spells_sign rfl rfl fun _ _ => rfl
  have hclose : Spells B "]" [.rightBracket] := Token.spells_sign rfl rfl fun _ _ => rfl
  rw [Grammar.setText, String.append_assoc]
  exact hopen.cons (hs.append_of_head hclose (c := ']') rfl (by simp [EndsTerm]))

theorem forall₂_render (h : ∀ m ∈ ms, Spelled EndsTerm (m.render true) (IsMember · m)) :
    List.Forall₂ (fun s m => Spelled EndsTerm s (IsMember · m)) (ms.map (Tree.render true)) ms :=
  List.forall₂_map_left_iff.mpr (List.forall₂_same.mpr h)

theorem spelled_terminalMark (n : Option TerminalMark) : ∃ n' : Option TerminalMark,
    n'.getD .keep = n.getD .keep ∧ Spells (fun _ => True) (n.getD .keep).optionalSign (terminalMarkTokens n') := by
  rcases n with _ | _ | _
  · exact ⟨none, rfl, Token.spells_empty⟩
  · exact ⟨none, rfl, Token.spells_empty⟩
  · exact ⟨some .hidden, rfl, spells_minus⟩

theorem spelled_mark (m : Option Mark) : Spells (fun _ => True)
    (match m with | some m => String.singleton m.sign | none => "") (markTokens m) := by
  rcases m with _ | _ | _ | _
  · exact Token.spells_empty
  all_goals exact Token.spells_sign rfl rfl fun _ _ => rfl

/-! ### Factors and alternatives -/

theorem intercalate_cons (s : String) (ss : List String) (sep : String) :
    sep.intercalate (s :: ss) = s ++ String.join (ss.map (sep ++ ·)) := by
  induction ss generalizing s with
  | nil => simp
  | cons s' ss ih => rw [String.intercalate_cons_cons, ih, List.map_cons, String.join_cons, String.append_assoc,
      String.append_assoc]

/-- The texts of some items, each after a separator. -/
def following (sep : String) (ts : List Tree) : String :=
  String.join ((ts.map (Tree.render true)).map (sep ++ ·))

theorem following_cons {sep : String} : following sep (t :: ts) = sep ++ (t.render true ++ following sep ts) := by
  rw [following, List.map_cons, List.map_cons, String.join_cons, String.append_assoc]
  rfl

section Lists

variable {sep : String} {d : Char} {P Q R : List Token → Prop}

/-- In a list with separators, what follows an item begins with one. -/
theorem Spelled.listed (hsep : sep.toList.head? = some d) (hd : EndsFactor d)
    (ht : Spelled EndsFactor (t.render true) P) (hts : Spelled EndsFactor (following sep ts) Q)
    (h : ∀ {us vs}, P us → Q vs → R (us ++ vs)) : Spelled EndsFactor (t.render true ++ following sep ts) R := by
  obtain ⟨us, ht, hs⟩ := ht
  obtain ⟨vs, hts, hss⟩ := hts
  refine ⟨us ++ vs, h ht hts, hs.append hss ?_⟩
  cases ts with
  | nil => exact nofun
  | cons t ts =>
    obtain ⟨ds, hds⟩ := List.head?_eq_some_iff.mp hsep
    rw [following_cons, String.toList_append, hds]
    rintro c ⟨⟩
    exact hd

theorem Spelled.listed_cons (hu : Spells (fun _ => True) sep [u]) (hsep : sep.toList.head? = some d) (hd : EndsFactor d)
    (ht : Spelled EndsFactor (t.render true) P) (hts : Spelled EndsFactor (following sep ts) Q)
    (h : ∀ {us vs}, P us → Q vs → R (u :: us ++ vs)) : Spelled EndsFactor (following sep (t :: ts)) R := by
  obtain ⟨us, hR, hs⟩ := ht.listed (R := fun us => R (u :: us)) hsep hd hts h
  rw [following_cons]
  exact ⟨u :: us, hR, hu.cons hs⟩

end Lists

theorem IsAlts.render (h : IsAlts J us t) : t.render true = "(" ++ t.render false ++ ")" := by
  cases h with
  | mk ht hts => simp [Tree.ofKind, Grammar.nodeText]

theorem append_pragmaTrees_nil : t.append (pragmaTrees []) = t := by
  cases t
  simp [Tree.append, pragmaTrees]

theorem Spelled.signed {k : Construct} {sign : Token} (h : Spelled EndsTerm (t.render true) (IsTerm never · t))
    (hs : IsSign sign k) :
    Spelled EndsFactor ((Tree.ofKind k [t]).render true) (IsFactor never false · (.ofKind k [t])) := by
  obtain ⟨us, ht, hus⟩ := h
  have hfactor := IsFactor.signed [] ht hs
  rw [append_pragmaTrees_nil] at hfactor
  refine ⟨us ++ [sign], hfactor, ?_⟩
  cases hs with
  | question =>
    have hsign : Spells EndsFactor "?" [.question] := Token.spells_sign rfl rfl fun _ _ => rfl
    exact hus.append_of_head hsign (c := '?') rfl (by simp [EndsTerm])
  | star =>
    have hsign : Spells EndsFactor "*" [.star] := Token.spells_star.mono fun d hd => hd.ne.1
    exact hus.append_of_head hsign (c := '*') rfl (by simp [EndsTerm])
  | plus =>
    have hsign : Spells EndsFactor "+" [.plus] := Token.spells_plus.mono fun d hd => hd.ne.2
    exact hus.append_of_head hsign (c := '+') rfl (by simp [EndsTerm])

theorem Spelled.separated {k : Construct} {sign : Token} {v : Tree}
    (h : Spelled EndsTerm (t.render true) (IsTerm never · t)) (hs : IsDoubleSign sign k)
    (hv : Spelled EndsFactor (v.render true) (IsFactor never e · v)) :
    Spelled EndsFactor ((Tree.ofKind k [t, .ofKind .sep [v]]).render true)
      (IsFactor never e · (.ofKind k [t, .ofKind .sep [v]])) := by
  obtain ⟨us, ht, hus⟩ := h
  obtain ⟨vs, hv, hvs⟩ := hv
  have hfactor := IsFactor.separated [] ht hs hv
  rw [append_pragmaTrees_nil] at hfactor
  refine ⟨us ++ sign :: vs, hfactor, ?_⟩
  cases hs with
  | doubleStar =>
    have hsign : Spells (fun _ => True) "**" [.doubleStar] := Token.spells_doubleSign rfl rfl
    have htext : (Tree.ofKind .repeat0 [t, .ofKind .sep [v]]).render true = t.render true ++ ("**" ++ v.render true) := by
      simp [Tree.ofKind, Grammar.nodeText, Grammar.repeatText, Construct.isRule, String.append_assoc,
        show "**" = "*" ++ "*" from rfl]
    rw [htext]
    exact hus.append_of_head (hsign.cons hvs) (c := '*') (by simp) (by simp [EndsTerm])
  | doublePlus =>
    have hsign : Spells (fun _ => True) "++" [.doublePlus] := Token.spells_doubleSign rfl rfl
    have htext : (Tree.ofKind .repeat1 [t, .ofKind .sep [v]]).render true = t.render true ++ ("++" ++ v.render true) := by
      simp [Tree.ofKind, Grammar.nodeText, Grammar.repeatText, Construct.isRule, String.append_assoc,
        show "++" = "+" ++ "+" from rfl]
    rw [htext]
    exact hus.append_of_head (hsign.cons hvs) (c := '+') (by simp) (by simp [EndsTerm])

theorem spelled_group (h : Spelled EndsFactor (t.render false) (IsAlts never · t)) :
    Spelled EndsTerm (t.render true) (IsTerm never · t) := by
  obtain ⟨us, ht, hs⟩ := h
  refine ⟨_, .group ht, ?_⟩
  have hopen : Spells (fun _ => True) "(" [.leftParen] := Token.spells_sign rfl rfl fun _ _ => rfl
  have hclose : Spells EndsTerm ")" [.rightParen] := Token.spells_sign rfl rfl fun _ _ => rfl
  rw [ht.render, String.append_assoc]
  exact hopen.cons (hs.append_of_head hclose (c := ')') rfl (by simp [EndsFactor]))

theorem spelled_insertion (h : IsValue u a) (hu : IsSpelt u) :
    Spelled EndsTerm ((Tree.ofKind (.insertion a)).render true) (IsTerm never · (.ofKind (.insertion a))) := by
  obtain ⟨v, hv, hs⟩ := h.spelled hu
  refine ⟨_, .insertion hv, ?_⟩
  obtain ⟨c, hc, hne⟩ := exists_head_render a
  exact Token.spells_plus.cons_of_head hs hc hne

theorem spelled_nonterminal (mk : Option Mark) {name : String} (h : IsSpelt (.ident name)) :
    Spelled EndsTerm ((Tree.named (.nonterminal mk none) name).render true)
      (IsTerm never · (.named (.nonterminal mk none) name)) :=
  ⟨_, .nonterminal mk name, (spelled_mark mk).append_any ((Token.spells_ident h).mono fun _ hc => hc.spec.1)⟩

theorem spelled_literal (n : Option TerminalMark) (h : IsValue u a) (hu : IsSpelt u) :
    Spelled EndsTerm ((Tree.ofKind (.literal (n.getD .keep) a)).render true)
      (IsTerm never · (.ofKind (.literal (n.getD .keep) a))) := by
  obtain ⟨v, hv, hs⟩ := h.spelled hu
  obtain ⟨n', hn, hmark⟩ := spelled_terminalMark n
  exact ⟨_, hn ▸ .literal n' hv, hmark.append_any hs⟩

section Sets

variable {texts : List String}

theorem spelled_inclusion (n : Option TerminalMark)
    (h : List.Forall₂ (fun s m => Spelled EndsTerm s (IsMember · m)) texts ms) :
    Spelled EndsTerm ((n.getD .keep).optionalSign ++ Grammar.setText texts)
      (IsTerm never · (.ofKind (.inclusion (n.getD .keep)) ms)) := by
  obtain ⟨us, hms, hs⟩ := spelled_set h
  obtain ⟨n', hn, hmark⟩ := spelled_terminalMark n
  have hterm := IsTerm.inclusion (J := never) n' hms
  rw [hn] at hterm
  refine ⟨_, hterm, ?_⟩
  rw [List.append_assoc]
  exact hmark.append_any hs

theorem spelled_exclusion (n : Option TerminalMark)
    (h : List.Forall₂ (fun s m => Spelled EndsTerm s (IsMember · m)) texts ms) :
    Spelled EndsTerm ((n.getD .keep).optionalSign ++ ("~" ++ Grammar.setText texts))
      (IsTerm never · (.ofKind (.exclusion (n.getD .keep)) ms)) := by
  obtain ⟨us, hms, hs⟩ := spelled_set h
  obtain ⟨n', hn, hmark⟩ := spelled_terminalMark n
  have hterm := IsTerm.exclusion (J := never) n' hms
  rw [hn] at hterm
  refine ⟨_, hterm, ?_⟩
  have htilde : Spells (fun _ => True) "~" [.tilde] := Token.spells_sign rfl rfl fun _ _ => rfl
  rw [List.append_assoc]
  exact hmark.append_any (htilde.append_any hs)

theorem render_inclusion (k : TerminalMark) (ms : List Tree) : (Tree.ofKind (.inclusion k) ms).render true =
    k.optionalSign ++ Grammar.setText (ms.map (Tree.render true)) := by
  simp [Tree.ofKind, Grammar.nodeText, Construct.isRule]

theorem render_exclusion (k : TerminalMark) (ms : List Tree) : (Tree.ofKind (.exclusion k) ms).render true =
    k.optionalSign ++ ("~" ++ Grammar.setText (ms.map (Tree.render true))) := by
  simp [Tree.ofKind, Grammar.nodeText, Construct.isRule, String.append_assoc]

end Sets

theorem spelled_furtherAlts (ht : Spelled EndsFactor (t.render true) (IsAlt never · t))
    (hts : Spelled EndsFactor (following "; " ts) (IsFurtherAlts never · ts)) :
    Spelled EndsFactor (following "; " (t :: ts)) (IsFurtherAlts never · (t :: ts)) :=
  ht.listed_cons (d := ';') spells_semicolon rfl (by simp [EndsFactor]) hts (.cons (.inr rfl))

theorem spelled_alts (ht : Spelled EndsFactor (t.render true) (IsAlt never · t))
    (hts : Spelled EndsFactor (following "; " ts) (IsFurtherAlts never · ts)) :
    Spelled EndsFactor ((Tree.ofKind .alts (t :: ts)).render false) (IsAlts never · (.ofKind .alts (t :: ts))) := by
  have htext : (Tree.ofKind .alts (t :: ts)).render false = t.render true ++ following "; " ts := by
    rw [Tree.ofKind, Tree.render_node, List.map_cons]
    exact intercalate_cons ..
  rw [htext]
  exact ht.listed (d := ';') rfl (by simp [EndsFactor]) hts .mk

theorem spelled_commaFactors (ht : Spelled EndsFactor (t.render true) (IsFactor never e · t))
    (hts : Spelled EndsFactor (following ", " ts) (IsCommaFactors never · ts)) :
    Spelled EndsFactor (following ", " (t :: ts)) (IsCommaFactors never · (t :: ts)) :=
  ht.listed_cons (d := ',') spells_comma rfl (by simp [EndsFactor]) hts .cons

theorem spelled_alt (ht : Spelled EndsFactor (t.render true) (IsFactor never e · t))
    (hts : Spelled EndsFactor (following ", " ts) (IsCommaFactors never · ts)) :
    Spelled EndsFactor ((Tree.ofKind .alt (t :: ts)).render true) (IsAlt never · (.ofKind .alt (t :: ts))) := by
  have htext : (Tree.ofKind .alt (t :: ts)).render true = t.render true ++ following ", " ts := by
    rw [Tree.ofKind, Tree.render_node, List.map_cons]
    exact intercalate_cons ..
  rw [htext]
  exact ht.listed (d := ',') rfl (by simp [EndsFactor]) hts .commas

mutual

/-- The text of a part of a grammar spells tokens from which the same tree is derived, with commas only. -/
theorem IsAlts.spelled : ∀ {us t}, IsAlts J us t → (∀ u ∈ us, IsSpelt u) →
    Spelled EndsFactor (t.render false) (IsAlts never · t)
  | _, _, .mk ht hts, hus => by
    rw [List.forall_mem_append] at hus
    exact spelled_alts (ht.spelled hus.1) (hts.spelled hus.2)

theorem IsFurtherAlts.spelled : ∀ {us ts}, IsFurtherAlts J us ts → (∀ u ∈ us, IsSpelt u) →
    Spelled EndsFactor (following "; " ts) (IsFurtherAlts never · ts)
  | _, _, .nil, _ => ⟨[], .nil, Token.spells_empty⟩
  | _, _, .cons _ ht hts, hus => by
    rw [List.forall_mem_append, List.forall_mem_cons] at hus
    exact spelled_furtherAlts (ht.spelled hus.1.2) (hts.spelled hus.2)

theorem IsAlt.spelled : ∀ {us t}, IsAlt J us t → (∀ u ∈ us, IsSpelt u) →
    Spelled EndsFactor (t.render true) (IsAlt never · t)
  | _, _, .commas ht hts, hus => by
    rw [List.forall_mem_append] at hus
    exact spelled_alt (ht.spelled hus.1) (hts.spelled hus.2)
  | _, _, .adjacent hts, hus => (hts.spelled hus).2

theorem IsCommaFactors.spelled : ∀ {us ts}, IsCommaFactors J us ts → (∀ u ∈ us, IsSpelt u) →
    Spelled EndsFactor (following ", " ts) (IsCommaFactors never · ts)
  | _, _, .nil, _ => ⟨[], .nil, Token.spells_empty⟩
  | _, _, .cons ht hts, hus => by
    rw [List.forall_mem_append, List.forall_mem_cons] at hus
    exact spelled_commaFactors (ht.spelled hus.1.2) (hts.spelled hus.2)

theorem IsFactors.spelled : ∀ {us ts}, IsFactors J us ts → (∀ u ∈ us, IsSpelt u) →
    Spelled EndsFactor (following ", " ts) (IsCommaFactors never · ts) ∧
      Spelled EndsFactor ((Tree.ofKind .alt ts).render true) (IsAlt never · (.ofKind .alt ts))
  | _, _, .nil, _ => ⟨⟨[], .nil, Token.spells_empty⟩, [], .adjacent .nil, Token.spells_empty⟩
  | _, _, .cons ht _ hts, hus => by
    rw [List.forall_mem_append] at hus
    have ht := ht.spelled hus.1
    have hts := (hts.spelled hus.2).1
    exact ⟨spelled_commaFactors ht hts, spelled_alt ht hts⟩

theorem IsFactor.spelled : ∀ {e us t}, IsFactor J e us t → (∀ u ∈ us, IsSpelt u) →
    Spelled EndsFactor (t.render true) (IsFactor never e · t)
  | _, _, _, .bare ps ht, hus => by
    rw [List.forall_mem_append] at hus
    obtain ⟨us, ht, hs⟩ := ht.spelled hus.2
    rw [eq_nil_of_isSpelt hus.1]
    have hfactor := IsFactor.bare [] ht
    rw [append_pragmaTrees_nil] at hfactor ⊢
    exact ⟨us, hfactor, hs.mono fun _ => EndsFactor.endsTerm⟩
  | _, _, _, .signed ps ht hs, hus => by
    simp only [List.forall_mem_append] at hus
    have ht := ht.spelled hus.1.2
    rw [eq_nil_of_isSpelt hus.1.1, append_pragmaTrees_nil]
    exact ht.signed hs
  | _, _, _, .separated ps ht hs hu, hus => by
    simp only [List.forall_mem_append, List.forall_mem_cons] at hus
    have ht := ht.spelled hus.1.2
    have hu := hu.spelled hus.2.2
    rw [eq_nil_of_isSpelt hus.1.1, append_pragmaTrees_nil]
    exact ht.separated hs hu

theorem IsTerm.spelled : ∀ {us t}, IsTerm J us t → (∀ u ∈ us, IsSpelt u) →
    Spelled EndsTerm (t.render true) (IsTerm never · t)
  | _, _, .group ht, hus => by
    simp only [List.forall_mem_append, List.forall_mem_cons] at hus
    exact spelled_group (ht.spelled hus.1.2)
  | _, _, .insertion h, hus => by
    simp only [List.forall_mem_cons] at hus
    exact spelled_insertion h hus.2.1
  | _, _, .nonterminal mk name, hus => by
    simp only [List.forall_mem_append, List.forall_mem_cons] at hus
    exact spelled_nonterminal mk hus.2.1
  | _, _, .literal n h, hus => by
    simp only [List.forall_mem_append, List.forall_mem_cons] at hus
    exact spelled_literal n h hus.2.1
  | _, _, .inclusion n h, hus => by
    simp only [List.forall_mem_append, List.forall_mem_cons] at hus
    rw [render_inclusion]
    exact spelled_inclusion n (forall₂_render (h.spelled hus.1.2.2))
  | _, _, .exclusion n h, hus => by
    simp only [List.forall_mem_append, List.forall_mem_cons] at hus
    rw [render_exclusion]
    exact spelled_exclusion n (forall₂_render (h.spelled hus.1.2.2.2))

end

/-! ### Rules -/

theorem spelled_ruleMark (mk : Option Mark) : ∃ mk' : Option Mark,
    mk'.getD .element = mk.getD .element ∧ Spells (fun _ => True) (mk.getD .element).ruleSign (markTokens mk') := by
  rcases mk with _ | _ | _ | _
  · exact ⟨none, rfl, Token.spells_empty⟩
  · exact ⟨none, rfl, Token.spells_empty⟩
  · exact ⟨some .attr, rfl, Token.spells_sign rfl rfl fun _ _ => rfl⟩
  · exact ⟨some .hidden, rfl, spells_minus⟩

theorem spelled_rule (mk : Option Mark) {name body : String} (hname : IsSpelt (.ident name))
    (h : Spelled EndsFactor body (IsAlts never · t)) :
    Spelled (fun _ => True) ((mk.getD .element).ruleSign ++ (name ++ (": " ++ (body ++ "."))))
      (IsRule never [] · (.named (.rule (mk.getD .element) none) name [t])) := by
  obtain ⟨vs, ht, hvs⟩ := h
  obtain ⟨mk', hmk, hmark⟩ := spelled_ruleMark mk
  have hrule : IsRule never [] _ (.named (.rule (mk'.getD .element) none) name ([] ++ [t])) :=
    .mk mk' name (.inl rfl) ht
  rw [hmk] at hrule
  refine ⟨_, hrule, ?_⟩
  have hcolon : Spells (fun _ => True) ": " [.colon] := Token.spells_sign_blank rfl rfl
  have hperiod : Spells (fun _ => True) "." [.period] := Token.spells_sign rfl rfl fun _ _ => rfl
  have hbody := hvs.append_of_head hperiod (c := '.') rfl (by simp [EndsFactor])
  have hdefined := (Token.spells_ident hname).append_of_head (c := ':') (hcolon.append_any hbody) (by simp) (by decide)
  simpa using hmark.append_any hdefined

theorem IsRule.spelled (h : IsRule J [] us t) (hus : ∀ u ∈ us, IsSpelt u) :
    Spelled (fun _ => True) (t.render true) (IsRule never [] · t) := by
  cases h with
  | @mk s us t mk name hs ht =>
    simp only [List.forall_mem_append, List.forall_mem_cons] at hus
    have htext : (Tree.named (.rule (mk.getD .element) none) name ([] ++ [t])).render true =
        (mk.getD .element).ruleSign ++ (name ++ (": " ++ (t.render false ++ "."))) := by
      simp [Tree.named, Grammar.nodeText, Label.nameText, Construct.isRule, String.append_assoc]
    rw [htext]
    exact spelled_rule mk hus.1.2.1 (ht.spelled hus.1.2.2.2)

theorem IsRules.spelled (h : IsRules J us ts) (hus : ∀ u ∈ us, IsSpelt u) :
    Spelled (fun _ => True) (String.join (ts.map (Tree.render true))) (IsRules never · ts) := by
  induction h with
  | @one us t ps qs hr =>
    simp only [List.forall_mem_append] at hus
    obtain rfl := eq_nil_of_isSpelt hus.1.1
    obtain rfl := eq_nil_of_isSpelt hus.2
    obtain ⟨vs, hr, hvs⟩ := IsRule.spelled hr hus.1.2
    refine ⟨_, .one [] [] hr, ?_⟩
    show Spells _ (String.join ([t].map (Tree.render true))) (vs ++ [])
    simpa using hvs
  | @cons us us' t ts ps hr hts ih =>
    simp only [List.forall_mem_append] at hus
    obtain rfl := eq_nil_of_isSpelt hus.1.1
    obtain ⟨vs, hr, hs⟩ := IsRule.spelled hr hus.1.2
    obtain ⟨ws, hts, hss⟩ := ih hus.2
    refine ⟨_, .cons [] hr hts, ?_⟩
    show Spells _ (String.join ((t :: ts).map (Tree.render true))) (vs ++ ws)
    rw [List.map_cons, String.join_cons]
    exact hs.append_any hss

theorem IsRules.all_isRule (h : IsRules J us ts) (hus : ∀ u ∈ us, IsSpelt u) :
    ∀ t ∈ ts, t.kind.isRule = true := by
  induction h with
  | one ps qs hr =>
    simp only [List.forall_mem_append] at hus
    obtain rfl := eq_nil_of_isSpelt hus.1.1
    obtain rfl := eq_nil_of_isSpelt hus.2
    intro t ht
    rw [List.mem_singleton.mp ht]
    exact hr.isRule
  | cons ps hr hts ih =>
    simp only [List.forall_mem_append] at hus
    obtain rfl := eq_nil_of_isSpelt hus.1.1
    intro t ht
    rcases List.mem_cons.mp ht with rfl | ht
    · exact hr.isRule
    · exact ih hus.2 t ht

/-- What is derived from tokens without pragmas: rules, after a prolog if there is one. -/
theorem IsGrammar.exists_rules (h : IsGrammar J us ts) (hus : ∀ u ∈ us, IsSpelt u) :
    ∃ vs, IsRules J vs (ts.filter (·.kind.isRule)) ∧ ∀ v ∈ vs, IsSpelt v := by
  cases h with
  | plain h =>
    rw [List.filter_eq_self.mpr (h.all_isRule hus)]
    exact ⟨us, h, hus⟩
  | @prolog us ts ps qs v h =>
    simp only [List.forall_mem_append, List.forall_mem_cons] at hus
    obtain ⟨⟨hps, -, -, -, hqs⟩, -, hus⟩ := hus
    obtain rfl := eq_nil_of_isSpelt hps
    obtain rfl := eq_nil_of_isSpelt hqs
    refine ⟨us, ?_, hus⟩
    show IsRules J us (ts.filter (·.kind.isRule))
    rw [List.filter_eq_self.mpr (h.all_isRule hus)]
    exact h

/-- A text that spells rules is read as these rules. -/
theorem Spelled.read_eq {source : String} (h : Spelled (fun _ => True) source (IsRules never · ts)) :
    Grammar.read source = .ok (Grammar.ofForest ts) := by
  obtain ⟨vs, hvs, hs⟩ := h
  have hscan := hs [] [] nofun Token.scans_nil
  rw [List.append_nil, List.append_nil] at hscan
  obtain ⟨tokens, hscan, htokens⟩ := hscan .start
  have hgreedy : IsGrammar greedy (tokens.map (·.token)) ts := htokens ▸ .plain (hvs.mono fun _ _ => False.elim)
  exact Grammar.read_eq_ok_iff.mpr ⟨tokens, ts, hscan, readTokens_eq_ok_iff.mpr hgreedy, rfl⟩

/-- The text of rules is read as the same rules. -/
theorem IsRules.read_join_render (h : IsRules J us ts) (hus : ∀ u ∈ us, IsSpelt u) :
    Grammar.read (String.join (ts.map (Tree.render true))) = .ok (Grammar.ofForest ts) :=
  (h.spelled hus).read_eq

end Phrase

open Layout Simplify

variable {F : List Tree}

/-- The rules of a store that is built from trees are the rules among them, and the first gives the start. -/
theorem rules_ofForest (h : ∀ t ∈ F, IsNamed t) :
    (Grammar.ofForest F).rules.map (Grammar.ofForest F).tree = F.filter (·.kind.isRule) ∧
      (Grammar.ofForest F).rules.map (Grammar.ofForest F).render =
        (F.filter (·.kind.isRule)).map (Tree.render true) ∧
      (Grammar.ofForest F).start = ((F.filter (·.kind.isRule)).map (·.label.name)).head?.join := by
  obtain ⟨J, rfl, hJ⟩ := planted_foldl planted_empty h
  obtain ⟨⟨b, hl, hw, -, hs⟩, -⟩ := hJ
  rw [List.nil_append] at hl hs
  have hlays : Lays (Grammar.ofForest (J.map erase)) [node Grammar.root { kind := .ixml } J] := hl.lays
  have hrules : (Grammar.ofForest (J.map erase)).rules = (J.filter (·.kind.isRule)).map Layout.id :=
    (hl.holds hw).rules_eq
  have hfilter : (J.map erase).filter (·.kind.isRule) = (J.filter (·.kind.isRule)).map erase := by
    rw [List.filter_map]
    congr 1
    refine List.filter_congr fun t _ => ?_
    rw [Function.comp_apply, kind_erase]
  have hmem {t : Layout} (ht : t ∈ J.filter (·.kind.isRule)) :
      ∃ A B, fill [⟨Grammar.root, { kind := .ixml }, A, B⟩] t ∈ [node Grammar.root { kind := .ixml } J] := by
    obtain ⟨A, B, rfl⟩ := List.append_of_mem (List.mem_of_mem_filter ht)
    exact ⟨A, B, List.mem_cons_self ..⟩
  rw [hrules, hfilter, List.map_map, List.map_map, List.map_map, List.map_map]
  refine ⟨List.map_congr_left fun t ht => ?_, List.map_congr_left fun t ht => ?_, ?_⟩
  · obtain ⟨A, B, hz⟩ := hmem ht
    exact hlays.tree_eq hz
  · obtain ⟨A, B, hz⟩ := hmem ht
    have hrender := hlays.render_eq hz
    rwa [hlays.isNested_fill hz] at hrender
  · have hstart : (Grammar.ofForest (J.map erase)).start = b.start := by
      rw [← show ((J.map erase).foldl Grammar.addTop {}).bare = b from hl.bare]
      rfl
    rw [hstart, hs, ruleNames]
    congr 3
    funext t
    rw [Function.comp_apply, label_erase]

/-- Rules that are written and read back are the same rules, and the start is the same. -/
theorem exists_read_join_render {source : String} {tokens : List Token.Placed} {g : Grammar}
    (hscan : Token.scan source = .ok tokens) (hpragma : ∀ t ∈ tokens, t.token.isPragma = false)
    (hread : Grammar.read source = .ok g) :
    ∃ g', Grammar.read (String.join (g.rules.map g.render)) = .ok g' ∧
      g'.rules.map g'.tree = g.rules.map g.tree ∧ g'.start = g.start := by
  have hspelt : ∀ u ∈ tokens.map (·.token), Token.IsSpelt u := List.forall_mem_map.mpr fun t ht =>
    (Token.isSpelt_of_tokens hscan t ht).resolve_left (by rw [hpragma t ht]; exact Bool.false_ne_true)
  obtain ⟨tokens', F, hscan', hF, rfl⟩ := Grammar.read_eq_ok_iff.mp hread
  obtain rfl : tokens = tokens' := Except.ok.inj (hscan.symm.trans hscan')
  have hgrammar := isGrammar_of_readTokens hF
  obtain ⟨us, hus, hspelt⟩ := hgrammar.exists_rules hspelt
  obtain ⟨htree, hrender, hstart⟩ := rules_ofForest hgrammar.isNamed
  obtain ⟨htree', -, hstart'⟩ := rules_ofForest hus.isNamed
  simp only [List.filter_filter, Bool.and_self] at htree' hstart'
  refine ⟨Grammar.ofForest (F.filter (·.kind.isRule)), ?_, htree'.trans htree.symm, hstart'.trans hstart.symm⟩
  rw [hrender]
  exact hus.read_join_render hspelt

theorem exists_read_join_render_repeated : ∃ tokens g g',
    Token.scan "s: a++ +'x', ( ; -['0'-'9'; Nd])?. a = s s." = .ok tokens ∧
      (∀ t ∈ tokens, t.token.isPragma = false) ∧
      Grammar.read "s: a++ +'x', ( ; -['0'-'9'; Nd])?. a = s s." = .ok g ∧
      Grammar.read (String.join (g.rules.map g.render)) = .ok g' ∧
      g'.rules.map g'.tree = g.rules.map g.tree ∧ g'.start = g.start := by
  obtain ⟨tokens, hscan, hpragma⟩ := exists_eq_ok_and (x := Token.scan "s: a++ +'x', ( ; -['0'-'9'; Nd])?. a = s s.")
    (p := fun ts => ts.all fun t => !t.token.isPragma) (by decide +kernel)
  obtain ⟨g, hg⟩ := exists_eq_ok (x := Grammar.read "s: a++ +'x', ( ; -['0'-'9'; Nd])?. a = s s.") (by decide +kernel)
  have hpragma : ∀ t ∈ tokens, t.token.isPragma = false := by simpa using hpragma
  obtain ⟨g', hg', hrules, hstart⟩ := exists_read_join_render hscan hpragma hg
  exact ⟨tokens, g, g', hscan, hpragma, hg, hg', hrules, hstart⟩

end Ixml
