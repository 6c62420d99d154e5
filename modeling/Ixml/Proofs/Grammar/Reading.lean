import Ixml.Proofs.Grammar.Shape
import Ixml.Proofs.Grammar.Soundness
import Ixml.Proofs.Token.Lexing

/-!
# What is read

The trees that are derived from tokens of a text have the right shape apart from the pragmas among them, and no
name in them is made up. Since what is read is derived, this holds of what is read (`exists_written_of_read`).
-/

namespace Ixml

namespace Construct

def isSet : Construct → Bool
  | inclusion _ | exclusion _ => true
  | _ => false

/-- A member of a set that can be written in a set again: a literal is kept and goes over no end of a line, and a range
is not reversed. -/
def IsReadable : Construct → Prop
  | literal mark value => mark = .keep ∧ ∀ s, value = .quoted s → '\n' ∉ s.toList
  | range a b => a ≤ b
  | charClass code => CharSet.isCategoryCode code = true
  | _ => False

theorem IsReadable.isMember {k : Construct} (h : k.IsReadable) : k.isMember = true := by
  cases k with
  | literal | range => rfl
  | charClass code => exact h
  | _ => exact h.elim

end Construct

/-- A node as it is read: its children fit apart from pragmas, which are not written right below what has a factor, the
members of a set can be written in a set again, and its name is not made up. -/
structure Written (l : Label) (ks : List Construct) : Prop where
  fits : l.kind.fits (ks.filter (!·.isPragma)) = true
  factor : l.kind.hasFactor = true → ks.filter (!·.isPragma) = ks
  members : l.kind.isSet = true → ∀ k ∈ ks.filter (!·.isPragma), k.IsReadable
  leaf : l.kind.isPragma = true → ks = []
  identifier : IsIdentifier l.nameText
  named : l.kind.isRule = true → l.name.isSome = true

namespace Phrase

/-- All tokens are as they can be found in a text. -/
def Plain (us : List Token) : Prop :=
  ∀ u ∈ us, u.IsPlain

theorem plain_append {us vs : List Token} : Plain (us ++ vs) ↔ Plain us ∧ Plain vs :=
  List.forall_mem_append

theorem plain_cons {u : Token} {us : List Token} :
    Plain (u :: us) ↔ u.IsPlain ∧ Plain us :=
  List.forall_mem_cons

variable {J : Joint} {e : Bool} {us : List Token} {t : Tree} {ts : List Tree}

/-- A tree that is read. -/
def IsWritten (t : Tree) : Prop :=
  t.Every Written

theorem written_ofKind {k : Construct} {ts : List Tree} (hk : k.fits ((ts.map Tree.kind).filter (!·.isPragma)) = true)
    (hf : k.hasFactor = true → (ts.map Tree.kind).filter (!·.isPragma) = ts.map Tree.kind)
    (hs : k.isSet = true → ∀ c ∈ (ts.map Tree.kind).filter (!·.isPragma), c.IsReadable) (hr : k.isRule = false)
    (hp : k.isPragma = false) (hts : ∀ t ∈ ts, IsWritten t) : IsWritten (.ofKind k ts) := by
  refine Tree.every_node.mpr ⟨⟨hk, hf, hs, fun h => ?_, isIdentifier_empty, fun h => ?_⟩, hts⟩
  · rw [hp] at h
    cases h
  · rw [hr] at h
    cases h

def IsRawPragma (t : Tree) : Prop :=
  IsWritten t ∧ t.kind.isPragma = true

theorem isRawPragma_of_mem {ps : List (String × String)} {p : Tree} (h : p ∈ pragmaTrees ps) : IsRawPragma p := by
  obtain ⟨q, -, rfl⟩ := List.mem_map.mp h
  exact ⟨Tree.every_node.mpr ⟨⟨rfl, nofun, nofun, fun _ => rfl, isIdentifier_empty, fun h => by cases h⟩, by simp⟩, rfl⟩

/-! ### Sets -/

def IsMemberTree (t : Tree) : Prop :=
  IsWritten t ∧ t.kind.isMember = true ∧ t.kind.IsReadable

theorem IsMember.isMemberTree {m : Tree} (h : IsMember us m) (hus : Plain us) : IsMemberTree m := by
  cases h with
  | category h => exact ⟨written_ofKind rfl nofun nofun rfl rfl (by simp), h, h⟩
  | value h =>
    refine ⟨written_ofKind rfl nofun nofun rfl rfl (by simp), rfl, rfl, fun s hs => ?_⟩
    cases h with
    | string s' =>
      cases hs
      exact (plain_cons.mp hus).1
    | hex => cases hs
  | range ha hb hx hy h => exact ⟨written_ofKind rfl nofun nofun rfl rfl (by simp), rfl, h⟩

theorem IsMembers.isMemberTree {ms : List Tree} (h : IsMembers us ms) (hus : Plain us) :
    ∀ m ∈ ms, IsMemberTree m := by
  induction h with
  | nil => simp
  | cons hm hms ih =>
    obtain ⟨hus, hvs⟩ := plain_append.mp hus
    exact List.forall_mem_cons.mpr ⟨hm.isMemberTree hus, ih hvs⟩
  | ended hm hs hms ih =>
    obtain ⟨hus, hvs⟩ := plain_append.mp hus
    exact List.forall_mem_cons.mpr ⟨hm.isMemberTree hus, ih (plain_cons.mp hvs).2⟩

theorem filter_members {ms : List Tree} (h : ∀ m ∈ ms, IsMemberTree m) :
    (ms.map Tree.kind).filter (!·.isPragma) = ms.map Tree.kind ∧ (ms.map Tree.kind).all Construct.isMember = true ∧
      ∀ k ∈ ms.map Tree.kind, k.IsReadable := by
  have hall : ∀ k ∈ ms.map Tree.kind, k.isMember = true := fun k hk => by
    obtain ⟨m, hm, rfl⟩ := List.mem_map.mp hk
    exact (h m hm).2.1
  refine ⟨List.filter_eq_self.mpr fun k hk => ?_, List.all_eq_true.mpr hall, List.forall_mem_map.mpr fun m hm =>
    (h m hm).2.2⟩
  have := hall k hk
  cases k <;> simp_all [Construct.isMember, Construct.isPragma]

/-! ### Factors and alternatives -/

def IsFactorTree (t : Tree) : Prop :=
  IsWritten t ∧ t.kind.isFactor = true

def IsAltTree (t : Tree) : Prop :=
  IsWritten t ∧ t.kind = .alt

def IsAltsTree (t : Tree) : Prop :=
  IsWritten t ∧ t.kind = .alts

theorem isFactorTree_set {k : Construct} {n : TerminalMark} {ms : List Tree} (hk : k = .inclusion n ∨ k = .exclusion n)
    (h : ∀ m ∈ ms, IsMemberTree m) : IsFactorTree (.ofKind k ms) := by
  obtain ⟨hf, hall, hread⟩ := filter_members h
  refine ⟨written_ofKind ?_ (fun _ => hf) (fun _ => by rwa [hf]) ?_ ?_ fun t ht => (h t ht).1, ?_⟩
  · rw [hf]
    rcases hk with rfl | rfl <;> exact hall
  all_goals rcases hk with rfl | rfl <;> rfl

theorem IsTerm.hasFactor_kind (h : IsTerm J us t) : t.kind.hasFactor = false := by
  cases h with
  | group h =>
    cases h
    rfl
  | _ => rfl

/-- Pragmas that are put below a term leave its shape as it is. -/
theorem IsFactorTree.append {t : Tree} {ps : List Tree} (ht : IsFactorTree t) (hf : t.kind.hasFactor = false)
    (hps : ∀ p ∈ ps, IsRawPragma p) : IsFactorTree (t.append ps) := by
  obtain ⟨l, ts⟩ := t
  obtain ⟨hw, hk⟩ := ht
  obtain ⟨hl, hts⟩ := Tree.every_node.mp hw
  have hnone : (ps.map Tree.kind).filter (!·.isPragma) = [] := by
    refine List.filter_eq_nil_iff.mpr fun k hk => ?_
    obtain ⟨p, hp, rfl⟩ := List.mem_map.mp hk
    simp [(hps p hp).2]
  have hkids : ((ts ++ ps).map Tree.kind).filter (!·.isPragma) = (ts.map Tree.kind).filter (!·.isPragma) := by
    rw [List.map_append, List.filter_append, hnone, List.append_nil]
  refine ⟨Tree.every_node.mpr ⟨⟨hkids ▸ hl.fits, fun h => ?_, hkids ▸ hl.members, fun hp => ?_,
    hl.identifier, hl.named⟩, fun u hu => ?_⟩, hk⟩
  · rw [Tree.kind, Tree.label, h] at hf
    cases hf
  · rw [Tree.kind, Tree.label] at hk
    cases h : l.kind <;> simp_all [Construct.isPragma, Construct.isFactor, Construct.isFlat, Construct.isCompound]
  · exact (List.mem_append.mp hu).elim (hts u) fun hu => (hps u hu).1

theorem filter_factors {c : List Construct} (h : ∀ k ∈ c, k.isFactor = true) : c.filter (!·.isPragma) = c := by
  refine List.filter_eq_self.mpr fun k hk => ?_
  have := h k hk
  cases k <;> simp_all [Construct.isFactor, Construct.isFlat, Construct.isCompound, Construct.isPragma]

theorem isAltTree_of_factors {ts : List Tree} (hts : ∀ t ∈ ts, IsFactorTree t) : IsAltTree (.ofKind .alt ts) := by
  have hall : ∀ k ∈ ts.map Tree.kind, k.isFactor = true := fun k hk => by
    obtain ⟨t, ht, rfl⟩ := List.mem_map.mp hk
    exact (hts t ht).2
  refine ⟨written_ofKind ?_ nofun nofun rfl rfl fun t ht => (hts t ht).1, rfl⟩
  rw [filter_factors hall]
  exact List.all_eq_true.mpr hall

theorem isAltsTree_of_alts {t : Tree} {ts : List Tree} (ht : IsAltTree t) (hts : ∀ t ∈ ts, IsAltTree t) :
    IsAltsTree (.ofKind .alts (t :: ts)) := by
  have hall : ∀ k ∈ (t :: ts).map Tree.kind, k = .alt := fun k hk => by
    obtain ⟨u, hu, rfl⟩ := List.mem_map.mp hk
    rcases List.mem_cons.mp hu with rfl | hu
    · exact ht.2
    · exact (hts u hu).2
  have hfilter : ((t :: ts).map Tree.kind).filter (!·.isPragma) = (t :: ts).map Tree.kind :=
    List.filter_eq_self.mpr fun k hk => by rw [hall k hk]; rfl
  refine ⟨written_ofKind ?_ nofun nofun rfl rfl fun u hu => ?_, rfl⟩
  · rw [hfilter]
    simpa [Construct.fits] using hall
  · rcases List.mem_cons.mp hu with rfl | hu
    · exact ht.1
    · exact (hts u hu).1

theorem isFactorTree_signed {k : Construct} {sign : Token} (ht : IsFactorTree t) (hs : IsSign sign k) :
    IsFactorTree (.ofKind k [t]) := by
  have hfit : k.fits [t.kind] = true := by
    cases hs <;> simpa [Construct.fits] using ht.2
  have hfilter : ([t].map Tree.kind).filter (!·.isPragma) = [t.kind] := filter_factors (by simpa using ht.2)
  refine ⟨written_ofKind (by rwa [hfilter]) (fun _ => hfilter) ?_ ?_ ?_ (by simpa using ht.1), ?_⟩
  · intro h
    cases hs <;> cases h
  all_goals cases hs <;> rfl

theorem isFactorTree_separated {k : Construct} {sign : Token} {v : Tree} (ht : IsFactorTree t)
    (hs : IsDoubleSign sign k) (hv : IsFactorTree v) : IsFactorTree (.ofKind k [t, .ofKind .sep [v]]) := by
  have hsep : IsWritten (.ofKind .sep [v]) := by
    have hself : ([v].map Tree.kind).filter (!·.isPragma) = [v.kind] := filter_factors (by simpa using hv.2)
    refine written_ofKind ?_ (fun _ => hself) nofun rfl rfl (by simpa using hv.1)
    rw [hself]
    simpa [Construct.fits] using hv.2
  have hfit : k.fits [t.kind, .sep] = true := by
    cases hs <;> simpa [Construct.fits] using ht.2
  have hfilter : ([t, .ofKind .sep [v]].map Tree.kind).filter (!·.isPragma) = [t.kind, .sep] := by
    have := filter_factors (c := [t.kind]) (by simpa using ht.2)
    rw [List.map_cons, List.map_cons, List.map_nil, ← List.singleton_append, List.filter_append, this]
    rfl
  refine ⟨written_ofKind (by rwa [hfilter]) (fun _ => hfilter) ?_ ?_ ?_ (by simpa using ⟨ht.1, hsep⟩), ?_⟩
  · intro h
    cases hs <;> cases h
  all_goals cases hs <;> rfl

mutual

theorem IsAlts.isAltsTree : ∀ {us t}, IsAlts J us t → Plain us → IsAltsTree t
  | _, _, .mk ht hts, hus => by
    obtain ⟨hus, hvs⟩ := plain_append.mp hus
    exact isAltsTree_of_alts (ht.isAltTree hus) (hts.isAltTree hvs)

theorem IsFurtherAlts.isAltTree : ∀ {us ts}, IsFurtherAlts J us ts → Plain us → ∀ t ∈ ts, IsAltTree t
  | _, _, .nil, _ => by simp
  | _, _, .cons _ ht hts, hus => by
    obtain ⟨hus, hvs⟩ := plain_append.mp hus
    exact List.forall_mem_cons.mpr ⟨ht.isAltTree (plain_cons.mp hus).2, hts.isAltTree hvs⟩

theorem IsAlt.isAltTree : ∀ {us t}, IsAlt J us t → Plain us → IsAltTree t
  | _, _, .commas ht hts, hus => by
    obtain ⟨hus, hvs⟩ := plain_append.mp hus
    exact isAltTree_of_factors (List.forall_mem_cons.mpr ⟨ht.isFactorTree hus, hts.isFactorTree hvs⟩)
  | _, _, .adjacent hts, hus => isAltTree_of_factors (hts.isFactorTree hus)

theorem IsCommaFactors.isFactorTree : ∀ {us ts}, IsCommaFactors J us ts → Plain us → ∀ t ∈ ts, IsFactorTree t
  | _, _, .nil, _ => by simp
  | _, _, .cons ht hts, hus => by
    obtain ⟨hus, hvs⟩ := plain_append.mp hus
    exact List.forall_mem_cons.mpr ⟨ht.isFactorTree (plain_cons.mp hus).2, hts.isFactorTree hvs⟩

theorem IsFactors.isFactorTree : ∀ {us ts}, IsFactors J us ts → Plain us → ∀ t ∈ ts, IsFactorTree t
  | _, _, .nil, _ => by simp
  | _, _, .cons ht _ hts, hus => by
    obtain ⟨hus, hvs⟩ := plain_append.mp hus
    exact List.forall_mem_cons.mpr ⟨ht.isFactorTree hus, hts.isFactorTree hvs⟩

theorem IsFactor.isFactorTree : ∀ {e us t}, IsFactor J e us t → Plain us → IsFactorTree t
  | _, _, _, .bare ps ht, hus =>
    (ht.isFactorTree (plain_append.mp hus).2).append ht.hasFactor_kind fun _ => isRawPragma_of_mem
  | _, _, _, .signed ps ht hs, hus => by
    simp only [plain_append] at hus
    exact isFactorTree_signed ((ht.isFactorTree hus.1.2).append ht.hasFactor_kind fun _ => isRawPragma_of_mem) hs
  | _, _, _, .separated ps ht hs hu, hus => by
    simp only [plain_append, plain_cons] at hus
    exact isFactorTree_separated ((ht.isFactorTree hus.1.2).append ht.hasFactor_kind fun _ => isRawPragma_of_mem) hs
      (hu.isFactorTree hus.2.2)

theorem IsTerm.isFactorTree : ∀ {us t}, IsTerm J us t → Plain us → IsFactorTree t
  | _, _, .group ht, hus => by
    simp only [plain_append, plain_cons] at hus
    have ht := ht.isAltsTree hus.1.2
    exact ⟨ht.1, by rw [ht.2]; rfl⟩
  | _, _, .insertion h, _ => ⟨written_ofKind rfl nofun nofun rfl rfl (by simp), rfl⟩
  | _, _, .nonterminal m name, hus => by
    have hname : IsIdentifier name := (plain_cons.mp (plain_append.mp hus).2).1
    exact ⟨Tree.every_node.mpr ⟨⟨rfl, nofun, nofun, fun _ => rfl, hname, fun h => by cases h⟩, by simp⟩, rfl⟩
  | _, _, .literal n h, _ => ⟨written_ofKind rfl nofun nofun rfl rfl (by simp), rfl⟩
  | _, _, .inclusion n h, hus => by
    simp only [plain_append, plain_cons] at hus
    exact isFactorTree_set (.inl rfl) (h.isMemberTree hus.1.2.2)
  | _, _, .exclusion n h, hus => by
    simp only [plain_append, plain_cons] at hus
    exact isFactorTree_set (.inr rfl) (h.isMemberTree hus.1.2.2.2)

end

/-! ### Rules -/

/-- A tree below the root as it is read: a rule, a prolog or a pragma. -/
def IsTopTree (t : Tree) : Prop :=
  IsWritten t ∧ (t.kind.isTop = true ∨ t.kind.isPragma = true)

theorem IsRawPragma.isTopTree {t : Tree} (h : IsRawPragma t) : IsTopTree t :=
  ⟨h.1, Or.inr h.2⟩

theorem isTopTree_named {m : Mark} {name : String} {body : Tree} {ps : List Tree} (hps : ∀ p ∈ ps, IsRawPragma p)
    (hbody : IsAltsTree body) (hname : IsIdentifier name) : IsTopTree (.named (.rule m none) name (ps ++ [body])) := by
  refine ⟨Tree.every_node.mpr ⟨⟨?_, nofun, nofun, fun h => (by cases h), hname, fun _ => rfl⟩, fun t ht => ?_⟩, Or.inl rfl⟩
  · have hnone : (ps.map Tree.kind).filter (!·.isPragma) = [] := by
      refine List.filter_eq_nil_iff.mpr fun k hk => ?_
      obtain ⟨p, hp, rfl⟩ := List.mem_map.mp hk
      simp [(hps p hp).2]
    rw [List.map_append, List.filter_append, hnone, List.map_singleton, hbody.2]
    rfl
  · rcases List.mem_append.mp ht with ht | ht
    · exact (hps t ht).1
    · rw [List.mem_singleton.mp ht]
      exact hbody.1

theorem IsRule.isTopTree {ps : List Tree} (h : IsRule J ps us t) (hps : ∀ p ∈ ps, IsRawPragma p) (hus : Plain us) :
    IsTopTree t := by
  obtain ⟨m, name, hs, ht⟩ := h
  simp only [plain_append, plain_cons] at hus
  exact isTopTree_named hps (ht.isAltsTree hus.1.2.2.2) hus.1.2.1

theorem IsRules.isTopTree (h : IsRules J us ts) (hus : Plain us) : ∀ t ∈ ts, IsTopTree t := by
  induction h with
  | one ps qs hr =>
    simp only [plain_append] at hus
    intro t ht
    rcases List.mem_append.mp ht with ht | ht
    · exact (isRawPragma_of_mem (List.mem_of_mem_filter ht)).isTopTree
    · rcases List.mem_cons.mp ht with rfl | ht
      · exact hr.isTopTree (fun p hp => isRawPragma_of_mem (List.mem_of_mem_filter hp)) hus.1.2
      · exact (isRawPragma_of_mem ht).isTopTree
  | cons ps hr hts ih =>
    simp only [plain_append] at hus
    intro t ht
    rcases List.mem_append.mp ht with ht | ht
    · exact (isRawPragma_of_mem (List.mem_of_mem_filter ht)).isTopTree
    · rcases List.mem_cons.mp ht with rfl | ht
      · exact hr.isTopTree (fun p hp => isRawPragma_of_mem (List.mem_of_mem_filter hp)) hus.1.2
      · exact ih hus.2 t ht

/-- The trees below the root are rules, prologs and pragmas, and there is a rule. -/
theorem IsGrammar.isTopTree (h : IsGrammar J us ts) (hus : Plain us) :
    (∀ t ∈ ts, IsTopTree t) ∧ ∃ t ∈ ts, t.kind.isRule = true := by
  cases h with
  | plain h => exact ⟨h.isTopTree hus, h.exists_isRule⟩
  | prolog ps qs v h =>
    simp only [plain_append, plain_cons] at hus
    obtain ⟨r, hr, hrule⟩ := h.exists_isRule
    refine ⟨fun t ht => ?_, r, List.mem_append_right _ hr, hrule⟩
    rcases List.mem_append.mp ht with ht | ht
    · rcases List.mem_cons.mp ht with rfl | ht
      · have hversion : IsWritten (.ofKind (.version v)) := written_ofKind rfl nofun nofun rfl rfl (by simp)
        exact ⟨written_ofKind rfl nofun nofun rfl rfl (by simpa using hversion), Or.inl rfl⟩
      · exact (isRawPragma_of_mem ht).isTopTree
    · exact h.isTopTree hus.2.2 t ht

end Phrase

theorem exists_eq_ok {ε α : Type} {x : Except ε α} (h : x.isOk = true) : ∃ a, x = .ok a := by
  cases x with
  | error e => cases h
  | ok a => exact ⟨a, rfl⟩

theorem exists_eq_ok_and {ε α : Type} {p : α → Bool} {x : Except ε α} (h : x.toOption.any p = true) :
    ∃ a, x = .ok a ∧ p a = true := by
  cases x with
  | error e => cases h
  | ok a => exact ⟨a, rfl, h⟩

namespace Grammar

theorem readTokens_eq_ok_iff_reader {ts : List Token.Placed} {F : List Tree} :
    readTokens ts = .ok F ↔ ∃ rest, Reader.grammar (lastPosition ts) ts = .ok (F, rest) := by
  show Except.map (·.1) (Reader.grammar (lastPosition ts) ts) = .ok F ↔ _
  cases Reader.grammar (lastPosition ts) ts with
  | error e => simp [Except.map]
  | ok p =>
    obtain ⟨F', rest⟩ := p
    simp [Except.map]

theorem read_eq_ok_iff {text : String} {g : Grammar} : read text = .ok g ↔
    ∃ ts F, Token.scan text = .ok ts ∧ readTokens ts = .ok F ∧ ofForest F = g := by
  show Except.bind (Token.scan text) (fun ts => Except.bind (readTokens ts) fun F => .ok (ofForest F)) = .ok g ↔ _
  cases Token.scan text with
  | error e => simp [Except.bind]
  | ok ts => cases hF : readTokens ts <;> simp [Except.bind, hF]

end Grammar

theorem isGrammar_of_readTokens {ts : List Token.Placed} {F : List Tree} (h : Grammar.readTokens ts = .ok F) :
    Phrase.IsGrammar Phrase.free (ts.map (·.token)) F := by
  obtain ⟨rest, hread⟩ := Grammar.readTokens_eq_ok_iff_reader.mp h
  exact (Reader.takes_grammar ts F rest rfl hread).2

/-- The trees that are read from a text have the right shape, and one of them is a rule. -/
theorem exists_written_of_read {text : String} {g : Grammar} (h : Grammar.read text = .ok g) :
    ∃ ts : List Tree, g = Grammar.ofForest ts ∧ (∀ t ∈ ts, Phrase.IsTopTree t) ∧
      ∃ t ∈ ts, t.kind.isRule = true := by
  obtain ⟨tokens, F, hs, hF, rfl⟩ := Grammar.read_eq_ok_iff.mp h
  have hplain : Phrase.Plain (tokens.map (·.token)) := List.forall_mem_map.mpr (Token.isPlain_of_tokens hs)
  exact ⟨F, rfl, (isGrammar_of_readTokens hF).isTopTree hplain⟩

end Ixml
