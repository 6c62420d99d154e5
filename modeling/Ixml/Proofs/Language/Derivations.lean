import Ixml.Proofs.Bnf.References
import Ixml.Proofs.Document.Marks
import Ixml.Proofs.Language.Steps

/-!
# Derivations in the rules that are built

A `Reading` turns derivations into words, and what the names of a canonical grammar denote, in the sense of that
reading, are the readings of their derivations in the rules that are built from it
(`IsBuilt.meaning_eq_readings`). Of made-up names this asks that a hidden node reads as its parts do.
-/

namespace Ixml

open Layout Simplify Bnf.OfGrammar

variable {α : Type}

/-! ### Derivations -/

namespace Bnf

/-- `B.Derives ss ds` says that the symbols `ss` derive `ds` by the rules. -/
inductive Derives (B : Bnf) : List Symbol → List Derivation → Prop
  | nil : Derives B [] []
  | terminal {m : Matcher} {a : Attributes} {c : Char} {ss : List Symbol} {ds : List Derivation}
    (hc : m.accepts c = true) (h : Derives B ss ds) : Derives B (.terminal m a :: ss) (.matched c a :: ds)
  | nonterminal {n : String} {a : Attributes} {r : Rule} {es ds : List Derivation} {ss : List Symbol}
    (hr : r ∈ B.rulesFor n) (hes : Derives B r.rhs es) (h : Derives B ss ds) :
    Derives B (.nonterminal n a :: ss) (.derived a es :: ds)

/-- A name derives `ds` by one of its rules. -/
def NameDerives (B : Bnf) (n : String) (ds : List Derivation) : Prop :=
  ∃ r ∈ B.rulesFor n, B.Derives r.rhs ds

def language (B : Bnf) (n : String) : Language Char :=
  {w | ∃ ds, B.NameDerives n ds ∧ Derivation.inputAll ds = w}

end Bnf

/-- A way to read derivations as words. -/
structure Reading (α : Type) where
  token : Char → Attributes → List α
  node : Attributes → List α → List α

namespace Derivation

mutual

/-- The word that a derivation is read as. -/
def read (R : Reading α) : Derivation → List α
  | matched c a => R.token c a
  | derived a ds => R.node a (readAll R ds)

/-- The word that several derivations are read as, one after the other. -/
def readAll (R : Reading α) : List Derivation → List α
  | [] => []
  | d :: ds => read R d ++ readAll R ds

end

end Derivation

/-! ### What symbols denote -/

/-- What a symbol denotes in a reading, given what the names do. -/
def Symbol.denote (R : Reading α) (ρ : String → Language α) : Symbol → Language α
  | .terminal m a => {w | ∃ c, m.accepts c = true ∧ w = R.token c a}
  | .nonterminal n a => {w | ∃ v ∈ ρ n, w = R.node a v}

namespace Reading

/-- The sense of a reading: a leaf denotes the readings of the symbols that it becomes, and a reference to a rule
that is not made up those of its nodes, which have the attributes that `attributes` gives. -/
def sense (R : Reading α) (attributes : Label → Attributes) : Sense α where
  leaf l ts :=
    match l.kind with
    | .literal mark value =>
      ((literalSymbols mark value.text.toList (firstOf Directive.replacement? l.pragmas)).map
        (Symbol.denote R fun _ => 0)).prod
    | .insertion value =>
      {R.node (insertionSymbol ((firstOf Directive.replacement? l.pragmas).getD value.text)).attributes []}
    | .inclusion mark => {w | ∃ c, (∃ t ∈ ts, t.kind.Admits c) ∧ w = R.token c (terminalAttributes mark)}
    | .exclusion mark => {w | ∃ c, (¬∃ t ∈ ts, t.kind.Admits c) ∧ w = R.token c (terminalAttributes mark)}
    | _ => 0
  reference l L := {w | (IsMade l.nameText ∧ w ∈ L) ∨ ¬IsMade l.nameText ∧ ∃ v ∈ L, w = R.node (attributes l) v}
  mono _ _ _ h _ hw := hw.imp (And.imp_right fun hw => h hw) (And.imp_right fun ⟨v, hv, hw⟩ => ⟨v, h hv, hw⟩)

/-- A hidden node reads as its parts do. -/
def SeesThrough (R : Reading α) : Prop :=
  ∀ a w, a.mark = '-' → R.node a w = w

variable {R : Reading α} {A : Label → Attributes} {ρ ρ' : String → Language α}

theorem transparent_sense : (R.sense A).Transparent := fun l L hl _ => by
  ext w
  show (IsMade l.nameText ∧ w ∈ L) ∨ _ ↔ w ∈ L
  simp [hl]

theorem denote_terminals {ss : List Symbol} (h : ∀ s ∈ ss, s.isTerminal = true) :
    ss.map (Symbol.denote R ρ) = ss.map (Symbol.denote R ρ') := by
  refine List.map_congr_left fun s hs => ?_
  cases s with
  | terminal m a => rfl
  | nonterminal n a => exact absurd (h _ hs) (by simp [Symbol.isTerminal])

theorem isTerminal_literalSymbols {mark : TerminalMark} {text : List Char} {o : Option String} :
    ∀ s ∈ literalSymbols mark text o, s.isTerminal = true := by
  intro s hs
  obtain ⟨i, hi, rfl⟩ := List.mem_mapIdx.mp hs
  rfl

/-- Terminals for each of some characters denote the tokens of these, where a token is read as one thing. -/
theorem prod_terminals (token : Char → Attributes → α) (hR : ∀ c a, R.token c a = [token c a]) (f : Nat → Attributes)
    (text : List Char) :
    ((text.mapIdx fun i c => Symbol.terminal (.char c) (f i)).map (Symbol.denote R ρ)).prod =
      {text.mapIdx fun i c => token c (f i)} := by
  induction text generalizing f with
  | nil => rfl
  | cons c text ih =>
    rw [List.mapIdx_cons, List.map_cons, List.prod_cons, ih fun i => f (i + 1), List.mapIdx_cons]
    ext w
    rw [Language.mem_mul]
    constructor
    · rintro ⟨u, ⟨d, hd, rfl⟩, v, rfl, rfl⟩
      rw [Matcher.accepts, beq_iff_eq] at hd
      rw [hd, hR]
      rfl
    · rintro rfl
      exact ⟨_, ⟨c, beq_self_eq_true c, rfl⟩, _, rfl, by rw [hR]; rfl⟩

variable {g : Grammar} {t : Layout} {ss : List Symbol}

/-- The symbols that a factor becomes denote what the factor does. -/
theorem denote_becomes (h : Becomes g t ss)
    (hl : t.kind.isNonterminal = true → (Symbol.denote R ρ (usedSymbol g t.label)) =
      (R.sense A).reference t.label (ρ t.label.nameText))
    (hins : ss.any isInsertion = true → ρ insertionRule = 1) :
    (ss.map (Symbol.denote R ρ)).prod = t.erase.denote (R.sense A) ρ := by
  cases h with
  | @nonterminal i l ts hk =>
    rw [erase_node, Tree.denote_of_nonterminal hk, List.map_singleton, List.prod_singleton]
    exact hl hk
  | @literal i l ts mark value hk =>
    rw [erase_node, Tree.denote_of_isFlat (by rw [hk]; rfl) (by rw [hk]; rfl),
      denote_terminals isTerminal_literalSymbols]
    simp only [sense, hk]
    rfl
  | @insertion i l ts value hk =>
    rw [erase_node, Tree.denote_of_isFlat (by rw [hk]; rfl) (by rw [hk]; rfl)]
    simp only [sense, hk, List.map_singleton, List.prod_singleton]
    have hone : ρ insertionRule = 1 := hins (by rw [List.any_cons, isInsertion_insertionSymbol]; rfl)
    ext w
    constructor
    · rintro ⟨v, hv, rfl⟩
      rw [hone, Language.mem_one] at hv
      rw [hv]
      rfl
    · rintro rfl
      exact ⟨[], by rw [hone]; exact Language.nil_mem_one, rfl⟩
  | @set i l ts mark inclusion s description hk hs hd =>
    have hflat : l.kind.isNonterminal = false ∧ l.kind.isFlat = true := by
      rw [hk]
      cases inclusion <;> exact ⟨rfl, rfl⟩
    rw [erase_node, Tree.denote_of_isFlat hflat.1 hflat.2, List.map_singleton, List.prod_singleton]
    have hmem (c : Char) : s.contains c = true ↔ ∃ t ∈ ts.map erase, t.kind.Admits c := by
      rw [hs]
      simp
    cases inclusion with
    | true =>
      simp only [sense, hk, Construct.setOf, if_true]
      ext w
      show (∃ c, (s.contains c == true) = true ∧ w = _) ↔ ∃ c, (∃ t ∈ ts.map erase, t.kind.Admits c) ∧ w = _
      simp only [← hmem, beq_true]
    | false =>
      simp only [sense, hk, Construct.setOf, Bool.false_eq_true, if_false]
      ext w
      show (∃ c, (s.contains c == false) = true ∧ w = _) ↔ ∃ c, (¬∃ t ∈ ts.map erase, t.kind.Admits c) ∧ w = _
      simp only [← hmem, beq_false, Bool.not_eq_true, Bool.not_eq_true']

theorem mem_reference {l : Label} {L : Language α} {w : List α} : w ∈ (R.sense A).reference l L ↔
    (IsMade l.nameText ∧ w ∈ L) ∨ ¬IsMade l.nameText ∧ ∃ v ∈ L, w = R.node (A l) v :=
  Iff.rfl

end Reading

/-! ### What the rules denote -/

namespace Bnf.OfGrammar

variable {rootLabel : Label} {b g : Grammar} {J W : List Layout} {m : Nat} {B : Bnf} {R : Reading α}
  {A : Label → Attributes} {ρ : String → Language α} {l : Label} {ks : List Construct} {t : Layout} {r : Rule}
  {n : String}

/-- Made-up names other than the one of insertions denote nothing without a rule. -/
def Grounded (J : List Layout) (ρ : String → Language α) : Prop :=
  ∀ X, X ≠ insertionRule → IsMade X → (∃ t ∈ J, IsRuleNamed X t) ∨ ρ X = 0

theorem denote_usedSymbol (h : Holds rootLabel b J W g) (hS : Stock.Sound ⟨J, m⟩) (hR : R.SeesThrough)
    (ha : ∀ l, ¬IsMade l.nameText → A l = (usedSymbol g l).attributes) (hρ : Grounded J ρ)
    (hp : Proper m l ks) (hl : l.kind.isNonterminal = true) :
    Symbol.denote R ρ (usedSymbol g l) = (R.sense A).reference l (ρ l.nameText) := by
  ext w
  rw [Reading.mem_reference]
  show (∃ v ∈ ρ l.nameText, w = R.node (usedSymbol g l).attributes v) ↔ _
  by_cases hn : IsMade l.nameText
  · simp only [hn, true_and, not_true_eq_false, false_and, or_false]
    rcases hρ _ (nameText_ne_insertionRule hp) hn with hr | h0
    · have hmark := mark_usedSymbol_of_isMade h hS hp hl hn hr
      simp only [hR _ _ hmark, exists_eq_right']
    · simp [h0, Language.notMem_zero]
  · simp only [hn, false_and, not_false_eq_true, true_and, false_or, ha l hn]

theorem denote_parts (h : Holds rootLabel b J W g) (hS : Stock.Sound ⟨J, m⟩) (hR : R.SeesThrough)
    (ha : ∀ l, ¬IsMade l.nameText → A l = (usedSymbol g l).attributes) (hρ : Grounded J ρ) {cs : List Layout}
    {parts : List (List Symbol)} (hcs : List.Forall₂ (Becomes g) cs parts) (hp : ∀ c ∈ cs, c.Every (Proper m))
    (hins : parts.flatten.any isInsertion = true → ρ insertionRule = 1) :
    (parts.flatten.map (Symbol.denote R ρ)).prod = (cs.map fun c => c.erase.denote (R.sense A) ρ).prod := by
  induction hcs with
  | nil => rfl
  | @cons c ss cs parts hc _ ih =>
    rw [List.flatten_cons, List.any_append, Bool.or_eq_true] at hins
    rw [List.flatten_cons, List.map_append, List.prod_append, List.map_cons, List.prod_cons,
      ih (fun c hc => hp c (List.mem_cons_of_mem _ hc)) fun h => hins (Or.inr h),
      Reading.denote_becomes hc (fun hk => ?_) fun h => hins (Or.inl h)]
    have hpc := hp c (List.mem_cons_self ..)
    obtain ⟨i, k, us⟩ := c
    exact denote_usedSymbol h hS hR ha hρ (every_node.mp hpc).1 hk

/-- A canonical rule denotes what the rule that it becomes does. -/
theorem denote_rule_of_becomes (h : Holds rootLabel b J W g) (hS : Stock.Sound ⟨J, m⟩) (hR : R.SeesThrough)
    (ha : ∀ l, ¬IsMade l.nameText → A l = (usedSymbol g l).attributes) (hρ : Grounded J ρ) (ht : t ∈ J)
    (hr : t.kind.isRule = true) (hc : Canonical t) (hb : BecomesRule g t r)
    (hins : r.rhs.any isInsertion = true → ρ insertionRule = 1) :
    (r.rhs.map (Symbol.denote R ρ)).prod = t.erase.denote (R.sense A) ρ := by
  obtain ⟨a, parts, ha', hparts, hrhs⟩ := hb.rhs
  obtain ⟨a₁, ha₁, hk, -⟩ := hc.isFlat (hS.proper t ht) hr
  obtain rfl : a = a₁ := by rw [ha₁] at ha'; simpa using ha'.symm
  obtain ⟨i, l, ts⟩ := t
  obtain rfl : ts = [a] := ha₁
  obtain ⟨j, k, cs⟩ := a
  have hcs := (every_node.mp ((every_node.mp (hS.proper _ ht)).2 _ (List.mem_singleton_self _))).2
  rw [denote_rule (l := l) hr, denote_erase (l := k) hk rfl, hrhs]
  rw [hrhs] at hins
  exact denote_parts h hS hR ha hρ hparts hcs hins

/-! ### What is built -/

theorem BecomesRule.name_eq (h : BecomesRule g t r) : r.name = t.label.nameText := by
  rw [Rule.name, h.lhs]
  rfl

namespace IsBuilt

/-- A rule comes from a rule of that name, or is the shared one of insertions. -/
theorem exists_of_mem (hB : IsBuilt g J B) (hr : r ∈ B.rulesFor n) :
    (∃ t ∈ J, IsRuleNamed n t ∧ BecomesRule g t r) ∨ n = insertionRule ∧ r = insertionRuleEntry := by
  obtain ⟨hr, hn⟩ := List.mem_filter.mp hr
  rw [beq_iff_eq] at hn
  obtain ⟨rs, hrs, hrules⟩ := hB.rules
  have hmem : r ∈ rs ∨ r = insertionRuleEntry := by
    rw [hrules] at hr
    split at hr
    · simpa using hr
    · exact Or.inl hr
  rcases hmem with hmem | rfl
  · obtain ⟨t, ht, hb⟩ := exists_of_forall₂ hrs.flip hmem
    obtain ⟨ht, hrule⟩ := List.mem_filter.mp ht
    exact Or.inl ⟨t, ht, ⟨hrule, hb.name_eq.symm.trans hn⟩, hb⟩
  · exact Or.inr ⟨hn.symm, rfl⟩

theorem exists_mem (hB : IsBuilt g J B) (ht : t ∈ J) (hr : t.kind.isRule = true) :
    ∃ r ∈ B.rulesFor t.label.nameText, BecomesRule g t r := by
  obtain ⟨rs, hrs, hrules⟩ := hB.rules
  obtain ⟨r, hr, hb⟩ := exists_of_forall₂ hrs (List.mem_filter.mpr ⟨ht, hr⟩)
  refine ⟨r, List.mem_filter.mpr ⟨?_, by rw [hb.name_eq]; exact beq_self_eq_true _⟩, hb⟩
  rw [hrules]
  split
  · exact List.mem_append_left _ hr
  · exact hr

theorem exists_start (hB : IsBuilt g J B) : ∃ t ∈ J, t.kind.isRule = true ∧ B.start = definedSymbol g t.label := by
  obtain ⟨t, ht, hstart⟩ := hB.start
  have hrule := List.find?_some ht
  rw [Bool.and_eq_true] at hrule
  exact ⟨t, List.mem_of_find?_eq_some ht, hrule.1, hstart⟩

/-- A symbol on a right-hand side is one of those that a factor of a rule becomes. -/
theorem exists_factor (hB : IsBuilt g J B) (hr : r ∈ B.rules) {x : Symbol} (hx : x ∈ r.rhs) :
    ∃ t ∈ J, t.kind.isRule = true ∧ BecomesRule g t r ∧ ∃ a, t.children = [a] ∧
      ∃ u ∈ a.children, ∃ xs, Becomes g u xs ∧ x ∈ xs := by
  have hmem : r ∈ B.rulesFor r.name := List.mem_filter.mpr ⟨hr, beq_self_eq_true _⟩
  rcases hB.exists_of_mem hmem with ⟨t, ht, hrule, hbecomes⟩ | ⟨-, rfl⟩
  · obtain ⟨a, parts, ha, hparts, hrhs⟩ := hbecomes.rhs
    rw [hrhs] at hx
    obtain ⟨xs, hxs, hx⟩ := List.mem_flatten.mp hx
    obtain ⟨u, hu, hbec⟩ := exists_of_forall₂ hparts.flip hxs
    exact ⟨t, ht, hrule.1, hbecomes, a, ha, u, hu, xs, hbec, hx⟩
  · cases hx

/-- Where there is an insertion there is the rule that it refers to. -/
theorem insertionRule_mem (hB : IsBuilt g J B) (hr : r ∈ B.rules) (hins : r.rhs.any isInsertion = true) :
    insertionRuleEntry ∈ B.rulesFor insertionRule := by
  obtain ⟨rs, hrs, hrules⟩ := hB.rules
  refine List.mem_filter.mpr ⟨?_, rfl⟩
  have hmem : r ∈ rs ∨ r = insertionRuleEntry := by
    rw [hrules] at hr
    split at hr
    · simpa using hr
    · exact Or.inl hr
  rcases hmem with hmem | rfl
  · rw [hrules, if_pos (List.any_eq_true.mpr ⟨r, hmem, hins⟩)]
    simp
  · cases hins

end IsBuilt

/-- The readings of what a name derives. -/
def readings (R : Reading α) (B : Bnf) (n : String) : Language α :=
  {w | ∃ ds, B.NameDerives n ds ∧ Derivation.readAll R ds = w}

/-- A word that symbols denote is the reading of what they derive. -/
theorem exists_derives {ss : List Symbol} {w : List α}
    (hw : w ∈ (ss.map (Symbol.denote R (readings R B))).prod) :
    ∃ ds, B.Derives ss ds ∧ Derivation.readAll R ds = w := by
  induction ss generalizing w with
  | nil =>
    rw [List.map_nil, List.prod_nil, Language.mem_one] at hw
    exact ⟨[], .nil, hw.symm⟩
  | cons s ss ih =>
    rw [List.map_cons, List.prod_cons, Language.mem_mul] at hw
    obtain ⟨u, hu, v, hv, rfl⟩ := hw
    obtain ⟨ds, hds, rfl⟩ := ih hv
    cases s with
    | terminal k a =>
      obtain ⟨c, hc, rfl⟩ := hu
      exact ⟨.matched c a :: ds, .terminal hc hds, rfl⟩
    | nonterminal n a =>
      obtain ⟨_, ⟨es, ⟨r, hr, hes⟩, rfl⟩, rfl⟩ := hu
      exact ⟨.derived a es :: ds, .nonterminal hr hes hds, rfl⟩

/-- What is derived reads as a word that the symbols denote, if the rules denote no more than their names. -/
theorem readAll_mem (hρ : ∀ n, ∀ r ∈ B.rulesFor n, (r.rhs.map (Symbol.denote R ρ)).prod ≤ ρ n) {ss : List Symbol}
    {ds : List Derivation} (h : B.Derives ss ds) :
    Derivation.readAll R ds ∈ (ss.map (Symbol.denote R ρ)).prod := by
  induction h with
  | nil =>
    rw [List.map_nil, List.prod_nil]
    exact Language.nil_mem_one
  | @terminal k a c ss ds hc _ ih =>
    rw [List.map_cons, List.prod_cons]
    exact Language.append_mem_mul ⟨c, hc, rfl⟩ ih
  | @nonterminal n a r es ds ss hr _ _ ihes ih =>
    rw [List.map_cons, List.prod_cons]
    exact Language.append_mem_mul ⟨_, hρ n r hr ihes, rfl⟩ ih

theorem exists_rule_of_readings_ne (hB : IsBuilt g J B) : Grounded J (readings R B) := by
  intro X hX _
  by_cases hrule : ∃ t ∈ J, IsRuleNamed X t
  · exact Or.inl hrule
  · refine Or.inr (Set.eq_empty_of_forall_notMem fun w ⟨ds, ⟨r, hr, _⟩, _⟩ => ?_)
    rcases hB.exists_of_mem hr with ⟨t, ht, hn, -⟩ | ⟨hn, -⟩
    · exact hrule ⟨t, ht, hn⟩
    · exact hX hn

theorem readings_insertionRule (hB : IsBuilt g J B) (hne : ∀ t ∈ J, ¬IsRuleNamed insertionRule t) (hr : r ∈ B.rules)
    (hins : r.rhs.any isInsertion = true) : readings R B insertionRule = 1 := by
  ext w
  rw [Language.mem_one]
  constructor
  · rintro ⟨ds, ⟨r', hr', hds⟩, rfl⟩
    rcases hB.exists_of_mem hr' with ⟨t, ht, hn, -⟩ | ⟨-, rfl⟩
    · exact absurd hn (hne t ht)
    · cases hds
      rfl
  · rintro rfl
    exact ⟨[], ⟨_, hB.insertionRule_mem hr hins, .nil⟩, rfl⟩

theorem grounded_meaning (σ : Sense α) (L : Language α) :
    Grounded J (Function.update (Stock.meaning σ ⟨J, m⟩) insertionRule L) := by
  intro X hX _
  by_cases hrule : ∃ t ∈ J, IsRuleNamed X t
  · exact Or.inl hrule
  · rw [Function.update_of_ne hX]
    refine Or.inr (Set.eq_empty_of_forall_notMem fun w hw => hrule ?_)
    obtain ⟨t, ht, hn, -⟩ := Stock.mem_meaning.mp hw
    exact ⟨t, ht, hn⟩

/-- The names of a canonical grammar denote the readings of their derivations. -/
theorem IsBuilt.meaning_eq_readings (hB : IsBuilt g J B) (h : Holds rootLabel b J W g) (hS : Stock.Sound ⟨J, m⟩)
    (hcan : ∀ t ∈ J, Canonical t) (hR : R.SeesThrough)
    (ha : ∀ l, ¬IsMade l.nameText → A l = (usedSymbol g l).attributes) (hn : n ≠ insertionRule) :
    Stock.meaning (R.sense A) ⟨J, m⟩ n = readings R B n := by
  have hfresh {t : Layout} (ht : t ∈ J) : t.Every fun l _ => l.nameText ≠ insertionRule :=
    (hS.proper t ht).mono fun _ _ hp => nameText_ne_insertionRule hp
  have hne (t : Layout) (ht : t ∈ J) : t.label.nameText ≠ insertionRule := by
    have := hfresh ht
    obtain ⟨i, l, ts⟩ := t
    exact (every_node.mp this).1
  have hle : ∀ n, ∀ r ∈ B.rulesFor n,
      (r.rhs.map (Symbol.denote R (Function.update (Stock.meaning (R.sense A) ⟨J, m⟩) insertionRule 1))).prod ≤
        Function.update (Stock.meaning (R.sense A) ⟨J, m⟩) insertionRule 1 n := by
    intro n r hr
    rcases hB.exists_of_mem hr with ⟨t, ht, ⟨hrule, rfl⟩, hb⟩ | ⟨rfl, rfl⟩
    · rw [denote_rule_of_becomes h hS hR ha (grounded_meaning _ 1) ht hrule (hcan t ht) hb fun _ =>
        Function.update_self .., denote_update (hfresh ht), Function.update_of_ne (hne t ht)]
      exact Stock.closed_meaning t ht hrule
    · rw [Function.update_self]
      exact le_rfl
  refine le_antisymm (Stock.meaning_le (fun t ht hrule w hw => ?_) n) fun w ⟨ds, ⟨r, hr, hds⟩, hw⟩ => ?_
  · obtain ⟨r, hr, hb⟩ := hB.exists_mem ht hrule
    have hins : r.rhs.any isInsertion = true → readings R B insertionRule = 1 :=
      readings_insertionRule hB (fun t ht hn => hne t ht hn.2) (List.mem_of_mem_filter hr)
    rw [← denote_rule_of_becomes h hS hR ha (exists_rule_of_readings_ne hB) ht hrule (hcan t ht) hb hins] at hw
    obtain ⟨ds, hds, hw⟩ := exists_derives hw
    exact ⟨ds, ⟨r, hr, hds⟩, hw⟩
  · rw [← hw]
    have := hle n r hr (readAll_mem hle hds)
    rwa [Function.update_of_ne hn] at this

end Bnf.OfGrammar

end Ixml
