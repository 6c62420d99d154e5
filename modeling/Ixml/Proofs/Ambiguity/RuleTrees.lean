import Ixml.Proofs.Ambiguity.Counting
import Ixml.Proofs.Recogniser.Spans

/-!
# Trees of rules

A `RuleTree` tells by which rule each nonterminal is derived, by its position among the rules. The derivations of a text
have the heights that its trees have (`mem_heights_iff`). A name has no more trees for a text than tallies say that are
`Bounded` by the rules (`count_treesTo_le`): this is shown for trees up to a height, from those that are lower.
-/

namespace Ixml

open Tally

inductive RuleTree
  | leaf (c : Char)
  /-- The rule, by its position in the grammar, and the trees of its symbols. -/
  | node (position : Nat) (trees : List RuleTree)

namespace RuleTree

mutual

def yield : RuleTree → List Char
  | leaf c => [c]
  | node _ ts => yieldAll ts

def yieldAll : List RuleTree → List Char
  | [] => []
  | t :: ts => yield t ++ yieldAll ts

end

mutual

/-- The height of a tree; that of a leaf is zero. -/
def height : RuleTree → Nat
  | leaf _ => 0
  | node _ ts => heightAll ts + 1

def heightAll : List RuleTree → Nat
  | [] => 0
  | t :: ts => max (height t) (heightAll ts)

end

end RuleTree

/-- The tally of a symbol, given those of the names. -/
noncomputable def Symbol.tally (ρ : String → Tally Char) : Symbol → Tally Char
  | .terminal m _ => indicator {w | ∃ c, m.accepts c = true ∧ w = [c]}
  | .nonterminal n _ => ρ n

/-- What a rule adds to the tally of a name. -/
noncomputable def Rule.share (ρ : String → Tally Char) (n : String) (r : Rule) : Tally Char :=
  if r.name = n then (r.rhs.map (Symbol.tally ρ)).prod else 0

namespace Bnf

/-- `B.Builds ss ts` says that `ts` are derivation trees for the symbols `ss` by the rules. -/
inductive Builds (B : Bnf) : List Symbol → List RuleTree → Prop
  | nil : Builds B [] []
  | terminal {m : Matcher} {a : Attributes} {c : Char} {ss : List Symbol} {ts : List RuleTree}
    (hc : m.accepts c = true) (h : Builds B ss ts) : Builds B (.terminal m a :: ss) (.leaf c :: ts)
  | nonterminal {n : String} {a : Attributes} {i : Nat} {r : Rule} {us ts : List RuleTree} {ss : List Symbol}
    (hr : B.rules[i]? = some r) (hn : r.name = n) (hus : Builds B r.rhs us) (h : Builds B ss ts) :
    Builds B (.nonterminal n a :: ss) (.node i us :: ts)

def trees (B : Bnf) (n : String) : Set RuleTree :=
  {t | ∃ i r us, t = .node i us ∧ B.rules[i]? = some r ∧ r.name = n ∧ B.Builds r.rhs us}

variable {B : Bnf} {s : Symbol} {ss : List Symbol} {n : String} {ρ : String → Tally Char} {w : List Char} {k : Nat}

/-! ### Trees of symbols -/

theorem builds_nil_iff {ts : List RuleTree} : B.Builds [] ts ↔ ts = [] :=
  ⟨fun h => by cases h; rfl, fun h => h ▸ .nil⟩

theorem builds_terminal_iff {m : Matcher} {a : Attributes} {ts : List RuleTree} :
    B.Builds (.terminal m a :: ss) ts ↔ ∃ c us, m.accepts c = true ∧ B.Builds ss us ∧ ts = .leaf c :: us := by
  constructor
  · rintro (_ | ⟨hc, h⟩)
    exact ⟨_, _, hc, h, rfl⟩
  · rintro ⟨c, us, hc, h, rfl⟩
    exact .terminal hc h

theorem builds_nonterminal_iff {a : Attributes} {ts : List RuleTree} :
    B.Builds (.nonterminal n a :: ss) ts ↔ ∃ t us, t ∈ B.trees n ∧ B.Builds ss us ∧ ts = t :: us := by
  constructor
  · rintro (_ | _ | ⟨hr, hn, hus, h⟩)
    exact ⟨_, _, ⟨_, _, _, rfl, hr, hn, hus⟩, h, rfl⟩
  · rintro ⟨_, us, ⟨i, r, vs, rfl, hr, hn, hvs⟩, h, rfl⟩
    exact .nonterminal hr hn hvs h

theorem mem_trees_iff {t : RuleTree} : t ∈ B.trees n ↔
    ∃ x ∈ B.rules.zipIdx.filter (·.1.name == n), ∃ us, t = .node x.2 us ∧ B.Builds x.1.rhs us := by
  simp only [List.mem_filter, beq_iff_eq]
  constructor
  · rintro ⟨i, r, us, rfl, hr, hn, hus⟩
    exact ⟨(r, i), ⟨List.mem_zipIdx_iff_getElem?.mpr hr, hn⟩, us, rfl, hus⟩
  · rintro ⟨⟨r, i⟩, ⟨hr, hn⟩, us, rfl, hus⟩
    exact ⟨i, r, us, rfl, List.mem_zipIdx_iff_getElem?.mp hr, hn, hus⟩

/-! ### Derivations and trees -/

theorem Derives.exists_builds {ds : List Derivation} (h : B.Derives ss ds) :
    ∃ ts, B.Builds ss ts ∧ RuleTree.yieldAll ts = Derivation.inputAll ds ∧
      RuleTree.heightAll ts = Derivation.heightAll ds := by
  induction h with
  | nil => exact ⟨[], .nil, rfl, rfl⟩
  | @terminal m a c ss ds hc _ ih =>
    obtain ⟨ts, hts, hy, hh⟩ := ih
    refine ⟨.leaf c :: ts, .terminal hc hts, by rw [RuleTree.yieldAll, hy]; rfl, ?_⟩
    rw [RuleTree.heightAll, hh]
    rfl
  | @nonterminal n a r es ds ss hr _ _ ihes ih =>
    obtain ⟨us, hus, hyu, hhu⟩ := ihes
    obtain ⟨ts, hts, hyt, hht⟩ := ih
    obtain ⟨hr, hn⟩ := List.mem_filter.mp hr
    obtain ⟨i, hi⟩ := List.getElem?_of_mem hr
    refine ⟨.node i us :: ts, .nonterminal hi (by simpa using hn) hus hts, ?_, ?_⟩
    · rw [RuleTree.yieldAll, RuleTree.yield, hyu, hyt]
      rfl
    · rw [RuleTree.heightAll, RuleTree.height, hhu, hht]
      rfl

theorem Builds.exists_derives {ts : List RuleTree} (h : B.Builds ss ts) :
    ∃ ds, B.Derives ss ds ∧ Derivation.inputAll ds = RuleTree.yieldAll ts ∧
      Derivation.heightAll ds = RuleTree.heightAll ts := by
  induction h with
  | nil => exact ⟨[], .nil, rfl, rfl⟩
  | @terminal m a c ss ts hc _ ih =>
    obtain ⟨ds, hds, hin, hh⟩ := ih
    refine ⟨.matched c a :: ds, .terminal hc hds, by rw [Derivation.inputAll, hin]; rfl, ?_⟩
    rw [Derivation.heightAll, hh]
    rfl
  | @nonterminal n a i r us ts ss hr hn _ _ ihus ih =>
    obtain ⟨es, hes, hine, hhe⟩ := ihus
    obtain ⟨ds, hds, hin, hh⟩ := ih
    have hmem : r ∈ B.rulesFor n := List.mem_filter.mpr ⟨List.mem_of_getElem? hr, by simpa using hn⟩
    refine ⟨.derived a es :: ds, .nonterminal hmem hes hds, ?_, ?_⟩
    · rw [Derivation.inputAll, Derivation.input, hine, hin]
      rfl
    · rw [Derivation.heightAll, Derivation.height, hhe, hh]
      rfl

/-- The heights of the derivations of a text are those of its trees. -/
theorem mem_heights_iff : k ∈ B.heights n w ↔ ∃ t ∈ B.trees n, t.yield = w ∧ t.height = k := by
  constructor
  · rintro ⟨ds, ⟨r, hr, hds⟩, rfl, rfl⟩
    obtain ⟨us, hus, hy, hh⟩ := hds.exists_builds
    obtain ⟨hr, hn⟩ := List.mem_filter.mp hr
    obtain ⟨i, hi⟩ := List.getElem?_of_mem hr
    exact ⟨.node i us, ⟨i, r, us, rfl, hi, by simpa using hn, hus⟩, by rw [RuleTree.yield, hy],
      by rw [RuleTree.height, hh]⟩
  · rintro ⟨_, ⟨i, r, us, rfl, hr, hn, hus⟩, rfl, rfl⟩
    obtain ⟨ds, hds, hin, hh⟩ := hus.exists_derives
    exact ⟨ds, ⟨r, List.mem_filter.mpr ⟨List.mem_of_getElem? hr, by simpa using hn⟩, hds⟩, hin,
      by rw [RuleTree.height, hh]⟩

theorem mem_language_iff_exists_tree : w ∈ B.language n ↔ ∃ t ∈ B.trees n, t.yield = w := by
  rw [← nonempty_heights_iff]
  constructor
  · rintro ⟨k, hk⟩
    obtain ⟨t, ht, hy, -⟩ := mem_heights_iff.mp hk
    exact ⟨t, ht, hy⟩
  · rintro ⟨t, ht, hy⟩
    exact ⟨t.height, mem_heights_iff.mpr ⟨t, ht, hy, rfl⟩⟩

/-! ### Their number -/

/-- The rules of each name have no more ways together than the name has. -/
def Bounded (B : Bnf) (ρ : String → Tally Char) : Prop :=
  ∀ n, (B.rules.map (Rule.share ρ n)).sum ≤ ρ n

/-- Derivation trees of a name that are no higher than `k`. -/
def treesTo (B : Bnf) (k : Nat) (n : String) : Set RuleTree :=
  {t ∈ B.trees n | t.height ≤ k}

/-- Trees for symbols that are no higher than `k`. -/
def buildsTo (B : Bnf) (k : Nat) (ss : List Symbol) : Set (List RuleTree) :=
  {ts | B.Builds ss ts ∧ RuleTree.heightAll ts ≤ k}

theorem buildsTo_cons_subset : B.buildsTo k (s :: ss) ⊆ (fun x : RuleTree × List RuleTree => x.1 :: x.2) ''
    ({t | B.Builds [s] [t] ∧ t.height ≤ k} ×ˢ B.buildsTo k ss) := by
  rintro ts ⟨hts, hk⟩
  cases hts with
  | @terminal _ _ c _ ts hc hts =>
    rw [RuleTree.heightAll, Nat.max_le] at hk
    exact ⟨(.leaf c, ts), ⟨⟨.terminal hc .nil, hk.1⟩, hts, hk.2⟩, rfl⟩
  | @nonterminal _ _ i _ us ts _ hr hn hus hts =>
    rw [RuleTree.heightAll, Nat.max_le] at hk
    exact ⟨(.node i us, ts), ⟨⟨.nonterminal hr hn hus .nil, hk.1⟩, hts, hk.2⟩, rfl⟩

theorem count_symbol_le (h : ∀ n, count (B.treesTo k n) RuleTree.yield ≤ ρ n) (s : Symbol) :
    count {t | B.Builds [s] [t] ∧ t.height ≤ k} RuleTree.yield ≤ s.tally ρ := by
  cases s with
  | terminal m a =>
    refine count_le_indicator ?_ ?_
    · rintro t ⟨ht, -⟩
      cases ht with
      | @terminal m a c _ _ hc _ => exact ⟨c, hc, rfl⟩
    · rintro t ⟨ht, -⟩ u ⟨hu, -⟩ heq
      cases ht with
      | terminal _ _ =>
        cases hu with
        | terminal _ _ => simpa [RuleTree.yield] using heq
  | nonterminal n a =>
    refine (count_mono ?_).trans (h n)
    rintro t ⟨ht, hk⟩
    cases ht with
    | nonterminal hr hn hus _ => exact ⟨⟨_, _, _, rfl, hr, hn, hus⟩, hk⟩

theorem count_buildsTo_le (h : ∀ n, count (B.treesTo k n) RuleTree.yield ≤ ρ n) (ss : List Symbol) :
    count (B.buildsTo k ss) RuleTree.yieldAll ≤ (ss.map (Symbol.tally ρ)).prod := by
  induction ss with
  | nil =>
    rw [List.map_nil, List.prod_nil, ← indicator_one]
    refine count_le_indicator ?_ ?_
    · rintro _ ⟨⟨⟩, -⟩
      rfl
    · rintro _ ⟨⟨⟩, -⟩ _ ⟨⟨⟩, -⟩ -
      rfl
  | cons s ss ih =>
    have himage : Set.InjOn (fun x : RuleTree × List RuleTree => x.1 :: x.2)
        ({t | B.Builds [s] [t] ∧ t.height ≤ k} ×ˢ B.buildsTo k ss) := by
      rintro ⟨t, ts⟩ - ⟨u, us⟩ - heq
      simpa using heq
    rw [List.map_cons, List.prod_cons]
    refine ((count_mono buildsTo_cons_subset).trans (count_image himage).le).trans ?_
    refine le_trans (le_of_eq ?_) (mul_mono (count_symbol_le h s) ih)
    rw [count_mul]
    simp only [RuleTree.yieldAll]

theorem treesTo_succ_subset : B.treesTo (k + 1) n ⊆ (fun x : Nat × List RuleTree => .node x.1 x.2) ''
    indexed B.rules fun r => {us | r.name = n ∧ us ∈ B.buildsTo k r.rhs} := by
  rintro _ ⟨⟨i, r, us, rfl, hr, hn, hus⟩, hk⟩
  rw [RuleTree.height, Nat.add_le_add_iff_right] at hk
  exact ⟨(i, us), ⟨r, hr, hn, hus, hk⟩, rfl⟩

theorem count_treesTo_le (hρ : B.Bounded ρ) (k : Nat) (n : String) :
    count (B.treesTo k n) RuleTree.yield ≤ ρ n := by
  induction k generalizing n with
  | zero =>
    have hno : B.treesTo 0 n = ∅ := Set.eq_empty_of_forall_notMem fun t ⟨⟨i, r, us, ht, _⟩, hk⟩ => by
      rw [ht, RuleTree.height] at hk
      omega
    rw [hno, count_empty]
    exact zero_le _
  | succ k ih =>
    have himage : Set.InjOn (fun x : Nat × List RuleTree => RuleTree.node x.1 x.2)
        (indexed B.rules fun r => {us | r.name = n ∧ us ∈ B.buildsTo k r.rhs}) := fun x _ y _ heq => by
      simpa [Prod.ext_iff] using heq
    refine ((count_mono treesTo_succ_subset).trans (count_image himage).le).trans ?_
    simp only [RuleTree.yield]
    rw [count_indexed]
    -- the trees with one rule at the top are no more than the share of that rule
    refine (List.sum_le_sum fun r _ => ?_).trans (hρ n)
    rw [Rule.share]
    split
    · exact (count_mono fun us hus => hus.2).trans (count_buildsTo_le ih r.rhs)
    · next hn =>
      rw [show {us | r.name = n ∧ us ∈ B.buildsTo k r.rhs} = ∅ from
        Set.eq_empty_of_forall_notMem fun us hus => hn hus.1, count_empty]

/-- A text for which the tally of a name is at most one has at most one derivation tree. -/
theorem tree_unique (hρ : B.Bounded ρ) (hw : ρ n w ≤ 1) {t u : RuleTree} (ht : t ∈ B.trees n) (hu : u ∈ B.trees n)
    (htw : t.yield = w) (huw : u.yield = w) : t = u := by
  have hle := (count_treesTo_le hρ (max t.height u.height) n w).trans hw
  exact Set.encard_le_one_iff.mp hle t u ⟨⟨ht, Nat.le_max_left ..⟩, htw⟩ ⟨⟨hu, Nat.le_max_right ..⟩, huw⟩

end Bnf

end Ixml
