import Mathlib.Data.List.Forall2
import Ixml.Chooser
import Ixml.Proofs.Decimal.Order
import Ixml.Proofs.Work

/-!
# What is chosen, and what is counted

The first of the greatest weights is found in one pass (`exists_isFirstGreatest`), whatever linear order the comparison
stands for; that of weights is the order of their ranks, as long as they are numbers. A chooser counts the lists of more
than one alternative that it is asked about, and among them those in which the greatest weight is shared
(`exists_choose_eq`); over a run the counts add up (`exists_mapM_choose_eq`).
-/

namespace Ixml

theorem one_lt_length_filter_iff {α : Type} {p : α → Bool} {xs : List α} :
    1 < (xs.filter p).length ↔ ∃ x y, [x, y].Sublist xs ∧ p x = true ∧ p y = true := by
  constructor
  · intro h
    match hf : xs.filter p, h with
    | x :: y :: zs, _ =>
      have hmem (z : α) (hz : z ∈ x :: y :: zs) : p z = true := (List.mem_filter.mp (hf ▸ hz)).2
      refine ⟨x, y, .trans ?_ (List.filter_sublist (p := p)), hmem x (by simp), hmem y (by simp)⟩
      rw [hf]
      exact (List.nil_sublist zs).cons_cons y |>.cons_cons x
  · rintro ⟨x, y, h, hx, hy⟩
    have hf := (h.filter p).length_le
    rwa [List.filter_cons_of_pos hx, List.filter_cons_of_pos hy] at hf

namespace Chooser

/-! ### The first of the greatest -/

section Best

variable {α κ : Type} [LinearOrder κ] {f : α → κ} {lt : α → α → Bool} {x y : α} {xs ys : List α} {i : Nat}

/-- The value `x` at the index `i` is greater than those before it and no less than those after it. -/
def IsFirstGreatest (f : α → κ) (xs : List α) (i : Nat) (x : α) : Prop :=
  ∃ before after, xs = before ++ x :: after ∧ before.length = i ∧ (∀ y ∈ before, f y < f x) ∧ ∀ y ∈ after, f y ≤ f x

namespace IsFirstGreatest

theorem le (h : IsFirstGreatest f xs i x) : ∀ y ∈ xs, f y ≤ f x := by
  obtain ⟨before, after, rfl, -, hb, ha⟩ := h
  intro y hy
  rcases List.mem_append.mp hy with hy | hy
  · exact le_of_lt (hb y hy)
  rcases List.mem_cons.mp hy with rfl | hy
  · exact le_refl _
  · exact ha y hy

theorem getElem?_eq (h : IsFirstGreatest f xs i x) : xs[i]? = some x := by
  obtain ⟨before, after, rfl, rfl, -, -⟩ := h
  simp

theorem lt_of_mem_take (h : IsFirstGreatest f xs i x) : ∀ y ∈ xs.take i, f y < f x := by
  obtain ⟨before, after, rfl, rfl, hb, -⟩ := h
  rwa [List.take_left]

theorem singleton (x : α) : IsFirstGreatest f [x] 0 x :=
  ⟨[], [], rfl, rfl, by simp, by simp⟩

theorem append_of_le (h : IsFirstGreatest f xs i x) (hy : f y ≤ f x) : IsFirstGreatest f (xs ++ [y]) i x := by
  obtain ⟨before, after, rfl, hi, hb, ha⟩ := h
  refine ⟨before, after ++ [y], by simp, hi, hb, List.forall_mem_append.mpr ⟨ha, ?_⟩⟩
  rwa [List.forall_mem_singleton]

theorem append_of_lt (h : IsFirstGreatest f xs i x) (hy : f x < f y) :
    IsFirstGreatest f (xs ++ [y]) xs.length y :=
  ⟨xs, [], rfl, rfl, fun z hz => lt_of_le_of_lt (h.le z hz) hy, by simp⟩

end IsFirstGreatest

/-- What has been passed is `xs`. -/
theorem isFirstGreatest_bestFrom (hlt : ∀ x ∈ xs ++ ys, ∀ y ∈ xs ++ ys, lt x y = decide (f x < f y))
    (h : IsFirstGreatest f xs i x) :
    IsFirstGreatest f (xs ++ ys) (bestFrom lt (i, x) xs.length ys).1 (bestFrom lt (i, x) xs.length ys).2 := by
  induction ys generalizing xs i x with
  | nil =>
    rw [List.append_nil]
    exact h
  | cons y ys ih =>
    have hx : x ∈ xs ++ y :: ys := List.mem_append_left _ (List.mem_of_getElem? h.getElem?_eq)
    have hstep : IsFirstGreatest f (xs ++ [y]) (if lt x y then (xs.length, y) else (i, x)).1
        (if lt x y then (xs.length, y) else (i, x)).2 := by
      rw [hlt x hx y (by simp)]
      by_cases hxy : f x < f y
      · simpa [hxy] using h.append_of_lt hxy
      · simpa [hxy] using h.append_of_le (not_lt.mp hxy)
    have hrest := ih (by simpa using hlt) hstep
    rw [bestFrom]
    simpa using hrest

theorem exists_isFirstGreatest (hlt : ∀ x ∈ xs, ∀ y ∈ xs, lt x y = decide (f x < f y)) (hne : xs ≠ []) :
    ∃ i x, best? lt xs = some (i, x) ∧ IsFirstGreatest f xs i x := by
  cases xs with
  | nil => exact absurd rfl hne
  | cons x xs =>
    have hfirst : IsFirstGreatest f [x] 0 x := .singleton x
    exact ⟨_, _, rfl, isFirstGreatest_bestFrom hlt hfirst⟩

end Best

/-! ### One choice -/

variable {rules : List Rule} {c : Chooser}

/-- The alternative at an index is outweighed by none and outweighs all that come before it. -/
def IsFirstBest (rules : List Rule) (i : Nat) : Prop :=
  ∃ r, rules[i]? = some r ∧ (∀ r' ∈ rules, ¬ weight r < weight r') ∧ ∀ r' ∈ rules.take i, weight r' < weight r

theorem IsFirstBest.unique {i j : Nat} (hi : IsFirstBest rules i) (hj : IsFirstBest rules j) : i = j := by
  -- the later of two would outweigh the other
  have hnot {i j : Nat} (hi : IsFirstBest rules i) (hj : IsFirstBest rules j) : ¬i < j := fun hlt => by
    obtain ⟨r, hr, hbest, -⟩ := hi
    obtain ⟨r', hr', -, hbefore⟩ := hj
    have hmem : r ∈ rules.take j := List.mem_of_getElem? ((List.getElem?_take_of_lt hlt).trans hr)
    exact hbest r' (List.mem_of_getElem? hr') (hbefore r hmem)
  exact le_antisymm (not_lt.mp (hnot hj hi)) (not_lt.mp (hnot hi hj))

/-- Two alternatives have the same weight and are outweighed by none. -/
def IsTied (rules : List Rule) : Prop :=
  ∃ r r', [r, r'].Sublist rules ∧ (weight r == weight r') = true ∧ ∀ r'' ∈ rules, ¬ weight r < weight r''

section Numbers

variable {r r' : Rule} {i : Nat} (hw : ∀ r ∈ rules, (weight r).isNaN = false)
include hw

theorem weight_lt_iff (hr : r ∈ rules) (hr' : r' ∈ rules) :
    weight r < weight r' ↔ Decimal.rank (weight r) < Decimal.rank (weight r') :=
  Decimal.lt_iff_rank_lt (hw r hr) (hw r' hr')

theorem weight_beq_iff (hr : r ∈ rules) (hr' : r' ∈ rules) :
    (weight r == weight r') = true ↔ Decimal.rank (weight r) = Decimal.rank (weight r') :=
  Decimal.beq_iff_rank_eq (hw r hr) (hw r' hr')

theorem isFirstBest_of_getElem? (hr : rules[i]? = some r)
    (h : IsFirstGreatest Decimal.rank (rules.map weight) i (weight r)) : IsFirstBest rules i := by
  have hmem := List.mem_of_getElem? hr
  have hbefore := h.lt_of_mem_take
  rw [← List.map_take] at hbefore
  refine ⟨r, hr, fun r' hr' => ?_, fun r' hr' => ?_⟩
  · rw [weight_lt_iff hw hmem hr', not_lt]
    exact h.le _ (List.mem_map_of_mem hr')
  · rw [weight_lt_iff hw (List.mem_of_mem_take hr') hmem]
    exact hbefore _ (List.mem_map_of_mem hr')

/-- The greatest weight occurs more than once just if two alternatives share it. -/
theorem one_lt_length_filter_weight_iff (hr : r ∈ rules)
    (hle : ∀ r' ∈ rules, Decimal.rank (weight r') ≤ Decimal.rank (weight r)) :
    1 < ((rules.map weight).filter (· == weight r)).length ↔ IsTied rules := by
  rw [List.filter_map, List.length_map, one_lt_length_filter_iff]
  constructor
  · rintro ⟨r₁, r₂, hsub, h₁, h₂⟩
    have hm₁ : r₁ ∈ rules := hsub.subset (by simp)
    have hm₂ : r₂ ∈ rules := hsub.subset (by simp)
    have he₁ := (weight_beq_iff hw hm₁ hr).mp h₁
    have he₂ := (weight_beq_iff hw hm₂ hr).mp h₂
    refine ⟨r₁, r₂, hsub, (weight_beq_iff hw hm₁ hm₂).mpr (he₁.trans he₂.symm), fun r' hr' => ?_⟩
    rw [weight_lt_iff hw hm₁ hr', he₁, not_lt]
    exact hle r' hr'
  · rintro ⟨r₁, r₂, hsub, heq, hmax⟩
    have hm₁ : r₁ ∈ rules := hsub.subset (by simp)
    have hm₂ : r₂ ∈ rules := hsub.subset (by simp)
    have hge := hmax r hr
    rw [weight_lt_iff hw hm₁ hr, not_lt] at hge
    have he₁ := le_antisymm (hle r₁ hm₁) hge
    have he₂ := ((weight_beq_iff hw hm₁ hm₂).mp heq).symm.trans he₁
    exact ⟨r₁, r₂, hsub, (weight_beq_iff hw hm₁ hr).mpr he₁, (weight_beq_iff hw hm₂ hr).mpr he₂⟩

theorem exists_isFirstBest (hne : rules ≠ []) :
    ∃ i top, best? (fun (x y : Float) => decide (x < y)) (rules.map weight) = some (i, top) ∧ IsFirstBest rules i ∧
      (1 < ((rules.map weight).filter (· == top)).length ↔ IsTied rules) := by
  have hlt : ∀ x ∈ rules.map weight, ∀ y ∈ rules.map weight,
      decide (x < y) = decide (Decimal.rank x < Decimal.rank y) := by
    simp only [List.forall_mem_map]
    exact fun r hr r' hr' => decide_eq_decide.mpr (weight_lt_iff hw hr hr')
  obtain ⟨i, top, hbest, hfirst⟩ := exists_isFirstGreatest hlt (by simpa using hne)
  obtain ⟨r, hr, rfl⟩ : ∃ r, rules[i]? = some r ∧ weight r = top := by
    simpa [Option.map_eq_some_iff] using hfirst.getElem?_eq
  refine ⟨i, weight r, hbest, isFirstBest_of_getElem? hw hr hfirst,
    one_lt_length_filter_weight_iff hw (List.mem_of_getElem? hr) fun r' hr' => ?_⟩
  exact hfirst.le _ (List.mem_map_of_mem hr')

end Numbers

/-- The state after a choice among several alternatives. -/
def counted (c : Chooser) (tied : Prop) [Decidable tied] : Chooser :=
  { c with choices := c.choices + 1, undecided := if tied then c.undecided + 1 else c.undecided }

/-- Where there is no alternative, nothing is counted. -/
theorem yields_choose_of_le (h : rules.length ≤ 1) (c : Chooser) : (choose rules).Yields c (.ok (0, c)) := by
  rw [choose, if_pos h]
  exact .pure 0 c

theorem yields_choose {i : Nat} {top : Float} (h : 1 < rules.length)
    (hbest : best? (fun (x y : Float) => decide (x < y)) (rules.map weight) = some (i, top)) (c : Chooser) :
    (choose rules).Yields c (.ok (i, c.counted (1 < ((rules.map weight).filter (· == top)).length))) := by
  rw [choose, if_neg (Nat.not_le.mpr h)]
  dsimp only
  rw [hbest]
  exact .bind_ok (.update _ c) (.bind_ok (.detail _ _) (.pure i _))

/-- Among several alternatives one is chosen, whatever the weights are. -/
theorem exists_yields_choose (h : 1 < rules.length) (c : Chooser) :
    ∃ i tied, (choose rules).Yields c (.ok (i, c.counted (tied = true))) := by
  match rules, h with
  | r :: rules, h => exact ⟨_, decide (1 < _), by simpa using yields_choose h rfl c⟩

/-! ### Runs -/

/-- What a chooser can be asked. -/
inductive Request
  | choose (rules : List Rule)
  | noteLoop (symbol : Symbol)

def Request.work : Request → Work Chooser Unit
  | choose rules => do let _ ← Chooser.choose rules
  | noteLoop symbol => Chooser.noteLoop symbol

theorem yields_noteLoop (symbol : Symbol) (c : Chooser) :
    (noteLoop symbol).Yields c (.ok ((), { c with loops := c.loops ++ [symbol.text] })) :=
  .bind_ok (.detail _ c) (.update _ c)

/-- Whatever a chooser is asked, it has no more undecided choices than choices. -/
theorem undecided_le_of_request (x : Request) (h : c.undecided ≤ c.choices) :
    ∃ c', x.work.Yields c (.ok ((), c')) ∧ c'.undecided ≤ c'.choices := by
  cases x with
  | noteLoop symbol => exact ⟨_, yields_noteLoop symbol c, h⟩
  | choose rules =>
    rcases Nat.lt_or_ge 1 rules.length with hlt | hle
    · obtain ⟨i, tied, hy⟩ := exists_yields_choose hlt c
      refine ⟨_, .bind_ok hy (.pure () _), ?_⟩
      show (if tied = true then c.undecided + 1 else c.undecided) ≤ c.choices + 1
      split <;> omega
    · exact ⟨c, .bind_ok (yields_choose_of_le hle c) (.pure () c), h⟩

theorem undecided_le_of_requests (xs : List Request) (h : c.undecided ≤ c.choices) :
    ∃ c', (xs.forM Request.work).Yields c (.ok ((), c')) ∧ c'.undecided ≤ c'.choices := by
  induction xs generalizing c with
  | nil => exact ⟨c, .pure () c, h⟩
  | cons x xs ih =>
    obtain ⟨c₁, hx, h₁⟩ := undecided_le_of_request x h
    obtain ⟨c₂, hxs, h₂⟩ := ih h₁
    exact ⟨c₂, .bind_ok hx hxs, h₂⟩

open Classical in
/-- One list of alternatives adds to the counts what it has. -/
theorem exists_choose_eq (hw : ∀ r ∈ rules, (weight r).isNaN = false) (c : Chooser) :
    ∃ i c', (choose rules).Yields c (.ok (i, c')) ∧ (rules ≠ [] → IsFirstBest rules i) ∧
      c'.choices = c.choices + (if 1 < rules.length then 1 else 0) ∧
      c'.undecided = c.undecided + (if IsTied rules then 1 else 0) := by
  rcases Nat.lt_or_ge 1 rules.length with hlt | hle
  · have hne : rules ≠ [] := List.ne_nil_of_length_pos (by omega)
    obtain ⟨i, top, hbest, hfirst, htied⟩ := exists_isFirstBest hw hne
    refine ⟨i, _, yields_choose hlt hbest c, fun _ => hfirst, ?_, ?_⟩
    · simp [counted, hlt]
    · simp only [counted, htied]
      split <;> rfl
  · have hnot : ¬ IsTied rules := fun ⟨r, r', hsub, _⟩ => by
      have := hsub.length_le
      simp only [List.length_cons, List.length_nil] at this
      omega
    refine ⟨0, c, yields_choose_of_le hle c, fun hne => ?_, by simp [Nat.not_lt.mpr hle], by simp [hnot]⟩
    obtain ⟨r, rfl⟩ : ∃ r, rules = [r] := by
      rw [← List.length_eq_one_iff]
      have := List.length_pos_iff.mpr hne
      omega
    refine ⟨r, rfl, ?_, by simp⟩
    simp only [List.forall_mem_singleton] at hw ⊢
    rw [Decimal.lt_iff_rank_lt hw hw]
    exact lt_irrefl _

open Classical in
theorem exists_mapM_choose_eq {calls : List (List Rule)} (hw : ∀ rules ∈ calls, ∀ r ∈ rules, (weight r).isNaN = false)
    (c : Chooser) : ∃ picks c', (calls.mapM choose).Yields c (.ok (picks, c')) ∧
      List.Forall₂ (fun rules i => rules ≠ [] → IsFirstBest rules i) calls picks ∧
      c'.choices = c.choices + calls.countP (1 < ·.length) ∧
      c'.undecided = c.undecided + calls.countP (IsTied ·) := by
  induction calls generalizing c with
  | nil => exact ⟨[], c, .pure [] c, .nil, rfl, rfl⟩
  | cons rules calls ih =>
    rw [List.forall_mem_cons] at hw
    obtain ⟨i, c₁, hy, hfirst, hchoices, hundecided⟩ := exists_choose_eq hw.1 c
    obtain ⟨picks, c₂, hys, hall, hchoices', hundecided'⟩ := ih hw.2 c₁
    refine ⟨i :: picks, c₂, ?_, .cons hfirst hall, ?_, ?_⟩
    · rw [List.mapM_cons]
      exact .bind_ok hy (.bind_ok hys (.pure _ _))
    · rw [hchoices', hchoices, List.countP_cons]
      simp only [decide_eq_true_eq]
      omega
    · rw [hundecided', hundecided, List.countP_cons]
      simp only [decide_eq_true_eq]
      omega

/-- As long as all weights are numbers, each time the first of the best alternatives is chosen. At every point of a
run the choices are the lists so far that had several alternatives, and there was an undecided one just if in some of
these the greatest weight was shared. -/
theorem chooses_first_best_and_counts (calls : List (List Rule))
    (hw : ∀ rules ∈ calls, ∀ r ∈ rules, (weight r).isNaN = false) (k : Nat) :
    ∃ picks c, ((calls.take k).mapM choose).Yields {} (.ok (picks, c)) ∧
      List.Forall₂ (fun rules i => rules ≠ [] → IsFirstBest rules i) (calls.take k) picks ∧
      c.choices = (calls.take k).countP (1 < ·.length) ∧
      (c.hadChoice = true ↔ ∃ rules ∈ calls.take k, 1 < rules.length) ∧
      (c.hadUndecided = true ↔ ∃ rules ∈ calls.take k, IsTied rules) := by
  classical
  obtain ⟨picks, c, hy, hall, hchoices, hundecided⟩ :=
    exists_mapM_choose_eq (fun rules h => hw rules (List.mem_of_mem_take h)) {}
  simp only [Nat.zero_add] at hchoices hundecided
  refine ⟨picks, c, hy, hall, hchoices, ?_, ?_⟩
  · rw [hadChoice, hchoices, decide_eq_true_iff, List.countP_pos_iff]
    simp only [decide_eq_true_eq]
  · rw [hadUndecided, hundecided, decide_eq_true_iff, List.countP_pos_iff]
    simp only [decide_eq_true_eq]

/-- In the first list two share the greatest weight, in the second two share one that the last exceeds. -/
theorem chooses_first_best_and_counts_shared :
    let light : Rule := ⟨.nonterminal "s" {}, []⟩
    let heavy : Rule := ⟨.nonterminal "s" (({} : Attributes).set Attributes.priorityKey "1"), []⟩
    (∀ rules ∈ [[light, heavy, heavy], [light, light, heavy]], ∀ r ∈ rules, (weight r).isNaN = false) ∧
      IsFirstBest [light, heavy, heavy] 1 ∧ IsFirstBest [light, light, heavy] 2 ∧
        ∃ c, ([[light, heavy, heavy], [light, light, heavy]].mapM choose).Yields {} (.ok ([1, 2], c)) ∧
          c.choices = 2 ∧ c.hadUndecided = true := by
  intro light heavy
  have hw : ∀ rules ∈ [[light, heavy, heavy], [light, light, heavy]], ∀ r ∈ rules, (weight r).isNaN = false := by
    decide +kernel
  have hfirst : IsFirstBest [light, heavy, heavy] 1 := ⟨heavy, rfl, by decide +kernel, by decide +kernel⟩
  have hsecond : IsFirstBest [light, light, heavy] 2 := ⟨heavy, rfl, by decide +kernel, by decide +kernel⟩
  obtain ⟨picks, c, hy, hall, hchoices, -, hundecided⟩ :=
    chooses_first_best_and_counts [[light, heavy, heavy], [light, light, heavy]] hw 2
  have hpicks : picks = [1, 2] := by
    match picks, hall with
    | [i, j], .cons hi (.cons hj .nil) => rw [(hi (by simp)).unique hfirst, (hj (by simp)).unique hsecond]
  have htied : IsTied [light, heavy, heavy] := ⟨heavy, heavy, List.sublist_cons_self .., by decide +kernel⟩
  exact ⟨hw, hfirst, hsecond, c, hpicks ▸ hy, hchoices, hundecided.mpr ⟨_, List.mem_cons_self .., htied⟩⟩

end Chooser

end Ixml
