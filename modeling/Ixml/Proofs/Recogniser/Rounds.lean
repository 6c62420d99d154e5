import Ixml.Proofs.Recogniser.Spans

/-!
# Rounds recognise exactly what is derived

After round `k` the spans with derivations that are no higher than `k` are recorded (`UpTo.record`). A round that
finds nothing new shows that there are no others (`UpTo.contains_iff_of_newSpans`), and such a round comes, as there
are only finitely many spans (`saturates_rounds`). So an input is recognised just if the start symbol derives it, and
the recorded heights are those of the lowest derivations (`recognised_iff_derived`).
-/

namespace Ixml.Recognition

variable {r r' : Recognition} {B : Bnf} {p q k h fuel round : Nat} {n : String} {span : Span} {spans : List Span}
  {ss : List Symbol} {ds : List Derivation}

/-- `Saturates round r r'` says that rounds, without a bound, lead from `r` to `r'`, where a round finds nothing
new; `round` is the number of the first one. -/
inductive Saturates : Nat → Recognition → Recognition → Prop
  | stop {round : Nat} {r : Recognition} (h : r.newSpans round = []) : Saturates round r r
  | go {round : Nat} {r r' : Recognition} (h : r.newSpans round ≠ [])
    (hs : Saturates (round + 1) (r.record round (r.newSpans round)) r') : Saturates round r r'

/-! ### A round -/

theorem getElem?_foldl_insertIfNew (m : Heights) : (spans.foldl (fun m s => m.insertIfNew s h) m)[span]? =
    (m[span]?).or (if span ∈ spans then some h else none) := by
  induction spans generalizing m with
  | nil => simp
  | cons s spans ih =>
    rw [List.foldl_cons, ih, Std.HashMap.getElem?_insertIfNew]
    by_cases hs : s = span
    · subst hs
      by_cases hm : s ∈ m <;> simp [hm]
    · have hs' : span ≠ s := fun h => hs h.symm
      simp [hs, hs']

theorem getElem?_record : (r.record h spans).heights[span]? =
    (r.heights[span]?).or (if span ∈ spans then some h else none) :=
  getElem?_foldl_insertIfNew r.heights

/-- A round leads from the heights up to `k` to those up to `k + 1`. -/
theorem UpTo.record (hr : r.UpTo k) : (r.record (k + 1) (r.newSpans (k + 1))).UpTo (k + 1) := by
  intro n p q h
  rw [getElem?_record, Option.or_eq_some_iff]
  show _ ↔ p ≤ q ∧ q ≤ r.input.size ∧ h ≤ k + 1 ∧ IsLeast (r.grammar.heights n (r.between p q)) h
  constructor
  · rintro (hh | ⟨-, hh⟩)
    · obtain ⟨hpq, hq, hk, hleast⟩ := (hr n p q h).mp hh
      exact ⟨hpq, hq, Nat.le_succ_of_le hk, hleast⟩
    · split at hh
      · next hmem =>
        obtain rfl := Option.some.inj hh
        obtain ⟨hpq, hq, hleast⟩ := hr.mem_newSpans.mp hmem
        exact ⟨hpq, hq, Nat.le_refl _, hleast⟩
      · cases hh
  · rintro ⟨hpq, hq, hk, hleast⟩
    rcases Nat.lt_or_eq_of_le hk with hlt | rfl
    · exact Or.inl ((hr n p q h).mpr ⟨hpq, hq, Nat.le_of_lt_succ hlt, hleast⟩)
    · refine Or.inr ⟨?_, if_pos (hr.mem_newSpans.mpr ⟨hpq, hq, hleast⟩)⟩
      -- the least height is this one, so that there was none from before
      rw [Option.eq_none_iff_forall_not_mem]
      intro h hh
      obtain ⟨-, -, hk, hleast'⟩ := (hr n p q h).mp hh
      have := hleast.unique hleast'
      omega

theorem upTo_empty (B : Bnf) (input : Array Char) : UpTo { grammar := B, input := input } 0 := by
  intro n p q h
  rw [Std.HashMap.getElem?_empty]
  constructor
  · exact nofun
  · rintro ⟨-, -, hle, ⟨ds, -, -, rfl⟩, -⟩
    exact absurd hle (Nat.not_succ_le_zero _)

/-! ### The last round -/

/-- If a round finds nothing new, then whatever symbols derive, they have low derivations of it. -/
theorem UpTo.derivesPart (hr : r.UpTo k) (hnew : r.newSpans (k + 1) = []) (hds : r.grammar.Derives ss ds) :
    ∀ p q, p ≤ q → q ≤ r.input.size → Derivation.inputAll ds = r.between p q → r.DerivesPart k ss p q := by
  induction hds with
  | nil => exact fun p q hpq hq hin => ⟨hpq, hq, [], .nil, hin, Nat.zero_le k⟩
  | @terminal m a c ss ds hc _ ih =>
    intro p q hpq hq hin
    obtain ⟨j, hpj, hjq, hu, hv⟩ := (append_eq_between hpq hq).mp hin
    have hj : j ≤ r.input.size := Nat.le_trans hjq hq
    exact derivesPart_cons_iff.mpr ⟨j, ⟨hpj, hj, [.matched c a], .terminal hc .nil, hu, Nat.zero_le k⟩,
      ih j q hjq hq hv⟩
  | @nonterminal n a rule es ds ss hrule _ _ ihes ih =>
    intro p q hpq hq hin
    obtain ⟨j, hpj, hjq, hu, hv⟩ := (append_eq_between hpq hq).mp hin
    have hj : j ≤ r.input.size := Nat.le_trans hjq hq
    refine derivesPart_cons_iff.mpr ⟨j, derivesPart_nonterminal_iff.mpr ⟨hpj, hj, ?_⟩, ih j q hjq hq hv⟩
    -- the parts of the node are low, so the node is low or new
    obtain ⟨-, -, ds', hds', hin', hk⟩ := ihes p j hpj hj hu
    have hmem : Derivation.heightAll ds' + 1 ∈ r.grammar.heights n (r.between p j) :=
      ⟨ds', ⟨rule, hrule, hds'⟩, hin', rfl⟩
    obtain ⟨h, hleast⟩ := exists_isLeast ⟨_, hmem⟩
    have hle : h ≤ k + 1 := Nat.le_trans (hleast.2 hmem) (Nat.succ_le_succ hk)
    rcases Nat.lt_or_eq_of_le hle with hlt | rfl
    · exact ⟨h, hleast.1, Nat.le_of_lt_succ hlt⟩
    · have hfound := hr.mem_newSpans.mpr ⟨hpj, hj, hleast⟩
      rw [hnew] at hfound
      cases hfound

theorem UpTo.contains_iff_of_newSpans (hr : r.UpTo k) (hnew : r.newSpans (k + 1) = []) :
    r.heights.contains ⟨n, p, q⟩ = true ↔ p ≤ q ∧ q ≤ r.input.size ∧ r.between p q ∈ r.grammar.language n := by
  rw [hr.contains_iff]
  constructor
  · rintro ⟨hpq, hq, h, hh, -⟩
    exact ⟨hpq, hq, Bnf.nonempty_heights_iff.mp ⟨h, hh⟩⟩
  · rintro ⟨hpq, hq, ds, ⟨rule, hrule, hds⟩, hin⟩
    have hnode : r.grammar.Derives [.nonterminal n default] [.derived default ds] := .nonterminal hrule hds .nil
    have hpart := hr.derivesPart hnew hnode p q hpq hq (by
      rw [Derivation.inputAll, Derivation.inputAll, List.append_nil]
      exact hin)
    exact derivesPart_nonterminal_iff.mp hpart

theorem UpTo.getElem?_eq_some_iff (hr : r.UpTo k) (hnew : r.newSpans (k + 1) = []) :
    r.heights[(⟨n, p, q⟩ : Span)]? = some h ↔
      p ≤ q ∧ q ≤ r.input.size ∧ IsLeast (r.grammar.heights n (r.between p q)) h := by
  rw [hr n p q h]
  refine and_congr_right fun hpq => and_congr_right fun hq => ⟨And.right, fun hleast => ⟨?_, hleast⟩⟩
  have hin := Bnf.nonempty_heights_iff.mp ⟨h, hleast.1⟩
  obtain ⟨-, -, j, hj, hjk⟩ := hr.contains_iff.mp ((hr.contains_iff_of_newSpans hnew).mpr ⟨hpq, hq, hin⟩)
  exact Nat.le_trans (hleast.2 hj) hjk

/-! ### All rounds -/

/-- The spans that there can be. -/
def candidates (r : Recognition) : Finset Span :=
  (r.grammar.rules.flatMap fun rule => r.places.flatMap fun p => r.places.map fun q => ⟨rule.name, p, q⟩).toFinset

/-- Those of them that have no height yet. -/
def missing (r : Recognition) : Finset Span :=
  r.candidates.filter fun s => r.heights.contains s = false

theorem card_missing_le (r : Recognition) : r.missing.card ≤ spanCount r.grammar r.input.size := by
  refine (Finset.card_filter_le _ _).trans ((List.toFinset_card_le _).trans (Nat.le_of_eq ?_))
  simp [places, spanCount, Nat.mul_assoc]

theorem UpTo.newSpans_subset (hr : r.UpTo k) : ∀ s ∈ r.newSpans (k + 1), s ∈ r.missing := by
  rintro ⟨n, p, q⟩ hs
  obtain ⟨hpq, hq, hleast⟩ := hr.mem_newSpans.mp hs
  obtain ⟨ds, ⟨rule, hrule, -⟩, -⟩ := hleast.1
  obtain ⟨hrule, hn⟩ := List.mem_filter.mp hrule
  rw [beq_iff_eq] at hn
  refine Finset.mem_filter.mpr ⟨?_, ?_⟩
  · simp only [candidates, places, List.mem_toFinset, List.mem_flatMap, List.mem_map, List.mem_range]
    exact ⟨rule, hrule, p, by omega, q, by omega, by rw [hn]⟩
  · rw [Bool.eq_false_iff]
    intro hc
    obtain ⟨-, -, h, hh, hle⟩ := hr.contains_iff.mp hc
    have := hleast.2 hh
    omega

theorem contains_record : (r.record h spans).heights.contains span = true ↔
    r.heights.contains span = true ∨ span ∈ spans := by
  rw [← Std.HashMap.isSome_getElem?_eq_contains, ← Std.HashMap.isSome_getElem?_eq_contains, getElem?_record,
    Option.isSome_or, Bool.or_eq_true]
  refine or_congr_right ?_
  split <;> simp [*]

/-- A round that finds something leaves fewer spans without a height. -/
theorem UpTo.card_missing_record (hr : r.UpTo k) (hne : r.newSpans (k + 1) ≠ []) :
    (r.record (k + 1) (r.newSpans (k + 1))).missing.card < r.missing.card := by
  refine Finset.card_lt_card (Finset.ssubset_iff_subset_ne.mpr ⟨fun s hs => ?_, fun heq => ?_⟩)
  · obtain ⟨hc, hno⟩ := Finset.mem_filter.mp hs
    refine Finset.mem_filter.mpr ⟨hc, ?_⟩
    rw [Bool.eq_false_iff] at hno ⊢
    exact fun h => hno (contains_record.mpr (Or.inl h))
  · obtain ⟨s, hs⟩ := List.exists_mem_of_ne_nil _ hne
    have hmem := hr.newSpans_subset s hs
    rw [← heq] at hmem
    have hno := (Finset.mem_filter.mp hmem).2
    rw [contains_record.mpr (Or.inr hs)] at hno
    cases hno

/-- The rounds do not run out before nothing new is found. -/
theorem saturates_rounds (hr : r.UpTo k) (hfuel : r.missing.card < fuel) :
    Saturates (k + 1) r (rounds fuel (k + 1) r) := by
  induction fuel generalizing r k with
  | zero => exact absurd hfuel (Nat.not_lt_zero _)
  | succ fuel ih =>
    rw [rounds]
    split
    · next hnew => exact .stop hnew
    · next hne =>
      have hlt := hr.card_missing_record hne
      exact .go hne (ih hr.record (by omega))

theorem Saturates.exists_upTo (hs : Saturates round r r') (hr : r.UpTo k) (hround : round = k + 1) :
    ∃ j, r'.UpTo j ∧ r'.newSpans (j + 1) = [] ∧ r'.grammar = r.grammar ∧ r'.input = r.input := by
  induction hs generalizing k with
  | stop hnew =>
    subst hround
    exact ⟨k, hr, hnew, rfl, rfl⟩
  | go _ _ ih =>
    subst hround
    exact ih hr.record rfl

/-- On every grammar and every input the rounds come to one that finds nothing new. An input is recognised just if
the start symbol derives it; a span has a height just if its name derives that part of the input, and the height is
that of the lowest derivation. -/
theorem recognised_iff_derived (B : Bnf) (input : String) :
    Saturates 1 { grammar := B, input := input.toList.toArray } (ofInput B input) ∧
      ((parse? B input).isSome = true ↔ input.toList ∈ B.language B.startName) ∧
      ∀ n p q, ((∃ h, (ofInput B input).heights[(⟨n, p, q⟩ : Span)]? = some h) ↔
          p ≤ q ∧ q ≤ input.toList.length ∧ (input.toList.drop p).take (q - p) ∈ B.language n) ∧
        ∀ h, (ofInput B input).heights[(⟨n, p, q⟩ : Span)]? = some h ↔ p ≤ q ∧ q ≤ input.toList.length ∧
          IsLeast (B.heights n ((input.toList.drop p).take (q - p))) h := by
  have hempty := upTo_empty B input.toList.toArray
  have hs : Saturates 1 { grammar := B, input := input.toList.toArray } (ofInput B input) :=
    saturates_rounds hempty (Nat.lt_succ_of_le (card_missing_le _))
  obtain ⟨k, hk, hnew, hgrammar, hinput⟩ := hs.exists_upTo hempty rfl
  have hbetween (p q : Nat) : (ofInput B input).between p q = (input.toList.drop p).take (q - p) := by
    rw [between, hinput]
  have hsize : (ofInput B input).input.size = input.toList.length := by
    rw [hinput, List.size_toArray]
  refine ⟨hs, ?_, fun n p q => ⟨?_, fun h => ?_⟩⟩
  · have hwhole : (ofInput B input).heights.contains (ofInput B input).whole = true ↔
        input.toList ∈ B.language B.startName := by
      rw [whole, hk.contains_iff_of_newSpans hnew, between_whole, hinput, hgrammar]
      simp
    rw [← hwhole, parse?]
    simp
  · rw [← Option.isSome_iff_exists, Std.HashMap.isSome_getElem?_eq_contains, hk.contains_iff_of_newSpans hnew, hsize,
      hbetween, hgrammar]
  · rw [hk.getElem?_eq_some_iff hnew, hsize, hbetween, hgrammar]

end Ixml.Recognition
