import Ixml.Proofs.Recogniser.Rounds

/-!
# Dividing spans

When all spans are recorded (`IsComplete`), each of them has a rule among whose symbols it can be divided, by spans
that are lower than itself (`ways_ne_nil`). The limit on the number of divisions only cuts off those that come later:
while none has been found all are still wanted (`collect_ne_nil`), so that the first is always found.
-/

namespace Ixml.Recognition

variable {r : Recognition} {B : Bnf} {input : String} {p q j k h bound limit last : Nat} {n : String} {a : Attributes}
  {span : Span} {s : Symbol} {ss : List Symbol} {parts : List Part} {way : Rule × List Part}
  {f : Nat → Nat → List (List Part)} {qs : List Nat}

/-- All spans are recorded, each with the height of its lowest derivation. -/
def IsComplete (r : Recognition) : Prop :=
  ∀ n p q h, r.heights[(⟨n, p, q⟩ : Span)]? = some h ↔
    p ≤ q ∧ q ≤ r.input.size ∧ IsLeast (r.grammar.heights n (r.between p q)) h

theorem isComplete_ofInput (B : Bnf) (input : String) : (ofInput B input).IsComplete ∧
    (ofInput B input).grammar = B ∧ (ofInput B input).input = input.toList.toArray := by
  have hempty := upTo_empty B input.toList.toArray
  have hs := saturates_rounds hempty (Nat.lt_succ_of_le (card_missing_le _))
  obtain ⟨k, hk, hnew, hgrammar, hinput⟩ := hs.exists_upTo hempty rfl
  exact ⟨fun n p q h => hk.getElem?_eq_some_iff hnew, hgrammar, hinput⟩

theorem IsComplete.exists_height_iff (hr : r.IsComplete) :
    (∃ h, r.heights[(⟨n, p, q⟩ : Span)]? = some h) ↔
      p ≤ q ∧ q ≤ r.input.size ∧ r.between p q ∈ r.grammar.language n := by
  constructor
  · rintro ⟨h, hh⟩
    obtain ⟨hpq, hq, hleast⟩ := (hr n p q h).mp hh
    exact ⟨hpq, hq, Bnf.nonempty_heights_iff.mp ⟨h, hleast.1⟩⟩
  · rintro ⟨hpq, hq, hin⟩
    obtain ⟨h, hleast⟩ := exists_isLeast (Bnf.nonempty_heights_iff.mpr hin)
    exact ⟨h, (hr n p q h).mpr ⟨hpq, hq, hleast⟩⟩

/-- An input is recognised just if the start symbol derives it. -/
theorem isSome_parse?_iff : (parse? B input).isSome = true ↔ input.toList ∈ B.language B.startName := by
  obtain ⟨hr, hgrammar, hinput⟩ := isComplete_ofInput B input
  have hwhole := hr.exists_height_iff (n := B.startName) (p := 0) (q := (ofInput B input).input.size)
  rw [between_whole, hinput, hgrammar] at hwhole
  simp only [Nat.zero_le, List.size_toArray, Nat.le_refl, true_and] at hwhole
  rw [← hwhole, ← Option.isSome_iff_exists, Std.HashMap.isSome_getElem?_eq_contains, parse?, whole, hgrammar, hinput,
    List.size_toArray]
  simp

/-- What is recognised is complete, and the start symbol has a height over the whole input. -/
theorem isComplete_of_parse? (h : parse? B input = some r) : r.IsComplete ∧ r.grammar = B ∧
    r.input = input.toList.toArray ∧ ∃ k, r.heights[r.whole]? = some k := by
  obtain ⟨hr, hgrammar, hinput⟩ := isComplete_ofInput B input
  simp only [parse?] at h
  split at h
  · next hc =>
    cases h
    rw [← Std.HashMap.isSome_getElem?_eq_contains, Option.isSome_iff_exists] at hc
    exact ⟨hr, hgrammar, hinput, hc⟩
  · cases h

/-! ### Divisions -/

/-- `r.Divides bound ss p q parts` says that the symbols `ss` stand for the `parts` from `p` to `q`, one for each: a
terminal for a character that it matches, a nonterminal for a span lower than `bound`. -/
inductive Divides (r : Recognition) (bound : Nat) : List Symbol → Nat → Nat → List Part → Prop
  | nil {p : Nat} : Divides r bound [] p p []
  | matched {m : Matcher} {a : Attributes} {c : Char} {ss : List Symbol} {p q : Nat} {parts : List Part}
    (hp : r.input[p]? = some c) (hc : m.accepts c = true) (h : Divides r bound ss (p + 1) q parts) :
    Divides r bound (.terminal m a :: ss) p q (.matched p :: parts)
  | derived {n : String} {a : Attributes} {ss : List Symbol} {p j q k : Nat} {parts : List Part}
    (hk : r.heights[(⟨n, p, j⟩ : Span)]? = some k) (hlt : k < bound) (h : Divides r bound ss j q parts) :
    Divides r bound (.nonterminal n a :: ss) p q (.derived p j :: parts)

theorem Divides.le (hr : r.IsComplete) (h : r.Divides bound ss p q parts) : p ≤ q := by
  induction h with
  | nil => exact Nat.le_refl _
  | matched _ _ _ ih => omega
  | derived hk _ _ ih =>
    have := ((hr _ _ _ _).mp hk).1
    omega

/-- Symbols that have low derivations of a part of the input can divide it. -/
theorem IsComplete.exists_divides (hr : r.IsComplete) (h : r.DerivesPart k ss p q) :
    ∃ parts, r.Divides (k + 1) ss p q parts := by
  induction ss generalizing p with
  | nil =>
    obtain ⟨rfl, -⟩ := derivesPart_nil_iff.mp h
    exact ⟨[], .nil⟩
  | cons s ss ih =>
    obtain ⟨j, hs, hss⟩ := derivesPart_cons_iff.mp h
    obtain ⟨parts, hparts⟩ := ih hss
    cases s with
    | terminal m a =>
      obtain ⟨rfl, hat⟩ := derivesPart_terminal_iff.mp hs
      obtain ⟨c, hp, hc⟩ := acceptsAt_terminal.mp hat
      exact ⟨_, .matched hp hc hparts⟩
    | nonterminal n a =>
      obtain ⟨hpj, hj, h, hh, hk⟩ := derivesPart_nonterminal_iff.mp hs
      obtain ⟨l, hleast⟩ := exists_isLeast ⟨h, hh⟩
      have hlk : l ≤ k := Nat.le_trans (hleast.2 hh) hk
      exact ⟨_, .derived ((hr n p j l).mpr ⟨hpj, hj, hleast⟩) (Nat.lt_succ_of_le hlk) hparts⟩

/-! ### What is collected -/

theorem mem_collect (h : parts ∈ collect f limit qs) : ∃ q ∈ qs, ∃ l, parts ∈ f l q := by
  induction qs generalizing limit with
  | nil => cases h
  | cons q qs ih =>
    rw [collect] at h
    split at h
    · cases h
    · rcases List.mem_append.mp h with h | h
      · exact ⟨q, List.mem_cons_self .., limit, h⟩
      · obtain ⟨q', hq', hl⟩ := ih h
        exact ⟨q', List.mem_cons_of_mem _ hq', hl⟩

/-- As long as nothing has been collected, as much is wanted as at first. -/
theorem collect_ne_nil (hlimit : 0 < limit) (hq : q ∈ qs) (h : f limit q ≠ []) : collect f limit qs ≠ [] := by
  induction qs with
  | nil => cases hq
  | cons q' qs ih =>
    rw [collect, if_neg (Nat.ne_of_gt hlimit)]
    dsimp only
    by_cases hhere : f limit q' = []
    · rw [hhere, List.nil_append, List.length_nil, Nat.sub_zero]
      rcases List.mem_cons.mp hq with rfl | hq
      · exact absurd hhere h
      · exact ih hq
    · simp [hhere]

theorem divides_of_mem_divisions (h : parts ∈ r.divisions bound last ss limit p) : r.Divides bound ss p last parts := by
  induction ss generalizing limit p parts with
  | nil =>
    rw [divisions] at h
    split at h
    · cases h
    split at h
    · next hp =>
      rw [List.mem_singleton.mp h, hp]
      exact .nil
    · cases h
  | cons s ss ih =>
    cases s with
    | nonterminal n a =>
      rw [divisions] at h
      obtain ⟨q, hq, l, h⟩ := mem_collect h
      obtain ⟨parts, hparts, rfl⟩ := List.mem_map.mp h
      obtain ⟨-, hq⟩ := List.mem_filter.mp hq
      simp only [Bool.and_eq_true] at hq
      obtain ⟨k, hk, hlt⟩ := below_iff.mp hq.2
      exact .derived hk hlt (ih hparts)
    | terminal m a =>
      rw [divisions] at h
      · split at h
        · next hp =>
          rw [Bool.and_eq_true] at hp
          obtain ⟨c, hat, hc⟩ := acceptsAt_terminal.mp hp.2
          obtain ⟨parts, hparts, rfl⟩ := List.mem_map.mp h
          exact .matched hat hc (ih hparts)
        · cases h
      · exact nofun

/-- Where there is a division, one is found. -/
theorem IsComplete.divisions_ne_nil (hr : r.IsComplete) (h : r.Divides bound ss p q parts) (hlimit : 0 < limit) :
    r.divisions bound q ss limit p ≠ [] := by
  induction h with
  | nil =>
    rw [divisions, if_neg (Nat.ne_of_gt hlimit), if_pos rfl]
    exact List.cons_ne_nil _ _
  | matched hp hc h ih =>
    have hle := h.le hr
    rw [divisions, if_pos, withPart]
    · simpa using ih
    · rw [Bool.and_eq_true, decide_eq_true_eq]
      exact ⟨by omega, acceptsAt_terminal.mpr ⟨_, hp, hc⟩⟩
    · exact nofun
  | @derived n a ss p j q k parts hk hlt h ih =>
    have hjq := h.le hr
    obtain ⟨hpj, hj, -⟩ := (hr _ _ _ _).mp hk
    rw [divisions]
    refine collect_ne_nil (q := j) hlimit (List.mem_filter.mpr ⟨List.mem_range.mpr (Nat.lt_succ_of_le hj), ?_⟩) ?_
    · simp only [Bool.and_eq_true, decide_eq_true_eq]
      exact ⟨⟨hpj, hjq⟩, below_iff.mpr ⟨k, hk, hlt⟩⟩
    · rw [withPart]
      simpa using ih

/-! ### Ways -/

theorem divides_of_mem_ways (h : way ∈ r.ways bound span) :
    way.1 ∈ r.grammar.rulesFor span.name ∧ r.Divides bound way.1.rhs span.first span.last way.2 := by
  obtain ⟨rule, hrule, hway⟩ := List.mem_flatMap.mp h
  obtain ⟨parts, hparts, rfl⟩ := List.mem_map.mp hway
  exact ⟨hrule, divides_of_mem_divisions hparts⟩

/-- A span can be derived by one of its rules from spans that are lower. -/
theorem IsComplete.ways_ne_nil (hr : r.IsComplete) (h : r.heights[span]? = some k) : r.ways k span ≠ [] := by
  obtain ⟨n, p, q⟩ := span
  obtain ⟨hpq, hq, ⟨ds, ⟨rule, hrule, hds⟩, hin, hk⟩, -⟩ := (hr n p q k).mp h
  have hpart : r.DerivesPart (Derivation.heightAll ds) rule.rhs p q := ⟨hpq, hq, ds, hds, hin, Nat.le_refl _⟩
  obtain ⟨parts, hparts⟩ := hr.exists_divides hpart
  rw [← hk] at hparts
  have hne : r.divisions _ q rule.rhs divisionLimit p ≠ [] := hr.divisions_ne_nil hparts (by decide)
  obtain ⟨parts', hparts'⟩ := List.exists_mem_of_ne_nil _ hne
  exact List.ne_nil_of_mem (List.mem_flatMap.mpr ⟨rule, hrule, List.mem_map_of_mem hparts'⟩)

end Ixml.Recognition
