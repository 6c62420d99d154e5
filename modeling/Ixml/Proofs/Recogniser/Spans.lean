import Ixml.Proofs.Language.Derivations
import Ixml.Recogniser

/-!
# Spans and derivations

What is recognised from spans of known heights. If the heights up to `k` are recorded (`UpTo`), then `ends` finds
the places up to which symbols have derivations that are no higher than `k` (`mem_ends`), and the new spans are
those whose lowest derivation has the height `k + 1` (`mem_newSpans`).
-/

namespace Ixml

namespace Derivation

mutual

/-- The height of a derivation; that of a character is zero. -/
def height : Derivation → Nat
  | matched _ _ => 0
  | derived _ ds => heightAll ds + 1

/-- The height of the highest of several derivations. -/
def heightAll : List Derivation → Nat
  | [] => 0
  | d :: ds => max (height d) (heightAll ds)

end

end Derivation

namespace Bnf

variable {B : Bnf} {s : Symbol} {ss : List Symbol} {d : Derivation} {es : List Derivation} {n : String}
  {a : Attributes} {m : Matcher} {w : List Char}

/-- The heights of the trees by which a name derives a text. -/
def heights (B : Bnf) (n : String) (w : List Char) : Set Nat :=
  {h | ∃ ds, B.NameDerives n ds ∧ Derivation.inputAll ds = w ∧ h = Derivation.heightAll ds + 1}

theorem nonempty_heights_iff : (B.heights n w).Nonempty ↔ w ∈ B.language n :=
  ⟨fun ⟨_, ds, hds, hw, _⟩ => ⟨ds, hds, hw⟩, fun ⟨ds, hds, hw⟩ => ⟨_, ds, hds, hw, rfl⟩⟩

theorem derives_nil_iff : B.Derives [] es ↔ es = [] :=
  ⟨fun h => by cases h; rfl, fun h => h ▸ .nil⟩

theorem derives_nonterminal_iff : B.Derives [.nonterminal n a] [d] ↔ ∃ es, d = .derived a es ∧ B.NameDerives n es := by
  constructor
  · intro h
    cases h with
    | nonterminal hr hes _ => exact ⟨_, rfl, _, hr, hes⟩
  · rintro ⟨es, rfl, r, hr, hes⟩
    exact .nonterminal hr hes .nil

theorem derives_terminal_iff : B.Derives [.terminal m a] [d] ↔ ∃ c, d = .matched c a ∧ m.accepts c = true := by
  constructor
  · intro h
    cases h with
    | terminal hc _ => exact ⟨_, rfl, hc⟩
  · rintro ⟨c, rfl, hc⟩
    exact .terminal hc .nil

theorem derives_cons_iff : B.Derives (s :: ss) es ↔ ∃ d ds, es = d :: ds ∧ B.Derives [s] [d] ∧ B.Derives ss ds := by
  constructor
  · intro h
    cases h with
    | terminal hc h => exact ⟨_, _, rfl, .terminal hc .nil, h⟩
    | nonterminal hr hes h => exact ⟨_, _, rfl, .nonterminal hr hes .nil, h⟩
  · rintro ⟨d, ds, rfl, hd, hds⟩
    cases hd with
    | terminal hc _ => exact .terminal hc hds
    | nonterminal hr hes _ => exact .nonterminal hr hes hds

end Bnf

namespace Recognition

variable {r : Recognition} {p q k h bound : Nat} {n : String} {s : Symbol} {ss : List Symbol} {starts : List Nat}
  {u v : List Char} {c : Char} {span : Span} {spans : List Span}

/-! ### Parts of the input -/

/-- The part of the input between two places. -/
def between (r : Recognition) (p q : Nat) : List Char :=
  (r.input.toList.drop p).take (q - p)

theorem length_between (hq : q ≤ r.input.size) : (r.between p q).length = q - p := by
  rw [between, List.length_take, List.length_drop, Array.length_toList]
  omega

theorem between_whole : r.between 0 r.input.size = r.input.toList := by
  rw [between, List.drop_zero, Nat.sub_zero, ← Array.length_toList, List.take_length]

/-- Two texts make up a part of the input if each is one of the two parts between it and some place. -/
theorem append_eq_between (hpq : p ≤ q) (hq : q ≤ r.input.size) :
    u ++ v = r.between p q ↔ ∃ m, p ≤ m ∧ m ≤ q ∧ u = r.between p m ∧ v = r.between m q := by
  constructor
  · intro h
    have hlen : u.length + v.length = q - p := by rw [← List.length_append, h, length_between hq]
    refine ⟨p + u.length, by omega, by omega, ?_, ?_⟩
    · have := congrArg (List.take u.length) h
      rw [List.take_left, between, List.take_take, show min u.length (q - p) = p + u.length - p by omega] at this
      exact this
    · have := congrArg (List.drop u.length) h
      rw [List.drop_left, between, List.drop_take, List.drop_drop,
        show q - p - u.length = q - (p + u.length) by omega] at this
      exact this
  · rintro ⟨m, hpm, hmq, rfl, rfl⟩
    have hmid : r.input.toList.drop m = (r.input.toList.drop p).drop (m - p) := by
      rw [List.drop_drop]
      congr 1
      omega
    rw [between, between, between, hmid, ← List.take_add]
    congr 1
    omega

theorem singleton_eq_between (hq : q ≤ r.input.size) :
    [c] = r.between p q ↔ q = p + 1 ∧ r.input[p]? = some c := by
  constructor
  · intro h
    have hlen := congrArg List.length h
    rw [length_between hq, List.length_singleton] at hlen
    obtain rfl : q = p + 1 := by omega
    have hhead := congrArg List.head? h
    rw [between, show p + 1 - p = 1 by omega, List.head?_take, List.head?_drop] at hhead
    exact ⟨rfl, by simpa using hhead.symm⟩
  · rintro ⟨rfl, hc⟩
    rw [between, show p + 1 - p = 1 by omega, List.take_one, List.head?_drop, Array.getElem?_toList, hc]
    rfl

theorem acceptsAt_terminal {m : Matcher} {a : Attributes} : r.acceptsAt (.terminal m a) p = true ↔
    ∃ c, r.input[p]? = some c ∧ m.accepts c = true := by
  rw [acceptsAt]
  cases r.input[p]? with
  | none => simp
  | some c => simp [Symbol.accepts]

/-! ### Recorded heights -/

/-- The spans with derivations that are no higher than `k` are recorded, with the heights of the lowest. -/
def UpTo (r : Recognition) (k : Nat) : Prop :=
  ∀ n p q h, r.heights[(⟨n, p, q⟩ : Span)]? = some h ↔
    p ≤ q ∧ q ≤ r.input.size ∧ h ≤ k ∧ IsLeast (r.grammar.heights n (r.between p q)) h

theorem below_iff : r.heights.below bound span = true ↔ ∃ h, r.heights[span]? = some h ∧ h < bound := by
  rw [Heights.below]
  cases r.heights[span]? with
  | none => simp
  | some h => simp

theorem exists_isLeast {S : Set Nat} (hS : S.Nonempty) : ∃ h, IsLeast S h := by
  classical
  exact ⟨Nat.find hS, Nat.find_spec hS, fun _ h => Nat.find_min' hS h⟩

theorem UpTo.below_iff (hr : r.UpTo k) : r.heights.below (k + 1) ⟨n, p, q⟩ = true ↔
    p ≤ q ∧ q ≤ r.input.size ∧ ∃ h ∈ r.grammar.heights n (r.between p q), h ≤ k := by
  rw [Recognition.below_iff]
  constructor
  · rintro ⟨h, hh, -⟩
    obtain ⟨hpq, hq, hk, hleast⟩ := (hr n p q h).mp hh
    exact ⟨hpq, hq, h, hleast.1, hk⟩
  · rintro ⟨hpq, hq, h, hh, hk⟩
    obtain ⟨j, hj⟩ := exists_isLeast ⟨h, hh⟩
    have hjk : j ≤ k := Nat.le_trans (hj.2 hh) hk
    exact ⟨j, (hr n p q j).mpr ⟨hpq, hq, hjk, hj⟩, Nat.lt_succ_of_le hjk⟩

theorem UpTo.contains_iff (hr : r.UpTo k) : r.heights.contains ⟨n, p, q⟩ = true ↔
    p ≤ q ∧ q ≤ r.input.size ∧ ∃ h ∈ r.grammar.heights n (r.between p q), h ≤ k := by
  rw [← hr.below_iff, Recognition.below_iff, ← Std.HashMap.isSome_getElem?_eq_contains,
    Option.isSome_iff_exists]
  refine exists_congr fun h => ⟨fun hh => ⟨hh, ?_⟩, And.left⟩
  exact Nat.lt_succ_of_le ((hr n p q h).mp hh).2.2.1

/-- Symbols have derivations of a part of the input that are no higher than `k`. -/
def DerivesPart (r : Recognition) (k : Nat) (ss : List Symbol) (p q : Nat) : Prop :=
  p ≤ q ∧ q ≤ r.input.size ∧
    ∃ ds, r.grammar.Derives ss ds ∧ Derivation.inputAll ds = r.between p q ∧ Derivation.heightAll ds ≤ k

theorem derivesPart_nil_iff : r.DerivesPart k [] p q ↔ p = q ∧ q ≤ r.input.size := by
  constructor
  · rintro ⟨hpq, hq, ds, hds, hin, -⟩
    rw [Bnf.derives_nil_iff.mp hds] at hin
    have := length_between (p := p) hq
    rw [← hin, Derivation.inputAll, List.length_nil] at this
    exact ⟨by omega, hq⟩
  · rintro ⟨rfl, hq⟩
    refine ⟨Nat.le_refl p, hq, [], .nil, ?_, Nat.zero_le k⟩
    rw [between, Nat.sub_self, List.take_zero, Derivation.inputAll]

theorem derivesPart_cons_iff : r.DerivesPart k (s :: ss) p q ↔
    ∃ m, r.DerivesPart k [s] p m ∧ r.DerivesPart k ss m q := by
  constructor
  · rintro ⟨hpq, hq, es, hes, hin, hk⟩
    obtain ⟨d, ds, rfl, hd, hds⟩ := Bnf.derives_cons_iff.mp hes
    rw [Derivation.inputAll] at hin
    obtain ⟨m, hpm, hmq, hu, hv⟩ := (append_eq_between hpq hq).mp hin
    rw [Derivation.heightAll, Nat.max_le] at hk
    refine ⟨m, ⟨hpm, Nat.le_trans hmq hq, [d], hd, ?_, ?_⟩, hmq, hq, ds, hds, hv, hk.2⟩
    · rw [Derivation.inputAll, Derivation.inputAll, List.append_nil, hu]
    · rw [Derivation.heightAll, Derivation.heightAll, Nat.max_zero]
      exact hk.1
  · rintro ⟨m, ⟨hpm, -, es, hes, hin, hk⟩, hmq, hq, ds, hds, hin', hk'⟩
    obtain ⟨d, es, rfl, hd, hnil⟩ := Bnf.derives_cons_iff.mp hes
    obtain rfl := Bnf.derives_nil_iff.mp hnil
    rw [Derivation.inputAll, Derivation.inputAll, List.append_nil] at hin
    rw [Derivation.heightAll, Derivation.heightAll, Nat.max_zero] at hk
    refine ⟨Nat.le_trans hpm hmq, hq, d :: ds, Bnf.derives_cons_iff.mpr ⟨d, ds, rfl, hd, hds⟩, ?_, ?_⟩
    · exact (append_eq_between (Nat.le_trans hpm hmq) hq).mpr ⟨m, hpm, hmq, hin, hin'⟩
    · exact Nat.max_le.mpr ⟨hk, hk'⟩

theorem derivesPart_terminal_iff {m : Matcher} {a : Attributes} : r.DerivesPart k [.terminal m a] p q ↔
    q = p + 1 ∧ r.acceptsAt (.terminal m a) p = true := by
  rw [acceptsAt_terminal]
  constructor
  · rintro ⟨-, hq, es, hes, hin, -⟩
    obtain ⟨d, es, rfl, hd, hnil⟩ := Bnf.derives_cons_iff.mp hes
    obtain rfl := Bnf.derives_nil_iff.mp hnil
    obtain ⟨c, rfl, hc⟩ := Bnf.derives_terminal_iff.mp hd
    obtain ⟨rfl, hat⟩ := (singleton_eq_between hq).mp hin
    exact ⟨rfl, c, hat, hc⟩
  · rintro ⟨rfl, c, hat, hc⟩
    have hq : p + 1 ≤ r.input.size := (Array.getElem?_eq_some_iff.mp hat).1
    refine ⟨Nat.le_succ p, hq, [.matched c a], .terminal hc .nil, ?_, Nat.zero_le k⟩
    exact (singleton_eq_between hq).mpr ⟨rfl, hat⟩

theorem derivesPart_nonterminal_iff {a : Attributes} : r.DerivesPart k [.nonterminal n a] p q ↔
    p ≤ q ∧ q ≤ r.input.size ∧ ∃ h ∈ r.grammar.heights n (r.between p q), h ≤ k := by
  refine and_congr_right fun _ => and_congr_right fun _ => ?_
  constructor
  · rintro ⟨es, hes, hin, hk⟩
    obtain ⟨d, es, rfl, hd, hnil⟩ := Bnf.derives_cons_iff.mp hes
    obtain rfl := Bnf.derives_nil_iff.mp hnil
    obtain ⟨ds, rfl, hds⟩ := Bnf.derives_nonterminal_iff.mp hd
    rw [Derivation.inputAll, Derivation.inputAll, List.append_nil] at hin
    rw [Derivation.heightAll, Derivation.heightAll, Nat.max_zero] at hk
    exact ⟨_, ⟨ds, hds, hin, rfl⟩, hk⟩
  · rintro ⟨h, ⟨ds, hds, hin, rfl⟩, hk⟩
    refine ⟨[.derived a ds], Bnf.derives_nonterminal_iff.mpr ⟨ds, rfl, hds⟩, ?_, ?_⟩
    · rw [Derivation.inputAll, Derivation.inputAll, List.append_nil]
      exact hin
    · rw [Derivation.heightAll, Derivation.heightAll, Nat.max_zero]
      exact hk

theorem UpTo.mem_advance (hr : r.UpTo k) : q ∈ r.advance (k + 1) starts s ↔
    ∃ p ∈ starts, r.DerivesPart k [s] p q := by
  cases s with
  | nonterminal n a =>
    rw [advance, List.mem_filter, List.any_eq_true]
    constructor
    · rintro ⟨-, p, hp, h⟩
      rw [Bool.and_eq_true] at h
      exact ⟨p, hp, derivesPart_nonterminal_iff.mpr (hr.below_iff.mp h.2)⟩
    · rintro ⟨p, hp, h⟩
      rw [derivesPart_nonterminal_iff, ← hr.below_iff] at h
      obtain ⟨hpq, hq, -⟩ := hr.below_iff.mp h
      refine ⟨List.mem_range.mpr (Nat.lt_succ_of_le hq), p, hp, ?_⟩
      rw [Bool.and_eq_true, decide_eq_true_eq]
      exact ⟨hpq, h⟩
  | terminal m a =>
    show q ∈ (starts.filter (r.acceptsAt (.terminal m a))).map (· + 1) ↔ _
    rw [List.mem_map]
    constructor
    · rintro ⟨p, hp, rfl⟩
      obtain ⟨hp, hat⟩ := List.mem_filter.mp hp
      exact ⟨p, hp, derivesPart_terminal_iff.mpr ⟨rfl, hat⟩⟩
    · rintro ⟨p, hp, h⟩
      obtain ⟨rfl, hat⟩ := derivesPart_terminal_iff.mp h
      exact ⟨p, List.mem_filter.mpr ⟨hp, hat⟩, rfl⟩

theorem UpTo.mem_ends (hr : r.UpTo k) (hp : p ≤ r.input.size) :
    q ∈ r.ends (k + 1) ss p ↔ r.DerivesPart k ss p q := by
  -- all places that are reached at once, so that the induction goes through the symbols
  suffices h : ∀ starts : List Nat, (∀ p ∈ starts, p ≤ r.input.size) →
      (q ∈ ss.foldl (r.advance (k + 1)) starts ↔ ∃ p ∈ starts, r.DerivesPart k ss p q) by
    rw [ends, h [p] (by simpa using hp)]
    simp
  induction ss with
  | nil =>
    intro starts hstarts
    refine ⟨fun hq => ⟨q, hq, derivesPart_nil_iff.mpr ⟨rfl, hstarts q hq⟩⟩, ?_⟩
    rintro ⟨p, hp, h⟩
    obtain ⟨rfl, -⟩ := derivesPart_nil_iff.mp h
    exact hp
  | cons s ss ih =>
    intro starts _
    have hall : ∀ m ∈ r.advance (k + 1) starts s, m ≤ r.input.size := fun m hm => by
      obtain ⟨p, -, h⟩ := hr.mem_advance.mp hm
      exact h.2.1
    rw [List.foldl_cons, ih _ hall]
    constructor
    · rintro ⟨m, hm, hmq⟩
      obtain ⟨p, hp, hpm⟩ := hr.mem_advance.mp hm
      exact ⟨p, hp, derivesPart_cons_iff.mpr ⟨m, hpm, hmq⟩⟩
    · rintro ⟨p, hp, h⟩
      obtain ⟨m, hpm, hmq⟩ := derivesPart_cons_iff.mp h
      exact ⟨m, hr.mem_advance.mpr ⟨p, hp, hpm⟩, hmq⟩

/-- The new spans are those with derivations of the height `k + 1` and none that is lower. -/
theorem UpTo.mem_newSpans (hr : r.UpTo k) : (⟨n, p, q⟩ : Span) ∈ r.newSpans (k + 1) ↔
    p ≤ q ∧ q ≤ r.input.size ∧ IsLeast (r.grammar.heights n (r.between p q)) (k + 1) := by
  -- what a round looks for: a rule of the name that matches, and no height from before
  have hrule : (⟨n, p, q⟩ : Span) ∈ r.newSpans (k + 1) ↔
      (∃ rule ∈ r.grammar.rulesFor n, r.DerivesPart k rule.rhs p q) ∧
        ¬r.heights.contains ⟨n, p, q⟩ = true := by
    simp only [newSpans, newSpansOf, Bnf.rulesFor, List.mem_flatMap, List.mem_filter, List.mem_map, places,
      List.mem_range, beq_iff_eq, Bool.not_eq_true', Span.mk.injEq]
    constructor
    · rintro ⟨rule, hrule, ⟨p', hp', q', hq', rfl, rfl, rfl⟩, hno⟩
      exact ⟨⟨rule, ⟨hrule, rfl⟩, (hr.mem_ends (Nat.le_of_lt_succ hp')).mp hq'⟩, by rw [hno]; decide⟩
    · rintro ⟨⟨rule, ⟨hrule, hn⟩, h⟩, hno⟩
      have hp : p ≤ r.input.size := Nat.le_trans h.1 h.2.1
      exact ⟨rule, hrule, ⟨p, Nat.lt_succ_of_le hp, q, (hr.mem_ends hp).mpr h, hn, rfl, rfl⟩,
        Bool.eq_false_iff.mpr hno⟩
  rw [hrule, hr.contains_iff]
  constructor
  · rintro ⟨⟨rule, hn, hpq, hq, ds, hds, hin, hk⟩, hno⟩
    have hlow : ∀ h ∈ r.grammar.heights n (r.between p q), k + 1 ≤ h := fun h hh => by
      by_contra hlt
      exact hno ⟨hpq, hq, h, hh, by omega⟩
    have hmem : Derivation.heightAll ds + 1 ∈ r.grammar.heights n (r.between p q) := ⟨ds, ⟨rule, hn, hds⟩, hin, rfl⟩
    have heq : Derivation.heightAll ds + 1 = k + 1 := Nat.le_antisymm (Nat.succ_le_succ hk) (hlow _ hmem)
    exact ⟨hpq, hq, heq ▸ hmem, hlow⟩
  · rintro ⟨hpq, hq, ⟨ds, ⟨rule, hn, hds⟩, hin, hk⟩, hlow⟩
    refine ⟨⟨rule, hn, hpq, hq, ds, hds, hin, by omega⟩, ?_⟩
    rintro ⟨-, -, h, hh, hle⟩
    have := hlow hh
    omega

end Recognition

end Ixml
