import Ixml.Chart
import Ixml.Proofs.Language.Derivations

/-!
# Items of a chart

An item is valid after some characters if a derivation from the start symbol can have come to where it stands: its rule
is called for after the first of them, and the symbols before its dot generate the others (`Item.IsValid`). In a grammar
of which every symbol generates something, there are valid items just after the beginnings of sentences
(`exists_isValid_iff`), and their next terminals accept just the characters that can follow (`exists_accepts_iff`).
-/

namespace Ixml

variable {B : Bnf} {n m : String} {a : Attributes} {s : Symbol} {ss ts : List Symbol} {u v w x : List Char} {c : Char}
  {r : Rule}

namespace Bnf

/-- `B.Generates ss w` says that the symbols `ss` derive the text `w` by the rules. -/
inductive Generates (B : Bnf) : List Symbol → List Char → Prop
  | nil : Generates B [] []
  | terminal {m : Matcher} {a : Attributes} {c : Char} {ss : List Symbol} {w : List Char}
    (hc : m.accepts c = true) (h : Generates B ss w) : Generates B (.terminal m a :: ss) (c :: w)
  | nonterminal {n : String} {a : Attributes} {r : Rule} {ss : List Symbol} {v w : List Char}
    (hr : r ∈ B.rulesFor n) (hv : Generates B r.rhs v) (h : Generates B ss w) :
    Generates B (.nonterminal n a :: ss) (v ++ w)

theorem generates_iff : B.Generates ss w ↔ ∃ ds, B.Derives ss ds ∧ Derivation.inputAll ds = w := by
  constructor
  · intro h
    induction h with
    | nil => exact ⟨[], .nil, rfl⟩
    | terminal hc _ ih =>
      obtain ⟨ds, hds, hin⟩ := ih
      exact ⟨_, .terminal hc hds, by rw [Derivation.inputAll, Derivation.input, hin]; rfl⟩
    | nonterminal hr _ _ ihv ih =>
      obtain ⟨es, hes, hin⟩ := ihv
      obtain ⟨ds, hds, hin'⟩ := ih
      exact ⟨_, .nonterminal hr hes hds, by rw [Derivation.inputAll, Derivation.input, hin, hin']⟩
  · rintro ⟨ds, hds, rfl⟩
    induction hds with
    | nil => exact .nil
    | terminal hc _ ih => exact .terminal hc ih
    | nonterminal hr _ _ ihes ih => exact .nonterminal hr ihes ih

theorem mem_language_iff : w ∈ B.language n ↔ ∃ r ∈ B.rulesFor n, B.Generates r.rhs w := by
  constructor
  · rintro ⟨ds, ⟨r, hr, hds⟩, hw⟩
    exact ⟨r, hr, generates_iff.mpr ⟨ds, hds, hw⟩⟩
  · rintro ⟨r, hr, h⟩
    obtain ⟨ds, hds, hw⟩ := generates_iff.mp h
    exact ⟨ds, ⟨r, hr, hds⟩, hw⟩

theorem Generates.append (h : B.Generates ss u) (h' : B.Generates ts v) : B.Generates (ss ++ ts) (u ++ v) := by
  induction h with
  | nil => exact h'
  | terminal hc _ ih => exact .terminal hc ih
  | nonterminal hr hv _ _ ih =>
    rw [List.append_assoc]
    exact .nonterminal hr hv ih

theorem generates_terminal {m : Matcher} (hc : m.accepts c = true) : B.Generates [.terminal m a] [c] :=
  .terminal hc .nil

theorem generates_nonterminal (hw : w ∈ B.language n) : B.Generates [.nonterminal n a] w := by
  obtain ⟨r, hr, h⟩ := mem_language_iff.mp hw
  have := Generates.nonterminal (a := a) hr h .nil
  rwa [List.append_nil] at this

theorem mem_rulesFor_iff : r ∈ B.rulesFor n ↔ r ∈ B.rules ∧ r.name = n := by
  rw [rulesFor, List.mem_filter, beq_iff_eq]

/-- `B.Calls v n` says that a derivation from the start symbol can go on with `n` after the characters `v`. -/
inductive Calls (B : Bnf) : List Char → String → Prop
  | start : Calls B [] B.startName
  | next {v w : List Char} {n : String} {r : Rule} {ss ts : List Symbol} {a : Attributes} (hr : r ∈ B.rules)
    (h : Calls B v r.name) (hrhs : r.rhs = ss ++ .nonterminal n a :: ts) (hw : B.Generates ss w) :
    Calls B (v ++ w) n

/-- Every symbol that occurs can be made use of: a nonterminal derives some text, and a terminal matches some
character. -/
structure IsProductive (B : Bnf) : Prop where
  start : ∃ w, w ∈ B.language B.startName
  nonterminal : ∀ r ∈ B.rules, ∀ n a, Symbol.nonterminal n a ∈ r.rhs → ∃ w, w ∈ B.language n
  terminal : ∀ r ∈ B.rules, ∀ m a, Symbol.terminal m a ∈ r.rhs → ∃ c, m.accepts c = true

theorem IsProductive.exists_generates (hB : B.IsProductive) (hr : r ∈ B.rules) (ss : List Symbol)
    (hss : ∀ s ∈ ss, s ∈ r.rhs) : ∃ w, B.Generates ss w := by
  induction ss with
  | nil => exact ⟨[], .nil⟩
  | cons s ss ih =>
    obtain ⟨hs, hss⟩ := List.forall_mem_cons.mp hss
    obtain ⟨w, hw⟩ := ih hss
    cases s with
    | nonterminal n a =>
      obtain ⟨v, hv⟩ := hB.nonterminal r hr n a hs
      exact ⟨v ++ w, (generates_nonterminal hv).append hw⟩
    | terminal m a =>
      obtain ⟨c, hc⟩ := hB.terminal r hr m a hs
      exact ⟨c :: w, .terminal hc hw⟩

/-- What is called for can be followed up to a sentence. -/
theorem Calls.exists_sentence (hB : B.IsProductive) (h : B.Calls v n) (hu : u ∈ B.language n) :
    ∃ w, v ++ (u ++ w) ∈ B.language B.startName := by
  induction h generalizing u with
  | start => exact ⟨[], by rwa [List.append_nil, List.nil_append]⟩
  | @next v x n r ss ts a hr h hrhs hx ih =>
    obtain ⟨y, hy⟩ := hB.exists_generates hr ts fun s hs => by
      rw [hrhs]
      exact List.mem_append_right _ (List.mem_cons_of_mem _ hs)
    have hrule : x ++ (u ++ y) ∈ B.language r.name := by
      refine mem_language_iff.mpr ⟨r, mem_rulesFor_iff.mpr ⟨hr, rfl⟩, ?_⟩
      rw [hrhs]
      exact hx.append ((generates_nonterminal hu).append hy)
    obtain ⟨w, hw⟩ := ih hrule
    exact ⟨y ++ w, by simpa only [List.append_assoc] using hw⟩

end Bnf

namespace Chart

open Bnf (Generates)

variable {i : Item}

/-- The rule of an item. -/
def Item.rule? (B : Bnf) (i : Item) : Option Rule :=
  B.rules[i.rule]?

theorem next?_eq (h : i.rule? B = some r) : next? B.rules.toArray i = r.rhs[i.dot]? := by
  rw [Item.rule?] at h
  simp [next?, h]

/-- The first symbol behind the dot is what an item waits for. The others are behind the dot once it has gone on. -/
theorem next?_of_drop (hr : i.rule? B = some r) (hss : r.rhs.drop i.dot = s :: ss) :
    next? B.rules.toArray i = some s ∧ r.rhs.drop i.shift.dot = ss := by
  constructor
  · rw [next?_eq hr, ← List.head?_drop, hss, List.head?_cons]
  · rw [Item.shift, ← List.drop_drop, hss]
    rfl

theorem nameOf_eq (h : i.rule? B = some r) : nameOf B.rules.toArray i = r.name := by
  rw [Item.rule?] at h
  simp [nameOf, h]

/-- A derivation can have come to an item after the characters `u`: its rule is called for after the first of them,
and the symbols before the dot generate the rest. -/
def Item.IsValid (B : Bnf) (u : List Char) (i : Item) : Prop :=
  ∃ r v w, i.rule? B = some r ∧ i.dot ≤ r.rhs.length ∧ B.Calls v r.name ∧ B.Generates (r.rhs.take i.dot) w ∧
    i.start = v.length ∧ u = v ++ w

theorem mem_rules_of_rule? (h : i.rule? B = some r) : r ∈ B.rules :=
  List.mem_of_getElem? h

theorem isValid_of_calls {k : Nat} (h : B.Calls u r.name) (hr : B.rules[k]? = some r) :
    Item.IsValid B u ⟨k, 0, u.length⟩ :=
  ⟨r, u, [], hr, Nat.zero_le _, h, .nil, rfl, (List.append_nil u).symm⟩

theorem Item.IsValid.exists_next (h : i.IsValid B u) (hs : next? B.rules.toArray i = some s) :
    ∃ r ts, i.rule? B = some r ∧ r.rhs = r.rhs.take i.dot ++ s :: ts := by
  obtain ⟨r, v, w, hr, -⟩ := h
  rw [next?_eq hr] at hs
  obtain ⟨hlt, hget⟩ := List.getElem?_eq_some_iff.mp hs
  refine ⟨r, r.rhs.drop (i.dot + 1), hr, ?_⟩
  rw [← hget, ← List.drop_eq_getElem_cons hlt, List.take_append_drop]

theorem Item.IsValid.shift (h : i.IsValid B u) (hs : next? B.rules.toArray i = some s) (hw : B.Generates [s] w) :
    i.shift.IsValid B (u ++ w) := by
  obtain ⟨r, v, x, hr, hdot, hcalls, hx, hstart, rfl⟩ := h
  rw [next?_eq hr] at hs
  obtain ⟨hlt, hget⟩ := List.getElem?_eq_some_iff.mp hs
  refine ⟨r, v, x ++ w, hr, hlt, hcalls, ?_, hstart, List.append_assoc ..⟩
  rw [Item.shift, List.take_succ_eq_append_getElem hlt, hget]
  exact hx.append hw

theorem Item.IsValid.calls (h : i.IsValid B u) (hs : next? B.rules.toArray i = some (.nonterminal n a)) :
    B.Calls u n := by
  obtain ⟨r', ts, hr', hrhs⟩ := h.exists_next hs
  obtain ⟨r, v, w, hr, -, hcalls, hw, -, rfl⟩ := h
  obtain rfl : r = r' := Option.some.inj (hr.symm.trans hr')
  exact .next (mem_rules_of_rule? hr) hcalls hrhs hw

/-! ### Beginnings of sentences -/

/-- Where symbols that come next can generate a text, there is a terminal that comes next for each of its
characters. -/
theorem Item.IsValid.exists_accepts (h : i.IsValid B v) (hr : i.rule? B = some r) (hss : r.rhs.drop i.dot = ss ++ ts)
    (hw : B.Generates ss w) (hsplit : w = u ++ c :: x) :
    ∃ j s, Item.IsValid B (v ++ u) j ∧ next? B.rules.toArray j = some s ∧ s.accepts c = true := by
  induction hw generalizing i r v u x ts with
  | nil => cases u <;> cases hsplit
  | @terminal m a d ss w hc hw ih =>
    obtain ⟨hnext, hdrop⟩ := next?_of_drop hr hss
    cases u with
    | nil =>
      cases hsplit
      exact ⟨i, _, by rwa [List.append_nil], hnext, hc⟩
    | cons d' u =>
      cases hsplit
      have hshift := h.shift hnext (Bnf.generates_terminal hc)
      obtain ⟨j, s, hj, hs⟩ := ih hshift hr hdrop rfl
      exact ⟨j, s, by simpa using hj, hs⟩
  | @nonterminal n a r' ss y w hr' hy hw ihy ih =>
    obtain ⟨hnext, hdrop⟩ := next?_of_drop hr hss
    obtain ⟨hmem, hname⟩ := Bnf.mem_rulesFor_iff.mp hr'
    -- the character stands in what follows the nonterminal, or in what it generates itself
    have hcases : (∃ u', u = y ++ u' ∧ w = u' ++ c :: x) ∨ ∃ x', y = u ++ c :: x' := by
      rcases List.append_eq_append_iff.mp hsplit with ⟨u', rfl, rfl⟩ | ⟨d, rfl, hd⟩
      · exact .inl ⟨u', rfl, rfl⟩
      · cases d with
        | nil => exact .inl ⟨[], by simp, by simpa using hd.symm⟩
        | cons c' d =>
          cases hd
          exact .inr ⟨d, rfl⟩
    rcases hcases with ⟨u', rfl, hu'⟩ | ⟨x', hx'⟩
    · have hshift := h.shift hnext (Bnf.generates_nonterminal (Bnf.mem_language_iff.mpr ⟨r', hr', hy⟩))
      obtain ⟨j, s, hj, hs⟩ := ih hshift hr hdrop hu'
      exact ⟨j, s, by simpa using hj, hs⟩
    · obtain ⟨k, hk⟩ := List.getElem?_of_mem hmem
      have hcalls := h.calls hnext
      rw [← hname] at hcalls
      exact ihy (isValid_of_calls hcalls hk) hk (List.append_nil _).symm hx'

/-- The next terminals of the valid items accept just the characters that can follow. -/
theorem exists_accepts_iff (hB : B.IsProductive) : (∃ i s, Item.IsValid B u i ∧
    next? B.rules.toArray i = some s ∧ s.accepts c = true) ↔ ∃ v, u ++ c :: v ∈ B.language B.startName := by
  constructor
  · rintro ⟨i, s, hi, hs, hc⟩
    obtain ⟨r', ts, hr', hrhs⟩ := hi.exists_next hs
    obtain ⟨r, v, w, hr, -, hcalls, hw, -, rfl⟩ := hi
    obtain rfl : r = r' := Option.some.inj (hr.symm.trans hr')
    have hmem := mem_rules_of_rule? hr
    cases s with
    | nonterminal n a => cases hc
    | terminal m a =>
      obtain ⟨y, hy⟩ := hB.exists_generates hmem ts fun s hs => by
        rw [hrhs]
        exact List.mem_append_right _ (List.mem_cons_of_mem _ hs)
      have hrule : w ++ c :: y ∈ B.language r.name := by
        refine Bnf.mem_language_iff.mpr ⟨r, Bnf.mem_rulesFor_iff.mpr ⟨hmem, rfl⟩, ?_⟩
        rw [hrhs]
        exact hw.append (.terminal hc hy)
      obtain ⟨x, hx⟩ := hcalls.exists_sentence hB hrule
      exact ⟨y ++ x, by simpa using hx⟩
  · rintro ⟨x, hx⟩
    obtain ⟨r, hr, hw⟩ := Bnf.mem_language_iff.mp hx
    obtain ⟨hmem, hname⟩ := Bnf.mem_rulesFor_iff.mp hr
    obtain ⟨k, hk⟩ := List.getElem?_of_mem hmem
    have hvalid : Item.IsValid B [] ⟨k, 0, 0⟩ := isValid_of_calls (hname ▸ .start) hk
    exact hvalid.exists_accepts hk (List.append_nil _).symm hw rfl

/-- There are valid items just after the beginnings of sentences. -/
theorem exists_isValid_iff (hB : B.IsProductive) :
    (∃ i, Item.IsValid B u i) ↔ ∃ v, u ++ v ∈ B.language B.startName := by
  constructor
  · rintro ⟨i, r, v, w, hr, -, hcalls, hw, -, rfl⟩
    have hmem := mem_rules_of_rule? hr
    obtain ⟨y, hy⟩ := hB.exists_generates hmem (r.rhs.drop i.dot) fun s hs => List.mem_of_mem_drop hs
    have hrule : w ++ y ∈ B.language r.name := by
      refine Bnf.mem_language_iff.mpr ⟨r, Bnf.mem_rulesFor_iff.mpr ⟨hmem, rfl⟩, ?_⟩
      rw [← List.take_append_drop i.dot r.rhs]
      exact hw.append hy
    obtain ⟨x, hx⟩ := hcalls.exists_sentence hB hrule
    exact ⟨y ++ x, by simpa using hx⟩
  · rintro ⟨v, hv⟩
    rcases List.eq_nil_or_concat u with rfl | ⟨u, c, rfl⟩
    · obtain ⟨r, hr, -⟩ := Bnf.mem_language_iff.mp hv
      obtain ⟨hmem, hname⟩ := Bnf.mem_rulesFor_iff.mp hr
      obtain ⟨k, hk⟩ := List.getElem?_of_mem hmem
      exact ⟨_, isValid_of_calls (hname ▸ .start) hk⟩
    · obtain ⟨i, s, hi, hs, hc⟩ := (exists_accepts_iff hB).mpr ⟨v, by simpa using hv⟩
      cases s with
      | nonterminal n a => cases hc
      | terminal m a => exact ⟨_, by simpa using hi.shift hs (Bnf.generates_terminal hc)⟩

end Chart

end Ixml
