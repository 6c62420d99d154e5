import Ixml.Proofs.Chooser
import Ixml.Proofs.Recogniser.Lowest
import Ixml.Proofs.Recogniser.Telling

/-!
# What a walk has to choose

A walk with a chooser counts choices just if its span has several trees that are lowest throughout
(`counts_walkSymbol`): if there is one only, each list of alternatives that the chooser is asked about has one member;
if there are several, then on the way down, whatever is chosen, there is a list with several. This is shown by induction
on the height of the span, where the parts of a division are walked in order (`Divides.counts`).
-/

namespace Ixml

namespace Work

variable {σ α : Type}

/-- The state that is left, whether or not the work has succeeded. -/
def left : EStateM.Result Error (Noted σ) α → σ
  | .ok _ t => t.state
  | .error _ t => t.state

end Work

namespace Recognition

open Work (left bind_of_ok bind_of_error exists_of_bind_ok)

variable {σ : Type} {v : Visitor σ} {c : σ → Chooser} {P Q : Prop} {w w' : Work σ Unit} {rules : List Rule}

/-! ### Visitors with a chooser -/

/-- A visitor chooses as a chooser that is a part of its state does, and does nothing else to that. -/
structure Visitor.Consults (v : Visitor σ) (c : σ → Chooser) : Prop where
  choose : ∀ rules s i d, (Chooser.choose rules).Yields (c s.state) (.ok (i, d)) →
    ∃ t, v.choose rules s = .ok i t ∧ c t.state = d
  visit : ∀ e s, c (left (v.visit e s)) = c s.state

/-- Work counts choices if there is `several`, and leaves the chooser as it is if not. -/
structure Counts (c : σ → Chooser) (several : Prop) (w : Work σ Unit) : Prop where
  keeps : ¬several → ∀ s, c (left (w s)) = c s.state
  le : ∀ s t, w s = .ok () t → (c s.state).choices ≤ (c t.state).choices
  lt : several → ∀ s t, w s = .ok () t → (c s.state).choices < (c t.state).choices

namespace Counts

theorem congr (h : Counts c P w) (hPQ : P ↔ Q) : Counts c Q w := by
  rwa [← propext hPQ]

theorem of_keeps (h : ∀ s, c (left (w s)) = c s.state) : Counts c False w where
  keeps _ := h
  le s t hw := by
    have := h s
    rw [hw] at this
    exact Nat.le_of_eq (congrArg Chooser.choices this.symm)
  lt h := h.elim

theorem pure : Counts c False (Pure.pure ()) :=
  of_keeps fun _ => rfl

theorem noDerivation (s : Span) : Counts c False (noDerivation s) :=
  of_keeps fun _ => rfl

theorem visit (hv : v.Consults c) (e : DerivationEvent) : Counts c False (v.visit e) :=
  of_keeps (hv.visit e)

theorem seq (h : Counts c P w) (h' : Counts c Q w') : Counts c (P ∨ Q) (w >>= fun _ => w') := by
  constructor
  · intro hno s
    rw [not_or] at hno
    have hw := h.keeps hno.1 s
    cases hr : w s with
    | ok a u =>
      rw [hr] at hw
      rw [bind_of_ok hr]
      exact (h'.keeps hno.2 u).trans hw
    | error e u =>
      rw [hr] at hw
      rw [bind_of_error hr]
      exact hw
  · intro s t hb
    obtain ⟨_, u, hu, ht⟩ := exists_of_bind_ok hb
    exact Nat.le_trans (h.le s u hu) (h'.le u t ht)
  · intro hPQ s t hb
    obtain ⟨_, u, hu, ht⟩ := exists_of_bind_ok hb
    rcases hPQ with hP | hQ
    · exact Nat.lt_of_lt_of_le (h.lt hP s u hu) (h'.le u t ht)
    · exact Nat.lt_of_le_of_lt (h.le s u hu) (h'.lt hQ u t ht)

theorem choose_of_le (hv : v.Consults c) (hlen : rules.length ≤ 1) {f : Nat → Work σ Unit} (h : Counts c P (f 0)) :
    Counts c P (v.choose rules >>= f) := by
  have hstep (s : Noted σ) : ∃ t, (v.choose rules >>= f) s = f 0 t ∧ c t.state = c s.state := by
    obtain ⟨t, ht, hc⟩ := hv.choose rules s 0 _ (Chooser.yields_choose_of_le hlen _)
    exact ⟨t, bind_of_ok ht, hc⟩
  constructor
  · intro hno s
    obtain ⟨t, ht, hc⟩ := hstep s
    rw [ht, h.keeps hno, hc]
  · intro s t hb
    obtain ⟨u, hu, hc⟩ := hstep s
    rw [hu] at hb
    exact hc ▸ h.le u t hb
  · intro hP s t hb
    obtain ⟨u, hu, hc⟩ := hstep s
    rw [hu] at hb
    exact hc ▸ h.lt hP u t hb

theorem choose_of_lt (hv : v.Consults c) (hlen : 1 < rules.length) {f : Nat → Work σ Unit}
    (h : ∀ i, ∃ P, Counts c P (f i)) : Counts c True (v.choose rules >>= f) := by
  have hlt : ∀ s t, (v.choose rules >>= f) s = .ok () t → (c s.state).choices < (c t.state).choices := by
    intro s t hb
    obtain ⟨i, tied, hy⟩ := Chooser.exists_yields_choose hlen (c s.state)
    obtain ⟨u, hu, hc⟩ := hv.choose rules s i _ hy
    rw [bind_of_ok hu] at hb
    obtain ⟨P, hf⟩ := h i
    have hle := hf.le u t hb
    rw [hc] at hle
    exact hle
  exact ⟨fun h => (h trivial).elim, fun s t hb => Nat.le_of_lt (hlt s t hb), fun _ => hlt⟩

end Counts

/-! ### Walks -/

variable {r : Recognition} {B : Bnf} {input : String} {p q k bound fuel : Nat} {ss : List Symbol} {parts : List Part}
  {symbol : Symbol}

/-- If the spans of a division count choices just if they have several trees, so does the division. -/
theorem Divides.counts (hr : r.IsComplete) (hv : v.Consults c) {span : Span} (h : r.Divides bound ss p q parts)
    (hwalk : ∀ (n : String) (a : Attributes) (p j k : Nat), r.heights[(⟨n, p, j⟩ : Span)]? = some k → k < bound →
      Counts c (r.lowestOver n p j).Nontrivial (walkSymbol r v fuel (.nonterminal n a) p j)) :
    Counts c {ts | r.Fills ss parts ts}.Nontrivial ((ss.zip parts).forM (r.walkPart v fuel span)) := by
  induction h with
  | nil =>
    refine Counts.pure.congr (iff_of_false id ?_)
    rintro ⟨_, ⟨⟩, _, ⟨⟩, hne⟩
    exact hne rfl
  | @matched m a ch ss p q parts hp hc h ih =>
    have hcon : r.walkPart v fuel span (.terminal m a, .matched p) = v.visit (.matched ch a) := by
      simp only [walkPart, hp]
      rfl
    have hseq := (Counts.visit hv (.matched ch a)).seq ih
    rw [false_or, ← nontrivial_fills_matched_iff (a := a) hp hc, ← hcon] at hseq
    exact hseq
  | @derived n a ss p j q k parts hk hlt h ih =>
    exact ((hwalk n a p j k hk hlt).seq ih).congr
      (nontrivial_fills_derived_iff (hr.nonempty_lowestOver hk) (hr.fills_nonempty h)).symm

/-- What is done for a way, and that this counts. -/
theorem counts_of_mem_ways (hr : r.IsComplete) (hv : v.Consults c) {rule : Rule}
    (hmem : (rule, parts) ∈ r.ways k ⟨symbol.nameText, p, q⟩)
    (hwalk : ∀ (n : String) (a : Attributes) (p j l : Nat), r.heights[(⟨n, p, j⟩ : Span)]? = some l → l < k →
      Counts c (r.lowestOver n p j).Nontrivial (walkSymbol r v fuel (.nonterminal n a) p j)) :
    ∃ i : Nat, r.grammar.rules[i]? = some rule ∧ rule.name = symbol.nameText ∧ r.Divides k rule.rhs p q parts ∧
      Counts c {us | r.Fills rule.rhs parts us}.Nontrivial (do
        v.visit (.opens symbol.attributes)
        (rule.rhs.zip parts).forM (r.walkPart v fuel ⟨symbol.nameText, p, q⟩)
        v.visit (.closes symbol.attributes)) := by
  obtain ⟨hrule, hparts⟩ := divides_of_mem_ways hmem
  obtain ⟨hrule, hn⟩ := List.mem_filter.mp hrule
  obtain ⟨i, hi⟩ := List.getElem?_of_mem hrule
  refine ⟨i, hi, by simpa using hn, hparts, ?_⟩
  have hall : Counts c _ ((rule.rhs.zip parts).forM (r.walkPart v fuel ⟨symbol.nameText, p, q⟩)) :=
    hparts.counts hr hv hwalk
  have hseq := (Counts.visit hv (.opens symbol.attributes)).seq (hall.seq (Counts.visit hv (.closes symbol.attributes)))
  rwa [false_or, or_false] at hseq

theorem counts_walkSymbol (hr : r.IsComplete) (hv : v.Consults c)
    (h : r.heights[(⟨symbol.nameText, p, q⟩ : Span)]? = some k) (hk : k ≤ fuel) :
    Counts c (r.lowestOver symbol.nameText p q).Nontrivial (walkSymbol r v fuel symbol p q) := by
  induction fuel generalizing symbol p q k with
  | zero =>
    -- no span has the height zero
    obtain ⟨-, -, ⟨ds, -, -, hds⟩, -⟩ := (hr _ _ _ _).mp h
    omega
  | succ fuel ih =>
    have hne := hr.ways_ne_nil h
    have hwalk (n : String) (a : Attributes) (p j l : Nat) (hl : r.heights[(⟨n, p, j⟩ : Span)]? = some l)
        (hlt : l < k) : Counts c (r.lowestOver n p j).Nontrivial (walkSymbol r v fuel (.nonterminal n a) p j) := by
      have hl : r.heights[(⟨(Symbol.nonterminal n a).nameText, p, j⟩ : Span)]? = some l := hl
      exact ih hl (by omega)
    obtain ⟨⟨rule, parts⟩, hfirst⟩ : ∃ way, (r.ways k ⟨symbol.nameText, p, q⟩)[0]? = some way :=
      ⟨_, List.getElem?_eq_getElem (List.length_pos_iff.mpr hne)⟩
    obtain ⟨i, hi, hn, hparts, hcounts⟩ := counts_of_mem_ways hr hv (List.mem_of_getElem? hfirst) hwalk
    have hiff := hr.nontrivial_lowestOver_iff h hi hn hparts
    rw [← hr.one_lt_length_ways_iff] at hiff
    rw [walkSymbol_succ h hne]
    rcases Nat.lt_or_ge 1 (r.ways k ⟨symbol.nameText, p, q⟩).length with hlt | hle
    · refine (Counts.choose_of_lt hv (by simpa using hlt) fun choice => ?_).congr
        (iff_of_true trivial (hiff.mpr (Or.inl hlt)))
      split
      · exact ⟨_, Counts.noDerivation _⟩
      · next hway =>
        obtain ⟨-, -, -, -, hcounts⟩ := counts_of_mem_ways hr hv (List.mem_of_getElem? hway) hwalk
        exact ⟨_, hcounts⟩
    · refine Counts.choose_of_le hv (by simpa using hle) ?_
      rw [Nat.zero_min, hfirst]
      exact hcounts.congr (by rw [hiff, or_iff_right (Nat.not_lt.mpr hle)])

theorem counts_walk (h : parse? B input = some r) (hv : v.Consults c) :
    Counts c (B.lowest B.startName input.toList).Nontrivial (r.walk v) := by
  obtain ⟨hr, rfl, hinput, k, hk⟩ := isComplete_of_parse? h
  have hwalk : Counts c _ (walkSymbol r v k r.grammar.start 0 r.input.size) :=
    counts_walkSymbol hr hv hk (Nat.le_refl k)
  rw [lowestOver, between_whole, hinput] at hwalk
  rw [walk, hk, hinput]
  exact hwalk

end Recognition

end Ixml
