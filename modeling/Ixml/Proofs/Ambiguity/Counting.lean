import Ixml.Proofs.Ambiguity.ParseTrees

/-!
# Counting parse trees

Constructs have tallies when the names do: a choice adds, a sequence multiplies. If the rules of each name come
together to no more than its tally, then the tallies are `Bounded` by the rules. Those of the parse trees are
(`bounded_count`), as long as all constructs have the children that they need.
-/

namespace Ixml

open Computability Tally

/-! ### Tallies of constructs -/

namespace Construct

variable {fs gs : List (Tally Char)} {k : Construct}

/-- The tally of a construct, from those of its children. -/
noncomputable def tally : Construct → List (Tally Char) → Tally Char
  | alts, fs => fs.sum
  | option, fs => 1 + fs.prod
  | repeat0, fs => 1 + (firstRound fs).prod * (nextRound fs).prod∗
  | repeat1, fs => (firstRound fs).prod * (nextRound fs).prod∗
  | _, fs => fs.prod

theorem tally_of_isSequence (hk : k.isSequence = true) : k.tally fs = fs.prod := by
  cases k <;> first | rfl | cases hk

theorem cases_of_not_isFlat (hk : k.isFlat = false) :
    k = alts ∨ k = option ∨ (k = repeat0 ∨ k = repeat1) ∨ k.isSequence = true := by
  cases k <;> simp_all [isSequence, isFlat, isCompound]

theorem tally_mono (h : List.Forall₂ (· ≤ ·) fs gs) : k.tally fs ≤ k.tally gs := by
  have hrounds : (firstRound fs).prod * (nextRound fs).prod∗ ≤ (firstRound gs).prod * (nextRound gs).prod∗ := by
    match fs, gs, h with
    | [], [], _ => exact le_rfl
    | [f], [f'], h => exact mul_mono h.prod_le_prod' (Tally.kstar_mono h.prod_le_prod')
    | [f, s], [f', s'], .cons hf (.cons hs .nil) =>
      exact mul_mono (List.Forall₂.cons hf .nil).prod_le_prod'
        (Tally.kstar_mono (List.Forall₂.cons hs (.cons hf .nil)).prod_le_prod')
    | _ :: _ :: _ :: _, _ :: _ :: _ :: _, .cons hf (.cons hs (.cons ht h)) =>
      have h := List.Forall₂.cons hf (.cons hs (.cons ht h))
      exact mul_mono h.prod_le_prod' (Tally.kstar_mono h.prod_le_prod')
  cases k with
  | alts => exact h.sum_le_sum
  | option => exact add_le_add le_rfl h.prod_le_prod'
  | repeat0 => exact add_le_add le_rfl hrounds
  | repeat1 => exact hrounds
  | _ => exact h.prod_le_prod'

end Construct

namespace Tree

mutual

/-- The tally of a construct, given those of the names: of the ways to match a text with it. -/
noncomputable def tally (ρ : String → Tally Char) : Tree → Tally Char
  | node l ts =>
    if l.kind.isNonterminal then ρ l.nameText
    else if l.kind.isFlat then indicator (Sense.strings.leaf l ts)
    else l.kind.tally (tallyAll ρ ts)

noncomputable def tallyAll (ρ : String → Tally Char) : List Tree → List (Tally Char)
  | [] => []
  | t :: ts => tally ρ t :: tallyAll ρ ts

end

variable {ρ ρ' : String → Tally Char} {l : Label} {t : Tree} {ts rules us : List Tree} {name : String}

theorem tallyAll_eq_map : tallyAll ρ ts = ts.map (tally ρ) := by
  induction ts with
  | nil => rfl
  | cons t ts ih => rw [tallyAll, ih, List.map_cons]

theorem tally_node : (node l ts).tally ρ =
    if l.kind.isNonterminal then ρ l.nameText
    else if l.kind.isFlat then indicator (Sense.strings.leaf l ts)
    else l.kind.tally (ts.map (tally ρ)) := by
  rw [tally, tallyAll_eq_map]

theorem tally_of_nonterminal (h : l.kind.isNonterminal = true) : (node l ts).tally ρ = ρ l.nameText := by
  rw [tally_node, if_pos h]

theorem tally_of_isFlat (h : l.kind.isNonterminal = false) (hf : l.kind.isFlat = true) :
    (node l ts).tally ρ = indicator (Sense.strings.leaf l ts) := by
  rw [tally_node, if_neg (by simp [h]), if_pos hf]

theorem tally_of_not_isFlat (hf : l.kind.isFlat = false) : (node l ts).tally ρ = l.kind.tally (ts.map (tally ρ)) := by
  rw [tally_node, if_neg, if_neg (by simp [hf])]
  cases hk : l.kind <;> simp_all [Construct.isFlat, Construct.isNonterminal]

theorem tally_congr : ∀ {t : Tree}, (t.Every fun l _ => ρ l.nameText = ρ' l.nameText) → t.tally ρ = t.tally ρ'
  | node l ts, h => by
    obtain ⟨hl, hts⟩ := every_node.mp h
    rw [tally_node, tally_node, hl, List.map_congr_left fun t ht => tally_congr (hts t ht)]

/-- What a tree adds to the tally of a name: its own tally, if it is a rule of that name. -/
noncomputable def share (ρ : String → Tally Char) (name : String) (t : Tree) : Tally Char :=
  if t.kind.isRule = true ∧ t.label.nameText = name then t.tally ρ else 0

/-- The rules of each name have no more ways together than the name has. -/
def Bounded (rules : List Tree) (ρ : String → Tally Char) : Prop :=
  ∀ name, (rules.map (share ρ name)).sum ≤ ρ name

end Tree

/-! ### Tallies of parse trees -/

section

variable {ρ : String → Tally Char} {l : Label} {t : Tree} {ts us rules : List Tree} {ps : List Parse} {name : String}

theorem ParsesAll.length_eq (h : ParsesAll rules ts ps) : ps.length = ts.length := by
  induction ts generalizing ps with
  | nil =>
    cases h
    rfl
  | cons t ts ih =>
    cases h with
    | cons hp hps => rw [List.length_cons, ih hps, List.length_cons]

theorem prod_le_count (h : ∀ t ∈ ts, t.tally ρ ≤ count {p | Parses rules t p} Parse.yield) :
    (ts.map (Tree.tally ρ)).prod ≤ count {ps | ParsesAll rules ts ps} Parse.yieldAll := by
  induction ts with
  | nil => exact one_le_count (b := []) ParsesAll.nil rfl
  | cons t ts ih =>
    rw [List.map_cons, List.prod_cons]
    refine (mul_mono (h t (List.mem_cons_self ..)) (ih fun t ht => h t (List.mem_cons_of_mem _ ht))).trans ?_
    rw [count_mul]
    have himage : Set.InjOn (fun x : Parse × List Parse => x.1 :: x.2)
        ({p | Parses rules t p} ×ˢ {ps | ParsesAll rules ts ps}) := by
      rintro ⟨p, ps⟩ - ⟨q, qs⟩ - heq
      simpa using heq
    refine (count_image (y := Parse.yieldAll) himage).ge.trans (count_mono ?_)
    rintro _ ⟨⟨p, ps⟩, ⟨hp, hps⟩, rfl⟩
    exact .cons hp hps

theorem injOn_append : Set.InjOn (fun x : List Parse × List Parse => x.1 ++ x.2)
    ({ps | ParsesAll rules ts ps} ×ˢ {qs | ParsesRounds rules us qs}) := by
  rintro ⟨ps, qs⟩ ⟨hps, -⟩ ⟨ps', qs'⟩ ⟨hps', -⟩ heq
  have hlen : ps.length = ps'.length := (ParsesAll.length_eq hps).trans (ParsesAll.length_eq hps').symm
  obtain ⟨rfl, rfl⟩ := List.append_inj heq hlen
  rfl

theorem count_mul_rounds : count {ps | ParsesAll rules ts ps} Parse.yieldAll *
    count {qs | ParsesRounds rules us qs} Parse.yieldAll =
    count ((fun x : List Parse × List Parse => x.1 ++ x.2) ''
      ({ps | ParsesAll rules ts ps} ×ˢ {qs | ParsesRounds rules us qs})) Parse.yieldAll := by
  rw [count_image injOn_append, count_mul]
  simp only [Parse.yieldAll_append]

/-- Rounds that are not empty are told apart. -/
theorem kstar_le_count (hts : ts ≠ []) : (count {ps | ParsesAll rules ts ps} Parse.yieldAll)∗ ≤
    count {qs | ParsesRounds rules ts qs} Parse.yieldAll := by
  refine Tally.kstar_le ?_
  rw [count_mul_rounds]
  refine (add_le_add (one_le_count (y := Parse.yieldAll) (b := []) (Set.mem_singleton _) rfl) le_rfl).trans ?_
  rw [← count_union]
  · refine count_mono ?_
    rintro _ (rfl | ⟨⟨ps, qs⟩, ⟨hps, hqs⟩, rfl⟩)
    · exact .nil
    · exact .cons hps hqs
  · -- a round has a tree for each of its constructs, so it is not empty
    rw [Set.disjoint_left]
    rintro _ rfl ⟨⟨ps, qs⟩, ⟨hps, -⟩, hnil⟩
    have hlen := ParsesAll.length_eq hps
    rw [(List.append_eq_nil_iff.mp hnil).1] at hlen
    exact hts (List.length_eq_zero_iff.mp hlen.symm)

namespace Construct

theorem mem_of_mem_firstRound {bs : List Tree} (ht : t ∈ firstRound bs) : t ∈ bs := by
  match bs, ht with
  | [_], ht => exact ht
  | [f, s], ht => exact List.mem_of_mem_take (i := 1) ht
  | _ :: _ :: _ :: _, ht => exact ht

theorem mem_of_mem_nextRound {bs : List Tree} (ht : t ∈ nextRound bs) : t ∈ bs := by
  match bs, ht with
  | [_], ht => exact ht
  | [f, s], ht => exact (List.Perm.swap f s []).subset ht
  | _ :: _ :: _ :: _, ht => exact ht

theorem rounds_ne_nil {bs : List Tree} (h : bs ≠ []) : firstRound bs ≠ [] ∧ nextRound bs ≠ [] := by
  match bs, h with
  | [_], _ | [_, _], _ | _ :: _ :: _ :: _, _ => exact ⟨List.cons_ne_nil _ _, List.cons_ne_nil _ _⟩

end Construct

/-- The parse trees of a repetition with at least one round. -/
def repetitions (rules ts : List Tree) : Set Parse :=
  (fun x : List Parse × List Parse => .repetition (x.1 ++ x.2)) ''
    ({ps | ParsesAll rules (Construct.firstRound ts) ps} ×ˢ {qs | ParsesRounds rules (Construct.nextRound ts) qs})

theorem rounds_le_count (hts : ts ≠ [])
    (h : ∀ t ∈ ts, t.tally ρ ≤ count {p | Parses rules t p} Parse.yield) :
    (Construct.firstRound (ts.map (Tree.tally ρ))).prod * (Construct.nextRound (ts.map (Tree.tally ρ))).prod∗ ≤
      count (repetitions rules ts) Parse.yield := by
  have hfirst := prod_le_count fun t ht => h t (Construct.mem_of_mem_firstRound ht)
  have hnext := prod_le_count fun t ht => h t (Construct.mem_of_mem_nextRound ht)
  have hrounds := (Tally.kstar_mono hnext).trans (kstar_le_count (Construct.rounds_ne_nil hts).2)
  rw [← Construct.map_firstRound, ← Construct.map_nextRound]
  refine (mul_mono hfirst hrounds).trans ?_
  rw [count_mul, repetitions, count_image]
  · simp only [Parse.yield, Parse.yieldAll_append]
    exact le_rfl
  · exact fun x hx y hy heq => injOn_append hx hy (by simpa using heq)

theorem repeat_le_count (hl : l.kind = .repeat0 ∨ l.kind = .repeat1) (hts : ts ≠ [])
    (h : ∀ t ∈ ts, t.tally ρ ≤ count {p | Parses rules t p} Parse.yield) :
    l.kind.tally (ts.map (Tree.tally ρ)) ≤ count {p | Parses rules (.node l ts) p} Parse.yield := by
  have hsubset : repetitions rules ts ⊆ {p | Parses rules (.node l ts) p} := by
    rintro _ ⟨⟨ps, qs⟩, ⟨hps, hqs⟩, rfl⟩
    exact .rounds hl hps hqs
  rcases hl with hl | hl <;> rw [hl]
  · have hone := one_le_count (y := Parse.yield) (b := .repetition []) (Set.mem_singleton _) rfl
    refine (add_le_add hone (rounds_le_count hts h)).trans ?_
    rw [← count_union]
    · refine count_mono (Set.union_subset ?_ hsubset)
      rintro _ rfl
      exact .noRound hl
    · rw [Set.disjoint_left]
      rintro _ rfl ⟨⟨ps, qs⟩, ⟨hps, -⟩, hnil⟩
      have hlen := ParsesAll.length_eq hps
      rw [(List.append_eq_nil_iff.mp (Parse.repetition.inj hnil)).1] at hlen
      exact (Construct.rounds_ne_nil hts).1 (List.length_eq_zero_iff.mp hlen.symm)
  · exact (rounds_le_count hts h).trans (count_mono hsubset)

theorem option_le_count (hl : l.kind = .option)
    (h : ∀ t ∈ ts, t.tally ρ ≤ count {p | Parses rules t p} Parse.yield) :
    1 + (ts.map (Tree.tally ρ)).prod ≤ count {p | Parses rules (.node l ts) p} Parse.yield := by
  have hpresent : count {ps | ParsesAll rules ts ps} Parse.yieldAll =
      count (Parse.present '' {ps | ParsesAll rules ts ps}) Parse.yield := by
    rw [count_image fun _ _ _ _ => Parse.present.inj]
    simp only [Parse.yield]
  have hone := one_le_count (y := Parse.yield) (b := .absent) (Set.mem_singleton _) rfl
  refine (add_le_add hone (prod_le_count h)).trans ?_
  rw [hpresent, ← count_union]
  · refine count_mono ?_
    rintro _ (rfl | ⟨ps, hps, rfl⟩)
    · exact .absent hl
    · exact .present hl hps
  · rw [Set.disjoint_left]
    rintro _ rfl ⟨ps, -, hps⟩
    cases hps

theorem alts_le_count (hl : l.kind = .alts)
    (h : ∀ t ∈ ts, t.tally ρ ≤ count {p | Parses rules t p} Parse.yield) :
    (ts.map (Tree.tally ρ)).sum ≤ count {p | Parses rules (.node l ts) p} Parse.yield := by
  refine (List.sum_le_sum h).trans ?_
  have himage : Set.InjOn (fun x : Nat × Parse => Parse.alternative x.1 x.2)
      (indexed ts fun t => {p | Parses rules t p}) := fun x _ y _ heq => by simpa [Prod.ext_iff] using heq
  rw [← count_indexed]
  refine (count_image (y := Parse.yield) himage).ge.trans (count_mono ?_)
  rintro _ ⟨⟨i, p⟩, ⟨t, ht, hp⟩, rfl⟩
  exact .alternative hl ht hp

theorem sequence_le_count (hl : l.kind.isSequence = true)
    (h : ∀ t ∈ ts, t.tally ρ ≤ count {p | Parses rules t p} Parse.yield) :
    (ts.map (Tree.tally ρ)).prod ≤ count {p | Parses rules (.node l ts) p} Parse.yield := by
  refine (prod_le_count h).trans ?_
  refine (count_image (y := Parse.yield) fun _ _ _ _ => Parse.sequence.inj).ge.trans (count_mono ?_)
  rintro _ ⟨ps, hps, rfl⟩
  exact .sequence hl hps

theorem tally_le_count (hρ : ∀ name, ρ name ≤ count (Tree.parses rules name) Parse.yield) :
    ∀ {t : Tree}, (t.Every fun l ks => l.kind.fits ks = true) →
      t.tally ρ ≤ count {p | Parses rules t p} Parse.yield
  | .node l ts, hfit => by
    obtain ⟨hl, hts⟩ := Tree.every_node.mp hfit
    have ih : ∀ t ∈ ts, t.tally ρ ≤ count {p | Parses rules t p} Parse.yield := fun t ht =>
      tally_le_count hρ (hts t ht)
    rw [Tree.tally_node]
    split
    · next hk =>
      refine (hρ _).trans (count_mono ?_)
      rintro _ ⟨i, r, q, rfl, hr, hn, hq⟩
      exact .reference hk hr hn hq
    · next hk =>
      split
      · next hf =>
        refine indicator_le_count fun w hw => ⟨.leaf w, ?_, rfl⟩
        exact Parses.leaf (Bool.eq_false_iff.mpr hk) hf hw
      · next hf =>
        rcases Construct.cases_of_not_isFlat (Bool.eq_false_iff.mpr hf) with hc | hc | hc | hc
        · rw [hc]
          exact alts_le_count hc ih
        · rw [hc]
          exact option_le_count hc ih
        · refine repeat_le_count hc (fun hnil => ?_) ih
          obtain ⟨f, -, hks⟩ := Construct.fits_repeat hc hl
          rw [hnil] at hks
          rcases hks with hks | hks <;> cases hks
        · rw [Construct.tally_of_isSequence hc]
          exact sequence_le_count hc ih

/-- The tallies of the parse trees are bounded by the rules. -/
theorem bounded_count (hfit : ∀ r ∈ rules, r.Every fun l ks => l.kind.fits ks = true) :
    Tree.Bounded rules fun name => count (Tree.parses rules name) Parse.yield := by
  intro name
  have hshare : ∀ r ∈ rules, r.share (fun name => count (Tree.parses rules name) Parse.yield) name ≤
      count {q | r.IsRuleNamed name ∧ Parses rules r q} Parse.yield := fun r hr => by
    rw [Tree.share]
    split
    · next hn => exact (tally_le_count (fun _ => le_rfl) (hfit r hr)).trans (count_mono fun q hq => ⟨hn, hq⟩)
    · exact zero_le _
  refine (List.sum_le_sum hshare).trans ?_
  have himage : Set.InjOn (fun x : Nat × Parse => Parse.reference x.1 x.2)
      (indexed rules fun r => {q | r.IsRuleNamed name ∧ Parses rules r q}) := fun x _ y _ heq => by
    simpa [Prod.ext_iff] using heq
  rw [← count_indexed]
  refine (count_image (y := Parse.yield) himage).ge.trans (count_mono ?_)
  rintro _ ⟨⟨i, q⟩, ⟨r, hr, hn, hq⟩, rfl⟩
  exact ⟨i, r, q, rfl, hr, hn, hq⟩

end

end Ixml
