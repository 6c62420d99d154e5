import Ixml.Proofs.Simplify.Hoist
import Ixml.Proofs.Simplify.Split

/-!
# Passes reach the canonical form

A pass leaves the rules that it finds `Canonical`, and what it adds is lighter than what it finds
(`does_pass`). A grammar of canonical rules is left as it is (`pass_eq_of_canonical`). As no rule weighs more
than there are nodes, the passes end with a canonical grammar before their bound is reached
(`holds_simplify`).
-/

namespace Ixml.Simplify

open Layout Edit

variable {rootLabel : Label} {b g g' : Grammar} {J J' W : List Layout} {t : Layout} {i : NodeId} {m k n : Nat}
  {strategy : Strategy} {τ : Sugar} {a : Bool} {P Q R : Label → List Construct → Prop}

/-! ### Canonical rules -/

/-- A rule with a single alternative that holds no construct. -/
def Canonical (t : Layout) : Prop :=
  Single t ∧ t.Every fun l _ => l.kind.isCompound = false

theorem every_kids {p : Construct → Prop} (h : t.Every fun l _ => p l.kind) :
    t.Every fun _ ks => ∀ k ∈ ks, p k := by
  refine every_of_spots (q := none) fun s hs => ?_
  obtain ⟨z, u, rfl, rfl⟩ := exists_fill_of_mem_spots [] hs
  rw [kidKinds_top]
  intro k hk
  obtain ⟨v, hv, rfl⟩ := List.mem_map.mp hk
  obtain ⟨i, l, ts⟩ := u
  obtain ⟨j, k, us⟩ := v
  exact (every_node.mp ((every_node.mp h.of_fill).2 _ hv)).1

/-- Below what is flat there are only members of sets. -/
theorem every_of_isFlat (ht : t.Every (Proper m)) (hk : t.kind.isFlat = true) :
    t.Every fun l _ => l.kind.isCompound = false := by
  obtain ⟨i, l, ts⟩ := t
  obtain ⟨hp, hts⟩ := every_node.mp ht
  rw [kind_node] at hk
  refine every_node.mpr ⟨by cases hl : l.kind <;> simp_all [Construct.isFlat, Construct.isCompound], ?_⟩
  intro u hu
  have hm := Construct.fits_flat hk hp.fits _ (List.mem_map_of_mem hu)
  obtain ⟨j, k, us⟩ := u
  obtain ⟨hpu, -⟩ := every_node.mp (hts _ hu)
  have hfit := hpu.fits
  rw [kind_node] at hm
  have hus : us = [] := by
    cases hk : k.kind <;> simp [hk, Construct.isMember] at hm <;> cases us <;> simp_all [Construct.fits]
  subst hus
  refine every_node.mpr ⟨?_, by simp⟩
  cases hk : k.kind <;> simp_all [Construct.isMember, Construct.isCompound]

theorem Canonical.isFlat (h : Canonical t) (ht : t.Every (Proper m)) (hr : t.kind.isRule = true) :
    ∃ a, t.children = [a] ∧ a.kind = .alt ∧ ∀ c ∈ a.children, c.kind.isFlat = true := by
  obtain ⟨i, l, ts⟩ := t
  obtain ⟨a, rfl, ha⟩ := List.map_eq_singleton_iff.mp (h.1 hr)
  refine ⟨a, rfl, ha, fun c hc => ?_⟩
  obtain ⟨j, k, us⟩ := a
  obtain ⟨hp, -⟩ := every_node.mp ((every_node.mp ht).2 _ (List.mem_singleton_self _))
  have hfit := hp.fits
  rw [show k.kind = .alt from ha] at hfit
  have hfactor := Construct.fits_alt hfit _ (List.mem_map_of_mem hc)
  have hno := (every_node.mp ((every_node.mp h.2).2 _ (List.mem_singleton_self _))).2 c hc
  obtain ⟨p, q, vs⟩ := c
  have hno := (every_node.mp hno).1
  rw [Construct.isFactor, kind_node, hno, Bool.or_false] at hfactor
  exact hfactor

mutual

theorem weight_eq_zero : ∀ {t : Tree}, (t.Every fun l _ => l.kind.isCompound = false) → t.weight = 0
  | .node l ts, h => by
    obtain ⟨hl, hts⟩ := Tree.every_node.mp h
    rw [Tree.weight, maxWeight_eq_zero hts]
    cases hk : l.kind <;> simp_all [Construct.isCompound, Construct.ownWeight]

theorem maxWeight_eq_zero : ∀ {ts : List Tree},
    (∀ t ∈ ts, t.Every fun l _ => l.kind.isCompound = false) → Tree.maxWeight ts = 0
  | [], _ => rfl
  | t :: ts, h => by
    rw [Tree.maxWeight, weight_eq_zero (h t (List.mem_cons_self ..)),
      maxWeight_eq_zero fun u hu => h u (List.mem_cons_of_mem _ hu)]
    rfl

end

theorem Canonical.load_eq_zero (h : Canonical t) : t.load = 0 := by
  rw [load, ← Nat.le_zero, ← maxWeight_map_erase, Tree.maxWeight_le_iff]
  intro u hu
  obtain ⟨c, hc, rfl⟩ := List.mem_map.mp hu
  obtain ⟨a, ha, hca⟩ := List.mem_flatMap.mp hc
  obtain ⟨i, l, ts⟩ := t
  obtain ⟨j, k, us⟩ := a
  have hc := (every_node.mp ((every_node.mp h.2).2 _ ha)).2 c hca
  exact Nat.le_of_eq (weight_eq_zero hc)

/-! ### Giving up every sort in turn -/

/-- A repetition of one or more stands in an option only. -/
def PlusInOption (l : Label) (ks : List Construct) : Prop :=
  .repeat1 ∈ ks → l.kind = .option

/-- No construct is left but groups. -/
structure Reduced (l : Label) (ks : List Construct) : Prop where
  separatedStar : Lacks .separatedStar l ks
  star : Lacks .star l ks
  option : Lacks .option l ks
  plus : PlusInOption l ks

theorem Stable.and (hP : Stable a P) (hQ : Stable a Q) : Stable a fun l ks => P l ks ∧ Q l ks where
  inPlace hu h := by
    have hp := hP.inPlace hu (h.mono fun _ _ h => h.1)
    have hq := hQ.inPlace hu (h.mono fun _ _ h => h.2)
    refine every_of_spots (q := none) fun s hs => ⟨hp.of_mem_spots hs, hq.of_mem_spots hs⟩
  frame hu hc h := ⟨hP.frame hu hc h.1, hQ.frame hu hc h.2⟩

theorem every_and (hP : t.Every P) (hQ : t.Every Q) : t.Every fun l ks => P l ks ∧ Q l ks :=
  every_of_spots (q := none) fun _ hs => ⟨hP.of_mem_spots hs, hQ.of_mem_spots hs⟩

/-- What has been given up does not come back, apart from what the specification leaves of a star. -/
theorem stable_lacks (hτ : a = true → τ ≠ .plus ∧ τ ≠ .option) : Stable a (Lacks τ) where
  inPlace := by
    rintro old ⟨i, l, ts⟩ u hu h
    obtain ⟨-, hts⟩ := every_node.mp h
    cases hu with
    | @reference j k hj hk =>
      refine every_node.mpr ⟨?_, by simp⟩
      cases hl : k.kind <;> simp [hl, Construct.isNonterminal] at hk
      cases τ <;> simp [Lacks, Sugar.isOf, hl]
    | child hu => exact hts u hu
    | @star o p x hk hx ho hp =>
      obtain rfl : ts = [x] := hx
      obtain ⟨h1, h2⟩ := hτ rfl
      refine every_node.mpr ⟨?_, ?_⟩
      · cases τ <;> simp_all [Lacks, Sugar.isOf]
      · rw [List.forall_mem_singleton]
        refine every_node.mpr ⟨?_, by simpa using hts x⟩
        cases τ <;> simp_all [Lacks, Sugar.isOf]
  frame hu hc h := by simpa [Lacks] using h

theorem stable_plusInOption : Stable a PlusInOption where
  inPlace := by
    rintro old ⟨i, l, ts⟩ u hu h
    obtain ⟨hl, hts⟩ := every_node.mp h
    cases hu with
    | reference => exact every_node.mpr ⟨by simp [PlusInOption], by simp⟩
    | child hu => exact hts u hu
    | @star o p x hk hx ho hp =>
      obtain rfl : ts = [x] := hx
      refine every_node.mpr ⟨fun _ => rfl, ?_⟩
      rw [List.forall_mem_singleton]
      refine every_node.mpr ⟨fun hx => ?_, by simpa using hts x⟩
      rw [kind_node, show l.kind = .option from hl (by simpa using hx)] at hk
      cases hk
  frame := by
    intro old t u l bs as hu hc h hm
    rw [List.mem_append, List.mem_cons] at hm
    rcases hm with hm | hm | hm
    · exact h (List.mem_append_left _ hm)
    · cases hu with
      | reference _ hl =>
        rw [kind_node] at hm
        rw [← hm] at hl
        cases hl
      | child _ hk =>
        rw [← hm] at hk
        cases hk
      | star => cases hm
    · exact h (List.mem_append_right _ (List.mem_cons_of_mem _ hm))

theorem stable_reduced : Stable false Reduced := by
  have h := ((stable_lacks (τ := .separatedStar) (a := false) (by simp)).and (stable_lacks (τ := .star) (by simp))).and
    ((stable_lacks (τ := .option) (by simp)).and stable_plusInOption)
  refine ⟨fun hu ht => ?_, fun hu hc ht => ?_⟩
  · have hall := h.inPlace hu (ht.mono fun _ _ h => ⟨⟨h.separatedStar, h.star⟩, h.option, h.plus⟩)
    exact hall.mono fun _ _ h => ⟨h.1.1, h.1.2, h.2.1, h.2.2⟩
  · obtain ⟨⟨hsep, hstar⟩, hoption, hplus⟩ := h.frame hu hc ⟨⟨ht.separatedStar, ht.star⟩, ht.option, ht.plus⟩
    exact ⟨hsep, hstar, hoption, hplus⟩

theorem plusInOption_of_lacks (h : t.Every (Lacks .separatedPlus)) (h' : t.Every (Lacks .plus)) :
    t.Every PlusInOption := by
  have hno : t.Every fun l _ => l.kind ≠ .repeat1 := by
    refine (every_and h h').mono fun l ks ⟨hs, hp⟩ hl => ?_
    rw [Lacks, hl] at hs hp
    simp only [Sugar.isOf] at hs hp
    rw [hs] at hp
    cases hp
  exact (every_kids (p := (· ≠ .repeat1)) hno).mono fun l ks hks hm => absurd rfl (hks _ hm)

/-- What has joined by the end of a step: the layouts that were there keep their places, and the new ones are
lighter. -/
structure Onward (J : List Layout) (m : Nat) (J' : List Layout) (m' : Nat) : Prop where
  steps : Relation.ReflTransGen Step ⟨J, m⟩ ⟨J', m'⟩
  outlines : J.map outline <+: J'.map outline
  bounded : ∀ k n, k ≤ J.length → Bounded k n J → Bounded k n J'

variable {J₁ J₂ : List Layout} {m₁ m₂ : Nat}

theorem Onward.length (h : Onward J m J₁ m₁) : J.length ≤ J₁.length := by
  simpa using h.outlines.length_le

theorem Onward.refl (J : List Layout) (m : Nat) : Onward J m J m :=
  ⟨.refl, List.prefix_rfl, fun _ _ _ h => h⟩

theorem Onward.trans (h : Onward J m J₁ m₁) (h' : Onward J₁ m₁ J₂ m₂) : Onward J m J₂ m₂ :=
  ⟨h.steps.trans h'.steps, h.outlines.trans h'.outlines,
    fun k n hk hb => h'.bounded k n (Nat.le_trans hk h.length) (h.bounded k n hk hb)⟩

theorem Advances.onward {W' : List Layout} (h : Advances a J [] m J' W' m₁) : Onward J m (J' ++ W') m₁ where
  steps := by simpa using h.steps
  outlines := by
    rw [List.map_append, h.outlines]
    exact List.prefix_append ..
  bounded k n hk hb := h.bounded k n (by simpa using hk) (by simpa using hb)

/-- `Clears strategy τs P Q` says that giving up the sorts `τs` in turn leads from layouts with `P` to such
with `Q`. -/
inductive Clears (strategy : Strategy) :
    List Sugar → (Label → List Construct → Prop) → (Label → List Construct → Prop) → Prop
  | nil {P : Label → List Construct → Prop} : Clears strategy [] P P
  | cons {τ : Sugar} {τs : List Sugar} {P Q R : Label → List Construct → Prop}
    (hP : Stable (strategy == .spec && τ == .star) P)
    (hQ : ∀ t : Layout, t.Every P → t.Every (Lacks τ) → t.Every Q) (h : Clears strategy τs Q R) :
    Clears strategy (τ :: τs) P R

/-- In either order nothing is left but groups. -/
theorem clears_order (strategy : Strategy) :
    Clears strategy (Sugar.order strategy) (fun _ _ => True) Reduced := by
  have htrue {a : Bool} : Stable a fun _ _ => True :=
    ⟨fun _ _ => every_of_spots (q := none) fun _ _ => trivial, fun _ _ _ => trivial⟩
  have hlacks {τ : Sugar} {a : Bool} (hτ : τ ≠ .plus ∧ τ ≠ .option) : Stable a (Lacks τ) :=
    stable_lacks fun _ => hτ
  cases strategy with
  | spec =>
    refine .cons htrue (fun _ _ h => h) (.cons (hlacks (by decide)) (fun _ h h' => every_and h h') ?_)
    refine .cons ((hlacks (by decide)).and (hlacks (by decide))) (fun _ h h' => every_and
      (h.mono fun _ _ h => h.1) (plusInOption_of_lacks (h.mono fun _ _ h => h.2) h')) ?_
    refine .cons ((hlacks (by decide)).and stable_plusInOption) (fun _ h h' => every_and h h') ?_
    refine .cons (((hlacks (by decide)).and stable_plusInOption).and (hlacks (by decide))) (fun t h h' => ?_) .nil
    exact (every_and h h').mono fun _ _ h => ⟨h.1.1.1, h.1.2, h.2, h.1.1.2⟩
  | alternate =>
    refine .cons htrue (fun _ _ h => h) (.cons (hlacks (by decide)) (fun _ h h' => every_and h h') ?_)
    refine .cons ((hlacks (by decide)).and (hlacks (by decide))) (fun _ h h' => every_and h h') ?_
    refine .cons (((hlacks (by decide)).and (hlacks (by decide))).and (hlacks (by decide))) (fun _ h h' =>
      every_and (every_and (h.mono fun _ _ h => h.1.1) (h.mono fun _ _ h => h.2))
        (plusInOption_of_lacks (h.mono fun _ _ h => h.1.2) h')) ?_
    refine .cons (((hlacks (by decide)).and (hlacks (by decide))).and stable_plusInOption) (fun t h h' => ?_) .nil
    exact (every_and h h').mono fun _ _ h => ⟨h.1.1.1, h.1.1.2, h.2, h.1.2⟩

theorem does_giveUpEach {τs : List Sugar} (hc : Clears strategy τs P Q) (h : Holds rootLabel b J [] g)
    (hS : Stock.Sound ⟨J, b.madeUp⟩) (hstart : b.start.isSome = true) (hk : k ≤ J.length)
    (hJ : ∀ t ∈ J.take k, t.Every P) :
    Does (giveUpEach strategy τs) g fun c g' => (c = false → g' = g) ∧ ∃ J' m',
      Holds rootLabel { b with madeUp := m' } J' [] g' ∧ Onward J b.madeUp J' m' ∧
      ∀ t ∈ J'.take k, t.Every Q := by
  induction hc generalizing g J b with
  | nil => exact .pure ⟨fun _ => rfl, J, b.madeUp, h, .refl .., hJ⟩
  | @cons τ τs P Q R hP hQ _ ih =>
    refine (does_giveUpAll h hS hstart strategy τ).bind fun c g₁ ⟨hc, J₁, W₁, m₁, h₁, ha₁, hlack⟩ => ?_
    have hS₁ : Stock.Sound ⟨J₁ ++ W₁, m₁⟩ := sound_of_steps ha₁.onward.steps hS
    have hk₁ : k ≤ (J₁ ++ W₁).length := Nat.le_trans hk ha₁.onward.length
    have hJ₁ : ∀ t ∈ (J₁ ++ W₁).take k, t.Every Q := fun t ht => by
      rw [List.take_append_of_le_length (ha₁.length ▸ hk)] at ht
      exact hQ t (ha₁.stable P k hP hJ t ht) (hlack t (List.mem_of_mem_take ht))
    refine (ih h₁ hS₁ hstart hk₁ hJ₁).bind fun d g₂ ⟨hd, J₂, m₂, h₂, ho₂, hJ₂⟩ => .pure ?_
    refine ⟨fun hcd => ?_, J₂, m₂, h₂, ha₁.onward.trans ho₂, hJ₂⟩
    rw [Bool.or_eq_false_iff] at hcd
    rw [hd hcd.2, hc hcd.1]

/-! ### One pass -/

/-- Where nothing is left but groups, a factor that is neither a group nor a repetition is no construct. -/
theorem Reduced.isFlat {l : Label} {ks : List Construct} (h : Reduced l ks) (hf : l.kind.isFactor = true)
    (hgroup : l.kind ≠ .alts) (hplus : l.kind ≠ .repeat1) : l.kind.isFlat = true := by
  have hstar : l.kind ≠ .repeat0 := fun hl => by
    have h0 := h.separatedStar
    have h1 := h.star
    simp only [Lacks, Sugar.isOf, hl] at h0 h1
    rw [h0] at h1
    cases h1
  have hoption : l.kind ≠ .option := fun hl => by
    have h2 := h.option
    rw [Lacks, hl] at h2
    cases h2
  cases hl : l.kind <;> simp_all [Construct.isFactor, Construct.isFlat, Construct.isCompound]

/-- A rule in which nothing is left but groups, and no alternative holds a group, is canonical. -/
theorem canonical_of_reduced (ht : t.Every (Proper m)) (htop : t.kind.isTop = true) (hs : Single t)
    (hr : t.Every Reduced) (hi : ∀ f z u, t = fill (f :: z) u → f.label.kind = .alt → u.kind ≠ .alts) :
    Canonical t := by
  refine ⟨hs, ?_⟩
  have hsub (h : t.kind.isRule = false) : t.Every fun l _ => l.kind.isCompound = false := by
    refine every_of_spots (q := none) fun s hs => ?_
    rw [← Bool.not_eq_true]
    intro hc
    rw [isRule_of_mem_spots ht htop hs hc] at h
    cases h
  cases hrule : t.kind.isRule with
  | false => exact hsub hrule
  | true =>
    obtain ⟨i, l, ts⟩ := t
    obtain ⟨⟨j, k, us⟩, rfl, hk⟩ := List.map_eq_singleton_iff.mp (hs hrule)
    obtain ⟨-, halt⟩ := every_node.mp ht
    obtain ⟨hp, hus⟩ := every_node.mp (halt _ (List.mem_singleton_self _))
    obtain ⟨-, hralt⟩ := every_node.mp hr
    obtain ⟨hrk, hrus⟩ := every_node.mp (hralt _ (List.mem_singleton_self _))
    have hk : k.kind = .alt := hk
    have hfit := hp.fits
    rw [hk] at hfit
    rw [kind_node] at hrule
    have hl : l.kind.isCompound = false := by
      cases h : l.kind <;> simp_all [Construct.isRule, Construct.isCompound]
    refine every_node.mpr ⟨hl, ?_⟩
    rw [List.forall_mem_singleton]
    refine every_node.mpr ⟨by rw [hk]; rfl, fun u hu => every_of_isFlat (hus u hu) ?_⟩
    -- a child of the alternative is no construct of any sort
    have hfactor := Construct.fits_alt hfit _ (List.mem_map_of_mem hu)
    have hgroup : u.kind ≠ .alts := by
      obtain ⟨bs, as, rfl⟩ := List.append_of_mem hu
      exact hi ⟨j, k, bs, as⟩ [⟨i, l, [], []⟩] u rfl hk
    have hplus : u.kind ≠ .repeat1 := fun hu1 => by
      have := hrk.plus (hu1 ▸ List.mem_map_of_mem hu)
      rw [hk] at this
      cases this
    obtain ⟨p, q, vs⟩ := u
    exact (every_node.mp (hrus _ hu)).1.isFlat hfactor hgroup hplus

/-- All rules that are not canonical are lighter than `n`. -/
def Under (n : Nat) (J : List Layout) : Prop :=
  ∀ t ∈ J, ¬Canonical t → t.load < n

/-- The rules that a pass finds after the split are canonical, if it leaves only groups in them and hoists those. -/
theorem canonical_of_passed {J' : List Layout} (hS : Stock.Sound ⟨J', m⟩) (hout : J.map outline <+: J'.map outline)
    (hs : ∀ t ∈ J, Single t) (hr : ∀ t ∈ J'.take J.length, t.Every Reduced) (hi : inner J' = []) :
    ∀ t ∈ J'.take J.length, Canonical t := by
  intro t ht
  have hmem := List.mem_of_mem_take ht
  refine canonical_of_reduced (hS.proper t hmem) (hS.top t hmem) ?_ (hr t ht) ?_
  · have hout : (J'.take J.length).map outline = J.map outline := by
      have hlen : J.length = (J.map outline).length := by simp
      rw [List.map_take, hlen]
      exact (List.prefix_iff_eq_take.mp hout).symm
    exact single_of_outlines hout hs t ht
  · rintro f z u rfl hf hu
    have := mem_inner_fill hmem hf hu
    rw [hi] at this
    cases this

theorem does_pass (h : Holds rootLabel b J [] g) (hroot : rootLabel.kind ≠ .alt) (hS : Stock.Sound ⟨J, b.madeUp⟩)
    (hstart : b.start.isSome = true) (strategy : Strategy) :
    Does (pass strategy) g fun c g' => ∃ J' m', Holds rootLabel { b with madeUp := m' } J' [] g' ∧
      Relation.ReflTransGen Step ⟨J, b.madeUp⟩ ⟨J', m'⟩ ∧ (∀ n, Under (n + 1) J → Under n J') ∧
      (c = false → g' = g ∧ ∀ t ∈ J', Canonical t) := by
  refine (does_splitAll h hS hstart).bind fun c₁ g₁ ⟨hc₁, J₁, h₁, hs₁, hlen₁, hload₁, hsingle₁⟩ => ?_
  have hS₁ := sound_of_steps hs₁ hS
  refine (does_replaceEmptyAll h₁ hS₁ hstart hsingle₁).bind
    fun c₂ g₂ ⟨hc₂, J₂, h₂, hs₂, hlen₂, hload₂, hsingle₂⟩ => ?_
  have hS₂ := sound_of_steps hs₂ hS₁
  refine (does_giveUpEach (clears_order strategy) h₂ hS₂ hstart (Nat.le_refl J₂.length) fun t _ =>
    every_of_spots (q := none) fun _ _ => trivial).bind fun c₃ g₃ ⟨hc₃, J₃, m₃, h₃, ho₃, hred₃⟩ => ?_
  have hS₃ : Stock.Sound ⟨J₃, m₃⟩ := sound_of_steps ho₃.steps hS₂
  refine (does_hoistAll h₃ hroot hS₃ hstart).bind fun c₄ g₄ ⟨hc₄, J₄, W₄, m₄, h₄, ha₄, hin₄⟩ => .pure ?_
  have hS₄ : Stock.Sound ⟨J₄ ++ W₄, m₄⟩ := sound_of_steps ha₄.onward.steps hS₃
  have ho : Onward J₂ b.madeUp (J₄ ++ W₄) m₄ := ho₃.trans ha₄.onward
  have hcan : ∀ t ∈ (J₄ ++ W₄).take J₂.length, Canonical t := by
    refine canonical_of_passed hS₄ ho.outlines hsingle₂ (fun t ht => ?_) hin₄
    rw [List.take_append_of_le_length (ha₄.length ▸ ho₃.length)] at ht
    exact ha₄.stable Reduced J₂.length stable_reduced hred₃ t ht
  refine ⟨J₄ ++ W₄, m₄, h₄, (hs₁.trans hs₂).trans ho.steps, fun n hn t ht hnc => ?_, fun hc => ?_⟩
  · -- what is not canonical was added after the split, and is lighter than all that was there
    have hle : ∀ t ∈ J, t.load ≤ n := fun t ht => by
      by_cases hct : Canonical t
      · rw [hct.load_eq_zero]
        exact Nat.zero_le n
      · exact Nat.le_of_lt_succ (hn t ht hct)
    have hb := ho.bounded J₂.length n (Nat.le_refl _) ⟨hload₂ n (hload₁ n hle), by simp⟩
    rw [← List.take_append_drop J₂.length (J₄ ++ W₄), List.mem_append] at ht
    rcases ht with ht | ht
    · exact absurd (hcan t ht) hnc
    · exact hb.2 t ht
  · simp only [Bool.or_eq_false_iff] at hc
    obtain ⟨⟨⟨hf₁, hf₂⟩, hf₃⟩, hf₄⟩ := hc
    have hg : g₄ = g := by rw [hc₄ hf₄, hc₃ hf₃, hc₂ hf₂, hc₁ hf₁]
    refine ⟨hg, fun t ht => hcan t ?_⟩
    have hlen : (J₄ ++ W₄).length = J.length := by
      have h4 := h₄.children_root
      have h0 := h.children_root
      rw [hg, h0] at h4
      simpa using (congrArg List.length h4).symm
    rwa [List.take_of_length_le (by omega)]

/-! ### All passes -/

theorem belowRules_eq_nil (h : Holds rootLabel b J W g) (hJ : ∀ t ∈ J, Canonical t) {p : NodeId → Bool}
    (hp : ∀ i, p i = true → (g.kind i).isCompound = true) : belowRules g p = [] := by
  refine List.eq_nil_iff_forall_not_mem.mpr fun i hi => ?_
  obtain ⟨⟨t, ht, -, hit⟩, hpi⟩ := h.mem_belowRules.mp hi
  obtain ⟨s, hs, rfl⟩ := mem_spots_of_mem_ids (some Grammar.root) hit
  have hk : g.kind s.id = s.label.kind := by
    rw [Grammar.kind, h.spot_eq (mem_spotsAll.mpr ⟨t, ht, hs⟩)]
    rfl
  have := hp _ hpi
  rw [hk, (hJ t ht).2.of_mem_spots hs] at this
  cases this

theorem does_giveUpAll_of_canonical (h : Holds rootLabel b J [] g) (hJ : ∀ t ∈ J, Canonical t) :
    Does (giveUpAll strategy τ) g fun c g' => c = false ∧ g' = g := by
  have hb : belowRules g (τ.isAt g) = [] := belowRules_eq_nil h hJ fun i hi => by
    rw [Sugar.isAt_eq] at hi
    exact isCompound_of_isOf hi
  refine .get ?_
  rw [hb]
  exact ⟨rfl, h.joinWaiting_eq⟩

theorem does_giveUpEach_of_canonical (h : Holds rootLabel b J [] g) (hJ : ∀ t ∈ J, Canonical t)
    (τs : List Sugar) : Does (giveUpEach strategy τs) g fun c g' => c = false ∧ g' = g := by
  induction τs with
  | nil => exact .pure ⟨rfl, rfl⟩
  | cons τ τs ih =>
    refine (does_giveUpAll_of_canonical h hJ).bind fun c g' ⟨hc, hg⟩ => ?_
    subst hc hg
    exact ih.bind fun d g'' ⟨hd, hg⟩ => .pure ⟨by rw [hd]; rfl, hg⟩

theorem does_splitRules_of_single {C : List Layout} (h : Holds rootLabel b J [] g) (hsub : ∀ t ∈ C, t ∈ J)
    (hC : ∀ t ∈ C, t.kind.isRule = true) (hJ : ∀ t ∈ J, Single t) :
    Does (anyOf splitRule (C.map Layout.id)) g fun c g' => c = false ∧ g' = g := by
  induction C with
  | nil => exact .pure ⟨rfl, rfl⟩
  | cons t C ih =>
    have ht := hsub t (List.mem_cons_self ..)
    obtain ⟨A, B, rfl⟩ := List.append_of_mem ht
    obtain ⟨i, l, ts⟩ := t
    obtain ⟨a, rfl, ha⟩ := List.map_eq_singleton_iff.mp (hJ _ ht (hC _ (List.mem_cons_self ..)))
    obtain ⟨junk, h'⟩ := h
    have h' : Laid _ (fill [⟨Grammar.root, rootLabel, A, B⟩] (node i l [a]) :: _) g := h'
    refine (does_splitRule_alt h' ha).bind fun c g' ⟨hc, hg⟩ => ?_
    subst hc hg
    refine (ih (fun u hu => hsub u (List.mem_cons_of_mem _ hu)) fun u hu => hC u (List.mem_cons_of_mem _ hu)).bind
      fun d g'' ⟨hd, hg⟩ => .pure ⟨by rw [hd]; rfl, hg⟩

theorem does_splitAll_of_canonical (h : Holds rootLabel b J [] g) (hJ : ∀ t ∈ J, Canonical t) :
    Does splitAll g fun c g' => c = false ∧ g' = g := by
  refine .get ?_
  rw [h.rules_eq]
  refine (does_splitRules_of_single h (fun t ht => List.mem_of_mem_filter ht)
    (fun t ht => by simpa using (List.mem_filter.mp ht).2) fun t ht => (hJ t ht).1).bind fun c g' ⟨hc, hg⟩ => ?_
  subst hc hg
  exact ⟨rfl, h.joinWaiting_eq⟩

theorem isCompound_of_isAlts (h : isAlts g i = true) : (g.kind i).isCompound = true := by
  rw [isAlts, beq_iff_eq] at h
  rw [h]
  rfl

theorem does_replaceEmptyAll_of_canonical (h : Holds rootLabel b J [] g) (hJ : ∀ t ∈ J, Canonical t) :
    Does replaceEmptyAll g fun c g' => c = false ∧ g' = g := by
  have hno : belowRules g (isEmptyGroup g) = [] := belowRules_eq_nil h hJ fun i hi => by
    rw [isEmptyGroup, Bool.and_eq_true, Bool.and_eq_true] at hi
    exact isCompound_of_isAlts hi.1.1
  refine .get ?_
  rw [hno]
  exact .pure ⟨rfl, rfl⟩

theorem does_hoistAll_of_canonical (h : Holds rootLabel b J [] g) (hJ : ∀ t ∈ J, Canonical t) :
    Does hoistAll g fun c g' => c = false ∧ g' = g := by
  have hno : belowRules g (isInnerGroup g) = [] := belowRules_eq_nil h hJ fun i hi => by
    rw [isInnerGroup, Bool.and_eq_true] at hi
    exact isCompound_of_isAlts hi.1
  refine .get ?_
  rw [hno]
  exact ⟨rfl, h.joinWaiting_eq⟩

theorem run_eq_of_does {α : Type} {x : Edit α} {c : α} (h : Does x g fun d g' => d = c ∧ g' = g) :
    x.run g = (c, g) := by
  unfold StateT.run
  exact Prod.ext h.1 h.2

/-- A pass over canonical rules changes nothing. -/
theorem pass_eq_of_canonical (h : Holds rootLabel b J [] g) (hJ : ∀ t ∈ J, Canonical t) (strategy : Strategy) :
    (pass strategy).run g = (false, g) := by
  refine run_eq_of_does ((does_splitAll_of_canonical h hJ).bind fun c₁ g₁ ⟨hc, hg⟩ => ?_)
  subst hc hg
  refine (does_replaceEmptyAll_of_canonical h hJ).bind fun c₂ g₂ ⟨hc, hg⟩ => ?_
  subst hc hg
  refine (does_giveUpEach_of_canonical h hJ _).bind fun c₃ g₃ ⟨hc, hg⟩ => ?_
  subst hc hg
  exact (does_hoistAll_of_canonical h hJ).bind fun c₄ g₄ ⟨hc, hg⟩ => .pure ⟨by rw [hc]; rfl, hg⟩

theorem passes_of_canonical (h : Holds rootLabel b J [] g) (hJ : ∀ t ∈ J, Canonical t) (strategy : Strategy)
    (fuel : Nat) : passes strategy (fuel + 1) g = ([g.rules.length], g) := by
  simp only [passes, pass_eq_of_canonical h hJ, Bool.false_eq_true, ↓reduceIte]

theorem passes_succ (strategy : Strategy) (fuel : Nat) (g : Grammar) : (passes strategy (fuel + 1) g).2 =
    if ((pass strategy).run g).1 = true then (passes strategy fuel ((pass strategy).run g).2).2
    else ((pass strategy).run g).2 := by
  simp only [passes]
  split
  rename_i heq
  simp only [heq]
  split <;> rfl

/-- Passes over rules lighter than their number end with canonical rules. -/
theorem holds_passes {fuel : Nat} (h : Holds rootLabel b J [] g) (hroot : rootLabel.kind ≠ .alt)
    (hS : Stock.Sound ⟨J, b.madeUp⟩) (hstart : b.start.isSome = true) (strategy : Strategy) (hn : Under n J)
    (hfuel : n < fuel) :
    ∃ J' m', Holds rootLabel { b with madeUp := m' } J' [] (passes strategy fuel g).2 ∧
      Relation.ReflTransGen Step ⟨J, b.madeUp⟩ ⟨J', m'⟩ ∧ ∀ t ∈ J', Canonical t := by
  induction fuel generalizing g b J n with
  | zero => omega
  | succ fuel ih =>
    cases n with
    | zero =>
      have hcan : ∀ t ∈ J, Canonical t := fun t ht => by
        by_contra hc
        exact absurd (hn t ht hc) (Nat.not_lt_zero _)
      rw [passes_of_canonical h hcan]
      exact ⟨J, b.madeUp, h, .refl, hcan⟩
    | succ n =>
      obtain ⟨J₁, m₁, h₁, hs₁, hunder, hfalse⟩ := does_pass h hroot hS hstart strategy
      rw [passes_succ]
      unfold StateT.run
      cases hc : (pass strategy g).1 with
      | false => exact ⟨J₁, m₁, h₁, hs₁, (hfalse hc).2⟩
      | true =>
        obtain ⟨J₂, m₂, h₂, hs₂, hcan⟩ :=
          ih h₁ (sound_of_steps hs₁ hS) hstart (hunder n hn) (by omega)
        exact ⟨J₂, m₂, h₂, hs₁.trans hs₂, hcan⟩

theorem load_le_size (h : Holds rootLabel b J W g) (ht : t ∈ J) : t.load ≤ 4 * g.nodes.size := by
  have hweight : t.load ≤ t.weight := by
    obtain ⟨i, l, ts⟩ := t
    rw [load, children_node, ← maxWeight_map_erase, Tree.maxWeight_le_iff]
    intro u hu
    obtain ⟨c, hc, rfl⟩ := List.mem_map.mp hu
    obtain ⟨a, ha, hca⟩ := List.mem_flatMap.mp hc
    have h1 := Nat.le_trans (weight_le_maxWeight hca) (maxWeight_le_weight a)
    have h2 := Nat.le_trans (weight_le_maxWeight ha) (maxWeight_le_weight (node i l ts))
    exact Nat.le_trans h1 h2
  have hsize : t.weight ≤ 4 * t.erase.size := Tree.weight_le_size t.erase
  obtain ⟨A, B, rfl⟩ := List.append_of_mem ht
  obtain ⟨junk, h⟩ := h
  have hmem : fill [⟨Grammar.root, rootLabel, A, B⟩] t ∈ node Grammar.root rootLabel (A ++ t :: B) :: (W ++ junk) :=
    List.mem_cons_self ..
  have hlen := h.lays.length_ids_le (Lays.spots_subset hmem) (h.lays.nodup_ids_fill hmem)
  rw [size_erase] at hsize
  omega

theorem grammar_simplify (strategy : Strategy) (g : Grammar) :
    (simplify strategy g).grammar = (passes strategy (passBound g) g).2 := by
  simp only [simplify]

/-- Simplification leads to canonical rules, step by step. -/
theorem holds_simplify (h : Holds rootLabel b J [] g) (hroot : rootLabel.kind ≠ .alt)
    (hS : Stock.Sound ⟨J, b.madeUp⟩) (hstart : b.start.isSome = true) (strategy : Strategy) :
    ∃ J' m', Holds rootLabel { b with madeUp := m' } J' [] (simplify strategy g).grammar ∧
      Relation.ReflTransGen Step ⟨J, b.madeUp⟩ ⟨J', m'⟩ ∧ ∀ t ∈ J', Canonical t := by
  rw [grammar_simplify]
  refine holds_passes (n := 4 * g.nodes.size + 1) h hroot hS hstart strategy (fun t ht _ => ?_) ?_
  · exact Nat.lt_succ_of_le (load_le_size h ht)
  · rw [passBound]
    omega

/-- To simplify canonical rules takes one pass, which changes nothing. -/
theorem simplify_of_canonical (h : Holds rootLabel b J [] g) (hJ : ∀ t ∈ J, Canonical t) (strategy : Strategy) :
    simplify strategy g = ⟨g, strategy, [g.rules.length], 0⟩ := by
  rw [simplify, passBound, passes_of_canonical h hJ]
  simp

/-! ### A single alternative -/

section Alone

variable {p : NodeId} {l k : Label} {x : Layout}

/-- The only rule, in a group of its own with the only alternative, is taken out of the group. -/
theorem does_splitAll_of_alone (h : Holds rootLabel b [node i l [node p k [x]]] [] g) (hl : l.kind.isRule = true)
    (hk : k.kind = .alts) (hstart : b.start.isSome = true) :
    Does splitAll g fun c g' => c = true ∧ Holds rootLabel b [node i l [x]] [] g' := by
  refine .get ?_
  rw [h.rules_eq, List.filter_cons_of_pos (by simpa using hl)]
  obtain ⟨junk, h⟩ := h
  rw [show [node i l [node p k [x]]] = [] ++ fill [] (node i l [node p k [x]]) :: [] from rfl, main_eq,
    List.nil_append] at h
  refine ((does_splitRule_alts h hk).bind fun c g₁ ⟨hc, rs, hrs, h₁⟩ => .pure (Q := fun c g' => c = true ∧
    Holds rootLabel b [node i l [x]] [] g') ?_).bind fun c g₁ ⟨hc, h₁⟩ => ?_
  · cases hrs
    refine ⟨by rw [hc]; rfl, node p k [] :: junk, ?_⟩
    rw [show [node i l [x]] = [] ++ fill [] (node i l [x]) :: [] from rfl, main_eq]
    exact h₁
  · exact ⟨hc, holds_joinWaiting h₁ hstart⟩

/-- If the only alternative holds no construct, then nothing else is done. -/
theorem holds_simplify_of_alone (h : Holds rootLabel b [node i l [node p k [x]]] [] g) (hl : l.kind.isRule = true)
    (hk : k.kind = .alts) (hx : Canonical (node i l [x])) (hstart : b.start.isSome = true) (strategy : Strategy) :
    Holds rootLabel b [node i l [x]] [] (simplify strategy g).grammar := by
  have hcan : ∀ t ∈ [node i l [x]], Canonical t := by simpa using hx
  have hpass : Does (pass strategy) g fun c g' => c = true ∧ Holds rootLabel b [node i l [x]] [] g' := by
    refine (does_splitAll_of_alone h hl hk hstart).bind fun c₁ g₁ ⟨hc, h₁⟩ => ?_
    subst hc
    refine (does_replaceEmptyAll_of_canonical h₁ hcan).bind fun c₂ g₂ ⟨_, hg⟩ => ?_
    subst hg
    refine (does_giveUpEach_of_canonical h₁ hcan _).bind fun c₃ g₃ ⟨_, hg⟩ => ?_
    subst hg
    exact (does_hoistAll_of_canonical h₁ hcan).bind fun c₄ g₄ ⟨_, hg⟩ => .pure ⟨by simp, hg ▸ h₁⟩
  rw [grammar_simplify, passBound, passes_succ]
  unfold StateT.run
  rw [if_pos hpass.1, passes_of_canonical hpass.2 hcan]
  exact hpass.2

end Alone

end Ixml.Simplify
