import Ixml.Proofs.Simplify.Edit
import Ixml.Proofs.Simplify.Weight

/-!
# Giving up a construct

Wherever a construct stands, giving it up makes one exchange there (`Edit.does_giveUp`): what takes its place
is a new reference, the reference that an option of nothing holds, or, where the specification turns `f*` into
an option of `f+`, an option.
-/

namespace Ixml

/-- Whether a node of a given kind with a number of children is a construct of a sort. -/
def Simplify.Sugar.isOf : Sugar → Construct → Nat → Bool
  | .separatedStar, .repeat0, n => 1 < n
  | .star, .repeat0, n => !(1 < n)
  | .separatedPlus, .repeat1, n => 1 < n
  | .plus, .repeat1, n => !(1 < n)
  | .option, .option, _ => true
  | _, _, _ => false

theorem Simplify.Sugar.isAt_eq (τ : Sugar) (g : Grammar) (i : NodeId) :
    τ.isAt g i = τ.isOf (g.kind i) (g.children i).length := by
  cases τ <;> cases h : g.kind i <;> simp [Sugar.isAt, Sugar.isOf, h]

namespace Edit

open Layout Simplify

/-- What takes the place of a construct `t` is built of new nodes, whose addresses are not among `old`, and of
children of `t`. The flag tells whether it is an option in place of a repetition. -/
inductive InPlace (old : List NodeId) (t : Layout) : Bool → Layout → Prop
  | reference {j : NodeId} {l : Label} (hj : j ∉ old) (hl : l.kind.isNonterminal = true) :
    InPlace old t false (node j l [])
  | child {u : Layout} (hu : u ∈ t.children) (hk : u.kind.isNonterminal = true) (hc : u.children = []) :
    InPlace old t false u
  | star {o p : NodeId} {x : Layout} (hk : t.kind = .repeat0) (hx : t.children = [x]) (ho : o ∉ old) (hp : p ∉ old) :
    InPlace old t true (plain .option o [plain .repeat1 p [x]])

/-- The grammar after an exchange in a trail, in which no node is lost. -/
def Exchanged (b : Grammar) (z : List Frame) (t : Layout) (F : List Layout) (asOption : Bool)
    (g : Grammar) : Prop :=
  ∃ u rs m J, Exchange b.madeUp t u rs m ∧ InPlace (idsAll (fill z t :: F)) t asOption u ∧
    t.ids ⊆ u.ids ++ idsAll (rs ++ J) ∧
    Laid { b with madeUp := m, waiting := b.waiting ++ rs.map Layout.id } (fill z u :: (rs ++ (J ++ F))) g

variable {b g : Grammar} {F : List Layout} {z : List Frame} {f : Frame} {t x s v : Layout} {i j : NodeId}
  {l k : Label} {ts : List Layout}

/-- A reference to a new rule takes the place of a construct, whose remains are `v`. -/
theorem does_referTo_exchanged {X : String} {r a : NodeId} {o : Bool} {v body : Layout} {J : List Layout}
    (h : Laid { b with madeUp := b.madeUp + 1 } (fill (f :: z) v :: node r (hiddenLabel X o []) [body] ::
      (J ++ F)) g) (hid : v.id = t.id) (hX : Numbered X (b.madeUp + 1)) (hu : Unfolds X t body)
    (hk : t.kind ≠ .alts) (hold : t.ids ⊆ v.ids ++ body.ids ++ idsAll J) :
    Does (referTo ⟨r, a, X⟩ t.id) g fun _ => Exchanged b (f :: z) t F false := by
  rw [← hid]
  refine (does_referTo h).mono fun _ g' ⟨j, hj, h⟩ => ?_
  refine ⟨node j (referenceLabel X o) [], [node r (hiddenLabel X o []) [body]], b.madeUp + 1, v :: J,
    .unfold hX hu (by rw [if_neg hk]), .reference ?_ rfl, ?_, h⟩
  rotate_left
  · intro y hy
    have := hold hy
    simp only [List.mem_append, ids_node, idsAll_cons, idsAll_nil, idsAll_append, List.mem_cons] at this ⊢
    tauto
  intro hmem
  refine hj ?_
  rw [idsAll_cons, List.mem_append, mem_ids_fill] at hmem
  rw [idsAll_cons, idsAll_cons, idsAll_append, ids_node, idsAll_cons, idsAll_nil]
  simp only [List.mem_append, List.mem_cons, mem_ids_fill]
  rcases hmem with (hmem | hmem) | hmem
  · have := hold hmem
    simp only [List.mem_append] at this
    tauto
  · tauto
  · tauto

theorem does_star_alternate (h : Laid b (fill (f :: z) (node i l [x]) :: F) g) (hl : l.kind = .repeat0) :
    Does (star .alternate i) g fun _ => Exchanged b (f :: z) (node i l [x]) F false := by
  refine (does_newRule h i (by decide)).bind fun ⟨r, a, X⟩ g₁ ⟨h, hX⟩ => ?_
  refine (does_takeApart (h.bring 1)).bind fun c g₂ ⟨hc, h⟩ => ?_
  subst hc
  refine (does_addAlt (z := [⟨r, _, [], []⟩]) (U := []) (h.bring 2)).bind fun _ g₃ ⟨c, h⟩ => ?_
  refine (does_newNode h _).bind fun q g₄ ⟨h, _⟩ => ?_
  refine (does_addAlt (z := [⟨r, _, [], []⟩]) (U := [x, node q _ []]) ((h.bring 3).bring 2)).bind
    fun _ g₅ ⟨d, h⟩ => ?_
  refine does_referTo_exchanged (t := node i l [x]) (v := node i l []) (J := []) (h.bring 1) rfl hX (.star hl)
    (by simp [hl]) ?_
  exact fun y hy => by simp [plain] at hy ⊢; tauto

theorem does_star_spec (h : Laid b (fill (f :: z) (node i l [x]) :: F) g) (hl : l.kind = .repeat0) :
    Does (star .spec i) g fun _ => Exchanged b (f :: z) (node i l [x]) F true := by
  refine (does_takeApart h).bind fun c g₁ ⟨hc, h⟩ => ?_
  subst hc
  refine (does_newNode h _).bind fun p g₂ ⟨h, hp⟩ => ?_
  refine (does_append (z := []) ((h.bring 2).bring 1)).bind fun _ g₃ h => ?_
  refine (does_newNode h _).bind fun o g₄ ⟨h, ho⟩ => ?_
  refine (does_append (z := []) h).bind fun _ g₅ h => ?_
  refine (does_replace (t := node i l []) (u := plain .option o [plain .repeat1 p [x]]) (h.bring 1)).mono
    fun _ g₆ h => ?_
  refine ⟨_, [], b.madeUp, [node i l []], .rewrite (.star hl), .star hl rfl ?_ ?_, ?_,
    ⟨h.lays, by simpa using h.bare⟩⟩
  · simp [mem_ids_fill] at ho ⊢
    tauto
  · simp [mem_ids_fill] at hp ⊢
    tauto
  · intro y hy
    simp [plain] at hy ⊢
    tauto

theorem does_plus (h : Laid b (fill (f :: z) (node i l [x]) :: F) g) (hl : l.kind = .repeat1) :
    Does (plus i) g fun _ => Exchanged b (f :: z) (node i l [x]) F false := by
  refine (does_newRule h i (by decide)).bind fun ⟨r, a, X⟩ g₁ ⟨h, hX⟩ => ?_
  refine (does_takeApart (h.bring 1)).bind fun c g₂ ⟨hc, h⟩ => ?_
  subst hc
  refine (does_copy (z := []) (t := x) h (by simp)).bind fun y g₃ ⟨x', he, hy, _, h⟩ => ?_
  subst hy
  refine (does_addAlt (z := [⟨r, _, [], []⟩]) (U := [x]) ((h.bring 2).bring 3)).bind fun _ g₄ ⟨c, h⟩ => ?_
  refine (does_newNode h _).bind fun q g₅ ⟨h, _⟩ => ?_
  refine (does_addAlt (z := [⟨r, _, [], []⟩]) (U := [x', node q _ []]) ((h.bring 2).bring 2)).bind
    fun _ g₆ ⟨d, h⟩ => ?_
  refine does_referTo_exchanged (t := node i l [x]) (v := node i l []) (J := []) (h.bring 1) rfl hX
    (.plus hl he) (by simp [hl]) ?_
  exact fun y hy => by simp [plain] at hy ⊢; tauto

theorem does_separatedStar_spec (h : Laid b (fill (f :: z) (node i l [x, s]) :: F) g)
    (hl : l.kind = .repeat0) :
    Does (separatedStar .spec i) g fun _ => Exchanged b (f :: z) (node i l [x, s]) F false := by
  refine (does_newRule h i (by decide)).bind fun ⟨r, a, X⟩ g₁ ⟨h, hX⟩ => ?_
  refine (does_takeApart (h.bring 1)).bind fun c g₂ ⟨hc, h⟩ => ?_
  subst hc
  refine (does_newNode h _).bind fun p g₃ ⟨h, _⟩ => ?_
  refine (does_append (z := []) ((h.bring 3).bring 1)).bind fun _ g₄ h => ?_
  refine (does_append (z := []) ((h.bring 2).bring 1)).bind fun _ g₅ h => ?_
  refine (does_newNode h _).bind fun o g₆ ⟨h, _⟩ => ?_
  refine (does_append (z := []) h).bind fun _ g₇ h => ?_
  refine (does_addAlt (z := [⟨r, _, [], []⟩]) (U := [plain .option o [plain .repeat1 p [x, s]]])
    (h.bring 2)).bind fun _ g₈ ⟨c, h⟩ => ?_
  refine does_referTo_exchanged (t := node i l [x, s]) (v := node i l []) (J := []) (h.bring 1) rfl hX
    (.starSepOption hl) (by simp [hl]) ?_
  exact fun y hy => by simp [plain] at hy ⊢; tauto

theorem does_separatedStar_alternate (h : Laid b (fill (f :: z) (node i l [x, s]) :: F) g)
    (hl : l.kind = .repeat0) :
    Does (separatedStar .alternate i) g fun _ => Exchanged b (f :: z) (node i l [x, s]) F false := by
  refine (does_newRule h i (by decide)).bind fun ⟨r, a, X⟩ g₁ ⟨h, hX⟩ => ?_
  refine (does_takeApart (h.bring 1)).bind fun c g₂ ⟨hc, h⟩ => ?_
  subst hc
  refine (does_newNode h _).bind fun p g₃ ⟨h, _⟩ => ?_
  refine (does_append (z := []) ((h.bring 3).bring 1)).bind fun _ g₄ h => ?_
  refine (does_append (z := []) ((h.bring 2).bring 1)).bind fun _ g₅ h => ?_
  refine (does_addAlt (z := [⟨r, _, [], []⟩]) (U := []) (h.bring 2)).bind fun _ g₆ ⟨c, h⟩ => ?_
  refine (does_addAlt (z := [⟨r, _, [], []⟩]) (U := [plain .repeat1 p [x, s]]) h).bind
    fun _ g₇ ⟨d, h⟩ => ?_
  refine does_referTo_exchanged (t := node i l [x, s]) (v := node i l []) (J := []) (h.bring 1) rfl hX
    (.starSepEmpty hl) (by simp [hl]) ?_
  exact fun y hy => by simp [plain] at hy ⊢; tauto

theorem does_separatedPlus_spec (h : Laid b (fill (f :: z) (node i l [x, node j k [s]]) :: F) g)
    (hl : l.kind = .repeat1) (hk : k.kind = .sep) :
    Does (separatedPlus .spec i) g fun _ => Exchanged b (f :: z) (node i l [x, node j k [s]]) F false := by
  refine (does_newRule h i (by decide)).bind fun ⟨r, a, X⟩ g₁ ⟨h, hX⟩ => ?_
  refine (does_takeApart (h.bring 1)).bind fun c g₂ ⟨hc, h⟩ => ?_
  subst hc
  have hs : separatorOf? g₂ (some j) = some s.id := by
    have := h.kids_eq (z := []) (i := j) (l := k) (c := [s]) (by simp)
    simp [separatorOf?, this]
  refine .get ?_
  simp only [List.map_cons, List.head?_cons, id_node, hs]
  refine (does_copy (z := []) (t := x) h (by simp)).bind fun y g₃ ⟨x', he, hy, _, h⟩ => ?_
  subst hy
  refine (does_newNode h _).bind fun c g₄ ⟨h, _⟩ => ?_
  refine (does_detach (f := ⟨j, k, [], []⟩) (z := []) (h.bring 3)).bind fun _ g₅ h => ?_
  refine (does_addAlt (z := []) (U := [s, x']) (((h.bring 3).bring 1).bring 3)).bind fun _ g₆ ⟨d, h⟩ => ?_
  refine (does_newNode h _).bind fun q g₇ ⟨h, _⟩ => ?_
  refine (does_append (z := []) h).bind fun _ g₈ h => ?_
  refine (does_addAlt (z := [⟨r, _, [], []⟩])
    (U := [x, plain .repeat0 q [plain .alts c [plain .alt d [s, x']]]]) ((h.bring 3).bring 4)).bind
    fun _ g₉ ⟨e, h⟩ => ?_
  refine does_referTo_exchanged (t := node i l [x, node j k [s]]) (v := node i l []) (J := [node j k []])
    (h.bring 2) rfl hX (.plusSepStar hl hk he) (by simp [hl]) ?_
  exact fun y hy => by simp [plain] at hy ⊢; tauto

theorem does_separatedPlus_alternate (h : Laid b (fill (f :: z) (node i l [x, node j k [s]]) :: F) g)
    (hl : l.kind = .repeat1) (hk : k.kind = .sep) :
    Does (separatedPlus .alternate i) g fun _ =>
      Exchanged b (f :: z) (node i l [x, node j k [s]]) F false := by
  refine (does_newRule h i (by decide)).bind fun ⟨r, a, X⟩ g₁ ⟨h, hX⟩ => ?_
  refine (does_takeApart (h.bring 1)).bind fun c g₂ ⟨hc, h⟩ => ?_
  subst hc
  have hs : separatorOf? g₂ (some j) = some s.id := by
    have := h.kids_eq (z := []) (i := j) (l := k) (c := [s]) (by simp)
    simp [separatorOf?, this]
  refine .get ?_
  simp only [List.map_cons, List.head?_cons, id_node, hs]
  refine (does_copy (z := []) (t := x) h (by simp)).bind fun y g₃ ⟨x', he, hy, _, h⟩ => ?_
  subst hy
  refine (does_addAlt (z := [⟨r, _, [], []⟩]) (U := [x]) ((h.bring 3).bring 4)).bind fun _ g₄ ⟨c, h⟩ => ?_
  refine (does_detach (f := ⟨j, k, [], []⟩) (z := []) (h.bring 3)).bind fun _ g₅ h => ?_
  refine (does_newNode h _).bind fun q g₆ ⟨h, _⟩ => ?_
  refine (does_addAlt (z := [⟨r, _, [], []⟩]) (U := [x', s, node q _ []])
    (((h.bring 1).bring 4).bring 4)).bind fun _ g₇ ⟨d, h⟩ => ?_
  refine does_referTo_exchanged (t := node i l [x, node j k [s]]) (v := node i l []) (J := [node j k []])
    (h.bring 2) rfl hX (.plusSepSelf hl hk he) (by simp [hl]) ?_
  exact fun y hy => by simp [plain] at hy ⊢; tauto

theorem does_option_empty (h : Laid b (fill (f :: z) (node i l [node j k []]) :: F) g) (hl : l.kind = .option)
    (hk : k.kind.isNonterminal = true) (hn : k.nameText = emptyRule) :
    Does (option i) g fun _ => Exchanged b (f :: z) (node i l [node j k []]) F false := by
  have hc := h.kids_eq (z := f :: z) (i := i) (List.mem_cons_self ..)
  have hj := h.toLabel_eq (z := ⟨i, l, [], []⟩ :: f :: z) (i := j) (l := k) (c := [])
    (List.mem_cons_self ..)
  refine .get ?_
  simp only [hc, List.map_cons, List.map_nil, id_node]
  have he : isEmptyReference g j = true := by
    simp [isEmptyReference, Grammar.kind, Grammar.nameText, hj, hk, hn]
  rw [if_pos he]
  refine (does_detach (f := ⟨i, l, [], []⟩) (z := f :: z) h).bind fun _ g₁ h => ?_
  refine (does_replace (t := node i l []) (u := node j k []) (h.bring 1)).mono fun _ g₂ h => ?_
  exact ⟨_, [], b.madeUp, [node i l []], .rewrite (.option hl hk hn), .child (by simp) hk rfl,
    fun y hy => by simpa [or_comm] using hy, ⟨h.lays, by simpa using h.bare⟩⟩

theorem does_option (h : Laid b (fill (f :: z) (node i l [x]) :: F) g) (hl : l.kind = .option)
    (hx : ¬(x.kind.isNonterminal = true ∧ x.label.nameText = emptyRule)) :
    Does (option i) g fun _ => Exchanged b (f :: z) (node i l [x]) F false := by
  have hc := h.kids_eq (z := f :: z) (i := i) (List.mem_cons_self ..)
  have hj : (g.node x.id).toLabel = x.label := by
    obtain ⟨j, k, us⟩ := x
    exact h.toLabel_eq (z := ⟨i, l, [], []⟩ :: f :: z) (i := j) (l := k) (c := us) (List.mem_cons_self ..)
  refine .get ?_
  simp only [hc, List.map_cons, List.map_nil]
  have he : ¬isEmptyReference g x.id = true := by
    simpa [isEmptyReference, Grammar.kind, Grammar.nameText, hj, Layout.kind] using hx
  rw [if_neg he]
  refine (does_newRule h i (by decide)).bind fun p g₁ hp => ?_
  obtain ⟨r, a, X⟩ := p
  obtain ⟨h, hX⟩ := hp
  refine Does.bind (Q := fun _ g' => Laid { b with madeUp := b.madeUp + 1 }
    (node r (hiddenLabel X true []) [plain .alts a []] :: fill (f :: z) (node i l [x]) :: F) g')
    ⟨h.lays.modify_label (z := []) fun l => { l with isOptional := true }, h.bare⟩ fun _ g₂ h => ?_
  refine (does_detach (f := ⟨i, l, [], []⟩) (z := f :: z) (h.bring 1)).bind fun _ g₃ h => ?_
  refine (does_addAlt (z := [⟨r, _, [], []⟩]) (U := []) (h.bring 2)).bind fun _ g₄ h => ?_
  obtain ⟨c, h⟩ := h
  refine (does_addAlt (z := [⟨r, _, [], []⟩]) (U := [x]) h).bind fun _ g₅ h => ?_
  obtain ⟨d, h⟩ := h
  refine does_referTo_exchanged (t := node i l [x]) (v := node i l []) (J := []) (h.bring 1) rfl hX
    (.option hl) (by simp [hl]) ?_
  exact fun y hy => by simp [plain] at hy ⊢; tauto

/-- What a construct of a sort looks like. -/
def Looks (k : Construct) (ts : List Layout) : Sugar → Prop
  | .separatedStar => k = .repeat0 ∧ ∃ x s, ts = [x, s]
  | .separatedPlus => k = .repeat1 ∧ ∃ x s, ts = [x, s] ∧ s.kind = .sep
  | .star => k = .repeat0 ∧ ∃ x, ts = [x]
  | .plus => k = .repeat1 ∧ ∃ x, ts = [x]
  | .option => k = .option ∧ ∃ x, ts = [x]

theorem looks_of_isOf {τ : Sugar} {k : Construct} (hfit : k.fits (ts.map Layout.kind) = true)
    (hτ : τ.isOf k ts.length = true) : Looks k ts τ := by
  cases τ <;> cases k <;> simp only [Sugar.isOf, Bool.false_eq_true] at hτ <;> refine ⟨rfl, ?_⟩ <;>
    rcases ts with _ | ⟨x, _ | ⟨s, _ | ⟨y, ts⟩⟩⟩ <;> simp_all [Construct.fits]

/-- Giving up a construct makes one exchange in its place. -/
theorem does_giveUp (h : Laid b (fill (f :: z) t :: F) g) {m : Nat} (ht : t.Every (Proper m)) {τ : Sugar}
    (hτ : τ.isOf t.kind t.children.length = true) (strategy : Strategy) :
    Does (giveUp strategy τ t.id) g fun _ =>
      Exchanged b (f :: z) t F (strategy == .spec && τ == .star) := by
  obtain ⟨i, l, ts⟩ := t
  obtain ⟨⟨hfit, -, -⟩, hts⟩ := every_node.mp ht
  have hsort := looks_of_isOf hfit hτ
  cases τ with
  | separatedStar =>
    obtain ⟨hl, x, s, rfl⟩ := hsort
    cases strategy with
    | spec => exact does_separatedStar_spec h hl
    | alternate => exact does_separatedStar_alternate h hl
  | separatedPlus =>
    obtain ⟨hl, x, ⟨j, k, us⟩, rfl, hk⟩ := hsort
    obtain ⟨⟨hsfit, -, -⟩, -⟩ := every_node.mp (hts (node j k us) (by simp))
    rw [show k.kind = .sep from hk] at hsfit
    obtain ⟨c, hc, -⟩ := Construct.fits_sep hsfit
    obtain ⟨s, rfl, -⟩ := List.map_eq_singleton_iff.mp hc
    cases strategy with
    | spec => exact does_separatedPlus_spec h hl hk
    | alternate => exact does_separatedPlus_alternate h hl hk
  | star =>
    obtain ⟨hl, x, rfl⟩ := hsort
    cases strategy with
    | spec => exact does_star_spec h hl
    | alternate => exact does_star_alternate h hl
  | plus =>
    obtain ⟨hl, x, rfl⟩ := hsort
    cases strategy <;> exact does_plus h hl
  | option =>
    obtain ⟨hl, ⟨j, k, us⟩, rfl⟩ := hsort
    suffices Does (option i) g fun _ => Exchanged b (f :: z) (node i l [node j k us]) F false by
      cases strategy <;> exact this
    by_cases he : k.kind.isNonterminal = true ∧ k.nameText = emptyRule
    · obtain ⟨⟨hfit', -, -⟩, -⟩ := every_node.mp (hts (node j k us) (by simp))
      have hus : us = [] := by
        cases hk : k.kind <;> simp_all [Construct.isNonterminal]
        cases us <;> simp_all [Construct.fits]
      subst hus
      exact does_option_empty h hl he.1 he.2
    · exact does_option h hl he

end Edit

end Ixml
