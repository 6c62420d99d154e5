import Ixml.Proofs.Simplify.Round

/-!
# Groups as rules

Every group that stands in an alternative becomes a rule, also where an outer group that has become one takes
it along. The groups that remain to be hoisted are at any time exactly those that stand in an alternative
(`perm_inner`), so that in the end there are none (`does_hoistAll`).
-/

namespace Ixml

open Layout

namespace Layout

/-- The addresses of all nodes that are children. -/
def kidIds (ts : List Layout) : List NodeId :=
  (spotsAll none ts).flatMap fun s => s.kids.map (·.1)

theorem kidIds_eq {q : Option NodeId} (ts : List Layout) :
    (spotsAll q ts).flatMap (fun s => s.kids.map (·.1)) = kidIds ts := by
  have h (t : Layout) : (spots q t).flatMap (fun s => s.kids.map (·.1)) =
      (spots none t).flatMap fun s => s.kids.map (·.1) := by
    simp [spots_eq, top]
  induction ts with
  | nil => rfl
  | cons t ts ih =>
    rw [kidIds, spotsAll_cons, spotsAll_cons, List.flatMap_append, List.flatMap_append, h, ih]
    rfl

/-- Every node is either a top or a child. -/
theorem idsAll_perm_kidIds : ∀ ts : List Layout, (idsAll ts).Perm (ts.map Layout.id ++ kidIds ts)
  | [] => .refl _
  | node i l us :: ts => by
    have hus := idsAll_perm_kidIds us
    have hts := idsAll_perm_kidIds ts
    have hk : kidIds (node i l us :: ts) = us.map Layout.id ++ kidIds us ++ kidIds ts := by
      rw [kidIds, spotsAll_cons, spots_node, List.flatMap_append, List.flatMap_cons, kidIds_eq, kidIds_eq]
      simp [head, Function.comp_def]
    rw [hk, idsAll_cons, ids_node]
    refine ((hus.cons i).append hts).trans ?_
    classical
    rw [List.perm_iff_count]
    intro j
    simp only [List.map_cons, id_node, List.count_append, List.count_cons]
    omega

end Layout

namespace Simplify

open Edit

/-- The groups among the children of an alternative. -/
def innerOf (s : Spot) : List NodeId :=
  if s.label.kind = .alt then (s.kids.filter fun c => c.2.kind = .alts).map (·.1) else []

/-- The groups that stand in an alternative. -/
def inner (ts : List Layout) : List NodeId :=
  (spotsAll none ts).flatMap innerOf

variable {rootLabel : Label} {b g : Grammar} {F J W A B ts : List Layout} {t u v : Layout} {i j r : NodeId}
  {m : Nat} {f : Frame} {z : List Frame} {l : Label} {X : String}

theorem inner_sublist (ts : List Layout) : (inner ts).Sublist (kidIds ts) := by
  rw [inner, kidIds]
  induction spotsAll none ts with
  | nil => exact .refl _
  | cons s ss ih =>
    rw [List.flatMap_cons, List.flatMap_cons]
    refine List.Sublist.append ?_ ih
    rw [innerOf]
    split
    · exact List.filter_sublist.map _
    · exact List.nil_sublist _

theorem nodup_inner (h : (idsAll ts).Nodup) : (inner ts).Nodup :=
  ((idsAll_perm_kidIds ts).nodup_iff.mp h).of_append_right.sublist (inner_sublist ts)

theorem flatMap_innerOf_spots {p q : Option NodeId} (t : Layout) :
    (spots p t).flatMap innerOf = (spots q t).flatMap innerOf := by
  simp [spots_eq, top, innerOf]

theorem mem_inner {q : Option NodeId} : i ∈ inner ts ↔ ∃ s ∈ spotsAll q ts, i ∈ innerOf s := by
  rw [inner, List.mem_flatMap]
  constructor
  all_goals
    rintro ⟨s, hs, hi⟩
    obtain ⟨t, ht, hs⟩ := mem_spotsAll.mp hs
    obtain ⟨s', hs', -, hl, hk⟩ := exists_mem_spots _ hs
    exact ⟨s', mem_spotsAll.mpr ⟨t, ht, hs'⟩, by rwa [innerOf, hl, hk]⟩

theorem mem_innerOf {s : Spot} :
    i ∈ innerOf s ↔ s.label.kind = .alt ∧ ∃ l, (i, l) ∈ s.kids ∧ l.kind = .alts := by
  rw [innerOf]
  split <;> simp_all

/-- Hoisting a group out of an alternative takes it away from the groups that remain. -/
theorem perm_inner (A B : List Layout) (z : List Frame) (i j r : NodeId) (l : Label) (ts : List Layout)
    (X : String) (hf : f.label.kind = .alt) (hl : l.kind = .alts) :
    (inner (A ++ fill (f :: z) (node i l ts) :: B)).Perm
      (i :: inner (A ++ fill (f :: z) (node j (referenceLabel X false) []) :: B ++
        [node r (hiddenLabel X false l.pragmas) [node i { l with pragmas := [] } ts]])) := by
  have hfill (t : Layout) : (inner [fill (f :: z) t]).Perm ((spots none t).flatMap innerOf ++
      (innerOf (f.spot (parentOf z) t.head) ++ ((spotsAll (some f.id) f.before ++
        spotsAll (some f.id) f.after) ++ trailSpots z (f.id, f.label)).flatMap innerOf)) := by
    rw [inner, spotsAll_cons, spotsAll_nil, List.append_nil]
    refine ((spots_fill_perm (f :: z) t).flatMap_right _).trans ?_
    rw [List.flatMap_append, flatMap_innerOf_spots (q := none), trailSpots, List.cons_append, List.flatMap_cons]
  have happ (ts us : List Layout) : inner (ts ++ us) = inner ts ++ inner us := by
    simp [inner]
  have hold := hfill (node i l ts)
  have hnew := hfill (node j (referenceLabel X false) [])
  have hframe : (innerOf (f.spot (parentOf z) (node i l ts).head)).Perm
      (i :: innerOf (f.spot (parentOf z) (node j (referenceLabel X false) []).head)) := by
    simp only [innerOf, Frame.spot, hf, ↓reduceIte, head_node, List.filter_append, List.map_append]
    rw [List.filter_cons_of_pos (by simpa using hl), List.filter_cons_of_neg (by simp [referenceLabel])]
    exact List.perm_middle
  have hgroup : (spots none (node i l ts)).flatMap innerOf =
      inner [node r (hiddenLabel X false l.pragmas) [node i { l with pragmas := [] } ts]] := by
    simp [inner, innerOf, hiddenLabel, hl]
  have href : (spots none (node j (referenceLabel X false) [])).flatMap innerOf = [] := by
    simp [innerOf, referenceLabel]
  rw [← List.singleton_append (l := B), ← List.singleton_append (l := B), ← List.append_assoc A,
    ← List.append_assoc A, happ, happ, happ, happ, happ, ← hgroup]
  rw [href] at hnew
  classical
  rw [List.perm_iff_count] at hold hnew hframe ⊢
  intro y
  have h1 := hold y
  have h2 := hnew y
  have h3 := hframe y
  simp only [List.count_append, List.count_cons, List.count_nil] at h1 h2 h3 ⊢
  omega

theorem does_hoist (h : Laid b (fill (f :: z) (node i l ts) :: F) g) :
    Does (hoist i) g fun _ g' => ∃ X r j, Numbered X (b.madeUp + 1) ∧
      j ∉ idsAll (fill (f :: z) (node i l ts) :: F) ∧
      Laid { b with madeUp := b.madeUp + 1, waiting := b.waiting ++ [r] }
        (fill (f :: z) (node j (referenceLabel X false) []) ::
          node r (hiddenLabel X false l.pragmas) [node i { l with pragmas := [] } ts] :: F) g' := by
  have hold : idsAll (fill (f :: z) (node i { l with pragmas := [] } ts) :: F) ⊆
      idsAll (fill (f :: z) (node i l ts) :: F) := fun y hy => by
    simpa [mem_ids_fill] using hy
  refine (does_newName h i (by decide)).bind fun X g₁ ⟨h, hX⟩ => ?_
  refine (does_newNode h _).bind fun r g₂ ⟨h, _⟩ => .get ?_
  have hps : (g₂.node i).pragmas = l.pragmas :=
    congrArg Label.pragmas (h.toLabel_eq (z := f :: z) (i := i) (l := l) (c := ts) (by simp))
  simp only [hps]
  have h₁ := (h.bring 1).lays.modify_label fun l => { l with pragmas := [] }
  have h₂ := h₁.swap.modify_label (z := []) fun k => { k with pragmas := l.pragmas }
  refine Does.bind (Q := fun _ g' => Laid { b with madeUp := b.madeUp + 1 }
    (node r (hiddenLabel X false l.pragmas) [] :: fill (f :: z) (node i { l with pragmas := [] } ts) :: F) g')
    ⟨h₂, h.bare⟩ fun _ g₃ h => ?_
  refine (does_newNode h _).bind fun j g₄ ⟨h, hj⟩ => ?_
  refine (does_replace (t := node i { l with pragmas := [] } ts) (u := node j (referenceLabel X false) [])
    (h.bring 2)).bind fun _ g₅ h => ?_
  refine (does_append (T := node i { l with pragmas := [] } ts) (z := []) ((h.bring 1).bring 2)).bind
    fun _ g₆ h => ?_
  refine (does_defer (h.bring 1) r).mono fun _ g₇ h => ⟨X, r, j, hX, fun hm => hj ?_, h⟩
  simp only [idsAll_cons, mem_ids_fill, ids_node, List.mem_append, List.mem_cons] at hm ⊢
  tauto

/-- A group that stands in an alternative, and the trail that leads to it. -/
theorem exists_trail_of_mem_inner {F : List Layout} (hi : i ∈ inner F) :
    ∃ v ∈ F, ∃ f z l ts, v = fill (f :: z) (node i l ts) ∧ f.label.kind = .alt ∧ l.kind = .alts := by
  obtain ⟨s, hs, hi⟩ := (mem_inner (q := none)).mp hi
  obtain ⟨v, hv, hs⟩ := mem_spotsAll.mp hs
  obtain ⟨z, ⟨p, k, us⟩, rfl, rfl⟩ := exists_fill_of_mem_spots [] hs
  obtain ⟨hk, l, hl, hla⟩ := mem_innerOf.mp hi
  obtain ⟨c, hc, hcl⟩ := List.mem_map.mp (show (i, l) ∈ us.map head from hl)
  obtain ⟨bs, as, rfl⟩ := List.append_of_mem hc
  obtain ⟨i', l', ts⟩ := c
  cases hcl
  exact ⟨_, hv, ⟨p, k, bs, as⟩, z, l', ts, rfl, hk, hla⟩

/-- Hoisting one group advances a round, and leaves one group less. -/
theorem does_hoist_next {R : List NodeId} (h : Holds rootLabel b J W g) (hS : Stock.Sound ⟨J ++ W, b.madeUp⟩)
    (hR : (inner (J ++ W)).Perm (i :: R)) :
    Does (hoist i) g fun _ g' => ∃ J' W' m', Holds rootLabel { b with madeUp := m' } J' W' g' ∧
      Advances false J W b.madeUp J' W' m' ∧ (inner (J' ++ W')).Perm R := by
  obtain ⟨junk, h⟩ := h
  obtain ⟨v, hv, f, z, l, ts, rfl, hf, hl⟩ := exists_trail_of_mem_inner (hR.mem_iff.mpr (List.mem_cons_self ..))
  have hrule : f.label.kind.isRule = false := by rw [hf]; rfl
  have hne {X : String} {n : Nat} (hX : Numbered X n) {P : Prop} :
      (node i l ts).kind = .alts → (node 0 (referenceLabel X false) []).label.nameText = emptyRule → P :=
    fun _ he => absurd he hX.ne_emptyRule
  have hex {X : String} (r j : NodeId) (hX : Numbered X (b.madeUp + 1)) :
      Exchange b.madeUp (node i l ts) (node j (referenceLabel X false) [])
        [node r (hiddenLabel X false l.pragmas) [node i { l with pragmas := [] } ts]] (b.madeUp + 1) :=
    .unfold hX (.group hl) (by simp [hl])
  -- the group is in a rule below the root, or in one that waits
  rcases List.mem_append.mp hv with hv | hv
  · obtain ⟨A, B, rfl⟩ := List.append_of_mem hv
    rw [main_eq, List.cons_append] at h
    refine (does_hoist h).mono fun _ g' ⟨X, r, j, hX, hj, h'⟩ => ?_
    refine ⟨A ++ fill (f :: z) (node j (referenceLabel X false) []) :: B,
      W ++ [node r (hiddenLabel X false l.pragmas) [node i { l with pragmas := [] } ts]], b.madeUp + 1,
      ⟨junk, ?_⟩, ?_, ?_⟩
    · rw [main_eq, List.map_append, List.cons_append]
      refine ⟨h'.lays.perm (List.Perm.cons _ ?_), h'.bare⟩
      simpa using List.perm_middle.symm
    · exact advances_joined (hex r j hX) (.reference hj rfl) (by simpa using hS) hrule (hne hX)
    · have hp := perm_inner A (B ++ W) z i j r l ts X hf hl
      simp only [List.append_assoc, List.cons_append] at hp hR ⊢
      exact (hp.symm.trans hR).cons_inv
  · obtain ⟨A, B, rfl⟩ := List.append_of_mem hv
    have hperm : (node Grammar.root rootLabel J :: (A ++ fill (f :: z) (node i l ts) :: B ++ junk)).Perm
        (fill (f :: z) (node i l ts) :: node Grammar.root rootLabel J :: (A ++ (B ++ junk))) := by
      simpa using (List.perm_middle.cons _).trans (.swap ..)
    have h : Laid _ (fill (f :: z) (node i l ts) :: node Grammar.root rootLabel J :: (A ++ (B ++ junk))) g :=
      ⟨h.lays.perm hperm, h.bare⟩
    refine (does_hoist h).mono fun _ g' ⟨X, r, j, hX, hj, h'⟩ => ?_
    refine ⟨J, A ++ fill (f :: z) (node j (referenceLabel X false) []) :: B ++
      [node r (hiddenLabel X false l.pragmas) [node i { l with pragmas := [] } ts]], b.madeUp + 1,
      ⟨junk, ?_, ?_⟩, ?_, ?_⟩
    · refine h'.lays.perm ?_
      classical
      rw [List.perm_iff_count]
      intro y
      simp only [List.count_cons, List.count_append, List.count_nil]
      omega
    · rw [h'.bare]
      simp [id_fill_cons f z (node j (referenceLabel X false) []) (node i l ts)]
    · exact advances_waiting (hex r j hX) hS hrule (hne hX)
    · have hp := perm_inner (J ++ A) B z i j r l ts X hf hl
      simp only [List.append_assoc, List.cons_append] at hp hR ⊢
      exact (hp.symm.trans hR).cons_inv

theorem does_hoists {R : List NodeId} (h : Holds rootLabel b J W g) (hS : Stock.Sound ⟨J ++ W, b.madeUp⟩)
    (hR : (inner (J ++ W)).Perm R) :
    Does (R.forM hoist) g fun _ g' => (R = [] → g' = g) ∧ ∃ J' W' m',
      Holds rootLabel { b with madeUp := m' } J' W' g' ∧ Advances false J W b.madeUp J' W' m' ∧
      inner (J' ++ W') = [] := by
  induction R generalizing g J W b with
  | nil => exact .pure ⟨fun _ => rfl, J, W, b.madeUp, h, .refl .., hR.eq_nil⟩
  | cons i R ih =>
    refine (does_hoist_next h hS hR).bind fun _ g₁ ⟨J₁, W₁, m₁, h₁, ha₁, hR₁⟩ => ?_
    refine (ih h₁ (sound_of_steps ha₁.steps hS) hR₁).mono fun _ g₂ ⟨_, J₂, W₂, m₂, h₂, ha₂, hR₂⟩ => ?_
    exact ⟨by simp, J₂, W₂, m₂, h₂, ha₁.trans ha₂, hR₂⟩

theorem mem_inner_fill {F : List Layout} (hv : fill (f :: z) t ∈ F) (hf : f.label.kind = .alt)
    (ht : t.kind = .alts) : t.id ∈ inner F := by
  refine (mem_inner (q := none)).mpr ⟨f.spot (parentOf z) t.head, mem_spotsAll.mpr ⟨_, hv, ?_⟩, ?_⟩
  · refine mem_spots_fill.mpr (Or.inr ?_)
    simp [trailSpots]
  · exact mem_innerOf.mpr ⟨hf, t.label, by simp [Frame.spot, head], ht⟩

/-- The groups that a walk finds are those that stand in an alternative. -/
theorem mem_belowRules_isInnerGroup (h : Holds rootLabel b J [] g) (hroot : rootLabel.kind ≠ .alt)
    (hS : Stock.Sound ⟨J, m⟩) : i ∈ belowRules g (isInnerGroup g) ↔ i ∈ inner J := by
  rw [h.mem_belowRules]
  constructor
  · rintro ⟨⟨t, ht, -, hi⟩, hp⟩
    obtain ⟨A, B, rfl⟩ := List.append_of_mem ht
    obtain ⟨z, u, rfl, rfl⟩ := exists_fill_of_mem_ids hi
    simp only [isInnerGroup, isAlts, parentIs, h.kind_fill, Bool.and_eq_true, beq_iff_eq] at hp
    rcases h.parent_cases with ⟨-, hpar⟩ | ⟨f, us, rfl, hpar, hkind⟩
    · rw [hpar, Option.any_some, isAlt, beq_iff_eq, h.kind_root] at hp
      exact absurd hp.2 hroot
    · rw [hpar, Option.any_some, isAlt, beq_iff_eq, hkind] at hp
      exact mem_inner_fill ht hp.2 hp.1
  · intro hi
    obtain ⟨v, hv, f, z, l, ts, rfl, hf, hl⟩ := exists_trail_of_mem_inner hi
    have hc : l.kind.isCompound = true := by rw [hl]; rfl
    have htop : Layout.top (parentOf (f :: z)) (node i l ts) ∈ spots none (fill (f :: z) (node i l ts)) :=
      mem_spots_fill.mpr (Or.inl (top_mem_spots _ _))
    refine ⟨⟨_, hv, isRule_of_mem_spots (hS.proper _ hv) (hS.top _ hv) htop hc, id_mem_of_mem_spots htop⟩, ?_⟩
    obtain ⟨A, B, rfl⟩ := List.append_of_mem hv
    have hkind := h.kind_fill
    rcases h.parent_cases with ⟨he, -⟩ | ⟨f', us, he, hpar, hfk⟩
    · cases he
    · obtain ⟨rfl, rfl⟩ := List.cons.inj he
      rw [id_node] at hkind hpar
      simp [isInnerGroup, isAlts, isAlt, parentIs, hkind, hpar, hfk, hf, hl]

theorem perm_belowRules_isInnerGroup (h : Holds rootLabel b J [] g) (hroot : rootLabel.kind ≠ .alt)
    (hS : Stock.Sound ⟨J, m⟩) : (inner (J ++ [])).Perm (belowRules g (isInnerGroup g)) := by
  have hnodup : (inner J).Nodup := by
    obtain ⟨junk, h⟩ := h
    have hn := h.lays.nodup
    rw [idsAll_cons, ids_node, List.cons_append, List.nodup_cons] at hn
    exact nodup_inner hn.2.of_append_left
  rw [List.append_nil]
  exact (List.perm_ext_iff_of_nodup hnodup (h.nodup_belowRules _)).mpr fun i =>
    (mem_belowRules_isInnerGroup h hroot hS).symm

theorem does_hoistAll (h : Holds rootLabel b J [] g) (hroot : rootLabel.kind ≠ .alt)
    (hS : Stock.Sound ⟨J, b.madeUp⟩) (hstart : b.start.isSome = true) :
    Does hoistAll g fun c g' => (c = false → g' = g) ∧ ∃ J' W' m',
      Holds rootLabel { b with madeUp := m' } (J' ++ W') [] g' ∧ Advances false J [] b.madeUp J' W' m' ∧
      inner (J' ++ W') = [] := by
  refine .get ?_
  refine (does_hoists h (by simpa using hS) (perm_belowRules_isInnerGroup h hroot hS)).bind
    fun _ g₁ ⟨hc, J₁, W₁, m₁, h₁, ha, hi⟩ => ?_
  refine Does.bind (Q := fun _ g' => g' = g₁.joinWaiting) rfl fun _ g₂ hg₂ => .pure ?_
  subst hg₂
  refine ⟨fun hcf => ?_, J₁, W₁, m₁, holds_joinWaiting h₁ hstart, ha, hi⟩
  rw [hc (by simpa using hcf), h.joinWaiting_eq]

end Simplify

end Ixml
