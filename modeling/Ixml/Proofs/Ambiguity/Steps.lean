import Ixml.Proofs.Ambiguity.Counting
import Ixml.Proofs.Language.Steps

/-!
# Steps add no ways

Tallies that are bounded by the rules before a step are so after it, if the name of a new rule has the tally of the
construct that it stands for (`Step.exists_bounded`). So in any number of steps the names that are not made up keep
their tallies, as bounds of what the rules have by then (`exists_bounded_of_steps`). The bounds need not be reached:
an option of what matches nothing has two ways, and what takes its place has one.
-/

namespace Ixml.Simplify

open Layout Tally
open scoped Computability

/-- The rules of each name have no more ways together than the name has. -/
def Stock.Bounded (S : Stock) (ρ : String → Tally Char) : Prop :=
  Tree.Bounded (S.tops.map erase) ρ

variable {ρ : String → Tally Char} {S S' : Stock} {X n : String} {m : Nat} {i : NodeId} {l : Label}
  {k : Construct} {t u b : Layout} {ts us T : List Layout} {z : List Frame} {f : Frame}

/-! ### Constructs -/

theorem tally_erase (hl : l.kind = k) (hk : k.isFlat = false) :
    (node i l ts).erase.tally ρ = k.tally (ts.map fun t => t.erase.tally ρ) := by
  subst hl
  rw [erase_node, Tree.tally_of_not_isFlat hk, List.map_map]
  rfl

theorem tally_alts : (plain .alts i ts).erase.tally ρ = (ts.map fun t => t.erase.tally ρ).sum :=
  tally_erase rfl rfl

theorem tally_alt : (plain .alt i ts).erase.tally ρ = (ts.map fun t => t.erase.tally ρ).prod :=
  tally_erase rfl rfl

theorem tally_repeat1 {f s : Layout} : (plain .repeat1 i [f, s]).erase.tally ρ =
    f.erase.tally ρ * (s.erase.tally ρ * f.erase.tally ρ)∗ := by
  rw [plain, tally_erase rfl rfl]
  simp [Construct.tally, Construct.firstRound, Construct.nextRound]

theorem tally_repeat0_single : (plain .repeat0 i [t]).erase.tally ρ = (t.erase.tally ρ)∗ := by
  rw [plain, tally_erase rfl rfl]
  simp [Construct.tally, Construct.firstRound, Construct.nextRound, Tally.one_add_mul_kstar]

theorem tally_repeat1_single : (plain .repeat1 i [t]).erase.tally ρ = t.erase.tally ρ * (t.erase.tally ρ)∗ := by
  rw [plain, tally_erase rfl rfl]
  simp [Construct.tally, Construct.firstRound, Construct.nextRound]

theorem tally_option : (plain .option i [t]).erase.tally ρ = 1 + t.erase.tally ρ := by
  rw [plain, tally_erase rfl rfl]
  simp [Construct.tally]

theorem tally_rule (hl : l.kind.isRule = true) : (node i l [t]).erase.tally ρ = t.erase.tally ρ := by
  cases hk : l.kind <;> simp [hk, Construct.isRule] at hl
  rw [tally_erase hk rfl]
  simp [Construct.tally]

theorem tally_reference (o : Bool) : (node i (referenceLabel X o) []).erase.tally ρ = ρ X := by
  rw [erase_node, Tree.tally_of_nonterminal rfl]
  rfl

/-- The body of a new rule has the ways of the construct, or those to begin the repetition, with the name for the
rest. -/
theorem Unfolds.tally_cases (h : Unfolds X t b) : b.erase.tally ρ = t.erase.tally ρ ∨
    (∃ F, t.erase.tally ρ = F∗ ∧ b.erase.tally ρ = 1 + F * ρ X) ∨
    ∃ F S, t.erase.tally ρ = F * (S * F)∗ ∧ b.erase.tally ρ = F + F * (S * ρ X) := by
  cases h with
  | starSepOption hl =>
    rw [tally_erase hl rfl]
    exact .inl (by simp [-erase_plain, tally_alts, tally_alt, tally_option, tally_repeat1, Construct.tally,
      Construct.firstRound, Construct.nextRound])
  | starSepEmpty hl =>
    rw [tally_erase hl rfl]
    exact .inl (by simp [-erase_plain, tally_alts, tally_alt, tally_repeat1, Construct.tally, Construct.firstRound,
      Construct.nextRound])
  | plusSepStar hl hk he =>
    rw [tally_erase hl rfl, List.map_cons, List.map_singleton, tally_erase hk rfl]
    exact .inl (by simp [-erase_plain, tally_alts, tally_alt, tally_repeat0_single, he, Construct.tally,
      Construct.firstRound, Construct.nextRound])
  | @plusSepSelf i j a b c r l k f f' s hl hk he =>
    rw [tally_erase hl rfl, List.map_cons, List.map_singleton, tally_erase hk rfl]
    refine .inr (.inr ⟨f.erase.tally ρ, s.erase.tally ρ, ?_, ?_⟩)
    · simp [Construct.tally, Construct.firstRound, Construct.nextRound]
    · simp [-erase_plain, -erase_node, tally_alts, tally_alt, tally_reference, he]
  | @star i a b c r l f hl =>
    rw [tally_erase hl rfl]
    refine .inr (.inl ⟨f.erase.tally ρ, ?_, ?_⟩)
    · simp [Construct.tally, Construct.firstRound, Construct.nextRound, Tally.one_add_mul_kstar]
    · simp [-erase_plain, -erase_node, tally_alts, tally_alt, tally_reference]
  | @plus i a b c r l f f' hl he =>
    rw [tally_erase hl rfl]
    refine .inr (.inr ⟨f.erase.tally ρ, 1, ?_, ?_⟩)
    · simp [Construct.tally, Construct.firstRound, Construct.nextRound]
    · simp [-erase_plain, -erase_node, tally_alts, tally_alt, tally_reference, he]
  | option hl =>
    rw [tally_erase hl rfl]
    exact .inl (by simp [-erase_plain, tally_alts, tally_alt, Construct.tally])
  | @group i l ts hl =>
    exact .inl ((tally_erase (l := { l with pragmas := [] }) hl rfl).trans (tally_erase hl rfl).symm)

theorem Unfolds.tally_le (h : Unfolds X t b) (hρ : ρ X = t.erase.tally ρ) : b.erase.tally ρ ≤ t.erase.tally ρ := by
  rcases h.tally_cases (ρ := ρ) with hb | ⟨F, ht, hb⟩ | ⟨F, S, ht, hb⟩
  · exact hb.le
  · rw [hb, hρ, ht, Tally.one_add_mul_kstar]
  · rw [hb, hρ, ht]
    calc F + F * (S * (F * (S * F)∗)) = F * (1 + S * F * (S * F)∗) := by simp only [mul_add, mul_one, mul_assoc]
      _ ≤ F * (S * F)∗ := by rw [Tally.one_add_mul_kstar]

/-- A simpler construct has no more ways, where the rule that matches nothing has one. -/
theorem Rewrites.tally_le (h : Rewrites t u) (hne : t.kind = .alts → t.children ≠ []) (hρ : ρ emptyRule = 1) :
    u.erase.tally ρ ≤ t.erase.tally ρ := by
  cases h with
  | @star i o p l f hl =>
    rw [tally_erase hl rfl, tally_option, tally_repeat1_single]
    simp only [Construct.tally, Construct.firstRound, Construct.nextRound, List.map_cons, List.map_nil,
      List.prod_cons, List.prod_nil, mul_one]
    exact le_rfl
  | @option i j l k hl hk hn =>
    rw [tally_erase hl rfl]
    simp only [Construct.tally, List.map_cons, List.map_nil, List.prod_cons, List.prod_nil, mul_one]
    exact le_add_of_nonneg_left (zero_le 1)
  | @group i r l ts hl hts =>
    rw [tally_erase hl rfl, tally_reference, hρ]
    obtain ⟨v, vs, rfl⟩ := List.exists_cons_of_ne_nil (show ts ≠ [] from hne hl)
    obtain ⟨hk, hc⟩ := hts v (List.mem_cons_self ..)
    obtain ⟨j, k, ws⟩ := v
    obtain rfl : ws = [] := hc
    have hone : (node j k []).erase.tally ρ = 1 := tally_erase hk rfl
    rw [Construct.tally, List.map_cons, List.sum_cons, hone]
    exact le_add_of_nonneg_right (zero_le _)

theorem tally_fill_mono (hz : ∀ v ∈ z, v.label.kind.isFlat = false) (h : t.erase.tally ρ ≤ u.erase.tally ρ) :
    (fill z t).erase.tally ρ ≤ (fill z u).erase.tally ρ := by
  induction z generalizing t u with
  | nil => exact h
  | cons f z ih =>
    refine ih (fun v hv => hz v (List.mem_cons_of_mem _ hv)) ?_
    have hf := hz f (List.mem_cons_self ..)
    rw [Frame.fill, Frame.fill, tally_erase rfl hf, tally_erase rfl hf]
    refine Construct.tally_mono ?_
    rw [List.map_append, List.map_append, List.map_cons, List.map_cons]
    have hrefl (fs : List (Tally Char)) : List.Forall₂ (· ≤ ·) fs fs := List.forall₂_same.mpr fun _ _ => le_rfl
    exact List.rel_append (hrefl _) (.cons h (hrefl _))

/-! ### Rules -/

/-- The tally of the rules of a name among some layouts. -/
noncomputable def total (ρ : String → Tally Char) (n : String) (T : List Layout) : Tally Char :=
  (T.map fun t => t.erase.share ρ n).sum

theorem bounded_iff : S.Bounded ρ ↔ ∀ n, total ρ n S.tops ≤ ρ n := by
  simp only [Stock.Bounded, Tree.Bounded, total, List.map_map, Function.comp_def]

theorem total_append : total ρ n (ts ++ us) = total ρ n ts + total ρ n us := by
  rw [total, List.map_append, List.sum_append, total, total]

theorem total_cons : total ρ n (t :: ts) = t.erase.share ρ n + total ρ n ts := by
  rw [total, List.map_cons, List.sum_cons, total]

theorem total_nil : total ρ n [] = 0 :=
  rfl

theorem share_eq_zero (h : ¬IsRuleNamed n t) : t.erase.share ρ n = 0 := by
  rw [Tree.share, if_neg]
  rwa [kind_erase, label_erase]

theorem share_eq (h : IsRuleNamed n t) : t.erase.share ρ n = t.erase.tally ρ := by
  rw [Tree.share, if_pos]
  rwa [kind_erase, label_erase]

theorem share_rule (hl : l.kind.isRule = true) (hn : l.nameText = n) :
    (node i l [t]).erase.share ρ n = t.erase.tally ρ :=
  (share_eq (t := node i l [t]) ⟨hl, hn⟩).trans (tally_rule hl)

theorem share_of_ne (hn : l.nameText ≠ n) : (node i l ts).erase.share ρ n = 0 :=
  share_eq_zero (t := node i l ts) fun h => hn h.2

theorem total_eq_zero (h : ∀ t ∈ T, ¬IsRuleNamed n t) : total ρ n T = 0 := by
  rw [total, List.map_congr_left fun t ht => share_eq_zero (h t ht)]
  simp

theorem share_fill_mono (hz : ∀ v ∈ f :: z, v.label.kind.isFlat = false) (h : t.erase.tally ρ ≤ u.erase.tally ρ) :
    (fill (f :: z) t).erase.share ρ n ≤ (fill (f :: z) u).erase.share ρ n := by
  by_cases hn : IsRuleNamed n (fill (f :: z) t)
  · rw [share_eq hn, share_eq (isRuleNamed_fill_iff.mp hn)]
    exact tally_fill_mono hz h
  · rw [share_eq_zero hn]
    exact zero_le _

theorem tally_update {x : Tally Char} (h : t.Every fun l _ => l.nameText ≠ X) :
    t.erase.tally (Function.update ρ X x) = t.erase.tally ρ :=
  Tree.tally_congr (h.mono fun _ _ hn => Function.update_of_ne hn _ _)

theorem total_update {x : Tally Char} (h : ∀ t ∈ T, t.Every fun l _ => l.nameText ≠ X) :
    total (Function.update ρ X x) n T = total ρ n T := by
  rw [total, total, List.map_congr_left fun t ht => ?_]
  rw [Tree.share, Tree.share, tally_update (h t ht)]

theorem name_ne_of_every (h : t.Every fun l _ => l.nameText ≠ X) : ¬IsRuleNamed X t :=
  fun hn => h.label hn.2

/-! ### Steps -/

theorem Unfolds.exists_bounded {A B : List Layout} {i r : NodeId} {o : Bool} {ps : List Pragma}
    (h : Unfolds X t b) (hX : Numbered X (m + 1)) (hz : ∀ v ∈ f :: z, v.label.kind.isFlat = false)
    (hS : Stock.Sound ⟨A ++ fill (f :: z) t :: B, m⟩) (hρ : Stock.Bounded ⟨A ++ fill (f :: z) t :: B, m⟩ ρ) :
    Stock.Bounded ⟨A ++ fill (f :: z) (node i (referenceLabel X o) []) :: B ++ [node r (hiddenLabel X o ps) [b]], m + 1⟩
      (Function.update ρ X (t.erase.tally ρ)) := by
  have hfresh : ∀ v ∈ A ++ fill (f :: z) t :: B, v.Every fun l _ => l.nameText ≠ X := fun v hv =>
    (hS.proper v hv).mono fun _ _ hp => hp.nameText_ne hX
  have ht : t.erase.tally (Function.update ρ X (t.erase.tally ρ)) = t.erase.tally ρ :=
    tally_update (hfresh (fill (f :: z) t) (by simp)).of_fill
  have hbody : b.erase.tally (Function.update ρ X (t.erase.tally ρ)) ≤ t.erase.tally ρ := by
    have := h.tally_le (ρ := Function.update ρ X (t.erase.tally ρ)) (by rw [ht, Function.update_self])
    rwa [ht] at this
  have hplace (n : String) : total (Function.update ρ X (t.erase.tally ρ)) n
      (A ++ fill (f :: z) (node i (referenceLabel X o) []) :: B) ≤ total ρ n (A ++ fill (f :: z) t :: B) := by
    rw [← total_update hfresh, total_append, total_append, total_cons, total_cons]
    refine add_le_add le_rfl (add_le_add (share_fill_mono hz ?_) le_rfl)
    rw [tally_reference, Function.update_self, ht]
  rw [bounded_iff] at hρ ⊢
  intro n
  rw [total_append, total_cons, total_nil, add_zero]
  by_cases hn : n = X
  · subst hn
    have hzero := hplace n
    rw [total_eq_zero (ρ := ρ) fun v hv => name_ne_of_every (hfresh v hv)] at hzero
    rw [share_rule (n := n) (l := hiddenLabel n o ps) rfl rfl, Function.update_self]
    calc _ ≤ 0 + t.erase.tally ρ := add_le_add hzero hbody
      _ = t.erase.tally ρ := zero_add _
  · rw [share_of_ne (show (hiddenLabel X o ps).nameText ≠ n from Ne.symm hn), add_zero, Function.update_of_ne hn]
    exact (hplace n).trans (hρ n)

theorem total_split {rs as : List Layout} {b : NodeId} {k : Label} {a : Layout} (hl : l.kind.isRule = true)
    (hk : k.kind = .alts)
    (hrs : List.Forall₂ (fun r v => ∃ j, r = node j { l with name := some l.nameText } [v]) rs as) :
    (node i l [a]).erase.share ρ n + total ρ n rs = (node i l [node b k (a :: as)]).erase.share ρ n := by
  by_cases hn : l.nameText = n
  · have htotal : total ρ n rs = (as.map fun v => v.erase.tally ρ).sum := by
      induction hrs with
      | nil => rfl
      | cons hr _ ih =>
        obtain ⟨j, rfl⟩ := hr
        rw [total_cons, share_rule (l := { l with name := some l.nameText }) hl hn, ih, List.map_cons, List.sum_cons]
    rw [htotal, share_rule hl hn, share_rule hl hn, tally_erase hk rfl, Construct.tally, List.map_cons, List.sum_cons]
  · rw [share_of_ne hn, zero_add, share_of_ne hn]
    refine total_eq_zero fun r hr h => ?_
    obtain ⟨v, -, j, rfl⟩ := exists_of_forall₂ hrs hr
    exact hn h.2

/-- A step makes up no ways: there are tallies bounded by the rules after it that agree with the ones before on all
names that are not made up. -/
theorem Step.exists_bounded (h : Step S S') (hS : S.Sound) (hρ : S.Bounded ρ) (hempty : ρ emptyRule = 1) :
    ∃ ρ', S'.Bounded ρ' ∧ ρ' emptyRule = 1 ∧ ∀ n, ¬IsMade n → ρ' n = ρ n := by
  cases h with
  | @exchange A B f z t u rs m m' h hf hu =>
    have hproper : (fill (f :: z) t).Every (Proper m) := hS.proper _ (by simp)
    have hflat := h.not_isFlat hproper
    cases h with
    | @unfold X i r o ps b hX h =>
      refine ⟨_, h.exists_bounded hX hflat hS hρ, ?_, fun n hn => ?_⟩
      · rw [Function.update_of_ne hX.ne_emptyRule.symm, hempty]
      · exact Function.update_of_ne (fun he : n = X => hn (he ▸ hX.isMade)) _ _
    | rewrite h =>
      refine ⟨ρ, ?_, hempty, fun _ _ => rfl⟩
      have hle := h.tally_le (children_ne_nil hproper.of_fill) hempty
      rw [bounded_iff] at hρ ⊢
      intro n
      refine le_trans ?_ (hρ n)
      rw [List.append_nil, total_append, total_append, total_cons, total_cons]
      exact add_le_add le_rfl (add_le_add (share_fill_mono hflat hle) le_rfl)
  | @split A B rs i b l k a as m hl hk hrs =>
    refine ⟨ρ, ?_, hempty, fun _ _ => rfl⟩
    rw [bounded_iff] at hρ ⊢
    intro n
    refine le_trans (le_of_eq ?_) (hρ n)
    rw [total_append, total_append, total_append, total_cons, total_cons, ← total_split hl hk hrs]
    ac_rfl
  | @shared T r a m hT =>
    refine ⟨ρ, ?_, hempty, fun _ _ => rfl⟩
    rw [bounded_iff] at hρ ⊢
    intro n
    rw [total_append, total_cons, total_nil, add_zero]
    by_cases hn : n = emptyRule
    · subst hn
      rw [total_eq_zero hT, zero_add, share_rule (n := emptyRule) (l := hiddenLabel emptyRule false []) rfl rfl,
        tally_alt, hempty]
      exact le_rfl
    · rw [share_of_ne (show (hiddenLabel emptyRule false []).nameText ≠ n from Ne.symm hn), add_zero]
      exact hρ n

theorem exists_bounded_of_steps (h : Relation.ReflTransGen Step S S') (hS : S.Sound) (hρ : S.Bounded ρ)
    (hempty : ρ emptyRule = 1) : ∃ ρ', S'.Bounded ρ' ∧ ρ' emptyRule = 1 ∧ ∀ n, ¬IsMade n → ρ' n = ρ n := by
  induction h with
  | refl => exact ⟨ρ, hρ, hempty, fun _ _ => rfl⟩
  | tail hs h ih =>
    obtain ⟨ρ₁, hρ₁, hempty₁, heq₁⟩ := ih
    obtain ⟨ρ₂, hρ₂, hempty₂, heq₂⟩ := h.exists_bounded (sound_of_steps hs hS) hρ₁ hempty₁
    exact ⟨ρ₂, hρ₂, hempty₂, fun n hn => (heq₂ n hn).trans (heq₁ n hn)⟩

end Ixml.Simplify
