import Ixml.Proofs.Language.Denotation
import Ixml.Proofs.Simplify.Exchange

/-!
# Steps keep what names denote

Languages that are closed under the rules after a step are closed under those from before, and what the names
denote before a step, with what the construct denotes for the name of a new rule, is closed under the rules
after it. So no step changes what a name denotes that is not made up (`meaning_eq_of_steps`). This holds for
every sense that sees through references to made-up rules (`Sense.Transparent`).
-/

namespace Ixml

open Layout Simplify
open scoped Computability

variable {α : Type}

/-- A reference to a made-up rule denotes what the rule does. -/
def Sense.Transparent (σ : Sense α) : Prop :=
  ∀ l L, IsMade l.nameText → l.kind = .nonterminal none none → σ.reference l L = L

namespace Simplify

/-- What the names of a grammar denote. -/
def Stock.meaning (σ : Sense α) (S : Stock) : String → Language α :=
  Tree.meaning σ (S.tops.map erase)

/-- Every rule denotes a part of what its name does. -/
def Stock.Closed (σ : Sense α) (S : Stock) (ρ : String → Language α) : Prop :=
  ∀ t ∈ S.tops, t.kind.isRule = true → t.erase.denote σ ρ ≤ ρ t.label.nameText

variable {σ : Sense α} {ρ : String → Language α} {S S' : Stock} {X n : String} {m : Nat} {i : NodeId} {l : Label}
  {k : Construct} {t u b : Layout} {ts us : List Layout} {z : List Frame} {f : Frame}

theorem closed_erase : Tree.Closed σ (S.tops.map erase) ρ ↔ S.Closed σ ρ := by
  simp [Tree.Closed, Stock.Closed]

theorem Stock.meaning_le (h : S.Closed σ ρ) : S.meaning σ ≤ ρ :=
  Tree.meaning_le (closed_erase.mpr h)

theorem Stock.closed_meaning : S.Closed σ (S.meaning σ) :=
  closed_erase.mp Tree.closed_meaning

theorem Stock.mem_meaning {w : List α} :
    w ∈ S.meaning σ n ↔ ∃ t ∈ S.tops, IsRuleNamed n t ∧ w ∈ t.erase.denote σ (S.meaning σ) := by
  rw [meaning, Tree.mem_meaning]
  simp [Tree.IsRuleNamed, IsRuleNamed]

/-! ### Constructs -/

theorem denote_erase (hl : l.kind = k) (hk : k.isFlat = false) : (node i l ts).erase.denote σ ρ =
    k.combine (ts.map fun t => t.erase.denote σ ρ) := by
  subst hl
  rw [erase_node, Tree.denote_of_not_isFlat hk, List.map_map]
  rfl

theorem denote_alts : (plain .alts i ts).erase.denote σ ρ = (ts.map fun t => t.erase.denote σ ρ).sum :=
  denote_erase rfl rfl

theorem denote_alt : (plain .alt i ts).erase.denote σ ρ = (ts.map fun t => t.erase.denote σ ρ).prod :=
  denote_erase rfl rfl

theorem denote_repeat1 {f s : Layout} : (plain .repeat1 i [f, s]).erase.denote σ ρ =
    f.erase.denote σ ρ * (s.erase.denote σ ρ * f.erase.denote σ ρ)∗ :=
  denote_erase rfl rfl

theorem denote_repeat0 : (plain .repeat0 i [t]).erase.denote σ ρ = (t.erase.denote σ ρ)∗ := by
  rw [plain, denote_erase rfl rfl]
  simp [Construct.combine]

theorem denote_repeat1_single : (plain .repeat1 i [t]).erase.denote σ ρ =
    t.erase.denote σ ρ * (t.erase.denote σ ρ)∗ := by
  rw [plain, denote_erase rfl rfl]
  simp [Construct.combine]

theorem denote_option : (plain .option i [t]).erase.denote σ ρ = 1 + t.erase.denote σ ρ := by
  rw [plain, denote_erase rfl rfl]
  simp [Construct.combine]

theorem denote_rule (hl : l.kind.isRule = true) : (node i l [t]).erase.denote σ ρ = t.erase.denote σ ρ := by
  cases hk : l.kind <;> simp [hk, Construct.isRule] at hl
  rw [denote_erase hk rfl]
  simp [Construct.combine]

theorem denote_made (hσ : σ.Transparent) (hX : IsMade X) (o : Bool) :
    (node i (referenceLabel X o) []).erase.denote σ ρ = ρ X := by
  rw [erase_node, Tree.denote_of_nonterminal rfl]
  exact hσ _ _ hX rfl

/-- The two ways to read a repetition with separators. -/
theorem mul_kstar_le_kstar_mul (F S : Language α) : F * (S * F)∗ ≤ (F * S)∗ * F := by
  refine mul_kstar_le ?_ ?_
  · calc F = 1 * F := (one_mul F).symm
      _ ≤ (F * S)∗ * F := mul_le_mul' one_le_kstar le_rfl
  · calc (F * S)∗ * F * (S * F) = (F * S)∗ * (F * S) * F := by simp only [mul_assoc]
      _ ≤ (F * S)∗ * F := mul_le_mul' kstar_mul_le_kstar le_rfl

/-- The body of a new rule denotes what the construct does, or what begins the repetition, with the name for the rest. -/
theorem Unfolds.denote_cases (h : Unfolds X t b) (hσ : σ.Transparent) (hX : IsMade X) :
    b.erase.denote σ ρ = t.erase.denote σ ρ ∨
      (∃ F, t.erase.denote σ ρ = F∗ ∧ b.erase.denote σ ρ = 1 + F * ρ X) ∨
      ∃ F S, t.erase.denote σ ρ = F * (S * F)∗ ∧ b.erase.denote σ ρ = F + F * (S * ρ X) := by
  cases h with
  | starSepOption hl =>
    rw [denote_erase hl rfl]
    exact .inl (by simp [-erase_plain, denote_alts, denote_alt, denote_option, denote_repeat1, Construct.combine])
  | starSepEmpty hl =>
    rw [denote_erase hl rfl]
    exact .inl (by simp [-erase_plain, denote_alts, denote_alt, denote_repeat1, Construct.combine])
  | plusSepStar hl hk he =>
    rw [denote_erase hl rfl, List.map_cons, List.map_singleton, denote_erase hk rfl]
    exact .inl (by simp [-erase_plain, denote_alts, denote_alt, denote_repeat0, he, Construct.combine])
  | @plusSepSelf i j a b c r l k f f' s hl hk he =>
    rw [denote_erase hl rfl, List.map_cons, List.map_singleton, denote_erase hk rfl]
    refine .inr (.inr ⟨f.erase.denote σ ρ, s.erase.denote σ ρ, by simp [Construct.combine], ?_⟩)
    simp [-erase_plain, -erase_node, denote_alts, denote_alt, denote_made hσ hX, he]
  | @star i a b c r l f hl =>
    rw [denote_erase hl rfl]
    refine .inr (.inl ⟨f.erase.denote σ ρ, by simp [Construct.combine], ?_⟩)
    simp [-erase_plain, -erase_node, denote_alts, denote_alt, denote_made hσ hX]
  | @plus i a b c r l f f' hl he =>
    rw [denote_erase hl rfl]
    refine .inr (.inr ⟨f.erase.denote σ ρ, 1, by simp [Construct.combine], ?_⟩)
    simp [-erase_plain, -erase_node, denote_alts, denote_alt, denote_made hσ hX, he]
  | option hl =>
    rw [denote_erase hl rfl]
    exact .inl (by simp [-erase_plain, denote_alts, denote_alt, Construct.combine])
  | @group i l ts hl =>
    exact .inl ((denote_erase (l := { l with pragmas := [] }) hl rfl).trans (denote_erase hl rfl).symm)

/-- The body of a new rule denotes what the construct does, as soon as its name denotes just that. -/
theorem Unfolds.denote_iff (h : Unfolds X t b) (hσ : σ.Transparent) (hX : IsMade X) :
    (b.erase.denote σ ρ ≤ ρ X → t.erase.denote σ ρ ≤ ρ X) ∧
      (ρ X = t.erase.denote σ ρ → b.erase.denote σ ρ ≤ ρ X) := by
  rcases h.denote_cases (ρ := ρ) hσ hX with hb | ⟨F, ht, hb⟩ | ⟨F, S, ht, hb⟩
  · rw [hb]
    exact ⟨id, ge_of_eq⟩
  · rw [hb, ht]
    refine ⟨fun h => kstar_le_of_mul_le_right (le_self_add.trans h) (le_add_self.trans h), fun h => ?_⟩
    rw [h, one_add_mul_kstar]
  · rw [hb, ht]
    refine ⟨fun h => ?_, fun h => ?_⟩
    · -- read from the other end, the repetition is the least solution of what the rule says
      refine (mul_kstar_le_kstar_mul F S).trans (kstar_mul_le (le_self_add.trans h) ?_)
      rw [mul_assoc]
      exact le_add_self.trans h
    · rw [h]
      calc F + F * (S * (F * (S * F)∗)) = F * (1 + S * F * (S * F)∗) := by simp only [mul_add, mul_one, mul_assoc]
        _ ≤ F * (S * F)∗ := by rw [one_add_mul_kstar]

/-! ### Constructs in their places -/

/-- What stands below a node whose children are not members of a set is not in a set either. -/
theorem not_isFlat_of_fill (h : (fill (f :: z) t).Every (Proper m)) (ht : t.kind.isMember = false) :
    ∀ v ∈ f :: z, v.label.kind.isFlat = false := by
  have hf {f : Frame} {z : List Frame} {t : Layout} (h : (fill (f :: z) t).Every (Proper m))
      (ht : t.kind.isMember = false) : f.label.kind.isFlat = false ∧ f.label.kind.isMember = false := by
    have hfit := h.frame.fits
    have hmem : t.kind ∈ (f.before ++ t :: f.after).map kind := by simp
    constructor
    · rw [← Bool.not_eq_true]
      intro hflat
      rw [Construct.fits_flat hflat hfit _ hmem] at ht
      cases ht
    · generalize (f.before ++ t :: f.after).map kind = ks at hfit hmem
      cases ks with
      | nil => cases hmem
      | cons k ks => cases hk : f.label.kind <;> simp_all [Construct.isMember, Construct.fits]
  induction z generalizing f t with
  | nil =>
    intro v hv
    rw [List.mem_singleton.mp hv]
    exact (hf h ht).1
  | cons f' z ih =>
    intro v hv
    rcases List.mem_cons.mp hv with rfl | hv
    · exact (hf h ht).1
    · exact ih (f := f') (t := node f.id f.label (f.before ++ t :: f.after)) h (hf h ht).2 v hv

theorem denote_fill_mono (hz : ∀ v ∈ z, v.label.kind.isFlat = false)
    (h : t.erase.denote σ ρ ≤ u.erase.denote σ ρ) : (fill z t).erase.denote σ ρ ≤ (fill z u).erase.denote σ ρ := by
  induction z generalizing t u with
  | nil => exact h
  | cons f z ih =>
    refine ih (fun v hv => hz v (List.mem_cons_of_mem _ hv)) ?_
    have hf := hz f (List.mem_cons_self ..)
    rw [Frame.fill, Frame.fill, denote_erase rfl hf, denote_erase rfl hf]
    refine Construct.combine_mono ?_
    rw [List.map_append, List.map_append, List.map_cons, List.map_cons]
    have hrefl (Ls : List (Language α)) : List.Forall₂ (· ≤ ·) Ls Ls := List.forall₂_same.mpr fun _ _ => le_rfl
    exact List.rel_append (hrefl _) (.cons h (hrefl _))

theorem Exchange.not_isFlat {rs : List Layout} {m' : Nat} (h : Exchange m t u rs m')
    (ht : (fill (f :: z) t).Every (Proper m)) : ∀ v ∈ f :: z, v.label.kind.isFlat = false := by
  refine not_isFlat_of_fill ht ?_
  have hc := h.isCompound
  cases hk : t.kind <;> simp_all [Construct.isCompound, Construct.isMember]

/-! ### Names -/

theorem Proper.nameText_ne {ks : List Construct} (h : Proper m l ks) (hX : Numbered X (m + 1)) : l.nameText ≠ X := by
  rintro rfl
  rcases h.number hX.isMade with he | ⟨n, hn, hN⟩
  · exact hX.ne_emptyRule he
  · have := hX.unique hN
    omega

theorem denote_update {L : Language α} (h : t.Every fun l _ => l.nameText ≠ X) :
    t.erase.denote σ (Function.update ρ X L) = t.erase.denote σ ρ :=
  Tree.denote_congr (h.mono fun _ _ hn => Function.update_of_ne hn _ _)

theorem Stock.Sound.denote_emptyRule (hS : S.Sound) (ht : t ∈ S.tops) (hn : IsRuleNamed emptyRule t) :
    t.erase.denote σ ρ = 1 := by
  obtain ⟨a, k, hc, hk⟩ := hS.empty t ht hn
  obtain ⟨i, l, ts⟩ := t
  obtain rfl : ts = [node a k []] := hc
  rw [denote_rule (l := l) hn.1, denote_erase hk rfl]
  rfl

theorem Stock.Sound.meaning_emptyRule (hS : S.Sound) (h : ∃ t ∈ S.tops, IsRuleNamed emptyRule t) :
    S.meaning σ emptyRule = 1 := by
  refine le_antisymm (fun w hw => ?_) ?_
  · obtain ⟨t, ht, hn, hw⟩ := Stock.mem_meaning.mp hw
    rwa [hS.denote_emptyRule ht hn] at hw
  · obtain ⟨t, ht, hn⟩ := h
    rw [← hS.denote_emptyRule (σ := σ) (ρ := S.meaning σ) ht hn, ← hn.2]
    exact Stock.closed_meaning t ht hn.1

/-! ### Rewrites -/

theorem sum_le_iff {Ls : List (Language α)} {L : Language α} : Ls.sum ≤ L ↔ ∀ M ∈ Ls, M ≤ L := by
  induction Ls with
  | nil => simp
  | cons M Ls ih => rw [List.sum_cons, add_le_iff, ih, List.forall_mem_cons]

theorem denote_le_iff_of_alts (hl : l.kind = .alts) {L : Language α} :
    (node i l ts).erase.denote σ ρ ≤ L ↔ ∀ t ∈ ts, t.erase.denote σ ρ ≤ L := by
  rw [denote_erase hl rfl]
  refine sum_le_iff.trans ?_
  rw [List.forall_mem_map]

theorem denote_group (hl : l.kind = .alts) (hts : ∀ t ∈ ts, t.kind = .alt ∧ t.children = []) :
    (node i l ts).erase.denote σ ρ = (ts.map fun _ => (1 : Language α)).sum := by
  rw [denote_erase hl rfl, List.map_congr_left (g := fun _ => (1 : Language α)) fun t ht => ?_]
  · rfl
  · obtain ⟨hk, hc⟩ := hts t ht
    obtain ⟨j, k, us⟩ := t
    obtain rfl : us = [] := hc
    exact denote_erase hk rfl

/-- A reference to the rule that matches nothing. -/
theorem denote_emptyReference (hσ : σ.Transparent) (hp : (node i l []).Every (Proper m))
    (hl : l.kind.isNonterminal = true) (hn : l.nameText = emptyRule) :
    (node i l []).erase.denote σ ρ = ρ emptyRule := by
  have hmade : IsMade l.nameText := hn ▸ isMade_emptyRule
  have hk : l.kind = .nonterminal none none := by
    rcases (every_node.mp hp).1.hidden hmade with hk | hk
    · rw [hk] at hl
      cases hl
    · exact hk
  rw [erase_node, List.map_nil, Tree.denote_of_nonterminal hl, hσ l _ hmade hk, hn]

/-- A simpler construct denotes the same, where the rule that matches nothing denotes just that. -/
theorem Rewrites.denote_eq (h : Rewrites t u) (hσ : σ.Transparent) (ht : t.Every (Proper m))
    (hne : t.kind = .alts → t.children ≠ []) (hu : u.label.nameText = emptyRule → ρ emptyRule = 1) :
    t.erase.denote σ ρ = u.erase.denote σ ρ := by
  cases h with
  | @star i o p l f hl =>
    rw [denote_erase hl rfl, denote_option, denote_repeat1_single, one_add_mul_kstar]
    simp [Construct.combine]
  | @option i j l k hl hk hn =>
    rw [denote_erase hl rfl, List.map_singleton,
      denote_emptyReference hσ ((every_node.mp ht).2 _ (List.mem_singleton_self _)) hk hn, hu hn]
    simp [Construct.combine]
  | @group i r l ts hl hts =>
    rw [denote_group hl hts, denote_made hσ isMade_emptyRule, hu rfl]
    have hts : ts ≠ [] := hne hl
    obtain ⟨t, ts, rfl⟩ := List.exists_cons_of_ne_nil hts
    rw [List.map_cons, List.sum_cons]
    refine le_antisymm (add_le le_rfl (sum_le_iff.mpr fun M hM => ?_)) le_self_add
    obtain ⟨_, -, rfl⟩ := List.mem_map.mp hM
    exact le_rfl

theorem children_ne_nil (ht : t.Every (Proper m)) : t.kind = .alts → t.children ≠ [] := by
  obtain ⟨i, l, ts⟩ := t
  rintro (hk : l.kind = .alts) (rfl : ts = [])
  have hfit := (every_node.mp ht).1.fits
  rw [hk] at hfit
  exact (Construct.fits_alts hfit).1 rfl

/-! ### Rules that are closed -/

theorem closed_append {T rs : List Layout} :
    Stock.Closed σ ⟨T ++ rs, m⟩ ρ ↔ Stock.Closed σ ⟨T, m⟩ ρ ∧ Stock.Closed σ ⟨rs, m⟩ ρ := by
  simp [Stock.Closed, or_imp, forall_and]

theorem closed_cons {T : List Layout} : Stock.Closed σ ⟨t :: T, m⟩ ρ ↔
    (t.kind.isRule = true → t.erase.denote σ ρ ≤ ρ t.label.nameText) ∧ Stock.Closed σ ⟨T, m⟩ ρ := by
  simp [Stock.Closed]

theorem closed_nil : Stock.Closed σ ⟨[], m⟩ ρ :=
  fun _ ht => (List.not_mem_nil ht).elim

theorem Stock.Closed.update {L : Language α} (hρ : S.Closed σ ρ)
    (h : ∀ t ∈ S.tops, t.Every fun l _ => l.nameText ≠ X) : S.Closed σ (Function.update ρ X L) := by
  intro t ht hr
  rw [denote_update (h t ht), Function.update_of_ne (h t ht).label]
  exact hρ t ht hr

/-- What denotes no more than what it takes the place of keeps the rules closed. -/
theorem Stock.Closed.exchange {A B : List Layout} (hρ : Stock.Closed σ ⟨A ++ fill (f :: z) t :: B, m⟩ ρ)
    (hz : ∀ v ∈ f :: z, v.label.kind.isFlat = false) (hle : u.erase.denote σ ρ ≤ t.erase.denote σ ρ) :
    Stock.Closed σ ⟨A ++ fill (f :: z) u :: B, m⟩ ρ := by
  simp only [closed_append, closed_cons] at hρ ⊢
  refine ⟨hρ.1, fun hr => ?_, hρ.2.2⟩
  rw [kind_fill_cons f z u t] at hr
  rw [label_fill_cons f z u t]
  exact (denote_fill_mono hz hle).trans (hρ.2.1 hr)

/-- A rule with alternatives is closed as soon as the rules with one of them each are. -/
theorem closed_split {A B rs as : List Layout} {a : Layout} {b : NodeId} {k : Label} (hl : l.kind.isRule = true)
    (hk : k.kind = .alts)
    (hrs : List.Forall₂ (fun r v => ∃ j, r = node j { l with name := some l.nameText } [v]) rs as) :
    Stock.Closed σ ⟨A ++ node i l [node b k (a :: as)] :: B, m⟩ ρ ↔
      Stock.Closed σ ⟨A ++ node i l [a] :: B ++ rs, m⟩ ρ := by
  have hnew : Stock.Closed σ ⟨rs, m⟩ ρ ↔ ∀ w ∈ as, w.erase.denote σ ρ ≤ ρ l.nameText := by
    induction hrs with
    | nil => simp [closed_nil]
    | cons hr _ ih =>
      obtain ⟨j, rfl⟩ := hr
      rw [closed_cons, ih, denote_rule (l := { l with name := some l.nameText }) hl, List.forall_mem_cons]
      exact and_congr_left fun _ => forall_prop_of_true hl
  simp only [closed_append, closed_cons, hnew, kind_node, label_node, hl, forall_const, denote_rule hl,
    denote_le_iff_of_alts hk, List.forall_mem_cons]
  tauto

theorem Unfolds.closed {A B : List Layout} {i r : NodeId} {o : Bool} {ps : List Pragma} (h : Unfolds X t b)
    (hσ : σ.Transparent) (hX : Numbered X (m + 1)) (hz : ∀ v ∈ f :: z, v.label.kind.isFlat = false)
    (hS : Stock.Sound ⟨A ++ fill (f :: z) t :: B, m⟩) (hρ : Stock.Closed σ ⟨A ++ fill (f :: z) t :: B, m⟩ ρ) :
    Stock.Closed σ
      ⟨A ++ fill (f :: z) (node i (referenceLabel X o) []) :: B ++ [node r (hiddenLabel X o ps) [b]], m + 1⟩
      (Function.update ρ X (t.erase.denote σ ρ)) := by
  have hfresh : ∀ v ∈ A ++ fill (f :: z) t :: B, v.Every fun l _ => l.nameText ≠ X := fun v hv =>
    (hS.proper v hv).mono fun _ _ hp => hp.nameText_ne hX
  have ht : t.erase.denote σ (Function.update ρ X (t.erase.denote σ ρ)) = t.erase.denote σ ρ :=
    denote_update (hfresh (fill (f :: z) t) (by simp)).of_fill
  refine closed_append.mpr ⟨(hρ.update hfresh).exchange hz ?_, closed_cons.mpr ⟨fun _ => ?_, closed_nil⟩⟩
  · rw [denote_made hσ hX.isMade, Function.update_self, ht]
  · rw [denote_rule rfl]
    exact (h.denote_iff hσ hX.isMade).2 (by rw [ht, Function.update_self])

/-! ### Steps -/

/-- What the names denote after a step is closed under the rules from before. -/
theorem Step.closed_meaning (h : Step S S') (hσ : σ.Transparent) (hS : S.Sound) : S.Closed σ (S'.meaning σ) := by
  have hS' := h.sound hS
  have hρ : S'.Closed σ (S'.meaning σ) := Stock.closed_meaning
  cases h with
  | @exchange A B f z t u rs m m' h hf hu =>
    have hproper : (fill (f :: z) t).Every (Proper m) := hS.proper _ (by simp)
    generalize hmeaning : Stock.meaning σ ⟨A ++ fill (f :: z) u :: B ++ rs, m'⟩ = ρ at hρ
    have hle : t.erase.denote σ ρ ≤ u.erase.denote σ ρ := by
      cases h with
      | @unfold X i r o ps b hX h =>
        have hb : (node r (hiddenLabel X o ps) [b]).erase.denote σ ρ ≤ ρ X := hρ _ (by simp) rfl
        rw [denote_rule rfl] at hb
        rw [denote_made hσ hX.isMade]
        exact (h.denote_iff hσ hX.isMade).1 hb
      | rewrite h =>
        refine (h.denote_eq hσ hproper.of_fill (children_ne_nil hproper.of_fill) fun hn => ?_).le
        obtain ⟨r, hr, hn⟩ := hu hn
        rw [← hmeaning]
        exact hS'.meaning_emptyRule ⟨r, List.mem_append_left _ hr, hn⟩
    exact (closed_append.mp hρ).1.exchange (h.not_isFlat hproper) hle
  | split hl hk hrs => exact (closed_split hl hk hrs).mpr hρ
  | shared hT => exact (closed_append.mp hρ).1

/-- What the names denote before a step is, for the names that are not made up, closed under the rules after it. -/
theorem Step.exists_closed (h : Step S S') (hσ : σ.Transparent) (hS : S.Sound) :
    ∃ ρ, S'.Closed σ ρ ∧ ∀ n, ¬IsMade n → ρ n = S.meaning σ n := by
  have hρ : S.Closed σ (S.meaning σ) := Stock.closed_meaning
  cases h with
  | @exchange A B f z t u rs m m' h hf hu =>
    have hproper : (fill (f :: z) t).Every (Proper m) := hS.proper _ (by simp)
    have hflat := h.not_isFlat hproper
    cases h with
    | @unfold X i r o ps b hX h =>
      refine ⟨_, h.closed hσ hX hflat hS hρ, fun n hn => ?_⟩
      exact Function.update_of_ne (fun he : n = X => hn (he ▸ hX.isMade)) _ _
    | rewrite h =>
      refine ⟨_, ?_, fun _ _ => rfl⟩
      rw [List.append_nil]
      refine hρ.exchange hflat
        (h.denote_eq hσ hproper.of_fill (children_ne_nil hproper.of_fill) fun hn => hS.meaning_emptyRule ?_).ge
      obtain ⟨r, hr, hn⟩ := hu hn
      rcases mem_exchanged (w := fill (f :: z) t) hr with hr | rfl
      · exact ⟨r, hr, hn⟩
      · exact ⟨fill (f :: z) t, by simp, isRuleNamed_fill_iff.mp hn⟩
  | split hl hk hrs => exact ⟨_, (closed_split hl hk hrs).mp hρ, fun _ _ => rfl⟩
  | @shared T r a m hT =>
    have hfresh : ∀ v ∈ T, v.Every fun l _ => l.nameText ≠ emptyRule := by
      rcases hS.shared with ⟨t, ht, hn⟩ | h
      · exact absurd hn (hT t ht)
      · exact h
    refine ⟨Function.update (Stock.meaning σ ⟨T, m⟩) emptyRule 1, ?_, fun n hn => ?_⟩
    · refine closed_append.mpr ⟨hρ.update hfresh, closed_cons.mpr ⟨fun _ => ?_, closed_nil⟩⟩
      rw [denote_rule rfl, denote_alt]
      exact (Function.update_self emptyRule (1 : Language α) (Stock.meaning σ ⟨T, m⟩)).ge
    · exact Function.update_of_ne (fun he : n = emptyRule => hn (he ▸ isMade_emptyRule)) _ _

/-- No step changes what a name denotes that is not made up. -/
theorem Step.meaning_eq (h : Step S S') (hσ : σ.Transparent) (hS : S.Sound) (hn : ¬IsMade n) :
    S.meaning σ n = S'.meaning σ n := by
  obtain ⟨ρ, hρ, he⟩ := h.exists_closed hσ hS
  refine le_antisymm (Stock.meaning_le (h.closed_meaning hσ hS) n) ?_
  rw [← he n hn]
  exact Stock.meaning_le hρ n

theorem meaning_eq_of_steps (h : Relation.ReflTransGen Step S S') (hσ : σ.Transparent) (hS : S.Sound)
    (hn : ¬IsMade n) : S.meaning σ n = S'.meaning σ n := by
  induction h with
  | refl => rfl
  | tail hs h ih => rw [ih, h.meaning_eq hσ (sound_of_steps hs hS) hn]

end Simplify

end Ixml
