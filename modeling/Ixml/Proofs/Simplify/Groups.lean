import Ixml.Proofs.Simplify.Leaves

/-!
# The pragmas of groups

A group is what stands in parentheses: alternatives anywhere but right below a rule. The pragmas in front of it stay
there until it becomes a made-up rule, which takes them over. So whatever a rule `Carries` is carried after a step by a
rule that is reached from its name, unless the group is empty (`Step.exists_carries`), and nothing else is carried than
what was carried before (`Step.exists_carried`).
-/

namespace Ixml

/-- What is to be known of a group: the pragmas in front of it, and whether it has an alternative that is not empty. -/
structure Group where
  pragmas : List Pragma
  isFull : Bool

namespace Tree

mutual

/-- The groups of a tree, from outside in. Alternatives right below a rule are its body and no group. -/
def groups (belowRule : Bool) : Tree → List Group
  | node l ts =>
    (if l.kind = .alts ∧ belowRule = false then [⟨l.pragmas, ts.any fun t => !t.children.isEmpty⟩] else []) ++
      groupsAll l.kind.isRule ts

def groupsAll (belowRule : Bool) : List Tree → List Group
  | [] => []
  | t :: ts => groups belowRule t ++ groupsAll belowRule ts

end

theorem mem_groupsAll {c : Bool} {ts : List Tree} {x : Group} : x ∈ groupsAll c ts ↔ ∃ t ∈ ts, x ∈ t.groups c := by
  induction ts with
  | nil => simp [groupsAll]
  | cons t ts ih => simp [groupsAll, ih]

theorem mem_groups {c : Bool} {l : Label} {ts : List Tree} {x : Group} : x ∈ (node l ts).groups c ↔
    (l.kind = .alts ∧ c = false ∧ x = ⟨l.pragmas, ts.any fun t => !t.children.isEmpty⟩) ∨
      ∃ t ∈ ts, x ∈ t.groups l.kind.isRule := by
  rw [groups, List.mem_append, mem_groupsAll]
  split <;> simp_all

end Tree

open Layout

namespace Layout

/-- The groups of a layout. -/
def groups (belowRule : Bool) (t : Layout) : List Group :=
  t.erase.groups belowRule

/-- Whether some of the given alternatives are not empty. -/
def anyFull (ts : List Layout) : Bool :=
  ts.any fun t => !t.children.isEmpty

variable {c d : Bool} {i : NodeId} {l : Label} {ts : List Layout} {t u : Layout} {x : Group}

theorem mem_groups : x ∈ (node i l ts).groups c ↔
    (l.kind = .alts ∧ c = false ∧ x = ⟨l.pragmas, anyFull ts⟩) ∨ ∃ t ∈ ts, x ∈ t.groups l.kind.isRule := by
  have hfull : ((ts.map erase).any fun t => !t.children.isEmpty) = anyFull ts := by
    rw [anyFull, List.any_map]
    refine congrArg (fun p => List.any ts p) (funext fun t => ?_)
    obtain ⟨j, k, us⟩ := t
    simp [Tree.children]
  rw [groups, erase_node, Tree.mem_groups, hfull]
  simp [groups]

@[simp] theorem mem_groups_of_ne (h : l.kind ≠ .alts) :
    x ∈ (node i l ts).groups c ↔ ∃ t ∈ ts, x ∈ t.groups l.kind.isRule := by
  simp [mem_groups, h]

theorem groups_of_erase_eq (h : u.erase = t.erase) : u.groups c = t.groups c := by
  rw [groups, groups, h]

/-- Only for alternatives it matters what they stand below. -/
theorem mem_groups_congr (h : t.kind ≠ .alts) : x ∈ t.groups c ↔ x ∈ t.groups d := by
  obtain ⟨i, l, ts⟩ := t
  have hl : l.kind ≠ .alts := h
  rw [mem_groups_of_ne hl, mem_groups_of_ne hl]

theorem not_mem_groups {c : Bool} {t : Layout} (h : t.Every fun l _ => l.kind.isCompound = false) : x ∉ t.groups c := by
  induction t generalizing c with
  | node i l ts ih =>
    obtain ⟨hl, hts⟩ := every_node.mp h
    rw [mem_groups_of_ne (by rintro he; simp [he, Construct.isCompound] at hl)]
    rintro ⟨u, hu, hx⟩
    exact ih u hu (hts u hu) hx

variable {f : Frame} {z : List Frame} {Q : Group → Prop}

/-- The groups below a frame are kept, apart from those with a property `Q`, if those of the layout in it are and it stays
empty or not. -/
theorem mem_groups_frame (hf : f.label.kind = .alts → (t.children = [] ↔ u.children = []))
    (h : ∀ x ∈ t.groups f.label.kind.isRule, x ∈ u.groups f.label.kind.isRule ∨ Q x) :
    ∀ x ∈ (f.fill t).groups c, x ∈ (f.fill u).groups c ∨ Q x := by
  intro x hx
  rw [Frame.fill, mem_groups] at hx
  rw [Frame.fill, mem_groups]
  rcases hx with ⟨hk, hc, rfl⟩ | ⟨v, hv, hx⟩
  · have hempty : t.children.isEmpty = u.children.isEmpty := by
      rw [Bool.eq_iff_iff, List.isEmpty_iff, List.isEmpty_iff]
      exact hf hk
    exact .inl (.inl ⟨hk, hc, by simp [anyFull, hempty]⟩)
  · rcases Simplify.mem_exchanged (w := u) hv with hv | rfl
    · exact .inl (.inr ⟨v, hv, hx⟩)
    · exact (h x hx).imp_left fun hx => .inr ⟨u, by simp, hx⟩

theorem mem_groups_fill (hf : f.label.kind = .alts → (t.children = [] ↔ u.children = []))
    (h : ∀ x ∈ t.groups f.label.kind.isRule, x ∈ u.groups f.label.kind.isRule ∨ Q x) :
    ∀ x ∈ (fill (f :: z) t).groups c, x ∈ (fill (f :: z) u).groups c ∨ Q x := by
  induction z generalizing f t u c with
  | nil => exact mem_groups_frame hf h
  | cons g z ih => exact ih (fun _ => by simp [Frame.fill]) (mem_groups_frame hf h)

theorem mem_groups_fill_of_mem (h : x ∈ t.groups f.label.kind.isRule) : x ∈ (fill (f :: z) t).groups c := by
  have hframe (c : Bool) : x ∈ (f.fill t).groups c := mem_groups.mpr (.inr ⟨t, by simp, h⟩)
  induction z generalizing f t c with
  | nil => exact hframe c
  | cons g z ih => exact ih (hframe _) fun c => mem_groups.mpr (.inr ⟨f.fill t, by simp, hframe _⟩)

end Layout

namespace Simplify

variable {X n n' : String} {m m' : Nat} {t u b r : Layout} {rs : List Layout} {i j : NodeId} {x : Group} {v : Tree}
  {f : Frame} {z : List Frame} {S S' : Stock} {c : Bool}

/-! ### Groups of an exchange -/

@[simp] theorem mem_groups_plain {k : Construct} {ts : List Layout} (h : k ≠ .alts) :
    x ∈ (plain k i ts).groups c ↔ ∃ t ∈ ts, x ∈ t.groups k.isRule :=
  mem_groups_of_ne h

@[simp] theorem mem_groups_body {ts : List Layout} :
    x ∈ (plain .alts i ts).groups true ↔ ∃ t ∈ ts, x ∈ t.groups false := by
  simp [plain, mem_groups, Construct.isRule]

theorem mem_groups_rule {l : Label} {ts : List Layout} (hl : l.kind.isRule = true) :
    x ∈ (node i l ts).groups c ↔ ∃ t ∈ ts, x ∈ t.groups true := by
  rw [mem_groups_of_ne (by rintro he; simp [he, Construct.isRule] at hl), hl]

@[simp] theorem not_mem_groups_reference {o : Bool} : x ∉ (node i (referenceLabel X o) []).groups c := by
  simp [referenceLabel]

/-- The body of a new rule has the groups of the construct, apart from the construct itself, and perhaps new ones without
pragmas. -/
theorem Unfolds.mem_groups (h : Unfolds X t b) :
    (x ∈ t.groups false → x ∈ b.groups true ∨ t.kind = .alts ∧ x.pragmas = t.label.pragmas) ∧
      (x ∈ b.groups true → x ∈ t.groups false ∨ x.pragmas = []) := by
  have hcopy {f f' : Layout} (hf : f'.erase = f.erase) : f'.groups false = f.groups false := groups_of_erase_eq hf
  cases h with
  | @group i l ts hl =>
    simp only [Layout.mem_groups, hl, label_node, kind_node]
    grind
  | @plusSepStar i j a b c d q l m f f' s hl hm hf =>
    have hnew : x ∈ (plain .alts c [plain .alt d [s, f']]).groups false ↔
        x = ⟨[], true⟩ ∨ x ∈ s.groups false ∨ x ∈ f.groups false := by
      simp [plain, Layout.mem_groups, anyFull, hcopy hf, Construct.isRule]
    simp [hl, hm, hnew, Construct.isRule]
    grind
  | starSepOption hl =>
    simp [hl, Construct.isRule]
    tauto
  | starSepEmpty hl =>
    simp [hl, Construct.isRule]
    tauto
  | plusSepSelf hl hm hf =>
    simp [hl, hm, hcopy hf, Construct.isRule]
    tauto
  | star hl =>
    simp [hl, Construct.isRule]
    tauto
  | plus hl hf =>
    simp [hl, hcopy hf, Construct.isRule]
    tauto
  | option hl =>
    simp [hl, Construct.isRule]
    tauto

/-- A simpler construct has the same groups, but for one that is empty. -/
theorem Rewrites.mem_groups (h : Rewrites t u) :
    (x ∈ t.groups false → x ∈ u.groups false ∨ x.isFull = false) ∧ (x ∈ u.groups false → x ∈ t.groups false) := by
  cases h with
  | star hl =>
    simp [hl, Construct.isRule]
    tauto
  | option hl hm hn =>
    simp [hl, Construct.isRule]
    tauto
  | @group i r l ts hl hts =>
    refine ⟨fun hx => .inr ?_, fun hx => absurd hx not_mem_groups_reference⟩
    rcases Layout.mem_groups.mp hx with ⟨-, -, rfl⟩ | ⟨⟨j, k, us⟩, ht, hx⟩
    · simp only [anyFull, List.any_eq_false]
      intro t ht
      simp [(hts t ht).2]
    · obtain ⟨hk, hus⟩ := hts _ ht
      rw [kind_node] at hk
      rw [children_node] at hus
      simp [hk, hus] at hx

end Simplify

/-- A layout has a group, or is a made-up rule with the pragmas of the group. -/
def Layout.Carries (t : Layout) (x : Group) : Prop :=
  x ∈ t.groups false ∨ Simplify.IsMade t.label.nameText ∧ t.label.pragmas = x.pragmas

namespace Simplify

/-- A group of a construct that is exchanged is carried by what comes into its place, unless it is empty. -/
theorem Exchange.exists_carries (h : Exchange m t u rs m') (hx : x ∈ t.groups false) :
    x ∈ u.groups false ∨ x.isFull = false ∨ ∃ r ∈ rs, r.kind.isRule = true ∧ r.Carries x := by
  cases h with
  | unfold hX h hps =>
    refine .inr (.inr ⟨_, List.mem_singleton_self _, rfl, ?_⟩)
    rcases h.mem_groups.1 hx with hx | ⟨hk, hp⟩
    · exact .inl ((mem_groups_rule rfl).mpr ⟨_, List.mem_singleton_self _, hx⟩)
    · rw [if_pos hk] at hps
      exact .inr ⟨hX.isMade, hps.trans hp.symm⟩
  | rewrite h => exact (h.mem_groups.1 hx).imp_right .inl

/-- What an exchange brings in carries pragmas of groups that were there. -/
theorem Exchange.exists_carried (h : Exchange m t u rs m') (hx : x ∈ u.groups false ∨ ∃ r ∈ rs, r.Carries x) :
    x.pragmas = [] ∨ ∃ y ∈ t.groups false, y.pragmas = x.pragmas := by
  cases h with
  | @unfold X i r o ps b hX h hps =>
    rcases hx with hx | ⟨r', hr', hx⟩
    · exact absurd hx not_mem_groups_reference
    rw [List.mem_singleton.mp hr'] at hx
    rcases hx with hx | ⟨-, hp⟩
    · obtain ⟨b', hb', hx⟩ := (mem_groups_rule rfl).mp hx
      rw [List.mem_singleton.mp hb'] at hx
      rcases h.mem_groups.2 hx with hx | hx
      · exact .inr ⟨x, hx, rfl⟩
      · exact .inl hx
    · have hp : ps = x.pragmas := hp
      by_cases hk : t.kind = .alts
      · obtain ⟨j, l, ts⟩ := t
        rw [if_pos hk] at hps
        exact .inr ⟨_, Layout.mem_groups.mpr (.inl ⟨hk, rfl, rfl⟩), hps.symm.trans hp⟩
      · rw [if_neg hk] at hps
        exact .inl (hp.symm.trans hps)
  | rewrite h =>
    rcases hx with hx | ⟨r', hr', -⟩
    · exact .inr ⟨x, h.mem_groups.2 hx, rfl⟩
    · cases hr'

theorem Exchange.kind_frame_ne (h : Exchange m t u rs m') (ht : (fill (f :: z) t).Every (Proper m)) :
    f.label.kind ≠ .alts := by
  intro hk
  have hfit := ht.frame.fits
  rw [hk] at hfit
  have hcompound := h.isCompound
  rw [(Construct.fits_alts hfit).2 t.kind (List.mem_map_of_mem (by simp))] at hcompound
  cases hcompound

/-! ### Groups of rules -/

/-- A rule of a given name carries a group. -/
def Stock.Carries (S : Stock) (n : String) (x : Group) : Prop :=
  ∃ t ∈ S.tops, IsRuleNamed n t ∧ t.Carries x

/-- A rule with a single alternative has the groups of it, whether it is the body or stands in one. -/
theorem mem_groups_alternative {l k : Label} {a : Layout} {as : List Layout} (hl : l.kind.isRule = true)
    (hk : k.kind = .alts) (hp : Proper m k ((a :: as).map kind)) : (x ∈ (node i l [node j k (a :: as)]).groups c ↔
      ∃ v ∈ a :: as, x ∈ v.groups true) := by
  have hkind : ∀ v ∈ a :: as, v.kind = .alt := fun v hv => by
    have hfit := hp.fits
    rw [hk] at hfit
    exact (Construct.fits_alts hfit).2 _ (List.mem_map_of_mem hv)
  rw [mem_groups_rule hl]
  simp only [List.mem_singleton, exists_eq_left]
  rw [Layout.mem_groups]
  simp only [Bool.true_eq_false, false_and, and_false, false_or]
  refine exists_congr fun v => and_congr_right fun hv => ?_
  exact mem_groups_congr (by rw [hkind v hv]; decide)

theorem Step.exists_label (h : Step S S') (hS : S.Sound) (ht : t ∈ S.tops) : ∃ u ∈ S'.tops, u.label = t.label :=
  List.mem_map.mp ((h.labels_prefix hS).subset (List.mem_map_of_mem ht))

/-- What a rule carries is carried after a step by a rule that is reached from its name. -/
theorem Step.exists_carries (h : Step S S') (hS : S.Sound) (hfull : x.isFull = true) (hx : S.Carries n x) :
    ∃ n', S'.Reaches n n' ∧ S'.Carries n' x := by
  have hS' := h.sound hS
  obtain ⟨w, hw, hn, hx | ⟨hmade, hps⟩⟩ := hx
  · cases h with
    | @exchange A B f z t u rs m m' h hf hu =>
      rcases mem_exchanged (w := fill (f :: z) u) hw with hw | rfl
      · exact ⟨n, .refl, w, List.mem_append_left _ hw, hn, .inl hx⟩
      have hfilled : fill (f :: z) u ∈ A ++ fill (f :: z) u :: B ++ rs := by simp
      have hnamed : IsRuleNamed n (fill (f :: z) u) := isRuleNamed_fill_iff.mp hn
      have hproper := hS.proper (fill (f :: z) t) (by simp)
      have hkept := mem_groups_fill (u := u) (Q := fun x => x.isFull = false ∨ ∃ r ∈ rs, r.kind.isRule = true ∧ r.Carries x)
        (fun hk => absurd hk (h.kind_frame_ne hproper)) (fun x hx => by rw [hf] at hx ⊢; exact h.exists_carries hx) x hx
      rcases hkept with hx | hx | ⟨r, hr, hrule, hx⟩
      · exact ⟨n, .refl, _, hfilled, hnamed, .inl hx⟩
      · rw [hfull] at hx
        cases hx
      · exact ⟨_, .single (h.refers hproper (hS'.proper _ hfilled) hnamed hr), r, List.mem_append_right _ hr,
          ⟨hrule, rfl⟩, hx⟩
    | @split A B rs i b l k a as m hl hk hrs =>
      refine ⟨n, .refl, ?_⟩
      rcases mem_exchanged (w := node i l [a]) hw with hw | rfl
      · exact ⟨w, List.mem_append_left _ hw, hn, .inl hx⟩
      have hbody := (every_node.mp (hS.proper (node i l [node b k (a :: as)]) (by simp))).2 _ (List.mem_singleton_self _)
      obtain ⟨v, hv, hxv⟩ := (mem_groups_alternative hl hk (every_node.mp hbody).1).mp hx
      have halone {j : NodeId} {l' : Label} (hl' : l'.kind.isRule = true) : (node j l' [v]).Carries x :=
        .inl ((mem_groups_rule hl').mpr ⟨v, List.mem_singleton_self _, hxv⟩)
      rcases List.mem_cons.mp hv with rfl | hv
      · exact ⟨node i l [v], by simp, hn, halone hl⟩
      · obtain ⟨r, hr, j, rfl⟩ := exists_of_forall₂ hrs.flip hv
        exact ⟨_, List.mem_append_right _ hr, ⟨hl, hn.2⟩, halone hl⟩
    | @shared T r a m hT => exact ⟨n, .refl, w, List.mem_append_left _ hw, hn, .inl hx⟩
  · obtain ⟨w', hw', hl⟩ := h.exists_label hS hw
    refine ⟨n, .refl, w', hw', ⟨by rw [kind, hl]; exact hn.1, by rw [hl]; exact hn.2⟩, .inr ?_⟩
    rw [hl]
    exact ⟨hmade, hps⟩

theorem carries_fill (hf : f.label.kind.isRule = false) (hx : x ∈ t.groups false) : (fill (f :: z) t).Carries x :=
  .inl (mem_groups_fill_of_mem (by rwa [hf]))

/-- What a rule carries after an exchange in it has no pragmas, or those of what it carried before. -/
theorem Exchange.exists_carried_fill (h : Exchange m t u rs m') (hf : f.label.kind.isRule = false)
    (ht : (fill (f :: z) t).Every (Proper m)) (hx : (fill (f :: z) u).Carries x) :
    x.pragmas = [] ∨ ∃ y, (fill (f :: z) t).Carries y ∧ y.pragmas = x.pragmas := by
  rcases hx with hx | hx
  · have hkept := mem_groups_fill (u := t) (Q := fun x => x.pragmas = [] ∨ ∃ y ∈ t.groups false, y.pragmas = x.pragmas)
      (fun hk => absurd hk (h.kind_frame_ne ht))
      (fun x hx => by rw [hf] at hx; exact .inr (h.exists_carried (.inl hx))) x hx
    rcases hkept with hx | hx | ⟨y, hy, he⟩
    · exact .inr ⟨x, .inl hx, rfl⟩
    · exact .inl hx
    · exact .inr ⟨y, carries_fill hf hy, he⟩
  · rw [label_fill_cons f z u t] at hx
    exact .inr ⟨x, .inr hx, rfl⟩

/-- What a rule with one of the alternatives of another carries, the other carries, if their labels say the same. -/
theorem carries_of_alternative {l l' k : Label} {w a : Layout} {as : List Layout} (hl : l.kind.isRule = true)
    (hk : k.kind = .alts) (hp : Proper m k ((a :: as).map kind)) (hw : w ∈ a :: as) (hl' : outlook l' = outlook l)
    (hx : (node i l' [w]).Carries x) : (node i l [node j k (a :: as)]).Carries x := by
  have hname : l'.nameText = l.nameText := congrArg Prod.snd hl'
  have hkind : l'.kind = l.kind := congrArg (·.1.kind) hl'
  have hpragmas : l'.pragmas = l.pragmas := congrArg (·.1.pragmas) hl'
  rcases hx with hx | hx
  · obtain ⟨u, hu, hx⟩ := (mem_groups_rule (by rwa [hkind])).mp hx
    rw [List.mem_singleton.mp hu] at hx
    exact .inl ((mem_groups_alternative hl hk hp).mpr ⟨w, hw, hx⟩)
  · rw [label_node, hname, hpragmas] at hx
    exact .inr hx

/-- What is carried after a step has no pragmas, or those of a group that was carried before by a rule from whose name the
rule is reached. -/
theorem Step.exists_carried (h : Step S S') (hS : S.Sound) (hx : S'.Carries n x) :
    x.pragmas = [] ∨ ∃ n' y, S.Carries n' y ∧ y.pragmas = x.pragmas ∧ S'.Reaches n' n := by
  have hS' := h.sound hS
  obtain ⟨w, hw, hn, hx⟩ := hx
  cases h with
  | @exchange A B f z t u rs m m' h hf hu =>
    have hold : fill (f :: z) t ∈ A ++ fill (f :: z) t :: B := by simp
    have hproper := hS.proper _ hold
    rcases mem_exchanged_append (w := fill (f :: z) t) hw with hw | rfl | hr
    · exact .inr ⟨n, x, ⟨w, hw, hn, hx⟩, rfl, .refl⟩
    · refine (h.exists_carried_fill hf hproper hx).imp_right ?_
      rintro ⟨y, hy, he⟩
      exact ⟨n, y, ⟨_, hold, isRuleNamed_fill_iff.mp hn, hy⟩, he, .refl⟩
    · refine (h.exists_carried (.inr ⟨w, hr, hx⟩)).imp_right ?_
      rintro ⟨y, hy, he⟩
      have hrule : (fill (f :: z) t).kind.isRule = true := isRule_fill hproper (hS.top _ hold) h.isCompound
      have hrefers := h.refers (A := A) (B := B) hproper (hS'.proper (fill (f :: z) u) (by simp))
        (isRuleNamed_fill_iff.mp ⟨hrule, rfl⟩) hr
      rw [hn.2] at hrefers
      exact ⟨_, y, ⟨_, hold, ⟨hrule, rfl⟩, carries_fill hf hy⟩, he, .single hrefers⟩
  | @split A B rs i b l k a as m hl hk hrs =>
    have hold : node i l [node b k (a :: as)] ∈ A ++ node i l [node b k (a :: as)] :: B := by simp
    have hbody := (every_node.mp ((every_node.mp (hS.proper _ hold)).2 _ (List.mem_singleton_self _))).1
    suffices Stock.Carries ⟨A ++ node i l [node b k (a :: as)] :: B, m⟩ n x from .inr ⟨n, x, this, rfl, .refl⟩
    rcases mem_exchanged_append (w := node i l [node b k (a :: as)]) hw with hw | rfl | hr
    · exact ⟨w, hw, hn, hx⟩
    · exact ⟨_, hold, hn, carries_of_alternative hl hk hbody (List.mem_cons_self ..) rfl hx⟩
    · obtain ⟨v, hv, j, rfl⟩ := exists_of_forall₂ hrs hr
      exact ⟨_, hold, hn, carries_of_alternative hl hk hbody (List.mem_cons_of_mem _ hv) rfl hx⟩
  | @shared T r a m hT =>
    rcases List.mem_append.mp hw with hw | hw
    · exact .inr ⟨n, x, ⟨w, hw, hn, hx⟩, rfl, .refl⟩
    · rw [List.mem_singleton.mp hw] at hx
      rcases hx with hx | ⟨-, hp⟩
      · simp [hiddenLabel, Construct.isRule] at hx
      · exact .inl hp.symm

theorem exists_carries_of_steps (h : Relation.ReflTransGen Step S S') (hS : S.Sound) (hfull : x.isFull = true)
    (hx : S.Carries n x) : ∃ n', S'.Reaches n n' ∧ S'.Carries n' x := by
  induction h with
  | refl => exact ⟨n, .refl, hx⟩
  | tail hsteps h ih =>
    have hsound := sound_of_steps hsteps hS
    obtain ⟨n', hn', hx⟩ := ih
    obtain ⟨n'', hn'', hx⟩ := h.exists_carries hsound hfull hx
    exact ⟨n'', (h.reaches hsound hn').trans hn'', hx⟩

theorem exists_carried_of_steps (h : Relation.ReflTransGen Step S S') (hS : S.Sound) (hx : S'.Carries n x) :
    x.pragmas = [] ∨ ∃ n' y, S.Carries n' y ∧ y.pragmas = x.pragmas ∧ S'.Reaches n' n := by
  induction h generalizing n x with
  | refl => exact .inr ⟨n, x, hx, rfl, .refl⟩
  | tail hsteps h ih =>
    have hsound := sound_of_steps hsteps hS
    rcases h.exists_carried hsound hx with hx | ⟨n', y, hy, he, hreach⟩
    · exact .inl hx
    rcases ih hy with hy | ⟨n'', w, hw, he', hreach'⟩
    · exact .inl (he.symm.trans hy)
    · exact .inr ⟨n'', w, hw, he'.trans he, (h.reaches hsound hreach').trans hreach⟩

end Simplify

end Ixml
