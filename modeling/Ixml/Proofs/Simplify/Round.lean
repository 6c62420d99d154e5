import Ixml.Proofs.Simplify.GiveUp
import Mathlib.Data.List.Flatten

/-!
# A round over a grammar

Every step of a pass goes over the nodes that it finds at its beginning. `Holds` describes the grammar in
between: the layouts that have joined the root, those that wait, and what has been cut off. Giving up all
constructs of one sort leaves none of that sort below the root (`does_giveUpAll`).
-/

namespace Ixml

open Layout

namespace Simplify

open Edit

/-- The grammar has the layouts `J` below a root with a given label, those of `W` wait, and apart from that it
is `b`. -/
def Holds (rootLabel : Label) (b : Grammar) (J W : List Layout) (g : Grammar) : Prop :=
  ∃ junk, Laid { b with waiting := W.map Layout.id } (node Grammar.root rootLabel J :: (W ++ junk)) g

variable {rootLabel : Label} {b g : Grammar} {J W A B : List Layout} {t u v x : Layout} {i : NodeId} {m : Nat}
  {f : Frame} {z : List Frame}

namespace Holds

theorem children_root (h : Holds rootLabel b J W g) : g.children Grammar.root = J.map Layout.id := by
  obtain ⟨junk, h⟩ := h
  exact h.kids_eq (z := []) (List.mem_cons_self ..)

theorem waiting_eq (h : Holds rootLabel b J W g) : g.waiting = W.map Layout.id := by
  obtain ⟨junk, h⟩ := h
  rw [show g.waiting = g.bare.waiting from rfl, h.bare]

theorem start_eq (h : Holds rootLabel b J W g) : g.start = b.start := by
  obtain ⟨junk, h⟩ := h
  rw [show g.start = g.bare.start from rfl, h.bare]

theorem toLabel_eq (h : Holds rootLabel b J W g) (ht : t ∈ J) : (g.node t.id).toLabel = t.label := by
  obtain ⟨junk, h⟩ := h
  obtain ⟨A, B, rfl⟩ := List.append_of_mem ht
  obtain ⟨i, l, ts⟩ := t
  exact h.toLabel_eq (z := [⟨Grammar.root, rootLabel, A, B⟩]) (List.mem_cons_self ..)

theorem kind_eq (h : Holds rootLabel b J W g) (ht : t ∈ J) : g.kind t.id = t.kind :=
  congrArg Label.kind (h.toLabel_eq ht)

theorem rules_eq (h : Holds rootLabel b J W g) : g.rules = (J.filter (·.kind.isRule)).map Layout.id := by
  rw [Grammar.rules, h.children_root, List.filter_map]
  congr 1
  refine List.filter_congr fun t ht => ?_
  rw [Function.comp_apply, h.kind_eq ht]

end Holds

theorem main_eq (A B : List Layout) (z : List Frame) (t : Layout) :
    node Grammar.root rootLabel (A ++ fill z t :: B) = fill (z ++ [⟨Grammar.root, rootLabel, A, B⟩]) t := by
  rw [fill_append]
  rfl

/-- A construct below the root stands in a trail below one of the layouts. -/
theorem exists_trail (htop : ∀ t ∈ J, t.kind.isTop = true) {s : Spot} (hs : s ∈ spotsAll (some Grammar.root) J)
    (hc : s.label.kind.isCompound = true) :
    ∃ A B f z t, J = A ++ fill (f :: z) t :: B ∧ s = Layout.top (some f.id) t := by
  obtain ⟨v, hv, hsv⟩ := mem_spotsAll.mp hs
  obtain ⟨A, B, rfl⟩ := List.append_of_mem hv
  obtain ⟨z, t, rfl, rfl⟩ := exists_fill_of_mem_spots [⟨Grammar.root, default, [], []⟩] hsv
  cases z with
  | nil =>
    have := htop _ hv
    simp only [Layout.top] at hc
    rw [fill_nil, kind] at this
    cases hk : t.label.kind <;> simp_all [Construct.isTop, Construct.isRule, Construct.isCompound]
  | cons f z => exact ⟨A, B, f, z, t, rfl, rfl⟩

/-- A prolog holds no construct. -/
theorem isRule_of_mem_spots {q : Option NodeId} {s : Spot} (hv : v.Every (Proper m))
    (htop : v.kind.isTop = true) (hs : s ∈ spots q v) (hc : s.label.kind.isCompound = true) :
    v.kind.isRule = true := by
  by_contra hrule
  have hprolog : v.kind = .prolog := by simpa [Construct.isTop, hrule] using htop
  obtain ⟨i, l, ts⟩ := v
  have hl : l.kind = .prolog := hprolog
  obtain ⟨⟨hfit, -, -⟩, hts⟩ := every_node.mp hv
  rw [hl] at hfit
  rcases mem_spots.mp hs with rfl | ⟨u, hu, hs⟩
  · simp [Layout.top, hl, Construct.isCompound] at hc
  · have hversion : u.kind.isVersion = true := by
      simp only [Construct.fits, List.all_map, List.all_eq_true] at hfit
      exact hfit u hu
    obtain ⟨j, k, us⟩ := u
    rw [kind_node] at hversion
    have hus : us = [] := by
      have := (every_node.mp (hts _ hu)).1.fits
      cases hk : k.kind <;> simp_all [Construct.isVersion]
      cases us <;> simp_all [Construct.fits]
    subst hus
    have : s.label = k := by
      simp only [spots_node, spotsAll_nil, List.mem_singleton] at hs
      rw [hs]
    rw [this] at hc
    cases hk : k.kind <;> simp_all [Construct.isVersion, Construct.isCompound]

/-! ### What an exchange leaves -/

/-- The two spots are the same node with the same label and as many children. -/
def Alike (s s' : Spot) : Prop :=
  s.id = s'.id ∧ s.label = s'.label ∧ s.kids.length = s'.kids.length

theorem Alike.trans {s₁ s₂ s₃ : Spot} (h : Alike s₁ s₂) (h' : Alike s₂ s₃) : Alike s₁ s₃ :=
  ⟨h.1.trans h'.1, h.2.1.trans h'.2.1, h.2.2.trans h'.2.2⟩

theorem exists_alike_trail {h h' : NodeId × Label} {s' : Spot} (hs : s' ∈ trailSpots z h') :
    ∃ s ∈ trailSpots z h, Alike s s' := by
  cases z with
  | nil => cases hs
  | cons f z =>
    simp only [trailSpots, List.cons_append, List.mem_cons] at hs
    rcases hs with rfl | hs
    · exact ⟨f.spot (parentOf z) h, by simp [trailSpots], rfl, rfl, by simp [Frame.spot]⟩
    · exact ⟨s', by simpa [trailSpots] using Or.inr hs, rfl, rfl, rfl⟩

theorem exists_alike_spots {p q : Option NodeId} {s' : Spot} (hs : s' ∈ spots p t) :
    ∃ s ∈ spots q t, Alike s s' := by
  obtain ⟨s, hs, hid, hl, hk⟩ := exists_mem_spots q hs
  exact ⟨s, hs, hid, hl, by rw [hk]⟩

theorem exists_alike_of_inPlace {old : List NodeId} {a : Bool} {s' : Spot} (hu : InPlace old t a u)
    (hn : (fill (f :: z) t).ids.Nodup) (hs : s' ∈ spots none (fill (f :: z) u)) :
    (∃ s ∈ spots none (fill (f :: z) t), Alike s s' ∧ s.id ≠ t.id) ∨
      (s'.id ∉ old ∧ (s'.label.kind.isNonterminal = true ∨
        a = true ∧ (s'.label.kind = .option ∨ s'.label.kind = .repeat1 ∧ s'.kids.length = 1))) := by
  obtain ⟨hkids, htrail⟩ : t.id ∉ idsAll t.children ∧ t.id ∉ trailIds (f :: z) := by
    have hn := (ids_fill_perm (f :: z) t).nodup_iff.mp hn
    obtain ⟨i, l, ts⟩ := t
    rw [ids_node, List.cons_append, List.nodup_cons, List.mem_append, not_or] at hn
    exact hn.1
  -- a node below the construct, which the exchange keeps
  have below {x : Layout} {p : Option NodeId} (hx : x ∈ t.children) (hs : s' ∈ spots p x) :
      ∃ s ∈ spots none (fill (f :: z) t), Alike s s' ∧ s.id ≠ t.id := by
    obtain ⟨s, hs, halike⟩ := exists_alike_spots (q := some t.id) hs
    refine ⟨s, mem_spots_fill.mpr (Or.inl (mem_spots.mpr (Or.inr ⟨x, hx, hs⟩))), halike, fun he => hkids ?_⟩
    exact mem_idsAll.mpr ⟨x, hx, he ▸ id_mem_of_mem_spots hs⟩
  rcases mem_spots_fill.mp hs with hs | hs
  · cases hu with
    | @reference j l hj hl =>
      simp only [spots_node, spotsAll_nil, List.mem_singleton] at hs
      subst hs
      exact Or.inr ⟨hj, Or.inl hl⟩
    | child hc hk hcs => exact Or.inl (below hc hs)
    | @star o p x hk hx ho hp =>
      simp only [plain, spots_node, spotsAll_cons, spotsAll_nil, List.mem_cons, List.append_nil] at hs
      rcases hs with rfl | rfl | hs
      · exact Or.inr ⟨ho, Or.inr ⟨rfl, Or.inl rfl⟩⟩
      · exact Or.inr ⟨hp, Or.inr ⟨rfl, Or.inr ⟨rfl, rfl⟩⟩⟩
      · exact Or.inl (below (by simp [hx]) hs)
  · obtain ⟨s, hs, halike⟩ := exists_alike_trail (h := t.head) hs
    refine Or.inl ⟨s, mem_spots_fill.mpr (Or.inr hs), halike, fun he => htrail ?_⟩
    rw [← he, trailIds, map_id_trailSpots _ _ t.head]
    exact List.mem_map_of_mem hs

/-- The nodes after an exchange are those from before apart from the construct, and new ones. -/
theorem exists_alike_of_exchange {old : List NodeId} {a : Bool} {q : Option NodeId} {s' : Spot}
    (hu : InPlace old t a u) (hn : (idsAll (A ++ fill (f :: z) t :: B)).Nodup)
    (hs : s' ∈ spotsAll q (A ++ fill (f :: z) u :: B)) :
    (∃ s ∈ spotsAll q (A ++ fill (f :: z) t :: B), Alike s s' ∧ s.id ≠ t.id) ∨
      (s'.id ∉ old ∧ (s'.label.kind.isNonterminal = true ∨
        a = true ∧ (s'.label.kind = .option ∨ s'.label.kind = .repeat1 ∧ s'.kids.length = 1))) := by
  have hperm : (idsAll (A ++ fill (f :: z) t :: B)).Perm ((fill (f :: z) t).ids ++ idsAll (A ++ B)) := by
    rw [← idsAll_cons]
    exact idsAll_perm List.perm_middle
  obtain ⟨hfill, -, hapart⟩ := List.nodup_append.mp (hperm.nodup_iff.mp hn)
  have hid : t.id ∈ (fill (f :: z) t).ids := mem_ids_fill.mpr (Or.inl (id_mem_ids t))
  obtain ⟨v, hv, hsv⟩ := mem_spotsAll.mp hs
  have hv' : v ∈ A ++ B ∨ v = fill (f :: z) u := by
    simpa [or_assoc, or_comm, or_left_comm] using hv
  rcases hv' with hv | rfl
  · -- a layout that the exchange leaves alone
    refine Or.inl ⟨s', mem_spotsAll.mpr ⟨v, ?_, hsv⟩, ⟨rfl, rfl, rfl⟩, fun he => ?_⟩
    · rcases List.mem_append.mp hv with hv | hv <;> simp [hv]
    · exact hapart t.id hid t.id (mem_idsAll.mpr ⟨v, hv, he ▸ id_mem_of_mem_spots hsv⟩) rfl
  · obtain ⟨s₁, hs₁, ha₁⟩ := exists_alike_spots (q := none) hsv
    rcases exists_alike_of_inPlace hu hfill hs₁ with ⟨s, hs, ha, hne⟩ | hnew
    · obtain ⟨s₂, hs₂, ha₂⟩ := exists_alike_spots (q := q) hs
      exact Or.inl ⟨s₂, by simp [hs₂], (ha₂.trans ha).trans ha₁, by rwa [ha₂.1]⟩
    · rw [ha₁.1, ha₁.2.1, ha₁.2.2] at hnew
      exact Or.inr hnew

/-! ### How a round advances -/

/-- A property of all nodes that survives whatever takes the place of a construct. -/
structure Stable (asOption : Bool) (P : Label → List Construct → Prop) : Prop where
  inPlace : ∀ {old : List NodeId} {t u : Layout}, InPlace old t asOption u → t.Every P → u.Every P
  frame : ∀ {old : List NodeId} {t u : Layout} {l : Label} {bs as : List Construct},
    InPlace old t asOption u → t.kind.isCompound = true → P l (bs ++ t.kind :: as) → P l (bs ++ u.kind :: as)

/-- No rule is heavier than `n`, and those after the first `k` are lighter. -/
def Bounded (k n : Nat) (ts : List Layout) : Prop :=
  (∀ t ∈ ts, t.load ≤ n) ∧ ∀ t ∈ ts.drop k, t.load < n

/-- What a rule shows of itself: its label and the kind of its body. -/
def outline (t : Layout) : Label × List Construct :=
  (t.label, t.children.map kind)

theorem outline_fill (hf : f.label.kind.isRule = false) (hrule : (fill (f :: z) t).kind.isRule = true) (u : Layout) :
    outline (fill (f :: z) u) = outline (fill (f :: z) t) := by
  obtain ⟨us, g, rfl⟩ := exists_concat_of_isRule hf hrule
  rw [outline, outline, label_fill_cons f _ u t]
  congr 1
  rw [← List.cons_append, fill_append, fill_append]
  simp [fill_cons g, kind_fill_cons f us u t]

/-- The tops of rules that are made up one after the other, from the number after `m` up to `m'`. -/
inductive MadeInTurn : Nat → List (NodeId × Label) → Nat → Prop
  | nil (m : Nat) : MadeInTurn m [] m
  | cons {m m' : Nat} {h : NodeId × Label} {hs : List (NodeId × Label)} (hr : h.2.kind.isRule = true)
    (hn : Numbered h.2.nameText (m + 1)) (hhs : MadeInTurn (m + 1) hs m') : MadeInTurn m (h :: hs) m'

theorem MadeInTurn.append {m m' m'' : Nat} {hs hs' : List (NodeId × Label)} (h : MadeInTurn m hs m')
    (h' : MadeInTurn m' hs' m'') : MadeInTurn m (hs ++ hs') m'' := by
  induction h with
  | nil => exact h'
  | cons hr hn _ ih => exact .cons hr hn (ih h')

theorem Exchange.madeInTurn {m m' : Nat} {rs : List Layout} (h : Exchange m t u rs m') :
    MadeInTurn m (rs.map head) m' := by
  cases h with
  | unfold hX => exact .cons rfl hX (.nil _)
  | rewrite => exact .nil _

theorem head_fill_cons (f : Frame) (z : List Frame) (t u : Layout) : (fill (f :: z) t).head = (fill (f :: z) u).head := by
  rw [head, head, id_fill_cons f z t u, label_fill_cons f z t u]

/-- A part of a round: it consists of steps, the layouts below the root stay in their places, and new rules
wait and are lighter. -/
structure Advances (asOption : Bool) (J W : List Layout) (m : Nat) (J' W' : List Layout) (m' : Nat) : Prop where
  steps : Relation.ReflTransGen Step ⟨J ++ W, m⟩ ⟨J' ++ W', m'⟩
  heads : J'.map head = J.map head
  gains : ∃ hs, W'.map head = W.map head ++ hs ∧ MadeInTurn m hs m'
  outlines : J'.map outline = J.map outline
  stable : ∀ P k, Stable asOption P → (∀ t ∈ J.take k, t.Every P) → ∀ t ∈ J'.take k, t.Every P
  bounded : ∀ k n, k ≤ (J ++ W).length → Bounded k n (J ++ W) → Bounded k n (J' ++ W')
  longer : W.length ≤ W'.length

variable {a : Bool} {J' W' J'' W'' rs : List Layout} {m' m'' : Nat}

theorem Advances.length (h : Advances a J W m J' W' m') : J'.length = J.length := by
  simpa using congrArg List.length h.outlines

theorem Advances.refl (a : Bool) (J W : List Layout) (m : Nat) : Advances a J W m J W m :=
  ⟨.refl, rfl, ⟨[], (List.append_nil _).symm, .nil m⟩, rfl, fun _ _ _ h => h, fun _ _ _ h => h, Nat.le_refl _⟩

theorem Advances.trans (h : Advances a J W m J' W' m') (h' : Advances a J' W' m' J'' W'' m'') :
    Advances a J W m J'' W'' m'' where
  steps := h.steps.trans h'.steps
  heads := h'.heads.trans h.heads
  gains := by
    obtain ⟨hs, he, hm⟩ := h.gains
    obtain ⟨hs', he', hm'⟩ := h'.gains
    exact ⟨hs ++ hs', by rw [he', he, List.append_assoc], hm.append hm'⟩
  outlines := h'.outlines.trans h.outlines
  stable P k hP hJ := h'.stable P k hP (h.stable P k hP hJ)
  bounded k n hk hb := by
    refine h'.bounded k n ?_ (h.bounded k n hk hb)
    have := h.length
    have := h.longer
    simp only [List.length_append] at hk ⊢
    omega
  longer := Nat.le_trans h.longer h'.longer

/-- A reference to the shared rule only takes a place where the rule is there. -/
theorem Exchange.exists_shared (h : Exchange m t u rs m') (hS : Stock.Sound ⟨A ++ fill (f :: z) t :: B, m⟩)
    (hg : t.kind = .alts → u.label.nameText = emptyRule →
      ∃ r ∈ A ++ fill (f :: z) t :: B, IsRuleNamed emptyRule r)
    (hu : u.label.nameText = emptyRule) : ∃ r ∈ A ++ fill (f :: z) u :: B, IsRuleNamed emptyRule r := by
  suffices ∃ r ∈ A ++ fill (f :: z) t :: B, IsRuleNamed emptyRule r by
    obtain ⟨r, hr, hr'⟩ := this
    rcases mem_exchanged (w := fill (f :: z) u) hr with hr | rfl
    · exact ⟨r, hr, hr'⟩
    · exact ⟨fill (f :: z) u, by simp, isRuleNamed_fill_iff.mp hr'⟩
  cases h with
  | unfold hX h => exact absurd hu hX.ne_emptyRule
  | rewrite h =>
    cases h with
    | star hl => simp [plain, Label.nameText, emptyRule] at hu
    | group hl hts => exact hg hl hu
    | option hl hm hn =>
      rcases hS.shared with hs | hall
      · exact hs
      · have := Every.of_fill (hall _ (List.mem_append_right A (List.mem_cons_self ..)))
        exact absurd hn ((every_node.mp ((every_node.mp this).2 _ (List.mem_singleton_self _))).1)

theorem bounded_exchange {k n : Nat} (h : Exchange m t u rs m') (hf : f.label.kind.isRule = false)
    (hrule : (fill (f :: z) t).kind.isRule = true) (hk : k ≤ (A ++ fill (f :: z) t :: B).length)
    (hb : Bounded k n (A ++ fill (f :: z) t :: B)) : Bounded k n (A ++ fill (f :: z) u :: B ++ rs) := by
  obtain ⟨hall, hnew⟩ := hb
  have hle := h.load_fill_le hf hrule
  have hold := hall (fill (f :: z) t) (by simp)
  have hrs : ∀ r ∈ rs, r.load < n := fun r hr => Nat.lt_of_lt_of_le (h.load_lt_fill hr hf hrule) hold
  constructor
  · intro r hr
    rcases mem_exchanged_append hr with hr | rfl | hr
    · exact hall r hr
    · exact Nat.le_trans hle hold
    · exact Nat.le_of_lt (hrs r hr)
  · intro r hr
    have hlen : (A ++ fill (f :: z) u :: B).length = (A ++ fill (f :: z) t :: B).length := by simp
    rw [List.drop_append_of_le_length (hlen ▸ hk), List.mem_append] at hr
    rcases hr with hr | hr
    · -- the exchanged rule stands where the old one did
      rcases Nat.lt_or_ge A.length k with hA | hA
      · rw [List.drop_append, List.drop_of_length_le (Nat.le_of_lt hA), List.nil_append] at hr hnew
        obtain ⟨d, hd⟩ : ∃ d, k - A.length = d + 1 := ⟨k - A.length - 1, by omega⟩
        rw [hd, List.drop_succ_cons] at hr hnew
        exact hnew r hr
      · rw [List.drop_append_of_le_length hA] at hr hnew
        rcases mem_exchanged hr with hr | rfl
        · exact hnew r hr
        · exact Nat.lt_of_le_of_lt hle (hnew _ (by simp))
    · exact hrs r hr

theorem isRule_fill (hS : (fill (f :: z) t).Every (Proper m)) (htop : (fill (f :: z) t).kind.isTop = true)
    (hc : t.kind.isCompound = true) : (fill (f :: z) t).kind.isRule = true :=
  isRule_of_mem_spots hS htop (mem_spots_fill.mpr (Or.inl (top_mem_spots (parentOf (f :: z)) t))) hc

/-- An exchange below the root is part of a round. -/
theorem advances_joined (h : Exchange m t u rs m') {old : List NodeId} (hu : InPlace old t a u)
    (hS : Stock.Sound ⟨A ++ fill (f :: z) t :: B ++ W, m⟩) (hf : f.label.kind.isRule = false)
    (hg : t.kind = .alts → u.label.nameText = emptyRule →
      ∃ r ∈ A ++ fill (f :: z) t :: (B ++ W), IsRuleNamed emptyRule r) :
    Advances a (A ++ fill (f :: z) t :: B) W m (A ++ fill (f :: z) u :: B) (W ++ rs) m' where
  steps := by
    have hS : Stock.Sound ⟨A ++ fill (f :: z) t :: (B ++ W), m⟩ := by simpa using hS
    have := Step.exchange (B := B ++ W) h hf (h.exists_shared hS hg)
    simpa using Relation.ReflTransGen.single this
  heads := by simp only [List.map_append, List.map_cons, head_fill_cons f z u t]
  gains := ⟨rs.map head, List.map_append, h.madeInTurn⟩
  outlines := by
    have hrule : (fill (f :: z) t).kind.isRule = true :=
      isRule_fill (hS.proper _ (by simp)) (hS.top _ (by simp)) h.isCompound
    simp only [List.map_append, List.map_cons, outline_fill hf hrule u]
  stable P k hP hJ v hv := by
    have hkeep (ht : (fill (f :: z) t).Every P) : (fill (f :: z) u).Every P := by
      refine ht.fill_congr (hP.inPlace hu ht.of_fill) ?_
      have := ht.frame
      simp only [List.map_append, List.map_cons] at this ⊢
      exact hP.frame hu h.isCompound this
    rw [List.take_append, List.mem_append] at hv
    simp only [List.take_append, List.mem_append] at hJ
    rcases hv with hv | hv
    · exact hJ v (Or.inl hv)
    · cases hk : k - A.length with
      | zero => simp [hk] at hv
      | succ d =>
        rw [hk, List.take_succ_cons, List.mem_cons] at hv
        rw [hk, List.take_succ_cons] at hJ
        rcases hv with rfl | hv
        · exact hkeep (hJ _ (Or.inr (List.mem_cons_self ..)))
        · exact hJ v (Or.inr (List.mem_cons_of_mem _ hv))
  bounded k n hk hb := by
    have hrule : (fill (f :: z) t).kind.isRule = true :=
      isRule_fill (hS.proper _ (by simp)) (hS.top _ (by simp)) h.isCompound
    have := bounded_exchange (A := A) (B := B ++ W) (k := k) (n := n) h hf hrule (by simpa using hk)
      (by simpa using hb)
    simpa using this
  longer := by simp

/-- An exchange in a layout that waits is part of a round. -/
theorem advances_waiting (h : Exchange m t u rs m')
    (hS : Stock.Sound ⟨J ++ (A ++ fill (f :: z) t :: B), m⟩) (hf : f.label.kind.isRule = false)
    (hg : t.kind = .alts → u.label.nameText = emptyRule →
      ∃ r ∈ J ++ (A ++ fill (f :: z) t :: B), IsRuleNamed emptyRule r) :
    Advances a J (A ++ fill (f :: z) t :: B) m J (A ++ fill (f :: z) u :: B ++ rs) m' where
  steps := by
    have hS : Stock.Sound ⟨(J ++ A) ++ fill (f :: z) t :: B, m⟩ := by simpa using hS
    have := Step.exchange (A := J ++ A) h hf (h.exists_shared hS (by simpa using hg))
    simpa using Relation.ReflTransGen.single this
  heads := rfl
  gains := ⟨rs.map head, by simp only [List.map_append, List.map_cons, head_fill_cons f z u t], h.madeInTurn⟩
  outlines := rfl
  stable _ _ _ hJ := hJ
  bounded k n hk hb := by
    have hrule : (fill (f :: z) t).kind.isRule = true :=
      isRule_fill (hS.proper _ (by simp)) (hS.top _ (by simp)) h.isCompound
    have := bounded_exchange (A := J ++ A) (B := B) (k := k) (n := n) h hf hrule (by simpa using hk)
      (by simpa using hb)
    simpa using this
  longer := by
    simp only [List.length_append, List.length_cons]
    omega

/-! ### Giving up all constructs of a sort -/

variable {strategy : Strategy} {τ : Sugar}

theorem isCompound_of_isOf {k : Construct} {n : Nat} (h : τ.isOf k n = true) : k.isCompound = true := by
  cases τ <;> cases k <;> simp_all [Sugar.isOf, Construct.isCompound]

theorem ne_alts_of_isOf {k : Construct} {n : Nat} (h : τ.isOf k n = true) : k ≠ .alts := by
  rintro rfl
  cases τ <;> simp [Sugar.isOf] at h

theorem isRule_frame_eq_false (ht : (fill (f :: z) t).Every (Proper m)) (hc : t.kind.isCompound = true)
    (hne : t.kind ≠ .alts) : f.label.kind.isRule = false := by
  have hfit := ht.frame.fits
  cases hk : f.label.kind <;> try rfl
  rw [hk] at hfit
  rcases Construct.fits_rule hfit with h | h
  all_goals
    have hmem : t.kind ∈ (f.before ++ t :: f.after).map Layout.kind := by simp
    rw [h, List.mem_singleton] at hmem
    first
      | exact absurd hmem hne
      | (rw [hmem] at hc; cases hc)

/-- What is known while the constructs with the addresses `R` remain to be given up: those that are still
below the root are constructs of the sort, and there are no others. -/
structure Remaining (τ : Sugar) (R : List NodeId) (J : List Layout) (g : Grammar) : Prop where
  below : ∀ i ∈ R, i ≠ Grammar.root ∧ i < g.nodes.size
  sort : ∀ s ∈ spotsAll (some Grammar.root) J, s.id ∈ R → τ.isOf s.label.kind s.kids.length = true
  all : ∀ s ∈ spotsAll (some Grammar.root) J, τ.isOf s.label.kind s.kids.length = true → s.id ∈ R

theorem perm_waiting (J W rs junk : List Layout) :
    (rs ++ (J ++ (W ++ junk))).Perm ((W ++ rs) ++ (J ++ junk)) := by
  classical
  rw [List.perm_iff_count]
  intro t
  simp only [List.count_append]
  omega

/-- After an exchange nothing else remains than before, and the construct does not. -/
theorem Remaining.exchange {R : List NodeId} {g' : Grammar} {old : List NodeId}
    (hR : Remaining τ (t.id :: R) (A ++ fill (f :: z) t :: B) g)
    (hu : InPlace old t (strategy == .spec && τ == .star) u)
    (hn : (idsAll (A ++ fill (f :: z) t :: B)).Nodup) (hold : ∀ i < g.nodes.size, i ∈ old)
    (hsize : g.nodes.size ≤ g'.nodes.size) : Remaining τ R (A ++ fill (f :: z) u :: B) g' where
  below i hi := by
    obtain ⟨h0, h1⟩ := hR.below i (List.mem_cons_of_mem _ hi)
    exact ⟨h0, Nat.lt_of_lt_of_le h1 hsize⟩
  sort s hs hi := by
    rcases exists_alike_of_exchange hu hn hs with ⟨s', hs', ha, -⟩ | ⟨hnew, -⟩
    · rw [← ha.2.1, ← ha.2.2]
      exact hR.sort s' hs' (by rw [ha.1]; exact List.mem_cons_of_mem _ hi)
    · exact absurd (hold _ (hR.below _ (List.mem_cons_of_mem _ hi)).2) hnew
  all s hs hτ := by
    rcases exists_alike_of_exchange hu hn hs with ⟨s', hs', ha, hne⟩ | ⟨-, hk⟩
    · rw [← ha.2.1, ← ha.2.2] at hτ
      have := hR.all s' hs' hτ
      rw [← ha.1]
      exact (List.mem_cons.mp this).resolve_left hne
    · exfalso
      rcases hk with hk | ⟨ha, hk | ⟨hk, hlen⟩⟩
      · have := isCompound_of_isOf hτ
        cases hc : s.label.kind <;> simp_all [Construct.isNonterminal, Construct.isCompound]
      · simp only [Bool.and_eq_true, beq_iff_eq] at ha
        rw [ha.2, hk] at hτ
        cases hτ
      · simp only [Bool.and_eq_true, beq_iff_eq] at ha
        rw [ha.2, hk] at hτ
        cases hτ

theorem does_giveUpBelowRoot {R : List NodeId} (h : Holds rootLabel b J W g)
    (hS : Stock.Sound ⟨J ++ W, b.madeUp⟩) (hR : Remaining τ (i :: R) J g) :
    Does (giveUpBelowRoot strategy τ i) g fun c g' => (c = false → g' = g) ∧ ∃ J' W' m',
      Holds rootLabel { b with madeUp := m' } J' W' g' ∧
      Advances (strategy == .spec && τ == .star) J W b.madeUp J' W' m' ∧ Remaining τ R J' g' := by
  obtain ⟨junk, h⟩ := h
  have htop := h.lays.topOf_eq_iff (hR.below i (List.mem_cons_self ..)).2
  rw [ids_node, List.mem_cons, or_iff_right (hR.below i (List.mem_cons_self ..)).1, id_node] at htop
  refine .get ?_
  split
  · rename_i hroot
    rw [htop, ← map_id_spotsAll (some Grammar.root), List.mem_map] at hroot
    obtain ⟨s, hs, rfl⟩ := hroot
    have hτ := hR.sort s hs (List.mem_cons_self ..)
    obtain ⟨A, B, f, z, t, rfl, rfl⟩ :=
      exists_trail (fun t ht => hS.top t (List.mem_append_left _ ht)) hs (isCompound_of_isOf hτ)
    have hfill : (fill (f :: z) t).Every (Proper b.madeUp) := hS.proper _ (by simp)
    rw [id_top] at hR ⊢
    have hτ' : τ.isOf t.kind t.children.length = true := by simpa [Layout.top, kind] using hτ
    have hn : (idsAll (A ++ fill (f :: z) t :: B)).Nodup := by
      have := h.lays.nodup
      rw [idsAll_cons, ids_node, List.cons_append, List.nodup_cons, List.nodup_append] at this
      exact this.2.1
    rw [main_eq, List.cons_append] at h
    refine (does_giveUp h hfill.of_fill hτ' strategy).bind fun _ g' hg' => .pure ?_
    obtain ⟨u, rs, m, J₀, hex, hu, hids, h'⟩ := hg'
    refine ⟨by simp, A ++ fill (f :: z) u :: B, W ++ rs, m, ⟨J₀ ++ junk, ?_⟩, ?_, ?_⟩
    · rw [main_eq, List.map_append, List.cons_append]
      exact ⟨h'.lays.perm ((perm_waiting ..).cons _), h'.bare⟩
    · refine advances_joined hex hu (by simpa using hS) ?_ fun hk => absurd hk (ne_alts_of_isOf hτ')
      exact isRule_frame_eq_false hfill (isCompound_of_isOf hτ') (ne_alts_of_isOf hτ')
    · refine hR.exchange hu hn (fun i hi => h.lays.mem_ids_iff.mpr hi) ?_
      refine h.lays.size_le_of_subset h'.lays fun y hy => ?_
      simp only [idsAll_cons, idsAll_append, List.mem_append, mem_ids_fill] at hy ⊢
      have := @hids y
      simp only [idsAll_append, List.mem_append] at this
      tauto
  · rename_i hroot
    refine .pure ⟨fun _ => rfl, J, W, b.madeUp, ⟨junk, h⟩, .refl .., fun j hj => hR.below j (by simp [hj]), ?_, ?_⟩
    · exact fun s hs hs' => hR.sort s hs (by simp [hs'])
    · intro s hs hτ
      rcases List.mem_cons.mp (hR.all s hs hτ) with he | he
      · rw [htop, ← he, ← map_id_spotsAll (some Grammar.root)] at hroot
        exact absurd (List.mem_map_of_mem hs) hroot
      · exact he

theorem does_anyOf_giveUp {R : List NodeId} (h : Holds rootLabel b J W g)
    (hS : Stock.Sound ⟨J ++ W, b.madeUp⟩) (hR : Remaining τ R J g) :
    Does (anyOf (giveUpBelowRoot strategy τ) R) g fun c g' => (c = false → g' = g) ∧ ∃ J' W' m',
      Holds rootLabel { b with madeUp := m' } J' W' g' ∧
      Advances (strategy == .spec && τ == .star) J W b.madeUp J' W' m' ∧ Remaining τ [] J' g' := by
  induction R generalizing g J W b with
  | nil => exact .pure ⟨fun _ => rfl, J, W, b.madeUp, h, .refl .., hR⟩
  | cons i R ih =>
    refine (does_giveUpBelowRoot h hS hR).bind fun c g₁ ⟨hc, J₁, W₁, m₁, h₁, ha₁, hR₁⟩ => ?_
    have hS₁ := sound_of_steps ha₁.steps hS
    refine (ih h₁ hS₁ hR₁).bind fun d g₂ ⟨hd, J₂, W₂, m₂, h₂, ha₂, hR₂⟩ => .pure ?_
    refine ⟨fun hcd => ?_, J₂, W₂, m₂, h₂, ha₁.trans ha₂, hR₂⟩
    rw [Bool.or_eq_false_iff] at hcd
    rw [hd hcd.2, hc hcd.1]

/-- Layouts join the root in order, and leave the start symbol as it is if there is one. -/
theorem laid_foldl_joinRule {junk : List Layout} (hs : b.start.isSome = true)
    (h : Laid b (node Grammar.root rootLabel J :: (W ++ junk)) g) :
    Laid b (node Grammar.root rootLabel (J ++ W) :: junk) ((W.map Layout.id).foldl Grammar.joinRule g) := by
  induction W generalizing g J with
  | nil => simpa using h
  | cons v W ih =>
    have hstart : (g.start <|> (g.node v.id).name) = g.start := by
      rw [← h.bare] at hs
      cases hg : g.start with
      | none => rw [show g.bare.start = g.start from rfl, hg] at hs; cases hs
      | some n => rfl
    have hjoin : Laid b (node Grammar.root rootLabel (J ++ [v]) :: (W ++ junk)) (g.joinRule v.id) := by
      rw [Grammar.joinRule, hstart]
      exact does_append (z := []) h
    simpa using ih hjoin

/-- The waiting rules join the root in order. -/
theorem holds_joinWaiting (h : Holds rootLabel b J W g) (hs : b.start.isSome = true) :
    Holds rootLabel b (J ++ W) [] g.joinWaiting := by
  have hwait := h.waiting_eq
  obtain ⟨junk, h⟩ := h
  rw [Grammar.joinWaiting, hwait]
  refine ⟨junk, laid_foldl_joinRule hs ⟨⟨h.lays.cells, h.lays.nodup⟩, ?_⟩⟩
  exact congrArg (fun b : Grammar => { b with waiting := [] }) h.bare

namespace Holds

theorem spot_eq (h : Holds rootLabel b J W g) {s : Spot} (hs : s ∈ spotsAll (some Grammar.root) J) :
    g.node s.id = s.node := by
  obtain ⟨junk, h⟩ := h
  refine h.lays.node_eq (mem_spotsAll.mpr ⟨_, List.mem_cons_self .., ?_⟩)
  rw [spots_node]
  exact List.mem_cons_of_mem _ hs

theorem nodesFrom_eq (h : Holds rootLabel b J W g) (ht : t ∈ J) : g.nodesFrom t.id = t.ids := by
  obtain ⟨junk, h⟩ := h
  obtain ⟨A, B, rfl⟩ := List.append_of_mem ht
  exact h.lays.nodesFrom_eq (z := [⟨Grammar.root, rootLabel, A, B⟩]) (List.mem_cons_self ..)

theorem kind_root (h : Holds rootLabel b J W g) : g.kind Grammar.root = rootLabel.kind := by
  obtain ⟨junk, h⟩ := h
  exact congrArg Label.kind (h.toLabel_eq (z := []) (c := J) (List.mem_cons_self ..))

theorem kind_fill (h : Holds rootLabel b (A ++ fill z t :: B) W g) : g.kind t.id = t.kind := by
  obtain ⟨junk, h⟩ := h
  rw [main_eq] at h
  exact h.lays.kind_eq (Lays.spots_subset (List.mem_cons_self ..) (top_mem_spots _ t))

theorem children_fill (h : Holds rootLabel b (A ++ fill z t :: B) W g) :
    g.children t.id = t.children.map Layout.id := by
  obtain ⟨junk, h⟩ := h
  rw [main_eq] at h
  cases t
  exact h.kids_eq (List.mem_cons_self ..)

theorem parent_fill (h : Holds rootLabel b (A ++ fill z t :: B) W g) :
    g.parent t.id = parentOf (z ++ [⟨Grammar.root, rootLabel, A, B⟩]) := by
  obtain ⟨junk, h⟩ := h
  rw [main_eq] at h
  exact h.lays.parent_eq (Lays.spots_subset (List.mem_cons_self ..) (top_mem_spots _ t))

theorem parent_cases (h : Holds rootLabel b (A ++ fill z t :: B) W g) :
    (z = [] ∧ g.parent t.id = some Grammar.root) ∨
      ∃ f us, z = f :: us ∧ g.parent t.id = some f.id ∧ g.kind f.id = f.label.kind := by
  rw [h.parent_fill]
  cases z with
  | nil => exact Or.inl ⟨rfl, rfl⟩
  | cons f us =>
    exact Or.inr ⟨f, us, rfl, rfl, h.kind_fill (z := us) (t := node f.id f.label (f.before ++ t :: f.after))⟩

theorem mem_belowRules (h : Holds rootLabel b J W g) {p : NodeId → Bool} :
    i ∈ belowRules g p ↔ (∃ t ∈ J, t.kind.isRule = true ∧ i ∈ t.ids) ∧ p i = true := by
  rw [belowRules, h.rules_eq, List.mem_filter, List.flatMap_map, List.mem_flatMap]
  simp only [List.mem_filter]
  constructor
  · rintro ⟨⟨t, ⟨ht, hr⟩, hi⟩, hp⟩
    exact ⟨⟨t, ht, hr, by rwa [h.nodesFrom_eq ht] at hi⟩, hp⟩
  · rintro ⟨⟨t, ht, hr, hi⟩, hp⟩
    exact ⟨⟨t, ⟨ht, hr⟩, by rwa [h.nodesFrom_eq ht]⟩, hp⟩

theorem idsAll_below (h : Holds rootLabel b J W g) (hi : i ∈ idsAll J) : i ≠ Grammar.root ∧ i < g.nodes.size := by
  obtain ⟨junk, h⟩ := h
  have hn := h.lays.nodup
  rw [idsAll_cons, ids_node, List.cons_append, List.nodup_cons] at hn
  refine ⟨?_, h.lays.mem_ids_iff.mp ?_⟩
  · rintro rfl
    exact hn.1 (List.mem_append_left _ hi)
  · rw [idsAll_cons, ids_node]
    exact List.mem_append_left _ (List.mem_cons_of_mem _ hi)

theorem nodup_belowRules (h : Holds rootLabel b J W g) (p : NodeId → Bool) : (belowRules g p).Nodup := by
  have hids : g.rules.flatMap g.nodesFrom = idsAll (J.filter (·.kind.isRule)) := by
    rw [h.rules_eq, List.flatMap_map]
    exact List.flatMap_congr fun t ht => h.nodesFrom_eq (List.mem_of_mem_filter ht)
  rw [belowRules, hids]
  obtain ⟨junk, h⟩ := h
  have hn := h.lays.nodup
  rw [idsAll_cons, ids_node, List.cons_append, List.nodup_cons] at hn
  exact (hn.2.of_append_left.sublist (List.filter_sublist.flatMap _)).filter _

theorem children_below (h : Holds rootLabel b J W g) (hi : i ∈ idsAll J) : ∀ c ∈ g.children i, c ∈ idsAll J := by
  intro c hc
  obtain ⟨v, hv, hiv⟩ := mem_idsAll.mp hi
  obtain ⟨A, B, rfl⟩ := List.append_of_mem hv
  obtain ⟨z, u, rfl, rfl⟩ := exists_fill_of_mem_ids hiv
  rw [h.children_fill] at hc
  obtain ⟨w, hw, rfl⟩ := List.mem_map.mp hc
  refine mem_idsAll.mpr ⟨_, hv, mem_ids_fill.mpr (Or.inl ?_)⟩
  obtain ⟨i, l, ts⟩ := u
  rw [ids_node]
  exact List.mem_cons_of_mem _ (mem_idsAll.mpr ⟨w, hw, id_mem_ids w⟩)

theorem joinWaiting_eq (h : Holds rootLabel b J [] g) : g.joinWaiting = g := by
  have hw : g.waiting = [] := h.waiting_eq
  rw [Grammar.joinWaiting, hw]
  cases g
  cases hw
  rfl

end Holds

/-- No node is a construct of the sort. -/
def Lacks (τ : Sugar) (l : Label) (ks : List Construct) : Prop :=
  τ.isOf l.kind ks.length = false

/-- What a walk finds of a sort is all that there is of it. -/
theorem remaining_belowRules (h : Holds rootLabel b J [] g) (hS : Stock.Sound ⟨J, m⟩) (τ : Sugar) :
    Remaining τ (belowRules g (τ.isAt g)) J g := by
  have hisAt {s : Spot} (hs : s ∈ spotsAll (some Grammar.root) J) :
      τ.isAt g s.id = τ.isOf s.label.kind s.kids.length := by
    have hnode := h.spot_eq hs
    rw [Sugar.isAt_eq, Grammar.kind, Grammar.children, hnode]
    simp [Spot.node]
  refine ⟨fun i hi => ?_, fun s hs hi => ?_, fun s hs hτ => ?_⟩
  · obtain ⟨⟨t, ht, -, hi⟩, -⟩ := h.mem_belowRules.mp hi
    exact h.idsAll_below (mem_idsAll.mpr ⟨t, ht, hi⟩)
  · rw [← hisAt hs]
    exact (h.mem_belowRules.mp hi).2
  · obtain ⟨t, ht, hst⟩ := mem_spotsAll.mp hs
    refine h.mem_belowRules.mpr ⟨⟨t, ht, ?_, id_mem_of_mem_spots hst⟩, by rwa [hisAt hs]⟩
    exact isRule_of_mem_spots (hS.proper t ht) (hS.top t ht) hst (isCompound_of_isOf hτ)

theorem does_giveUpAll (h : Holds rootLabel b J [] g) (hS : Stock.Sound ⟨J, b.madeUp⟩)
    (hstart : b.start.isSome = true) (strategy : Strategy) (τ : Sugar) :
    Does (giveUpAll strategy τ) g fun c g' => (c = false → g' = g) ∧ ∃ J' W' m',
      Holds rootLabel { b with madeUp := m' } (J' ++ W') [] g' ∧
      Advances (strategy == .spec && τ == .star) J [] b.madeUp J' W' m' ∧ ∀ t ∈ J', t.Every (Lacks τ) := by
  refine .get ?_
  refine (does_anyOf_giveUp h (by simpa using hS) (remaining_belowRules h hS τ)).bind fun c g₁ hg₁ => ?_
  obtain ⟨hc, J₁, W₁, m₁, h₁, ha, hR₁⟩ := hg₁
  refine Does.bind (Q := fun _ g' => g' = g₁.joinWaiting) rfl fun _ g₂ hg₂ => .pure ?_
  subst hg₂
  refine ⟨fun hcf => ?_, J₁, W₁, m₁, holds_joinWaiting h₁ hstart, ha, fun t ht => ?_⟩
  · rw [hc hcf, h.joinWaiting_eq]
  · refine every_of_spots (q := some Grammar.root) fun s hs => ?_
    rw [Lacks, ← Bool.not_eq_true]
    intro hτ
    rw [Spot.kidKinds, List.length_map] at hτ
    exact absurd (hR₁.all s (mem_spotsAll.mpr ⟨t, ht, hs⟩) hτ) List.not_mem_nil

end Simplify

end Ixml
