import Ixml.Proofs.Simplify.Round

/-!
# Leaves are kept

The leaves of a rule are its references, literals, insertions and sets. A step of simplification moves them between
rules, but what was a leaf of a rule is still found in a rule that is reached from its name through made-up references
(`Step.exists_hasLeaf`), and what is found there was a leaf of a rule before or is a made-up reference itself
(`Step.traced`). Rules of one name keep the same label (`Step.isUniform`).
-/

namespace Ixml

theorem Construct.isFlat_of_isRule {k : Construct} (h : k.isRule = true) : k.isFlat = false := by
  cases k <;> simp_all [isRule, isFlat]

namespace Tree

mutual

/-- The outermost references, literals, insertions and sets of a tree. What stands in a set does not count. -/
def leaves : Tree → List Tree
  | node l ts => if l.kind.isFlat then [node l ts] else leavesAll ts

def leavesAll : List Tree → List Tree
  | [] => []
  | t :: ts => leaves t ++ leavesAll ts

end

variable {l : Label} {ts : List Tree} {v : Tree}

theorem mem_leavesAll : v ∈ leavesAll ts ↔ ∃ t ∈ ts, v ∈ t.leaves := by
  induction ts with
  | nil => simp [leavesAll]
  | cons t ts ih => simp [leavesAll, ih]

theorem mem_leaves_of_isFlat (h : l.kind.isFlat = true) : v ∈ (node l ts).leaves ↔ v = node l ts := by
  rw [leaves, if_pos h, List.mem_singleton]

theorem mem_leaves_of_not_isFlat (h : l.kind.isFlat = false) : v ∈ (node l ts).leaves ↔ ∃ t ∈ ts, v ∈ t.leaves := by
  rw [leaves, h, if_neg Bool.false_ne_true, mem_leavesAll]

mutual

theorem Every.of_mem_leaves {P : Label → List Construct → Prop} {v : Tree} :
    ∀ {t : Tree}, t.Every P → v ∈ t.leaves → v.Every P
  | node l ts, h, hv => by
    rw [leaves] at hv
    split at hv
    · rwa [List.mem_singleton.mp hv]
    · exact EveryAll.of_mem_leavesAll h.2 hv

theorem EveryAll.of_mem_leavesAll {P : Label → List Construct → Prop} {v : Tree} :
    ∀ {ts : List Tree}, EveryAll P ts → v ∈ leavesAll ts → v.Every P
  | [], _, hv => absurd hv List.not_mem_nil
  | _ :: _, h, hv => (List.mem_append.mp hv).elim (Every.of_mem_leaves h.1) (EveryAll.of_mem_leavesAll h.2)

end

end Tree

namespace Layout

/-- The leaves of a layout. -/
def leaves (t : Layout) : List Tree :=
  t.erase.leaves

variable {i : NodeId} {l : Label} {ts : List Layout} {t u : Layout} {v : Tree}

theorem mem_leaves_of_isFlat (h : l.kind.isFlat = true) :
    v ∈ (node i l ts).leaves ↔ v = .node l (ts.map erase) := by
  rw [leaves, erase_node, Tree.mem_leaves_of_isFlat h]

@[simp] theorem mem_leaves_of_not_isFlat (h : l.kind.isFlat = false) :
    v ∈ (node i l ts).leaves ↔ ∃ t ∈ ts, v ∈ t.leaves := by
  rw [leaves, erase_node, Tree.mem_leaves_of_not_isFlat h]
  simp [leaves]

theorem Every.label_of_mem_leaves {P : Label → List Construct → Prop} (h : t.Every P) (hv : v ∈ t.leaves) :
    P v.label (v.children.map Tree.kind) := by
  obtain ⟨l, ts⟩ := v
  exact (Tree.every_node.mp (Tree.Every.of_mem_leaves h hv)).1

theorem leaves_of_erase_eq (h : u.erase = t.erase) : u.leaves = t.leaves := by
  rw [leaves, leaves, h]

end Layout

open Layout

namespace Simplify

variable {X n n' : String} {m m' : Nat} {l : Label} {ks : List Construct} {t u b : Layout} {rs : List Layout}
  {i : NodeId} {v : Tree} {f : Frame} {z : List Frame} {S S' S₀ : Stock}

/-! ### Leaves of an exchange -/

@[simp] theorem mem_leaves_plain {k : Construct} {ts : List Layout} (h : ¬k.isFlat) :
    v ∈ (plain k i ts).leaves ↔ ∃ t ∈ ts, v ∈ t.leaves :=
  mem_leaves_of_not_isFlat (by simpa using h)

@[simp] theorem mem_leaves_reference {o : Bool} :
    v ∈ (node i (referenceLabel X o) []).leaves ↔ v = .node (referenceLabel X o) [] :=
  mem_leaves_of_isFlat rfl

/-- The body of a new rule has the leaves of the construct that it stands for, and perhaps references to itself. -/
theorem Unfolds.mem_leaves (h : Unfolds X t b) :
    (v ∈ t.leaves → v ∈ b.leaves) ∧ (v ∈ b.leaves → v ∈ t.leaves ∨ v = .node (referenceLabel X false) []) := by
  have hcopy {f f' : Layout} (hf : f'.erase = f.erase) : f'.leaves = f.leaves := leaves_of_erase_eq hf
  cases h with
  | @group i l ts hl =>
    have hflat : l.kind.isFlat = false := by rw [hl]; rfl
    have hbody : v ∈ (node i { l with pragmas := [] } ts).leaves ↔ v ∈ (node i l ts).leaves := by
      rw [mem_leaves_of_not_isFlat hflat]
      exact mem_leaves_of_not_isFlat hflat
    exact ⟨hbody.mpr, fun hv => .inl (hbody.mp hv)⟩
  | starSepOption hl =>
    simp [hl, Construct.isFlat]
    tauto
  | starSepEmpty hl =>
    simp [hl, Construct.isFlat]
    tauto
  | plusSepStar hl hm hf =>
    simp [hl, hm, hcopy hf, Construct.isFlat]
    tauto
  | plusSepSelf hl hm hf =>
    simp [hl, hm, hcopy hf, Construct.isFlat]
    tauto
  | star hl =>
    simp [hl, Construct.isFlat]
    tauto
  | plus hl hf =>
    simp [hl, hcopy hf, Construct.isFlat]
    tauto
  | option hl =>
    simp [hl, Construct.isFlat]
    tauto

/-- A simpler construct has the same leaves, or is a reference to the rule that matches nothing in place of none. -/
theorem Rewrites.mem_leaves (h : Rewrites t u) : (v ∈ t.leaves → v ∈ u.leaves) ∧ (v ∈ u.leaves →
    v ∈ t.leaves ∨ v = .node (referenceLabel emptyRule false) [] ∧ u.label.nameText = emptyRule) := by
  cases h with
  | star hl =>
    simp [hl, Construct.isFlat]
    tauto
  | option hl hm hn =>
    simp [hl, Construct.isFlat]
    tauto
  | @group i r l ts hl hts =>
    have hnone : v ∉ (node i l ts).leaves := by
      rw [mem_leaves_of_not_isFlat (by rw [hl]; rfl)]
      rintro ⟨⟨j, k, us⟩, ht, hv⟩
      obtain ⟨hk, hus⟩ := hts _ ht
      rw [kind_node] at hk
      rw [children_node] at hus
      rw [mem_leaves_of_not_isFlat (by rw [hk]; rfl), hus] at hv
      simp at hv
    exact ⟨fun hv => absurd hv hnone, fun hv => .inr ⟨mem_leaves_reference.mp hv, rfl⟩⟩

/-- What an exchange brings in has the leaves of the construct, in its place or in a new rule, and otherwise only
references without pragmas to rules that are made up: to a new one, or to the one that matches nothing. -/
theorem Exchange.mem_leaves (h : Exchange m t u rs m') :
    (v ∈ t.leaves → v ∈ u.leaves ∨ ∃ r ∈ rs, r.kind.isRule = true ∧ v ∈ r.leaves) ∧
    (v ∈ u.leaves ∨ (∃ r ∈ rs, v ∈ r.leaves) → v ∈ t.leaves ∨ IsMade v.label.nameText ∧
      v.label.pragmas = [] ∧ ((∃ r ∈ rs, IsRuleNamed v.label.nameText r) ∨
        v.label.nameText = emptyRule ∧ u.label.nameText = emptyRule)) := by
  cases h with
  | @unfold X i r o ps b hX h =>
    have hbody : v ∈ (node r (hiddenLabel X o ps) [b]).leaves ↔ v ∈ b.leaves := by
      rw [mem_leaves_of_not_isFlat rfl]
      simp
    have hnamed : IsRuleNamed X (node r (hiddenLabel X o ps) [b]) := ⟨rfl, rfl⟩
    constructor
    · exact fun hv => .inr ⟨_, List.mem_singleton_self _, rfl, hbody.mpr (h.mem_leaves.1 hv)⟩
    · rintro (hv | ⟨r', hr', hv⟩)
      · rw [mem_leaves_reference.mp hv]
        exact .inr ⟨hX.isMade, rfl, .inl ⟨_, List.mem_singleton_self _, hnamed⟩⟩
      · rw [List.mem_singleton.mp hr', hbody] at hv
        rcases h.mem_leaves.2 hv with hv | rfl
        · exact .inl hv
        · exact .inr ⟨hX.isMade, rfl, .inl ⟨_, List.mem_singleton_self _, hnamed⟩⟩
  | rewrite h =>
    refine ⟨fun hv => .inl (h.mem_leaves.1 hv), ?_⟩
    rintro (hv | ⟨r, hr, -⟩)
    · rcases h.mem_leaves.2 hv with hv' | ⟨rfl, hu⟩
      · exact .inl hv'
      · exact .inr ⟨isMade_emptyRule, rfl, .inr ⟨rfl, hu⟩⟩
    · cases hr

theorem Exchange.isMember_eq_false (h : Exchange m t u rs m') : t.kind.isMember = false ∧ u.kind.isMember = false := by
  have hcompound {k : Construct} (hk : k.isCompound = true) : k.isMember = false := by
    cases k <;> simp_all [Construct.isCompound, Construct.isMember]
  refine ⟨hcompound h.isCompound, ?_⟩
  cases h with
  | unfold => rfl
  | rewrite h =>
    cases h with
    | star => rfl
    | group => rfl
    | @option i j l k hl hm hn =>
      rw [kind_node]
      cases hk : k.kind <;> simp_all [Construct.isNonterminal, Construct.isMember]

/-- A node above something else than a member of a set is neither a set nor a member of one. -/
theorem flat_eq_false_of_fits {k c : Construct} (h : k.fits ks = true) (hc : c ∈ ks) (hm : c.isMember = false) :
    k.isFlat = false ∧ k.isMember = false := by
  constructor
  · by_contra hf
    have := Construct.fits_flat (by simpa using hf) h c hc
    rw [hm] at this
    cases this
  · cases k <;> simp only [Construct.isMember] <;> cases ks <;> simp_all [Construct.fits]

/-- The leaves beside a trail. -/
def besides (z : List Frame) : List Tree :=
  z.flatMap fun f => (f.before ++ f.after).flatMap leaves

theorem mem_leaves_fill (h : (fill z t).Every (Proper m)) (ht : t.kind.isMember = false) :
    v ∈ (fill z t).leaves ↔ v ∈ besides z ∨ v ∈ t.leaves := by
  induction z generalizing t with
  | nil => simp [besides]
  | cons f z ih =>
    obtain ⟨hp, -⟩ := every_node.mp (Every.of_fill (z := z) h)
    have hmem : t ∈ f.before ++ t :: f.after := by simp
    obtain ⟨hflat, hmember⟩ := flat_eq_false_of_fits hp.fits (List.mem_map_of_mem hmem) ht
    have hnode : (f.fill t).kind.isMember = false := hmember
    rw [fill, ih h hnode, Frame.fill, mem_leaves_of_not_isFlat hflat]
    simp only [besides, List.flatMap_cons, List.mem_append, List.mem_flatMap, List.mem_cons, or_and_right, exists_or,
      exists_eq_left]
    grind

/-- An exchange leaves what is beside it. -/
theorem Exchange.mem_leaves_fill (h : Exchange m t u rs m') (ht : (fill z t).Every (Proper m))
    (hu : (fill z u).Every (Proper m')) : (∀ v, v ∈ (fill z t).leaves ↔ v ∈ besides z ∨ v ∈ t.leaves) ∧
      ∀ v, v ∈ (fill z u).leaves ↔ v ∈ besides z ∨ v ∈ u.leaves :=
  ⟨fun _ => Simplify.mem_leaves_fill ht h.isMember_eq_false.1, fun _ => Simplify.mem_leaves_fill hu h.isMember_eq_false.2⟩

/-! ### Leaves of rules -/

namespace Stock

/-- A rule of a given name has a leaf. -/
def HasLeaf (S : Stock) (n : String) (v : Tree) : Prop :=
  ∃ t ∈ S.tops, IsRuleNamed n t ∧ v ∈ t.leaves

/-- A rule of one name refers to another name, which is made up. -/
def Refers (S : Stock) (n n' : String) : Prop :=
  IsMade n' ∧ ∃ v, S.HasLeaf n v ∧ v.kind.isNonterminal = true ∧ v.label.nameText = n'

/-- A label names a made-up rule, and has no pragmas. -/
def HasMade (S : Stock) (l : Label) : Prop :=
  IsMade l.nameText ∧ (∃ r ∈ S.tops, IsRuleNamed l.nameText r) ∧ l.pragmas = []

/-- A name is reached from another through made-up references. -/
def Reaches (S : Stock) : String → String → Prop :=
  Relation.ReflTransGen S.Refers

end Stock

/-- The rule around a construct refers to the rule that comes to stand for it. -/
theorem Exchange.refers {A B : List Layout} (h : Exchange m t u rs m') (ht : (fill (f :: z) t).Every (Proper m))
    (hu : (fill (f :: z) u).Every (Proper m')) (hn : IsRuleNamed n (fill (f :: z) u)) {r : Layout} (hr : r ∈ rs) :
    Stock.Refers ⟨A ++ fill (f :: z) u :: B ++ rs, m'⟩ n r.label.nameText := by
  obtain ⟨-, hafter⟩ := h.mem_leaves_fill ht hu
  cases h with
  | @unfold X i j o ps b hX h =>
    rw [List.mem_singleton.mp hr]
    refine ⟨hX.isMade, .node (referenceLabel X o) [], ⟨_, by simp, hn, ?_⟩, rfl, rfl⟩
    exact (hafter _).mpr (.inr (mem_leaves_reference.mpr rfl))
  | rewrite => cases hr

/-- A leaf of a rule is found after a step in a rule that is reached from its name. -/
theorem Step.exists_hasLeaf (h : Step S S') (hS : S.Sound) (hv : S.HasLeaf n v) :
    ∃ n', S'.Reaches n n' ∧ S'.HasLeaf n' v := by
  have hS' := h.sound hS
  obtain ⟨w, hw, hn, hv⟩ := hv
  cases h with
  | @exchange A B f z t u rs m m' h hf hu =>
    have hmem : ∀ x ∈ A ++ fill (f :: z) u :: B, x ∈ A ++ fill (f :: z) u :: B ++ rs := fun x hx =>
      List.mem_append_left _ hx
    rcases mem_exchanged (w := fill (f :: z) u) hw with hw | rfl
    · exact ⟨n, .refl, w, hmem w hw, hn, hv⟩
    have hfilled := hmem (fill (f :: z) u) (by simp)
    have hnamed : IsRuleNamed n (fill (f :: z) u) := isRuleNamed_fill_iff.mp hn
    obtain ⟨hbefore, hafter⟩ := h.mem_leaves_fill (hS.proper (fill (f :: z) t) (by simp)) (hS'.proper _ hfilled)
    rcases (hbefore v).mp hv with hv | hv
    · exact ⟨n, .refl, _, hfilled, hnamed, (hafter v).mpr (.inl hv)⟩
    rcases h.mem_leaves.1 hv with hv | ⟨r, hr, hrule, hv⟩
    · exact ⟨n, .refl, _, hfilled, hnamed, (hafter v).mpr (.inr hv)⟩
    · refine ⟨r.label.nameText, .single ?_, r, List.mem_append_right _ hr, ⟨hrule, rfl⟩, hv⟩
      exact h.refers (hS.proper (fill (f :: z) t) (by simp)) (hS'.proper _ hfilled) hnamed hr
  | @split A B rs i b l k a as m hl hk hrs =>
    refine ⟨n, .refl, ?_⟩
    rcases mem_exchanged (w := node i l [a]) hw with hw | rfl
    · exact ⟨w, List.mem_append_left _ hw, hn, hv⟩
    have hflat : l.kind.isFlat = false := Construct.isFlat_of_isRule hl
    have hflat' : k.kind.isFlat = false := by rw [hk]; rfl
    simp only [mem_leaves_of_not_isFlat, hflat, hflat', List.mem_singleton, exists_eq_left] at hv
    obtain ⟨x, hx, hv⟩ := hv
    rcases List.mem_cons.mp hx with rfl | hx
    · exact ⟨node i l [x], by simp, hn, by simpa [hflat] using hv⟩
    · obtain ⟨r, hr, j, rfl⟩ := exists_of_forall₂ hrs.flip hx
      exact ⟨_, List.mem_append_right _ hr, ⟨hl, hn.2⟩, by simpa [hflat] using hv⟩
  | @shared T r a m hT => exact ⟨n, .refl, w, List.mem_append_left _ hw, hn, hv⟩

theorem Step.reaches (h : Step S S') (hS : S.Sound) (hn : S.Reaches n n') : S'.Reaches n n' := by
  induction hn with
  | refl => exact .refl
  | tail _ href ih =>
    obtain ⟨hmade, v, hv, hk, hname⟩ := href
    obtain ⟨n'', hreach, hv'⟩ := h.exists_hasLeaf hS hv
    exact ih.trans (hreach.tail ⟨hmade, v, hv', hk, hname⟩)

theorem Step.exists_isRuleNamed (h : Step S S') (hS : S.Sound) (hn : ∃ r ∈ S.tops, IsRuleNamed n r) :
    ∃ r ∈ S'.tops, IsRuleNamed n r := by
  obtain ⟨r, hr, hrule, hname⟩ := hn
  obtain ⟨r', hr', hl⟩ := List.mem_map.mp ((h.labels_prefix hS).subset (List.mem_map_of_mem hr))
  exact ⟨r', hr', by rw [kind, hl]; exact hrule, by rw [hl, hname]⟩

theorem exists_hasLeaf_of_steps (h : Relation.ReflTransGen Step S S') (hS : S.Sound) (hv : S.HasLeaf n v) :
    ∃ n', S'.Reaches n n' ∧ S'.HasLeaf n' v := by
  induction h with
  | refl => exact ⟨n, .refl, hv⟩
  | tail hsteps h ih =>
    have hsound := sound_of_steps hsteps hS
    obtain ⟨n', hn', hv⟩ := ih
    obtain ⟨n'', hn'', hv⟩ := h.exists_hasLeaf hsound hv
    exact ⟨n'', (h.reaches hsound hn').trans hn'', hv⟩

/-- Every rule but the one that matches nothing is reached from the name of a rule of `S₀`, and its leaves are leaves
of such a rule or references to made-up rules. -/
def Traced (S₀ S : Stock) : Prop :=
  ∀ t ∈ S.tops, t.kind.isRule = true → t.label.nameText ≠ emptyRule → ∃ n, (∃ t₀ ∈ S₀.tops, IsRuleNamed n t₀) ∧
    S.Reaches n t.label.nameText ∧ ∀ v ∈ t.leaves, S₀.HasLeaf n v ∨ S.HasMade v.label

theorem traced_self (S : Stock) : Traced S S := by
  intro t ht hr _
  exact ⟨t.label.nameText, ⟨t, ht, hr, rfl⟩, .refl, fun v hv => .inl ⟨t, ht, ⟨hr, rfl⟩, hv⟩⟩

/-- What an exchange brings in has the leaves of the construct, and references to made-up rules. -/
theorem Exchange.mem_leaves_or_hasMade {A B : List Layout} (h : Exchange m t u rs m')
    (hu : u.label.nameText = emptyRule → ∃ r ∈ A ++ fill (f :: z) u :: B, IsRuleNamed emptyRule r)
    (hv : v ∈ u.leaves ∨ ∃ r ∈ rs, v ∈ r.leaves) :
    v ∈ t.leaves ∨ Stock.HasMade ⟨A ++ fill (f :: z) u :: B ++ rs, m'⟩ v.label := by
  rcases h.mem_leaves.2 hv with ht | ⟨hmade, hps, ⟨r, hr, hrn⟩ | ⟨hve, hue⟩⟩
  · exact .inl ht
  · exact .inr ⟨hmade, ⟨r, List.mem_append_right _ hr, hrn⟩, hps⟩
  · obtain ⟨r, hr, hrn⟩ := hu hue
    exact .inr ⟨hmade, ⟨r, List.mem_append_left _ hr, hve ▸ hrn⟩, hps⟩

theorem Exchange.nameText_ne (h : Exchange m t u rs m') (hS : S.Sound) (ht : fill (f :: z) t ∈ S.tops)
    (hrule : (fill (f :: z) t).kind.isRule = true) : (fill (f :: z) t).label.nameText ≠ emptyRule := fun he => by
  obtain ⟨a, k, hc, hk⟩ := hS.empty (fill (f :: z) t) ht ⟨hrule, he⟩
  exact children_ne_of_isCompound h.isCompound hrule hk hc

theorem Step.traced (h : Step S S') (hS : S.Sound) (hT : Traced S₀ S) : Traced S₀ S' := by
  have hS' := h.sound hS
  -- what is not changed
  have hold {t : Layout} (ht : t ∈ S.tops) (hr : t.kind.isRule = true) (hne : t.label.nameText ≠ emptyRule) :
      ∃ n, (∃ t₀ ∈ S₀.tops, IsRuleNamed n t₀) ∧ S'.Reaches n t.label.nameText ∧
        ∀ v ∈ t.leaves, S₀.HasLeaf n v ∨ S'.HasMade v.label := by
    obtain ⟨n, hn, hreach, hv⟩ := hT t ht hr hne
    refine ⟨n, hn, h.reaches hS hreach, fun v hv' => (hv v hv').imp_right ?_⟩
    exact And.imp_right (And.imp_left (h.exists_isRuleNamed hS))
  intro w hw hr hne
  cases h with
  | @exchange A B f z t u rs m m' h hf hu =>
    -- the rule around the construct and the new rule come from the same rule of `S₀`
    rcases mem_exchanged_append (w := fill (f :: z) t) hw with hw | hw
    · exact hold hw hr hne
    have hold' : fill (f :: z) t ∈ A ++ fill (f :: z) t :: B := by simp
    have hfilled : fill (f :: z) u ∈ A ++ fill (f :: z) u :: B ++ rs := by simp
    have hproper := hS.proper _ hold'
    have hrule : (fill (f :: z) t).kind.isRule = true := isRule_fill hproper (hS.top _ hold') h.isCompound
    obtain ⟨n, hn, hreach, hv⟩ := hold hold' hrule (h.nameText_ne hS hold' hrule)
    rw [label_fill_cons f z t u] at hreach
    obtain ⟨hbefore, hafter⟩ := h.mem_leaves_fill hproper (hS'.proper _ hfilled)
    have hmore {v : Tree} (hv' : v ∈ u.leaves ∨ ∃ r ∈ rs, v ∈ r.leaves) :
        S₀.HasLeaf n v ∨ Stock.HasMade ⟨A ++ fill (f :: z) u :: B ++ rs, m'⟩ v.label := by
      rcases h.mem_leaves_or_hasMade hu hv' with ht | hmade
      · exact hv v ((hbefore v).mpr (.inr ht))
      · exact .inr hmade
    rcases hw with rfl | hrs
    · refine ⟨n, hn, hreach, fun v hv' => ?_⟩
      rcases (hafter v).mp hv' with hv' | hv'
      · exact hv v ((hbefore v).mpr (.inl hv'))
      · exact hmore (.inl hv')
    · refine ⟨n, hn, ?_, fun v hv' => hmore (.inr ⟨w, hrs, hv'⟩)⟩
      exact hreach.tail (h.refers hproper (hS'.proper _ hfilled) ⟨by rwa [← kind_fill_cons f z t], rfl⟩ hrs)
  | @split A B rs i b l k a as m hl hk hrs =>
    rcases mem_split hrs hw with hw | ⟨x, hx, j, k', rfl, hkind, hn, -⟩
    · exact hold hw hr hne
    · rw [label_node, hn] at hne ⊢
      obtain ⟨n, hn', hreach, hv⟩ := hold (t := node i l [node b k (a :: as)]) (by simp) hl hne
      refine ⟨n, hn', hreach, fun v hv' => hv v ?_⟩
      have hflat : l.kind.isFlat = false := Construct.isFlat_of_isRule hl
      have hflat' : k.kind.isFlat = false := by rw [hk]; rfl
      simp only [mem_leaves_of_not_isFlat, hkind, hflat, hflat', List.mem_singleton, exists_eq_left] at hv' ⊢
      exact ⟨x, hx, hv'⟩
  | @shared T r a m hT' =>
    rcases List.mem_append.mp hw with hw | hw
    · exact hold hw hr hne
    · rw [List.mem_singleton.mp hw] at hne
      exact absurd rfl hne

theorem traced_of_steps (h : Relation.ReflTransGen Step S S') (hS : S.Sound) : Traced S S' := by
  induction h with
  | refl => exact traced_self S
  | tail hsteps h ih => exact h.traced (sound_of_steps hsteps hS) ih

/-- Every leaf of a rule was a leaf of a rule from which that rule is reached, or refers to a made-up rule. -/
theorem exists_origin (h : Relation.ReflTransGen Step S S') (hS : S.Sound) (ht : t ∈ S'.tops)
    (hr : t.kind.isRule = true) (hv : v ∈ t.leaves) : ∃ n, (∃ t₀ ∈ S.tops, IsRuleNamed n t₀) ∧
      S'.Reaches n t.label.nameText ∧ (S.HasLeaf n v ∨ S'.HasMade v.label) := by
  have hne : t.label.nameText ≠ emptyRule := fun he => by
    obtain ⟨a, k, hc, hk⟩ := (sound_of_steps h hS).empty t ht ⟨hr, he⟩
    obtain ⟨i, l, ts⟩ := t
    obtain rfl : ts = [node a k []] := hc
    have hflat : l.kind.isFlat = false := Construct.isFlat_of_isRule hr
    rw [mem_leaves_of_not_isFlat hflat] at hv
    obtain ⟨u, hu, hv⟩ := hv
    rw [List.mem_singleton.mp hu, mem_leaves_of_not_isFlat (by rw [hk]; rfl)] at hv
    simp at hv
  obtain ⟨n, hn, hreach, hleaf⟩ := traced_of_steps h hS t ht hr hne
  exact ⟨n, hn, hreach, hleaf v hv⟩

/-! ### Labels of rules -/

/-- Rules of one name have the same label, apart from how the name is there. -/
def Stock.IsUniform (S : Stock) : Prop :=
  ∀ t ∈ S.tops, ∀ u ∈ S.tops, t.kind.isRule = true → u.kind.isRule = true →
    t.label.nameText = u.label.nameText → outlook t.label = outlook u.label

/-- After a step every rule says what a rule said before, but for one, whose name is made up and new. -/
theorem Step.exists_new (h : Step S S') (hS : S.Sound) : ∃ new : Option Label, ∀ v ∈ S'.tops,
    (∃ w ∈ S.tops, outlook v.label = outlook w.label) ∨ new = some v.label ∧ IsMade v.label.nameText ∧
      ∀ w ∈ S.tops, w.kind.isRule = true → w.label.nameText ≠ v.label.nameText := by
  obtain ⟨ls, he, hls⟩ := h.exists_labels hS
  have hmem {v : Layout} (hv : v ∈ S'.tops) : (∃ w ∈ S.tops, w.label = v.label) ∨ v.label ∈ ls := by
    have := List.mem_map_of_mem (f := label) hv
    rw [he, List.mem_append, List.mem_map] at this
    exact this
  rcases hls with hls | ⟨l, rfl, hmade, hnew⟩
  · refine ⟨none, fun v hv => .inl ?_⟩
    rcases hmem hv with ⟨w, hw, hl⟩ | hl
    · exact ⟨w, hw, by rw [hl]⟩
    · exact hls _ hl
  · refine ⟨some l, fun v hv => ?_⟩
    rcases hmem hv with ⟨w, hw, hl⟩ | hl
    · exact .inl ⟨w, hw, by rw [hl]⟩
    · rw [List.mem_singleton.mp hl]
      exact .inr ⟨rfl, hmade, hnew⟩

theorem Step.isUniform (h : Step S S') (hS : S.Sound) (hU : S.IsUniform) : S'.IsUniform := by
  obtain ⟨new, hnew⟩ := h.exists_new hS
  have hkind {l k : Label} (h : outlook l = outlook k) : l.kind = k.kind := congrArg (·.1.kind) h
  have hname {l k : Label} (h : outlook l = outlook k) : l.nameText = k.nameText := congrArg Prod.snd h
  intro t ht u hu htr hur hn
  -- a new name is the name of no rule before, so that two rules of one name are both old or both the new one
  rcases hnew t ht with ⟨v, hv, htv⟩ | ⟨hnt, -, ht⟩ <;> rcases hnew u hu with ⟨w, hw, huw⟩ | ⟨hnu, -, hu⟩
  · rw [htv, huw]
    refine hU v hv w hw ?_ ?_ ?_
    · rwa [kind, ← hkind htv]
    · rwa [kind, ← hkind huw]
    · rw [← hname htv, hn, hname huw]
  · exact absurd (by rw [← hname htv, hn]) (hu v hv (by rwa [kind, ← hkind htv]))
  · exact absurd (by rw [← hname huw, hn]) (ht w hw (by rwa [kind, ← hkind huw]))
  · rw [Option.some.inj (hnt.symm.trans hnu)]

theorem isUniform_of_steps (h : Relation.ReflTransGen Step S S') (hS : S.Sound) (hU : S.IsUniform) : S'.IsUniform := by
  induction h with
  | refl => exact hU
  | tail hsteps h ih => exact h.isUniform (sound_of_steps hsteps hS) ih

/-- A rule whose name is not made up has the label of a rule that was there before. -/
theorem exists_outlook_of_steps (h : Relation.ReflTransGen Step S S') (hS : S.Sound) (ht : t ∈ S'.tops)
    (hn : ¬IsMade t.label.nameText) : ∃ t₀ ∈ S.tops, outlook t.label = outlook t₀.label := by
  induction h generalizing t with
  | refl => exact ⟨t, ht, rfl⟩
  | tail hsteps h ih =>
    obtain ⟨new, hnew⟩ := h.exists_new (sound_of_steps hsteps hS)
    rcases hnew t ht with ⟨w, hw, htw⟩ | ⟨-, hmade, -⟩
    · obtain ⟨t₀, ht₀, hw⟩ := ih hw (by rwa [← show t.label.nameText = w.label.nameText from congrArg Prod.snd htw])
      exact ⟨t₀, ht₀, htw.trans hw⟩
    · exact absurd hmade hn

end Simplify

end Ixml
