import Ixml.Proofs.Grammar.Shape
import Ixml.Proofs.Store.Links
import Mathlib.Logic.Relation

/-!
# Arranged stores

A store is arranged if its links make trees of what is below the root and below the rules that wait: whichever way a
walk goes, down the lists of children or up the links to the parents, it meets the same nodes, and it comes to an end.
This is so as soon as the store holds a layout for each of them (`Lays.isArranged`).
-/

namespace Ixml

open Layout

namespace Grammar

/-- A node is `r`, or is reached from it through lists of children. -/
def Below (g : Grammar) (r i : NodeId) : Prop :=
  Relation.ReflTransGen (fun p c => c ∈ g.children p) r i

/-- The root and the rules that wait. -/
def tops (g : Grammar) : List NodeId :=
  root :: g.waiting

/-- The first child of a node is a factor. There is no other, but for the separator of a repetition. -/
def HasFactor (g : Grammar) (i : NodeId) : Prop :=
  ∃ f, (g.kind f).isFactor = true ∧ (g.children i = [f] ∨
    (g.kind i = .repeat0 ∨ g.kind i = .repeat1) ∧ ∃ s, g.kind s = .sep ∧ g.children i = [f, s])

/-- The links of a store make a tree of what is below the root and of what is below each rule that waits. -/
structure IsArranged (g : Grammar) : Prop where
  /-- The root and the rules that wait are children of no node. -/
  top : ∀ r ∈ g.tops, g.parent r = none ∧ ∀ p, r ∉ g.children p
  /-- Every other node occurs once, as a child of its parent. -/
  once : ∀ r ∈ g.tops, ∀ i, g.Below r i → i ≠ r →
    ∃ p, g.Below r p ∧ g.parent i = some p ∧ ∀ q, (g.children q).count i = if q = p then 1 else 0
  /-- No node is below two of them. -/
  apart : g.tops.Pairwise fun r s => ∀ i, g.Below r i → ¬g.Below s i
  acyclic : ∀ i, ¬Relation.TransGen (fun p c => c ∈ g.children p) i i
  /-- A walk down meets every node that there is. -/
  walk : ∀ r ∈ g.tops, ∀ i, i ∈ g.nodesFrom r ↔ g.Below r i
  /-- A walk up ends at the root from just the nodes that a walk down from the root meets. -/
  topOf : ∀ i, i ∈ g.nodesFrom root ↔ g.topOf i = root
  factor : ∀ r ∈ g.tops, ∀ i, g.Below r i → (g.kind i).hasFactor = true → g.HasFactor i

end Grammar

namespace Lays

variable {g : Grammar} {F T junk : List Layout} {t u : Layout} {z : List Frame} {i c p : NodeId}

theorem nodup_children (h : Lays g F) (p : NodeId) : (g.children p).Nodup := by
  by_cases hp : p < g.nodes.size
  · obtain ⟨z, ⟨i, l, ts⟩, hu, rfl⟩ := h.exists_fill hp
    have hn := h.nodup_ids_fill hu
    rw [h.children_fill hu]
    rw [ids_node, List.nodup_cons] at hn
    exact hn.2.sublist (map_id_sublist_idsAll ts)
  · rw [Grammar.children, node_of_size_le (Nat.le_of_not_lt hp)]
    exact List.nodup_nil

/-- A child stands once among the children of its parent, and nowhere else. -/
theorem count_children (h : Lays g F) (hp : g.parent c = some p) (q : NodeId) :
    (g.children q).count c = if q = p then 1 else 0 := by
  split
  · rename_i hq
    rw [hq]
    exact List.count_eq_one_of_mem (h.nodup_children p) (h.mem_children_iff.mpr hp)
  · rename_i hq
    refine List.count_eq_zero_of_not_mem fun hc => hq ?_
    have := h.mem_children_iff.mp hc
    rw [hp] at this
    exact (Option.some.inj this).symm

theorem below_fill (h : Lays g F) (z : List Frame) (hu : fill z u ∈ F) : g.Below (fill z u).id u.id := by
  induction z generalizing u with
  | nil => exact .refl
  | cons f z ih =>
    have hframe := ih (u := node f.id f.label (f.before ++ u :: f.after)) hu
    refine hframe.tail (h.mem_children_iff.mpr ?_)
    exact h.parent_fill (z := f :: z) hu

theorem below_iff (h : Lays g F) (ht : t ∈ F) : g.Below t.id i ↔ i ∈ t.ids := by
  constructor
  · intro hi
    induction hi with
    | refl => exact id_mem_ids t
    | tail _ hc ih =>
      obtain ⟨z, u, rfl, rfl⟩ := exists_fill_of_mem_ids ih
      rw [h.children_fill ht] at hc
      obtain ⟨v, hv, rfl⟩ := List.mem_map.mp hc
      obtain ⟨j, l, us⟩ := u
      refine mem_ids_fill.mpr (.inl ?_)
      rw [ids_node]
      exact List.mem_cons_of_mem _ (mem_idsAll.mpr ⟨v, hv, id_mem_ids v⟩)
  · intro hi
    obtain ⟨z, u, rfl, rfl⟩ := exists_fill_of_mem_ids hi
    exact h.below_fill z ht

/-- What is above a node lies on the trail that leads to it. -/
theorem mem_trailIds_of_above (h : Lays g F) (hc : Relation.TransGen (fun p c => c ∈ g.children p) p c) :
    ∀ z u, fill z u ∈ F → u.id = c → p ∈ trailIds z := by
  have hframe {c q : NodeId} (hc : c ∈ g.children q) {z : List Frame} {u : Layout} (hu : fill z u ∈ F)
      (hid : u.id = c) : ∃ f y, z = f :: y ∧ f.id = q := by
    subst hid
    have hq := h.mem_children_iff.mp hc
    rw [h.parent_fill hu] at hq
    cases z with
    | nil => cases hq
    | cons f y => exact ⟨f, y, rfl, Option.some.inj hq⟩
  -- the last step leaves the innermost frame, and what was before it is on the trail of that node
  induction hc with
  | single hc =>
    intro z u hu hid
    obtain ⟨f, y, rfl, rfl⟩ := hframe hc hu hid
    simp [trailIds, trailSpots, Frame.spot]
  | tail _ hc ih =>
    intro z u hu hid
    obtain ⟨f, y, rfl, rfl⟩ := hframe hc hu hid
    have hmem := ih y (node f.id f.label (f.before ++ u :: f.after)) hu rfl
    rw [trailIds, trailSpots, List.map_append, map_id_trailSpots y _ (0, default), ← trailIds]
    exact List.mem_append_right _ hmem

theorem acyclic (h : Lays g F) (i : NodeId) : ¬Relation.TransGen (fun p c => c ∈ g.children p) i i := by
  intro hi
  have hsize : i < g.nodes.size := by
    by_contra hsize
    obtain ⟨c, hc, -⟩ := Relation.TransGen.head'_iff.mp hi
    rw [Grammar.children, node_of_size_le (Nat.le_of_not_lt hsize)] at hc
    cases hc
  obtain ⟨z, u, hu, rfl⟩ := h.exists_fill hsize
  -- a node above itself would be on its own trail
  have hmem := h.mem_trailIds_of_above hi z u hu rfl
  have hn := (ids_fill_perm z u).nodup_iff.mp (h.nodup_ids_fill (z := []) hu)
  exact (List.nodup_append.mp hn).2.2 u.id (id_mem_ids u) u.id hmem rfl

theorem topOf_of_size_le (hi : g.nodes.size ≤ i) : g.topOf i = i := by
  have hp : g.parent i = none := by rw [Grammar.parent, node_of_size_le hi]
  rw [Grammar.topOf]
  cases g.depthBound <;> simp [Grammar.topWithin, hp]

theorem hasFactor_fill (h : Lays g F) (hu : fill z u ∈ F) (hfit : u.kind.fits (u.children.map kind) = true)
    (hk : u.kind.hasFactor = true) : g.HasFactor u.id := by
  have hkind : g.kind u.id = u.kind := congrArg Label.kind (h.toLabel_fill hu)
  have hkids : ∀ v ∈ u.children, g.kind v.id = v.kind := fun v hv => by
    obtain ⟨i, l, ts⟩ := u
    obtain ⟨bs, as, rfl⟩ := List.append_of_mem hv
    exact congrArg Label.kind (h.toLabel_fill (z := ⟨i, l, bs, as⟩ :: z) hu)
  have hchildren := h.children_fill hu
  obtain ⟨k, hf, hks | ⟨hrepeat, hks⟩⟩ := Construct.fits_hasFactor hk hfit
  · obtain ⟨v, hv, rfl⟩ := List.map_eq_singleton_iff.mp hks
    rw [hv] at hkids hchildren
    exact ⟨v.id, by rwa [hkids v (by simp)], .inl hchildren⟩
  · obtain ⟨v, us, hv, rfl, hus⟩ := List.map_eq_cons_iff.mp hks
    obtain ⟨s, rfl, hs⟩ := List.map_eq_singleton_iff.mp hus
    rw [hv] at hkids hchildren
    exact ⟨v.id, by rwa [hkids v (by simp)], .inr ⟨by rwa [hkind], s.id, by rw [hkids s (by simp), hs], hchildren⟩⟩

/-- Every node of a layout but its top occurs once, as a child of its parent. -/
theorem exists_parent (h : Lays g F) (ht : t ∈ F) (hi : g.Below t.id i) (hne : i ≠ t.id) :
    ∃ p, g.Below t.id p ∧ g.parent i = some p ∧ ∀ q, (g.children q).count i = if q = p then 1 else 0 := by
  obtain ⟨z, u, rfl, rfl⟩ := exists_fill_of_mem_ids ((h.below_iff ht).mp hi)
  cases z with
  | nil => exact absurd rfl hne
  | cons f z =>
    have hp : g.parent u.id = some f.id := h.parent_fill (z := f :: z) ht
    exact ⟨f.id, h.below_fill (u := node f.id f.label (f.before ++ u :: f.after)) z ht, hp, h.count_children hp⟩

/-- A walk up ends at the top of a layout from just the nodes of the layout. -/
theorem mem_ids_iff_topOf (h : Lays g F) (ht : t ∈ F) : i ∈ t.ids ↔ g.topOf i = t.id := by
  obtain ⟨bs, as, rfl⟩ := List.append_of_mem ht
  have h' : Lays g (t :: (bs ++ as)) := h.perm (by simp)
  by_cases hi : i < g.nodes.size
  · exact (h'.topOf_eq_iff hi).symm
  · -- an address without a node is its own top
    have hlt {j : NodeId} (hj : j ∈ t.ids) : j < g.nodes.size := h'.mem_ids_iff.mp (by simp [hj])
    rw [topOf_of_size_le (Nat.le_of_not_lt hi)]
    constructor
    · intro hit
      exact absurd (hlt hit) hi
    · rintro rfl
      exact absurd (hlt (id_mem_ids t)) hi

/-- No node is in two layouts. -/
theorem not_below_of_below (h : Lays g F) : F.Pairwise fun t u => ∀ i, g.Below t.id i → ¬g.Below u.id i := by
  refine (List.nodup_flatMap.mp h.nodup).2.imp_of_mem fun ht hu hdisjoint i hi hi' => ?_
  exact hdisjoint ((h.below_iff ht).mp hi) ((h.below_iff hu).mp hi')

/-- A store is arranged if it holds a layout for the root and one for each rule that waits, in which everything that has
a factor has the right children. -/
theorem isArranged (h : Lays g (T ++ junk)) (hT : T.map Layout.id = g.tops)
    (hfit : ∀ t ∈ T, t.Every fun l ks => l.kind.hasFactor = true → l.kind.fits ks = true) : g.IsArranged := by
  have hmem {t : Layout} (ht : t ∈ T) : t ∈ T ++ junk := List.mem_append_left _ ht
  have hlayout : ∀ r ∈ g.tops, ∃ t ∈ T, t.id = r := fun r hr => by
    rw [← hT] at hr
    exact List.mem_map.mp hr
  have hparent {t : Layout} (ht : t ∈ T) : g.parent t.id = none := h.parent_fill (z := []) (hmem ht)
  constructor
  case top =>
    intro r hr
    obtain ⟨t, ht, rfl⟩ := hlayout r hr
    refine ⟨hparent ht, fun p hp => ?_⟩
    have := h.mem_children_iff.mp hp
    rw [hparent ht] at this
    cases this
  case once =>
    intro r hr i hi hne
    obtain ⟨t, ht, rfl⟩ := hlayout r hr
    exact h.exists_parent (hmem ht) hi hne
  case apart =>
    rw [← hT, List.pairwise_map]
    exact h.not_below_of_below.sublist (List.sublist_append_left T junk)
  case acyclic => exact h.acyclic
  case walk =>
    intro r hr i
    obtain ⟨t, ht, rfl⟩ := hlayout r hr
    rw [h.below_iff (hmem ht), h.nodesFrom_eq (z := []) (hmem ht)]
  case topOf =>
    intro i
    obtain ⟨t, ht, htop⟩ := hlayout Grammar.root (List.mem_cons_self ..)
    rw [← htop, h.nodesFrom_eq (z := []) (t := t) (hmem ht)]
    exact h.mem_ids_iff_topOf (hmem ht)
  case factor =>
    intro r hr i hi hk
    obtain ⟨t, ht, rfl⟩ := hlayout r hr
    obtain ⟨z, u, rfl, rfl⟩ := exists_fill_of_mem_ids ((h.below_iff (hmem ht)).mp hi)
    have hkind : g.kind u.id = u.kind := congrArg Label.kind (h.toLabel_fill (hmem ht))
    rw [hkind] at hk
    exact h.hasFactor_fill (hmem ht) ((hfit _ ht).of_fill.label hk) hk

end Lays

end Ixml
