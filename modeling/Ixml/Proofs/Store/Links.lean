import Ixml.Proofs.Store.Lays

/-!
# Links between nodes

The two directions of the links in a store agree: a node is among the children of another exactly if that one is its
parent (`Lays.mem_children_iff`). The children of a node are therefore the nodes with that parent, in the order of the
text (`Lays.filter_nodesFrom_parent`).
-/

namespace Ixml

open Layout

theorem filter_mem_eq_of_sublist {α : Type} [DecidableEq α] {xs ys : List α} (h : xs.Sublist ys) (hn : ys.Nodup) :
    ys.filter (· ∈ xs) = xs := by
  have hsub : xs.Sublist (ys.filter (· ∈ xs)) := by
    have := h.filter (fun x => decide (x ∈ xs))
    rwa [List.filter_eq_self.mpr (by simp)] at this
  have hperm : xs.Perm (ys.filter (· ∈ xs)) := by
    refine (List.perm_ext_iff_of_nodup (h.nodup hn) (hn.filter _)).mpr fun x => ?_
    rw [List.mem_filter, decide_eq_true_eq]
    exact ⟨fun hx => ⟨h.mem hx, hx⟩, fun hx => hx.2⟩
  exact (hsub.eq_of_length hperm.length_eq).symm

namespace Layout

variable {z : List Frame} {t u : Layout} {ts : List Layout}

theorem ids_sublist_idsAll (h : t ∈ ts) : t.ids.Sublist (idsAll ts) :=
  List.sublist_flatten_of_mem (List.mem_map_of_mem h)

theorem ids_sublist_fill (z : List Frame) (t : Layout) : t.ids.Sublist (fill z t).ids := by
  induction z generalizing t with
  | nil => exact List.Sublist.refl _
  | cons f z ih =>
    refine List.Sublist.trans ?_ (ih _)
    rw [Frame.fill, ids_node]
    exact (ids_sublist_idsAll (by simp)).cons _

theorem map_id_sublist_idsAll (ts : List Layout) : (ts.map Layout.id).Sublist (idsAll ts) := by
  induction ts with
  | nil => exact List.Sublist.refl _
  | cons t ts ih =>
    obtain ⟨i, l, us⟩ := t
    rw [List.map_cons, idsAll_cons, ids_node, List.cons_append]
    exact (ih.trans (List.sublist_append_right ..)).cons_cons i

end Layout

namespace Lays

variable {g : Grammar} {F : List Layout} {t : Layout} {i c p : NodeId}

theorem node_of_size_le (hi : g.nodes.size ≤ i) : g.node i = { kind := .ixml } := by
  rw [Grammar.node, Array.getD_eq_getD_getElem?, Array.getElem?_eq_none hi, Option.getD_none]

theorem mem_children_iff (h : Lays g F) : c ∈ g.children p ↔ g.parent c = some p := by
  constructor
  · intro hc
    have hp : p < g.nodes.size := by
      by_contra hp
      rw [Grammar.children, node_of_size_le (Nat.le_of_not_lt hp)] at hc
      cases hc
    obtain ⟨z, u, hu, rfl⟩ := h.exists_fill hp
    rw [h.children_fill hu] at hc
    obtain ⟨v, hv, rfl⟩ := List.mem_map.mp hc
    obtain ⟨i, l, ts⟩ := u
    obtain ⟨bs, as, rfl⟩ := List.append_of_mem hv
    exact h.parent_fill (z := ⟨i, l, bs, as⟩ :: z) hu
  · intro hp
    have hc : c < g.nodes.size := by
      by_contra hc
      rw [Grammar.parent, node_of_size_le (Nat.le_of_not_lt hc)] at hp
      cases hp
    obtain ⟨z, u, hu, rfl⟩ := h.exists_fill hc
    rw [h.parent_fill hu] at hp
    cases z with
    | nil => cases hp
    | cons f z =>
      obtain rfl : f.id = p := Option.some.inj hp
      rw [fill_cons] at hu
      have := h.children_fill hu
      rw [id_node, children_node] at this
      rw [this, List.map_append, List.map_cons]
      simp

theorem parent_ne (h : Lays g F) (hp : g.parent c = some p) : p ≠ c := by
  have hc : c < g.nodes.size := by
    by_contra hc
    rw [Grammar.parent, node_of_size_le (Nat.le_of_not_lt hc)] at hp
    cases hp
  obtain ⟨z, u, hu, rfl⟩ := h.exists_fill hc
  rw [h.parent_fill hu] at hp
  cases z with
  | nil => cases hp
  | cons f z =>
    obtain rfl : f.id = p := Option.some.inj hp
    have hn := h.nodup_ids_fill (z := z) (fill_cons f z u ▸ hu)
    rw [ids_node, List.nodup_cons] at hn
    rintro he
    refine hn.1 ?_
    rw [he, idsAll_append, idsAll_cons, List.mem_append, List.mem_append]
    exact Or.inr (Or.inl (id_mem_ids u))

/-- In a store with a single layout every node is below the top. -/
theorem mem_nodesFrom_iff (h : Lays g [t]) : i ∈ g.nodesFrom t.id ↔ i < g.nodes.size := by
  rw [h.nodesFrom_eq (z := []) (List.mem_singleton_self t), ← h.mem_ids_iff, idsAll_cons, idsAll_nil, List.append_nil]

theorem nodup_nodesFrom (h : Lays g [t]) : (g.nodesFrom t.id).Nodup := by
  rw [h.nodesFrom_eq (z := []) (List.mem_singleton_self t)]
  exact h.nodup_ids_fill (z := []) (List.mem_singleton_self t)

/-- Among all nodes in the order of the text, those with a given parent are its children in their order. -/
theorem filter_nodesFrom_parent (h : Lays g [t]) (p : NodeId) :
    (g.nodesFrom t.id).filter (fun i => g.parent i = some p) = g.children p := by
  have hsub : (g.children p).Sublist (g.nodesFrom t.id) := by
    rw [h.nodesFrom_eq (z := []) (List.mem_singleton_self t)]
    by_cases hp : p < g.nodes.size
    · obtain ⟨z, u, hu, rfl⟩ := h.exists_fill hp
      rw [h.children_fill hu, ← List.mem_singleton.mp hu]
      obtain ⟨i, l, ts⟩ := u
      refine List.Sublist.trans ?_ (ids_sublist_fill z _)
      rw [children_node, ids_node]
      exact (map_id_sublist_idsAll ts).cons i
    · rw [Grammar.children, node_of_size_le (Nat.le_of_not_lt hp)]
      exact List.nil_sublist _
  rw [← filter_mem_eq_of_sublist hsub h.nodup_nodesFrom]
  exact List.filter_congr fun i _ => by simp only [h.mem_children_iff]

end Lays

end Ixml
