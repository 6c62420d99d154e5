import Ixml.Grammar.Text
import Ixml.Proofs.Store.Lays

/-!
# The text of a tree

What a grammar writes for a node depends on the tree below it alone, and on whether it is nested
(`Lays.render_eq`).
-/

namespace Ixml

namespace Tree

mutual

/-- A tree in grammar text. `nested` says whether it is below a node other than a rule. -/
def render (nested : Bool) : Tree → String
  | node l ts => Grammar.nodeText l nested (renderAll (!l.kind.isRule) ts)

def renderAll (nested : Bool) : List Tree → List String
  | [] => []
  | t :: ts => render nested t :: renderAll nested ts

end

variable {nested : Bool} {l : Label} {ts : List Tree}

@[simp] theorem renderAll_eq_map : renderAll nested ts = ts.map (render nested) := by
  induction ts with
  | nil => rfl
  | cons t ts ih => rw [renderAll, ih, List.map_cons]

@[simp] theorem render_node :
    (node l ts).render nested = Grammar.nodeText l nested (ts.map (render (!l.kind.isRule))) := by
  rw [render, renderAll_eq_map]

end Tree

open Layout

variable {g : Grammar} {F : List Layout} {z : List Frame} {t : Layout} {s : Spot} {p : NodeId}

theorem Lays.isNested_eq (h : Lays g F) (hs : s ∈ spotsAll none F) (hp : s.parent = some p) :
    g.isNested s.id = !(g.kind p).isRule := by
  rw [Grammar.isNested, h.parent_eq hs, hp]

theorem Lays.renderTo_eq (h : Lays g F) {q : Option NodeId} :
    ∀ (fuel : Nat) (t : Layout), spots q t ⊆ spotsAll none F → t.ids.length ≤ fuel →
      g.renderTo fuel t.id = t.erase.render (g.isNested t.id) := by
  intro fuel
  induction fuel generalizing q with
  | zero =>
    rintro ⟨i, l, ts⟩ _ hlen
    simp at hlen
  | succ fuel ih =>
    rintro ⟨i, l, ts⟩ ht hlen
    have hs := ht (top_mem_spots q (node i l ts))
    have hl : (g.node i).toLabel = l := by
      rw [show g.node i = _ from h.node_eq hs, node_top]
      rfl
    rw [id_node, Grammar.renderTo, h.kids_eq ht, hl, erase_node, Tree.render_node, List.map_map, List.map_map]
    congr 1
    refine List.map_congr_left fun u hu => ?_
    have husub : spots (some i) u ⊆ spotsAll none F := fun s hs => ht (mem_spots.mpr (Or.inr ⟨u, hu, hs⟩))
    have hnested : g.isNested u.id = !l.kind.isRule := by
      have hu := h.isNested_eq (husub (top_mem_spots (some i) u)) rfl
      rwa [show g.kind i = l.kind from h.kind_eq hs] at hu
    rw [Function.comp_apply, Function.comp_apply, ih u husub (length_ids_lt hu hlen), hnested]

theorem Lays.render_eq (h : Lays g F) (ht : fill z t ∈ F) : g.render t.id = t.erase.render (g.isNested t.id) :=
  h.renderTo_eq _ t (spots_subset ht) (h.length_ids_le (spots_subset ht) (h.nodup_ids_fill ht))

theorem Lays.isNested_fill (h : Lays g F) {f : Frame} (ht : fill (f :: z) t ∈ F) :
    g.isNested t.id = !f.label.kind.isRule := by
  have hnested := h.isNested_eq (spots_subset ht (top_mem_spots (some f.id) t)) rfl
  have hkind := h.kind_eq (spots_subset (z := z) (t := f.fill t) ht (top_mem_spots (parentOf z) (f.fill t)))
  rwa [show g.kind f.id = f.label.kind from hkind] at hnested

end Ixml
