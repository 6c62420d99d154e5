import Ixml.Grammar.Basic

/-!
# Layouts

A `Layout` is a tree whose nodes carry their addresses. Its `spots` list every node together with its parent
and the nodes right below it, which is all that a store knows of it. A `trail` leads from a node up to the
top of its layout; `fill` puts a layout at the end of a trail, and by `spots_fill_perm` this changes nothing
outside, apart from what the nearest frame knows of its child.
-/

namespace Ixml

/-- A tree of labels with the addresses of its nodes. -/
inductive Layout
  | node (id : NodeId) (label : Label) (children : List Layout)

/-- A node of a layout: where it is, what it holds, and its neighbours. -/
structure Spot where
  id : NodeId
  label : Label
  parent : Option NodeId
  /-- The addresses and labels of the children, in order. -/
  kids : List (NodeId × Label)

namespace Spot

/-- The node as a store has it. -/
def node (s : Spot) : Node :=
  { s.label with parent := s.parent, children := s.kids.map (·.1) }

def cell (s : Spot) : NodeId × Node :=
  (s.id, s.node)

def kidKinds (s : Spot) : List Construct :=
  s.kids.map (·.2.kind)

end Spot

namespace Layout

/-- The address of the top. -/
def id : Layout → NodeId
  | node i _ _ => i

/-- The label of the top. -/
def label : Layout → Label
  | node _ l _ => l

/-- The layouts below the top. -/
def children : Layout → List Layout
  | node _ _ ts => ts

def kind (t : Layout) : Construct :=
  t.label.kind

/-- The address and the label of the top. -/
def head (t : Layout) : NodeId × Label :=
  (t.id, t.label)

@[simp] theorem id_node (i : NodeId) (l : Label) (ts : List Layout) : (node i l ts).id = i := rfl

@[simp] theorem label_node (i : NodeId) (l : Label) (ts : List Layout) : (node i l ts).label = l := rfl

@[simp] theorem children_node (i : NodeId) (l : Label) (ts : List Layout) :
    (node i l ts).children = ts := rfl

@[simp] theorem kind_node (i : NodeId) (l : Label) (ts : List Layout) : (node i l ts).kind = l.kind := rfl

@[simp] theorem head_node (i : NodeId) (l : Label) (ts : List Layout) : (node i l ts).head = (i, l) := rfl

/-- What holds of a layout as soon as it holds of its children holds of all layouts. -/
@[elab_as_elim, induction_eliminator] theorem ind {motive : Layout → Prop}
    (node : ∀ i l ts, (∀ t ∈ ts, motive t) → motive (.node i l ts)) (t : Layout) : motive t := by
  obtain ⟨i, l, ts⟩ := t
  refine node i l ts fun u hu => ?_
  have : sizeOf u < sizeOf ts := List.sizeOf_lt_of_mem hu
  exact ind node u
termination_by sizeOf t
decreasing_by
  simp only [Layout.node.sizeOf_spec]
  omega

mutual

/-- The tree without the addresses. -/
def erase : Layout → Tree
  | node _ l ts => .node l (eraseAll ts)

/-- The trees without the addresses. -/
def eraseAll : List Layout → List Tree
  | [] => []
  | t :: ts => erase t :: eraseAll ts

end

@[simp] theorem eraseAll_eq_map (ts : List Layout) : eraseAll ts = ts.map erase := by
  induction ts with
  | nil => rfl
  | cons t ts ih => simp [eraseAll, ih]

@[simp] theorem erase_node (i : NodeId) (l : Label) (ts : List Layout) :
    (node i l ts).erase = .node l (ts.map erase) := by
  simp [erase]

@[simp] theorem label_erase (t : Layout) : t.erase.label = t.label := by
  cases t
  simp [Tree.label]

mutual

/-- All nodes of a layout below `parent`, each before its children. -/
def spots (parent : Option NodeId) : Layout → List Spot
  | node i l ts => ⟨i, l, parent, ts.map head⟩ :: spotsAll (some i) ts

/-- All nodes of some layouts below `parent`. -/
def spotsAll (parent : Option NodeId) : List Layout → List Spot
  | [] => []
  | t :: ts => spots parent t ++ spotsAll parent ts

end

variable {p q : Option NodeId} {s : Spot} {t u : Layout} {ts us : List Layout}

@[simp] theorem spots_node (p : Option NodeId) (i : NodeId) (l : Label) (ts : List Layout) :
    spots p (node i l ts) = ⟨i, l, p, ts.map head⟩ :: spotsAll (some i) ts := by
  rw [spots]

@[simp] theorem spotsAll_nil (p : Option NodeId) : spotsAll p [] = [] := by
  rw [spotsAll]

@[simp] theorem spotsAll_cons (p : Option NodeId) (t : Layout) (ts : List Layout) :
    spotsAll p (t :: ts) = spots p t ++ spotsAll p ts := by
  rw [spotsAll]

@[simp] theorem spotsAll_append (p : Option NodeId) (ts us : List Layout) :
    spotsAll p (ts ++ us) = spotsAll p ts ++ spotsAll p us := by
  induction ts with
  | nil => simp
  | cons t ts ih => simp [ih]

theorem spotsAll_perm (p : Option NodeId) (h : ts.Perm us) : (spotsAll p ts).Perm (spotsAll p us) := by
  induction h with
  | nil => exact .refl _
  | cons t _ ih => simpa using ih.append_left _
  | swap t u ts => simpa using List.perm_append_comm_assoc ..
  | trans _ _ ih₁ ih₂ => exact ih₁.trans ih₂

theorem mem_spotsAll : s ∈ spotsAll p ts ↔ ∃ t ∈ ts, s ∈ spots p t := by
  induction ts with
  | nil => simp
  | cons t ts ih => simp [ih]

/-- The top of a layout as a spot. -/
def top (parent : Option NodeId) (t : Layout) : Spot :=
  ⟨t.id, t.label, parent, t.children.map head⟩

theorem spots_eq (p : Option NodeId) (t : Layout) : spots p t = top p t :: spotsAll (some t.id) t.children := by
  cases t
  simp [top]

@[simp] theorem node_top (p : Option NodeId) (t : Layout) :
    (top p t).node = { t.label with parent := p, children := t.children.map Layout.id } := by
  simp [top, Spot.node, Function.comp_def, head]

@[simp] theorem id_top (p : Option NodeId) (t : Layout) : (top p t).id = t.id := rfl

theorem top_mem_spots (p : Option NodeId) (t : Layout) : top p t ∈ spots p t := by
  simp [spots_eq]

theorem mem_spots : s ∈ spots p t ↔ s = top p t ∨ ∃ u ∈ t.children, s ∈ spots (some t.id) u := by
  rw [spots_eq, List.mem_cons, mem_spotsAll]

/-- The addresses of a layout. -/
def ids (t : Layout) : List NodeId :=
  (spots none t).map (·.id)

/-- The addresses of some layouts. -/
def idsAll (ts : List Layout) : List NodeId :=
  ts.flatMap ids

theorem map_spots (p q : Option NodeId) (t : Layout) :
    (spots p t).map (fun s => (s.id, s.label, s.kids)) =
      (spots q t).map fun s => (s.id, s.label, s.kids) := by
  simp [spots_eq, top]

theorem exists_mem_spots (q : Option NodeId) (h : s ∈ spots p t) :
    ∃ s' ∈ spots q t, s'.id = s.id ∧ s'.label = s.label ∧ s'.kids = s.kids := by
  have hm : (s.id, s.label, s.kids) ∈ (spots p t).map fun s => (s.id, s.label, s.kids) :=
    List.mem_map_of_mem h
  rw [map_spots p q] at hm
  obtain ⟨s', hs', he⟩ := List.mem_map.mp hm
  simp only [Prod.mk.injEq] at he
  exact ⟨s', hs', he⟩

@[simp] theorem map_id_spots_eq_ids (p : Option NodeId) (t : Layout) : (spots p t).map (·.id) = t.ids := by
  simp [ids, spots_eq, top]

@[simp] theorem map_id_spotsAll (p : Option NodeId) (ts : List Layout) :
    (spotsAll p ts).map (·.id) = idsAll ts := by
  induction ts with
  | nil => simp [idsAll]
  | cons t ts ih =>
    rw [spotsAll_cons, List.map_append, ih, map_id_spots_eq_ids]
    rfl

@[simp] theorem ids_node (i : NodeId) (l : Label) (ts : List Layout) : (node i l ts).ids = i :: idsAll ts := by
  simp [ids]

@[simp] theorem idsAll_nil : idsAll [] = [] := rfl

@[simp] theorem idsAll_cons (t : Layout) (ts : List Layout) : idsAll (t :: ts) = t.ids ++ idsAll ts := by
  simp [idsAll]

@[simp] theorem idsAll_append (ts us : List Layout) : idsAll (ts ++ us) = idsAll ts ++ idsAll us := by
  simp [idsAll]

theorem idsAll_perm (h : ts.Perm us) : (idsAll ts).Perm (idsAll us) :=
  h.flatMap_right _

mutual

theorem size_erase : ∀ t : Layout, t.erase.size = t.ids.length
  | node i l ts => by
    rw [erase_node, Tree.size, sizeForest_map_erase ts, ids_node, List.length_cons]

theorem sizeForest_map_erase : ∀ ts : List Layout, Tree.sizeForest (ts.map erase) = (idsAll ts).length
  | [] => rfl
  | t :: ts => by
    rw [List.map_cons, Tree.sizeForest, size_erase t, sizeForest_map_erase ts, idsAll_cons, List.length_append]

end

theorem id_mem_ids (t : Layout) : t.id ∈ t.ids := by
  cases t
  simp

theorem mem_idsAll {i : NodeId} : i ∈ idsAll ts ↔ ∃ t ∈ ts, i ∈ t.ids := by
  induction ts with
  | nil => simp
  | cons t ts ih => simp [ih]

theorem id_mem_of_mem_spots (h : s ∈ spots p t) : s.id ∈ t.ids := by
  rw [← map_id_spots_eq_ids p]
  exact List.mem_map_of_mem h

theorem mem_spots_of_mem_ids {i : NodeId} (p : Option NodeId) (h : i ∈ t.ids) :
    ∃ s ∈ spots p t, s.id = i := by
  rw [← map_id_spots_eq_ids p] at h
  exact List.mem_map.mp h

end Layout

open Layout

/-- A node on the way up, with what stands before and after the child that the way comes from. -/
structure Frame where
  id : NodeId
  label : Label
  before : List Layout
  after : List Layout

namespace Frame

/-- Put a layout between what stands before and after. -/
def fill (f : Frame) (t : Layout) : Layout :=
  .node f.id f.label (f.before ++ t :: f.after)

/-- What the node of the frame knows when its child has a given address and label. -/
def spot (f : Frame) (parent : Option NodeId) (hole : NodeId × Label) : Spot :=
  ⟨f.id, f.label, parent, f.before.map head ++ hole :: f.after.map head⟩

end Frame

/-- Put a layout at the end of a trail, which leads from inside out. -/
def fill : List Frame → Layout → Layout
  | [], t => t
  | f :: z, t => fill z (f.fill t)

/-- The address of the nearest node of a trail. -/
def parentOf (z : List Frame) : Option NodeId :=
  z.head?.map (·.id)

/-- The nodes of a trail and beside it, when a given address and label stand at its end. -/
def trailSpots : List Frame → NodeId × Label → List Spot
  | [], _ => []
  | f :: z, hole =>
    f.spot (parentOf z) hole :: (spotsAll (some f.id) f.before ++ spotsAll (some f.id) f.after) ++
      trailSpots z (f.id, f.label)

variable {z : List Frame} {f : Frame} {t u : Layout} {s : Spot}

@[simp] theorem fill_nil (t : Layout) : fill [] t = t := rfl

theorem fill_cons (f : Frame) (z : List Frame) (t : Layout) :
    fill (f :: z) t = fill z (.node f.id f.label (f.before ++ t :: f.after)) := rfl

@[simp] theorem parentOf_nil : parentOf [] = none := rfl

@[simp] theorem parentOf_cons (f : Frame) (z : List Frame) : parentOf (f :: z) = some f.id := rfl

theorem fill_append (z us : List Frame) (t : Layout) : fill (z ++ us) t = fill us (fill z t) := by
  induction z generalizing t with
  | nil => rfl
  | cons f z ih => simp [fill_cons, ih]

theorem spots_fill_perm (z : List Frame) (t : Layout) :
    (spots none (fill z t)).Perm (spots (parentOf z) t ++ trailSpots z t.head) := by
  induction z generalizing t with
  | nil => simp [trailSpots]
  | cons f z ih =>
    refine (ih (.node f.id f.label (f.before ++ t :: f.after))).trans ?_
    simp only [spots_node, spotsAll_append, spotsAll_cons, List.map_append, List.map_cons, head_node,
      trailSpots, parentOf_cons, Frame.spot, List.cons_append]
    -- both sides are the frame, the layout and the rest of the frame; only the order differs
    refine List.Perm.trans ?_ List.perm_middle.symm
    refine List.Perm.cons _ ?_
    rw [← List.append_assoc (spots _ t)]
    refine List.Perm.append_right _ ?_
    exact List.perm_append_comm_assoc ..

theorem mem_spots_fill : s ∈ spots none (fill z t) ↔ s ∈ spots (parentOf z) t ∨ s ∈ trailSpots z t.head := by
  rw [(spots_fill_perm z t).mem_iff, List.mem_append]

theorem map_cell_trailSpots (z : List Frame) (i : NodeId) (l l' : Label) :
    (trailSpots z (i, l)).map Spot.cell = (trailSpots z (i, l')).map Spot.cell := by
  cases z with
  | nil => rfl
  | cons f z => simp [trailSpots, Frame.spot, Spot.cell, Spot.node]

theorem map_id_trailSpots (z : List Frame) (h h' : NodeId × Label) :
    (trailSpots z h).map (·.id) = (trailSpots z h').map (·.id) := by
  cases z with
  | nil => rfl
  | cons f z => simp [trailSpots, Frame.spot]

/-- The addresses of a trail and beside it. -/
def trailIds (z : List Frame) : List NodeId :=
  (trailSpots z (0, default)).map (·.id)

theorem ids_fill_perm (z : List Frame) (t : Layout) : (fill z t).ids.Perm (t.ids ++ trailIds z) := by
  have := (spots_fill_perm z t).map (·.id)
  rwa [List.map_append, map_id_spots_eq_ids, map_id_spots_eq_ids, map_id_trailSpots _ _ (0, default)] at this

theorem mem_ids_fill {i : NodeId} : i ∈ (fill z t).ids ↔ i ∈ t.ids ∨ i ∈ trailIds z := by
  rw [(ids_fill_perm z t).mem_iff, List.mem_append]

/-- Every node is reached by a trail. -/
theorem Layout.exists_fill_of_mem_spots (us : List Frame) {t : Layout} (h : s ∈ spots (parentOf us) t) :
    ∃ z u, t = fill z u ∧ s = top (parentOf (z ++ us)) u := by
  induction t generalizing us with
  | node i l ts ih =>
    rw [mem_spots] at h
    rcases h with rfl | ⟨v, hv, hs⟩
    · exact ⟨[], _, rfl, rfl⟩
    · rw [children_node] at hv
      obtain ⟨bs, as, hts⟩ := List.append_of_mem hv
      obtain ⟨z, u, hfill, hu⟩ := ih v hv (⟨i, l, bs, as⟩ :: us) hs
      exact ⟨z ++ [⟨i, l, bs, as⟩], u, by simp [fill_append, fill_cons, hts, ← hfill], by simpa using hu⟩

theorem Layout.exists_fill_of_mem_ids {i : NodeId} (h : i ∈ t.ids) : ∃ z u, fill z u = t ∧ u.id = i := by
  obtain ⟨s, hs, rfl⟩ := mem_spots_of_mem_ids none h
  obtain ⟨z, u, rfl, rfl⟩ := exists_fill_of_mem_spots [] hs
  exact ⟨z, u, rfl, rfl⟩

end Ixml
