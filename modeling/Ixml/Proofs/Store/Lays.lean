import Ixml.Proofs.Store.Layout
import Mathlib.Data.List.Nodup
import Mathlib.Data.List.Count

/-!
# Stores and layouts

`Lays g F` says that the store of `g` holds exactly the nodes of the layouts `F`: what is cut off is a layout
of its own. Each primitive of a store then does to the layouts what its name says (`Lays.push`,
`Lays.append`, `Lays.detach`, `Lays.replace`, `Lays.addTree`), and the walks of a store are those of the
layouts (`Lays.nodesFrom_eq`, `Lays.tree_eq`, `Lays.topOf_eq`).
-/

namespace Ixml

open Layout

theorem Lays.length_ids_lt {i : NodeId} {l : Label} {ts : List Layout} {u : Layout} {fuel : Nat} (hu : u ∈ ts)
    (hlen : (node i l ts).ids.length ≤ fuel + 1) : u.ids.length ≤ fuel := by
  obtain ⟨bs, as, rfl⟩ := List.append_of_mem hu
  simp only [ids_node, idsAll_append, idsAll_cons, List.length_cons, List.length_append] at hlen
  omega

/-- The store has the nodes of a layout that stands below `q`. -/
def Stored (g : Grammar) (q : Option NodeId) (t : Layout) : Prop :=
  ∀ s ∈ spots q t, g.nodes[s.id]? = some s.node

namespace Stored

variable {g : Grammar} {q : Option NodeId} {t u : Layout}

theorem node_eq (h : Stored g q t) :
    g.node t.id = { t.label with parent := q, children := t.children.map Layout.id } := by
  have ht := h _ (top_mem_spots q t)
  rw [id_top, node_top] at ht
  rw [Grammar.node, Array.getD_eq_getD_getElem?, ht, Option.getD_some]

theorem toLabel_eq (h : Stored g q t) : (g.node t.id).toLabel = t.label := by
  rw [h.node_eq]

theorem children_eq (h : Stored g q t) : g.children t.id = t.children.map Layout.id := by
  rw [Grammar.children, h.node_eq]

theorem parent_eq (h : Stored g q t) : g.parent t.id = q := by
  rw [Grammar.parent, h.node_eq]

theorem child (h : Stored g q t) (hu : u ∈ t.children) : Stored g (some t.id) u := fun s hs =>
  h s (mem_spots.mpr (Or.inr ⟨u, hu, hs⟩))

theorem preorder_eq {fuel : Nat} (h : Stored g q t) (hlen : t.ids.length ≤ fuel) :
    g.preorder fuel t.id = t.ids := by
  induction fuel generalizing q t with
  | zero =>
    obtain ⟨i, l, ts⟩ := t
    simp at hlen
  | succ fuel ih =>
    obtain ⟨i, l, ts⟩ := t
    rw [Grammar.preorder, h.children_eq, id_node, ids_node, idsAll, List.flatMap_map]
    congr 1
    exact List.flatMap_congr fun u hu => ih (h.child hu) (Lays.length_ids_lt hu hlen)

theorem treeTo_eq {fuel : Nat} (h : Stored g q t) (hlen : t.ids.length ≤ fuel) : g.treeTo fuel t.id = t.erase := by
  induction fuel generalizing q t with
  | zero =>
    obtain ⟨i, l, ts⟩ := t
    simp at hlen
  | succ fuel ih =>
    obtain ⟨i, l, ts⟩ := t
    rw [Grammar.treeTo, h.children_eq, h.toLabel_eq, erase_node, children_node, List.map_map]
    congr 1
    exact List.map_congr_left fun u hu => ih (h.child hu) (Lays.length_ids_lt hu hlen)

end Stored

/-- The store holds exactly the nodes of some layouts. -/
structure Lays (g : Grammar) (F : List Layout) : Prop where
  cells : ∀ i n, (i, n) ∈ (spotsAll none F).map Spot.cell ↔ g.nodes[i]? = some n
  nodup : (idsAll F).Nodup

namespace Lays

variable {g g' : Grammar} {F F' : List Layout} {z : List Frame} {t u T : Layout} {ts us : List Layout}
  {i p : NodeId} {l : Label} {s : Spot}

theorem perm (h : Lays g F) (hp : F.Perm F') : Lays g F' where
  cells i n := by rw [← h.cells, ((spotsAll_perm none hp).map _).mem_iff]
  nodup := (idsAll_perm hp).nodup_iff.mp h.nodup

theorem swap (h : Lays g (t :: u :: F)) : Lays g (u :: t :: F) :=
  h.perm (.swap ..)

theorem getElem?_of_mem (h : Lays g F) (hs : s ∈ spotsAll none F) : g.nodes[s.id]? = some s.node :=
  (h.cells _ _).mp (List.mem_map_of_mem hs)

theorem mem_of_getElem? (h : Lays g F) {n : Node} (hn : g.nodes[i]? = some n) :
    ∃ s ∈ spotsAll none F, s.id = i ∧ s.node = n := by
  obtain ⟨s, hs, he⟩ := List.mem_map.mp ((h.cells _ _).mpr hn)
  exact ⟨s, hs, by simpa [Spot.cell] using he⟩

theorem mem_ids_iff (h : Lays g F) : i ∈ idsAll F ↔ i < g.nodes.size := by
  rw [← map_id_spotsAll none, List.mem_map]
  constructor
  · rintro ⟨s, hs, rfl⟩
    exact (Array.getElem?_eq_some_iff.mp (h.getElem?_of_mem hs)).choose
  · intro hi
    obtain ⟨s, hs, he, -⟩ := h.mem_of_getElem? (Array.getElem?_eq_getElem hi)
    exact ⟨s, hs, he⟩

theorem next_notMem (h : Lays g F) : g.next ∉ idsAll F := by
  simp [h.mem_ids_iff, Grammar.next]

theorem size_le_of_subset (h : Lays g F) (h' : Lays g' F') (hs : idsAll F ⊆ idsAll F') :
    g.nodes.size ≤ g'.nodes.size := by
  by_contra hlt
  exact Nat.lt_irrefl _ (h'.mem_ids_iff.mp (hs (h.mem_ids_iff.mpr (Nat.lt_of_not_ge hlt))))

/-- Where spots say what the store has at their addresses, the cells are those of the store at these addresses. -/
theorem mem_cells_iff {D : List Spot} {n : Node} (hD : ∀ s ∈ D, g.nodes[s.id]? = some s.node) :
    (i, n) ∈ D.map Spot.cell ↔ i ∈ D.map (·.id) ∧ g.nodes[i]? = some n := by
  constructor
  · intro hm
    obtain ⟨s, hs, he⟩ := List.mem_map.mp hm
    obtain ⟨rfl, rfl⟩ := Prod.mk.inj he
    exact ⟨List.mem_map_of_mem hs, hD s hs⟩
  · rintro ⟨hi, hn⟩
    obtain ⟨s, hs, rfl⟩ := List.mem_map.mp hi
    obtain rfl : s.node = n := Option.some.inj ((hD s hs).symm.trans hn)
    exact List.mem_map_of_mem hs

/-- A store changes with its layouts, if it changes at the spots `C` only, and these become the spots
`D`. -/
theorem update {C D K E : List Spot} (h : Lays g F) (hs : (spotsAll none F).Perm (C ++ K))
    (hs' : (spotsAll none F').Perm (D ++ E)) (hK : (E.map Spot.cell).Perm (K.map Spot.cell))
    (hid : (D.map (·.id)).Perm (C.map (·.id)))
    (hC : ∀ s ∈ D, g'.nodes[s.id]? = some s.node)
    (hn : ∀ i, i ∉ C.map (·.id) → g'.nodes[i]? = g.nodes[i]?) : Lays g' F' := by
  have hids : (C.map (·.id) ++ K.map (·.id)).Nodup := by
    rw [← List.map_append, ← (hs.map _).nodup_iff, map_id_spotsAll]
    exact h.nodup
  have hKid : (E.map (·.id)).Perm (K.map (·.id)) := by
    simpa [Spot.cell, Function.comp_def] using hK.map (·.1)
  constructor
  · intro i n
    -- what stays has other addresses than what changes
    have hstays : (i, n) ∈ K.map Spot.cell ↔ i ∉ C.map (·.id) ∧ g.nodes[i]? = some n := by
      have hold : ∀ s ∈ C ++ K, g.nodes[s.id]? = some s.node := fun s hm => h.getElem?_of_mem (hs.mem_iff.mpr hm)
      have hK := mem_cells_iff (i := i) (n := n) fun s hm => hold s (List.mem_append_right C hm)
      have hC := mem_cells_iff (i := i) (n := n) fun s hm => hold s (List.mem_append_left K hm)
      have hCK := h.cells i n
      rw [(hs.map _).mem_iff, List.map_append, List.mem_append] at hCK
      constructor
      · intro hm
        exact ⟨fun hi => (List.nodup_append.mp hids).2.2 i hi i (hK.mp hm).1 rfl, (hK.mp hm).2⟩
      · rintro ⟨hi, hg⟩
        exact (hCK.mpr hg).resolve_left fun hm => hi (hC.mp hm).1
    rw [(hs'.map _).mem_iff, List.map_append, List.mem_append, hK.mem_iff, hstays, mem_cells_iff hC, hid.mem_iff]
    by_cases hi : i ∈ C.map (·.id)
    · simp only [hi, true_and, not_true_eq_false, false_and, or_false]
    · simp only [hi, false_and, not_false_eq_true, true_and, false_or, hn i hi]
  · rw [← map_id_spotsAll none, (hs'.map _).nodup_iff, List.map_append, (hid.append hKid).nodup_iff]
    exact hids

/-! ### Primitives -/

theorem push (h : Lays g F) (l : Label) : Lays (g.push l) (node g.next l [] :: F) where
  cells i n := by
    have hold := h.cells i n
    simp only [spotsAll_cons, spots_node, spotsAll_nil, List.map_nil, List.cons_append, List.nil_append,
      List.map_cons, List.mem_cons, hold, Grammar.push, Array.getElem?_push]
    by_cases hi : i = g.nodes.size
    · subst hi
      simp only [Spot.cell, Spot.node, List.map_nil, Prod.mk.injEq, ↓reduceIte, Option.some.injEq,
        Array.getElem?_size, reduceCtorEq, or_false, Grammar.next, true_and]
      exact eq_comm
    · simp [Spot.cell, hi, Grammar.next]
  nodup := by
    simpa using ⟨h.next_notMem, h.nodup⟩

theorem spots_fill_cons_perm (z : List Frame) (t : Layout) (F : List Layout) :
    (spotsAll none (fill z t :: F)).Perm
      (top (parentOf z) t :: (spotsAll (some t.id) t.children ++ trailSpots z t.head ++ spotsAll none F)) := by
  rw [spotsAll_cons]
  refine ((spots_fill_perm z t).append_right _).trans ?_
  rw [spots_eq]
  simp

theorem getElem?_fill (h : Lays g (fill z t :: F)) :
    g.nodes[t.id]? = some { t.label with parent := parentOf z, children := t.children.map Layout.id } := by
  rw [← node_top, ← id_top (parentOf z)]
  exact h.getElem?_of_mem ((spots_fill_cons_perm z t F).mem_iff.mpr (by simp))

theorem modify_label (h : Lays g (fill z (node i l ts) :: F)) (f : Label → Label) :
    Lays (g.modify i fun n => { n with toLabel := f n.toLabel }) (fill z (node i (f l) ts) :: F) := by
  have hg := h.getElem?_fill
  refine h.update (C := [_]) (D := [_]) (spots_fill_cons_perm ..) (spots_fill_cons_perm ..) ?_ ?_ ?_ ?_
  · simp [map_cell_trailSpots z i (f l) l]
  · simp
  · rw [id_node] at hg
    simp [Grammar.modify, Array.getElem?_modify, hg]
  · intro j hj
    have : i ≠ j := by simpa [eq_comm] using hj
    simp [Grammar.modify, Array.getElem?_modify, this]

theorem append (h : Lays g (fill z (node p l us) :: T :: F)) :
    Lays (g.append p T.id) (fill z (node p l (us ++ [T])) :: F) := by
  have hp := h.getElem?_fill
  have hT := (h.swap (t := fill z (node p l us))).getElem?_fill (z := [])
  have hne : T.id ≠ p := fun he => by
    have := h.nodup
    rw [idsAll_cons, idsAll_cons, List.nodup_append] at this
    refine this.2.2 p (mem_ids_fill.mpr (by simp)) p ?_ rfl
    rw [List.mem_append, ← he]
    exact Or.inl (id_mem_ids T)
  refine h.update
    (C := [top (parentOf z) (node p l us), top none T])
    (D := [top (parentOf z) (node p l (us ++ [T])), top (some p) T])
    (K := spotsAll (some p) us ++ spotsAll (some T.id) T.children ++ trailSpots z (p, l) ++ spotsAll none F)
    ?_ ?_ (.refl _) ?_ ?_ ?_
  · refine (spots_fill_cons_perm ..).trans ?_
    classical
    rw [List.perm_iff_count]
    intro s
    simp only [spotsAll_cons, spots_eq none T, List.count_append, List.count_cons, List.count_nil, id_node,
      children_node, head_node]
    omega
  · refine (spots_fill_cons_perm ..).trans ?_
    classical
    rw [List.perm_iff_count]
    intro s
    simp only [spotsAll_append, spotsAll_cons, spotsAll_nil, spots_eq (some p) T, List.count_append,
      List.count_cons, List.count_nil, id_node, children_node, head_node]
    omega
  · simp
  · rw [id_node] at hp
    simp [Grammar.append, Grammar.setParent, Grammar.modify, Array.getElem?_modify, hne, hne.symm, hp, hT]
  · intro j hj
    have hj' : ¬j = p ∧ ¬j = T.id := by simpa using hj
    simp [Grammar.append, Grammar.setParent, Grammar.modify, Array.getElem?_modify, Ne.symm hj'.1,
      Ne.symm hj'.2]

theorem getElem?_frame {f : Frame} (h : Lays g (fill (f :: z) t :: F)) :
    g.nodes[f.id]? = some { f.label with
      parent := parentOf z, children := f.before.map Layout.id ++ t.id :: f.after.map Layout.id } := by
  simpa using h.getElem?_fill (z := z) (t := node f.id f.label (f.before ++ t :: f.after))

/-- The child at the end of a trail is not its parent, and occurs once. -/
theorem hole_fresh {f : Frame} (h : Lays g (fill (f :: z) t :: F)) :
    t.id ≠ f.id ∧ (∀ c ∈ f.before.map Layout.id, c ≠ t.id) ∧ ∀ c ∈ f.after.map Layout.id, c ≠ t.id := by
  have hn := h.nodup
  rw [idsAll_cons, List.nodup_append, fill_cons] at hn
  have hn := (ids_fill_perm z _).nodup_iff.mp hn.1
  rw [ids_node, idsAll_append, idsAll_cons, List.nodup_append] at hn
  obtain ⟨hn, -, -⟩ := hn
  rw [List.nodup_cons, List.nodup_append, List.nodup_append] at hn
  obtain ⟨hf, -, ⟨-, -, hafter⟩, hbefore⟩ := hn
  have mem : ∀ {ts : List Layout} {c}, c ∈ ts.map Layout.id → c ∈ idsAll ts := by
    intro ts c hc
    obtain ⟨v, hv, rfl⟩ := List.mem_map.mp hc
    exact mem_idsAll.mpr ⟨v, hv, id_mem_ids v⟩
  refine ⟨fun he => hf ?_, fun c hc he => ?_, fun c hc he => ?_⟩
  · rw [← he]
    simp [id_mem_ids]
  · exact hbefore c (mem hc) t.id (by simp [id_mem_ids]) he
  · exact hafter t.id (id_mem_ids t) c (mem hc) he.symm

/-- The spots beside the hole of a frame, above it and in further layouts. -/
def aside (f : Frame) (z : List Frame) (F : List Layout) : List Spot :=
  spotsAll (some f.id) f.before ++ spotsAll (some f.id) f.after ++ trailSpots z (f.id, f.label) ++ spotsAll none F

theorem spots_hole_perm (f : Frame) (z : List Frame) (t : Layout) (F : List Layout) :
    (spotsAll none (fill (f :: z) t :: F)).Perm
      ([top (parentOf z) (node f.id f.label (f.before ++ t :: f.after)), top (some f.id) t] ++
        (spotsAll (some t.id) t.children ++ aside f z F)) := by
  refine (spots_fill_cons_perm ..).trans ?_
  classical
  rw [List.perm_iff_count]
  intro s
  simp only [aside, top, trailSpots, Frame.spot, List.count_append, List.count_cons, List.count_nil, id_node,
    children_node, parentOf_cons, label_node, List.map_append, List.map_cons, List.cons_append]
  omega

/-- The frame, what is in its hole and a layout next to it, apart from the other spots. -/
theorem spots_hole_cons_perm (f : Frame) (z : List Frame) (t u : Layout) (F : List Layout) :
    (spotsAll none (fill (f :: z) t :: u :: F)).Perm
      ([top (parentOf z) (node f.id f.label (f.before ++ t :: f.after)), top (some f.id) t, top none u] ++
        (spotsAll (some t.id) t.children ++ spotsAll (some u.id) u.children ++ aside f z F)) := by
  refine (spots_hole_perm ..).trans ?_
  classical
  rw [List.perm_iff_count]
  intro s
  simp only [aside, spotsAll_cons, spots_eq none u, List.count_append, List.count_cons, List.count_nil]
  omega

theorem detach {f : Frame} (h : Lays g (fill (f :: z) T :: F)) :
    Lays (g.detach T.id) (T :: fill z (node f.id f.label (f.before ++ f.after)) :: F) := by
  have hT := h.getElem?_fill
  have hf := h.getElem?_frame
  obtain ⟨hne, hb, ha⟩ := h.hole_fresh
  have hparent : g.parent T.id = some f.id := by
    simp [Grammar.parent, Grammar.node, Array.getD_eq_getD_getElem?, hT]
  have hfilter : (f.before.map Layout.id ++ T.id :: f.after.map Layout.id).filter (· ≠ T.id) =
      f.before.map Layout.id ++ f.after.map Layout.id := by
    rw [List.filter_append, List.filter_cons_of_neg (by simp), List.filter_eq_self.mpr (by simpa using hb),
      List.filter_eq_self.mpr (by simpa using ha)]
  refine h.update (D := [top (parentOf z) (node f.id f.label (f.before ++ f.after)), top none T])
    (spots_hole_perm f z T F) ?_ (.refl _) ?_ ?_ ?_
  · refine (spots_fill_cons_perm (z := []) ..).trans ?_
    refine (((spots_fill_cons_perm ..).append_left _).cons _).trans ?_
    classical
    rw [List.perm_iff_count]
    intro s
    simp only [aside, spotsAll_append, trailSpots, parentOf_nil, List.count_append, List.count_cons, List.count_nil,
      id_node, children_node, head_node, List.cons_append]
    omega
  · simp
  · intro s hs
    simp only [List.mem_cons, List.not_mem_nil, or_false] at hs
    rcases hs with rfl | rfl
    · simpa [Grammar.detach, hparent, Grammar.setParent, Grammar.modify, Array.getElem?_modify, hne,
        hf] using hfilter
    · simp [Grammar.detach, hparent, Grammar.setParent, Grammar.modify, Array.getElem?_modify, hne.symm, hT]
  · intro j hj
    have hj' : ¬j = f.id ∧ ¬j = T.id := by simpa using hj
    simp [Grammar.detach, hparent, Grammar.setParent, Grammar.modify, Array.getElem?_modify, Ne.symm hj'.1,
      Ne.symm hj'.2]

theorem replace {f : Frame} (h : Lays g (fill (f :: z) t :: u :: F)) :
    Lays (g.replace t.id u.id) (fill (f :: z) u :: t :: F) := by
  have ht := h.getElem?_fill
  have hu := h.swap.getElem?_fill (z := [])
  have hf := h.getElem?_frame
  obtain ⟨hne, hb, ha⟩ := h.hole_fresh
  have hparent : g.parent t.id = some f.id := by
    simp [Grammar.parent, Grammar.node, Array.getD_eq_getD_getElem?, ht]
  have hnu : u.id ∉ (fill (f :: z) t).ids := fun hm => by
    have := h.nodup
    rw [idsAll_cons, idsAll_cons, List.nodup_append] at this
    exact this.2.2 _ hm _ (List.mem_append_left _ (id_mem_ids u)) rfl
  have hut : u.id ≠ t.id := fun he => hnu (mem_ids_fill.mpr (Or.inl (he ▸ id_mem_ids t)))
  have huf : u.id ≠ f.id := fun he =>
    hnu (mem_ids_fill.mpr (Or.inr (by simp [trailIds, trailSpots, Frame.spot, he])))
  have hmap : (f.before.map Layout.id ++ t.id :: f.after.map Layout.id).map
      (fun c => if c = t.id then u.id else c) = f.before.map Layout.id ++ u.id :: f.after.map Layout.id := by
    rw [List.map_append, List.map_cons, if_pos rfl]
    congr 1
    · exact (List.map_congr_left fun c hc => if_neg (hb c hc)).trans (List.map_id' _)
    · congr 1
      exact (List.map_congr_left fun c hc => if_neg (ha c hc)).trans (List.map_id' _)
  -- the frame has the new child, and the two trees change places; nothing else is touched
  refine h.update (spots_hole_cons_perm f z t u F) (spots_hole_cons_perm f z u t F) ?_ ?_ ?_ ?_
  · exact (List.perm_append_comm.append_right _).map _
  · exact .cons _ (.swap ..)
  · intro s hs
    simp only [List.mem_cons, List.not_mem_nil, or_false] at hs
    rcases hs with rfl | rfl | rfl
    · simpa [Grammar.replace, hparent, Grammar.setParent, Grammar.modify, Array.getElem?_modify, hne, huf,
        hf] using hmap
    · simp [Grammar.replace, hparent, Grammar.setParent, Grammar.modify, Array.getElem?_modify, hut.symm,
        huf.symm, hu]
    · simp [Grammar.replace, hparent, Grammar.setParent, Grammar.modify, Array.getElem?_modify, hne.symm,
        hut, ht]
  · intro j hj
    have hj' : ¬j = f.id ∧ ¬j = t.id ∧ ¬j = u.id := by simpa using hj
    simp [Grammar.replace, hparent, Grammar.setParent, Grammar.modify, Array.getElem?_modify, Ne.symm hj'.1,
      Ne.symm hj'.2.1, Ne.symm hj'.2.2]

mutual

/-- A tree that is added is a layout of its own, with the address that comes next. -/
theorem addTree {g : Grammar} {F : List Layout} (h : Lays g F) :
    ∀ t : Tree, ∃ T : Layout, T.erase = t ∧ T.id = g.next ∧ Lays (g.addTree t) (T :: F)
  | .node l ts => by
    obtain ⟨us, hus, hl⟩ := addChildren (h.push l) ts
    refine ⟨node g.next l us, by simp [hus], rfl, ?_⟩
    rw [Grammar.addTree]
    exact hl

/-- Trees that are added below the top of a layout come after its children. -/
theorem addChildren {g : Grammar} {F : List Layout} {p : NodeId} {l : Label} {us : List Layout}
    (h : Lays g (node p l us :: F)) :
    ∀ ts : List Tree, ∃ vs : List Layout, vs.map erase = ts ∧
      Lays (g.addChildren p ts) (node p l (us ++ vs) :: F)
  | [] => ⟨[], rfl, by rw [Grammar.addChildren]; simpa using h⟩
  | t :: ts => by
    obtain ⟨T, hT, hid, hl⟩ := addTree h t
    have hl := hl.swap.append (z := [])
    obtain ⟨vs, hvs, hl⟩ := addChildren hl ts
    refine ⟨T :: vs, by simp [hT, hvs], ?_⟩
    rw [Grammar.addChildren, ← hid]
    simpa using hl

end

/-! ### Walks -/

theorem node_eq (h : Lays g F) (hs : s ∈ spotsAll none F) : g.node s.id = s.node := by
  simp [Grammar.node, Array.getD_eq_getD_getElem?, h.getElem?_of_mem hs]

theorem kind_eq (h : Lays g F) (hs : s ∈ spotsAll none F) : g.kind s.id = s.label.kind := by
  rw [Grammar.kind, h.node_eq hs]
  rfl

theorem children_eq (h : Lays g F) (hs : s ∈ spotsAll none F) : g.children s.id = s.kids.map (·.1) := by
  rw [Grammar.children, h.node_eq hs]
  rfl

theorem parent_eq (h : Lays g F) (hs : s ∈ spotsAll none F) : g.parent s.id = s.parent := by
  rw [Grammar.parent, h.node_eq hs]
  rfl

theorem kids_eq (h : Lays g F) {q : Option NodeId} (ht : spots q (node i l ts) ⊆ spotsAll none F) :
    g.children i = ts.map Layout.id := by
  have hs := ht (top_mem_spots q (node i l ts))
  have := h.children_eq hs
  simpa [top, Function.comp_def, head] using this

theorem length_ids_le (h : Lays g F) {q : Option NodeId} (ht : spots q t ⊆ spotsAll none F)
    (hn : t.ids.Nodup) : t.ids.length ≤ g.nodes.size := by
  have hrange : t.ids ⊆ List.range g.nodes.size := fun i hi => by
    obtain ⟨s, hs, rfl⟩ := mem_spots_of_mem_ids q hi
    refine List.mem_range.mpr (h.mem_ids_iff.mp ?_)
    rw [← map_id_spotsAll none]
    exact List.mem_map_of_mem (ht hs)
  simpa using (List.subperm_of_subset hn hrange).length_le

theorem nodup_ids_fill (h : Lays g F) (ht : fill z t ∈ F) : t.ids.Nodup := by
  have := (List.nodup_flatMap.mp h.nodup).1 _ ht
  exact ((ids_fill_perm z t).nodup_iff.mp this).of_append_left

theorem spots_subset (ht : fill z t ∈ F) : spots (parentOf z) t ⊆ spotsAll none F := fun _ hs =>
  mem_spotsAll.mpr ⟨_, ht, mem_spots_fill.mpr (Or.inl hs)⟩

theorem exists_fill (h : Lays g F) (hi : i < g.nodes.size) : ∃ z u, fill z u ∈ F ∧ u.id = i := by
  obtain ⟨t, ht, hit⟩ := mem_idsAll.mp (h.mem_ids_iff.mpr hi)
  obtain ⟨z, u, rfl, rfl⟩ := exists_fill_of_mem_ids hit
  exact ⟨z, u, ht, rfl⟩

theorem children_fill (h : Lays g F) (ht : fill z t ∈ F) : g.children t.id = t.children.map Layout.id := by
  obtain ⟨i, l, ts⟩ := t
  exact h.kids_eq (spots_subset ht)

theorem parent_fill (h : Lays g F) (ht : fill z t ∈ F) : g.parent t.id = parentOf z :=
  h.parent_eq (spots_subset ht (top_mem_spots _ t))

theorem toLabel_fill (h : Lays g F) (ht : fill z t ∈ F) : (g.node t.id).toLabel = t.label := by
  rw [show g.node t.id = _ from h.node_eq (spots_subset ht (top_mem_spots _ t)), node_top]

theorem stored (h : Lays g F) (ht : fill z t ∈ F) : Stored g (parentOf z) t := fun _ hs =>
  h.getElem?_of_mem (spots_subset ht hs)

theorem nodesFrom_eq (h : Lays g F) (ht : fill z t ∈ F) : g.nodesFrom t.id = t.ids :=
  (h.stored ht).preorder_eq (h.length_ids_le (spots_subset ht) (h.nodup_ids_fill ht))

theorem tree_eq (h : Lays g F) (ht : fill z t ∈ F) : g.tree t.id = t.erase :=
  (h.stored ht).treeTo_eq (h.length_ids_le (spots_subset ht) (h.nodup_ids_fill ht))

theorem topWithin_eq (h : Lays g F) (z : List Frame) :
    ∀ (t : Layout) (fuel : Nat), fill z t ∈ F → z.length ≤ fuel → g.topWithin fuel t.id = (fill z t).id := by
  induction z with
  | nil =>
    intro t fuel ht _
    have hp : g.parent t.id = none := h.parent_fill ht
    cases fuel <;> simp [Grammar.topWithin, hp]
  | cons f z ih =>
    intro t fuel ht hlen
    obtain ⟨fuel, rfl⟩ : ∃ n, fuel = n + 1 := ⟨fuel - 1, by simp at hlen; omega⟩
    have hp : g.parent t.id = some f.id := h.parent_fill ht
    rw [Grammar.topWithin, hp]
    exact ih (.node f.id f.label (f.before ++ t :: f.after)) fuel ht (by simpa using hlen)

theorem length_le_trailIds (z : List Frame) : z.length ≤ (trailIds z).length := by
  induction z with
  | nil => simp
  | cons f z ih =>
    rw [trailIds, trailSpots, List.map_append, map_id_trailSpots z _ (0, default), ← trailIds]
    simp only [List.map_cons, List.length_append, List.length_cons]
    omega

/-- The topmost node above a node is the top of its layout. -/
theorem topOf_eq (h : Lays g F) (ht : fill z t ∈ F) : g.topOf t.id = (fill z t).id := by
  refine h.topWithin_eq z t _ ht ?_
  have hlen := (ids_fill_perm z t).length_eq
  have := h.length_ids_le (spots_subset (z := []) ht) (h.nodup_ids_fill (z := []) ht)
  rw [List.length_append] at hlen
  have := length_le_trailIds z
  rw [Grammar.depthBound]
  omega

/-- The walk up from a node ends where the layout begins that it belongs to. -/
theorem topOf_eq_iff (h : Lays g (t :: F)) (hi : i < g.nodes.size) : g.topOf i = t.id ↔ i ∈ t.ids := by
  constructor
  · intro htop
    obtain ⟨z, v, hu, rfl⟩ := h.exists_fill hi
    rw [h.topOf_eq hu] at htop
    rcases List.mem_cons.mp hu with he | hu
    · rw [← he]
      exact mem_ids_fill.mpr (.inl (id_mem_ids v))
    · have hn := h.nodup
      rw [idsAll_cons, List.nodup_append] at hn
      exact absurd rfl (hn.2.2 t.id (id_mem_ids t) t.id (mem_idsAll.mpr ⟨_, hu, htop ▸ id_mem_ids _⟩))
  · intro hiu
    obtain ⟨z, v, rfl, rfl⟩ := exists_fill_of_mem_ids hiu
    exact h.topOf_eq (List.mem_cons_self ..)

end Lays

end Ixml
