import Ixml.Proofs.Store.Depth
import Ixml.Simplify.Edit
import Mathlib.Data.List.Forall2

/-!
# Copying what is below a node

A copy reads the store that it adds to. `Grown g k T` says what may happen to a store meanwhile: the nodes of `g` are
what they were, and behind them come those of the layout `T`, in the order of the text. New nodes leave what is below
the old ones as it was (`Grammar.Extends`), so that a copy has the tree of the original in whichever of these stores it
is made (`exists_grown_copyTo`), and where the original leads around no cycle, it is the whole of it
(`isFreshCopy_copy`).
-/

namespace Ixml

open Layout

namespace Grammar

/-- Every node of `g` is what it was. -/
def Extends (g k : Grammar) : Prop :=
  ∀ i < g.next, k.nodes[i]? = g.nodes[i]?

theorem getElem?_append_of_ne {g : Grammar} {p c i : NodeId} (hp : i ≠ p) (hc : i ≠ c) :
    (g.append p c).nodes[i]? = g.nodes[i]? := by
  simp [append, setParent, modify, Array.getElem?_modify, hp.symm, hc.symm]

theorem getElem?_append_parent {g : Grammar} {p c : NodeId} (hne : p ≠ c) :
    (g.append p c).nodes[p]? = g.nodes[p]?.map fun n => { n with children := n.children ++ [c] } := by
  simp [append, setParent, modify, Array.getElem?_modify, hne.symm]

theorem getElem?_append_child {g : Grammar} {p c : NodeId} (hne : p ≠ c) :
    (g.append p c).nodes[c]? = g.nodes[c]?.map fun n => { n with parent := some p } := by
  simp [append, setParent, modify, Array.getElem?_modify, hne]

theorem next_append (g : Grammar) (p c : NodeId) : (g.append p c).next = g.next := by
  simp [next, append, setParent, modify]

namespace Extends

variable {g h k : Grammar} {i : NodeId}

theorem refl (g : Grammar) : g.Extends g := fun _ _ => rfl

theorem next_le (h : g.Extends k) : g.next ≤ k.next := by
  by_contra hlt
  have hlt : k.nodes.size < g.nodes.size := Nat.lt_of_not_le hlt
  have hk := h k.nodes.size hlt
  rw [Array.getElem?_size, Array.getElem?_eq_getElem hlt] at hk
  cases hk

theorem trans (hg : g.Extends h) (hh : h.Extends k) : g.Extends k := fun i hi =>
  (hh i (Nat.lt_of_lt_of_le hi hg.next_le)).trans (hg i hi)

theorem node_eq (h : g.Extends k) (hi : i < g.next) : k.node i = g.node i := by
  rw [node, node, Array.getD_eq_getD_getElem?, Array.getD_eq_getD_getElem?, h i hi]

theorem children_eq (h : g.Extends k) (hi : i < g.next) : k.children i = g.children i := by
  rw [children, children, h.node_eq hi]

end Extends

/-- What new nodes leave as it is, and new children, a copy leaves as it is. -/
theorem copyTo_induction {P : Grammar → Prop} (hpush : ∀ k i, P k → P (k.push (k.node i).toLabel))
    (happend : ∀ k p c, P k → P (k.append p c)) {g : Grammar} (fuel : Nat) (i : NodeId) (h : P g) :
    P (g.copyTo fuel i) := by
  induction fuel generalizing g i with
  | zero => exact hpush g i h
  | succ fuel ih =>
    have hfold (p : NodeId) (cs : List NodeId) (k : Grammar) (hk : P k) :
        P (cs.foldl (fun k c => (k.copyTo fuel c).append p k.next) k) := by
      induction cs generalizing k with
      | nil => exact hk
      | cons c cs ihs => exact ihs _ (happend _ p k.next (ih c hk))
    exact hfold g.next (g.children i) _ (hpush g i h)

end Grammar

namespace Stored

variable {g k : Grammar} {q : Option NodeId} {i p : NodeId} {l : Label} {t T : Layout} {ts : List Layout}

theorem node (htop : g.nodes[i]? = some { l with parent := q, children := ts.map Layout.id })
    (hts : ∀ u ∈ ts, Stored g (some i) u) : Stored g q (.node i l ts) := by
  intro s hs
  rcases mem_spots.mp hs with rfl | ⟨u, hu, hs⟩
  · rw [id_top, node_top]
    exact htop
  · exact hts u hu s hs

theorem congr (h : Stored g q t) (hk : ∀ i ∈ t.ids, k.nodes[i]? = g.nodes[i]?) : Stored k q t := fun s hs =>
  (hk s.id (id_mem_of_mem_spots hs)).trans (h s hs)

/-- A layout that stands nowhere becomes the last child of a node outside of it. -/
theorem append (h : Stored g none T) (hn : T.ids.Nodup) (hp : p ∉ T.ids) : Stored (g.append p T.id) (some p) T := by
  obtain ⟨i, l, ts⟩ := T
  rw [ids_node, List.nodup_cons] at hn
  rw [ids_node, List.mem_cons, not_or] at hp
  refine .node ?_ fun u hu => (h.child hu).congr fun j hj => ?_
  · have htop := h _ (top_mem_spots none _)
    rw [id_top, node_top] at htop
    rw [id_node, Grammar.getElem?_append_child hp.1]
    exact congrArg _ htop
  · have hj : j ∈ idsAll ts := mem_idsAll.mpr ⟨u, hu, hj⟩
    refine Grammar.getElem?_append_of_ne (fun he => hp.2 (he ▸ hj)) fun he => hn.1 ?_
    rwa [← show j = i from he]

end Stored

/-- `k` is `g` with the nodes of a layout behind its own. -/
structure Grown (g k : Grammar) (T : Layout) : Prop where
  old : g.Extends k
  new : Stored k none T
  ids : T.ids = List.range' g.next T.ids.length
  next : k.next = g.next + T.ids.length
  rest : k = { g with nodes := k.nodes }

theorem grown_push (g : Grammar) (l : Label) : Grown g (g.push l) (node g.next l []) where
  old i hi := Array.getElem?_push_lt hi ▸ (Array.getElem?_eq_getElem hi).symm
  new := .node (by simp [Grammar.push, Grammar.next]) (by simp)
  ids := by simp
  next := by simp [Grammar.next, Grammar.push]
  rest := rfl

namespace Grown

variable {g h k m : Grammar} {T U : Layout} {F us : List Layout} {l : Label} {i : NodeId}

theorem mem_ids_iff (h : Grown g k T) : i ∈ T.ids ↔ g.next ≤ i ∧ i < k.next := by
  rw [h.ids, List.mem_range'_1, h.next]

theorem nodup_ids (h : Grown g k T) : T.ids.Nodup := by
  rw [h.ids]
  exact List.nodup_range'

theorem id_eq (h : Grown g k T) : T.id = g.next := by
  obtain ⟨i, l, ts⟩ := T
  have := h.ids
  rw [ids_node, List.length_cons, List.range'_succ] at this
  exact (List.cons.inj this).1

/-- A further layout becomes the last child of the first one. -/
theorem append (h : Grown g k (node g.next l us)) (hU : Grown k m U) :
    Grown g (m.append g.next U.id) (node g.next l (us ++ [U])) := by
  have hlt : g.next < k.next := (h.mem_ids_iff.mp (by simp)).2
  have hne : g.next ≠ U.id := hU.id_eq ▸ Nat.ne_of_lt hlt
  have hn := h.nodup_ids
  rw [ids_node, List.nodup_cons] at hn
  have hold {i : NodeId} (hi : i < k.next) (hi' : i ≠ g.next) : (m.append g.next U.id).nodes[i]? = k.nodes[i]? :=
    (Grammar.getElem?_append_of_ne hi' (hU.id_eq ▸ Nat.ne_of_lt hi)).trans (hU.old i hi)
  constructor
  case old => exact fun i hi => (hold (Nat.lt_trans hi hlt) (Nat.ne_of_lt hi)).trans (h.old i hi)
  case new =>
    refine .node ?_ fun u hu => ?_
    · have htop := h.new _ (top_mem_spots none _)
      rw [id_top, node_top, id_node] at htop
      rw [Grammar.getElem?_append_parent hne, hU.old _ hlt, htop]
      simp
    · rcases List.mem_append.mp hu with hu | hu
      · -- the children that were there before are out of reach
        refine (h.new.child hu).congr fun i hi => ?_
        have hi : i ∈ idsAll us := mem_idsAll.mpr ⟨u, hu, hi⟩
        exact hold (h.mem_ids_iff.mp (by simp [hi])).2 fun he => hn.1 (he ▸ hi)
      · rw [List.mem_singleton.mp hu]
        exact hU.new.append hU.nodup_ids fun hm => Nat.lt_irrefl _ (Nat.lt_of_lt_of_le hlt (hU.mem_ids_iff.mp hm).1)
  case ids =>
    have hi := h.ids
    have hi' := hU.ids
    have hk := h.next
    rw [ids_node, List.length_cons] at hi hk
    rw [ids_node, idsAll_append, idsAll_cons, idsAll_nil, List.append_nil, ← List.cons_append, hi, List.length_append,
      List.length_range', hi', List.length_range', hk, List.range'_append_1]
  case next =>
    rw [Grammar.next_append, hU.next, h.next, Nat.add_assoc]
    simp [Nat.add_right_comm]
  case rest =>
    rw [hU.rest, h.rest]
    rfl

/-- The layouts that a store held before are still there. -/
theorem lays (h : Grown g k T) (hl : Lays g F) : Lays k (T :: F) where
  cells i n := by
    have hold := hl.cells i n
    rw [spotsAll_cons, List.map_append, List.mem_append, hold]
    by_cases hi : i < g.next
    · have hnot : (i, n) ∉ (spots none T).map Spot.cell := fun hm => by
        obtain ⟨s, hs, he⟩ := List.mem_map.mp hm
        obtain rfl : s.id = i := congrArg (·.1) he
        exact Nat.lt_irrefl _ (Nat.lt_of_lt_of_le hi (h.mem_ids_iff.mp (id_mem_of_mem_spots hs)).1)
      rw [h.old i hi]
      simp [hnot]
    · rw [show g.nodes[i]? = none from Array.getElem?_eq_none (Nat.le_of_not_lt hi)]
      simp only [reduceCtorEq, or_false]
      constructor
      · intro hm
        obtain ⟨s, hs, he⟩ := List.mem_map.mp hm
        obtain ⟨rfl, rfl⟩ : s.id = i ∧ s.node = n := by simpa [Spot.cell] using he
        exact h.new s hs
      · intro hn
        have hlt : i < k.next := (Array.getElem?_eq_some_iff.mp hn).choose
        obtain ⟨s, hs, rfl⟩ := mem_spots_of_mem_ids none (h.mem_ids_iff.mpr ⟨Nat.le_of_not_lt hi, hlt⟩)
        rw [h.new s hs] at hn
        exact List.mem_map.mpr ⟨s, hs, by rw [Spot.cell, Option.some.inj hn]⟩
  nodup := by
    rw [idsAll_cons, List.nodup_append]
    refine ⟨h.nodup_ids, hl.nodup, fun i hi j hj he => ?_⟩
    exact Nat.lt_irrefl _ (Nat.lt_of_lt_of_le (hl.mem_ids_iff.mp (he ▸ hj)) (h.mem_ids_iff.mp hi).1)

theorem nodesFrom_eq (h : Grown g k T) : k.nodesFrom T.id = T.ids := by
  refine h.new.preorder_eq ?_
  rw [Grammar.depthBound, ← Grammar.next, h.next]
  exact Nat.le_add_left ..

/-- Copies of the nodes `cs` become the last children of a new node. -/
theorem exists_foldl {fuel : Nat} (hk : g.Extends h) (h' : Grown h k (node h.next l us)) (cs : List NodeId)
    (hcopy : ∀ k, g.Extends k → ∀ c ∈ cs, ∃ T, Grown k (k.copyTo fuel c) T ∧ T.erase = g.treeTo fuel c) :
    ∃ ts, ts.map erase = cs.map (g.treeTo fuel) ∧
      Grown h (cs.foldl (fun k c => (k.copyTo fuel c).append h.next k.next) k) (node h.next l (us ++ ts)) := by
  induction cs generalizing k us with
  | nil => exact ⟨[], rfl, by simpa using h'⟩
  | cons c cs ih =>
    obtain ⟨T, hT, he⟩ := hcopy k (hk.trans h'.old) c (List.mem_cons_self ..)
    have happ := h'.append hT
    rw [hT.id_eq] at happ
    obtain ⟨ts, hts, hgrown⟩ := ih happ fun k hk c hc => hcopy k hk c (List.mem_cons_of_mem _ hc)
    exact ⟨T :: ts, by simp [he, hts], by simpa using hgrown⟩

end Grown

/-- A copy has the tree that is below the node in the store where the copying began. -/
theorem exists_grown_copyTo {g h : Grammar} (hw : g.IsWhole) (fuel : Nat) (hh : g.Extends h) {o : NodeId}
    (ho : o < g.next) : ∃ T, Grown h (h.copyTo fuel o) T ∧ T.erase = g.treeTo fuel o := by
  induction fuel generalizing h o with
  | zero =>
    refine ⟨_, grown_push h _, ?_⟩
    rw [hh.node_eq ho]
    simp [Grammar.treeTo]
  | succ fuel ih =>
    obtain ⟨ts, hts, hgrown⟩ := (grown_push h (h.node o).toLabel).exists_foldl hh (g.children o)
      fun k hk c hc => ih hk (hw o c hc)
    rw [← hh.children_eq ho] at hgrown
    refine ⟨_, hgrown, ?_⟩
    rw [List.nil_append, erase_node, hts, hh.node_eq ho, Grammar.treeTo]

theorem Lays.copy {g : Grammar} {F : List Layout} {z : List Frame} {t : Layout} (h : Lays g F) (ht : fill z t ∈ F) :
    ∃ T, T.erase = t.erase ∧ Grown g (g.copy t.id) T := by
  have hlt : t.id < g.next := h.mem_ids_iff.mp (mem_idsAll.mpr ⟨_, ht, mem_ids_fill.mpr (.inl (id_mem_ids t))⟩)
  obtain ⟨T, hT, he⟩ := exists_grown_copyTo h.isWhole g.depthBound (.refl g) hlt
  exact ⟨T, he.trans (h.tree_eq ht), hT⟩

/-! ### What the copy is like -/

/-- What is below `c` in `k` is like what is below `o` in `g`: the labels and the order are the same. -/
inductive Grammar.IsLike (g k : Grammar) : NodeId → NodeId → Prop
  | node {o c : NodeId} (label : (k.node c).toLabel = (g.node o).toLabel)
      (children : List.Forall₂ (IsLike g k) (g.children o) (k.children c)) : IsLike g k o c

/-- `k` is `g` with a copy of `o` and of all below it, and the copy of `o` is `c`. -/
structure IsFreshCopy (g k : Grammar) (o c : NodeId) : Prop where
  like : g.IsLike k o c
  /-- The new nodes stand behind the old ones, each before its children, in the order of the text. -/
  addresses : k.nodesFrom c = List.range' g.next (g.nodesFrom o).length
  next : k.next = g.next + (g.nodesFrom o).length
  /-- The copy of `o` has no place. -/
  detached : k.parent c = none ∧ ∀ p, c ∉ k.children p
  /-- The links of the new nodes lead to new nodes, and back. -/
  linked : ∀ p, g.next ≤ p → ∀ i ∈ k.children p, i ∈ k.nodesFrom c ∧ k.parent i = some p
  /-- The old nodes are what they were. -/
  old : ∀ i < g.next, k.nodes[i]? = g.nodes[i]?
  rules : k.rules = g.rules
  /-- What belongs to the grammar as a whole is what it was. -/
  rest : k = { g with nodes := k.nodes }

theorem Grammar.DepthLe.length_preorder {g : Grammar} {fuel : Nat} {o : NodeId} (h : g.DepthLe fuel o) :
    (g.preorder fuel o).length = (g.treeTo fuel o).size := by
  induction fuel generalizing o with
  | zero => exact absurd h id
  | succ fuel ih =>
    have hsum (cs : List NodeId) (hcs : ∀ c ∈ cs, g.DepthLe fuel c) :
        (cs.flatMap (g.preorder fuel)).length = Tree.sizeForest (cs.map (g.treeTo fuel)) := by
      induction cs with
      | nil => rfl
      | cons c cs ihs =>
        obtain ⟨hc, hcs⟩ := List.forall_mem_cons.mp hcs
        rw [List.flatMap_cons, List.length_append, ih hc, ihs hcs, List.map_cons, Tree.sizeForest]
    rw [Grammar.preorder, List.length_cons, hsum _ h, Grammar.treeTo, Tree.size]

/-- A layout with the tree below a node is like what is below it. -/
theorem Stored.isLike {g k : Grammar} {q : Option NodeId} {T : Layout} {fuel : Nat} {o : NodeId} (h : Stored k q T)
    (hd : g.DepthLe fuel o) (he : T.erase = g.treeTo fuel o) : g.IsLike k o T.id := by
  induction fuel generalizing q T o with
  | zero => exact absurd hd id
  | succ fuel ih =>
    obtain ⟨i, l, ts⟩ := T
    rw [erase_node, Grammar.treeTo] at he
    obtain ⟨rfl, hts⟩ := Tree.node.inj he
    refine .node h.toLabel_eq ?_
    rw [h.children_eq, children_node, List.forall₂_map_right_iff]
    have hlen : (g.children o).length = ts.length := by simpa using (congrArg List.length hts).symm
    refine List.forall₂_iff_get.mpr ⟨hlen, fun n hn hn' => ?_⟩
    have hn_eq : (ts.get ⟨n, hn'⟩).erase = g.treeTo fuel ((g.children o).get ⟨n, hn⟩) := by
      simpa [hn, hn'] using congrArg (·[n]?) hts
    exact ih (h.child (List.get_mem ..)) (hd _ (List.get_mem ..)) hn_eq

namespace Grown

variable {g k : Grammar} {T : Layout}

/-- A layout that has been added is linked within itself only. -/
theorem linked (h : Grown g k T) {p i : NodeId} (hp : g.next ≤ p) (hi : i ∈ k.children p) :
    i ∈ T.ids ∧ k.parent i = some p := by
  by_cases hsize : p < k.next
  · obtain ⟨z, u, rfl, rfl⟩ := exists_fill_of_mem_ids (h.mem_ids_iff.mpr ⟨hp, hsize⟩)
    have hu : Stored k (parentOf z) u := fun s hs => h.new s (mem_spots_fill.mpr (.inl hs))
    rw [hu.children_eq] at hi
    obtain ⟨v, hv, rfl⟩ := List.mem_map.mp hi
    refine ⟨mem_ids_fill.mpr (.inl ?_), (hu.child hv).parent_eq⟩
    obtain ⟨j, l, us⟩ := u
    rw [ids_node]
    exact List.mem_cons_of_mem _ (mem_idsAll.mpr ⟨v, hv, id_mem_ids v⟩)
  · rw [Grammar.children, Lays.node_of_size_le (Nat.le_of_not_lt hsize)] at hi
    cases hi

theorem rules_eq (h : Grown g k T) (hw : g.IsWhole) (hroot : Grammar.root < g.next) : k.rules = g.rules := by
  rw [Grammar.rules, Grammar.rules, h.old.children_eq hroot]
  refine List.filter_congr fun i hi => ?_
  rw [Grammar.kind, Grammar.kind, h.old.node_eq (hw _ i hi)]

theorem isFreshCopy (h : Grown g k T) (hw : g.IsWhole) {o : NodeId} (ho : o < g.nodes.size) (hc : g.IsAcyclicBelow o)
    (he : T.erase = g.treeTo g.depthBound o) : IsFreshCopy g k o T.id := by
  have hd : g.DepthLe g.depthBound o := hw.depthLe ho hc
  have hlen : T.ids.length = (g.nodesFrom o).length := by
    rw [← size_erase, he, ← hd.length_preorder, Grammar.nodesFrom]
  have hparent := h.new.parent_eq
  constructor
  case like => exact h.new.isLike hd he
  case addresses => rw [h.nodesFrom_eq, h.ids, hlen]
  case next => rw [h.next, hlen]
  case detached =>
    refine ⟨hparent, fun p hm => ?_⟩
    by_cases hp : g.next ≤ p
    · have := (h.linked hp hm).2
      rw [hparent] at this
      cases this
    · -- an old node has old children only
      rw [h.old.children_eq (Nat.lt_of_not_le hp)] at hm
      exact Nat.lt_irrefl _ (h.id_eq ▸ hw p T.id hm)
  case linked =>
    intro p hp i hi
    rw [h.nodesFrom_eq]
    exact h.linked hp hi
  case old => exact h.old
  case rules => exact h.rules_eq hw (Nat.lt_of_le_of_lt (Nat.zero_le o) ho)
  case rest => exact h.rest

end Grown

/-- A copy is new throughout and like the original, and nothing else has changed. -/
theorem isFreshCopy_copy (g : Grammar) (o : NodeId) (hw : g.IsWhole) (ho : o < g.nodes.size)
    (hc : g.IsAcyclicBelow o) : IsFreshCopy g (Edit.copy o g).2 o (Edit.copy o g).1 := by
  obtain ⟨T, hT, he⟩ := exists_grown_copyTo hw g.depthBound (.refl g) ho
  have := hT.isFreshCopy hw ho hc he
  rwa [hT.id_eq] at this

/-- A body with two alternatives that share a factor. The factor has a link to a parent that has gone. -/
def Grammar.sharing : Grammar where
  nodes := #[
    { kind := .ixml, children := [1] },
    { kind := .rule .element none, name := some "s", parent := some 0, children := [2] },
    { kind := .alts, parent := some 1, children := [3, 4] },
    { kind := .alt, parent := some 2, children := [5, 6] },
    { kind := .alt, parent := some 2, children := [5] },
    { kind := .option, parent := some 9, children := [6] },
    { kind := .nonterminal none none, name := some "a", isOptional := true, parent := some 5 }]
  start := some "s"
  madeUp := 2
  waiting := [5]

-- what was shared is there once for each place
example : (Grammar.sharing.copy 2).nodesFrom 7 = [7, 8, 9, 10, 11, 12, 13, 14] := by decide

theorem isFreshCopy_copy_sharing : Grammar.sharing.IsWhole ∧ 2 < Grammar.sharing.nodes.size ∧
    Grammar.sharing.IsAcyclicBelow 2 ∧
    IsFreshCopy Grammar.sharing (Edit.copy 2 Grammar.sharing).2 2 (Edit.copy 2 Grammar.sharing).1 := by
  have hw : Grammar.sharing.IsWhole := Grammar.forall_children (by decide)
  have hc : Grammar.sharing.IsAcyclicBelow 2 := Grammar.isAcyclicBelow_of_lt (Grammar.forall_children (by decide)) 2
  exact ⟨hw, by decide, hc, isFreshCopy_copy Grammar.sharing 2 hw (by decide) hc⟩

end Ixml
