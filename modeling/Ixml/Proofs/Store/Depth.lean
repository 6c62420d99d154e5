import Ixml.Proofs.Store.Arranged

/-!
# How deep a walk goes

`DepthLe g n i` says that the lists of children lead from `i` through less than `n` further nodes. Where they lead
around no cycle, the number of nodes is such a bound (`Grammar.IsWhole.depthLe`), whatever the links to the parents are
and however often a node is listed: on the way down no node is met twice.
-/

namespace Ixml.Grammar

/-- Every child that is listed is a node. -/
def IsWhole (g : Grammar) : Prop :=
  ∀ p, ∀ c ∈ g.children p, c < g.nodes.size

/-- The lists of children below a node lead around no cycle. -/
def IsAcyclicBelow (g : Grammar) (r : NodeId) : Prop :=
  ∀ i, g.Below r i → ¬Relation.TransGen (fun p c => c ∈ g.children p) i i

/-- A walk down from a node meets at most `n` nodes on its way. -/
def DepthLe (g : Grammar) : Nat → NodeId → Prop
  | 0, _ => False
  | n + 1, i => ∀ c ∈ g.children i, g.DepthLe n c

variable {g : Grammar} {i r : NodeId} {n : Nat}

/-- What is to hold of every node and its children can be decided. -/
theorem forall_children {P : NodeId → NodeId → Prop} (h : ∀ p < g.nodes.size, ∀ c ∈ g.children p, P p c) :
    ∀ p, ∀ c ∈ g.children p, P p c := fun p c hc => by
  by_cases hp : p < g.nodes.size
  · exact h p hp c hc
  · rw [children, Lays.node_of_size_le (Nat.le_of_not_lt hp)] at hc
    cases hc

/-- There is no cycle where every child stands behind its parent. -/
theorem isAcyclicBelow_of_lt (h : ∀ p, ∀ c ∈ g.children p, p < c) (r : NodeId) : g.IsAcyclicBelow r := fun i _ hi => by
  have hlt : ∀ {j}, Relation.TransGen (fun p c => c ∈ g.children p) i j → i < j := fun hj => by
    induction hj with
    | single hc => exact h _ _ hc
    | tail _ hc ih => exact Nat.lt_trans ih (h _ _ hc)
  exact Nat.lt_irrefl i (hlt hi)

theorem DepthLe.succ (h : g.DepthLe n i) : g.DepthLe (n + 1) i := by
  induction n generalizing i with
  | zero => exact absurd h id
  | succ n ih => exact fun c hc => ih (h c hc)

theorem DepthLe.mono {m : Nat} (h : g.DepthLe n i) (hm : n ≤ m) : g.DepthLe m i := by
  induction hm with
  | refl => exact h
  | step _ ih => exact ih.succ

theorem IsAcyclicBelow.child {c : NodeId} (h : g.IsAcyclicBelow r) (hc : c ∈ g.children r) : g.IsAcyclicBelow c :=
  fun i hi => h i (hi.head hc)

/-- The nodes on the way to `i` are all different, so that those that a walk can still meet from there are no more than
there are other nodes. -/
theorem IsWhole.depthLe_of_path (hw : g.IsWhole) {path : List NodeId} (hc : g.IsAcyclicBelow i)
    (hnodup : (i :: path).Nodup) (hlt : ∀ a ∈ i :: path, a < g.nodes.size)
    (habove : ∀ a ∈ path, Relation.TransGen (fun p c => c ∈ g.children p) a i)
    (hcirc : ∀ a ∈ i :: path, ¬Relation.TransGen (fun p c => c ∈ g.children p) a a)
    (hn : g.nodes.size ≤ n + path.length) : g.DepthLe n i := by
  induction n generalizing i path with
  | zero =>
    have hrange : i :: path ⊆ List.range g.nodes.size := fun a ha => List.mem_range.mpr (hlt a ha)
    have := (List.subperm_of_subset hnodup hrange).length_le
    simp only [List.length_cons, List.length_range] at this
    omega
  | succ n ih =>
    intro c hci
    have habove' : ∀ a ∈ i :: path, Relation.TransGen (fun p c => c ∈ g.children p) a c :=
      List.forall_mem_cons.mpr ⟨.single hci, fun a ha => (habove a ha).tail hci⟩
    have hnew : c ∉ i :: path := fun hm => hcirc c hm (habove' c hm)
    exact ih (hc.child hci) (List.nodup_cons.mpr ⟨hnew, hnodup⟩) (List.forall_mem_cons.mpr ⟨hw i c hci, hlt⟩) habove'
      (List.forall_mem_cons.mpr ⟨hc.child hci c .refl, hcirc⟩) (by simp only [List.length_cons]; omega)

/-- The number of nodes bounds each walk down, if it meets no cycle. -/
theorem IsWhole.depthLe (hw : g.IsWhole) (hi : i < g.nodes.size) (hc : g.IsAcyclicBelow i) :
    g.DepthLe g.nodes.size i :=
  hw.depthLe_of_path hc (List.nodup_singleton i) (by simpa using hi) (by simp) (by simpa using hc i .refl) (by simp)

end Ixml.Grammar

namespace Ixml.Lays

variable {g : Grammar} {F : List Layout}

theorem isWhole (h : Lays g F) : g.IsWhole := fun p c hc => by
  by_contra hsize
  have hp := h.mem_children_iff.mp hc
  rw [Grammar.parent, node_of_size_le (Nat.le_of_not_lt hsize)] at hp
  cases hp

/-- Where there are no cycles anywhere, each walk down is bounded. -/
theorem depthLe (h : Lays g F) (hsize : 0 < g.nodes.size) (i : NodeId) : g.DepthLe g.nodes.size i := by
  by_cases hi : i < g.nodes.size
  · exact h.isWhole.depthLe hi fun j _ => h.acyclic j
  · refine Grammar.DepthLe.mono (n := 1) (fun c hc => ?_) hsize
    rw [Grammar.children, node_of_size_le (Nat.le_of_not_lt hi)] at hc
    cases hc

end Ixml.Lays
