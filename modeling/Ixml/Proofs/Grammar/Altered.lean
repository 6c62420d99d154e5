import Ixml.Proofs.Grammar.Planted

/-!
# Pragmas on the way

What is attached for a pragma is a matter of the bindings, of the construct that it was written on and of its own name
and data (`Pragma.accepted?`), and a tree whose pragmas are understood is told from the tree as it was read
(`Tree.understood`). At each point of the work the grammar is the one that was read, without the pragmas that have been
taken out of their places and with those that have been attached (`Pragma.Altered`).
-/

namespace Ixml

open Layout

namespace Construct

/-- The name and the data of a pragma as written. -/
def pragma? : Construct → Option (String × String)
  | pragma name data => some (name, data)
  | _ => none

theorem isSome_pragma? (k : Construct) : k.pragma?.isSome = k.isPragma := by
  cases k <;> rfl

end Construct

namespace Directive

/-- The other name that a pragma gives. -/
def rename? : Directive → Option String
  | rename name => some name
  | _ => none

/-- The default namespace that a pragma gives. -/
def xmlns? : Directive → Option String
  | xmlns uri => some uri
  | _ => none

end Directive

/-! ### What a pragma comes to -/

namespace Pragma

open Text (trim)

/-- The namespace and the local name that the name of a pragma stands for, if its prefix is bound. Without a prefix it
is one of the pragmas that are understood. -/
def resolved? (bs : Assoc) (name : String) : Option (String × String) :=
  match Text.splitAt ':' name.toList with
  | (nsPrefix, some rest) => (Assoc.find? (String.ofList nsPrefix) bs).map fun uri => (uri, String.ofList rest)
  | (_, none) => some (ownNamespace, name)

/-- What a pragma asks for; nothing if its namespace is another one or its name is unknown. -/
def meant? (bs : Assoc) (name data : String) : Option Directive :=
  (resolved? bs name).bind fun (uri, localName) =>
    if uri = ownNamespace then (directive? localName (trim data)).bind Except.toOption else none

/-- The prefix of a pragma is bound, and its data make sense. -/
structure IsSound (bs : Assoc) (name data : String) : Prop where
  bound : (resolved? bs name).isSome
  sense (localName reason : String) : resolved? bs name = some (ownNamespace, localName) →
    directive? localName (trim data) ≠ some (.error reason)

/-- Whether a construct can do what a pragma asks for. -/
def suits (k : Construct) : Directive → Bool
  | .rename _ => (renameOf? k).isSome
  | .replacement _ => hasText k
  | _ => true

/-- What is attached to a construct for a pragma that was written on it: nothing if the pragma is a declaration, is
passed over, or does not suit the construct. -/
def accepted? (bs : Assoc) (k : Construct) (name data : String) : Option Pragma :=
  if (declared? name).isSome then none
  else ((meant? bs name data).filter (suits k)).map fun d => ⟨name, data, d⟩

/-- The other names that pragmas give, in order. -/
def renames (ps : List Pragma) : List String :=
  ps.filterMap (·.directive.rename?)

theorem renames_append (ps qs : List Pragma) : renames (ps ++ qs) = renames ps ++ renames qs :=
  List.filterMap_append

/-- A label after pragmas have been attached to it. -/
def attachTo (l : Label) (ps : List Pragma) : Label :=
  { l with kind := (renames ps).foldl (fun k name => setRename name k) l.kind, pragmas := l.pragmas ++ ps }

@[simp] theorem attachTo_nil (l : Label) : attachTo l [] = l := by
  simp [attachTo, renames]

theorem attachTo_append (l : Label) (ps qs : List Pragma) : attachTo l (ps ++ qs) = attachTo (attachTo l ps) qs := by
  simp [attachTo, renames_append]

theorem foldl_setRename (p : Construct → Prop) (hp : ∀ name k, p k → p (setRename name k)) (names : List String)
    {k : Construct} (hk : p k) : p (names.foldl (fun k name => setRename name k) k) := by
  induction names generalizing k with
  | nil => exact hk
  | cons name names ih => exact ih (hp name k hk)

@[simp] theorem isPragma_attachTo (l : Label) (ps : List Pragma) : (attachTo l ps).kind.isPragma = l.kind.isPragma :=
  foldl_setRename (·.isPragma = l.kind.isPragma) (fun _ _ h => by simpa using h) _ rfl

theorem suits_setRename (name : String) (k : Construct) (d : Directive) : suits (setRename name k) d = suits k d := by
  cases k <;> cases d <;> rfl

@[simp] theorem suits_attachTo (l : Label) (ps : List Pragma) (d : Directive) :
    suits (attachTo l ps).kind d = suits l.kind d :=
  foldl_setRename (fun k => suits k d = suits l.kind d) (fun _ _ h => (suits_setRename ..).trans h) _ rfl

theorem renameOf?_setRename (name : String) (k : Construct) :
    renameOf? (setRename name k) = (renameOf? k).map fun _ => some name := by
  cases k <;> rfl

/-- The name that a label has after pragmas have been attached to it is the last that they give. -/
theorem renameOf?_attachTo (l : Label) (ps : List Pragma) :
    renameOf? (attachTo l ps).kind = (renameOf? l.kind).map fun o => (renames ps).getLast?.or o := by
  rw [attachTo]
  dsimp only
  generalize renames ps = names, l.kind = k
  induction names generalizing k with
  | nil => simp
  | cons name names ih =>
    rw [List.foldl_cons, ih, renameOf?_setRename, Option.map_map, List.getLast?_cons]
    cases names.getLast? <;> rfl

end Pragma

/-! ### Trees with pragmas among them -/

namespace Tree

mutual

/-- The tree that is left when the pragmas in it have been understood. -/
def understood (bs : Assoc) : Tree → Tree
  | node l ts =>
    node (Pragma.attachTo l ((ts.filterMap (·.kind.pragma?)).filterMap fun p => Pragma.accepted? bs l.kind p.1 p.2))
      (understoodAll bs ts)

def understoodAll (bs : Assoc) : List Tree → List Tree
  | [] => []
  | t :: ts => if t.kind.isPragma then understoodAll bs ts else understood bs t :: understoodAll bs ts

end

theorem understoodAll_eq (bs : Assoc) (ts : List Tree) :
    understoodAll bs ts = (ts.filter (!·.kind.isPragma)).map (understood bs) := by
  induction ts with
  | nil => rfl
  | cons t ts ih =>
    rw [understoodAll, List.filter_cons, ih]
    cases t.kind.isPragma <;> rfl

end Tree

/-! ### The grammar on the way -/

namespace Grammar

variable {g : Grammar} {i j : NodeId}

theorem node_modify (hi : i < g.nodes.size) (f : Node → Node) (j : NodeId) :
    (g.modify i f).node j = if j = i then f (g.node j) else g.node j := by
  simp only [node, modify, Array.getD_eq_getD_getElem?, Array.getElem?_modify]
  split <;> simp_all [eq_comm]

theorem modify_modify (g : Grammar) (i : NodeId) (f f' : Node → Node) :
    (g.modify i f).modify i f' = g.modify i (f' ∘ f) := by
  rw [modify, modify, modify]
  congr 1
  refine Array.ext_getElem? fun j => ?_
  simp only [Array.getElem?_modify]
  split <;> simp

theorem bindings_detach (g : Grammar) (i : NodeId) : (g.detach i).bindings = g.bindings := by
  have := congrArg bindings (Edit.bare_detach g i)
  exact this

theorem defaultNamespace_detach (g : Grammar) (i : NodeId) : (g.detach i).defaultNamespace = g.defaultNamespace := by
  have := congrArg defaultNamespace (Edit.bare_detach g i)
  exact this

end Grammar

namespace Pragma

open Work

/-- The grammar `g` is `g₀` without the nodes `D` in their places and with pragmas attached to nodes. -/
structure Altered (g₀ : Grammar) (D : List NodeId) (given : NodeId → List Pragma) (g : Grammar) : Prop where
  size : g.nodes.size = g₀.nodes.size
  node (i : NodeId) : g.node i =
    { toLabel := attachTo (g₀.node i).toLabel (given i)
      parent := if i ∈ D then none else g₀.parent i
      children := (g₀.children i).filter (· ∉ D) }
  bare : g.bare = { g₀.bare with bindings := g.bindings, defaultNamespace := g.defaultNamespace }

namespace Altered

variable {g₀ g : Grammar} {D : List NodeId} {given given' : NodeId → List Pragma} {F : List Layout} {i p : NodeId}

theorem refl (g₀ : Grammar) : Altered g₀ [] (fun _ => []) g₀ where
  size := rfl
  node i := by simp [Grammar.parent, Grammar.children]
  bare := rfl

theorem parent_eq (h : Altered g₀ D given g) (i : NodeId) : g.parent i = if i ∈ D then none else g₀.parent i := by
  rw [Grammar.parent, h.node]

theorem children_eq (h : Altered g₀ D given g) (i : NodeId) : g.children i = (g₀.children i).filter (· ∉ D) := by
  rw [Grammar.children, h.node]

theorem toLabel_eq (h : Altered g₀ D given g) (i : NodeId) :
    (g.node i).toLabel = attachTo (g₀.node i).toLabel (given i) := by
  rw [h.node]

theorem of_nodes_eq {g' : Grammar} (h : Altered g₀ D given g) (hn : g'.nodes = g.nodes)
    (hb : g'.bare = { g.bare with bindings := g'.bindings, defaultNamespace := g'.defaultNamespace }) :
    Altered g₀ D given g' where
  size := by rw [hn, h.size]
  node i := by rw [Grammar.node, hn, ← h.node i, Grammar.node]
  bare := by rw [hb, h.bare]

theorem lt_size_of_parent (hl : Lays g₀ F) (hp : g₀.parent i = some p) : i < g₀.nodes.size ∧ p < g₀.nodes.size := by
  constructor <;> by_contra hlt
  · rw [Grammar.parent, Lays.node_of_size_le (Nat.le_of_not_lt hlt)] at hp
    cases hp
  · have hc := hl.mem_children_iff.mpr hp
    rw [Grammar.children, Lays.node_of_size_le (Nat.le_of_not_lt hlt)] at hc
    cases hc

theorem detach (hl : Lays g₀ F) (h : Altered g₀ D given g) (hi : i ∉ D) (hp : g₀.parent i = some p) :
    Altered g₀ (i :: D) given (g.detach i) := by
  have hpar : g.parent i = some p := by rw [h.parent_eq, if_neg hi, hp]
  obtain ⟨hilt, hplt⟩ := lt_size_of_parent hl hp
  have hne : p ≠ i := hl.parent_ne hp
  have hsize : (g.setParent i none).nodes.size = g.nodes.size := by simp [Grammar.setParent, Grammar.modify]
  have hdetach : g.detach i =
      (g.setParent i none).modify p fun n => { n with children := n.children.filter (· ≠ i) } := by
    rw [Grammar.detach, hpar]
  refine ⟨by rw [hdetach, ← h.size, ← hsize]; simp [Grammar.modify], fun j => ?_, (Edit.bare_detach g i).trans ?_⟩
  · rw [hdetach, Grammar.node_modify (by rw [hsize, h.size]; exact hplt), Grammar.setParent,
      Grammar.node_modify (by rw [h.size]; exact hilt), h.node j]
    -- `p` loses a child, `i` its parent; no other node has `i` among its children
    by_cases hjp : j = p
    · subst hjp
      rw [if_pos rfl, if_neg hne]
      simp [hne, List.filter_filter]
    · have hnot : i ∉ g₀.children j := fun hc => hjp (Option.some.inj ((hl.mem_children_iff.mp hc).symm.trans hp))
      have hkids : (g₀.children j).filter (· ∉ i :: D) = (g₀.children j).filter (· ∉ D) :=
        List.filter_congr fun c hc => by
          have : c ≠ i := fun he => hnot (he ▸ hc)
          simp [this]
      rw [if_neg hjp, hkids]
      by_cases hji : j = i
      · subst hji
        simp
      · simp [hji]
  · rw [h.bare, Grammar.bindings_detach, Grammar.defaultNamespace_detach]

theorem attach (h : Altered g₀ D given g) (hi : i < g₀.nodes.size) (p : Pragma) :
    Altered g₀ D (fun j => if j = i then given j ++ [p] else given j)
      (g.modify i fun n => { n with toLabel := attachTo n.toLabel [p] }) where
  size := by rw [← h.size]; simp [Grammar.modify]
  node j := by
    rw [Grammar.node_modify (by rw [h.size]; exact hi), h.node j]
    split
    · rw [attachTo_append]
    · rfl
  bare := h.bare

end Altered

end Pragma

end Ixml
