import Ixml.Proofs.Grammar.Understanding
import Ixml.Proofs.Store.Links

/-!
# The store of what is read

A text that is read gives a store with a single layout, whose trees are derived from the tokens of the text
(`exists_forest_of_read`). No pragma is attached to a node of it yet, and no node has another name.
-/

namespace Ixml

open Layout

/-- A label as it is read: nothing is attached to it. -/
structure Label.IsBare (l : Label) : Prop where
  pragmas : l.pragmas = []
  rename (name : String) : Pragma.renameOf? l.kind ≠ some (some name)

namespace Phrase

variable {J : Joint} {e : Bool} {us : List Token} {t : Tree} {ts : List Tree}

def IsBareTree (t : Tree) : Prop :=
  t.Every fun l _ => l.IsBare

theorem isBareTree_ofKind {k : Construct} (hk : Pragma.renameOf? k = none) (hts : ∀ t ∈ ts, IsBareTree t) :
    IsBareTree (.ofKind k ts) :=
  Tree.every_node.mpr ⟨⟨rfl, fun name h => by rw [hk] at h; cases h⟩, hts⟩

theorem isBareTree_named {k : Construct} (hk : Pragma.renameOf? k = some none) (name : String)
    (hts : ∀ t ∈ ts, IsBareTree t) : IsBareTree (.named k name ts) :=
  Tree.every_node.mpr ⟨⟨rfl, fun name h => by rw [hk] at h; cases h⟩, hts⟩

theorem isBareTree_of_mem_pragmaTrees {ps : List (String × String)} {p : Tree} (h : p ∈ pragmaTrees ps) :
    IsBareTree p := by
  obtain ⟨q, -, rfl⟩ := List.mem_map.mp h
  exact isBareTree_ofKind rfl (by simp)

theorem IsBareTree.append {ps : List Tree} (ht : IsBareTree t) (hps : ∀ p ∈ ps, IsBareTree p) :
    IsBareTree (t.append ps) := by
  obtain ⟨l, ts⟩ := t
  obtain ⟨hl, hts⟩ := Tree.every_node.mp ht
  exact Tree.every_node.mpr ⟨hl, List.forall_mem_append.mpr ⟨hts, hps⟩⟩

theorem IsMember.isBareTree {m : Tree} (h : IsMember us m) : IsBareTree m := by
  cases h <;> exact isBareTree_ofKind rfl (by simp)

theorem IsMembers.isBareTree {ms : List Tree} (h : IsMembers us ms) : ∀ m ∈ ms, IsBareTree m := by
  induction h with
  | nil => simp
  | cons hm _ ih => exact List.forall_mem_cons.mpr ⟨hm.isBareTree, ih⟩
  | ended hm _ _ ih => exact List.forall_mem_cons.mpr ⟨hm.isBareTree, ih⟩

theorem IsSign.renameOf?_eq {s : Token} {k : Construct} (h : IsSign s k) : Pragma.renameOf? k = none := by
  cases h <;> rfl

theorem IsDoubleSign.renameOf?_eq {s : Token} {k : Construct} (h : IsDoubleSign s k) : Pragma.renameOf? k = none := by
  cases h <;> rfl

mutual

theorem IsAlts.isBareTree : ∀ {us t}, IsAlts J us t → IsBareTree t
  | _, _, .mk ht hts => isBareTree_ofKind rfl (List.forall_mem_cons.mpr ⟨ht.isBareTree, hts.isBareTree⟩)

theorem IsFurtherAlts.isBareTree : ∀ {us ts}, IsFurtherAlts J us ts → ∀ t ∈ ts, IsBareTree t
  | _, _, .nil => by simp
  | _, _, .cons _ ht hts => List.forall_mem_cons.mpr ⟨ht.isBareTree, hts.isBareTree⟩

theorem IsAlt.isBareTree : ∀ {us t}, IsAlt J us t → IsBareTree t
  | _, _, .commas ht hts => isBareTree_ofKind rfl (List.forall_mem_cons.mpr ⟨ht.isBareTree, hts.isBareTree⟩)
  | _, _, .adjacent hts => isBareTree_ofKind rfl hts.isBareTree

theorem IsCommaFactors.isBareTree : ∀ {us ts}, IsCommaFactors J us ts → ∀ t ∈ ts, IsBareTree t
  | _, _, .nil => by simp
  | _, _, .cons ht hts => List.forall_mem_cons.mpr ⟨ht.isBareTree, hts.isBareTree⟩

theorem IsFactors.isBareTree : ∀ {us ts}, IsFactors J us ts → ∀ t ∈ ts, IsBareTree t
  | _, _, .nil => by simp
  | _, _, .cons ht _ hts => List.forall_mem_cons.mpr ⟨ht.isBareTree, hts.isBareTree⟩

theorem IsFactor.isBareTree : ∀ {e us t}, IsFactor J e us t → IsBareTree t
  | _, _, _, .bare _ ht => ht.isBareTree.append fun _ => isBareTree_of_mem_pragmaTrees
  | _, _, _, .signed _ ht hs =>
    isBareTree_ofKind hs.renameOf?_eq (by simpa using ht.isBareTree.append fun _ => isBareTree_of_mem_pragmaTrees)
  | _, _, _, .separated _ ht hs hu => by
    have hsep : IsBareTree (.ofKind .sep [_]) := isBareTree_ofKind rfl (by simpa using hu.isBareTree)
    refine isBareTree_ofKind hs.renameOf?_eq (List.forall_mem_cons.mpr ⟨?_, by simpa using hsep⟩)
    exact ht.isBareTree.append fun _ => isBareTree_of_mem_pragmaTrees

theorem IsTerm.isBareTree : ∀ {us t}, IsTerm J us t → IsBareTree t
  | _, _, .group ht => ht.isBareTree
  | _, _, .insertion _ => isBareTree_ofKind rfl (by simp)
  | _, _, .nonterminal _ name => isBareTree_named rfl name (by simp)
  | _, _, .literal _ _ => isBareTree_ofKind rfl (by simp)
  | _, _, .inclusion _ h => isBareTree_ofKind rfl h.isBareTree
  | _, _, .exclusion _ h => isBareTree_ofKind rfl h.isBareTree

end

theorem IsRule.isBareTree {ps : List Tree} (h : IsRule J ps us t) (hps : ∀ p ∈ ps, IsBareTree p) : IsBareTree t := by
  obtain ⟨m, name, -, ht⟩ := h
  refine isBareTree_named rfl name (List.forall_mem_append.mpr ⟨hps, ?_⟩)
  simpa using ht.isBareTree

theorem IsRules.isBareTree (h : IsRules J us ts) : ∀ t ∈ ts, IsBareTree t := by
  have hfront {ps : List (String × String)} {p : Tree → Bool} : ∀ t ∈ (pragmaTrees ps).filter p, IsBareTree t :=
    fun t ht => isBareTree_of_mem_pragmaTrees (List.mem_of_mem_filter ht)
  induction h with
  | one ps qs hr =>
    refine List.forall_mem_append.mpr ⟨hfront, List.forall_mem_cons.mpr ⟨hr.isBareTree hfront, fun t => ?_⟩⟩
    exact isBareTree_of_mem_pragmaTrees
  | cons ps hr _ ih =>
    exact List.forall_mem_append.mpr ⟨hfront, List.forall_mem_cons.mpr ⟨hr.isBareTree hfront, ih⟩⟩

theorem IsGrammar.isBareTree (h : IsGrammar J us ts) : ∀ t ∈ ts, IsBareTree t := by
  cases h with
  | plain h => exact h.isBareTree
  | prolog ps qs v h =>
    have hversion : IsBareTree (.ofKind (.version v)) := isBareTree_ofKind rfl (by simp)
    refine List.forall_mem_append.mpr ⟨List.forall_mem_cons.mpr ⟨?_, fun t => isBareTree_of_mem_pragmaTrees⟩, h.isBareTree⟩
    exact isBareTree_ofKind rfl (by simpa using hversion)

end Phrase

/-! ### What a grammar that is read holds -/

theorem Grammar.bare_addTop (g : Grammar) (t : Tree) : ∃ s, (g.addTop t).bare = { g.bare with start := s } := by
  have hbare := Edit.bare_addTree g t
  rw [addTop]
  split
  · refine ⟨(g.addTree t).start <|> ((g.addTree t).node g.next).name, ?_⟩
    rw [← hbare]
    rfl
  · exact ⟨g.start, hbare⟩

theorem Grammar.bare_ofForest (ts : List Tree) : ∃ s, (ofForest ts).bare = { nodes := #[], start := s } := by
  suffices h : ∀ g : Grammar, ∃ s, (ts.foldl addTop g).bare = { g.bare with start := s } from h {}
  induction ts with
  | nil => exact fun g => ⟨g.start, rfl⟩
  | cons t ts ih =>
    intro g
    obtain ⟨s, hs⟩ := ih (g.addTop t)
    obtain ⟨s', hs'⟩ := g.bare_addTop t
    exact ⟨s, by rw [List.foldl_cons, hs, hs']⟩

/-- The layout of a store that holds the trees of a forest below its root. -/
abbrev Layout.ofForest (J : List Layout) : Layout :=
  node Grammar.root { kind := .ixml } J

/-- The forest that is read from tokens, as it lies in the store. -/
structure IsForest (tokens : List Token) (J : List Layout) (g : Grammar) : Prop where
  derived : Phrase.IsGrammar Phrase.free tokens (J.map erase)
  plain : Phrase.Plain tokens
  lays : Lays g [ofForest J]
  bare : ∃ s, g.bare = { nodes := #[], start := s }

theorem exists_isForest_of_read {text : String} {g : Grammar} (h : Grammar.read text = .ok g) :
    ∃ tokens J, Token.scan text = .ok tokens ∧ IsForest (tokens.map (·.token)) J g := by
  obtain ⟨tokens, F, hs, hF, rfl⟩ := Grammar.read_eq_ok_iff.mp h
  have hG := isGrammar_of_readTokens hF
  have hplain : Phrase.Plain (tokens.map (·.token)) := List.forall_mem_map.mpr (Token.isPlain_of_tokens hs)
  have hnamed : ∀ t ∈ F, t.kind.isRule = true → t.label.name.isSome = true := fun t ht hk => by
    obtain ⟨l, us⟩ := t
    exact (Tree.every_node.mp ((hG.isTopTree hplain).1 _ ht).1).1.named hk
  obtain ⟨J, rfl, hJ⟩ := planted_foldl planted_empty hnamed
  obtain ⟨⟨b, hl, -⟩, -⟩ := hJ
  exact ⟨tokens, J, hs, hG, hplain, hl.lays, Grammar.bare_ofForest _⟩

namespace IsForest

variable {tokens : List Token} {J : List Layout} {g : Grammar} {i : NodeId}

theorem written (h : IsForest tokens J g) : ∀ t ∈ J, t.Every Written := fun _ ht =>
  ((h.derived.isTopTree h.plain).1 _ (List.mem_map_of_mem ht)).1

theorem every (h : IsForest tokens J g) :
    (ofForest J).Every fun l ks => l.IsBare ∧ (l.kind.isPragma = true → ks = []) := by
  refine every_node.mpr ⟨⟨⟨rfl, nofun⟩, nofun⟩, fun t ht => ?_⟩
  have hbare : t.Every fun l _ => l.IsBare := h.derived.isBareTree _ (List.mem_map_of_mem ht)
  exact (Simplify.every_and hbare (h.written t ht)).mono fun l ks ⟨hl, hw⟩ => ⟨hl, hw.leaf⟩

theorem exists_fill (h : IsForest tokens J g) (hi : i < g.nodes.size) : ∃ z u, fill z u = ofForest J ∧ u.id = i := by
  obtain ⟨z, u, hu, hid⟩ := h.lays.exists_fill hi
  exact ⟨z, u, List.mem_singleton.mp hu, hid⟩

theorem isBare (h : IsForest tokens J g) (i : NodeId) : (g.node i).toLabel.IsBare := by
  by_cases hi : i < g.nodes.size
  · obtain ⟨z, u, hu, rfl⟩ := h.exists_fill hi
    rw [h.lays.toLabel_fill (List.mem_singleton.mpr hu)]
    exact (hu ▸ h.every).of_fill.label.1
  · rw [Lays.node_of_size_le (Nat.le_of_not_lt hi)]
    exact ⟨rfl, nofun⟩

theorem isIdentifier (h : IsForest tokens J g) (i : NodeId) : IsIdentifier (g.nameText i) := by
  have hall : (ofForest J).Every fun l _ => IsIdentifier l.nameText :=
    every_node.mpr ⟨isIdentifier_empty, fun t ht => (h.written t ht).mono fun _ _ hw => hw.identifier⟩
  by_cases hi : i < g.nodes.size
  · obtain ⟨z, u, hu, rfl⟩ := h.exists_fill hi
    have hl : g.nameText u.id = u.label.nameText :=
      congrArg Label.nameText (h.lays.toLabel_fill (List.mem_singleton.mpr hu))
    rw [hl]
    exact (hu ▸ hall).of_fill.label
  · rw [Grammar.nameText, Lays.node_of_size_le (Nat.le_of_not_lt hi)]
    exact isIdentifier_empty

theorem children_eq_nil (h : IsForest tokens J g) (hi : (g.kind i).isPragma = true) : g.children i = [] := by
  by_cases hsize : i < g.nodes.size
  · obtain ⟨z, u, hu, rfl⟩ := h.exists_fill hsize
    rw [Grammar.kind, h.lays.toLabel_fill (List.mem_singleton.mpr hu)] at hi
    have hleaf := (hu ▸ h.every).of_fill.label.2 hi
    rw [h.lays.children_fill (List.mem_singleton.mpr hu), List.map_eq_nil_iff.mp hleaf, List.map_nil]
  · rw [Grammar.children, Lays.node_of_size_le (Nat.le_of_not_lt hsize)]

end IsForest

end Ixml
