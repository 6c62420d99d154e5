import Ixml.Proofs.Compile.Language
import Ixml.Proofs.Simplify.Leaves

/-!
# Where the symbols of a compiled grammar come from

Every symbol on a right-hand side is one of those that a leaf of a canonical rule becomes, and that leaf was a leaf of
a rule of the grammar text or refers to a rule that is made up (`Stages.exists_origin`). A canonical rule whose name is
not made up has the label of the rule of the text (`Stages.exists_outlook`).
-/

namespace Ixml

open Layout Simplify Bnf.OfGrammar

variable {rootLabel : Label} {b g₀ g : Grammar} {J J' : List Layout} {m : Nat} {B : Bnf} {r : Rule} {x : Symbol}
  {t u : Layout} {v : Tree}

/-- The leaves of a canonical rule are the factors of its alternative. -/
theorem Simplify.Canonical.mem_leaves (h : Canonical t) (ht : t.Every (Proper m)) (hr : t.kind.isRule = true)
    {a : Layout} (ha : t.children = [a]) : v ∈ t.leaves ↔ ∃ u ∈ a.children, v = u.erase := by
  obtain ⟨a', ha', hk, hflat⟩ := h.isFlat ht hr
  obtain rfl : a = a' := by rw [ha] at ha'; exact List.singleton_inj.mp ha'
  obtain ⟨i, l, ts⟩ := t
  obtain ⟨j, k, us⟩ := a
  obtain rfl : ts = [node j k us] := ha
  rw [kind_node] at hr
  rw [mem_leaves_of_not_isFlat (Construct.isFlat_of_isRule hr)]
  simp only [List.mem_singleton, exists_eq_left]
  rw [mem_leaves_of_not_isFlat (by rw [show k.kind = .alt from hk]; rfl), children_node]
  refine exists_congr fun u => and_congr_right fun hu => ?_
  have hflat := hflat u hu
  obtain ⟨p, q, vs⟩ := u
  rw [kind_node] at hflat
  rw [mem_leaves_of_isFlat hflat, erase_node]

namespace Stages

/-- A symbol on a right-hand side comes from a leaf of a rule, which was a leaf of a rule before or refers to a made-up
rule. -/
theorem exists_origin (h : Stages rootLabel b J J' m g₀ g) (hB : IsBuilt g J' B) (hr : r ∈ B.rules) (hx : x ∈ r.rhs) :
    ∃ t ∈ J', t.kind.isRule = true ∧ BecomesRule g t r ∧ ∃ u xs, u.Every (Proper m) ∧ Becomes g u xs ∧ x ∈ xs ∧
      ∃ n, (∃ t₀ ∈ J, IsRuleNamed n t₀) ∧ Stock.Reaches ⟨J', m⟩ n t.label.nameText ∧
        (Stock.HasLeaf ⟨J, b.madeUp⟩ n u.erase ∨ Stock.HasMade ⟨J', m⟩ u.label) := by
  obtain ⟨t, ht, hrule, hbecomes, a, ha, u, hu, xs, hbec, hx⟩ := hB.exists_factor hr hx
  have hp := h.sound.proper t ht
  have hleaf : u.erase ∈ t.leaves := ((h.canonical t ht).mem_leaves hp hrule ha).mpr ⟨u, hu, rfl⟩
  obtain ⟨n, hn, hreach, hor⟩ := Simplify.exists_origin h.steps h.understood.sound ht hrule hleaf
  refine ⟨t, ht, hrule, hbecomes, u, xs, hp.factor (by rw [ha]; simp) hu, hbec, hx, n, hn, hreach, ?_⟩
  rwa [label_erase] at hor

/-- A set on a right-hand side comes from a set of a rule, with the members that it has there, which can be read again. -/
theorem exists_leaf_of_set (h : Stages rootLabel b J J' m g₀ g) (hB : IsBuilt g J' B) (hr : r ∈ B.rules) {S : CharSet}
    {inclusion : Bool} {d : String} {a : Attributes} (hx : .terminal (.set S inclusion d) a ∈ r.rhs) :
    ∃ t ∈ J, ∃ u : Layout, u.erase ∈ t.leaves ∧ (∃ mark, u.kind = .setOf mark inclusion) ∧
      (∀ v ∈ u.children, v.kind.IsReadable) ∧ (∀ c, S.contains c = true ↔ ∃ v ∈ u.children, v.kind.Admits c) ∧
        d = Grammar.setNotation inclusion (u.children.map Layout.label) := by
  obtain ⟨-, -, -, -, u, xs, hu, hbec, hx, n, -, -, hor⟩ := h.exists_origin hB hr hx
  obtain ⟨⟨mark, hk⟩, hs, hd⟩ := hbec.set_cases hx
  rcases hor with ⟨t, ht, -, hleaf⟩ | ⟨hmade, -⟩
  · refine ⟨t, ht, u, hleaf, ⟨mark, hk⟩, fun v hv => ?_, hs, hd⟩
    obtain ⟨i, l, ts⟩ := u
    rw [erase_node] at hleaf
    have hset : l.kind.isSet = true := by
      rw [kind_node] at hk
      rw [hk]
      cases inclusion <;> rfl
    refine (h.understood.members t ht).label_of_mem_leaves hleaf hset _ ?_
    rw [← kind_erase]
    exact List.mem_map_of_mem (List.mem_map_of_mem hv)
  · -- what refers to a made-up rule is no set
    rcases hu.label.hidden hmade with hk' | hk' <;> rw [← kind, hk] at hk' <;> cases inclusion <;> cases hk'

/-- A rule has the label of a rule that was there before, or is hidden and made up. -/
theorem exists_outlook (h : Stages rootLabel b J J' m g₀ g) (ht : t ∈ J') (hr : t.kind.isRule = true) :
    (∃ t₀ ∈ J, outlook t.label = outlook t₀.label) ∨ IsMade t.label.nameText ∧ t.kind = .rule .hidden none := by
  by_cases hn : IsMade t.label.nameText
  · exact .inr ⟨hn, (h.sound.proper t ht).label.kind_of_isRule hn hr⟩
  · exact .inl (exists_outlook_of_steps h.steps h.understood.sound ht hn)

end Stages

end Ixml
