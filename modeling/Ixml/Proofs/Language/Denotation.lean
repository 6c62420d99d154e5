import Ixml.Proofs.Grammar.Shape
import Mathlib.Algebra.Order.BigOperators.Group.List
import Mathlib.Computability.Language
import Mathlib.Order.FixedPoints
import Mathlib.Order.CompletePartialOrder

/-!
# What a grammar denotes

Every construct denotes a language when the names do: a group is a union, an alternative a concatenation, an
option and a repetition are what they are in a Kleene algebra. The rules of a grammar denote the least
languages of their names that take in what their bodies denote (`meaning`). A `Sense` says what leaves and
references denote. With `Sense.strings` this is the language of texts (`Grammar.language`).
-/

namespace Ixml

open Computability

variable {α : Type}

namespace Construct

/-- What a construct denotes, from what its children denote. -/
def combine : Construct → List (Language α) → Language α
  | alts, Ls => Ls.sum
  | option, Ls => 1 + Ls.prod
  | repeat0, [F, S] => 1 + F * (S * F)∗
  | repeat0, Ls => Ls.prod∗
  | repeat1, [F, S] => F * (S * F)∗
  | repeat1, Ls => Ls.prod * Ls.prod∗
  | _, Ls => Ls.prod

theorem combine_mono {k : Construct} {Ls Ms : List (Language α)} (h : List.Forall₂ (· ≤ ·) Ls Ms) :
    k.combine Ls ≤ k.combine Ms := by
  have hprod := h.prod_le_prod'
  have hstar := kstar_mono hprod
  cases k with
  | alts => exact h.sum_le_sum
  | option => exact add_le_add le_rfl hprod
  | repeat0 =>
    match Ls, Ms, h with
    | [], [], _ => exact le_rfl
    | [F], [F'], _ => exact hstar
    | [F, S], [F', S'], .cons hF (.cons hS .nil) =>
      exact add_le_add le_rfl (mul_le_mul' hF (kstar_mono (mul_le_mul' hS hF)))
    | _ :: _ :: _ :: _, _ :: _ :: _ :: _, .cons _ (.cons _ (.cons _ _)) => exact hstar
  | repeat1 =>
    match Ls, Ms, h with
    | [], [], _ => exact le_rfl
    | [F], [F'], _ => exact mul_le_mul' hprod hstar
    | [F, S], [F', S'], .cons hF (.cons hS .nil) => exact mul_le_mul' hF (kstar_mono (mul_le_mul' hS hF))
    | _ :: _ :: _ :: _, _ :: _ :: _ :: _, .cons _ (.cons _ (.cons _ _)) => exact mul_le_mul' hprod hstar
  | _ => exact hprod

end Construct

/-- What leaves and references denote. -/
@[ext]
structure Sense (α : Type) where
  /-- What a literal, an insertion or a set denotes, given what is below it. -/
  leaf : Label → List Tree → Language α
  /-- What a reference denotes, given what its name does. -/
  reference : Label → Language α → Language α
  mono : ∀ l, Monotone (reference l)

/-- A literal denotes its characters in order, an insertion the empty text, a set one character that is or is
not among its members, and a reference what its name does. -/
def Sense.strings : Sense Char where
  leaf l ts :=
    match l.kind with
    | .literal _ value => {value.text.toList}
    | .insertion _ => 1
    | .inclusion _ => {w | ∃ c, w = [c] ∧ ∃ t ∈ ts, t.kind.Admits c}
    | .exclusion _ => {w | ∃ c, w = [c] ∧ ¬∃ t ∈ ts, t.kind.Admits c}
    | _ => 0
  reference _ L := L
  mono _ := monotone_id

namespace Tree

mutual

/-- What a tree denotes, given what the names do. -/
def denote (σ : Sense α) (ρ : String → Language α) : Tree → Language α
  | node l ts =>
    if l.kind.isNonterminal then σ.reference l (ρ l.nameText)
    else if l.kind.isFlat then σ.leaf l ts
    else l.kind.combine (denoteAll σ ρ ts)

def denoteAll (σ : Sense α) (ρ : String → Language α) : List Tree → List (Language α)
  | [] => []
  | t :: ts => denote σ ρ t :: denoteAll σ ρ ts

end

variable {σ : Sense α} {ρ ρ' : String → Language α} {l : Label} {t : Tree} {ts : List Tree} {name : String}
  {w : List α}

theorem denoteAll_eq_map : denoteAll σ ρ ts = ts.map (denote σ ρ) := by
  induction ts with
  | nil => rfl
  | cons t ts ih => rw [denoteAll, ih, List.map_cons]

theorem denote_node : (node l ts).denote σ ρ =
    if l.kind.isNonterminal then σ.reference l (ρ l.nameText)
    else if l.kind.isFlat then σ.leaf l ts
    else l.kind.combine (ts.map (denote σ ρ)) := by
  rw [denote, denoteAll_eq_map]

theorem denote_of_nonterminal (h : l.kind.isNonterminal = true) :
    (node l ts).denote σ ρ = σ.reference l (ρ l.nameText) := by
  rw [denote_node, if_pos h]

theorem denote_of_isFlat (h : l.kind.isNonterminal = false) (hf : l.kind.isFlat = true) :
    (node l ts).denote σ ρ = σ.leaf l ts := by
  rw [denote_node, if_neg (by simp [h]), if_pos hf]

theorem denote_of_not_isFlat (hf : l.kind.isFlat = false) :
    (node l ts).denote σ ρ = l.kind.combine (ts.map (denote σ ρ)) := by
  rw [denote_node, if_neg, if_neg (by simp [hf])]
  cases hk : l.kind <;> simp_all [Construct.isFlat, Construct.isNonterminal]

theorem denote_mono (h : ρ ≤ ρ') (t : Tree) : t.denote σ ρ ≤ t.denote σ ρ' := by
  cases t with
  | node l ts =>
    rw [denote_node, denote_node]
    split
    · exact σ.mono l (h _)
    · split
      · exact le_rfl
      · refine Construct.combine_mono ?_
        rw [List.forall₂_map_left_iff, List.forall₂_map_right_iff, List.forall₂_same]
        exact fun t _ => denote_mono h t

/-- Where leaves and references denote more, every tree does. -/
theorem denote_le_of_sense {τ : Sense α} (hleaf : σ.leaf ≤ τ.leaf) (href : σ.reference ≤ τ.reference) (t : Tree) :
    t.denote σ ρ ≤ t.denote τ ρ := by
  cases t with
  | node l ts =>
    rw [denote_node, denote_node]
    split
    · exact href l _
    · split
      · exact hleaf l ts
      · refine Construct.combine_mono ?_
        rw [List.forall₂_map_left_iff, List.forall₂_map_right_iff, List.forall₂_same]
        exact fun t _ => denote_le_of_sense hleaf href t

theorem denote_congr : ∀ {t : Tree}, (t.Every fun l _ => ρ l.nameText = ρ' l.nameText) → t.denote σ ρ = t.denote σ ρ'
  | node l ts, h => by
    obtain ⟨hl, hts⟩ := every_node.mp h
    rw [denote_node, denote_node, hl, List.map_congr_left fun t ht => denote_congr (hts t ht)]

/-- A tree that is a rule of a given name. -/
def IsRuleNamed (name : String) (t : Tree) : Prop :=
  t.kind.isRule = true ∧ t.label.nameText = name

/-! ### Least languages -/

/-- What the rules of each name denote, given what the names do. -/
def round (σ : Sense α) (ts : List Tree) : (String → Language α) →o (String → Language α) where
  toFun ρ name := {w | ∃ t ∈ ts, t.IsRuleNamed name ∧ w ∈ t.denote σ ρ}
  monotone' _ _ h _ _ := fun ⟨t, ht, hn, hw⟩ => ⟨t, ht, hn, denote_mono h t hw⟩

/-- What the names denote: the least languages that the rules allow. -/
def meaning (σ : Sense α) (ts : List Tree) : String → Language α :=
  (round σ ts).lfp

/-- Every rule denotes a part of what its name does. -/
def Closed (σ : Sense α) (ts : List Tree) (ρ : String → Language α) : Prop :=
  ∀ t ∈ ts, t.kind.isRule = true → t.denote σ ρ ≤ ρ t.label.nameText

theorem round_le_iff : round σ ts ρ ≤ ρ ↔ Closed σ ts ρ := by
  constructor
  · intro h t ht hr w hw
    exact h _ ⟨t, ht, ⟨hr, rfl⟩, hw⟩
  · rintro h name w ⟨t, ht, ⟨hr, rfl⟩, hw⟩
    exact h t ht hr hw

theorem meaning_le (h : Closed σ ts ρ) : meaning σ ts ≤ ρ :=
  (round σ ts).lfp_le (round_le_iff.mpr h)

theorem mem_meaning : w ∈ meaning σ ts name ↔ ∃ t ∈ ts, t.IsRuleNamed name ∧ w ∈ t.denote σ (meaning σ ts) := by
  have h : round σ ts (meaning σ ts) name = meaning σ ts name := congrFun (round σ ts).map_lfp name
  rw [← h]
  exact Iff.rfl

theorem closed_meaning : Closed σ ts (meaning σ ts) :=
  round_le_iff.mp (round σ ts).map_lfp.le

theorem meaning_le_of_sense {τ : Sense α} (hleaf : σ.leaf ≤ τ.leaf) (href : σ.reference ≤ τ.reference) :
    meaning σ ts ≤ meaning τ ts :=
  meaning_le fun t ht hr => (denote_le_of_sense hleaf href t).trans (closed_meaning t ht hr)

end Tree

namespace Grammar

def forest (g : Grammar) : List Tree :=
  (g.children root).map g.tree

def language (g : Grammar) : String → Language Char :=
  Tree.meaning Sense.strings g.forest

end Grammar

end Ixml
