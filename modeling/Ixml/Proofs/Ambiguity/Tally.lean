import Mathlib.Algebra.Order.BigOperators.Group.List
import Mathlib.Computability.Language
import Mathlib.Data.ENat.Lattice
import Mathlib.Data.Set.Card
import Mathlib.Order.FixedPoints
import Mathlib.Order.CompletePartialOrder

/-!
# Tallies

A tally says of every text in how many ways it comes about. Tallies are added where there is a choice and
multiplied where parts follow each other, as formal power series are, and `f∗` is the tally of any number of parts
one after the other. `Tally.count` is the tally of a set of things with a text each, and what is a choice or a
sequence for sets is a sum or a product for their tallies (`count_union`, `count_indexed`, `count_mul`).
-/

namespace Ixml

open Computability

/-- In how many ways each text comes about. -/
def Tally (α : Type) :=
  List α → ℕ∞

namespace Tally

variable {α β γ : Type} {f f' g g' h x : Tally α} {w : List α} {c : α} {s t : Set β} {y z : β → List α}

@[ext] theorem ext (h : ∀ w, f w = g w) : f = g :=
  funext h

noncomputable instance : CompleteLattice (Tally α) :=
  inferInstanceAs (CompleteLattice (List α → ℕ∞))

noncomputable instance : AddCommMonoid (Tally α) :=
  inferInstanceAs (AddCommMonoid (List α → ℕ∞))

instance : AddLeftMono (Tally α) :=
  ⟨fun f _ _ h w => add_le_add (le_refl (f w)) (h w)⟩

instance : AddRightMono (Tally α) :=
  ⟨fun f _ _ h w => add_le_add (h w) (le_refl (f w))⟩

@[simp] theorem zero_apply : (0 : Tally α) w = 0 := rfl

@[simp] theorem add_apply : (f + g) w = f w + g w := rfl

theorem zero_le (f : Tally α) : 0 ≤ f :=
  fun _ => bot_le

/-! ### Products -/

/-- The tally of what follows the character `c`. -/
def after (c : α) (f : Tally α) : Tally α :=
  fun w => f (c :: w)

/-- In how many ways a text is one that `f` counts, followed by one that `g` does. -/
noncomputable def divided : List α → Tally α → Tally α → ℕ∞
  | [], f, g => f [] * g []
  | c :: w, f, g => f [] * g (c :: w) + divided w (f.after c) g

noncomputable instance : Mul (Tally α) where
  mul f g := fun w => divided w f g

noncomputable instance : One (Tally α) where
  one := fun w => match w with
    | [] => 1
    | _ :: _ => 0

theorem mul_nil : (f * g) [] = f [] * g [] := rfl

theorem mul_cons : (f * g) (c :: w) = f [] * g (c :: w) + (f.after c * g) w := rfl

theorem one_nil : (1 : Tally α) [] = 1 := rfl

theorem one_cons : (1 : Tally α) (c :: w) = 0 := rfl

theorem zero_mul' (g : Tally α) : 0 * g = 0 := by
  ext w
  induction w with
  | nil => exact zero_mul _
  | cons c w ih =>
    rw [mul_cons, zero_apply, zero_mul, zero_add]
    exact ih

theorem mul_zero' (f : Tally α) : f * 0 = 0 := by
  ext w
  induction w generalizing f with
  | nil => exact mul_zero _
  | cons c w ih => rw [mul_cons, ih, zero_apply, zero_apply, mul_zero, add_zero]

theorem add_mul' (f f' g : Tally α) : (f + f') * g = f * g + f' * g := by
  ext w
  induction w generalizing f f' with
  | nil => exact add_mul _ _ _
  | cons c w ih =>
    rw [add_apply, mul_cons, mul_cons, mul_cons, add_apply, show (f + f').after c = f.after c + f'.after c from rfl,
      ih, add_apply, add_mul, add_add_add_comm]

theorem mul_add' (f g g' : Tally α) : f * (g + g') = f * g + f * g' := by
  ext w
  induction w generalizing f with
  | nil => exact mul_add _ _ _
  | cons c w ih => rw [mul_cons, ih, add_apply, add_apply, add_apply, mul_cons, mul_cons, mul_add, add_add_add_comm]

theorem one_mul' (f : Tally α) : 1 * f = f := by
  ext w
  cases w with
  | nil => exact one_mul _
  | cons c w =>
    rw [mul_cons, one_nil, one_mul, show (1 : Tally α).after c = 0 from rfl, zero_mul', zero_apply, add_zero]

theorem mul_one' (f : Tally α) : f * 1 = f := by
  ext w
  induction w generalizing f with
  | nil => exact mul_one _
  | cons c w ih => rw [mul_cons, one_cons, mul_zero, zero_add, ih, after]

/-- Every way counts for `a` ways. -/
def scaled (a : ℕ∞) (f : Tally α) : Tally α :=
  fun w => a * f w

theorem scaled_mul (a : ℕ∞) (f g : Tally α) : (scaled a f * g) w = a * (f * g) w := by
  induction w generalizing f with
  | nil => exact mul_assoc _ _ _
  | cons c w ih =>
    rw [mul_cons, mul_cons, mul_add, ← mul_assoc, ← ih]
    rfl

theorem mul_assoc' (f g h : Tally α) : f * g * h = f * (g * h) := by
  ext w
  induction w generalizing f with
  | nil => exact mul_assoc _ _ _
  | cons c w ih =>
    have hafter : (f * g).after c = scaled (f []) (g.after c) + f.after c * g := rfl
    rw [mul_cons, hafter, add_mul', add_apply, scaled_mul, ih, mul_nil, mul_cons, mul_cons, mul_add, mul_assoc, add_assoc]

noncomputable instance : Semiring (Tally α) where
  left_distrib := mul_add'
  right_distrib := add_mul'
  zero_mul := zero_mul'
  mul_zero := mul_zero'
  mul_assoc := mul_assoc'
  one_mul := one_mul'
  mul_one := mul_one'

theorem mul_mono (hf : f ≤ f') (hg : g ≤ g') : f * g ≤ f' * g' := by
  intro w
  induction w generalizing f f' with
  | nil => exact mul_le_mul' (hf []) (hg [])
  | cons c w ih => exact add_le_add (mul_le_mul' (hf []) (hg _)) (ih fun w => hf (c :: w))

instance : MulLeftMono (Tally α) :=
  ⟨fun _ _ _ h => mul_mono le_rfl h⟩

instance : MulRightMono (Tally α) :=
  ⟨fun _ _ _ h => mul_mono h le_rfl⟩

/-! ### Any number of parts -/

/-- One more part in front, or no part. -/
noncomputable def round (f : Tally α) : Tally α →o Tally α where
  toFun x := 1 + f * x
  monotone' _ _ h := add_le_add le_rfl (mul_mono le_rfl h)

noncomputable instance : KStar (Tally α) where
  kstar f := f.round.lfp

theorem one_add_mul_kstar (f : Tally α) : 1 + f * f∗ = f∗ :=
  f.round.map_lfp

theorem kstar_le (h : 1 + f * x ≤ x) : f∗ ≤ x :=
  f.round.lfp_le h

theorem kstar_mono (h : f ≤ g) : f∗ ≤ g∗ :=
  kstar_le ((add_le_add le_rfl (mul_mono h le_rfl)).trans (one_add_mul_kstar g).le)

/-! ### Counting -/

/-- The tally of texts that come about in one way or not at all. -/
noncomputable def indicator (L : Language α) : Tally α :=
  open Classical in fun w => if w ∈ L then 1 else 0

/-- How many things of a set have each text. -/
noncomputable def count (s : Set β) (y : β → List α) : Tally α :=
  fun w => {b ∈ s | y b = w}.encard

theorem count_mono (h : s ⊆ t) : count s y ≤ count t y :=
  fun _ => Set.encard_le_encard fun _ hb => ⟨h hb.1, hb.2⟩

theorem count_empty : count (∅ : Set β) y = 0 := by
  ext w
  simp [count]

/-- To be given other names does not change the number of things. -/
theorem count_image {k : γ → β} {u : Set γ} (hk : Set.InjOn k u) : count (k '' u) y = count u fun x => y (k x) := by
  ext w
  have himage : {b ∈ k '' u | y b = w} = k '' {x ∈ u | y (k x) = w} := by
    ext b
    constructor
    · rintro ⟨⟨x, hx, rfl⟩, hw⟩
      exact ⟨x, ⟨hx, hw⟩, rfl⟩
    · rintro ⟨x, ⟨hx, hw⟩, rfl⟩
      exact ⟨⟨x, hx, rfl⟩, hw⟩
  rw [count, himage, (hk.mono fun _ hx => hx.1).encard_image, count]

theorem count_union (h : Disjoint s t) : count (s ∪ t) y = count s y + count t y := by
  ext w
  have hunion : {b ∈ s ∪ t | y b = w} = {b ∈ s | y b = w} ∪ {b ∈ t | y b = w} := by
    ext b
    exact or_and_right
  rw [count, hunion, Set.encard_union_eq (h.mono (fun _ hb => hb.1) fun _ hb => hb.1)]
  rfl

theorem indicator_le_count {L : Language α} (h : ∀ w ∈ L, ∃ b ∈ s, y b = w) : indicator L ≤ count s y := by
  intro w
  rw [indicator]
  split
  · next hw =>
    obtain ⟨b, hb, hy⟩ := h w hw
    exact Set.one_le_encard_iff_nonempty.mpr ⟨b, hb, hy⟩
  · exact bot_le

theorem count_le_indicator {L : Language α} (h : ∀ b ∈ s, y b ∈ L) (hy : Set.InjOn y s) : count s y ≤ indicator L := by
  intro w
  have hone : {b ∈ s | y b = w}.encard ≤ 1 := Set.encard_le_one_iff.mpr fun a b ha hb =>
    hy ha.1 hb.1 (ha.2.trans hb.2.symm)
  rw [indicator]
  split
  · exact hone
  · next hw =>
    refine (Set.encard_eq_zero.mpr (Set.eq_empty_of_forall_notMem fun b hb => hw ?_)).le
    rw [← hb.2]
    exact h b hb.1

theorem indicator_one : indicator (1 : Language α) = 1 := by
  ext w
  cases w with
  | nil => exact if_pos rfl
  | cons c w => exact if_neg (List.cons_ne_nil c w)

theorem one_le_count {b : β} (hb : b ∈ s) (hy : y b = []) : 1 ≤ count s y := by
  rw [← indicator_one]
  refine indicator_le_count fun w hw => ⟨b, hb, ?_⟩
  rw [hy, (Language.mem_one w).mp hw]

/-- What follows a character is counted by the things whose text begins with it. -/
theorem after_count (c : α) :
    (count s y).after c = count {b ∈ s | ∃ v, y b = c :: v} fun b => (y b).tail := by
  ext v
  rw [after, count, count]
  congr 1
  ext b
  constructor
  · rintro ⟨hb, hv⟩
    exact ⟨⟨hb, v, hv⟩, by rw [hv, List.tail_cons]⟩
  · rintro ⟨⟨hb, v', hv'⟩, hv⟩
    rw [hv', List.tail_cons] at hv
    exact ⟨hb, hv ▸ hv'⟩

/-- Pairs of things, whose texts follow each other. -/
theorem count_mul {u : Set γ} {z : γ → List α} :
    count s y * count u z = count (s ×ˢ u) fun p => y p.1 ++ z p.2 := by
  ext w
  induction w generalizing s y with
  | nil =>
    rw [mul_nil, count, count, ← Set.encard_prod, count]
    congr 1
    ext ⟨b, d⟩
    simp only [Set.mem_prod, Set.mem_ofPred_eq, List.append_eq_nil_iff]
    tauto
  | cons c w ih =>
    rw [mul_cons, after_count, ih, count, count, ← Set.encard_prod, count, count, ← Set.encard_union_eq]
    · congr 1
      ext ⟨b, d⟩
      simp only [Set.mem_union, Set.mem_prod, Set.mem_ofPred_eq]
      cases hb : y b with
      | nil => simp [and_assoc]
      | cons e v =>
        simp only [List.cons_append, List.cons.injEq, List.tail_cons, reduceCtorEq, and_false, false_and, false_or]
        constructor
        · rintro ⟨⟨⟨hb, v', rfl, -⟩, hd⟩, hw⟩
          exact ⟨⟨hb, hd⟩, rfl, hw⟩
        · rintro ⟨⟨hb, hd⟩, rfl, hw⟩
          exact ⟨⟨⟨hb, v, rfl, rfl⟩, hd⟩, hw⟩
    · rw [Set.disjoint_left]
      rintro ⟨b, d⟩ hbd ⟨⟨⟨-, v, hv⟩, -⟩, -⟩
      have hnil := hbd.1.2
      rw [hv] at hnil
      cases hnil

theorem count_singleton {b : β} : count {b} y = indicator {y b} := by
  refine le_antisymm (count_le_indicator ?_ (Set.injOn_singleton y b)) (indicator_le_count ?_)
  · rintro _ rfl
    rfl
  · rintro _ rfl
    exact ⟨b, rfl, rfl⟩

theorem indicator_mul_indicator (u v : List α) : indicator {u} * indicator {v} = indicator {u ++ v} := by
  have hid (w : List α) : indicator {w} = count {w} fun x => x := (count_singleton (y := fun x => x)).symm
  rw [hid, hid, count_mul, Set.singleton_prod_singleton, count_singleton]

/-- Things that stand at the places of a list, told apart by the place. -/
def indexed (l : List γ) (e : γ → Set β) : Set (Nat × β) :=
  {x | ∃ a, l[x.1]? = some a ∧ x.2 ∈ e a}

theorem count_indexed (l : List γ) (e : γ → Set β) :
    count (indexed l e) (fun x => y x.2) = (l.map fun a => count (e a) y).sum := by
  induction l with
  | nil =>
    rw [List.map_nil, List.sum_nil, show indexed [] e = ∅ from ?_, count_empty]
    exact Set.eq_empty_of_forall_notMem fun x ⟨a, ha, _⟩ => by cases ha
  | cons a l ih =>
    have hsplit : indexed (a :: l) e = (fun b => (0, b)) '' e a ∪ (fun x => (x.1 + 1, x.2)) '' indexed l e := by
      ext ⟨i, b⟩
      cases i with
      | zero => simp [indexed]
      | succ i => simp [indexed]
    rw [hsplit, count_union, List.map_cons, List.sum_cons, ← ih, count_image, count_image]
    · exact fun _ _ _ _ h => by simpa [Prod.ext_iff] using h
    · exact fun _ _ _ _ h => congrArg Prod.snd h
    · rw [Set.disjoint_left]
      rintro _ ⟨b, -, rfl⟩ ⟨x, -, hx⟩
      exact absurd (congrArg Prod.fst hx) (Nat.succ_ne_zero _)

end Tally

end Ixml
