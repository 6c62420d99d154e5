import Mathlib.Data.Prod.Lex
import Mathlib.Order.Compare
import Ixml.Decimal.Shortest

/-!
# The order of doubles

Doubles that are numbers compare as their ranks do (`lt_iff_rank_lt`, `beq_iff_rank_eq`), and ranks are linearly
ordered. The two zeros have the same rank. A double that is no number is neither less than a double nor equal to it.
-/

namespace Ixml.Decimal

open Float.Model (UnpackedFloat)

variable {a b : UnpackedFloat} {x y : Float}

/-- Where the value of a double stands among those of the others: by its kind first, then by its exponent and its
mantissa, both counted down among the negative ones. -/
def rankOf : UnpackedFloat → ℤ ×ₗ ℤ ×ₗ ℤ
  | .infinity .negative => toLex (-2, toLex (0, 0))
  | .finite .negative m e _ => toLex (-1, toLex (-e, -m))
  | .zero _ | .notANumber => toLex (0, toLex (0, 0))
  | .finite .positive m e _ => toLex (1, toLex (e, m))
  | .infinity .positive => toLex (2, toLex (0, 0))

def rank (x : Float) : ℤ ×ₗ ℤ ×ₗ ℤ :=
  rankOf x.toModel.unpack

theorem compare_cast (m n : Nat) : compare (m : Int) (n : Int) = compare m n := by
  simp only [compare, compareOfLessAndEq, Int.ofNat_lt, Int.natCast_inj]

theorem compare_neg (m n : Int) : compare (-m) (-n) = (compare m n).swap := by
  have hswap : compare n m = (compare m n).swap := Std.OrientedCmp.eq_swap
  rw [← hswap]
  simp only [compare, compareOfLessAndEq, Int.neg_lt_neg_iff, Int.neg_inj, eq_comm]

theorem compare_eq_some_compare (ha : a ≠ .notANumber) (hb : b ≠ .notANumber) :
    a.compare b = some (compare (rankOf a) (rankOf b)) := by
  match a, b, ha, hb with
  | .notANumber, _, ha, _ => exact absurd rfl ha
  | _, .notANumber, _, hb => exact absurd rfl hb
  | .finite .positive m e _, .finite .positive m' e' _, _, _ =>
    show some ((compare e e').then (compare m m')) = some ((compare e e').then (compare (m : Int) m'))
    rw [compare_cast]
  | .finite .negative m e _, .finite .negative m' e' _, _, _ =>
    show some ((compare e e').then (compare m m')).swap =
      some ((compare (-e) (-e')).then (compare (-m : Int) (-m')))
    rw [compare_neg, compare_neg, compare_cast, Ordering.swap_then]
  | .infinity s, .infinity s', _, _ => cases s <;> cases s' <;> rfl
  | .infinity s, .zero s', _, _ => cases s <;> rfl
  | .infinity s, .finite s' _ _ _, _, _ => cases s <;> cases s' <;> rfl
  | .zero s, .infinity s', _, _ => cases s' <;> rfl
  | .zero s, .zero s', _, _ => rfl
  | .zero s, .finite s' _ _ _, _, _ => cases s' <;> rfl
  | .finite s _ _ _, .infinity s', _, _ => cases s <;> cases s' <;> rfl
  | .finite s _ _ _, .zero s', _, _ => cases s <;> rfl
  | .finite .positive _ _ _, .finite .negative _ _ _, _, _ => rfl
  | .finite .negative _ _ _, .finite .positive _ _ _, _, _ => rfl

theorem unpack_ne_of_isNaN (h : x.isNaN = false) : x.toModel.unpack ≠ .notANumber := fun hn => by
  rw [Float.isNaN, Float.Model.isNaN, hn] at h
  cases h

theorem lt_iff_rank_lt (hx : x.isNaN = false) (hy : y.isNaN = false) : x < y ↔ rank x < rank y := by
  have hlt : x < y ↔ (x.toModel.unpack.compare y.toModel.unpack == some .lt) = true := by
    show x.lt y = true ↔ _
    rw [Float.lt, decide_eq_true_iff]
    rfl
  rw [hlt, compare_eq_some_compare (unpack_ne_of_isNaN hx) (unpack_ne_of_isNaN hy), beq_iff_eq, Option.some.injEq,
    compare_lt_iff_lt]
  rfl

theorem beq_iff_rank_eq (hx : x.isNaN = false) (hy : y.isNaN = false) : (x == y) = true ↔ rank x = rank y := by
  have hbeq : (x == y) = (x.toModel.unpack.compare y.toModel.unpack == some .eq) := rfl
  rw [hbeq, compare_eq_some_compare (unpack_ne_of_isNaN hx) (unpack_ne_of_isNaN hy), beq_iff_eq, Option.some.injEq,
    compare_eq_iff_eq]
  rfl

end Ixml.Decimal
