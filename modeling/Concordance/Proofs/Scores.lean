import Mathlib

/-!
# The order of scores

A score is a floating-point number. Comparing two of them goes by their signs, exponents and
mantissas, and a score that is not a number compares with none. Here every number gets a place in a
linear order (`place`), and numbers compare as their places do (`lt_iff_place_lt`,
`beq_iff_place_eq`). So numbers are ordered linearly up to `==`, which holds of the two zeros.
-/

namespace Concordance.Score

open Float.Model

/-! ### Places -/

/-- The place of an unpacked number: by its kind and sign, and for finite numbers of one sign by
exponent and mantissa. -/
def unpackedPlace : UnpackedFloat → ℤ ×ₗ ℤ ×ₗ ℤ
  | .infinity .negative => toLex (-2, toLex (0, 0))
  | .finite .negative m e _ => toLex (-1, toLex (-e, -m))
  | .finite .positive m e _ => toLex (1, toLex (e, m))
  | .infinity .positive => toLex (2, toLex (0, 0))
  | _ => toLex (0, toLex (0, 0))

/-- The place of a score among the numbers. -/
def place (x : Float) : ℤ ×ₗ ℤ ×ₗ ℤ :=
  unpackedPlace x.toModel.unpack

section Unpacked

variable {a b : UnpackedFloat} (ha : a.isNaN = false) (hb : b.isNaN = false)

include ha hb

-- by kind and sign: either these decide, or exponent and mantissa do on both sides

theorem compare_eq_lt_iff : a.compare b = some .lt ↔ unpackedPlace a < unpackedPlace b := by
  rcases a with ⟨_ | _⟩ | _ | ⟨_ | _⟩ | ⟨_ | _, m, e, hm⟩
  case notANumber => exact nomatch ha
  all_goals
    rcases b with ⟨_ | _⟩ | _ | ⟨_ | _⟩ | ⟨_ | _, m', e', hm'⟩
    case notANumber => exact nomatch hb
    all_goals
      simp [UnpackedFloat.compare, unpackedPlace, Prod.Lex.toLex_lt_toLex, Ordering.swap_eq_lt,
        Ordering.then_eq_gt, Ordering.then_eq_lt, compare_lt_iff_lt, compare_gt_iff_gt]
  all_goals decide

theorem compare_eq_eq_iff : a.compare b = some .eq ↔ unpackedPlace a = unpackedPlace b := by
  rcases a with ⟨_ | _⟩ | _ | ⟨_ | _⟩ | ⟨_ | _, m, e, hm⟩
  case notANumber => exact nomatch ha
  all_goals
    rcases b with ⟨_ | _⟩ | _ | ⟨_ | _⟩ | ⟨_ | _, m', e', hm'⟩
    case notANumber => exact nomatch hb
    all_goals simp [UnpackedFloat.compare, unpackedPlace, Ordering.swap_eq_eq, Ordering.then_eq_eq]
  all_goals decide

end Unpacked

/-! ### Scores -/

section Numbers

variable {x y : Float} (hx : x.isNaN = false) (hy : y.isNaN = false)

include hx hy

/-- **Numbers are ordered as their places are.** -/
theorem lt_iff_place_lt : x < y ↔ place x < place y := by
  rw [place, place, ← compare_eq_lt_iff hx hy]
  show decide (x.toModel < y.toModel) = true ↔ _
  rw [decide_eq_true_iff]
  show (x.toModel.unpack.compare y.toModel.unpack == some .lt) = true ↔ _
  rw [beq_iff_eq]

/-- **Numbers are equal as their places are.** -/
theorem beq_iff_place_eq : (x == y) = true ↔ place x = place y := by
  rw [place, place, ← compare_eq_eq_iff hx hy]
  show (x.toModel.unpack.compare y.toModel.unpack == some .eq) = true ↔ _
  rw [beq_iff_eq]

end Numbers

end Concordance.Score
