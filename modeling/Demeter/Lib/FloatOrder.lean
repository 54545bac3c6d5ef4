import Mathlib.Data.Prod.Lex
import Mathlib.Order.Compare
import Mathlib.Tactic

/-!
# The order of doubles

Comparisons of doubles are those of a linear order, once NaN is set apart.

* `rank` is the place of a double in that order, `lt_iff` and `le_iff` are the comparisons;
* `negInf` is minus infinity, and `negInf_lt_of_lt` says that it is below all other doubles.
-/

namespace FloatOrder

open Float.Model

/-- Class, exponent and mantissa, the last two reversed for a negative number. -/
abbrev Rank := ℤ ×ₗ ℤ ×ₗ ℤ

/-- The position of a number in the order; `none` is not a number. -/
def unpackedRank : UnpackedFloat → Option Rank
  | .notANumber => none
  | .infinity .negative => some (toLex (-2, toLex (0, 0)))
  | .finite .negative m e _ => some (toLex (-1, toLex (-e, -m)))
  | .zero _ => some (toLex (0, toLex (0, 0)))
  | .finite .positive m e _ => some (toLex (1, toLex (e, m)))
  | .infinity .positive => some (toLex (2, toLex (0, 0)))

/-- The place of a double in the order; `none` for NaN. -/
def rank (a : Float) : Option Rank := unpackedRank a.toModel.unpack

/-! ### Comparisons -/

theorem compare_toLex {α β : Type*} [Ord α] [Ord β] (x x' : α) (y y' : β) :
    compare (toLex (x, y)) (toLex (x', y')) = (compare x x').then (compare y y') := by
  rw [Prod.Lex.compare_def]
  rfl

theorem compare_natCast (m n : ℕ) : compare (m : ℤ) (n : ℤ) = compare m n := by
  rw [← cmp_eq_compare, ← cmp_eq_compare, Nat.strictMono_cast.cmp_map_eq]

theorem compare_neg (x y : ℤ) : compare (-x) (-y) = (compare x y).swap := by
  have hanti : StrictAnti fun x : ℤ => -x := fun _ _ => neg_lt_neg
  rw [← cmp_eq_compare, ← cmp_eq_compare, cmp_swap]
  exact hanti.cmp_map_eq x y

theorem compare_magnitude (c e e' : ℤ) (m m' : ℕ) :
    compare (toLex (c, toLex (e, (m : ℤ)))) (toLex (c, toLex (e', (m' : ℤ)))) =
      (compare e e').then (compare m m') := by
  rw [compare_toLex, compare_toLex, compare_natCast, compare_eq_iff_eq.2 (rfl : c = c),
    Ordering.eq_then]

theorem compare_neg_magnitude (c e e' : ℤ) (m m' : ℕ) :
    compare (toLex (c, toLex (-e, -(m : ℤ)))) (toLex (c, toLex (-e', -(m' : ℤ)))) =
      ((compare e e').then (compare m m')).swap := by
  rw [compare_toLex, compare_toLex, compare_neg, compare_neg, compare_natCast,
    compare_eq_iff_eq.2 (rfl : c = c), Ordering.eq_then, Ordering.swap_then]

theorem compare_eq_rank (a b : UnpackedFloat) :
    a.compare b = (unpackedRank a).bind fun x => (unpackedRank b).map fun y => compare x y := by
  rcases a with (_ | _) | _ | _ | ⟨_ | _, m, e, _⟩ <;>
    rcases b with (_ | _) | _ | _ | ⟨_ | _, m', e', _⟩
  -- numbers of one sign; the classes settle the rest
  case finite.negative.finite.negative =>
    exact congrArg some (compare_neg_magnitude (-1) e e' m m').symm
  case finite.positive.finite.positive =>
    exact congrArg some (compare_magnitude 1 e e' m m').symm
  all_goals rfl

variable {a b c : Float}

theorem lt_iff : a < b ↔ ∃ x ∈ rank a, ∃ y ∈ rank b, x < y := by
  have hlt : a < b ↔ a.toModel.unpack.compare b.toModel.unpack = some .lt :=
    decide_eq_true_iff.trans beq_iff_eq
  rw [hlt, compare_eq_rank, rank, rank]
  cases unpackedRank a.toModel.unpack with
  | none => simp
  | some x =>
    cases unpackedRank b.toModel.unpack with
    | none => simp
    | some y => simp [compare_lt_iff_lt]

theorem le_iff : a ≤ b ↔ ∃ x ∈ rank a, ∃ y ∈ rank b, x ≤ y := by
  have hle : a ≤ b ↔ (a.toModel.unpack.compare b.toModel.unpack).any (·.isLE) = true :=
    decide_eq_true_iff
  rw [hle, compare_eq_rank, rank, rank]
  cases unpackedRank a.toModel.unpack with
  | none => simp
  | some x =>
    cases unpackedRank b.toModel.unpack with
    | none => simp
    | some y => simp [← Ordering.ne_gt_iff_isLE, compare_le_iff_le]

theorem lt_trans (hab : a < b) (hbc : b < c) : a < c := by
  obtain ⟨x, hx, y, hy, hxy⟩ := lt_iff.1 hab
  obtain ⟨y', hy', z, hz, hyz⟩ := lt_iff.1 hbc
  obtain rfl := Option.some.inj (hy.symm.trans hy')
  exact lt_iff.2 ⟨x, hx, z, hz, hxy.trans hyz⟩

theorem not_lt_of_le (h : a ≤ b) : ¬ b < a := by
  intro hlt
  obtain ⟨x, hx, y, hy, hxy⟩ := le_iff.1 h
  obtain ⟨y', hy', x', hx', hyx⟩ := lt_iff.1 hlt
  obtain rfl := Option.some.inj (hx.symm.trans hx')
  obtain rfl := Option.some.inj (hy.symm.trans hy')
  exact absurd hyx hxy.not_gt

/-! ### Minus infinity -/

/-- Minus infinity. -/
def negInf : Float := -(1.0 / 0.0)

theorem rank_negInf : rank negInf = some (toLex (-2, toLex (0, 0))) := by decide +kernel

theorem negInf_le {x : Rank} (h : rank a = some x) : toLex (-2, toLex (0, 0)) ≤ x := by
  unfold rank at h
  generalize a.toModel.unpack = u at h
  rcases u with (_ | _) | _ | _ | ⟨_ | _, m, e, _⟩ <;> cases h <;>
    simp [Prod.Lex.toLex_le_toLex]

/-- What is above another double is above minus infinity. -/
theorem negInf_lt_of_lt (h : a < b) : negInf < b := by
  obtain ⟨x, hx, y, hy, hxy⟩ := lt_iff.1 h
  exact lt_iff.2 ⟨_, rank_negInf, y, hy, (negInf_le hx).trans_lt hxy⟩

end FloatOrder
