import ComplexAlgebra.Proofs.UnitArithmetic
import ComplexAlgebra.Value

/-! Multiplication of a number with one and division by one. Both settle its components once more,
and both lose a number that is not finite. -/
namespace ComplexAlgebra

namespace Binary64

theorem settle_of_rank {x : Float} (h : rank x = 0) : settle x = 0 := by
  rcases eq_zero_of_rank h with rfl | rfl <;> decide

theorem isFinite_of_rank {x : Float} (h : rank x = 0) : x.isFinite = true := by
  rcases eq_zero_of_rank h with rfl | rfl <;> decide

theorem isFinite_congr {x y : Float} (h : same x y = true) : x.isFinite = y.isFinite := by
  rcases eq_of_same h with rfl | ⟨hx, hy⟩
  · rfl
  · rw [isFinite_of_rank hx, isFinite_of_rank hy]

theorem settle_congr {x y : Float} (h : same x y = true) : settle x = settle y := by
  rcases eq_of_same h with rfl | ⟨hx, hy⟩
  · rfl
  · rw [settle_of_rank hx, settle_of_rank hy]

theorem isNaN_of_isFinite {x : Float} (h : x.isFinite = true) : x.isNaN = false := by
  have hx : x.toModel.unpack.isFinite = true := h
  show x.toModel.unpack.isNaN = false
  cases hu : x.toModel.unpack with
  | notANumber => rw [hu] at hx; cases hx
  | _ => rfl

theorem isInf_of_isFinite {x : Float} (h : x.isFinite = true) : x.isInf = false := by
  have hx : x.toModel.unpack.isFinite = true := h
  show x.toModel.unpack.isInf = false
  cases hu : x.toModel.unpack with
  | infinity s => rw [hu] at hx; cases hx
  | _ => rfl

theorem settlePair_of_isFinite {x y : Float} (hx : x.isFinite = true) (hy : y.isFinite = true) :
    settlePair x y = (settle x, settle y) := by
  rw [settlePair, isNaN_of_isFinite hx, isNaN_of_isFinite hy, isInf_of_isFinite hx,
    isInf_of_isFinite hy]
  rfl

end Binary64

namespace FloatNumber

open Binary64

/-- What a number becomes that is multiplied with one or divided by it. -/
def settled (z : FloatNumber) : FloatNumber :=
  if z.isFinite then ⟨settle z.re, settle z.im⟩ else Number.nan

theorem make_of_same {z : FloatNumber} (h : z.isFinite = true) {x y : Float}
    (hx : same x z.re = true) (hy : same y z.im = true) : Number.make x y = z.settled := by
  obtain ⟨hre, him⟩ := Bool.and_eq_true_iff.1 h
  have hpair := settlePair_of_isFinite ((isFinite_congr hx).trans hre)
    ((isFinite_congr hy).trans him)
  rw [settled, if_pos h, ← settle_congr hx, ← settle_congr hy]
  show (⟨(settlePair x y).1, (settlePair x y).2⟩ : FloatNumber) = _
  rw [hpair]

theorem make_nan {x y : Float} (h : x = nan ∨ y = nan) : Number.make x y = Number.nan := by
  have hpair : settlePair x y = (nan, 0) := by
    rcases h with rfl | rfl
    · rfl
    · rw [settlePair, show nan.isNaN = true from rfl, Bool.or_true, if_pos rfl]
  show (⟨(settlePair x y).1, (settlePair x y).2⟩ : FloatNumber) = _
  rw [hpair]
  rfl

theorem not_isFinite {z : FloatNumber} (h : ¬ z.isFinite = true) :
    z.re.isFinite = false ∨ z.im.isFinite = false := by
  rw [isFinite, Bool.not_eq_true, Bool.and_eq_false_iff] at h
  exact h

theorem mul_one_eq_settled (z : FloatNumber) : z * 1 = z.settled := by
  show Number.make (z.re * 1.0 - z.im * 0.0) (z.re * 0.0 + z.im * 1.0) = _
  rw [Binary64.mul_one, Binary64.mul_one]
  by_cases h : z.isFinite = true
  · obtain ⟨hre, him⟩ := Bool.and_eq_true_iff.1 h
    exact make_of_same h (same_sub_zero _ (rank_mul_zero him)) (same_zero_add _ (rank_mul_zero hre))
  · rw [settled, if_neg h]
    apply make_nan
    rcases not_isFinite h with hre | him
    · exact .inr (by rw [mul_zero_of_not_finite hre, nan_add])
    · exact .inl (by rw [mul_zero_of_not_finite him, sub_nan])

theorem norm_one : (1.0 * 1.0 + 0.0 * 0.0 : Float) = 1.0 := by decide

theorem div_one_eq_settled (z : FloatNumber) : z / 1 = z.settled := by
  show Number.make ((z.re * 1.0 + z.im * 0.0) / (1.0 * 1.0 + 0.0 * 0.0))
    ((z.im * 1.0 - z.re * 0.0) / (1.0 * 1.0 + 0.0 * 0.0)) = _
  rw [norm_one, Binary64.div_one, Binary64.div_one, Binary64.mul_one, Binary64.mul_one]
  by_cases h : z.isFinite = true
  · obtain ⟨hre, him⟩ := Bool.and_eq_true_iff.1 h
    exact make_of_same h (same_add_zero _ (rank_mul_zero him)) (same_sub_zero _ (rank_mul_zero hre))
  · rw [settled, if_neg h]
    apply make_nan
    rcases not_isFinite h with hre | him
    · exact .inr (by rw [mul_zero_of_not_finite hre, sub_nan])
    · exact .inl (by rw [mul_zero_of_not_finite him, add_nan])

theorem settled_congr {z w : FloatNumber} (h : (z == w) = true) : z.settled = w.settled := by
  have hre := same_re_of_beq h
  have him := same_im_of_beq h
  have hfinite : z.isFinite = w.isFinite := by
    rw [isFinite, isFinite, isFinite_congr hre, isFinite_congr him]
  rw [settled, settled, hfinite, settle_congr hre, settle_congr him]

theorem beq_comm (z w : FloatNumber) : (z == w) = (w == z) := by
  show (same z.re w.re && same z.im w.im) = (same w.re z.re && same w.im z.im)
  rw [same_comm z.re, same_comm z.im]

theorem beq_congr {z w : FloatNumber} (h : (z == w) = true) (x : FloatNumber) :
    (z == x) = (w == x) := by
  rw [Number.beq_def, Number.beq_def]
  show (rank z.re == rank x.re && rank z.im == rank x.im) = _
  rw [same_iff.1 (same_re_of_beq h), same_iff.1 (same_im_of_beq h)]
  rfl

/-- Not-a-number, or finite with both components as they are settled. -/
def Settled (z : FloatNumber) : Prop :=
  (z == Number.nan) = true ∨
    z.isFinite = true ∧ same (settle z.re) z.re = true ∧ same (settle z.im) z.im = true

theorem settled_beq_iff {z : FloatNumber} : (z.settled == z) = true ↔ z.Settled := by
  unfold Settled settled
  by_cases h : z.isFinite = true
  · rw [if_pos h, Number.beq_def, Bool.and_eq_true]
    constructor
    · exact fun hh => .inr ⟨h, hh⟩
    · rintro (hnan | ⟨-, hh⟩)
      · have hfinite := isFinite_congr (same_re_of_beq hnan)
        rw [(Bool.and_eq_true_iff.1 h).1] at hfinite
        exact absurd hfinite (by decide)
      · exact hh
  · rw [if_neg h, beq_comm]
    exact ⟨.inl, fun hh => hh.resolve_right fun hh => h hh.1⟩

end FloatNumber
end ComplexAlgebra
