import ComplexAlgebra.Proofs.Stability
import ComplexAlgebra.Proofs.UnitCoefficient

/-! Division by zero in doubles. A zero under the quotient makes both components not-a-number,
whatever is divided, so the quotient is no zero. -/
namespace ComplexAlgebra

namespace Binary64

/-- A zero or not-a-number: what a multiple of zero can be. -/
def Vanishes (x : Float) : Prop := rank x = 0 ∨ x = nan

theorem vanishes_mul {z : Float} (x : Float) (hz : rank z = 0) : Vanishes (x * z) := by
  obtain ⟨t, ht⟩ := unpack_of_rank hz
  rw [mul_eq_pack, ht]
  cases x.toModel.unpack with
  | infinity s => exact .inr rfl
  | notANumber => exact .inr rfl
  | zero s => exact .inl (rank_pack_zero _)
  | finite s m q hm => exact .inl (rank_pack_zero _)

theorem Vanishes.add {x y : Float} (hx : Vanishes x) (hy : Vanishes y) : Vanishes (x + y) := by
  rcases hx with hx | rfl
  · rcases hy with hy | rfl
    · exact .inl ((same_iff.1 (same_zero_add y hx)).trans hy)
    · exact .inr (add_nan x)
  · exact .inr (nan_add y)

theorem Vanishes.div {x z : Float} (hx : Vanishes x) (hz : rank z = 0) : x / z = nan := by
  obtain ⟨t, ht⟩ := unpack_of_rank hz
  rw [div_eq_pack, ht]
  rcases hx with hx | rfl
  · obtain ⟨s, hs⟩ := unpack_of_rank hx
    rw [hs]
    rfl
  · rfl

theorem rank_mul_self {z : Float} (hz : rank z = 0) : rank (z * z) = 0 := by
  rcases eq_zero_of_rank hz with rfl | rfl <;> decide

end Binary64

namespace FloatNumber

open Binary64

theorem div_zero {b : FloatNumber} (a : FloatNumber) (hb : (b == 0) = true) :
    a / b = Number.nan := by
  have hre : rank b.re = 0 := same_iff.1 (same_re_of_beq hb)
  have him : rank b.im = 0 := same_iff.1 (same_im_of_beq hb)
  have hnorm : rank (b.re * b.re + b.im * b.im) = 0 :=
    (same_iff.1 (same_zero_add _ (rank_mul_self hre))).trans (rank_mul_self him)
  rw [Number.div_def]
  apply make_nan
  exact .inl (((vanishes_mul a.re hre).add (vanishes_mul a.im him)).div hnorm)

/-- Doubles have the numbers zero, one and two apart, and none is a quotient by zero. -/
theorem standard : Arithmetic.Standard FloatNumber where
  zero_ne_one a ha := by
    refine Bool.eq_false_iff.2 fun h1 => ?_
    have hzero : rank a.re = 0 := same_iff.1 (same_re_of_beq ha)
    have hone : rank a.re = rank 1.0 := (same_iff.1 (same_re_of_beq h1)).trans rank_one
    exact absurd (hzero.symm.trans hone) (by decide)
  two_ne_zero := by decide
  two_ne_one := by decide
  div_zero_ne_zero a b hb := by
    rw [div_zero a hb]
    decide

end FloatNumber
end ComplexAlgebra
