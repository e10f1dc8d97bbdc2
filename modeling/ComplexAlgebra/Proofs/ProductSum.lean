import ComplexAlgebra.Proofs.CorrectRounding

/-! Sums of two products of doubles, which complex products, quotients and magnitudes are put
together from: three roundings, each of which may leave the range, and the error they make. -/
namespace ComplexAlgebra
namespace Binary64

open Float.Model Float.Model.UnpackedFloat

variable {p q v w : ℚ} {x y : Float} {s t : Sign}

theorem signOf_neg (hv : v ≠ 0) : signOf (-v) = -signOf v := by
  rcases lt_or_gt_of_ne hv with h | h
  · rw [signOf, signOf, if_neg (not_lt.2 (neg_nonneg.2 h.le)), if_pos h]
    rfl
  · rw [signOf, signOf, if_pos (neg_neg_of_pos h), if_neg h.not_gt]
    rfl

theorem roundedTo_neg (v : ℚ) : roundedTo (-v) = -roundedTo v := by
  rcases eq_or_ne v 0 with rfl | hv
  · rw [neg_zero, roundedTo_zero, neg_zero]
  · rw [roundedTo, roundedTo, abs_neg, signOf_neg hv, withSign_neg]

theorem RoundsTo.neg (h : RoundsTo x v) : RoundsTo (-x) (-v) := by
  refine ⟨fun hlt => ?_, fun hlt => ?_, fun hge => ?_⟩
  · rw [isFinite_neg]
    exact h.isFinite (by rwa [abs_neg] at hlt)
  · rw [exactValue_neg, roundedTo_neg, h.value (by rwa [abs_neg] at hlt)]
  · rw [abs_neg] at hge
    have hv : v ≠ 0 := abs_pos.1 (threshold_pos.trans_le hge)
    rw [h.infinite hge, signOf_neg hv, signed_neg]

/-- Three roundings stay in the range: those of the products and that of the sum. -/
def SumFits (p q : ℚ) : Prop :=
  |p| < threshold ∧ |q| < threshold ∧ |roundedTo p + roundedTo q| < threshold

theorem abs_roundedTo_le {k : Int} (hk : -1022 ≤ k) (hv : |v| ≤ 2 ^ k) : |roundedTo v| ≤ 2 ^ k := by
  rw [abs_roundedTo]
  rcases (abs_nonneg v).eq_or_lt with h0 | hpos
  · rw [← h0, rounded_zero]
    exact (zpow_pos (by norm_num) k).le
  · exact rounded_le hpos (isDouble_two_pow hk) hv

theorem abs_add_lt_threshold (hp : |p| ≤ 2 ^ (1020 : Int)) (hq : |q| ≤ 2 ^ (1020 : Int)) :
    |p + q| < threshold := by
  have htwice : (2 : ℚ) ^ (1021 : Int) = 2 ^ (1020 : Int) * 2 := zpow_add_one₀ (by norm_num) 1020
  calc |p + q| ≤ |p| + |q| := abs_add_le p q
    _ ≤ 2 ^ (1020 : Int) * 2 := (add_le_add hp hq).trans_eq (mul_two _).symm
    _ = 2 ^ (1021 : Int) := htwice.symm
    _ < 2 ^ (1023 : Int) := zpow_lt_zpow_right₀ (by norm_num) (by norm_num)
    _ ≤ threshold := two_pow_le_threshold

theorem sumFits_of_le (hp : |p| ≤ 2 ^ (1020 : Int)) (hq : |q| ≤ 2 ^ (1020 : Int)) :
    SumFits p q := by
  have hlt : (2 : ℚ) ^ (1020 : Int) < threshold :=
    (zpow_lt_zpow_right₀ (by norm_num) (by norm_num)).trans_le two_pow_le_threshold
  exact ⟨hp.trans_lt hlt, hq.trans_lt hlt, abs_add_lt_threshold (abs_roundedTo_le (by norm_num) hp)
    (abs_roundedTo_le (by norm_num) hq)⟩

/-- What three roundings make of a sum of products. -/
def roundedSum (p q : ℚ) : ℚ := roundedTo (roundedTo p + roundedTo q)

namespace RoundsTo

theorem isFinite_add_iff (hx : RoundsTo x p) (hy : RoundsTo y q) :
    (x + y).isFinite = true ↔ SumFits p q := by
  constructor
  · intro h
    obtain ⟨hxf, hyf⟩ := isFinite_of_add h
    have hp := hx.isFinite_iff.1 hxf
    have hq := hy.isFinite_iff.1 hyf
    refine ⟨hp, hq, ?_⟩
    rw [← hx.value hp, ← hy.value hq]
    exact (roundsTo_add hxf hyf).isFinite_iff.1 h
  · rintro ⟨hp, hq, hsum⟩
    rw [← hx.value hp, ← hy.value hq] at hsum
    exact (roundsTo_add (hx.isFinite hp) (hy.isFinite hq)).isFinite hsum

theorem exactValue_add (hx : RoundsTo x p) (hy : RoundsTo y q) (h : SumFits p q) :
    exactValue (x + y) = roundedSum p q := by
  obtain ⟨hp, hq, hsum⟩ := h
  rw [roundedSum, ← hx.value hp, ← hy.value hq] at *
  exact (roundsTo_add (hx.isFinite hp) (hy.isFinite hq)).value hsum

theorem isFinite_sub_iff (hx : RoundsTo x p) (hy : RoundsTo y q) :
    (x - y).isFinite = true ↔ SumFits p (-q) := by
  rw [Binary64.sub_eq_add_neg]
  exact hx.isFinite_add_iff hy.neg

theorem exactValue_sub (hx : RoundsTo x p) (hy : RoundsTo y q) (h : SumFits p (-q)) :
    exactValue (x - y) = roundedSum p (-q) := by
  rw [Binary64.sub_eq_add_neg]
  exact hx.exactValue_add hy.neg h

end RoundsTo

section Infinite

theorem RoundsTo.isFinite_or (h : RoundsTo x v) (hv : 0 ≤ v) :
    x.isFinite = true ∨ x = infinity := by
  rcases lt_or_ge |v| threshold with hlt | hge
  · exact .inl (h.isFinite hlt)
  · right
    rw [h.infinite hge, signOf, if_neg hv.not_gt]
    rfl

theorem infinity_add (hy : y.isFinite = true ∨ y = infinity) : infinity + y = infinity := by
  rcases hy with hy | rfl
  · rw [add_eq_pack]
    rcases unpack_cases_of_isFinite hy with ⟨t, hyu, -⟩ | ⟨t, n, q, hn, hyu, -⟩ <;> rw [hyu] <;> rfl
  · rfl

theorem add_infinity (hx : x.isFinite = true) : x + infinity = infinity := by
  rw [add_eq_pack]
  rcases unpack_cases_of_isFinite hx with ⟨t, hxu, -⟩ | ⟨t, n, q, hn, hxu, -⟩ <;> rw [hxu] <;> rfl

theorem RoundsTo.add_eq_infinity (hx : RoundsTo x p) (hy : RoundsTo y q) (hp : 0 ≤ p) (hq : 0 ≤ q)
    (h : ¬ SumFits p q) : x + y = infinity := by
  rcases hx.isFinite_or hp with hxf | rfl
  · rcases hy.isFinite_or hq with hyf | rfl
    · have hsum := roundsTo_add hxf hyf
      refine (hsum.isFinite_or ?_).resolve_left fun hfinite =>
        h ((hx.isFinite_add_iff hy).1 hfinite)
      rw [hx.value (hx.isFinite_iff.1 hxf), hy.value (hy.isFinite_iff.1 hyf)]
      exact add_nonneg (roundedTo_nonneg hp) (roundedTo_nonneg hq)
    · exact add_infinity hxf
  · exact infinity_add (hy.isFinite_or hq)

end Infinite

section Error

theorem abs_roundedTo_sub_le (v : ℚ) : |roundedTo v - v| ≤ |v| / 2 ^ 53 + 2 ^ (-1074 : Int) := by
  have hleast : (0 : ℚ) < 2 ^ (-1074 : Int) := zpow_pos (by norm_num) _
  rcases eq_or_ne v 0 with rfl | hv
  · rw [roundedTo_zero, sub_zero, abs_zero, zero_div, zero_add]
    exact hleast.le
  have hpos : 0 < |v| := abs_pos.2 hv
  have hmagnitude : |roundedTo v - v| = abs (rounded |v| - |v|) := by
    nth_rewrite 2 [← withSign_signOf v]
    rw [roundedTo]
    cases signOf v with
    | positive => rfl
    | negative => rw [withSign, withSign, neg_sub_neg, abs_sub_comm]
  rw [hmagnitude]
  rcases le_or_gt (2 ^ (-1022 : Int)) |v| with hnormal | hsmall
  · exact (abs_rounded_sub_le_mul hnormal).trans (le_add_of_nonneg_right hleast.le)
  · have hexp : exponentOf |v| = -1074 := by
      have hle := exponentOf_le (k := -1021) hpos (by norm_num)
        (hsmall.trans (zpow_lt_zpow_right₀ (by norm_num) (by norm_num)))
      have hge := least_le_exponentOf |v|
      omega
    have herror := abs_rounded_sub_le hpos
    rw [hexp] at herror
    have hshare : 0 ≤ |v| / 2 ^ 53 := by positivity
    linarith

/-- Three roundings, of which two are of the products. -/
theorem abs_roundedSum_sub_le (p q : ℚ) :
    |roundedSum p q - (p + q)| ≤
      5 / 2 * ((|p| + |q|) / 2 ^ 53) + 4 * 2 ^ (-1074 : Int) := by
  have hp := abs_roundedTo_sub_le p
  have hq := abs_roundedTo_sub_le q
  have hsum := abs_roundedTo_sub_le (roundedTo p + roundedTo q)
  have hsize := abs_add_le (roundedTo p) (roundedTo q)
  have hleast : (0 : ℚ) < 2 ^ (-1074 : Int) := zpow_pos (by norm_num) _
  have hp' := abs_add_le (roundedTo p - p) p
  have hq' := abs_add_le (roundedTo q - q) q
  have hsplit : roundedSum p q - (p + q) =
      roundedTo (roundedTo p + roundedTo q) - (roundedTo p + roundedTo q) +
        ((roundedTo p - p) + (roundedTo q - q)) := by
    rw [roundedSum]
    ring
  have hparts := abs_add_le (roundedTo (roundedTo p + roundedTo q) - (roundedTo p + roundedTo q))
    ((roundedTo p - p) + (roundedTo q - q))
  have hproducts := abs_add_le (roundedTo p - p) (roundedTo q - q)
  rw [← hsplit] at hparts
  rw [sub_add_cancel] at hp' hq'
  have hp0 := abs_nonneg p
  have hq0 := abs_nonneg q
  linarith

variable {u : ℚ}

theorem le_roundedSum (hu : u = 0 ∨ 2 ^ (-100 : Int) ≤ u) (hv : v = 0 ∨ 2 ^ (-100 : Int) ≤ v) :
    (u + v) * (1 - 2 / 2 ^ 53) ≤ roundedSum u v := by
  have hnormal : (2 : ℚ) ^ (-1022 : Int) ≤ 2 ^ (-101 : Int) :=
    zpow_le_zpow_right₀ (by norm_num) (by norm_num)
  have hhalf : (2 : ℚ) ^ (-100 : Int) = 2 ^ (-101 : Int) * 2 := zpow_add_one₀ (by norm_num) (-101)
  have hunit : (0 : ℚ) < 2 ^ (-101 : Int) := zpow_pos (by norm_num) _
  have hone {w : ℚ} (hw : w = 0 ∨ 2 ^ (-100 : Int) ≤ w) :
      0 ≤ w ∧ 0 ≤ roundedTo w ∧ w * (1 - 1 / 2 ^ 53) ≤ roundedTo w := by
    rcases hw with rfl | hw
    · rw [roundedTo_zero, zero_mul]
      exact ⟨le_rfl, le_rfl, le_rfl⟩
    · have herror := abs_le.1 (abs_rounded_sub_le_mul (v := w) (by linarith))
      rw [roundedTo_of_nonneg (by linarith)]
      exact ⟨by linarith, rounded_nonneg w, by linarith⟩
  obtain ⟨hu0, hru0, hru⟩ := hone hu
  obtain ⟨hv0, hrv0, hrv⟩ := hone hv
  rw [roundedSum, roundedTo_of_nonneg (add_nonneg hru0 hrv0)]
  rcases (add_nonneg hu0 hv0).eq_or_lt with h0 | hpos
  · rw [← h0, zero_mul]
    exact rounded_nonneg _
  · have hlarge : 2 ^ (-100 : Int) ≤ u + v := by
      rcases hu with rfl | hu <;> rcases hv with rfl | hv <;> linarith
    have hsum := abs_le.1 (abs_rounded_sub_le_mul (v := roundedTo u + roundedTo v) (by linarith))
    linarith

/-- Up to here, eight last places below the end of the range, quotients are safe from the errors of
their numerators and denominators. -/
def safe : ℚ := 2 ^ (1024 : Int) - 2 ^ (974 : Int)

theorem safe_eq_mul : safe = (2 ^ 54 - 16) * 2 ^ (970 : Int) := by
  rw [safe, show (1024 : Int) = 54 + 970 by norm_num, show (974 : Int) = 4 + 970 by norm_num,
    zpow_add₀ (by norm_num), zpow_add₀ (by norm_num)]
  ring

theorem safe_lt_threshold : safe < threshold :=
  sub_lt_sub_left (zpow_lt_zpow_right₀ (by norm_num) (by norm_num)) _

theorem two_le_safe : 2 ≤ safe := by
  have hone : (1 : ℚ) ≤ 2 ^ (970 : Int) := one_le_zpow₀ (by norm_num) (by norm_num)
  calc (2 : ℚ) ≤ 2 ^ 54 - 16 := by norm_num
    _ ≤ (2 ^ 54 - 16) * 2 ^ (970 : Int) := le_mul_of_one_le_right (by norm_num) hone
    _ = safe := safe_eq_mul.symm

theorem abs_div_roundedSum_lt (hu : u = 0 ∨ 2 ^ (-100 : Int) ≤ u)
    (hv : v = 0 ∨ 2 ^ (-100 : Int) ≤ v) (hpos : 0 < u + v)
    (hsum : |p + q| ≤ safe * (u + v)) (hparts : |p| + |q| ≤ 2 * (safe * (u + v))) :
    |roundedSum p q / roundedSum u v| < threshold := by
  have hnorm := le_roundedSum hu hv
  have hlarge : 2 ^ (-100 : Int) ≤ u + v := by
    rcases hu with rfl | hu <;> rcases hv with rfl | hv <;> linarith
  have hnorm_pos : 0 < roundedSum u v := by linarith
  have herror := abs_roundedSum_sub_le p q
  have htotal := abs_add_le (roundedSum p q - (p + q)) (p + q)
  rw [sub_add_cancel] at htotal
  rw [abs_div, abs_of_pos hnorm_pos, div_lt_iff₀ hnorm_pos]
  have hunit : (0 : ℚ) < 2 ^ (970 : Int) := zpow_pos (by norm_num) _
  have hsmall : 4 * (2 : ℚ) ^ (-1074 : Int) < (u + v) * 2 ^ (970 : Int) := by
    calc 4 * (2 : ℚ) ^ (-1074 : Int) = 2 ^ (-1072 : Int) := by
          rw [show (-1072 : Int) = 2 + -1074 by norm_num, zpow_add₀ (by norm_num)]
          norm_num
      _ < 2 ^ (870 : Int) := zpow_lt_zpow_right₀ (by norm_num) (by norm_num)
      _ = 2 ^ (-100 : Int) * 2 ^ (970 : Int) := by
          rw [← zpow_add₀ (by norm_num)]
          norm_num
      _ ≤ (u + v) * 2 ^ (970 : Int) := mul_le_mul_of_nonneg_right hlarge hunit.le
  have hscaled := mul_pos hpos hunit
  have hbound : threshold * ((u + v) * (1 - 2 / 2 ^ 53)) ≤ threshold * roundedSum u v :=
    mul_le_mul_of_nonneg_left hnorm threshold_pos.le
  rw [safe_eq_mul] at hsum hparts
  rw [threshold_eq_mul] at hbound ⊢
  generalize (2 : ℚ) ^ (970 : Int) = unit at *
  generalize (2 : ℚ) ^ (-1074 : Int) = least at *
  have hexpand : (2 ^ 54 - 16) * unit * (u + v) = (2 ^ 54 - 16) * ((u + v) * unit) := by ring
  have hexpand' : (2 ^ 54 - 1) * unit * ((u + v) * (1 - 2 / 2 ^ 53)) =
      (2 ^ 54 - 1) * (1 - 2 / 2 ^ 53) * ((u + v) * unit) := by ring
  rw [hexpand] at hsum hparts
  rw [hexpand'] at hbound
  linarith

end Error

end Binary64
end ComplexAlgebra
