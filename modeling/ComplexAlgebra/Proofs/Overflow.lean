import ComplexAlgebra.Proofs.ProductSum
import ComplexAlgebra.Proofs.SquareRoot
import ComplexAlgebra.Proofs.WholeNumbers

/-! Overflow in quotients, magnitudes and roots. They are computed by sums of squares and products,
which leave the range although the exact result does not: the operations give a finite number
exactly if those sums fit. Only the hypotenuse has no such step. -/
namespace ComplexAlgebra
namespace Binary64

open Float.Model Float.Model.UnpackedFloat

variable {v w : ℚ} {x y : Float} {s t : Sign}

theorem rank_of_exactValue (hx : x.isFinite = true) (h : exactValue x = 0) : rank x = 0 := by
  rcases exists_hasMagnitude hx with h0 | ⟨s, v, hv⟩
  · exact h0
  · have hpos := hv.isDouble.pos
    have habs := abs_withSign hpos.le s
    rw [← hv.exactValue_eq, h, abs_zero] at habs
    exact absurd habs hpos.ne

theorem settle_eq_zero_or (hx : x.isFinite = true) :
    exactValue (settle x) = 0 ∨ 2 ^ (-50 : Int) ≤ |exactValue (settle x)| := by
  have hlarge {y : Float} {t : Sign} {w : ℚ} (hy : HasMagnitude y t w) (hw : 2 ^ (-50 : Int) ≤ w) :
      2 ^ (-50 : Int) ≤ |exactValue y| := by
    rwa [abs_exactValue, hy.exactMagnitude_eq]
  rcases exists_hasMagnitude hx with h0 | ⟨s, v, hv⟩
  · left
    rw [settle_of_rank h0]
    exact exactValue_of_rank (by decide)
  by_cases htiny : x.abs < tiny
  · left
    rw [settle_of_tiny hx htiny]
    exact exactValue_of_rank (by decide)
  have hvalue : 2 ^ (-50 : Int) ≤ v := by
    rw [hv.abs.lt_iff hasMagnitude_tiny, not_lt] at htiny
    refine le_trans ?_ htiny
    norm_num
  cases hreads : toSignificant x fullDigits == toSignificant x reducedDigits with
  | false =>
    rw [settle_of_not_same hx htiny hreads]
    exact .inr (hlarge hv hvalue)
  | true =>
    rw [settle_of_same hx htiny hreads]
    rcases roundDecimals_cases hv with ⟨-, heq⟩ | ⟨-, ⟨-, hzero⟩ | ⟨hne, -, hrounded⟩⟩
    · rw [heq]
      exact .inr (hlarge hv hvalue)
    · exact .inl (exactValue_of_rank hzero)
    · refine .inr (hlarge hrounded ?_)
      exact (zpow_le_zpow_right₀ (by norm_num) (by norm_num)).trans
        (le_rounded_div (Nat.pos_of_ne_zero hne))

theorem isFinite_div_iff (hy : HasMagnitude y .positive w) :
    (x / y).isFinite = true ↔ x.isFinite = true ∧ |exactValue x / w| < threshold := by
  have hw : exactValue y = w := hy.exactValue_eq
  constructor
  · intro h
    have hx := isFinite_of_div h
    rw [← hw]
    exact ⟨hx, (roundsTo_div hx hy).isFinite_iff.1 h⟩
  · rintro ⟨hx, hlt⟩
    rw [← hw] at hlt
    exact (roundsTo_div hx hy).isFinite hlt

protected theorem div_self (h : HasMagnitude x s v) : x / x = 1.0 := by
  have hone : rounded 1 = 1 := hasMagnitude_one.isDouble.rounded_eq
  have hlimit : (1 : ℚ) < limit := one_lt_zpow₀ (by norm_num) (by norm_num)
  have hquotient := h.div h (by rw [div_self h.isDouble.pos.ne', hone]; norm_num)
    (by rwa [div_self h.isDouble.pos.ne', hone])
  rw [div_self h.isDouble.pos.ne', hone] at hquotient
  have hsign : s / s = .positive := by cases s <;> rfl
  rw [hsign] at hquotient
  exact hquotient.unique hasMagnitude_one

section Root

variable {n : ℕ}

theorem exactValue_ofNat (hle : n ≤ 2 ^ 53) :
    (Float.ofNat n).isFinite = true ∧ exactValue (Float.ofNat n) = n := by
  rcases n.eq_zero_or_pos with rfl | hn
  · exact ⟨by decide, by rw [exactValue_of_rank (by decide), Nat.cast_zero]⟩
  · have h := hasMagnitude_ofNat hn hle
    exact ⟨h.isFinite, h.exactValue_eq⟩

theorem exponent_bounds (hn : 0 < n) (hlt : n < 2 ^ 32) :
    (1 / (Float.ofNat 2 * Float.ofNat n)).isFinite = true ∧
      0 < exactValue (1 / (Float.ofNat 2 * Float.ofNat n)) ∧
      exactValue (1 / (Float.ofNat 2 * Float.ofNat n)) ≤ 1 := by
  have htwice : HasMagnitude (Float.ofNat (2 * n)) .positive (2 * n : ℕ) :=
    hasMagnitude_ofNat (by omega) (by omega)
  have hdegree : HasMagnitude (Float.ofNat 2 * Float.ofNat n) .positive (2 * n : ℕ) := by
    have hexact : rounded ((2 : ℕ) * n) = (2 * n : ℕ) := by
      rw [← Nat.cast_mul]
      exact htwice.isDouble.rounded_eq
    have hproduct := (hasMagnitude_ofNat two_pos (by norm_num)).mul
      (hasMagnitude_ofNat hn (by omega)) (hexact.trans_ne htwice.isDouble.pos.ne')
      (hexact.trans_lt (htwice.lt_threshold.trans threshold_lt_limit))
    rwa [hexact] at hproduct
  have hone : (1 : ℚ) ≤ (2 * n : ℕ) := by exact_mod_cast (by omega : 1 ≤ 2 * n)
  have hinverse : (0 : ℚ) < 1 / (2 * n : ℕ) := by positivity
  have hle : rounded (1 / (2 * n : ℕ)) ≤ 1 :=
    rounded_le hinverse hasMagnitude_one.isDouble ((div_le_one (by positivity)).2 hone)
  have hleast : (2 : ℚ) ^ (-1074 : Int) ≤ 1 / (2 * n : ℕ) := by
    have hbits : ((2 * n : ℕ) : ℚ) ≤ 2 ^ (33 : Int) := by exact_mod_cast (by omega : 2 * n ≤ 2 ^ 33)
    rw [zpow_neg, ← one_div]
    refine one_div_le_one_div_of_le (by positivity) (hbits.trans ?_)
    exact zpow_le_zpow_right₀ (by norm_num) (by norm_num)
  have hpos := rounded_pos hleast
  have hquotient := hasMagnitude_one.div hdegree hpos.ne'
    (hle.trans_lt (one_lt_zpow₀ (by norm_num) (by norm_num)))
  have hvalue : exactValue (1 / (Float.ofNat 2 * Float.ofNat n)) = rounded (1 / (2 * n : ℕ)) :=
    hquotient.exactValue_eq
  exact ⟨hquotient.isFinite, hpos.trans_eq hvalue.symm, hvalue.trans_le hle⟩

theorem isFinite_angle {k : ℕ} {x : Float} (hn : 0 < n) (hlt : n < 2 ^ 32) (hk : k < n)
    (hx : x.isFinite = true) (hx4 : |exactValue x| ≤ 4) :
    (fusedProduct (pi + pi) (Float.ofNat k) x / Float.ofNat n).isFinite = true := by
  have hturn : HasMagnitude (pi + pi) .positive (7074237752028440 * 2 ^ (-50 : Int)) :=
    ⟨7074237752028440, -50, by norm_num, rfl, by norm_num⟩
  obtain ⟨hkf, hkv⟩ := exactValue_ofNat (n := k) (by omega)
  have hfused := roundsTo_fusedProduct hturn.isFinite hkf hx
  rw [hkv, hturn.exactValue_eq, withSign] at hfused
  have hsmall : |7074237752028440 * 2 ^ (-50 : Int) * (k : ℚ) + exactValue x| < threshold := by
    have hbits : (k : ℚ) ≤ 2 ^ 32 := by exact_mod_cast (by omega : k ≤ 2 ^ 32)
    have hk0 : (0 : ℚ) ≤ k := Nat.cast_nonneg k
    obtain ⟨hlow, hhigh⟩ := abs_le.1 hx4
    calc |7074237752028440 * 2 ^ (-50 : Int) * (k : ℚ) + exactValue x| ≤ 2 ^ (36 : Int) := by
          norm_num
          rw [abs_le]
          constructor <;> linarith
      _ < 2 ^ (1023 : Int) := zpow_lt_zpow_right₀ (by norm_num) (by norm_num)
      _ ≤ threshold := two_pow_le_threshold
  rw [Binary64.isFinite_div_iff (hasMagnitude_ofNat hn (by omega))]
  refine ⟨hfused.isFinite hsmall, ?_⟩
  have hone : (1 : ℚ) ≤ n := by exact_mod_cast hn
  rw [abs_div, abs_of_pos (zero_lt_one.trans_le hone)]
  exact (div_le_self (abs_nonneg _) hone).trans_lt (abs_exactValue_lt _)

end Root

end Binary64

namespace FloatNumber

open Binary64

variable {a b z : FloatNumber}

noncomputable def value (z : FloatNumber) : ℂ := ⟨exactValue z.re, exactValue z.im⟩

/-- The sum of the squares of the components fits. -/
def SquaresFit (z : FloatNumber) : Prop :=
  SumFits (exactValue z.re * exactValue z.re) (exactValue z.im * exactValue z.im)

/-- The sum of the squares of the components fits if the first one is not rounded. -/
def FusedFits (z : FloatNumber) : Prop :=
  |exactValue z.im * exactValue z.im| < threshold ∧
    |exactValue z.re * exactValue z.re + roundedTo (exactValue z.im * exactValue z.im)| < threshold

/-- The numerators of a quotient fit. -/
def NumeratorsFit (z w : FloatNumber) : Prop :=
  SumFits (exactValue z.re * exactValue w.re) (exactValue z.im * exactValue w.im) ∧
    SumFits (exactValue z.im * exactValue w.re) (-(exactValue z.re * exactValue w.im))

/-- The quotients of the rounded numerators by the rounded denominator fit, if that fits. -/
def QuotientsFit (z w : FloatNumber) : Prop :=
  w.SquaresFit →
    |roundedSum (exactValue z.re * exactValue w.re) (exactValue z.im * exactValue w.im) /
        roundedSum (exactValue w.re * exactValue w.re) (exactValue w.im * exactValue w.im)| <
      threshold ∧
    |roundedSum (exactValue z.im * exactValue w.re) (-(exactValue z.re * exactValue w.im)) /
        roundedSum (exactValue w.re * exactValue w.re) (exactValue w.im * exactValue w.im)| <
      threshold

/-- A complex number whose components are in the range of doubles, by a margin of eight of them. -/
def Safe (w : ℂ) : Prop := |w.re| ≤ safe ∧ |w.im| ≤ safe

theorem isFinite_iff_components : z.isFinite = true ↔ z.re.isFinite = true ∧ z.im.isFinite = true :=
  Bool.and_eq_true_iff

section Norm

theorem Made.squares (hz : z.Made) (h : z.isFinite = true) :
    (exactValue z.re * exactValue z.re = 0 ∨
        2 ^ (-100 : Int) ≤ exactValue z.re * exactValue z.re) ∧
      (exactValue z.im * exactValue z.im = 0 ∨
        2 ^ (-100 : Int) ≤ exactValue z.im * exactValue z.im) := by
  have hsquare {v : ℚ} (hv : v = 0 ∨ 2 ^ (-50 : Int) ≤ |v|) :
      v * v = 0 ∨ 2 ^ (-100 : Int) ≤ v * v := by
    refine hv.imp (fun h0 => by rw [h0, zero_mul]) fun hle => ?_
    rw [← abs_mul_abs_self, show (-100 : Int) = -50 + -50 by norm_num, zpow_add₀ (by norm_num)]
    exact mul_le_mul hle hle (zpow_pos (by norm_num) _).le (abs_nonneg v)
  rcases hz.cases with ⟨hre, -⟩ | ⟨x, y, hx, hy, rfl⟩
  · rw [(isFinite_iff_components.1 h).1] at hre
    cases hre
  · exact ⟨hsquare (settle_eq_zero_or hx), hsquare (settle_eq_zero_or hy)⟩

theorem norm_pos (h : z.isFinite = true) (h0 : (z == 0) = false) :
    0 < exactValue z.re * exactValue z.re + exactValue z.im * exactValue z.im := by
  obtain ⟨hre, him⟩ := isFinite_iff_components.1 h
  refine (add_nonneg (mul_self_nonneg _) (mul_self_nonneg _)).lt_of_ne' fun hzero => ?_
  obtain ⟨hre0, him0⟩ := mul_self_add_mul_self_eq_zero.1 hzero
  have hrank (x : Float) (hx : x.isFinite = true) (hx0 : exactValue x = 0) :
      same x 0 = true := by
    rw [same_iff, rank_of_exactValue hx hx0]
    decide
  have hbeq : (z == 0) = true := by
    rw [Number.beq_def, Bool.and_eq_true]
    exact ⟨hrank _ hre hre0, hrank _ him him0⟩
  cases h0.symm.trans hbeq

theorem Made.hasMagnitude_norm (hz : z.Made) (h : z.isFinite = true) (h0 : (z == 0) = false)
    (hfits : z.SquaresFit) : HasMagnitude (z.re * z.re + z.im * z.im) .positive
      (roundedSum (exactValue z.re * exactValue z.re) (exactValue z.im * exactValue z.im)) := by
  obtain ⟨hre, him⟩ := isFinite_iff_components.1 h
  have hvalue := (roundsTo_mul hre hre).exactValue_add (roundsTo_mul him him) hfits
  have hfinite := ((roundsTo_mul hre hre).isFinite_add_iff (roundsTo_mul him him)).2 hfits
  obtain ⟨hu, hv⟩ := hz.squares h
  have hnorm := le_roundedSum hu hv
  have hpos := norm_pos h h0
  rw [← hvalue] at hnorm ⊢
  have hnorm_pos : 0 < exactValue (z.re * z.re + z.im * z.im) := by linarith
  rcases exists_hasMagnitude hfinite with hrank | ⟨s, v, hx⟩
  · rw [exactValue_of_rank hrank] at hnorm_pos
    exact absurd hnorm_pos (lt_irrefl 0)
  · rw [hx.exactValue_eq] at hnorm_pos ⊢
    cases s with
    | positive => exact hx
    | negative => exact absurd hnorm_pos (neg_neg_of_pos hx.isDouble.pos).not_gt

theorem norm_eq_infinity (h : z.isFinite = true) (hfits : ¬ z.SquaresFit) :
    z.re * z.re + z.im * z.im = infinity := by
  obtain ⟨hre, him⟩ := isFinite_iff_components.1 h
  exact (roundsTo_mul hre hre).add_eq_infinity (roundsTo_mul him him) (mul_self_nonneg _)
    (mul_self_nonneg _) hfits

theorem isFinite_norm_iff (h : z.isFinite = true) :
    (z.re * z.re + z.im * z.im).isFinite = true ↔ z.SquaresFit := by
  obtain ⟨hre, him⟩ := isFinite_iff_components.1 h
  exact (roundsTo_mul hre hre).isFinite_add_iff (roundsTo_mul him him)

theorem fused_eq_infinity (h : z.isFinite = true) (hfits : ¬ z.FusedFits) :
    fusedProduct z.re z.re (z.im * z.im) = infinity := by
  obtain ⟨hre, him⟩ := isFinite_iff_components.1 h
  have hsquare := roundsTo_mul him him
  rcases hsquare.isFinite_or (mul_self_nonneg _) with hfinite | hover
  · have hlt := hsquare.isFinite_iff.1 hfinite
    have hsum := roundsTo_fusedProduct hre hre hfinite
    rw [hsquare.value hlt] at hsum
    refine (hsum.isFinite_or ?_).resolve_left fun hf => hfits ⟨hlt, hsum.isFinite_iff.1 hf⟩
    exact add_nonneg (mul_self_nonneg _) (roundedTo_nonneg (mul_self_nonneg _))
  · have hfused : fusedProduct z.re z.re infinity = z.re * z.re + infinity := by
      rw [fusedProduct]
      rcases unpack_cases_of_isFinite hre with ⟨s, hu, -⟩ | ⟨s, m, q, hm, hu, -⟩
      · rw [hu]
      · rw [hu]
        rfl
    rw [hover, hfused]
    rcases (roundsTo_mul hre hre).isFinite_or (mul_self_nonneg _) with hf | hinf
    · exact add_infinity hf
    · rw [hinf]
      exact infinity_add (.inr rfl)

theorem fused_finite (h : z.isFinite = true) (hfits : z.FusedFits) :
    (fusedProduct z.re z.re (z.im * z.im)).isFinite = true ∧
      0 ≤ exactValue (fusedProduct z.re z.re (z.im * z.im)) := by
  obtain ⟨hre, him⟩ := isFinite_iff_components.1 h
  obtain ⟨hlt, hsum⟩ := hfits
  have hsquare := roundsTo_mul him him
  have hfused := roundsTo_fusedProduct hre hre (hsquare.isFinite hlt)
  rw [hsquare.value hlt] at hfused
  refine ⟨hfused.isFinite hsum, ?_⟩
  rw [hfused.value hsum]
  exact roundedTo_nonneg (add_nonneg (mul_self_nonneg _) (roundedTo_nonneg (mul_self_nonneg _)))

end Norm

section Quotient

/-- A quotient is finite exactly if its numerators fit and then the quotients. An infinite
denominator makes it zero. -/
theorem isFinite_div_iff (ha : a.isFinite = true) (hb : b.Made) (hbf : b.isFinite = true)
    (hb0 : (b == 0) = false) :
    (a / b).isFinite = true ↔ NumeratorsFit a b ∧ QuotientsFit a b := by
  obtain ⟨hre, him⟩ := isFinite_iff_components.1 ha
  obtain ⟨hre', him'⟩ := isFinite_iff_components.1 hbf
  have hp := roundsTo_mul hre hre'
  have hq := roundsTo_mul him him'
  have hu := roundsTo_mul him hre'
  have hv := roundsTo_mul hre him'
  rw [Number.div_def, isFinite_make_iff, NumeratorsFit, QuotientsFit]
  by_cases hfits : b.SquaresFit
  · have hnorm := hb.hasMagnitude_norm hbf hb0 hfits
    rw [Binary64.isFinite_div_iff hnorm, Binary64.isFinite_div_iff hnorm, hp.isFinite_add_iff hq,
      hu.isFinite_sub_iff hv]
    constructor
    · rintro ⟨⟨hsum, hfirst⟩, hdiff, hsecond⟩
      rw [hp.exactValue_add hq hsum] at hfirst
      rw [hu.exactValue_sub hv hdiff] at hsecond
      exact ⟨⟨hsum, hdiff⟩, fun _ => ⟨hfirst, hsecond⟩⟩
    · rintro ⟨⟨hsum, hdiff⟩, hquotients⟩
      rw [hp.exactValue_add hq hsum, hu.exactValue_sub hv hdiff]
      exact ⟨⟨hsum, (hquotients hfits).1⟩, hdiff, (hquotients hfits).2⟩
  · have hover {x : Float} : (x / infinity).isFinite = true ↔ x.isFinite = true :=
      ⟨isFinite_of_div, fun hx => isFinite_of_rank (rank_div_infinity hx .positive)⟩
    rw [norm_eq_infinity hbf hfits, hover, hover, hp.isFinite_add_iff hq, hu.isFinite_sub_iff hv]
    exact (and_iff_left fun h => absurd h hfits).symm

theorem re_value_div (a b : FloatNumber) : (a.value / b.value).re =
    (((exactValue a.re * exactValue b.re + exactValue a.im * exactValue b.im) /
      (exactValue b.re * exactValue b.re + exactValue b.im * exactValue b.im) : ℚ) : ℝ) := by
  rw [Complex.div_re, Complex.normSq_apply, value, value]
  push_cast
  ring

theorem im_value_div (a b : FloatNumber) : (a.value / b.value).im =
    (((exactValue a.im * exactValue b.re + -(exactValue a.re * exactValue b.im)) /
      (exactValue b.re * exactValue b.re + exactValue b.im * exactValue b.im) : ℚ) : ℝ) := by
  rw [Complex.div_im, Complex.normSq_apply, value, value]
  push_cast
  ring

/-- Products of components are bounded by the numerators of the quotient, by the inequality of
Cauchy and Schwarz. -/
theorem abs_mul_add_abs_mul_le {a b c d B : ℚ} (hre : |a * c + b * d| ≤ B)
    (him : |b * c + -(a * d)| ≤ B) :
    |a * c| + |b * d| ≤ 2 * B ∧ |b * c| + |-(a * d)| ≤ 2 * B := by
  have hB : 0 ≤ B := (abs_nonneg _).trans hre
  have hsquares : (a * a + b * b) * (c * c + d * d) ≤ 2 * B ^ 2 := by
    have hre2 := sq_le_sq' (abs_le.1 hre).1 (abs_le.1 hre).2
    have him2 := sq_le_sq' (abs_le.1 him).1 (abs_le.1 him).2
    calc (a * a + b * b) * (c * c + d * d) = (a * c + b * d) ^ 2 + (b * c + -(a * d)) ^ 2 := by ring
      _ ≤ 2 * B ^ 2 := by linarith
  have hcauchy (p q r s : ℚ) (h : (p * p + q * q) * (r * r + s * s) ≤ 2 * B ^ 2) :
      |p * r| + |q * s| ≤ 2 * B := by
    refine (pow_le_pow_iff_left₀ (by positivity) (by positivity) two_ne_zero).1 ?_
    rw [abs_mul, abs_mul]
    calc (|p| * |r| + |q| * |s|) ^ 2
        ≤ (|p| * |r| + |q| * |s|) ^ 2 + (|p| * |s| - |q| * |r|) ^ 2 :=
          le_add_of_nonneg_right (sq_nonneg _)
      _ = (|p| * |p| + |q| * |q|) * (|r| * |r| + |s| * |s|) := by ring
      _ = (p * p + q * q) * (r * r + s * s) := by simp only [abs_mul_abs_self]
      _ ≤ (2 * B) ^ 2 := by nlinarith [sq_nonneg B]
  refine ⟨hcauchy a b c d hsquares, ?_⟩
  rw [abs_neg]
  refine hcauchy b a c d ?_
  rwa [add_comm (b * b)]

theorem quotientsFit_of_safe (hb : b.Made) (hbf : b.isFinite = true) (hb0 : (b == 0) = false)
    (hsafe : Safe (a.value / b.value)) : QuotientsFit a b := by
  obtain ⟨hu, hv⟩ := hb.squares hbf
  have hpos := norm_pos hbf hb0
  obtain ⟨hre, him⟩ := hsafe
  rw [re_value_div, ← Rat.cast_abs, Rat.cast_le, abs_div, abs_of_pos hpos, div_le_iff₀ hpos] at hre
  rw [im_value_div, ← Rat.cast_abs, Rat.cast_le, abs_div, abs_of_pos hpos, div_le_iff₀ hpos] at him
  obtain ⟨hsum, hdiff⟩ := abs_mul_add_abs_mul_le hre him
  exact fun _ => ⟨abs_div_roundedSum_lt hu hv hpos hre hsum,
    abs_div_roundedSum_lt hu hv hpos him hdiff⟩

/-- A number is its own quotient one as long as the sum of squares fits. Beyond that the quotient is
not a number. -/
theorem div_self_of_squaresFit (hb : b.Made) (hbf : b.isFinite = true) (hb0 : (b == 0) = false)
    (hfits : b.SquaresFit) : b / b = 1 := by
  obtain ⟨hre, him⟩ := isFinite_iff_components.1 hbf
  have hnorm := hb.hasMagnitude_norm hbf hb0 hfits
  have hrank : rank (b.im * b.re - b.re * b.im) = 0 := by
    have hproduct := roundsTo_mul him hre
    have hswapped := roundsTo_mul hre him
    rw [mul_comm (exactValue b.re)] at hswapped
    have hlt : |exactValue b.im * exactValue b.re| < threshold := by
      obtain ⟨hsquare, hsquare', -⟩ := hfits
      rw [abs_mul_self, ← abs_mul_abs_self] at hsquare hsquare'
      rw [abs_mul]
      rcases le_total |exactValue b.re| |exactValue b.im| with hle | hle
      · exact (mul_le_mul_of_nonneg_left hle (abs_nonneg _)).trans_lt hsquare'
      · exact (mul_le_mul_of_nonneg_right hle (abs_nonneg _)).trans_lt hsquare
    have hdiff := roundsTo_sub (hproduct.isFinite hlt) (hswapped.isFinite hlt)
    rw [hproduct.value hlt, hswapped.value hlt, sub_self] at hdiff
    have hrange : |(0 : ℚ)| < threshold := by
      rw [abs_zero]
      exact threshold_pos
    refine rank_of_exactValue (hdiff.isFinite hrange) ?_
    rw [hdiff.value hrange, roundedTo_zero]
  have hzero := rank_zero_div hrank hnorm
  rw [Number.div_def, Binary64.div_self hnorm]
  show (⟨(settlePair _ _).1, (settlePair _ _).2⟩ : FloatNumber) = 1
  have hone : settle 1.0 = 1.0 := by decide +kernel
  rw [settlePair_of_isFinite (by decide) (isFinite_of_rank hzero), settle_of_rank hzero, hone]
  rfl

theorem div_self_of_not_squaresFit (hbf : b.isFinite = true) (hfits : ¬ b.SquaresFit) :
    b / b = Number.nan := by
  have hnan : Binary64.infinity / Binary64.infinity = Binary64.nan := by decide +kernel
  rw [Number.div_def, norm_eq_infinity hbf hfits, hnan]
  rfl

end Quotient

section Magnitude

theorem isFinite_absolute_iff (h : z.isFinite = true) :
    isFinite z.absolute = true ↔ z.SquaresFit := by
  obtain ⟨hre, him⟩ := isFinite_iff_components.1 h
  have hnonneg : (z.re * z.re + z.im * z.im).isFinite = true →
      0 ≤ exactValue (z.re * z.re + z.im * z.im) := fun hfinite => by
    have hfits := (isFinite_norm_iff h).1 hfinite
    rw [(roundsTo_mul hre hre).exactValue_add (roundsTo_mul him him) hfits, roundedSum]
    exact roundedTo_nonneg (add_nonneg (roundedTo_nonneg (mul_self_nonneg _))
      (roundedTo_nonneg (mul_self_nonneg _)))
  rw [Number.absolute, isFinite_make_iff, ← isFinite_norm_iff h]
  exact (and_iff_left (by decide)).trans (isFinite_sqrt_iff hnonneg)

theorem isFinite_abs_iff (h : z.isFinite = true) :
    z.abs.isFinite = true ↔ ‖z.value‖ < threshold := by
  obtain ⟨hre, him⟩ := isFinite_iff_components.1 h
  have hthreshold : (0 : ℝ) ≤ threshold := by exact_mod_cast threshold_pos.le
  have hnorm : ‖z.value‖ ^ 2 = ((exactValue z.re ^ 2 + exactValue z.im ^ 2 : ℚ) : ℝ) := by
    rw [Complex.sq_norm, Complex.normSq_apply, value]
    push_cast
    ring
  rw [← pow_lt_pow_iff_left₀ (norm_nonneg _) hthreshold two_ne_zero, hnorm]
  refine (isFinite_hypotenuse_iff hre him).trans ?_
  exact_mod_cast Iff.rfl

end Magnitude

end FloatNumber

/-- The functions that are left to the machine. -/
structure Machine where
  sin : Float → Float
  cos : Float → Float
  arctan : Float → Float → Float
  power : Float → Float → Float

namespace Machine

open Binary64 Float.Model

@[reducible] def component (M : Machine) : Component Float :=
  { (inferInstance : Component Float) with
    sin := M.sin
    cos := M.cos
    arctan := M.arctan
    power := M.power }

def roots (M : Machine) (z : FloatNumber) (degree : ℕ) : List FloatNumber :=
  @Number.roots Float M.component z degree

def native : Machine := ⟨Binary64.sin, Binary64.cos, Binary64.arctan, Binary64.power⟩

theorem roots_native (z : FloatNumber) (degree : ℕ) : native.roots z degree = z.roots degree := rfl

/-- What is relied on: sine and cosine are bounded by one, angles by four, and powers with an
exponent up to one do not leave the range, but for those of infinity. -/
structure Sound (M : Machine) : Prop where
  sin_le {x : Float} : x.isFinite = true → (M.sin x).isFinite = true ∧ |exactValue (M.sin x)| ≤ 1
  cos_le {x : Float} : x.isFinite = true → (M.cos x).isFinite = true ∧ |exactValue (M.cos x)| ≤ 1
  arctan_le {y x : Float} : y.isFinite = true → x.isFinite = true →
    (M.arctan y x).isFinite = true ∧ |exactValue (M.arctan y x)| ≤ 4
  power_finite {x y : Float} : x.isFinite = true → 0 ≤ exactValue x → y.isFinite = true →
    0 < exactValue y → exactValue y ≤ 1 → (M.power x y).isFinite = true
  power_infinity {y : Float} : y.isFinite = true → 0 < exactValue y →
    M.power infinity y = infinity

variable {M : Machine} {z w : FloatNumber} {n : ℕ}

/-- No root is computed from an infinite sum of squares, by any machine that has an infinite power
of infinity. -/
theorem not_isFinite_of_mem_roots
    (hpower : ∀ y : Float, y.isFinite = true → 0 < exactValue y → M.power infinity y = infinity)
    (h : z.isFinite = true) (hn : 0 < n) (hlt : n < 2 ^ 32) (hfits : ¬ z.FusedFits)
    (hw : w ∈ M.roots z n) : ¬ w.isFinite = true := by
  obtain ⟨k, -, rfl⟩ := List.mem_map.1 hw
  obtain ⟨hexponent, hpos, -⟩ := exponent_bounds hn hlt
  intro hfinite
  have hproduct := ((FloatNumber.isFinite_make_iff _ _).1 hfinite).1
  have hmagnitude : (M.power (fusedProduct z.re z.re (z.im * z.im))
      (1 / (Float.ofNat 2 * Float.ofNat n))).isFinite = true := (isFinite_of_mul hproduct).1
  rw [FloatNumber.fused_eq_infinity h hfits, hpower _ hexponent hpos] at hmagnitude
  cases hmagnitude

theorem Sound.isFinite_iff_of_mem_roots (hM : M.Sound) (h : z.isFinite = true) (hn : 0 < n)
    (hlt : n < 2 ^ 32) (hw : w ∈ M.roots z n) : w.isFinite = true ↔ z.FusedFits := by
  constructor
  · intro hfinite
    by_contra hfits
    exact not_isFinite_of_mem_roots (fun y => hM.power_infinity) h hn hlt hfits hw hfinite
  · intro hfits
    obtain ⟨k, hk, rfl⟩ := List.mem_map.1 hw
    rw [List.mem_range] at hk
    obtain ⟨hre, him⟩ := FloatNumber.isFinite_iff_components.1 h
    obtain ⟨hargument, hargument4⟩ := hM.arctan_le him hre
    have hangle := isFinite_angle hn hlt hk hargument hargument4
    obtain ⟨hexponent, hpos, hle⟩ := exponent_bounds hn hlt
    obtain ⟨hfused, hnonneg⟩ := FloatNumber.fused_finite h hfits
    have hmagnitude := hM.power_finite hfused hnonneg hexponent hpos hle
    have hbounded {x : Float} (hx : x.isFinite = true ∧ |exactValue x| ≤ 1) :
        (M.power (fusedProduct z.re z.re (z.im * z.im))
          (1 / (Float.ofNat 2 * Float.ofNat n)) * x).isFinite = true := by
      refine (roundsTo_mul hmagnitude hx.1).isFinite ?_
      rw [abs_mul]
      exact (mul_le_of_le_one_right (abs_nonneg _) hx.2).trans_lt (abs_exactValue_lt _)
    exact (FloatNumber.isFinite_make_iff _ _).2 ⟨hbounded (hM.cos_le hangle),
      hbounded (hM.sin_le hangle)⟩

theorem native_power_infinity (y : Float) (hy : y.isFinite = true) (hpos : 0 < exactValue y) :
    native.power infinity y = infinity := by
  rcases unpack_cases_of_isFinite hy with ⟨s, -, -, h0⟩ | ⟨s, m, q, hm, hu, hvalue⟩
  · exact absurd h0 hpos.ne'
  · cases s with
    | negative =>
      rw [hvalue] at hpos
      have hmagnitude : (0 : ℚ) < m * 2 ^ q :=
        mul_pos (Nat.cast_pos.2 hm) (zpow_pos (by norm_num) q)
      exact absurd hpos (neg_neg_of_pos hmagnitude).not_gt
    | positive =>
      have hzero : (y == 0) = false := by
        show UnpackedFloat.beq y.toModel.unpack _ = false
        rw [hu]
        rfl
      have hless : 0 < y := by
        have hlt : 0 < y ↔ UnpackedFloat.lt (0 : Float).toModel.unpack y.toModel.unpack = true :=
          decide_eq_true_iff
        rw [hlt, hu]
        rfl
      show Binary64.power infinity y = infinity
      rw [Binary64.power, hzero, isNaN_of_isFinite hy, decide_eq_true hless]
      rfl

end Machine

namespace FloatNumber

open Binary64 Float.Model

variable {a b z : FloatNumber}

theorem fits_of_le (ha : |exactValue a.re| ≤ 2 ^ (510 : Int) ∧ |exactValue a.im| ≤ 2 ^ (510 : Int))
    (hb : |exactValue b.re| ≤ 2 ^ (510 : Int) ∧ |exactValue b.im| ≤ 2 ^ (510 : Int)) :
    NumeratorsFit a b ∧ a.SquaresFit ∧ a.FusedFits := by
  have hproduct {v w : ℚ} (hv : |v| ≤ 2 ^ (510 : Int)) (hw : |w| ≤ 2 ^ (510 : Int)) :
      |v * w| ≤ 2 ^ (1020 : Int) := by
    rw [abs_mul, show (1020 : Int) = 510 + 510 by norm_num, zpow_add₀ (by norm_num)]
    exact mul_le_mul hv hw (abs_nonneg w) (zpow_pos (by norm_num) _).le
  have hsquares : a.SquaresFit := sumFits_of_le (hproduct ha.1 ha.1) (hproduct ha.2 ha.2)
  refine ⟨⟨sumFits_of_le (hproduct ha.1 hb.1) (hproduct ha.2 hb.2),
    sumFits_of_le (hproduct ha.2 hb.1) ?_⟩, hsquares, hsquares.2.1, ?_⟩
  · rw [abs_neg]
    exact hproduct ha.1 hb.2
  · exact abs_add_lt_threshold (hproduct ha.1 ha.1)
      (abs_roundedTo_le (by norm_num) (hproduct ha.2 ha.2))

/-- Where overflow comes from. A quotient is finite exactly if its numerators and then the quotients
of the rounded sums fit, of which the latter goes without saying if the exact quotient is safely in
the range. A number divided by itself is one if its squares fit, and otherwise not a number. The
magnitude is finite exactly if the squares fit, and all roots are, or none is, exactly if the
squares fit in the fused sum. The hypotenuse is finite exactly if its exact length is in the
range. -/
theorem isFinite_iff_fits {M : Machine} (hM : M.Sound) (ha : a.isFinite = true) (hb : b.Made)
    (hbf : b.isFinite = true) (hb0 : (b == 0) = false) {n : ℕ} (hn : 0 < n) (hlt : n < 2 ^ 32) :
    ((a / b).isFinite = true ↔ NumeratorsFit a b ∧ QuotientsFit a b) ∧
      (Safe (a.value / b.value) → QuotientsFit a b) ∧
      (b.SquaresFit → b / b = 1) ∧ (¬ b.SquaresFit → b / b = Number.nan) ∧
      (isFinite a.absolute = true ↔ a.SquaresFit) ∧
      (a.abs.isFinite = true ↔ ‖a.value‖ < threshold) ∧
      ∀ w ∈ M.roots a n, w.isFinite = true ↔ a.FusedFits :=
  ⟨isFinite_div_iff ha hb hbf hb0, quotientsFit_of_safe hb hbf hb0,
    div_self_of_squaresFit hb hbf hb0, div_self_of_not_squaresFit hbf,
    isFinite_absolute_iff ha, isFinite_abs_iff ha,
    fun _ hw => hM.isFinite_iff_of_mem_roots ha hn hlt hw⟩

/-- A machine for the positive real axis, where there is no angle and a square root is the power. -/
def onPositiveAxis : Machine := ⟨fun _ => 0, fun _ => 1, fun _ _ => 0, fun x _ => x.sqrt⟩

theorem zero_bounded {k : ℚ} (hk : 0 ≤ k) : (0 : Float).isFinite = true ∧ |exactValue 0| ≤ k := by
  refine ⟨by decide, ?_⟩
  rw [exactValue_of_rank (by decide), abs_zero]
  exact hk

theorem sound_onPositiveAxis : onPositiveAxis.Sound where
  sin_le _ := zero_bounded zero_le_one
  cos_le _ := by
    refine ⟨hasMagnitude_one.isFinite, ?_⟩
    show |exactValue 1| ≤ 1
    rw [hasMagnitude_one.exactValue_eq]
    exact abs_one.le
  arctan_le _ _ := zero_bounded zero_le_four
  power_finite _ h0 _ _ _ := (isFinite_sqrt_iff fun _ => h0).2 ‹_›
  power_infinity _ _ := rfl

theorem isFinite_iff_fits_unit :
    let two : FloatNumber := Number.two
    let unit : FloatNumber := Number.imaginaryUnit
    onPositiveAxis.Sound ∧ (two / unit).isFinite = true ∧ unit / unit = 1 ∧
      isFinite two.absolute = true ∧ two.abs.isFinite = true ∧
      ∀ w ∈ onPositiveAxis.roots two 1, w.isFinite = true := by
  intro two unit
  have htwo : exactValue two.re = 2 ∧ exactValue two.im = 0 :=
    ⟨(hasMagnitude_ofNat two_pos (by norm_num)).exactValue_eq, exactValue_of_rank (by decide)⟩
  have hunit : exactValue unit.re = 0 ∧ exactValue unit.im = 1 :=
    ⟨exactValue_of_rank (by decide), hasMagnitude_one.exactValue_eq⟩
  have hmade : unit.Made := by
    have hpair : settlePair 0 1 = (0, 1) := by decide +kernel
    refine ⟨0, 1, ?_⟩
    show unit = ⟨(settlePair 0 1).1, (settlePair 0 1).2⟩
    rw [hpair]
    rfl
  have hsmall : (2 : ℚ) ≤ 2 ^ (510 : Int) :=
    (zpow_one (2 : ℚ)).symm.trans_le (zpow_le_zpow_right₀ (by norm_num) (by norm_num))
  have hbounds (z : FloatNumber) (hz : z = two ∨ z = unit) :
      |exactValue z.re| ≤ 2 ^ (510 : Int) ∧ |exactValue z.im| ≤ 2 ^ (510 : Int) := by
    rcases hz with rfl | rfl
    · rw [htwo.1, htwo.2, abs_two, abs_zero]
      exact ⟨hsmall, by positivity⟩
    · rw [hunit.1, hunit.2, abs_zero, abs_one]
      exact ⟨by positivity, one_le_two.trans hsmall⟩
  obtain ⟨hnumerators, hsquares, hfused⟩ :=
    fits_of_le (hbounds two (.inl rfl)) (hbounds unit (.inr rfl))
  obtain ⟨-, hunits, -⟩ := fits_of_le (hbounds unit (.inr rfl)) (hbounds unit (.inr rfl))
  have hsafe : Safe (two.value / unit.value) := by
    rw [Safe, re_value_div, im_value_div, htwo.1, htwo.2, hunit.1, hunit.2, ← Rat.cast_abs,
      ← Rat.cast_abs, Rat.cast_le, Rat.cast_le]
    norm_num
    exact ⟨zero_le_two.trans two_le_safe, two_le_safe⟩
  have hlength : ‖two.value‖ < threshold := by
    have hvalue : two.value = (2 : ℝ) := by
      apply Complex.ext
      · show ((exactValue two.re : ℚ) : ℝ) = 2
        rw [htwo.1, Rat.cast_ofNat]
      · show ((exactValue two.im : ℚ) : ℝ) = 0
        rw [htwo.2, Rat.cast_zero]
    have hlt : (2 : ℚ) < threshold := two_le_safe.trans_lt safe_lt_threshold
    rw [hvalue, Complex.norm_real, Real.norm_two]
    exact_mod_cast hlt
  obtain ⟨hdiv, hquotients, hself, -, habsolute, habs, hroots⟩ :=
    isFinite_iff_fits sound_onPositiveAxis (a := two) (b := unit) (by decide) hmade (by decide)
      (by decide) one_pos (by norm_num)
  exact ⟨sound_onPositiveAxis, hdiv.2 ⟨hnumerators, hquotients hsafe⟩, hself hunits,
    habsolute.2 hsquares, habs.2 hlength, fun w hw => (hroots w hw).2 hfused⟩

/-- A number whose squares are too large, while the quotient, the magnitude and the root are not. -/
theorem overflow_large :
    let z : FloatNumber := Number.ofReal 1e200
    z.isFinite = true ∧ (z == 0) = false ∧ z.value / z.value = 1 ∧ z / z = Number.nan ∧
      ‖z.value‖ < threshold ∧ z.abs.isFinite = true ∧ isFinite z.absolute = false ∧
      ∀ w ∈ z.roots 1, isFinite w = false := by
  intro z
  have hsettled : settle 1e200 = Float.ofBits 0x6974e718d7d7625a := by decide +kernel
  have hz : z = ⟨Float.ofBits 0x6974e718d7d7625a, 0⟩ := by
    rw [← hsettled]
    exact ofReal_of_isFinite (by decide +kernel)
  have hmagnitude : HasMagnitude z.re .positive ((5883593420661338 : ℕ) * 2 ^ (612 : Int)) := by
    rw [hz]
    exact ⟨5883593420661338, 612, by norm_num, rfl, rfl⟩
  have him : exactValue z.im = 0 := by
    rw [hz]
    exact exactValue_of_rank (by decide)
  have hfinite : z.isFinite = true := by
    rw [hz]
    decide +kernel
  have hne : (z == 0) = false := by
    rw [hz]
    decide +kernel
  have hlarge : threshold ≤ exactValue z.re * exactValue z.re := by
    have hre : (2 : ℚ) ^ (612 : Int) ≤ exactValue z.re := by
      rw [hmagnitude.exactValue_eq]
      exact le_mul_of_one_le_left (zpow_pos (by norm_num) _).le (by norm_num)
    calc threshold ≤ 2 ^ (1024 : Int) := threshold_lt_limit.le
      _ ≤ 2 ^ ((612 : Int) + 612) := zpow_le_zpow_right₀ (by norm_num) (by norm_num)
      _ = 2 ^ (612 : Int) * 2 ^ (612 : Int) := zpow_add₀ (by norm_num) _ _
      _ ≤ exactValue z.re * exactValue z.re :=
        mul_le_mul hre hre (zpow_pos (by norm_num) _).le ((zpow_pos (by norm_num) _).le.trans hre)
  have hfits : ¬ z.SquaresFit := fun h => (hlarge.trans (le_abs_self _)).not_gt h.1
  have hfused : ¬ z.FusedFits := fun h => by
    have hsum := h.2
    rw [him, mul_zero, roundedTo_zero, add_zero] at hsum
    exact (hlarge.trans (le_abs_self _)).not_gt hsum
  have habs : z.abs.isFinite = true := by
    obtain ⟨hre, him'⟩ := isFinite_iff_components.1 hfinite
    refine (isFinite_hypotenuse_iff hre him').2 ?_
    obtain ⟨hlow, hhigh⟩ := abs_lt.1 (abs_exactValue_lt z.re)
    rw [him, zero_pow two_ne_zero, add_zero]
    exact sq_lt_sq' hlow hhigh
  have hvalue : z.value ≠ 0 := fun h => by
    have hre : ((exactValue z.re : ℚ) : ℝ) = 0 := congrArg Complex.re h
    rw [Rat.cast_eq_zero.1 hre, mul_zero] at hlarge
    exact threshold_pos.not_ge hlarge
  exact ⟨hfinite, hne, div_self hvalue, div_self_of_not_squaresFit hfinite hfits,
    (isFinite_abs_iff hfinite).1 habs, habs,
    Bool.eq_false_iff.2 (mt (isFinite_absolute_iff hfinite).1 hfits),
    fun w hw => Bool.eq_false_iff.2 (Machine.not_isFinite_of_mem_roots Machine.native_power_infinity
      hfinite one_pos (by norm_num) hfused (by rwa [Machine.roots_native]))⟩

end FloatNumber
end ComplexAlgebra
