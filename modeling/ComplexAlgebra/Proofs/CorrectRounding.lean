import ComplexAlgebra.Proofs.Magnitude

/-! Finite doubles as signed rational numbers. Sum, difference, product, quotient and fused product
of finite doubles are the exact results, rounded once; beyond half a last place above the largest
double they are infinite. -/
namespace ComplexAlgebra
namespace Binary64

open Float.Model Float.Model.UnpackedFloat

variable {v w : ℚ} {x y z : Float} {s t : Sign}

section Magnitudes

theorem nearestWhole_mono {r r' : ℚ} (hr : 0 ≤ r) (h : r ≤ r') :
    nearestWhole r ≤ nearestWhole r' := by
  rcases (Nat.floor_mono h).lt_or_eq with hlt | heq
  · have hnext : nearestWhole r ≤ ⌊r⌋₊ + 1 :=
      nearestWhole_le hr (by exact_mod_cast (Nat.lt_floor_add_one r).le)
    have hreach : ⌊r'⌋₊ ≤ nearestWhole r' := le_nearestWhole (Nat.floor_le (hr.trans h))
    omega
  · rcases nearestWhole_cases hr with ⟨h1, heq1⟩ | ⟨h1, heq1⟩ | ⟨h1, heq1⟩ <;>
      rcases nearestWhole_cases (hr.trans h) with ⟨h2, heq2⟩ | ⟨h2, heq2⟩ | ⟨h2, heq2⟩ <;>
      rw [← heq] at h2 heq2 <;> first | omega | linarith

theorem rounded_mono (hv : 0 < v) (h : v ≤ w) : rounded v ≤ rounded w := by
  have hw : 0 < w := hv.trans_le h
  rcases (exponentOf_mono hv h).lt_or_eq with hlt | heq
  · have hleast := least_le_exponentOf v
    have hhigh : (nearestWhole (v / 2 ^ exponentOf v) : ℚ) ≤ 2 ^ 53 := by
      exact_mod_cast nearestWhole_le_two_pow hv
    have hlow : (2 : ℚ) ^ 52 ≤ nearestWhole (w / 2 ^ exponentOf w) := by
      exact_mod_cast two_pow_le_nearestWhole hw (by omega)
    have hstep : (2 : ℚ) ^ (exponentOf v + 1) ≤ 2 ^ exponentOf w :=
      zpow_le_zpow_right₀ (by norm_num) (by omega)
    calc rounded v ≤ 2 ^ 53 * 2 ^ exponentOf v := mul_le_mul_of_nonneg_right hhigh (unit_pos v).le
      _ = 2 ^ 52 * 2 ^ (exponentOf v + 1) := by rw [zpow_add₀ (by norm_num)]; ring
      _ ≤ 2 ^ 52 * 2 ^ exponentOf w := mul_le_mul_of_nonneg_left hstep (by norm_num)
      _ ≤ rounded w := mul_le_mul_of_nonneg_right hlow (unit_pos w).le
  · rw [rounded, rounded, heq]
    have hunit := unit_pos w
    refine mul_le_mul_of_nonneg_right ?_ hunit.le
    exact_mod_cast nearestWhole_mono (div_pos hv hunit).le (div_le_div_of_nonneg_right h hunit.le)

theorem abs_rounded_sub_le_mul (hv : 2 ^ (-1022 : Int) ≤ v) :
    |rounded v - v| ≤ v / 2 ^ 53 := by
  have hpos : 0 < v := (zpow_pos (by norm_num) _).trans_le hv
  refine (abs_rounded_sub_le hpos).trans ?_
  have hnormal : (2 : ℚ) ^ (exponentOf v + 52) ≤ v := by
    rcases (least_le_exponentOf v).lt_or_eq with h | h
    · exact le_of_exponentOf hpos h
    · rwa [← h]
  rw [zpow_add₀ (by norm_num)] at hnormal
  norm_num at hnormal ⊢
  linarith

theorem rounded_pos (hv : 2 ^ (-1074 : Int) ≤ v) : 0 < rounded v := by
  have hpos : 0 < v := (zpow_pos (by norm_num) _).trans_le hv
  have hwhole : 1 ≤ nearestWhole (v / 2 ^ exponentOf v) := by
    rcases (least_le_exponentOf v).lt_or_eq with h | h
    · exact le_trans (by norm_num) (two_pow_le_nearestWhole hpos h)
    · refine le_nearestWhole ?_
      rw [← h, Nat.cast_one, one_le_div (zpow_pos (by norm_num) _)]
      exact hv
  exact mul_pos (by exact_mod_cast hwhole) (unit_pos v)

theorem rounded_nonneg (v : ℚ) : 0 ≤ rounded v :=
  mul_nonneg (Nat.cast_nonneg _) (unit_pos v).le

/-- The middle between the largest double and the next power of two. Magnitudes from here on are
rounded to infinity. -/
def threshold : ℚ := 2 ^ (1024 : Int) - 2 ^ (970 : Int)

theorem threshold_lt_limit : threshold < limit := sub_lt_self _ (zpow_pos (by norm_num) _)

theorem threshold_eq_mul : threshold = (2 ^ 54 - 1) * 2 ^ (970 : Int) := by
  rw [threshold, show (1024 : Int) = 54 + 970 by norm_num, zpow_add₀ (by norm_num)]
  ring

theorem two_pow_le_threshold : 2 ^ (1023 : Int) ≤ threshold := by
  have htwice : (2 : ℚ) ^ (1024 : Int) = 2 ^ (1023 : Int) * 2 := zpow_add_one₀ (by norm_num) 1023
  have hstep : (2 : ℚ) ^ (970 : Int) ≤ 2 ^ (1023 : Int) :=
    zpow_le_zpow_right₀ (by norm_num) (by norm_num)
  rw [threshold, le_sub_iff_add_le, htwice, mul_two]
  exact add_le_add_right hstep _

theorem threshold_pos : 0 < threshold := (zpow_pos (by norm_num) _).trans_le two_pow_le_threshold

theorem rounded_lt_limit_iff (hv : 0 < v) : rounded v < limit ↔ v < threshold := by
  have hlast : (2 : ℚ) ^ (971 : Int) / 2 = 2 ^ (970 : Int) := by
    have htwice : (2 : ℚ) ^ (971 : Int) = 2 ^ (970 : Int) * 2 := zpow_add_one₀ (by norm_num) 970
    exact (div_eq_iff two_ne_zero).2 htwice
  have htop : ((2 ^ 53 : ℕ) : ℚ) * 2 ^ (971 : Int) = limit := by
    have hsplit : limit = 2 ^ (53 : Int) * 2 ^ (971 : Int) := zpow_add₀ (by norm_num) 53 971
    have hbits : ((2 ^ 53 : ℕ) : ℚ) = 2 ^ (53 : Int) := by norm_num
    rw [hsplit, hbits]
  rcases lt_or_ge v (2 ^ (1023 : Int)) with hsmall | hlarge
  · refine iff_of_true ?_ (hsmall.trans_le two_pow_le_threshold)
    refine (rounded_le hv (isDouble_two_pow (by norm_num)) hsmall.le).trans_lt ?_
    exact zpow_lt_zpow_right₀ (by norm_num) (by norm_num)
  rcases lt_or_ge v limit with hbelow | habove
  · have hexp : exponentOf v = 971 := exponentOf_eq (by norm_num) hlarge hbelow
    constructor
    · intro hlt
      by_contra hge
      have heven : rounded v = (2 ^ 53 : ℕ) * 2 ^ exponentOf v := by
        refine rounded_of_even hv (by norm_num) ?_
        have hroom : limit - 2 ^ (970 : Int) ≤ v := not_lt.1 hge
        rw [hexp, htop, hlast, abs_of_nonneg (by linarith)]
        linarith
      rw [heven, hexp, htop] at hlt
      exact lt_irrefl _ hlt
    · intro hlt
      have herror := (abs_le.1 (abs_rounded_sub_le hv)).2
      rw [hexp, hlast] at herror
      rw [threshold] at hlt
      rw [limit]
      linarith
  · refine iff_of_false (not_lt.2 ?_) (threshold_lt_limit.trans_le habove).not_gt
    exact le_rounded hv (isDouble_two_pow (by norm_num)) habove

end Magnitudes

theorem hasMagnitude_one : HasMagnitude 1 .positive 1 := by
  exact_mod_cast hasMagnitude_ofNat Nat.one_pos (by norm_num)

def withSign : Sign → ℚ → ℚ
  | .positive, v => v
  | .negative, v => -v

/-- The sign of a number, positive for zero. -/
def signOf (v : ℚ) : Sign := if v < 0 then .negative else .positive

theorem withSign_signOf (v : ℚ) : withSign (signOf v) |v| = v := by
  rw [signOf]
  split
  · next h => rw [abs_of_neg h]; exact neg_neg v
  · next h => exact abs_of_nonneg (not_lt.1 h)

theorem abs_withSign (hv : 0 ≤ v) (s : Sign) : |withSign s v| = v := by
  cases s with
  | positive => exact abs_of_nonneg hv
  | negative => exact (abs_neg v).trans (abs_of_nonneg hv)

theorem signOf_withSign (hv : 0 < v) (s : Sign) : signOf (withSign s v) = s := by
  cases s with
  | positive => exact if_neg hv.not_gt
  | negative => exact if_pos (neg_neg_of_pos hv)

theorem withSign_neg (s : Sign) (v : ℚ) : withSign (-s) v = -withSign s v := by
  cases s with
  | positive => rfl
  | negative => exact (neg_neg v).symm

theorem withSign_mul (s t : Sign) (v w : ℚ) :
    withSign (s * t) (v * w) = withSign s v * withSign t w := by
  cases s <;> cases t
  · exact (neg_mul_neg v w).symm
  · exact (neg_mul v w).symm
  · exact (mul_neg v w).symm
  · rfl

theorem withSign_div (s t : Sign) (v w : ℚ) :
    withSign (s / t) (v / w) = withSign s v / withSign t w := by
  cases s <;> cases t
  · exact (neg_div_neg_eq v w).symm
  · exact (neg_div w v).symm
  · exact (div_neg v).symm
  · rfl

def exactValue (x : Float) : ℚ :=
  match x.toModel.unpack with
  | .finite s m q _ => withSign s (m * 2 ^ q)
  | _ => 0

theorem HasMagnitude.exactValue_eq (h : HasMagnitude x s v) : exactValue x = withSign s v := by
  obtain ⟨m, q, hm, hx, rfl⟩ := h
  rw [exactValue, hx]

theorem exactValue_of_rank (h : rank x = 0) : exactValue x = 0 := by
  obtain ⟨s, hs⟩ := unpack_of_rank h
  rw [exactValue, hs]

theorem exactValue_neg (x : Float) : exactValue (-x) = -exactValue x := by
  rw [exactValue, exactValue, unpack_neg]
  cases x.toModel.unpack with
  | finite s m q hm => exact withSign_neg s _
  | _ => exact neg_zero.symm

theorem abs_exactValue (x : Float) : |exactValue x| = exactMagnitude x := by
  rw [exactValue, exactMagnitude]
  cases x.toModel.unpack with
  | finite s m q hm =>
    exact abs_withSign (mul_nonneg (Nat.cast_nonneg m) (zpow_pos (by norm_num) q).le) s
  | _ => exact abs_zero

theorem HasMagnitude.lt_threshold (h : HasMagnitude x s v) : v < threshold := by
  rw [← rounded_lt_limit_iff h.isDouble.pos, h.isDouble.rounded_eq]
  obtain ⟨m, q, hm, hx, rfl⟩ := h
  exact (canonical_of_unpack hx).lt_limit_iff.2 (exponent_le hx)

theorem abs_exactValue_lt (x : Float) : |exactValue x| < threshold := by
  rw [abs_exactValue]
  cases hfinite : x.isFinite with
  | false =>
    rw [exactMagnitude_of_not_finite hfinite]
    exact threshold_pos
  | true =>
    rcases exists_hasMagnitude hfinite with h0 | ⟨s, v, h⟩
    · rw [exactMagnitude_of_rank h0]
      exact threshold_pos
    · rw [h.exactMagnitude_eq]
      exact h.lt_threshold

def roundedTo (v : ℚ) : ℚ := withSign (signOf v) (rounded |v|)

theorem rounded_zero : rounded 0 = 0 := by
  rw [rounded, zero_div, Nat.le_zero.1 (nearestWhole_le le_rfl Nat.cast_zero.ge), Nat.cast_zero,
    zero_mul]

theorem roundedTo_zero : roundedTo 0 = 0 := by
  rw [roundedTo, abs_zero, rounded_zero]
  rfl

theorem abs_roundedTo (v : ℚ) : |roundedTo v| = rounded |v| :=
  abs_withSign (rounded_nonneg _) _

theorem roundedTo_of_nonneg (hv : 0 ≤ v) : roundedTo v = rounded v := by
  rw [roundedTo, signOf, if_neg hv.not_gt, abs_of_nonneg hv]
  rfl

theorem roundedTo_nonneg (hv : 0 ≤ v) : 0 ≤ roundedTo v := by
  rw [roundedTo_of_nonneg hv]
  exact rounded_nonneg v

theorem isFinite_infinity (s : Sign) : (signed s infinity).isFinite = false := by
  cases s <;> rfl

/-- A double is the correct rounding of a number: the nearest double, or infinity beyond them. -/
structure RoundsTo (x : Float) (v : ℚ) : Prop where
  isFinite : |v| < threshold → x.isFinite = true
  value : |v| < threshold → exactValue x = roundedTo v
  infinite : threshold ≤ |v| → x = signed (signOf v) infinity

namespace RoundsTo

theorem isFinite_iff (h : RoundsTo x v) : x.isFinite = true ↔ |v| < threshold := by
  refine ⟨fun hfinite => ?_, h.isFinite⟩
  by_contra hge
  rw [h.infinite (not_lt.1 hge), isFinite_infinity] at hfinite
  cases hfinite

theorem congr (h : RoundsTo x v) (hsame : same y x = true) : RoundsTo y v := by
  rcases eq_of_same hsame with rfl | ⟨hy, hx⟩
  · exact h
  · have hfinite : |v| < threshold := h.isFinite_iff.1 (isFinite_of_rank hx)
    refine ⟨fun _ => isFinite_of_rank hy, fun _ => ?_, fun hge => absurd hfinite hge.not_gt⟩
    rw [exactValue_of_rank hy, ← h.value hfinite, exactValue_of_rank hx]

theorem of_rank (h : rank x = 0) : RoundsTo x 0 := by
  refine ⟨fun _ => isFinite_of_rank h, fun _ => ?_, fun hge => ?_⟩
  · rw [exactValue_of_rank h, roundedTo_zero]
  · rw [abs_zero] at hge
    exact absurd threshold_pos hge.not_gt

theorem self (h : x.isFinite = true) : RoundsTo x (exactValue x) := by
  rcases exists_hasMagnitude h with h0 | ⟨s, v, hx⟩
  · rw [exactValue_of_rank h0]
    exact of_rank h0
  · refine ⟨fun _ => h, fun _ => ?_, fun hge => absurd (abs_exactValue_lt x) hge.not_gt⟩
    have hv := hx.isDouble.pos
    rw [roundedTo, hx.exactValue_eq, signOf_withSign hv, abs_withSign hv.le,
      hx.isDouble.rounded_eq]

end RoundsTo

theorem nearest_of_rounded_eq_zero (s : Sign) (h : rounded v = 0) : nearest s v = .zero s := by
  have h0 : nearestWhole (v / 2 ^ exponentOf v) = 0 := by
    have hunit := unit_pos v
    rw [rounded, mul_eq_zero, or_iff_left hunit.ne'] at h
    exact_mod_cast h
  have hsignificand : (leading (v / 2 ^ exponentOf v)).roundedMantissa = 0 := h0
  have hshift (e : Int) : (shiftToTargetExponent .binary64 0 e .exact).1.mantissa = 0 := by
    rw [shiftToTargetExponent, shiftToExponent]
    have hexact := shiftRight_exact 0 (Format.binary64.targetExponent (totalExponent 0 e) - e).toNat
    rw [Nat.zero_mul] at hexact
    exact congrArg ExtendedMantissa.mantissa hexact
  rw [nearest]
  simp only [hsignificand, dif_pos (hshift _)]

theorem roundsTo_nearest (s : Sign) (hv : 0 < v) :
    RoundsTo (.ofModel (.pack (nearest s v))) (withSign s v) := by
  have habs := abs_withSign hv.le s
  have hrounded : roundedTo (withSign s v) = withSign s (rounded v) := by
    rw [roundedTo, habs, signOf_withSign hv]
  rcases lt_or_ge v threshold with hlt | hge
  · by_cases h0 : rounded v = 0
    · have hrank : rank (.ofModel (.pack (nearest s v))) = 0 := by
        rw [nearest_of_rounded_eq_zero s h0, rank_pack_zero]
      refine ⟨fun _ => isFinite_of_rank hrank, fun _ => ?_, fun hge => ?_⟩
      · rw [exactValue_of_rank hrank, hrounded, h0]
        cases s <;> rfl
      · exact absurd (hge.trans_eq habs) hlt.not_ge
    · have hx := hasMagnitude_nearest s hv h0 ((rounded_lt_limit_iff hv).2 hlt)
      refine ⟨fun _ => hx.isFinite, fun _ => ?_, fun hge => ?_⟩
      · rw [hx.exactValue_eq, hrounded]
      · exact absurd (hge.trans_eq habs) hlt.not_ge
  · refine ⟨fun hlt => ?_, fun hlt => ?_, fun _ => ?_⟩
    · exact absurd (habs.symm.trans_lt hlt) hge.not_gt
    · exact absurd (habs.symm.trans_lt hlt) hge.not_gt
    · have hlimit : limit ≤ rounded v := not_lt.1 (mt (rounded_lt_limit_iff hv).1 hge.not_gt)
      obtain ⟨m, q, hc, hnearest, hvalue⟩ :=
        exists_nearest_eq s hv (limit_pos.trans_le hlimit).ne'
      have hq : 971 < q := by
        rw [hvalue] at hlimit
        exact not_le.1 fun hq => hlimit.not_gt (hc.lt_limit_iff.2 hq)
      rw [hnearest, pack_of_exponent_gt hc.pos hq s, signOf_withSign hv]
      cases s <;> rfl

theorem round_eq_nearest (s : Sign) {m : ℕ} (hm : 0 < m) (q : Int) :
    UnpackedFloat.round .binary64 s m q = nearest s (m * 2 ^ q) := by
  have htarget : Format.binary64.targetExponent (totalExponent m q) = exponentOf (m * 2 ^ q) := by
    have hunit : (0 : ℚ) < 2 ^ q := zpow_pos (by norm_num) q
    show max ((m.log2 + 1 + q : Int) - 53) (-1074) = _
    rw [exponentOf, log_natCast_mul_zpow hm.ne' le_rfl (by linarith)]
    congr 1
    ring
  obtain ⟨k, hk⟩ : ∃ k, (q - exponentOf (m * 2 ^ q)).toNat = k := ⟨_, rfl⟩
  have hvalue : (m : ℚ) * 2 ^ q = (m * 2 ^ k : ℕ) / (1 : ℕ) * 2 ^ (q - k : Int) := by
    push_cast
    rw [div_eq_mul_inv, inv_one, MulOneClass.mul_one, mul_assoc, ← zpow_natCast,
      ← zpow_add₀ (by norm_num)]
    congr 2
    omega
  have hround := roundWithAccuracy_eq_nearest s (Nat.mul_pos hm (Nat.two_pow_pos k)) Nat.one_pos
    hvalue (by omega)
  rw [Nat.div_one, Nat.mod_one] at hround
  rw [UnpackedFloat.round]
  simp only [htarget, decreaseExponent, hk, Nat.shiftLeft_eq]
  exact hround

theorem roundsTo_normalize (n : Int) (q : Int) :
    RoundsTo (.ofModel (.pack (UnpackedFloat.normalize .binary64 n q .positive))) (n * 2 ^ q) := by
  have hunit : (0 : ℚ) < 2 ^ q := zpow_pos (by norm_num) q
  rw [UnpackedFloat.normalize]
  rcases lt_trichotomy n 0 with h | rfl | h
  · obtain ⟨m, rfl⟩ : ∃ m : ℕ, n = -m := ⟨(-n).toNat, by omega⟩
    have hm : 0 < m := by omega
    rw [compare_lt_iff_lt.2 h]
    simp only [neg_neg, Int.toNat_natCast, round_eq_nearest .negative hm]
    have hround := roundsTo_nearest .negative (mul_pos (Nat.cast_pos.2 hm) hunit)
    have hvalue : ((-(m : Int) : Int) : ℚ) * 2 ^ q = withSign .negative (m * 2 ^ q) := by
      push_cast
      exact neg_mul _ _
    rwa [hvalue]
  · rw [Int.cast_zero, zero_mul]
    exact .of_rank (rank_pack_zero .positive)
  · obtain ⟨m, rfl⟩ : ∃ m : ℕ, n = m := ⟨n.toNat, by omega⟩
    have hm : 0 < m := by omega
    rw [compare_gt_iff_gt.2 h]
    simp only [Int.toNat_natCast, round_eq_nearest .positive hm]
    exact roundsTo_nearest .positive (mul_pos (Nat.cast_pos.2 hm) hunit)

/-- The sum of two magnitudes under signs, as a whole number of units of the finer one. -/
theorem roundsTo_pack_add (s t : Sign) {m n : ℕ} (p q : Int) (hm : 0 < m) (hn : 0 < n) :
    RoundsTo (.ofModel (.pack
        (UnpackedFloat.add .binary64 (.finite s m p hm) (.finite t n q hn))))
      (withSign s (m * 2 ^ p) + withSign t (n * 2 ^ q)) := by
  have haligned (s : Sign) (m : ℕ) {e u : Int} (hu : u ≤ e) :
      ((s.apply (decreaseExponent m e u).1 : Int) : ℚ) * 2 ^ u = withSign s (m * 2 ^ e) := by
    have hshift : (((decreaseExponent m e u).1 : ℕ) : ℚ) * 2 ^ u = m * 2 ^ e := by
      show ((m <<< (e - u).toNat : ℕ) : ℚ) * 2 ^ u = m * 2 ^ e
      rw [Nat.shiftLeft_eq]
      push_cast
      rw [mul_assoc, ← zpow_natCast, ← zpow_add₀ (by norm_num)]
      congr 2
      omega
    cases s with
    | positive => exact_mod_cast hshift
    | negative =>
      rw [withSign, ← hshift, ← neg_mul]
      exact congrArg (· * _) (Int.cast_neg _)
  have hsum := congrArg₂ (· + ·) (haligned s m (min_le_left p q)) (haligned t n (min_le_right p q))
  simp only [← add_mul, ← Int.cast_add] at hsum
  rw [← hsum]
  exact roundsTo_normalize _ _

theorem unpack_cases_of_isFinite (h : x.isFinite = true) :
    (∃ s, x.toModel.unpack = .zero s ∧ rank x = 0 ∧ exactValue x = 0) ∨
      ∃ s m q, ∃ hm : 0 < m,
        x.toModel.unpack = .finite s m q hm ∧ exactValue x = withSign s (m * 2 ^ q) := by
  rcases exists_hasMagnitude h with h0 | ⟨s, v, hx⟩
  · obtain ⟨s, hs⟩ := unpack_of_rank h0
    exact .inl ⟨s, hs, h0, exactValue_of_rank h0⟩
  · have hvalue := hx.exactValue_eq
    obtain ⟨m, q, hm, hu, rfl⟩ := hx
    exact .inr ⟨s, m, q, hm, hu, hvalue⟩

theorem roundsTo_add (hx : x.isFinite = true) (hy : y.isFinite = true) :
    RoundsTo (x + y) (exactValue x + exactValue y) := by
  rcases unpack_cases_of_isFinite hx with ⟨-, -, h0, hvalue⟩ | ⟨s, m, p, hm, hxu, hxv⟩
  · rw [hvalue, zero_add]
    exact (RoundsTo.self hy).congr (same_zero_add y h0)
  rcases unpack_cases_of_isFinite hy with ⟨-, -, h0, hvalue⟩ | ⟨t, n, q, hn, hyu, hyv⟩
  · rw [hvalue, add_zero]
    exact (RoundsTo.self hx).congr (same_add_zero x h0)
  rw [add_eq_pack, hxu, hyu, hxv, hyv]
  exact roundsTo_pack_add s t p q hm hn

protected theorem sub_eq_add_neg (x y : Float) : x - y = x + -y := by
  rw [sub_eq_pack, add_eq_pack, unpack_neg]
  congr 2
  cases x.toModel.unpack with
  | finite s m p hm =>
    cases y.toModel.unpack with
    | finite t n q hn =>
      have happly (k : Int) : (-t).apply k = -t.apply k := by
        cases t with
        | positive => rfl
        | negative => exact (neg_neg k).symm
      simp only [UnpackedFloat.sub, UnpackedFloat.add, UnpackedFloat.neg, happly]
      rfl
    | _ => rfl
  | _ => cases y.toModel.unpack <;> rfl

theorem roundsTo_sub (hx : x.isFinite = true) (hy : y.isFinite = true) :
    RoundsTo (x - y) (exactValue x - exactValue y) := by
  rw [Binary64.sub_eq_add_neg, sub_eq_add_neg, ← exactValue_neg]
  exact roundsTo_add hx ((isFinite_neg y).trans hy)

/-- A product of finite doubles has a zero as a factor, and the fused product adds it as it is, or
it has two magnitudes. -/
theorem product_cases (hx : x.isFinite = true) (hy : y.isFinite = true) :
    (rank (x * y) = 0 ∧ exactValue x * exactValue y = 0 ∧
      ∀ z : Float, fusedProduct x y z = x * y + z) ∨
    ∃ s m p, ∃ hm : 0 < m, ∃ t n q, ∃ hn : 0 < n,
      x.toModel.unpack = .finite s m p hm ∧ y.toModel.unpack = .finite t n q hn ∧
        exactValue x * exactValue y = withSign (s * t) (m * 2 ^ p * (n * 2 ^ q)) := by
  rcases unpack_cases_of_isFinite hx with ⟨s, hxu, -, hxv⟩ | ⟨s, m, p, hm, hxu, hxv⟩
  · refine .inl ⟨?_, by rw [hxv, zero_mul], fun z => ?_⟩
    · rw [mul_eq_pack, hxu]
      rcases unpack_cases_of_isFinite hy with ⟨t, hyu, -⟩ | ⟨t, n, q, hn, hyu, -⟩ <;> rw [hyu] <;>
        exact rank_pack_zero _
    · rw [fusedProduct, hxu]
  rcases unpack_cases_of_isFinite hy with ⟨t, hyu, -, hyv⟩ | ⟨t, n, q, hn, hyu, hyv⟩
  · refine .inl ⟨?_, by rw [hyv, mul_zero], fun z => ?_⟩
    · rw [mul_eq_pack, hxu, hyu]
      exact rank_pack_zero _
    · rw [fusedProduct, hxu, hyu]
  · exact .inr ⟨s, m, p, hm, t, n, q, hn, hxu, hyu, by rw [hxv, hyv, withSign_mul]⟩

theorem roundsTo_mul (hx : x.isFinite = true) (hy : y.isFinite = true) :
    RoundsTo (x * y) (exactValue x * exactValue y) := by
  rcases product_cases hx hy with
    ⟨h0, hvalue, -⟩ | ⟨s, m, p, hm, t, n, q, hn, hxu, hyu, hvalue⟩
  · rw [hvalue]
    exact .of_rank h0
  · have hv : HasMagnitude x s _ := ⟨m, p, hm, hxu, rfl⟩
    have hw : HasMagnitude y t _ := ⟨n, q, hn, hyu, rfl⟩
    rw [mul_eq_rounded hv hw, hvalue]
    exact roundsTo_nearest _ (mul_pos hv.isDouble.pos hw.isDouble.pos)

theorem roundsTo_div (hx : x.isFinite = true) (hy : HasMagnitude y t w) :
    RoundsTo (x / y) (exactValue x / exactValue y) := by
  rcases exists_hasMagnitude hx with h0 | ⟨s, v, hv⟩
  · rw [exactValue_of_rank h0, zero_div]
    exact .of_rank (rank_zero_div h0 hy)
  rw [div_eq_rounded hv hy, hv.exactValue_eq, hy.exactValue_eq, ← withSign_div]
  exact roundsTo_nearest _ (div_pos hv.isDouble.pos hy.isDouble.pos)

theorem roundsTo_fusedProduct (hx : x.isFinite = true) (hy : y.isFinite = true)
    (hz : z.isFinite = true) :
    RoundsTo (fusedProduct x y z) (exactValue x * exactValue y + exactValue z) := by
  rcases product_cases hx hy with
    ⟨h0, hvalue, hfused⟩ | ⟨s, m, p, hm, t, n, q, hn, hxu, hyu, hvalue⟩
  · rw [hfused, hvalue, zero_add]
    exact (RoundsTo.self hz).congr (same_zero_add z h0)
  rcases unpack_cases_of_isFinite hz with ⟨u, hzu, -, hzv⟩ | ⟨u, k, r, hk, hzu, hzv⟩
  · rw [fusedProduct, hxu, hyu, hzu, hzv, add_zero]
    exact roundsTo_mul hx hy
  · have hexact := roundsTo_pack_add (s * t) u (p + q) r (Nat.mul_pos hm hn) hk
    have hunits : ((m * n : ℕ) : ℚ) * 2 ^ (p + q) = m * 2 ^ p * (n * 2 ^ q) := by
      rw [zpow_add₀ (by norm_num)]
      push_cast
      ring
    rw [hunits, ← hvalue, ← hzv] at hexact
    rw [fusedProduct, hxu, hyu, hzu]
    exact hexact

section NotFinite

theorem isFinite_of_pack {u : UnpackedFloat} (h : (Float.ofModel (.pack u)).isFinite = true) :
    u.isFinite = true := by
  cases u with
  | infinity s => cases s <;> cases h
  | notANumber => cases h
  | _ => rfl

theorem isFinite_of_add (h : (x + y).isFinite = true) :
    x.isFinite = true ∧ y.isFinite = true := by
  have hsum := isFinite_of_pack h
  show x.toModel.unpack.isFinite = true ∧ y.toModel.unpack.isFinite = true
  generalize x.toModel.unpack = u at hsum ⊢
  generalize y.toModel.unpack = w at hsum ⊢
  cases u with
  | notANumber => cases hsum
  | infinity s =>
    cases w with
    | infinity t => cases s <;> cases t <;> cases hsum
    | _ => cases hsum
  | _ =>
    cases w with
    | notANumber => cases hsum
    | infinity t => cases hsum
    | _ => exact ⟨rfl, rfl⟩

theorem isFinite_of_mul (h : (x * y).isFinite = true) :
    x.isFinite = true ∧ y.isFinite = true := by
  have hproduct := isFinite_of_pack h
  show x.toModel.unpack.isFinite = true ∧ y.toModel.unpack.isFinite = true
  generalize x.toModel.unpack = u at hproduct ⊢
  generalize y.toModel.unpack = w at hproduct ⊢
  cases u with
  | notANumber => cases hproduct
  | infinity s => cases w <;> cases hproduct
  | _ =>
    cases w with
    | notANumber => cases hproduct
    | infinity t => cases hproduct
    | _ => exact ⟨rfl, rfl⟩

theorem isFinite_of_div (h : (x / y).isFinite = true) : x.isFinite = true := by
  have hquotient := isFinite_of_pack h
  show x.toModel.unpack.isFinite = true
  generalize x.toModel.unpack = u at hquotient ⊢
  generalize y.toModel.unpack = w at hquotient
  cases u with
  | notANumber => cases hquotient
  | infinity s => cases w <;> cases hquotient
  | _ => rfl

theorem unpack_infinity (s : Sign) : (signed s infinity).toModel.unpack = .infinity s := by
  cases s <;> rfl

theorem rank_div_infinity (h : x.isFinite = true) (s : Sign) :
    rank (x / signed s infinity) = 0 := by
  rw [div_eq_pack, unpack_infinity]
  rcases unpack_cases_of_isFinite h with ⟨t, hxu, -⟩ | ⟨t, m, q, hm, hxu, -⟩ <;> rw [hxu] <;>
    exact rank_pack_zero _

end NotFinite

end Binary64
end ComplexAlgebra
