import ComplexAlgebra.Proofs.Scaling

/-! When the normalization of components is idempotent. Settling a settled double changes it only if
it drifts: between `2 ^ 12` and the end of the scaled halves the twelfth decimal place is hardly
wider than the last binary one, and rounding to it can move a double on that had been rounded to it.
-/
namespace ComplexAlgebra
namespace Binary64

open Float.Model Float.Model.UnpackedFloat

variable {x : Float} {s : Sign} {v : ℚ}

/-- A double that reads the same with all and with the reduced digits, whose last place is nearly as
wide as the twelfth decimal place, and which stands nearer to the next half of that place than to
the whole one below it. Settling moves it on by one of its last places. -/
structure Drifts (x : Float) : Prop where
  reads_same : (toSignificant x fullDigits == toSignificant x reducedDigits) = true
  wide : 2 ^ 12 ≤ exactMagnitude x
  halves : exactMagnitude x * 10 ^ 12 < 2 ^ 52
  beyond_quarter : 1 / 4 < Int.fract (exactMagnitude x * 10 ^ 12)
  below_half : Int.fract (exactMagnitude x * 10 ^ 12) < 1 / 2

instance : DecidablePred Drifts := fun x =>
  decidable_of_iff
    ((toSignificant x fullDigits == toSignificant x reducedDigits) = true ∧
      2 ^ 12 ≤ exactMagnitude x ∧ exactMagnitude x * 10 ^ 12 < 2 ^ 52 ∧
      1 / 4 < Int.fract (exactMagnitude x * 10 ^ 12) ∧
      Int.fract (exactMagnitude x * 10 ^ 12) < 1 / 2)
    ⟨fun ⟨h, hw, hh, hq, hb⟩ => ⟨h, hw, hh, hq, hb⟩,
      fun ⟨h, hw, hh, hq, hb⟩ => ⟨h, hw, hh, hq, hb⟩⟩

theorem hasMagnitude_tiny :
    HasMagnitude tiny .positive ((5070602400912918 : ℕ) * 2 ^ (-102 : Int)) :=
  ⟨5070602400912918, -102, by norm_num, rfl, rfl⟩

theorem not_tiny (h : HasMagnitude x s v) (hv : 2 ^ (-40 : Int) ≤ v) : ¬ x.abs < tiny := by
  rw [h.abs.lt_iff hasMagnitude_tiny, not_lt]
  refine le_trans ?_ hv
  norm_num

theorem settle_of_not_finite (h : x.isFinite = false) : settle x = x := by
  rw [settle, h]
  rfl

theorem settle_of_tiny (hfinite : x.isFinite = true) (htiny : x.abs < tiny) : settle x = 0 := by
  rw [settle, hfinite, if_neg (by decide), if_pos htiny]

theorem settle_of_not_same (hfinite : x.isFinite = true) (htiny : ¬ x.abs < tiny)
    (h : (toSignificant x fullDigits == toSignificant x reducedDigits) = false) : settle x = x := by
  rw [settle, hfinite, if_neg (by decide), if_neg htiny, h, if_neg Bool.false_ne_true]

theorem settle_of_same (hfinite : x.isFinite = true) (htiny : ¬ x.abs < tiny)
    (h : (toSignificant x fullDigits == toSignificant x reducedDigits) = true) :
    settle x = roundDecimals x 12 := by
  rw [settle, hfinite, if_neg (by decide), if_neg htiny, h, if_pos rfl]
  rfl

theorem toSignificant_neg (x : Float) (digits : ℕ) :
    toSignificant (-x) digits = -toSignificant x digits := by
  rw [toSignificant, toSignificant]
  split
  · rfl
  · rw [unpack_neg]
    cases x.toModel.unpack with
    | finite s m q hm => exact signed_neg s _
    | _ => rfl

theorem settle_neg (x : Float) : same (settle (-x)) (-settle x) = true := by
  cases hfinite : x.isFinite with
  | false =>
    have hneg : (-x).isFinite = false := (isFinite_neg x).trans hfinite
    rw [settle_of_not_finite hfinite, settle_of_not_finite hneg]
    exact same_self _
  | true =>
    have hneg : (-x).isFinite = true := (isFinite_neg x).trans hfinite
    rcases exists_hasMagnitude hfinite with h0 | ⟨s, v, h⟩
    · rw [settle_of_rank h0, settle_of_rank (rank_neg_of_rank h0)]
      decide
    · by_cases htiny : x.abs < tiny
      · rw [settle_of_tiny hfinite htiny, settle_of_tiny hneg (Binary64.abs_neg x ▸ htiny)]
        decide
      · have htiny' : ¬ (-x).abs < tiny := Binary64.abs_neg x ▸ htiny
        have hreads' : (toSignificant (-x) fullDigits == toSignificant (-x) reducedDigits) =
            (toSignificant x fullDigits == toSignificant x reducedDigits) := by
          rw [toSignificant_neg, toSignificant_neg, beq_neg]
        cases hreads : toSignificant x fullDigits == toSignificant x reducedDigits with
        | false =>
          rw [settle_of_not_same hfinite htiny hreads,
            settle_of_not_same hneg htiny' (hreads'.trans hreads)]
          exact same_self _
        | true =>
          rw [settle_of_same hfinite htiny hreads,
            settle_of_same hneg htiny' (hreads'.trans hreads)]
          exact roundDecimals_neg h

theorem settle_neg_eq_iff (h : HasMagnitude x s v) : settle (-x) = -x ↔ settle x = x := by
  rcases eq_of_same (settle_neg x) with heq | ⟨hneg, hrank⟩
  · rw [heq]
    constructor
    · intro hsame
      rw [← Binary64.neg_neg (settle x), hsame, Binary64.neg_neg]
    · exact congrArg (- ·)
  · constructor
    · intro hsame
      rw [hsame] at hneg
      exact absurd hneg h.neg.rank_ne_zero
    · intro hsame
      rw [hsame] at hrank
      exact absurd hrank h.neg.rank_ne_zero

theorem not_drifts_of_zero (h : exactMagnitude x = 0) : ¬ Drifts x := fun hdrifts => by
  have hwide := hdrifts.wide
  rw [h] at hwide
  norm_num at hwide

theorem drifts_iff (h : HasMagnitude x s v) : Drifts x ↔
    (toSignificant x fullDigits == toSignificant x reducedDigits) = true ∧ MovesOn v := by
  rw [← h.exactMagnitude_eq]
  exact ⟨fun hd => ⟨hd.reads_same, hd.wide, hd.halves, hd.beyond_quarter, hd.below_half⟩,
    fun ⟨hreads, hwide, hhalves, hbeyond, hbelow⟩ => ⟨hreads, hwide, hhalves, hbeyond, hbelow⟩⟩

/-- Of the doubles nearest to a whole number of twelfth decimal places, settling changes those that
drift. -/
theorem settle_beq_iff {n : ℕ} (hn : IsDouble n)
    (h : HasMagnitude x s (rounded ((n : ℚ) / 10 ^ 12))) :
    (settle x == x) = true ↔ ¬ Drifts x := by
  have hn0 : 0 < n := by exact_mod_cast hn.pos
  have htiny := not_tiny h (le_rounded_div hn0)
  rw [drifts_iff h]
  cases hreads : toSignificant x fullDigits == toSignificant x reducedDigits with
  | false =>
    rw [settle_of_not_same h.isFinite htiny hreads]
    exact iff_of_true (beq_self_of_isFinite h.isFinite) fun hdrifts => nomatch hdrifts.1
  | true =>
    rw [settle_of_same h.isFinite htiny hreads, and_iff_right rfl]
    rcases roundDecimals_cases h with ⟨hlarge, heq⟩ | ⟨-, ⟨hzero, -⟩ | ⟨-, -, hagain⟩⟩
    · have hscaled := mul_pos h.isDouble.pos (show (0 : ℚ) < 10 ^ 12 by norm_num)
      rw [heq]
      exact iff_of_true (beq_self_of_isFinite h.isFinite) fun hmoves =>
        hmoves.2.1.not_ge (scaled_ge_of_limit_le hscaled hlarge)
    · exact absurd hzero (halfUp_scaled_ne_zero hn0)
    · rw [hagain.beq_iff h]
      exact rounded_again_iff hn

/-- What a double is settled to: zero, or itself without any drift, or the double nearest to a whole
number of twelfth decimal places. -/
theorem settle_cases (h : x.isFinite = true) :
    rank (settle x) = 0 ∨ (settle x = x ∧ ¬ Drifts x) ∨
      ∃ s, ∃ n : ℕ, IsDouble n ∧ HasMagnitude (settle x) s (rounded ((n : ℚ) / 10 ^ 12)) := by
  rcases exists_hasMagnitude h with h0 | ⟨s, v, hx⟩
  · left
    rw [settle_of_rank h0]
    decide
  · by_cases htiny : x.abs < tiny
    · left
      rw [settle_of_tiny h htiny]
      decide
    · cases hreads : toSignificant x fullDigits == toSignificant x reducedDigits with
      | false =>
        refine .inr (.inl ⟨settle_of_not_same h htiny hreads, fun hdrifts => ?_⟩)
        cases hreads.symm.trans hdrifts.reads_same
      | true =>
        rw [settle_of_same h htiny hreads]
        rcases roundDecimals_cases hx with ⟨hlarge, heq⟩ | ⟨-, ⟨-, hzero⟩ | ⟨-, hn, hrounded⟩⟩
        · refine .inr (.inl ⟨heq, fun hdrifts => ?_⟩)
          have hscaled := mul_pos hx.isDouble.pos (show (0 : ℚ) < 10 ^ 12 by norm_num)
          exact ((drifts_iff hx).1 hdrifts).2.2.1.not_ge (scaled_ge_of_limit_le hscaled hlarge)
        · exact .inl hzero
        · exact .inr (.inr ⟨s, _, hn, hrounded⟩)

theorem isFinite_settle (h : x.isFinite = true) : (settle x).isFinite = true := by
  rcases settle_cases h with h0 | ⟨heq, -⟩ | ⟨s, n, -, hx⟩
  · exact isFinite_of_rank h0
  · rwa [heq]
  · exact hx.isFinite

theorem settle_settle_beq_iff (h : x.isFinite = true) :
    (settle (settle x) == settle x) = true ↔ ¬ Drifts (settle x) := by
  rcases settle_cases h with h0 | ⟨heq, hdrifts⟩ | ⟨s, n, hn, hx⟩
  · refine iff_of_true ?_ (not_drifts_of_zero (exactMagnitude_of_rank h0))
    rw [settle_of_rank h0, beq_iff_same (by decide), same_iff, h0]
    decide
  · rw [heq]
    refine iff_of_true ?_ hdrifts
    rw [heq]
    exact beq_self_of_isFinite h
  · exact settle_beq_iff hn hx

end Binary64

namespace FloatNumber

open Binary64

/-- The numbers that are made of two components. -/
def Made (z : FloatNumber) : Prop := ∃ x y, z = Number.make x y

theorem isFinite_of_not_isInf {x : Float} (hnan : x.isNaN = false) (hinf : x.isInf = false) :
    x.isFinite = true := by
  have hnan' : x.toModel.unpack.isNaN = false := hnan
  have hinf' : x.toModel.unpack.isInf = false := hinf
  show x.toModel.unpack.isFinite = true
  cases hu : x.toModel.unpack with
  | notANumber => rw [hu] at hnan'; cases hnan'
  | infinity s => rw [hu] at hinf'; cases hinf'
  | zero s => rfl
  | finite s m q hm => rfl

theorem Made.cases {z : FloatNumber} (h : z.Made) :
    (z.re.isFinite = false ∧ z.im = 0) ∨
      ∃ x y, x.isFinite = true ∧ y.isFinite = true ∧ z = ⟨settle x, settle y⟩ := by
  obtain ⟨x, y, rfl⟩ := h
  have hinfinite {x : Float} (hx : x.isInf = true) : x.isFinite = false :=
    Bool.eq_false_iff.2 fun hfinite => by
      rw [isInf_of_isFinite hfinite] at hx
      cases hx
  show ((settlePair x y).1.isFinite = false ∧ (settlePair x y).2 = 0) ∨
    ∃ x' y', x'.isFinite = true ∧ y'.isFinite = true ∧
      (⟨(settlePair x y).1, (settlePair x y).2⟩ : FloatNumber) = ⟨settle x', settle y'⟩
  rw [settlePair]
  split
  · exact .inl ⟨rfl, rfl⟩
  · next hnan =>
    rw [Bool.or_eq_true, not_or, Bool.not_eq_true, Bool.not_eq_true] at hnan
    split
    · next hinf => exact .inl ⟨hinfinite hinf, rfl⟩
    · next hre =>
      split
      · next hinf => exact .inl ⟨hinfinite hinf, rfl⟩
      · next him =>
        exact .inr ⟨x, y, isFinite_of_not_isInf hnan.1 (Bool.eq_false_iff.2 hre),
          isFinite_of_not_isInf hnan.2 (Bool.eq_false_iff.2 him), rfl⟩

theorem isFinite_make_iff (x y : Float) :
    isFinite (Number.make x y) = true ↔ x.isFinite = true ∧ y.isFinite = true := by
  show ((settlePair x y).1.isFinite && (settlePair x y).2.isFinite) = true ↔ _
  rw [Bool.and_eq_true]
  constructor
  · rintro ⟨hfinite, -⟩
    rw [settlePair] at hfinite
    split at hfinite
    · cases hfinite
    · next hnan =>
      rw [Bool.or_eq_true, not_or, Bool.not_eq_true, Bool.not_eq_true] at hnan
      split at hfinite
      · next hinf => exact absurd hinf (Bool.eq_false_iff.1 (isInf_of_isFinite hfinite))
      · next hre =>
        split at hfinite
        · next hinf => exact absurd hinf (Bool.eq_false_iff.1 (isInf_of_isFinite hfinite))
        · next him =>
          exact ⟨isFinite_of_not_isInf hnan.1 (Bool.eq_false_iff.2 hre),
            isFinite_of_not_isInf hnan.2 (Bool.eq_false_iff.2 him)⟩
  · rintro ⟨hx, hy⟩
    rw [settlePair_of_isFinite hx hy]
    exact ⟨isFinite_settle hx, isFinite_settle hy⟩

theorem Made.not_finite {z : FloatNumber} (h : z.Made) (hz : ¬ z.isFinite = true) :
    z.re.isFinite = false ∧ z.im = 0 := by
  rcases h.cases with hre | ⟨x, y, hx, hy, rfl⟩
  · exact hre
  · exact absurd (Bool.and_eq_true_iff.2 ⟨isFinite_settle hx, isFinite_settle hy⟩) hz

theorem Made.not_drifts_of_not_finite {z : FloatNumber} (h : z.Made) (hz : ¬ z.isFinite = true) :
    ¬ Drifts z.re ∧ ¬ Drifts z.im := by
  obtain ⟨hre, him⟩ := h.not_finite hz
  rw [him]
  exact ⟨not_drifts_of_zero (exactMagnitude_of_not_finite hre),
    not_drifts_of_zero (exactMagnitude_of_rank (by decide))⟩

theorem Made.make_parts_of_not_finite {z : FloatNumber} (h : z.Made) (hz : ¬ z.isFinite = true) :
    (Number.make z.re z.im == z) = true := by
  obtain ⟨hre, him⟩ := h.not_finite hz
  obtain ⟨re, im⟩ := z
  obtain rfl : im = 0 := him
  have hzero : (0 : Float).isNaN = false := by decide
  have hpair : settlePair re 0 = (re, 0) := by
    rw [settlePair, hzero, Bool.or_false]
    cases hnan : re.isNaN with
    | true =>
      rw [if_pos rfl, eq_nan hnan]
    | false =>
      have hinf : re.isInf = true := by
        by_contra hinf
        have hfinite := isFinite_of_not_isInf hnan (Bool.eq_false_iff.2 hinf)
        cases hre.symm.trans hfinite
      rw [if_neg Bool.false_ne_true, hinf, if_pos rfl]
  show ((⟨(settlePair re 0).1, (settlePair re 0).2⟩ : FloatNumber) == ⟨re, 0⟩) = true
  rw [hpair]
  exact beq_self _

theorem make_parts {z : FloatNumber} (h : z.isFinite = true) :
    Number.make z.re z.im = z.settled :=
  make_of_same h (same_self _) (same_self _)

theorem add_zero_eq_settled {z : FloatNumber} (h : z.isFinite = true) : z + 0 = z.settled := by
  rw [Number.add_def]
  exact make_of_same h (same_add_zero _ (by decide)) (same_add_zero _ (by decide))

theorem Made.settled_beq_iff {z : FloatNumber} (h : z.Made) (hfinite : z.isFinite = true) :
    (z.settled == z) = true ↔ ¬ Drifts z.re ∧ ¬ Drifts z.im := by
  rcases h.cases with ⟨hre, -⟩ | ⟨x, y, hx, hy, rfl⟩
  · obtain ⟨hre', -⟩ := Bool.and_eq_true_iff.1 hfinite
    rw [hre'] at hre
    cases hre
  · have hagain (w : Float) (hw : w.isFinite = true) :
        same (settle (settle w)) (settle w) = true ↔ ¬ Drifts (settle w) := by
      rw [← settle_settle_beq_iff hw,
        beq_iff_same (isNaN_of_isFinite (isFinite_settle (isFinite_settle hw)))]
    rw [settled, if_pos hfinite, Number.beq_def, Bool.and_eq_true]
    exact and_congr (hagain x hx) (hagain y hy)

/-- Settling is idempotent exactly on the doubles that it does not settle to one that drifts. Just
so a made number is made again from its own components, and a finite one, such as a real number, is
not changed by adding zero to it or by dividing it by one. -/
theorem settle_idempotent_iff {x : Float} (hx : x.isFinite = true) {z : FloatNumber} (hz : z.Made) :
    ((settle (settle x) == settle x) = true ↔ ¬ Drifts (settle x)) ∧
      ((Number.make z.re z.im == z) = true ↔ ¬ Drifts z.re ∧ ¬ Drifts z.im) ∧
      (z.isFinite = true →
        ((z + 0 == z) = true ↔ ¬ Drifts z.re ∧ ¬ Drifts z.im) ∧
        ((z / 1 == z) = true ↔ ¬ Drifts z.re ∧ ¬ Drifts z.im)) := by
  refine ⟨settle_settle_beq_iff hx, ?_, fun hfinite => ?_⟩
  · by_cases hfinite : z.isFinite = true
    · rw [make_parts hfinite]
      exact hz.settled_beq_iff hfinite
    · exact iff_of_true (hz.make_parts_of_not_finite hfinite) (hz.not_drifts_of_not_finite hfinite)
  · rw [add_zero_eq_settled hfinite, div_one_eq_settled]
    exact ⟨hz.settled_beq_iff hfinite, hz.settled_beq_iff hfinite⟩

/-- Between `2 ^ 12` and the end of the halves, but with a fraction below a quarter. -/
theorem settle_idempotent_between :
    (settle (settle 4400.501) == settle 4400.501) = true ∧
      (Number.make (Number.ofReal 4400.501 : FloatNumber).re (Number.ofReal 4400.501).im ==
        (Number.ofReal 4400.501 : FloatNumber)) = true ∧
      ((Number.ofReal 4400.501 : FloatNumber) + 0 == Number.ofReal 4400.501) = true ∧
      ((Number.ofReal 4400.501 : FloatNumber) / 1 == Number.ofReal 4400.501) = true := by
  have hstays : ¬ Drifts (Number.ofReal 4400.501 : FloatNumber).re ∧
      ¬ Drifts (Number.ofReal 4400.501 : FloatNumber).im := by decide +kernel
  have hmade : Made (Number.ofReal 4400.501) := ⟨4400.501, 0, rfl⟩
  have hfinite : (4400.501 : Float).isFinite = true := by decide
  obtain ⟨hsettle, hmake, hoperations⟩ := settle_idempotent_iff hfinite hmade
  obtain ⟨hadd, hdiv⟩ := hoperations (by decide +kernel)
  exact ⟨hsettle.2 (by decide +kernel), hmake.2 hstays, hadd.2 hstays, hdiv.2 hstays⟩

/-- A numeral that drifts: settling, adding zero and dividing by one all change it once more. -/
theorem settle_drifting :
    (4363.743 : Float).isFinite = true ∧
      (settle (settle 4363.743) == settle 4363.743) = false ∧
      (Number.make (Number.ofReal 4363.743 : FloatNumber).re (Number.ofReal 4363.743).im ==
        (Number.ofReal 4363.743 : FloatNumber)) = false ∧
      ((Number.ofReal 4363.743 : FloatNumber) + 0 == Number.ofReal 4363.743) = false ∧
      ((Number.ofReal 4363.743 : FloatNumber) / 1 == Number.ofReal 4363.743) = false := by
  decide +kernel

end FloatNumber
end ComplexAlgebra
