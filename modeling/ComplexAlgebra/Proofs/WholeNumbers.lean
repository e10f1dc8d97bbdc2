import ComplexAlgebra.Proofs.Normalization

/-! Which whole numbers survive the normalization of components. Scaling a whole number to its
twelfth decimal place is rounded once the product needs more than 53 bits, and scaling it back
undoes that only if less than half a last place of the number was lost. -/
namespace ComplexAlgebra
namespace Binary64

open Float.Model Float.Model.UnpackedFloat

variable {n : ℕ} {x : Float} {s : Sign} {v : ℚ}

/-- A whole number that reads the same with all and with the reduced digits, and whose scaled form
is rounded by half a last place of the number or more. -/
structure Displaced (n : ℕ) : Prop where
  reads_same : (toSignificant (Float.ofNat n) fullDigits ==
    toSignificant (Float.ofNat n) reducedDigits) = true
  loses_half : 10 ^ 12 * 2 ^ exponentOf n ≤ 2 * |rounded ((n : ℚ) * 10 ^ 12) - n * 10 ^ 12|

instance : DecidablePred Displaced := fun n =>
  decidable_of_iff
    ((toSignificant (Float.ofNat n) fullDigits ==
        toSignificant (Float.ofNat n) reducedDigits) = true ∧
      10 ^ 12 * 2 ^ exponentOf n ≤ 2 * |rounded ((n : ℚ) * 10 ^ 12) - n * 10 ^ 12|)
    ⟨fun ⟨h, hlost⟩ => ⟨h, hlost⟩, fun ⟨h, hlost⟩ => ⟨h, hlost⟩⟩

/-- Scaled to its twelfth decimal place, a whole number is whole even when it is rounded. -/
theorem halfUp_rounded_scaled (hn : 0 < n) :
    (halfUp (rounded ((n : ℚ) * 10 ^ 12)) : ℚ) = rounded ((n : ℚ) * 10 ^ 12) := by
  have hcast : (n : ℚ) * 10 ^ 12 = ((n * 10 ^ 12 : ℕ) : ℚ) := by push_cast; rfl
  have hpos : 0 < n * 10 ^ 12 := Nat.mul_pos hn (by norm_num)
  rw [hcast]
  rcases lt_or_ge (n * 10 ^ 12) (2 ^ 53) with hlt | hge
  · rw [(isDouble_natCast hpos hlt).rounded_eq, halfUp_natCast]
  · have hscaled : (0 : ℚ) < (n * 10 ^ 12 : ℕ) := Nat.cast_pos.2 hpos
    have hle : (2 : ℚ) ^ 53 ≤ (n * 10 ^ 12 : ℕ) := by exact_mod_cast hge
    have hreach := le_rounded hscaled (isDouble_two_pow (k := 53) (by norm_num))
      (by exact_mod_cast hle)
    have hdouble := (rounded_eq_zero_or hscaled).resolve_left
      ((zpow_pos (by norm_num) _).trans_le hreach).ne'
    refine hdouble.whole (le_trans ?_ hreach)
    norm_num

theorem rounded_scaled_lt_limit (hn : 0 < n) (hle : n ≤ 2 ^ 53) :
    rounded ((n : ℚ) * 10 ^ 12) < limit := by
  have hbound : (n : ℚ) * 10 ^ 12 ≤ 2 ^ (93 : Int) := by
    have hcast : (n : ℚ) ≤ 2 ^ 53 := by exact_mod_cast hle
    calc (n : ℚ) * 10 ^ 12 ≤ 2 ^ 53 * 10 ^ 12 := by gcongr
      _ ≤ 2 ^ (93 : Int) := by norm_num
  have hpos : (0 : ℚ) < n * 10 ^ 12 := by positivity
  calc rounded ((n : ℚ) * 10 ^ 12) ≤ 2 ^ (93 : Int) :=
        rounded_le hpos (isDouble_two_pow (by norm_num)) hbound
    _ < limit := zpow_lt_zpow_right₀ (by norm_num) (by norm_num)

theorem settle_ofNat_iff (hn : 0 < n) (hle : n ≤ 2 ^ 53) :
    settle (Float.ofNat n) = Float.ofNat n ↔ ¬ Displaced n := by
  have h := hasMagnitude_ofNat hn hle
  have hone : (1 : ℚ) ≤ n := by exact_mod_cast hn
  have htiny := not_tiny h (by norm_num; linarith)
  cases hreads : toSignificant (Float.ofNat n) fullDigits ==
      toSignificant (Float.ofNat n) reducedDigits with
  | false =>
    refine iff_of_true (settle_of_not_same h.isFinite htiny hreads) fun hdisplaced => ?_
    cases hreads.symm.trans hdisplaced.reads_same
  | true =>
    rw [settle_of_same h.isFinite htiny hreads]
    have hwhole := halfUp_rounded_scaled hn
    have hscaled : (0 : ℚ) < n * 10 ^ 12 := by positivity
    have hreach : (n : ℚ) ≤ rounded ((n : ℚ) * 10 ^ 12) :=
      le_rounded hscaled h.isDouble (by linarith)
    rcases roundDecimals_cases h with ⟨hlarge, -⟩ | ⟨-, ⟨hzero, -⟩ | ⟨-, -, hrounded⟩⟩
    · exact absurd hlarge (rounded_scaled_lt_limit hn hle).not_ge
    · rw [hzero, Nat.cast_zero] at hwhole
      linarith
    · rw [hwhole] at hrounded
      have hexponent := exponentOf_of_one_le hone
      have hback := rounded_scaled_back_iff h.isDouble (by omega)
      constructor
      · intro heq hdisplaced
        rw [heq] at hrounded
        exact (hback.1 (hrounded.inj h).2).not_ge hdisplaced.loses_half
      · intro hkept
        rw [hback.2 (not_le.1 fun hlost => hkept ⟨hreads, hlost⟩)] at hrounded
        exact hrounded.unique h

theorem digitCount_eq {d : ℕ} (hlow : 10 ^ d ≤ n) (hhigh : n < 10 ^ (d + 1)) :
    digitCount n = d + 1 := by
  induction d generalizing n with
  | zero => rw [digitCount, if_pos (by simpa using hhigh)]
  | succ d ih =>
    rw [Nat.pow_succ] at hlow hhigh
    have hstep := ih (n := n / 10) (by omega) (by omega)
    rw [digitCount, if_neg (by have := Nat.one_le_pow d 10 (by norm_num); omega), hstep]

theorem nearestEven_mul_right (a b : ℕ) {c : ℕ} (hc : 0 < c) :
    nearestEven (a * c) (b * c) = nearestEven a b := by
  have hdouble : 2 * (a % b * c) = 2 * (a % b) * c := by ring
  simp only [nearestEven, Nat.mul_div_mul_right _ _ hc, Nat.mul_mod_mul_right, hdouble,
    Nat.mul_lt_mul_right hc]

theorem mul_two_pow_eq {m : ℕ} {q : Int} (h : (m : ℚ) * 2 ^ q = n) :
    m * 2 ^ q.toNat = n * 2 ^ (-q).toNat := by
  rw [mul_zpow_eq_div, div_eq_iff (by positivity)] at h
  exact_mod_cast h

theorem toSignificant_ofNat (hn : 0 < n) (hle : n ≤ 2 ^ 53) {digits : ℕ} (hdigits : digits ≠ 0) :
    toSignificant (Float.ofNat n) digits =
      Float.ofScientific
        (nearestEven (n * 10 ^ (digits - digitCount n)) (10 ^ (digitCount n - digits)))
        (digitCount n ≤ digits) ((digits : Int) - digitCount n).natAbs := by
  obtain ⟨m, q, hm, hunpack, hvalue⟩ := hasMagnitude_ofNat hn hle
  have hfraction := mul_two_pow_eq hvalue
  have hunit : 0 < 2 ^ (-q).toNat := Nat.two_pow_pos _
  have hexponent : decimalExponent (n * 2 ^ (-q).toNat) (2 ^ (-q).toNat) = digitCount n - 1 := by
    rw [decimalExponent, if_pos (Nat.le_mul_of_pos_left _ hn), Nat.mul_div_cancel _ hunit]
  rw [toSignificant, if_neg hdigits, hunpack]
  simp only [fraction, Nat.pow_eq, hfraction, hexponent]
  have hshift : (digits : Int) - 1 - (digitCount n - 1) = digits - digitCount n := by ring
  rw [hshift, Nat.mul_right_comm, Nat.mul_comm (2 ^ (-q).toNat), nearestEven_mul_right _ _ hunit]
  have hup : ((digits : Int) - digitCount n).toNat = digits - digitCount n := by omega
  have hdown : (-((digits : Int) - digitCount n)).toNat = digitCount n - digits := by omega
  have hnonneg : (0 ≤ (digits : Int) - digitCount n) = (digitCount n ≤ digits) := by
    rw [eq_iff_iff]
    omega
  rw [hup, hdown]
  simp only [hnonneg]
  rfl

theorem value_whole (n : ℕ) : (⟨n, 0⟩ : Decimal).value = n := by simp [Decimal.value]

theorem toFloat_whole (hn : 0 < n) (hle : n ≤ 2 ^ 53) :
    (⟨n, 0⟩ : Decimal).toFloat = Float.ofNat n := by
  obtain ⟨m, q, hm, hunpack, hvalue⟩ := hasMagnitude_ofNat hn hle
  exact toFloat_of_value hunpack ((value_whole n).trans hvalue.symm)

theorem toSignificant_of_le (hn : 0 < n) (hle : n ≤ 2 ^ 53) {digits : ℕ} (hdigits : digits ≠ 0)
    (h : digitCount n ≤ digits) : toSignificant (Float.ofNat n) digits = Float.ofNat n := by
  have hplaces : ((digits : Int) - digitCount n).natAbs = digits - digitCount n := by omega
  have hwhole := nearestEven_of_dvd (n * 10 ^ (digits - digitCount n)) one_pos
  rw [Nat.mul_one] at hwhole
  rw [toSignificant_ofNat hn hle hdigits, Nat.sub_eq_zero_of_le h, pow_zero, hwhole, hplaces,
    decide_eq_true h, ← toFloat_whole hn hle]
  refine toFloat_congr (d := ⟨n * 10 ^ (digits - digitCount n), digits - digitCount n⟩) ?_
  rw [value_whole, Decimal.value]
  push_cast
  exact mul_div_cancel_right₀ (n : ℚ) (pow_ne_zero _ (by norm_num))

theorem hasMagnitude_tens (hn : 0 < n) (hlt : 10 * n < 2 ^ 53) :
    HasMagnitude (Float.ofScientific n false 1) .positive (10 * n : ℕ) := by
  have hvalue : ((n : ℚ) * 10 ^ 1) = (10 * n : ℕ) := by push_cast; ring
  have hdouble := isDouble_natCast (n := 10 * n) (by omega) hlt
  have hlimit : ((10 * n : ℕ) : ℚ) < limit := by
    calc ((10 * n : ℕ) : ℚ) < 2 ^ (53 : Int) := by exact_mod_cast hlt
      _ < limit := zpow_lt_zpow_right₀ (by norm_num) (by norm_num)
  have hten : 1 < Float.exactlyRepresentablePowersOfTen.size := by decide
  have hproduct := HasMagnitude.mul (holds_toFloat hn (by omega)) (holds_powerOfTen hten)
    (by rw [hvalue, hdouble.rounded_eq]; exact hdouble.pos.ne')
    (by rwa [hvalue, hdouble.rounded_eq])
  rw [hvalue, hdouble.rounded_eq] at hproduct
  rw [Float.ofScientific, dif_pos ⟨by omega, by norm_num⟩]
  exact hproduct

/-- With a digit less than it has, a whole number is rounded to a multiple of ten. -/
theorem toSignificant_of_succ (hle : n ≤ 2 ^ 52) {digits : ℕ} (hdigits : digits ≠ 0)
    (h : digitCount n = digits + 1) :
    ∃ k : ℕ, HasMagnitude (toSignificant (Float.ofNat n) digits) .positive (10 * k : ℕ) := by
  have hten : 10 ≤ n := by
    by_contra hlt
    rw [digitCount, if_pos (by omega)] at h
    omega
  have hnear : n / 10 ≤ nearestEven n 10 ∧ nearestEven n 10 ≤ n / 10 + 1 := by
    simp only [nearestEven]
    split
    · omega
    · split <;> omega
  have hshift : ((digits : Int) - (digits + 1 : ℕ)).natAbs = 1 := by omega
  refine ⟨nearestEven n 10, ?_⟩
  rw [toSignificant_ofNat (by omega) (by omega) hdigits, h, hshift,
    Nat.sub_eq_zero_of_le (by omega),
    Nat.add_sub_cancel_left, pow_zero, Nat.mul_one, pow_one, decide_eq_false (by omega)]
  exact hasMagnitude_tens (by omega) (by omega)

/-- A whole number of eight digits that reads the same with seven ends in a zero. -/
theorem dvd_of_reads_same (hlow : 10 ^ 7 ≤ n) (hhigh : n < 10 ^ 8)
    (h : (toSignificant (Float.ofNat n) fullDigits ==
      toSignificant (Float.ofNat n) reducedDigits) = true) : 10 ∣ n := by
  have hcount : digitCount n = 7 + 1 := digitCount_eq hlow hhigh
  have hvalue := hasMagnitude_ofNat (n := n) (by omega) (by omega)
  obtain ⟨k, hk⟩ : ∃ k : ℕ,
      HasMagnitude (toSignificant (Float.ofNat n) reducedDigits) .positive (10 * k : ℕ) :=
    toSignificant_of_succ (by omega) (by decide) hcount
  rw [toSignificant_of_le (by omega) (by omega) (by decide)
    (by rw [hcount]; decide), hvalue.beq_iff hk] at h
  exact ⟨k, by exact_mod_cast h⟩

theorem not_displaced_of_isDouble (h : IsDouble ((n : ℚ) * 10 ^ 12)) : ¬ Displaced n := by
  intro hdisplaced
  have hlost := hdisplaced.loses_half
  have hunit := unit_pos n
  rw [h.rounded_eq, sub_self, abs_zero, mul_zero] at hlost
  exact hlost.not_gt (by positivity)

theorem isDouble_scaled {k j : ℕ} (hk : 0 < k) (hlt : k * 5 ^ 12 < 2 ^ 53) :
    IsDouble (((k * 2 ^ j : ℕ) : ℚ) * 10 ^ 12) := by
  have hdouble :=
    isDouble_mul_two_pow (n := k * 5 ^ 12) (by positivity) hlt (k := j + 12) (by omega)
  have hvalue : ((k * 2 ^ j : ℕ) : ℚ) * 10 ^ 12 = (k * 5 ^ 12 : ℕ) * 2 ^ ((j : Int) + 12) := by
    rw [zpow_add₀ (by norm_num), zpow_natCast]
    push_cast
    ring
  rwa [hvalue]

theorem not_displaced_of_lt (h : n < 73786990) : ¬ Displaced n := by
  intro hdisplaced
  rcases Nat.eq_zero_or_pos n with rfl | hn
  · revert hdisplaced
    decide +kernel
  have hmultiple {k : ℕ} (j : ℕ) (hk : n = k * 2 ^ j) (hlt : k * 5 ^ 12 < 2 ^ 53) : False := by
    have hpos : 0 < k := Nat.pos_of_ne_zero fun h0 => by
      rw [h0, Nat.zero_mul] at hk
      omega
    rw [hk] at hdisplaced
    exact not_displaced_of_isDouble (isDouble_scaled hpos hlt) hdisplaced
  by_cases hsmall : n * 5 ^ 12 < 2 ^ 53
  · exact hmultiple 0 (Nat.mul_one n).symm hsmall
  · obtain ⟨k, rfl⟩ := dvd_of_reads_same (by omega) (by omega) hdisplaced.reads_same
    by_cases heven : 5 * k * 5 ^ 12 < 2 ^ 53
    · exact hmultiple 1 (k := 5 * k) (by omega) heven
    · -- Only 73786980 is left.
      exact hmultiple 2 (k := 18446745) (by omega) (by norm_num)

theorem ofInt_cases (n : Int) :
    (0 ≤ n ∧ Float.ofInt n = Float.ofNat n.natAbs) ∨
      (n < 0 ∧ Float.ofInt n = -Float.ofNat n.natAbs) := by
  cases n with
  | ofNat n => exact .inl ⟨Int.natCast_nonneg n, rfl⟩
  | negSucc n => exact .inr ⟨Int.negSucc_lt_zero n, rfl⟩

theorem hasMagnitude_ofInt {n : Int} (hn : n ≠ 0) (hle : n.natAbs ≤ 2 ^ 53) :
    HasMagnitude (Float.ofInt n) (if 0 ≤ n then .positive else .negative) n.natAbs := by
  have h := hasMagnitude_ofNat (n := n.natAbs) (by omega) hle
  rcases ofInt_cases n with ⟨hsign, heq⟩ | ⟨hsign, heq⟩
  · rwa [heq, if_pos hsign]
  · rw [heq, if_neg hsign.not_ge]
    exact h.neg

theorem settle_ofInt_iff {n : Int} (hle : n.natAbs ≤ 2 ^ 53) :
    settle (Float.ofInt n) = Float.ofInt n ↔ ¬ Displaced n.natAbs := by
  by_cases h0 : n = 0
  · subst h0
    exact iff_of_true (by decide) (not_displaced_of_lt (by decide))
  · have hn : 0 < n.natAbs := by omega
    rcases ofInt_cases n with ⟨-, heq⟩ | ⟨-, heq⟩
    · rw [heq]
      exact settle_ofNat_iff hn hle
    · rw [heq, settle_neg_eq_iff (hasMagnitude_ofNat hn hle)]
      exact settle_ofNat_iff hn hle

theorem HasMagnitude.isWhole (h : HasMagnitude x s n) : isWhole x = true := by
  obtain ⟨m, q, hm, hx, hvalue⟩ := h
  have hscaled := mul_two_pow_eq hvalue
  rw [Binary64.isWhole, hx]
  show (decide (0 ≤ q) || m % Nat.pow 2 (-q).toNat == 0) = true
  rw [Bool.or_eq_true, decide_eq_true_iff, beq_iff_eq, Nat.pow_eq]
  refine (le_or_gt 0 q).imp_right fun hq => ?_
  rw [Int.toNat_of_nonpos hq.le, pow_zero, Nat.mul_one] at hscaled
  rw [hscaled]
  exact Nat.mul_mod_left _ _

theorem exists_of_isWhole (h : HasMagnitude x s v) (hwhole : isWhole x = true) :
    ∃ n : ℕ, v = n := by
  obtain ⟨m, q, hm, hx, rfl⟩ := h
  rw [isWhole, hx] at hwhole
  have hcases : 0 ≤ q ∨ m % 2 ^ (-q).toNat = 0 := by
    simpa only [Bool.or_eq_true, decide_eq_true_iff, beq_iff_eq, Nat.pow_eq] using hwhole
  rw [mul_zpow_eq_div]
  rcases hcases with hq | hdvd
  · refine ⟨m * 2 ^ q.toNat, ?_⟩
    rw [Int.toNat_of_nonpos (by omega : -q ≤ 0)]
    push_cast
    simp
  · obtain ⟨k, rfl⟩ := Nat.dvd_of_mod_eq_zero hdvd
    refine ⟨k * 2 ^ q.toNat, ?_⟩
    push_cast
    field_simp

theorem toUInt32_toNat (h : HasMagnitude x .positive n) (hlt : n < UInt32.size) :
    x.toUInt32.toNat = n := by
  obtain ⟨m, q, hm, hx, hvalue⟩ := h
  have hscaled := mul_two_pow_eq hvalue
  have hwhole : UnpackedFloat.toInt 0 (UInt32.size - 1) (.finite .positive m q hm) = n := by
    have hshift : (0 - (q - (q.toNat : Int))).toNat = (-q).toNat := by omega
    simp only [UnpackedFloat.toInt, roundToInt, decreaseExponent, shiftToExponent, Int.sub_zero,
      Nat.shiftLeft_eq, hscaled, hshift]
    rw [ExtendedMantissa.ofMantissaAndAccuracy, shiftRight_exact]
    rfl
  show (UInt32.ofNatClamp
    (UnpackedFloat.toInt 0 (UInt32.size - 1) x.toModel.unpack).toNat).toNat = n
  rw [hx, hwhole, Int.toNat_natCast, UInt32.ofNatClamp, dif_pos hlt]
  rfl

theorem hasMagnitude_last : HasMagnitude 4294967295 .positive (4294967295 : ℕ) :=
  hasMagnitude_ofNat (by norm_num) (by norm_num)

theorem natural?_ofNat (hn : 0 < n) (hlt : n < UInt32.size) :
    natural? (Float.ofNat n) = some n := by
  have h := hasMagnitude_ofNat hn (hlt.le.trans (by decide))
  have hlast : Float.ofNat n ≤ 4294967295 := by
    rw [h.le_iff hasMagnitude_last, Nat.cast_le]
    exact Nat.le_of_lt_succ hlt
  rw [natural?, h.isWhole, decide_eq_true (h.nonneg_iff.2 rfl), decide_eq_true hlast,
    toUInt32_toNat h hlt]
  rfl

theorem eq_ofNat_of_natural? (hn : 0 < n) (h : natural? x = some n) : x = Float.ofNat n := by
  rw [natural?] at h
  split at h
  · next hconditions =>
    rw [Bool.and_eq_true, Bool.and_eq_true, decide_eq_true_iff, decide_eq_true_iff] at hconditions
    obtain ⟨⟨hwhole, hnonneg⟩, hlast⟩ := hconditions
    have hfinite : x.isFinite = true := by
      show x.toModel.unpack.isFinite = true
      rw [isWhole] at hwhole
      cases hx : x.toModel.unpack with
      | notANumber | infinity => rw [hx] at hwhole; cases hwhole
      | _ => rfl
    rcases exists_hasMagnitude hfinite with h0 | ⟨s, v, hx⟩
    · rcases eq_zero_of_rank h0 with rfl | rfl <;> cases h <;> cases hn
    · obtain rfl := hx.nonneg_iff.1 hnonneg
      obtain ⟨k, rfl⟩ := exists_of_isWhole hx hwhole
      have hk : k < UInt32.size := by
        rw [hx.le_iff hasMagnitude_last, Nat.cast_le] at hlast
        exact Nat.lt_succ_of_le hlast
      rw [toUInt32_toNat hx hk, Option.some_inj] at h
      subst h
      exact hx.unique (hasMagnitude_ofNat hn (hk.le.trans (by decide)))
  · cases h

end Binary64

namespace FloatNumber

open Binary64

theorem ofReal_of_isFinite {x : Float} (h : x.isFinite = true) :
    (Number.ofReal x : FloatNumber) = ⟨settle x, 0⟩ := by
  have hpair := settlePair_of_isFinite h (y := 0) (by decide)
  show (⟨(settlePair x 0).1, (settlePair x 0).2⟩ : FloatNumber) = _
  rw [hpair]
  rfl

theorem isFinite_ofInt {n : Int} (hle : n.natAbs ≤ 2 ^ 53) : (Float.ofInt n).isFinite = true := by
  by_cases h0 : n = 0
  · subst h0
    rfl
  · exact (hasMagnitude_ofInt h0 hle).isFinite

theorem isWhole_ofInt {n : Int} (hle : n.natAbs ≤ 2 ^ 53) : isWhole (Float.ofInt n) = true := by
  by_cases h0 : n = 0
  · subst h0
    rfl
  · exact (hasMagnitude_ofInt h0 hle).isWhole

/-- A whole number made into a number is that whole number still, and is read as it. -/
def Survives (n : Int) : Prop :=
  (Number.ofReal (Float.ofInt n) : FloatNumber).re = Float.ofInt n ∧
    whole? (Number.ofReal (Float.ofInt n)) = some (Float.ofInt n)

theorem survives_iff_settle {n : Int} (hle : n.natAbs ≤ 2 ^ 53) :
    Survives n ↔ settle (Float.ofInt n) = Float.ofInt n := by
  rw [Survives, ofReal_of_isFinite (isFinite_ofInt hle)]
  refine ⟨And.left, fun hkept => ⟨hkept, ?_⟩⟩
  have hzero : ((0 : Float) == 0) = true := by decide
  rw [whole?, hkept, isWhole_ofInt hle, hzero]
  rfl

theorem degree?_ofNat_iff {n : ℕ} (hlt : n < 2 ^ 32) :
    Number.degree? (Number.ofReal (Float.ofNat n) : FloatNumber) = some n ↔ ¬ Displaced n := by
  have hle : n ≤ 2 ^ 53 := hlt.le.trans (by norm_num)
  rcases Nat.eq_zero_or_pos n with rfl | hn
  · exact iff_of_true (by decide) (not_displaced_of_lt (by decide))
  · rw [← settle_ofNat_iff hn hle, ofReal_of_isFinite (hasMagnitude_ofNat hn hle).isFinite]
    rw [show Number.degree? (⟨settle (Float.ofNat n), 0⟩ : FloatNumber) =
      natural? (settle (Float.ofNat n)) from if_pos (same_self 0)]
    constructor
    · exact eq_ofNat_of_natural? hn
    · intro hkept
      rw [hkept]
      exact natural?_ofNat hn hlt

/-- The whole numbers up to `2 ^ 53` are doubles. Those survive that are not displaced, and among
them all below 73786990. Integer literals are these whole numbers, and as degrees of roots the same
ones keep their value. -/
theorem survives_iff {n : Int} (hle : n.natAbs ≤ 2 ^ 53) :
    (exactMagnitude (Float.ofInt n) = n.natAbs ∧ (0 ≤ Float.ofInt n ↔ 0 ≤ n)) ∧
    (Survives n ↔ ¬ Displaced n.natAbs) ∧
    (n.natAbs < 73786990 → Survives n) ∧
    (0 ≤ n → (Arithmetic.ofDecimal ⟨n.natAbs, 0⟩ : FloatNumber) = Number.ofReal (Float.ofInt n) ∧
      (n < 2 ^ 32 → (Number.degree? (Number.ofReal (Float.ofInt n) : FloatNumber) = some n.natAbs ↔
        ¬ Displaced n.natAbs))) := by
  have hiff : Survives n ↔ ¬ Displaced n.natAbs :=
    (survives_iff_settle hle).trans (settle_ofInt_iff hle)
  refine ⟨?_, hiff, fun hsmall => hiff.2 (not_displaced_of_lt hsmall), fun hnonneg => ?_⟩
  · by_cases h0 : n = 0
    · subst h0
      exact ⟨exactMagnitude_of_rank (by decide), by decide⟩
    · have h := hasMagnitude_ofInt h0 hle
      refine ⟨h.exactMagnitude_eq, ?_⟩
      rw [h.nonneg_iff, ite_eq_left_iff]
      simp
  · obtain ⟨n, rfl⟩ := Int.eq_ofNat_of_zero_le hnonneg
    refine ⟨?_, fun hlt => degree?_ofNat_iff (by simpa using hlt)⟩
    show (Number.ofReal (⟨n, 0⟩ : Decimal).toFloat : FloatNumber) = Number.ofReal (Float.ofNat n)
    rcases Nat.eq_zero_or_pos n with rfl | hn
    · exact congrArg Number.ofReal (by decide)
    · rw [toFloat_whole hn hle]

/-- Its scaled form is rounded, by less than half of its last place. -/
theorem survives_odd : Survives 70000001 ∧
    Number.degree? (Number.ofReal (Float.ofInt 70000001) : FloatNumber) = some 70000001 := by
  obtain ⟨-, hiff, hsmall, hnonneg⟩ := survives_iff (n := 70000001) (by decide)
  have hsurvives := hsmall (by decide)
  exact ⟨hsurvives, ((hnonneg (by decide)).2 (by decide)).2 (hiff.1 hsurvives)⟩

/-- The first one that reads the same with seven digits and loses half of its last place. -/
theorem not_survives : (73786990 : Int).natAbs ≤ 2 ^ 53 ∧ ¬ Survives 73786990 ∧
    whole? (Number.ofReal (Float.ofInt 73786990)) = none := by
  have hnone : whole? (Number.ofReal (Float.ofInt 73786990)) = none := by decide +kernel
  refine ⟨by decide, fun hsurvives => ?_, hnone⟩
  rw [hsurvives.2] at hnone
  cases hnone

end FloatNumber
end ComplexAlgebra
