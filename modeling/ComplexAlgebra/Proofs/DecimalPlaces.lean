import ComplexAlgebra.Proofs.CorrectRounding
import ComplexAlgebra.Proofs.Normalization
import ComplexAlgebra.Proofs.ZeroDivision

/-! When rounding to decimal places keeps a finite double finite. The scale is a power of ten by
repeated squaring, which leaves the range of doubles at the 309th power. A scale that is too large
changes nothing, but one that has become zero turns every double into not-a-number, and a scale that
is almost zero can scale a rounded double back beyond the largest one. -/
namespace ComplexAlgebra
namespace Binary64

open Float.Model Float.Model.UnpackedFloat

/-- What holds of a result and of a base with numbers in the place of doubles, and is kept by their
products up to a bound. -/
structure Kept (Result Base : Float → ℚ → Prop) (top : ℚ) : Prop where
  one_le : ∀ {x a}, Result x a → 1 ≤ a
  one_le_base : ∀ {y b}, Base y b → 1 ≤ b
  mul : ∀ {x a y b}, Result x a → Base y b → a * b ≤ top → Result (x * y) (a * b)
  square : ∀ {y b}, Base y b → b * b ≤ top → Base (y * y) (b * b)

theorem Kept.squaring {Result Base : Float → ℚ → Prop} {top : ℚ} (h : Kept Result Base top)
    {x y : Float} {a b : ℚ} (hx : Result x a) (hy : Base y b) (n : ℕ) (htop : a * b ^ n ≤ top) :
    Result (squaring x y n) (a * b ^ n) := by
  induction n using Nat.strongRecOn generalizing x y a b with
  | _ n ih =>
    have ha := h.one_le hx
    have hb := h.one_le_base hy
    have hodd : Result (if n % 2 = 1 then x * y else x) (a * b ^ (n % 2)) := by
      rcases Nat.mod_two_eq_zero_or_one n with heven | hodd
      · rw [heven, if_neg zero_ne_one, pow_zero, MulOneClass.mul_one]
        exact hx
      · rw [hodd, if_pos rfl, pow_one]
        refine h.mul hx hy (le_trans ?_ htop)
        have hle : b ^ 1 ≤ b ^ n := pow_le_pow_right₀ hb (by omega)
        rw [pow_one] at hle
        exact mul_le_mul_of_nonneg_left hle (by linarith)
    have hsplit : a * b ^ n = a * b ^ (n % 2) * (b * b) ^ (n / 2) := by
      rw [← sq, ← pow_mul, mul_assoc, ← pow_add, Nat.mod_add_div]
    rw [Binary64.squaring]
    split
    · next hlast => rwa [hsplit, hlast, pow_zero, MulOneClass.mul_one]
    · next hmore =>
      have hsquare : b * b ≤ top := by
        have hle : b ^ 2 ≤ b ^ n := pow_le_pow_right₀ hb (by omega)
        have hpow : b ^ n ≤ a * b ^ n := le_mul_of_one_le_left (by positivity) ha
        linarith
      rw [hsplit] at htop ⊢
      exact ih (n / 2) (by omega) hodd (h.square hy hsquare) htop

/-- A double from one up to a number. -/
def UpTo (x : Float) (a : ℚ) : Prop := ∃ v, HasMagnitude x .positive v ∧ 1 ≤ v ∧ v ≤ a

/-- A double from a number up to infinity. -/
def From (x : Float) (a : ℚ) : Prop :=
  x = infinity ∨ ∃ v, HasMagnitude x .positive v ∧ a ≤ v

theorem two_pow_le_one : (2 : ℚ) ^ (-1022 : Int) ≤ 1 :=
  zpow_le_one_of_nonpos₀ (by norm_num) (by norm_num)

theorem UpTo.mul {x y : Float} {a b : ℚ} (hx : UpTo x a) (hy : UpTo y b) (h : a * b < threshold) :
    UpTo (x * y) (a * b * (1 + 1 / 2 ^ 53)) := by
  obtain ⟨v, hv, hv1, hva⟩ := hx
  obtain ⟨w, hw, hw1, hwb⟩ := hy
  have hone : 1 ≤ v * w := one_le_mul_of_one_le_of_one_le hv1 hw1
  have hle : v * w ≤ a * b := mul_le_mul hva hwb (by linarith) (by linarith)
  have hpos : 0 < v * w := by linarith
  have hlow : 1 ≤ rounded (v * w) :=
    le_rounded hpos (isDouble_natCast Nat.one_pos (by norm_num)) hone
  have hhigh := (abs_le.1 (abs_rounded_sub_le_mul (two_pow_le_one.trans hone))).2
  refine ⟨_, hv.mul hw (by linarith) ?_, hlow, by linarith⟩
  exact (rounded_lt_limit_iff hpos).2 (by linarith)

theorem infinity_mul {x : Float} {v : ℚ} (hx : HasMagnitude x .positive v) :
    infinity * x = infinity ∧ x * infinity = infinity := by
  obtain ⟨m, q, hm, hu, -⟩ := hx
  rw [mul_eq_pack, mul_eq_pack, hu]
  exact ⟨rfl, rfl⟩

theorem From.mul {x y : Float} {a b : ℚ} (hx : From x a) (hy : From y b) (ha : 1 ≤ a)
    (hb : 1 ≤ b) : From (x * y) (a * b * (1 - 1 / 2 ^ 53)) := by
  rcases hx with rfl | ⟨v, hv, hva⟩
  · rcases hy with rfl | ⟨w, hw, -⟩
    · exact .inl rfl
    · exact .inl (infinity_mul hw).1
  rcases hy with rfl | ⟨w, hw, hwb⟩
  · exact .inl (infinity_mul hv).2
  have hle : a * b ≤ v * w := mul_le_mul hva hwb (by linarith) (by linarith)
  have hone : 1 ≤ v * w := (one_le_mul_of_one_le_of_one_le ha hb).trans hle
  have hpos : 0 < v * w := by linarith
  rcases lt_or_ge (v * w) threshold with hlt | hge
  · have hlow := (abs_le.1 (abs_rounded_sub_le_mul (two_pow_le_one.trans hone))).1
    have hone' : 1 ≤ rounded (v * w) :=
      le_rounded hpos (isDouble_natCast Nat.one_pos (by norm_num)) hone
    refine .inr ⟨_, hv.mul hw (by linarith) ((rounded_lt_limit_iff hpos).2 hlt), ?_⟩
    linarith
  · left
    have hround := roundsTo_mul hv.isFinite hw.isFinite
    rw [hv.exactValue_eq, hw.exactValue_eq, ← withSign_mul] at hround
    have hinfinite := hround.infinite (hge.trans (le_abs_self _))
    rwa [signOf_withSign hpos] at hinfinite

/-- Ten, with an allowance for one rounding upwards. -/
def tenAbove : ℚ := 10 * (1 + 1 / 2 ^ 53)

/-- Ten, with an allowance for one rounding downwards. -/
def tenBelow : ℚ := 10 * (1 - 1 / 2 ^ 53)

theorem hasMagnitude_ten : HasMagnitude 10 .positive 10 := by
  exact_mod_cast hasMagnitude_ofNat (n := 10) (by norm_num) (by norm_num)

theorem UpTo.one_le {x : Float} {a : ℚ} (h : UpTo x a) : 1 ≤ a := by
  obtain ⟨v, -, hone, hv⟩ := h
  exact hone.trans hv

theorem kept_upTo {top : ℚ} (htop : top < threshold) :
    Kept UpTo (fun y b => UpTo y (b / (1 + 1 / 2 ^ 53))) top := by
  have hshrink {y : Float} {b : ℚ} (h : UpTo y (b / (1 + 1 / 2 ^ 53))) :
      1 ≤ b ∧ b / (1 + 1 / 2 ^ 53) ≤ b := by
    have hone := h.one_le
    have hle := hone
    rw [le_div_iff₀ (by norm_num)] at hle
    exact ⟨by linarith, div_le_self (by linarith) (by norm_num)⟩
  refine ⟨UpTo.one_le, fun h => (hshrink h).1, fun {x a y b} hx hy hle => ?_,
    fun {y b} hy hle => ?_⟩
  · have ha := hx.one_le
    have hfits : a * (b / (1 + 1 / 2 ^ 53)) < threshold :=
      ((mul_le_mul_of_nonneg_left (hshrink hy).2 (by linarith)).trans hle).trans_lt htop
    have hproduct := hx.mul hy hfits
    rwa [mul_assoc, div_mul_cancel₀ b (by norm_num)] at hproduct
  · obtain ⟨hb, hless⟩ := hshrink hy
    have hfits : b / (1 + 1 / 2 ^ 53) * (b / (1 + 1 / 2 ^ 53)) < threshold := by
      refine lt_of_le_of_lt (le_trans ?_ hle) htop
      exact mul_le_mul hless hless (by have := hy.one_le; linarith) (by linarith)
    have hproduct := hy.mul hy hfits
    rwa [mul_assoc, div_mul_cancel₀ b (by norm_num), div_mul_eq_mul_div] at hproduct

theorem kept_from (top : ℚ) :
    Kept (fun x a => 1 ≤ a ∧ From x a) (fun y b => 1 ≤ b ∧ From y (b / (1 - 1 / 2 ^ 53))) top := by
  have hgrow {b : ℚ} (hb : 1 ≤ b) : 1 ≤ b / (1 - 1 / 2 ^ 53) := by
    rw [le_div_iff₀ (by norm_num)]
    linarith
  refine ⟨And.left, And.left, fun {x a y b} hx hy _ => ?_, fun {y b} hy _ => ?_⟩
  · have hproduct := hx.2.mul hy.2 hx.1 (hgrow hy.1)
    rw [mul_assoc, div_mul_cancel₀ b (by norm_num)] at hproduct
    exact ⟨one_le_mul_of_one_le_of_one_le hx.1 hy.1, hproduct⟩
  · have hproduct := hy.2.mul hy.2 (hgrow hy.1) (hgrow hy.1)
    rw [mul_assoc, div_mul_cancel₀ b (by norm_num), div_mul_eq_mul_div] at hproduct
    exact ⟨one_le_mul_of_one_le_of_one_le hy.1 hy.1, hproduct⟩

theorem upTo_squaring {n : ℕ} (h : tenAbove ^ n < threshold) :
    UpTo (squaring 1 10 n) (tenAbove ^ n) := by
  have hbase : UpTo 10 (tenAbove / (1 + 1 / 2 ^ 53)) :=
    ⟨10, hasMagnitude_ten, by norm_num, by norm_num [tenAbove]⟩
  have hpower := (kept_upTo h).squaring ⟨1, hasMagnitude_one, le_rfl, le_rfl⟩ hbase n (one_mul _).le
  rwa [one_mul] at hpower

theorem from_squaring (n : ℕ) : From (squaring 1 10 n) (tenBelow ^ n) := by
  have hbase : 1 ≤ tenBelow ∧ From 10 (tenBelow / (1 - 1 / 2 ^ 53)) :=
    ⟨by norm_num [tenBelow], .inr ⟨10, hasMagnitude_ten, by norm_num [tenBelow]⟩⟩
  have hpower := (kept_from (tenBelow ^ n)).squaring ⟨le_rfl, .inr ⟨1, hasMagnitude_one, le_rfl⟩⟩
    hbase n (one_mul _).le
  rw [one_mul] at hpower
  exact hpower.2

theorem threshold_eq : threshold = (2 ^ 256) ^ 4 - (2 ^ 194) ^ 5 := by
  rw [threshold, ← pow_mul, ← pow_mul]
  exact congrArg₂ (· - ·) (zpow_natCast 2 1024) (zpow_natCast 2 970)

/-- Powers of ten are infinite from the 309th on, and before that they are near the exact ones. -/
theorem squaring_ten_of_le {n : ℕ} (h : n ≤ 308) :
    ∃ v, HasMagnitude (squaring 1 10 n) .positive v ∧ tenBelow ^ n ≤ v ∧ v ≤ tenAbove ^ n := by
  have hten : (1 : ℚ) ≤ tenAbove := by norm_num [tenAbove]
  have hfits : tenAbove ^ n < threshold := by
    refine (pow_le_pow_right₀ hten h).trans_lt ?_
    rw [threshold_eq, show 308 = 154 * 2 from rfl, pow_mul]
    norm_num [tenAbove]
  obtain ⟨v, hv, -, hhigh⟩ := upTo_squaring hfits
  rcases from_squaring n with hinf | ⟨w, hw, hlow⟩
  · rw [hinf] at hv
    exact absurd hv.isFinite (by decide)
  · obtain ⟨-, rfl⟩ := hv.inj hw
    exact ⟨v, hv, hlow, hhigh⟩

theorem squaring_ten_of_ge {n : ℕ} (h : 309 ≤ n) : squaring 1 10 n = infinity := by
  rcases from_squaring n with hinf | ⟨v, hv, hlow⟩
  · exact hinf
  · have hten : (1 : ℚ) ≤ tenBelow := by norm_num [tenBelow]
    have hlarge : threshold ≤ tenBelow ^ n := by
      refine le_trans ?_ (pow_le_pow_right₀ hten h)
      rw [threshold_eq, show 309 = 103 * 3 from rfl, pow_mul]
      norm_num [tenBelow]
    exact absurd hv.lt_threshold (hlarge.trans hlow).not_gt

section Scale

variable {d : Int} {x : Float} {v w s : ℚ}

theorem powerOfTen_of_gt (h : 308 < d) : powerOfTen d = infinity := by
  rw [powerOfTen, squaring_ten_of_ge (by omega)]
  exact if_neg (by omega)

theorem rank_powerOfTen (h : d < -308) : rank (powerOfTen d) = 0 := by
  have hscale : powerOfTen d = 1 / infinity := by
    rw [powerOfTen, squaring_ten_of_ge (by omega)]
    exact if_pos (by omega)
  rw [hscale]
  decide

theorem exists_scale (hlow : -308 ≤ d) (hhigh : d ≤ 308) :
    ∃ s, HasMagnitude (powerOfTen d) .positive s ∧ (d < 0 → s ≤ 1) ∧ (d = 0 → s = 1) ∧
      (0 < d → 8 ≤ s) ∧ (-292 ≤ d → d < 0 → 2 ^ (-971 : Int) ≤ s) := by
  obtain ⟨v, hv, hbelow, habove⟩ := squaring_ten_of_le (n := d.natAbs) (by omega)
  have hten : (8 : ℚ) ≤ tenBelow := by norm_num [tenBelow]
  have hone : 1 ≤ v := (one_le_pow₀ (by linarith)).trans hbelow
  rw [powerOfTen]
  by_cases hneg : d < 0
  · rw [if_pos hneg]
    have hinverse : 0 < 1 / v := by positivity
    have hleast : (2 : ℚ) ^ (-1074 : Int) ≤ 1 / v := by
      rw [zpow_neg, ← one_div]
      refine one_div_le_one_div_of_le (by linarith) (hv.lt_threshold.le.trans ?_)
      refine threshold_lt_limit.le.trans ?_
      exact zpow_le_zpow_right₀ (by norm_num) (by norm_num)
    have hle : rounded (1 / v) ≤ 1 :=
      rounded_le hinverse (isDouble_natCast Nat.one_pos (by norm_num))
        ((div_le_one (by linarith)).2 hone)
    have hlimit : (1 : ℚ) < limit := one_lt_zpow₀ (by norm_num) (by norm_num)
    refine ⟨_, hasMagnitude_one.div hv (rounded_pos hleast).ne' (hle.trans_lt hlimit), ?_⟩
    refine ⟨fun _ => hle, fun h => absurd h (by omega), fun h => absurd h (by omega), fun h _ => ?_⟩
    refine le_rounded hinverse (isDouble_two_pow (by norm_num)) ?_
    rw [zpow_neg, ← one_div]
    refine one_div_le_one_div_of_le (by linarith) (habove.trans ?_)
    refine (pow_le_pow_right₀ (by norm_num [tenAbove]) (by omega : d.natAbs ≤ 146 * 2)).trans ?_
    rw [show (971 : Int) = (242 * 4 + 3 : ℕ) from rfl, zpow_natCast, pow_add, pow_mul, pow_mul]
    norm_num [tenAbove]
  · rw [if_neg hneg]
    refine ⟨v, hv, fun h => absurd h hneg, ?_, fun h => ?_, fun _ h => absurd h hneg⟩
    · rintro rfl
      exact le_antisymm (habove.trans_eq (pow_zero _)) ((pow_zero _).symm.trans_le hbelow)
    · have hpow : tenBelow ^ 1 ≤ tenBelow ^ d.natAbs :=
        pow_le_pow_right₀ (by linarith) (by omega)
      rw [pow_one] at hpow
      linarith

/-- A magnitude scaled, rounded to a whole number and scaled back. -/
def scaledBack (v s : ℚ) : ℚ := halfUp (rounded (v * s)) / s

theorem halfUp_mono (h : v ≤ w) : halfUp v ≤ halfUp w := Nat.floor_mono (by linarith)

theorem halfUp_le (hv : 0 ≤ v) : (halfUp v : ℚ) ≤ v + 1 / 2 := Nat.floor_le (by linarith)

theorem scaledBack_mono (hs : 0 < s) (hv : 0 ≤ v) (h : v ≤ w) :
    scaledBack v s ≤ scaledBack w s := by
  have hround : rounded (v * s) ≤ rounded (w * s) := by
    rcases hv.lt_or_eq with hpos | rfl
    · exact rounded_mono (mul_pos hpos hs) (mul_le_mul_of_nonneg_right h hs.le)
    · rw [zero_mul, rounded_zero]
      exact rounded_nonneg _
  have hwhole : (halfUp (rounded (v * s)) : ℚ) ≤ halfUp (rounded (w * s)) := by
    exact_mod_cast halfUp_mono hround
  exact div_le_div_of_nonneg_right hwhole hs.le

theorem round_of_rank (h : rank x = 0) : round x = x := by
  obtain ⟨t, ht⟩ := unpack_of_rank h
  rw [round, ht]

theorem isFinite_round (h : x.isFinite = true) :
    (round x).isFinite = true ∧ exactMagnitude (round x) = halfUp (exactMagnitude x) := by
  rcases exists_hasMagnitude h with h0 | ⟨t, v, hv⟩
  · rw [round_of_rank h0, exactMagnitude_of_rank h0]
    exact ⟨h, by norm_num [halfUp]⟩
  · rw [hv.exactMagnitude_eq]
    rcases round_cases hv with ⟨h0, hrank⟩ | ⟨-, hround⟩
    · rw [h0, exactMagnitude_of_rank hrank]
      exact ⟨isFinite_of_rank hrank, Nat.cast_zero.symm⟩
    · exact ⟨hround.isFinite, hround.exactMagnitude_eq⟩

/-- With a scale within the range, the scaled form is too large, and nothing happens, or it is
rounded and scaled back. -/
theorem isFinite_roundDecimals_of_scale (hx : x.isFinite = true)
    (hs : HasMagnitude (powerOfTen d) .positive s) :
    (roundDecimals x d).isFinite = true ↔
      (exactMagnitude x * s < threshold → scaledBack (exactMagnitude x) s < threshold) := by
  have hpos := hs.isDouble.pos
  have hvalue : exactValue (powerOfTen d) = s := hs.exactValue_eq
  have hproduct := roundsTo_mul hx hs.isFinite
  have hscaled : |exactValue x * exactValue (powerOfTen d)| = exactMagnitude x * s := by
    rw [abs_mul, abs_exactValue, hvalue, abs_of_pos hpos]
  rw [roundDecimals]
  split
  · next hfinite =>
    have hfits := hproduct.isFinite_iff.1 hfinite
    have hmagnitude : exactMagnitude (x * powerOfTen d) = rounded (exactMagnitude x * s) := by
      rw [← abs_exactValue, hproduct.value hfits, abs_roundedTo, hscaled]
    rw [hscaled] at hfits
    obtain ⟨hround, hwhole⟩ := isFinite_round hfinite
    have hquotient := roundsTo_div hround hs
    rw [hquotient.isFinite_iff, abs_div, abs_exactValue, hwhole, hmagnitude, hvalue,
      abs_of_pos hpos]
    exact ⟨fun h _ => h, fun h => h hfits⟩
  · next hinfinite =>
    rw [hproduct.isFinite_iff, hscaled] at hinfinite
    exact iff_of_true hx fun h => absurd h hinfinite

/-- A scale from eight on leads far below the largest double, and the scale one to a whole number
that is no larger, from `2 ^ 52` on. -/
theorem scaledBack_lt (hs : s = 1 ∨ 8 ≤ s) (h : exactMagnitude x * s < threshold) :
    scaledBack (exactMagnitude x) s < threshold := by
  have hlarge : (2 : ℚ) ^ 53 ≤ threshold := by
    refine le_trans ?_ two_pow_le_threshold
    exact_mod_cast zpow_le_zpow_right₀ (by norm_num : (1 : ℚ) ≤ 2) (by norm_num : (53 : Int) ≤ 1023)
  rcases le_or_gt (exactMagnitude x) 0 with hzero | hpos
  · obtain hzero : exactMagnitude x = 0 := le_antisymm hzero (abs_exactValue x ▸ abs_nonneg _)
    rw [scaledBack, hzero, zero_mul, rounded_zero]
    norm_num [halfUp, threshold_pos]
  rcases hs with rfl | hs
  · rw [MulOneClass.mul_one] at h
    have hdouble : IsDouble (exactMagnitude x) := by
      by_cases hx : x.isFinite = true
      · rcases exists_hasMagnitude hx with h0 | ⟨t, v, hv⟩
        · exact absurd (exactMagnitude_of_rank h0) hpos.ne'
        · rw [hv.exactMagnitude_eq]
          exact hv.isDouble
      · exact absurd (exactMagnitude_of_not_finite (Bool.eq_false_iff.2 hx)) hpos.ne'
    rw [scaledBack, MulOneClass.mul_one, hdouble.rounded_eq, div_eq_mul_inv, inv_one,
      MulOneClass.mul_one]
    rcases le_or_gt (2 ^ 52) (exactMagnitude x) with hwhole | hfraction
    · rwa [hdouble.whole hwhole]
    · have hle := halfUp_le hpos.le
      linarith
  · have hround : rounded (exactMagnitude x * s) < limit :=
      (rounded_lt_limit_iff (by positivity)).2 h
    have hle := halfUp_le (rounded_nonneg (exactMagnitude x * s))
    have htwice : limit = 2 ^ (1023 : Int) * 2 := zpow_add_one₀ (by norm_num) 1023
    have htop := two_pow_le_threshold
    rw [scaledBack, div_lt_iff₀ (by linarith)]
    have hscale : threshold * 8 ≤ threshold * s := mul_le_mul_of_nonneg_left hs threshold_pos.le
    rw [htwice] at hround
    generalize (2 : ℚ) ^ (1023 : Int) = power at *
    linarith

/-- With a scale that has become zero the scaled form is zero, and scaling that back divides by
zero. -/
theorem roundDecimals_of_lt (hx : x.isFinite = true) (h : d < -308) : roundDecimals x d = nan := by
  have hscale := rank_powerOfTen h
  have hzero : rank (x * powerOfTen d) = 0 := by
    rcases vanishes_mul x hscale with h0 | hnan
    · exact h0
    · have hproduct := (roundsTo_mul hx (isFinite_of_rank hscale)).isFinite_iff
      rw [hnan, exactValue_of_rank hscale, mul_zero, abs_zero] at hproduct
      exact absurd (hproduct.2 threshold_pos) (by decide)
  rw [roundDecimals]
  simp only [isFinite_of_rank hzero, if_true, round_of_rank hzero]
  exact Vanishes.div (.inl hzero) hscale

theorem roundDecimals_of_gt (h : 308 < d) : roundDecimals x d = x := by
  rw [roundDecimals, powerOfTen_of_gt h]
  refine if_neg fun hfinite => ?_
  exact absurd (isFinite_of_mul hfinite).2 (by decide)

theorem isFinite_roundDecimals_iff (hx : x.isFinite = true) (d : Int) :
    (roundDecimals x d).isFinite = true ↔ -308 ≤ d ∧
      (d < 0 → scaledBack (exactMagnitude x) (exactMagnitude (powerOfTen d)) < threshold) := by
  rcases lt_or_ge d (-308) with hless | hlow
  · rw [roundDecimals_of_lt hx hless]
    exact iff_of_false (by decide) fun h => absurd h.1 hless.not_ge
  rcases lt_or_ge 308 d with hmore | hhigh
  · rw [roundDecimals_of_gt hmore]
    exact iff_of_true hx ⟨hlow, fun h => absurd h (by omega)⟩
  obtain ⟨s, hs, hneg, hzero, hpos, -⟩ := exists_scale hlow hhigh
  rw [isFinite_roundDecimals_of_scale hx hs, hs.exactMagnitude_eq, and_iff_right hlow]
  by_cases hd : d < 0
  · have hfits : exactMagnitude x * s < threshold := by
      have hlt := abs_exactValue_lt x
      rw [abs_exactValue] at hlt
      refine (mul_le_of_le_one_right ?_ (hneg hd)).trans_lt hlt
      exact abs_exactValue x ▸ abs_nonneg _
    exact ⟨fun h _ => h hfits, fun h _ => h hd⟩
  · refine iff_of_true (scaledBack_lt ?_) fun h => absurd h hd
    rcases (not_lt.1 hd).lt_or_eq with h | h
    · exact .inr (hpos h)
    · exact .inl (hzero h.symm)

end Scale

def largest : Float := Float.ofBits 0x7fefffffffffffff

theorem hasMagnitude_largest :
    HasMagnitude largest .positive ((2 ^ 53 - 1 : ℕ) * 2 ^ (971 : Int)) :=
  ⟨2 ^ 53 - 1, 971, by norm_num, rfl, rfl⟩

theorem exactMagnitude_le_largest (x : Float) : exactMagnitude x ≤ exactMagnitude largest := by
  rw [hasMagnitude_largest.exactMagnitude_eq, exactMagnitude]
  split
  · next s m q hm hu =>
    have hlt := (canonical_of_unpack hu).lt
    have hm : (m : ℚ) ≤ (2 ^ 53 - 1 : ℕ) := by exact_mod_cast Nat.le_sub_one_of_lt hlt
    have hq : (2 : ℚ) ^ q ≤ 2 ^ (971 : Int) := zpow_le_zpow_right₀ (by norm_num) (exponent_le hu)
    exact mul_le_mul hm hq (zpow_pos (by norm_num) q).le (Nat.cast_nonneg _)
  · exact mul_nonneg (Nat.cast_nonneg _) (zpow_pos (by norm_num) _).le

theorem significand_bounds {r : ℚ} (hlow : 2 ^ 52 + 1 ≤ r) (hhigh : r < 2 ^ 53) :
    2 ^ 52 ≤ r - r / 2 ^ 53 ∧ r - 1 < r - r / 2 ^ 53 ∧
      |r - 1 - (r - r / 2 ^ 53)| < 2⁻¹ := by
  norm_num at hlow hhigh ⊢
  rw [abs_lt]
  refine ⟨?_, ?_, ?_, ?_⟩ <;> linarith

/-- Scaling rounds the largest double downwards: its significand lacks only the last unit, so that
of the product lies between the one before the scale's and the middle to it. -/
theorem rounded_largest_mul_le {s : ℚ} (hs : IsDouble s) (hnormal : 2 ^ (-1022 : Int) ≤ s) :
    rounded (exactMagnitude largest * s) ≤ exactMagnitude largest * s := by
  obtain ⟨m, q, hc, rfl⟩ := hs
  have hleast := hc.least_le
  have hm : 2 ^ 52 ≤ m := by
    refine hc.normal.elim id fun hq => ?_
    by_contra hlt
    have hcast : (m : ℚ) < 2 ^ (52 : Int) := by exact_mod_cast not_le.1 hlt
    rw [hq] at hnormal
    have hless := mul_lt_mul_of_pos_right hcast (zpow_pos (by norm_num : (0 : ℚ) < 2) (-1074))
    rw [← zpow_add₀ (by norm_num)] at hless
    exact hless.not_ge hnormal
  have hunit : (0 : ℚ) < 2 ^ (q + 1024) := zpow_pos (by norm_num) _
  have hproduct : exactMagnitude largest * (m * 2 ^ q) = (m - m / 2 ^ 53) * 2 ^ (q + 1024) := by
    have hsplit : (2 : ℚ) ^ (q + 1024) = 2 ^ q * (2 ^ 53 * 2 ^ (971 : Int)) := by
      rw [zpow_add₀ (by norm_num), show (1024 : Int) = (53 : ℕ) + 971 from rfl,
        zpow_add₀ (by norm_num) ((53 : ℕ) : Int), zpow_natCast]
    rw [hasMagnitude_largest.exactMagnitude_eq, hsplit]
    generalize (2 : ℚ) ^ (971 : Int) = power
    push_cast
    ring
  rw [hproduct]
  rcases hm.lt_or_eq with hlt | rfl
  · have hcast : (2 : ℚ) ^ 52 + 1 ≤ m := by exact_mod_cast hlt
    have hbits : (m : ℚ) < 2 ^ 53 := by exact_mod_cast hc.lt
    have hbefore : ((m - 1 : ℕ) : ℚ) = m - 1 := by
      push_cast [Nat.cast_sub (show 1 ≤ m by omega)]
      rfl
    have hdouble : IsDouble ((m - 1 : ℕ) * 2 ^ (q + 1024)) :=
      isDouble_mul_two_pow (by omega) (by have := hc.lt; omega) (by omega)
    rw [hbefore] at hdouble
    obtain ⟨hfull, hnext, hnear⟩ := significand_bounds hcast hbits
    have hexp : exponentOf ((m - m / 2 ^ 53) * 2 ^ (q + 1024)) = q + 1024 := by
      refine exponentOf_eq (by omega) ?_ ?_
      · rw [add_comm, zpow_add₀ (by norm_num) 52]
        exact mul_le_mul_of_nonneg_right hfull hunit.le
      · rw [add_comm _ (53 : Int), zpow_add₀ (by norm_num) 53]
        exact mul_lt_mul_of_pos_right (by linarith) hunit
    have hrounded : rounded ((m - m / 2 ^ 53) * 2 ^ (q + 1024)) = (m - 1) * 2 ^ (q + 1024) := by
      refine rounded_of_near (mul_pos (lt_of_lt_of_le (by norm_num) hfull) hunit) hdouble ?_
      rw [hexp, ← sub_mul, abs_mul, abs_of_pos hunit, div_eq_inv_mul (2 ^ (q + 1024) : ℚ)]
      exact mul_lt_mul_of_pos_right hnear hunit
    rw [hrounded]
    exact mul_le_mul_of_nonneg_right hnext.le hunit.le
  · have hexact : (((2 ^ 52 : ℕ) : ℚ) - (2 ^ 52 : ℕ) / 2 ^ 53) * 2 ^ (q + 1024) =
        (2 ^ 53 - 1 : ℕ) * 2 ^ (q + 1023) := by
      rw [show q + 1024 = q + 1023 + 1 by ring, zpow_add_one₀ (by norm_num)]
      norm_num
      ring
    rw [hexact]
    exact (isDouble_mul_two_pow (by norm_num) (by norm_num) (by omega)).rounded_eq.le

/-- Numbers of places at which some doubles are scaled back beyond the largest one. -/
def overflowingPlaces : List Int := [-308, -307, -306, -305, -304, -299, -298, -293]

theorem isFinite_roundDecimals_largest : ∀ k : Fin 16,
    (roundDecimals largest (-(k + 293 : ℕ))).isFinite =
      decide ((-(k + 293 : ℕ) : Int) ∉ overflowingPlaces) := by
  decide +kernel

theorem isFinite_roundDecimals_largest_iff {d : Int} (hlow : -308 ≤ d) (hneg : d < 0) :
    (roundDecimals largest d).isFinite = true ↔ d ∉ overflowingPlaces := by
  rcases lt_or_ge d (-292) with hsmall | hlarge
  · have hentry := isFinite_roundDecimals_largest ⟨(-d - 293).toNat, by omega⟩
    have hplaces : (-(((-d - 293).toNat + 293 : ℕ) : Int)) = d := by omega
    rw [hplaces] at hentry
    rw [hentry, decide_eq_true_iff]
  · have hother : d ∉ overflowingPlaces := by
      simp only [overflowingPlaces, List.mem_cons, List.not_mem_nil, or_false]
      omega
    refine iff_of_true ?_ hother
    refine (isFinite_roundDecimals_iff hasMagnitude_largest.isFinite d).2 ⟨hlow, fun _ => ?_⟩
    obtain ⟨s, hs, -, -, -, hscale⟩ := exists_scale hlow (by omega)
    have hleast : (2 : ℚ) ^ (-971 : Int) ≤ s := hscale hlarge hneg
    have hnormal : (2 : ℚ) ^ (-1022 : Int) ≤ s :=
      (zpow_le_zpow_right₀ (by norm_num) (by norm_num)).trans hleast
    have hlow : (2 : ℚ) ^ 52 ≤ exactMagnitude largest * s := by
      rw [hasMagnitude_largest.exactMagnitude_eq]
      calc (2 : ℚ) ^ 52 ≤ (2 ^ 53 - 1 : ℕ) * (2 ^ (971 : Int) * 2 ^ (-971 : Int)) := by
            rw [← zpow_add₀ (by norm_num)]
            norm_num
        _ ≤ (2 ^ 53 - 1 : ℕ) * (2 ^ (971 : Int) * s) := by gcongr
        _ = (2 ^ 53 - 1 : ℕ) * 2 ^ (971 : Int) * s := (mul_assoc _ _ _).symm
    have hpos : 0 < exactMagnitude largest * s := lt_of_lt_of_le (by norm_num) hlow
    have hreach : (2 : ℚ) ^ 52 ≤ rounded (exactMagnitude largest * s) :=
      le_rounded hpos (by exact_mod_cast isDouble_two_pow (k := 52) (by norm_num)) hlow
    have hdouble := (rounded_eq_zero_or hpos).resolve_left
      (ne_of_gt (lt_of_lt_of_le (by norm_num) hreach))
    rw [hs.exactMagnitude_eq, scaledBack, hdouble.whole hreach]
    refine lt_of_le_of_lt ?_ hasMagnitude_largest.lt_threshold
    rw [div_le_iff₀ hs.isDouble.pos, ← hasMagnitude_largest.exactMagnitude_eq]
    exact rounded_largest_mul_le hs.isDouble hnormal

theorem forall_isFinite_roundDecimals_iff (d : Int) :
    (∀ x : Float, x.isFinite = true → (roundDecimals x d).isFinite = true) ↔
      -308 ≤ d ∧ d ∉ overflowingPlaces := by
  have hlargest : largest.isFinite = true := hasMagnitude_largest.isFinite
  constructor
  · intro h
    have hfinite := h largest hlargest
    have hlow := ((isFinite_roundDecimals_iff hlargest d).1 hfinite).1
    refine ⟨hlow, ?_⟩
    by_cases hneg : d < 0
    · exact (isFinite_roundDecimals_largest_iff hlow hneg).1 hfinite
    · simp only [overflowingPlaces, List.mem_cons, List.not_mem_nil, or_false]
      omega
  · rintro ⟨hlow, hplaces⟩ x hx
    refine (isFinite_roundDecimals_iff hx d).2 ⟨hlow, fun hneg => ?_⟩
    obtain ⟨s, hs, -⟩ := exists_scale hlow (by omega)
    have hfinite := (isFinite_roundDecimals_largest_iff hlow hneg).2 hplaces
    have hback := ((isFinite_roundDecimals_iff hlargest d).1 hfinite).2 hneg
    rw [hs.exactMagnitude_eq] at hback ⊢
    refine (scaledBack_mono hs.isDouble.pos ?_ (exactMagnitude_le_largest x)).trans_lt hback
    exact abs_exactValue x ▸ abs_nonneg _

end Binary64

namespace FloatNumber

open Binary64

theorem isFinite_round_iff (z : FloatNumber) (d : Int) :
    (z.round d).isFinite = true ↔
      (roundDecimals z.re d).isFinite = true ∧ (roundDecimals z.im d).isFinite = true :=
  isFinite_make_iff _ _

/-- Rounding keeps a finite double finite exactly down to the 308th place before the point and where
the rounded number can be scaled back; it keeps all of them finite at all but a few of these places.
Beyond them it makes not-a-number of everything. A number is rounded by its components. -/
theorem roundDecimals_isFinite_iff {x : Float} (hx : x.isFinite = true) {z : FloatNumber}
    (hz : z.isFinite = true) (d : Int) :
    ((roundDecimals x d).isFinite = true ↔ -308 ≤ d ∧
      (d < 0 → scaledBack (exactMagnitude x) (exactMagnitude (powerOfTen d)) < threshold)) ∧
    ((∀ y : Float, y.isFinite = true → (roundDecimals y d).isFinite = true) ↔
      -308 ≤ d ∧ d ∉ overflowingPlaces) ∧
    ((z.round d).isFinite = true ↔
      (roundDecimals z.re d).isFinite = true ∧ (roundDecimals z.im d).isFinite = true) ∧
    (d < -308 → roundDecimals x d = nan ∧ z.round d = Number.nan) := by
  refine ⟨isFinite_roundDecimals_iff hx d, forall_isFinite_roundDecimals_iff d,
    isFinite_round_iff z d, fun h => ⟨roundDecimals_of_lt hx h, ?_⟩⟩
  exact make_nan (.inl (roundDecimals_of_lt (Bool.and_eq_true_iff.1 hz).1 h))

/-- Rounding to hundreds keeps all doubles finite. -/
theorem roundDecimals_isFinite_hundreds :
    (1234.5 : Float).isFinite = true ∧ (roundDecimals 1234.5 (-2)).isFinite = true ∧
      isFinite (round ⟨1234.5, 0.0⟩ (-2)) = true := by
  have hx : (1234.5 : Float).isFinite = true := by decide
  have hz : isFinite ⟨1234.5, 0.0⟩ = true := by decide
  obtain ⟨-, hall, hround, -⟩ := roundDecimals_isFinite_iff hx hz (-2)
  have hfinite := hall.2 ⟨by decide, by decide⟩
  exact ⟨hx, hfinite _ hx, hround.2 ⟨hfinite _ hx, hfinite _ (by decide)⟩⟩

/-- Zero is rounded to not-a-number with a scale that has become zero, and the largest double to
infinity with a scale that is almost zero. -/
theorem roundDecimals_not_finite :
    (0.0 : Float).isFinite = true ∧ roundDecimals 0.0 (-400) = nan ∧
      (0 : FloatNumber).isFinite = true ∧ (0 : FloatNumber).round (-400) = Number.nan ∧
      largest.isFinite = true ∧ (roundDecimals largest (-299)).isFinite = false := by
  have hzero : roundDecimals 0.0 (-400) = nan := roundDecimals_of_lt (by decide) (by decide)
  have hlargest := isFinite_roundDecimals_largest ⟨6, by decide⟩
  exact ⟨by decide, hzero, by decide, make_nan (.inl hzero), hasMagnitude_largest.isFinite,
    hlargest.trans (by decide)⟩

end FloatNumber
end ComplexAlgebra
