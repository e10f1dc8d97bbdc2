import ComplexAlgebra.Proofs.Magnitude

/-! Scaling by the twelfth power of ten and back, in exact arithmetic: what rounding to twelve
decimal places makes of a double, and what it makes of the result. -/
namespace ComplexAlgebra
namespace Binary64

open Float.Model Float.Model.UnpackedFloat

variable {v : ℚ} {x : Float} {s : Sign}

theorem hasMagnitude_scale : HasMagnitude (powerOfTen 12) .positive (10 ^ 12) := by
  have hscale : powerOfTen 12 = Float.ofNat (10 ^ 12) := by decide +kernel
  have hnat := hasMagnitude_ofNat (n := 10 ^ 12) (by norm_num) (by norm_num)
  rw [hscale]
  exact_mod_cast hnat

theorem le_rounded_div {n : ℕ} (hn : 0 < n) :
    2 ^ (-40 : Int) ≤ rounded ((n : ℚ) / 10 ^ 12) := by
  have hone : (1 : ℚ) ≤ n := by exact_mod_cast hn
  refine le_rounded (by positivity) (isDouble_two_pow (by norm_num)) ?_
  rw [le_div_iff₀ (by norm_num)]
  norm_num
  linarith

theorem rounded_div_halfUp_le (hv : IsDouble v) (h0 : halfUp v ≠ 0) :
    rounded ((halfUp v : ℚ) / 10 ^ 12) ≤ v := by
  have hone : (1 : ℚ) ≤ halfUp v := by exact_mod_cast Nat.one_le_iff_ne_zero.2 h0
  have hpos := hv.pos
  have hle : (halfUp v : ℚ) ≤ v + 1 / 2 := Nat.floor_le (by linarith)
  refine rounded_le (by positivity) hv ?_
  rw [div_le_iff₀ (by norm_num)]
  linarith

/-- Rounding to twelve decimal places, in exact arithmetic: nothing happens if the scaled magnitude
is too large, and otherwise it is rounded to a whole number of the last place, which may be zero. -/
theorem roundDecimals_cases (h : HasMagnitude x s v) :
    (limit ≤ rounded (v * 10 ^ 12) ∧ roundDecimals x 12 = x) ∨
    rounded (v * 10 ^ 12) < limit ∧
      ((halfUp (rounded (v * 10 ^ 12)) = 0 ∧ rank (roundDecimals x 12) = 0) ∨
      (halfUp (rounded (v * 10 ^ 12)) ≠ 0 ∧ IsDouble (halfUp (rounded (v * 10 ^ 12))) ∧
        HasMagnitude (roundDecimals x 12) s
          (rounded (halfUp (rounded (v * 10 ^ 12)) / 10 ^ 12)))) := by
  have hv := h.isDouble.pos
  have hscaled : 0 < v * 10 ^ 12 := by positivity
  have hle : v ≤ rounded (v * 10 ^ 12) := le_rounded hscaled h.isDouble (by linarith)
  have h0 : rounded (v * 10 ^ 12) ≠ 0 := (hv.trans_le hle).ne'
  rw [roundDecimals]
  rcases le_or_gt limit (rounded (v * 10 ^ 12)) with hlarge | hlt
  · have hinfinite : (x * powerOfTen 12).isFinite = false := by
      rw [mul_eq_rounded h hasMagnitude_scale]
      exact isFinite_nearest _ hscaled hlarge
    refine .inl ⟨hlarge, ?_⟩
    simp only [hinfinite]
    rfl
  · refine .inr ⟨hlt, ?_⟩
    have hproduct := h.mul hasMagnitude_scale h0 hlt
    rw [show s * .positive = s by cases s <;> rfl] at hproduct
    simp only [hproduct.isFinite, if_true]
    rcases round_cases hproduct with ⟨hzero, hrank⟩ | ⟨hne, hround⟩
    · exact .inl ⟨hzero, rank_zero_div hrank hasMagnitude_scale⟩
    · refine .inr ⟨hne, hround.isDouble, ?_⟩
      have hlow := le_rounded_div (Nat.pos_of_ne_zero hne)
      have hhigh := rounded_div_halfUp_le hproduct.isDouble hne
      have hquotient := hround.div hasMagnitude_scale
        ((zpow_pos (by norm_num) _).trans_le hlow).ne' (hhigh.trans_lt hlt)
      rwa [show s / .positive = s by cases s <;> rfl] at hquotient

theorem roundDecimals_neg (h : HasMagnitude x s v) :
    same (roundDecimals (-x) 12) (-roundDecimals x 12) = true := by
  rcases roundDecimals_cases h with ⟨hlarge, heq⟩ | ⟨hlt, ⟨hzero, hrank⟩ | ⟨hne, -, hvalue⟩⟩ <;>
    rcases roundDecimals_cases h.neg with
      ⟨hlarge', heq'⟩ | ⟨hlt', ⟨hzero', hrank'⟩ | ⟨hne', -, hvalue'⟩⟩
  · rw [heq, heq']
    exact same_self _
  · exact absurd hlarge hlt'.not_ge
  · exact absurd hlarge hlt'.not_ge
  · exact absurd hlarge' hlt.not_ge
  · rw [same_iff, hrank', rank_neg_of_rank hrank]
  · exact absurd hzero hne'
  · exact absurd hlarge' hlt.not_ge
  · exact absurd hzero' hne
  · rw [hvalue'.unique hvalue.neg]
    exact same_self _

theorem scaled_ge_of_limit_le (hv : 0 < v) (h : limit ≤ rounded v) : 2 ^ 52 ≤ v := by
  by_contra hlt
  have hle := rounded_le hv (isDouble_two_pow (k := 52) (by norm_num)) (by
    exact_mod_cast (not_le.1 hlt).le)
  have hlimit : (2 : ℚ) ^ (52 : Int) < limit := zpow_lt_zpow_right₀ (by norm_num) (by norm_num)
  linarith

theorem exponentOf_scaled (hv : 0 < v) (hnormal : -1074 < exponentOf v) :
    exponentOf (v * 10 ^ 12) = exponentOf v + 39 ∨
      exponentOf (v * 10 ^ 12) = exponentOf v + 40 := by
  have hlow := le_of_exponentOf hv hnormal
  have hhigh := lt_of_exponentOf hv
  have hunit := unit_pos v
  rw [zpow_add₀ (by norm_num)] at hlow hhigh
  norm_num at hlow hhigh
  rcases lt_or_ge (v * 10 ^ 12) (2 ^ (exponentOf v + 39 + 53)) with h | h
  · left
    refine exponentOf_eq (by omega) ?_ h
    rw [show exponentOf v + 39 + 52 = exponentOf v + 91 by ring, zpow_add₀ (by norm_num)]
    norm_num
    linarith
  · right
    refine exponentOf_eq (by omega) ?_ ?_
    · rwa [show exponentOf v + 40 + 52 = exponentOf v + 39 + 53 by ring]
    · rw [show exponentOf v + 40 + 53 = exponentOf v + 93 by ring, zpow_add₀ (by norm_num)]
      norm_num
      linarith

/-- Scaling a double is never off by half of its last place: that would be an odd number of units of
which the product and the scaled double are even multiples. -/
theorem scaled_error_ne {r : ℚ} (hr : IsDouble r) (hnormal : -1074 < exponentOf r) :
    2 * |rounded (r * 10 ^ 12) - r * 10 ^ 12| ≠ 10 ^ 12 * 2 ^ exponentOf r := by
  obtain ⟨m, hm⟩ := hr.eq_mul
  have hunit := unit_pos r
  obtain ⟨k, hk⟩ : ∃ k : ℕ, rounded (r * 10 ^ 12) = k * 2 ^ 39 * 2 ^ exponentOf r := by
    obtain ⟨j, hj⟩ : ∃ j : ℕ, exponentOf (r * 10 ^ 12) = exponentOf r + 39 + j := by
      rcases exponentOf_scaled hr.pos hnormal with h | h
      · exact ⟨0, by omega⟩
      · exact ⟨1, by omega⟩
    refine ⟨nearestWhole (r * 10 ^ 12 / 2 ^ exponentOf (r * 10 ^ 12)) * 2 ^ j, ?_⟩
    rw [rounded, hj, zpow_add₀ (by norm_num), zpow_add₀ (by norm_num), zpow_natCast]
    push_cast
    ring
  intro heq
  have hsplit : rounded (r * 10 ^ 12) - r * 10 ^ 12 =
      (((k * 2 ^ 39 - m * 10 ^ 12 : ℤ) : ℤ) : ℚ) * 2 ^ exponentOf r := by
    rw [hk]
    nth_rewrite 2 [hm]
    push_cast
    ring
  rw [hsplit, abs_mul, abs_of_pos hunit, ← mul_assoc, mul_left_inj' hunit.ne'] at heq
  have hodd : 2 * |(k * 2 ^ 39 - m * 10 ^ 12 : ℤ)| = 10 ^ 12 := by exact_mod_cast heq
  rcases abs_choice (k * 2 ^ 39 - m * 10 ^ 12 : ℤ) with h | h <;> rw [h] at hodd <;> omega

/-- A double that is scaled, rounded and scaled back is that double again, exactly if the rounding
takes less than half of its last place. -/
theorem rounded_scaled_back_iff {r : ℚ} (hr : IsDouble r) (hnormal : -1022 ≤ exponentOf r) :
    rounded (rounded (r * 10 ^ 12) / 10 ^ 12) = r ↔
      2 * |rounded (r * 10 ^ 12) - r * 10 ^ 12| < 10 ^ 12 * 2 ^ exponentOf r := by
  have hpos := hr.pos
  have hscaled : 0 < r * 10 ^ 12 := by positivity
  have hunit := unit_pos r
  have hlow : (2 : ℚ) ^ (exponentOf r + 52) ≤ r := le_of_exponentOf hpos (by omega)
  have hpower : IsDouble (2 ^ (exponentOf r + 52) * 10 ^ 12) := by
    have hten := isDouble_mul_two_pow (n := 10 ^ 12) (by norm_num) (by norm_num)
      (k := exponentOf r + 52) (by omega)
    rw [mul_comm]
    exact_mod_cast hten
  have hback : (2 : ℚ) ^ (exponentOf r + 52) ≤ rounded (r * 10 ^ 12) / 10 ^ 12 := by
    rw [le_div_iff₀ (by norm_num)]
    exact le_rounded hscaled hpower (mul_le_mul_of_nonneg_right hlow (by norm_num))
  have hquotient : 0 < rounded (r * 10 ^ 12) / 10 ^ 12 :=
    (zpow_pos (by norm_num) _).trans_le hback
  have hsplit : |r - rounded (r * 10 ^ 12) / 10 ^ 12| =
      |rounded (r * 10 ^ 12) - r * 10 ^ 12| / 10 ^ 12 := by
    rw [abs_sub_comm, ← abs_of_pos (show (0 : ℚ) < 10 ^ 12 by norm_num), ← abs_div,
      abs_of_pos (show (0 : ℚ) < 10 ^ 12 by norm_num), sub_div,
      mul_div_cancel_right₀ r (by norm_num)]
  have hne := scaled_error_ne hr (by omega)
  generalize rounded (r * 10 ^ 12) = t at *
  have herror := abs_rounded_sub_le hquotient
  constructor
  · intro heq
    have hle : exponentOf (t / 10 ^ 12) ≤ exponentOf r := by
      have hlt := exponentOf_le_of_rounded_lt hquotient (k := exponentOf r + 53) (by omega)
        (by rw [heq]; exact lt_of_exponentOf hpos)
      omega
    have hstep : (2 : ℚ) ^ exponentOf (t / 10 ^ 12) ≤ 2 ^ exponentOf r :=
      zpow_le_zpow_right₀ (by norm_num) hle
    rw [heq, hsplit, div_le_iff₀ (by norm_num)] at herror
    refine lt_of_le_of_ne ?_ hne
    calc 2 * |t - r * 10 ^ 12| ≤ 2 * (2 ^ exponentOf (t / 10 ^ 12) / 2 * 10 ^ 12) := by gcongr
      _ = 10 ^ 12 * 2 ^ exponentOf (t / 10 ^ 12) := by ring
      _ ≤ 10 ^ 12 * 2 ^ exponentOf r := by gcongr
  · intro hlt
    have hexponent : exponentOf r ≤ exponentOf (t / 10 ^ 12) := by
      have hsame : exponentOf (2 ^ (exponentOf r + 52)) = exponentOf r :=
        exponentOf_eq (by omega) le_rfl (zpow_lt_zpow_right₀ (by norm_num) (by omega))
      have hmono := exponentOf_mono (zpow_pos (by norm_num) _) hback
      rwa [hsame] at hmono
    refine rounded_of_near hquotient hr ?_
    rw [hsplit, div_lt_iff₀ (by norm_num)]
    calc |t - r * 10 ^ 12| < 10 ^ 12 * 2 ^ exponentOf r / 2 := (lt_div_iff₀' (by norm_num)).2 hlt
      _ = 2 ^ exponentOf r / 2 * 10 ^ 12 := by ring
      _ ≤ 2 ^ exponentOf (t / 10 ^ 12) / 2 * 10 ^ 12 := by gcongr; norm_num

theorem rounded_scaled_back {r : ℚ} (hr : IsDouble r) (hnormal : -1022 ≤ exponentOf r)
    (hfine : exponentOf (r * 10 ^ 12) = exponentOf r + 39) :
    rounded (rounded (r * 10 ^ 12) / 10 ^ 12) = r := by
  rw [rounded_scaled_back_iff hr hnormal]
  have herror := abs_rounded_sub_le (mul_pos hr.pos (show (0 : ℚ) < 10 ^ 12 by norm_num))
  have hunit := unit_pos r
  rw [hfine, zpow_add₀ (by norm_num)] at herror
  norm_num at herror ⊢
  linarith

theorem halfUp_rounded_of_halves {t : ℚ} {n : ℕ} (hn : IsDouble n) (hlow : 2 ^ 51 ≤ t)
    (hhigh : t < 2 ^ 52) (hnear : |t - n| < 1 / 2) :
    halfUp (rounded t) = if 1 / 4 < t - n then n + 1 else n := by
  have ht : 0 < t := by linarith
  have hexp : exponentOf t = -1 :=
    exponentOf_eq (by norm_num) (by exact_mod_cast hlow) (by exact_mod_cast hhigh)
  obtain ⟨hleft, hright⟩ := abs_lt.1 hnear
  split
  · next hquarter =>
    have hbits : n < 2 ^ 52 := by
      have hcast : (n : ℚ) < ((2 ^ 52 : ℕ) : ℚ) := by
        push_cast
        linarith
      exact_mod_cast hcast
    have hrounded : rounded t = (2 * n + 1 : ℕ) / 2 := by
      refine rounded_of_near ht (isDouble_half (by omega) (by omega)) ?_
      rw [hexp, abs_lt]
      push_cast
      constructor <;> norm_num <;> linarith
    rw [hrounded, halfUp_eq_iff (by positivity)]
    push_cast
    constructor <;> linarith
  · next hquarter =>
    rw [not_lt] at hquarter
    have hn0 : 0 < n := by exact_mod_cast hn.pos
    have hbits : n < 2 ^ 52 + 1 := by
      have hcast : (n : ℚ) < ((2 ^ 52 + 1 : ℕ) : ℚ) := by
        push_cast
        linarith
      exact_mod_cast hcast
    have hreach : ((2 * n - 1 : ℕ) : ℚ) / 2 ≤ rounded t := by
      refine le_rounded ht (isDouble_half (by omega) (by omega)) ?_
      push_cast [Nat.cast_sub (show 1 ≤ 2 * n by omega)]
      linarith
    have hbelow : rounded t ≤ n := by
      rcases le_or_gt t n with hle | hgt
      · exact rounded_le ht hn hle
      · have heven := rounded_of_even ht (n := 2 * n) (Nat.mul_mod_right 2 n) (by
          rw [hexp, abs_le]
          push_cast
          constructor <;> norm_num <;> linarith)
        rw [heven, hexp, zpow_neg_one]
        push_cast
        linarith
    push_cast [Nat.cast_sub (show 1 ≤ 2 * n by omega)] at hreach
    rw [halfUp_eq_iff (by linarith)]
    constructor <;> linarith

section Settled

variable {n : ℕ}

theorem abs_scaled_sub_le (hn : 0 < n) {e : Int} (he : exponentOf ((n : ℚ) / 10 ^ 12) ≤ e) :
    |rounded ((n : ℚ) / 10 ^ 12) * 10 ^ 12 - n| ≤ 10 ^ 12 * 2 ^ e / 2 := by
  have hpos : (0 : ℚ) < n / 10 ^ 12 := by positivity
  have hsplit : rounded ((n : ℚ) / 10 ^ 12) * 10 ^ 12 - n =
      (rounded ((n : ℚ) / 10 ^ 12) - n / 10 ^ 12) * 10 ^ 12 := by
    field_simp
  rw [hsplit, abs_mul, abs_of_pos (show (0 : ℚ) < 10 ^ 12 by norm_num)]
  calc |rounded ((n : ℚ) / 10 ^ 12) - n / 10 ^ 12| * 10 ^ 12
      ≤ 2 ^ exponentOf ((n : ℚ) / 10 ^ 12) / 2 * 10 ^ 12 :=
        mul_le_mul_of_nonneg_right (abs_rounded_sub_le hpos) (by norm_num)
    _ ≤ 2 ^ e / 2 * 10 ^ 12 := by
        gcongr
        norm_num
    _ = 10 ^ 12 * 2 ^ e / 2 := by ring

theorem pos_rounded_div (hn : 0 < n) : 0 < rounded ((n : ℚ) / 10 ^ 12) :=
  (zpow_pos (by norm_num) _).trans_le (le_rounded_div hn)

theorem halfUp_scaled_of_lt (hn : 0 < n) (h : rounded ((n : ℚ) / 10 ^ 12) < 2 ^ 12) :
    halfUp (rounded (rounded ((n : ℚ) / 10 ^ 12) * 10 ^ 12)) = n := by
  have hpos : (0 : ℚ) < n / 10 ^ 12 := by positivity
  have herror := abs_scaled_sub_le hn (exponentOf_le_of_rounded_lt (k := 12) hpos (by norm_num)
    (by exact_mod_cast h))
  have hr := pos_rounded_div hn
  generalize rounded ((n : ℚ) / 10 ^ 12) = r at *
  have hscaled : 0 < r * 10 ^ 12 := by positivity
  generalize ht : r * 10 ^ 12 = t at *
  have hunit : (2 : ℚ) ^ exponentOf t ≤ 2 ^ (-1 : Int) :=
    zpow_le_zpow_right₀ (by norm_num)
      (exponentOf_le (k := 52) hscaled (by norm_num) (by norm_num at h ⊢; linarith))
  have hround := abs_rounded_sub_le hscaled
  have hone : (1 : ℚ) ≤ n := by exact_mod_cast hn
  norm_num at herror hunit
  rw [abs_le] at herror hround
  rw [halfUp_eq_iff (by linarith)]
  constructor <;> linarith

/-- Between `2 ^ 12` and the end of the halves, the scaled double moves on by a half if it is nearer
to that half than to the whole number it came from. -/
theorem halfUp_scaled_of_between (hn : IsDouble n) (hlow : 2 ^ 12 ≤ rounded ((n : ℚ) / 10 ^ 12))
    (hhigh : rounded ((n : ℚ) / 10 ^ 12) * 10 ^ 12 < 2 ^ 52) :
    |rounded ((n : ℚ) / 10 ^ 12) * 10 ^ 12 - n| < 1 / 2 ∧
      halfUp (rounded (rounded ((n : ℚ) / 10 ^ 12) * 10 ^ 12)) =
        if 1 / 4 < rounded ((n : ℚ) / 10 ^ 12) * 10 ^ 12 - n then n + 1 else n := by
  have hn0 : 0 < n := by exact_mod_cast hn.pos
  have hpos : (0 : ℚ) < n / 10 ^ 12 := by positivity
  have herror := abs_scaled_sub_le hn0 (exponentOf_le_of_rounded_lt (k := 13) hpos (by norm_num)
    (by norm_num at hhigh ⊢; linarith))
  have hnear : |rounded ((n : ℚ) / 10 ^ 12) * 10 ^ 12 - n| < 1 / 2 :=
    lt_of_le_of_lt herror (by norm_num)
  exact ⟨hnear, halfUp_rounded_of_halves hn (by norm_num at hlow ⊢; linarith) hhigh hnear⟩

theorem rounded_scaled_of_large (hn : IsDouble n)
    (h : 2 ^ 52 ≤ rounded ((n : ℚ) / 10 ^ 12) * 10 ^ 12) :
    rounded (halfUp (rounded (rounded ((n : ℚ) / 10 ^ 12) * 10 ^ 12)) / 10 ^ 12) =
      rounded ((n : ℚ) / 10 ^ 12) := by
  have hn0 : 0 < n := by exact_mod_cast hn.pos
  have hpos : (0 : ℚ) < n / 10 ^ 12 := by positivity
  have hr := pos_rounded_div hn0
  have hdouble := (rounded_eq_zero_or hpos).resolve_left hr.ne'
  have hwhole : (halfUp (rounded (rounded ((n : ℚ) / 10 ^ 12) * 10 ^ 12)) : ℚ) =
      rounded (rounded ((n : ℚ) / 10 ^ 12) * 10 ^ 12) := by
    have hscaled : 0 < rounded ((n : ℚ) / 10 ^ 12) * 10 ^ 12 := by positivity
    have htwo : IsDouble (2 ^ 52) := by exact_mod_cast isDouble_two_pow (k := 52) (by norm_num)
    refine IsDouble.whole ?_ (le_rounded hscaled htwo h)
    exact (rounded_eq_zero_or hscaled).resolve_left
      (ne_of_gt (lt_of_lt_of_le (by norm_num) (le_rounded hscaled htwo h)))
  have hnormal := exponentOf_of_one_le (v := rounded ((n : ℚ) / 10 ^ 12)) (by
    norm_num at h ⊢
    linarith)
  rw [hwhole]
  rcases exponentOf_scaled hr (by omega) with hfine | hcoarse
  · exact rounded_scaled_back hdouble (by omega) hfine
  · have hsmall : exponentOf ((n : ℚ) / 10 ^ 12) ≤ exponentOf (rounded ((n : ℚ) / 10 ^ 12)) := by
      have hlt := exponentOf_le_of_rounded_lt hpos
        (k := exponentOf (rounded ((n : ℚ) / 10 ^ 12)) + 53) (by omega) (lt_of_exponentOf hr)
      omega
    have herror := abs_scaled_sub_le hn0 hsmall
    have hback : rounded (rounded ((n : ℚ) / 10 ^ 12) * 10 ^ 12) = n := by
      refine rounded_of_near (by positivity) hn ?_
      rw [hcoarse, abs_sub_comm, zpow_add₀ (by norm_num)]
      refine lt_of_le_of_lt herror ?_
      have hunit := unit_pos (rounded ((n : ℚ) / 10 ^ 12))
      norm_num
      linarith
    rw [hback]

theorem rounded_succ_ne {n : ℕ} (hhigh : rounded ((n : ℚ) / 10 ^ 12) < 2 ^ 13)
    (hnear : |rounded ((n : ℚ) / 10 ^ 12) * 10 ^ 12 - n| < 1 / 2) :
    rounded (((n + 1 : ℕ) : ℚ) / 10 ^ 12) ≠ rounded ((n : ℚ) / 10 ^ 12) := by
  intro heq
  have hpos : (0 : ℚ) < (n + 1 : ℕ) / 10 ^ 12 := by positivity
  have hlt : rounded (((n + 1 : ℕ) : ℚ) / 10 ^ 12) < 2 ^ (13 : Int) := by
    rw [heq]
    exact_mod_cast hhigh
  have herror := abs_scaled_sub_le n.succ_pos (exponentOf_le_of_rounded_lt hpos (by norm_num) hlt)
  rw [heq] at herror
  generalize rounded ((n : ℚ) / 10 ^ 12) * 10 ^ 12 = t at *
  rw [abs_le] at herror
  rw [abs_lt] at hnear
  norm_num at herror
  linarith

theorem halfUp_scaled_ne_zero (hn : 0 < n) :
    halfUp (rounded (rounded ((n : ℚ) / 10 ^ 12) * 10 ^ 12)) ≠ 0 := by
  have hscaled := mul_pos (pos_rounded_div hn) (show (0 : ℚ) < 10 ^ 12 by norm_num)
  have hlow := le_rounded_div hn
  have hhalf : (2 : ℚ) ^ (-1 : Int) ≤ rounded (rounded ((n : ℚ) / 10 ^ 12) * 10 ^ 12) := by
    refine le_rounded hscaled (isDouble_two_pow (by norm_num)) ?_
    norm_num at hlow ⊢
    linarith
  intro hzero
  rw [halfUp, Nat.floor_eq_zero] at hzero
  norm_num at hhalf
  linarith

/-- Of the magnitudes nearest to a whole number of twelfth places, those that move on. -/
def MovesOn (v : ℚ) : Prop :=
  2 ^ 12 ≤ v ∧ v * 10 ^ 12 < 2 ^ 52 ∧ 1 / 4 < Int.fract (v * 10 ^ 12) ∧
    Int.fract (v * 10 ^ 12) < 1 / 2

theorem fract_between_iff {t : ℚ} (h : |t - n| < 1 / 2) :
    1 / 4 < Int.fract t ∧ Int.fract t < 1 / 2 ↔ 1 / 4 < t - n := by
  obtain ⟨hleft, hright⟩ := abs_lt.1 h
  rcases le_or_gt 0 (t - n) with habove | hbelow
  · have hfract : Int.fract t = t - n :=
      Int.fract_eq_iff.2 ⟨habove, by linarith, n, by push_cast; ring⟩
    rw [hfract]
    exact ⟨And.left, fun hquarter => ⟨hquarter, hright⟩⟩
  · have hfract : Int.fract t = t - n + 1 :=
      Int.fract_eq_iff.2 ⟨by linarith, by linarith, n - 1, by push_cast; ring⟩
    rw [hfract]
    exact iff_of_false (fun hbounds => by linarith [hbounds.2]) (by linarith)

/-- Rounding to the twelfth place once more leads to the same magnitude, unless that moves on. -/
theorem rounded_again_iff (hn : IsDouble n) :
    rounded (halfUp (rounded (rounded ((n : ℚ) / 10 ^ 12) * 10 ^ 12)) / 10 ^ 12) =
      rounded ((n : ℚ) / 10 ^ 12) ↔ ¬ MovesOn (rounded ((n : ℚ) / 10 ^ 12)) := by
  have hn0 : 0 < n := by exact_mod_cast hn.pos
  rcases lt_or_ge (rounded ((n : ℚ) / 10 ^ 12)) (2 ^ 12) with hnarrow | hwide
  · rw [halfUp_scaled_of_lt hn0 hnarrow]
    exact iff_of_true rfl fun hmoves => hnarrow.not_ge hmoves.1
  · rcases lt_or_ge (rounded ((n : ℚ) / 10 ^ 12) * 10 ^ 12) (2 ^ 52) with hhalves | hwhole
    · obtain ⟨hnear, hstep⟩ := halfUp_scaled_of_between hn hwide hhalves
      rw [hstep, MovesOn, and_iff_right hwide, and_iff_right hhalves, fract_between_iff hnear]
      split
      · next hquarter =>
        refine iff_of_false (rounded_succ_ne ?_ hnear) (not_not.2 hquarter)
        norm_num at hhalves ⊢
        linarith
      · next hquarter => exact iff_of_true rfl hquarter
    · exact iff_of_true (rounded_scaled_of_large hn hwhole) fun hmoves => hmoves.2.1.not_ge hwhole

end Settled

end Binary64
end ComplexAlgebra
