import ComplexAlgebra.Proofs.ReadBack

/-! The values that magnitudes are rounded to. A magnitude is rounded to the nearest multiple of its
last place, ties to the even multiple, and no double is passed on the way. -/
namespace ComplexAlgebra
namespace Binary64

open Float.Model Float.Model.UnpackedFloat

/-- The whole number nearest to a magnitude, ties to even. -/
def nearestWhole (r : ℚ) : ℕ := (leading r).roundedMantissa

/-- Below the half a magnitude loses its fraction, above it the next whole number is nearer, and
from the half itself the even one is taken. -/
theorem nearestWhole_cases {r : ℚ} (hr : 0 ≤ r) :
    (r < ⌊r⌋₊ + 1 / 2 ∧ nearestWhole r = ⌊r⌋₊) ∨
    (r = ⌊r⌋₊ + 1 / 2 ∧ nearestWhole r = ⌊r⌋₊ + ⌊r⌋₊ % 2) ∨
    (⌊r⌋₊ + 1 / 2 < r ∧ nearestWhole r = ⌊r⌋₊ + 1) := by
  have hlow := Nat.floor_le hr
  have hhigh := Nat.lt_floor_add_one r
  have hdouble : 0 ≤ 2 * r := by linarith
  rcases lt_or_ge r (⌊r⌋₊ + 1 / 2) with hlt | hge
  · have htwice : ⌊2 * r⌋₊ = 2 * ⌊r⌋₊ := by
      rw [Nat.floor_eq_iff hdouble]
      push_cast
      constructor <;> linarith
    refine .inl ⟨hlt, ?_⟩
    rw [nearestWhole, leading, htwice, Nat.mul_mod_right]
    cases decide (((2 * ⌊r⌋₊ : ℕ) : ℚ) ≠ 2 * r) <;> rfl
  · have htwice : ⌊2 * r⌋₊ = 2 * ⌊r⌋₊ + 1 := by
      rw [Nat.floor_eq_iff hdouble]
      push_cast
      constructor <;> linarith
    have hodd : (2 * ⌊r⌋₊ + 1) % 2 = 1 := by omega
    rcases eq_or_lt_of_le hge with heq | hgt
    · refine .inr (.inl ⟨heq.symm, ?_⟩)
      have hexact : ((2 * ⌊r⌋₊ + 1 : ℕ) : ℚ) = 2 * r := by push_cast; linarith
      rw [nearestWhole, leading, htwice, hodd, decide_eq_false (not_not.2 hexact)]
      rfl
    · refine .inr (.inr ⟨hgt, ?_⟩)
      have hexact : ((2 * ⌊r⌋₊ + 1 : ℕ) : ℚ) ≠ 2 * r := by
        push_cast
        intro h
        linarith
      rw [nearestWhole, leading, htwice, hodd, decide_eq_true hexact]
      rfl

theorem abs_nearestWhole_sub_le {r : ℚ} (hr : 0 ≤ r) : |(nearestWhole r : ℚ) - r| ≤ 1 / 2 := by
  have hlow := Nat.floor_le hr
  have hhigh := Nat.lt_floor_add_one r
  rw [abs_le]
  rcases nearestWhole_cases hr with ⟨h, heq⟩ | ⟨h, heq⟩ | ⟨h, heq⟩ <;> rw [heq]
  · constructor <;> linarith
  · rcases Nat.mod_two_eq_zero_or_one ⌊r⌋₊ with h0 | h1
    · rw [h0]
      constructor <;> push_cast <;> linarith
    · rw [h1]
      constructor <;> push_cast <;> linarith
  · push_cast
    constructor <;> linarith

theorem le_nearestWhole {r : ℚ} {n : ℕ} (h : (n : ℚ) ≤ r) : n ≤ nearestWhole r := by
  have hr : 0 ≤ r := (Nat.cast_nonneg n).trans h
  have hfloor : n ≤ ⌊r⌋₊ := Nat.le_floor h
  rcases nearestWhole_cases hr with ⟨-, heq⟩ | ⟨-, heq⟩ | ⟨-, heq⟩ <;> omega

theorem nearestWhole_le {r : ℚ} (hr : 0 ≤ r) {n : ℕ} (h : r ≤ n) : nearestWhole r ≤ n := by
  have hlow := Nat.floor_le hr
  rcases nearestWhole_cases hr with ⟨-, heq⟩ | ⟨hhalf, heq⟩ | ⟨hhalf, heq⟩
  · rw [heq]
    exact Nat.floor_le_of_le h
  all_goals
    have hlt : ⌊r⌋₊ < n := by
      have : (⌊r⌋₊ : ℚ) < n := by linarith
      exact_mod_cast this
    omega

theorem nearestWhole_of_near {r : ℚ} (hr : 0 ≤ r) {n : ℕ} (h : |(n : ℚ) - r| < 1 / 2) :
    nearestWhole r = n := by
  have hclose := abs_le.1 (abs_nearestWhole_sub_le hr)
  have hnear := abs_lt.1 h
  have hlt : ((nearestWhole r : ℤ) : ℚ) < ((n + 1 : ℤ) : ℚ) := by push_cast; linarith
  have hgt : ((n : ℤ) : ℚ) < ((nearestWhole r + 1 : ℤ) : ℚ) := by push_cast; linarith
  have hlt' := Int.cast_lt.1 hlt
  have hgt' := Int.cast_lt.1 hgt
  omega

theorem nearestWhole_of_even {r : ℚ} (hr : 0 ≤ r) {n : ℕ} (heven : n % 2 = 0)
    (h : |(n : ℚ) - r| ≤ 1 / 2) : nearestWhole r = n := by
  rcases h.lt_or_eq with hlt | heq
  · exact nearestWhole_of_near hr hlt
  · rcases (abs_eq (by norm_num)).1 heq with habove | hbelow
    · obtain ⟨k, rfl⟩ : ∃ k, n = k + 1 := by
        refine Nat.exists_eq_add_one_of_ne_zero ?_
        rintro rfl
        push_cast at habove
        linarith
      have hfloor : ⌊r⌋₊ = k := by
        rw [Nat.floor_eq_iff hr]
        push_cast at habove
        constructor <;> linarith
      rcases nearestWhole_cases hr with ⟨h', heq⟩ | ⟨h', heq⟩ | ⟨h', heq⟩ <;>
        rw [hfloor] at h' heq
      · push_cast at habove
        linarith
      · omega
      · exact heq
    · have hfloor : ⌊r⌋₊ = n := by
        rw [Nat.floor_eq_iff hr]
        constructor <;> linarith
      rcases nearestWhole_cases hr with ⟨h', heq⟩ | ⟨h', heq⟩ | ⟨h', heq⟩ <;>
        rw [hfloor] at h' heq
      · exact heq
      · omega
      · linarith

variable {v w : ℚ}

theorem least_le_exponentOf (v : ℚ) : -1074 ≤ exponentOf v := le_max_right _ _

theorem lt_of_exponentOf (hv : 0 < v) : v < 2 ^ (exponentOf v + 53) := by
  have hlog : Int.log 2 v < exponentOf v + 53 := by
    rw [exponentOf]
    omega
  exact_mod_cast (Int.lt_zpow_iff_log_lt (b := 2) (by norm_num) hv).2 hlog

theorem le_of_exponentOf (hv : 0 < v) (h : -1074 < exponentOf v) :
    2 ^ (exponentOf v + 52) ≤ v := by
  have hlog : exponentOf v + 52 ≤ Int.log 2 v := by
    rw [exponentOf] at h ⊢
    omega
  exact_mod_cast (Int.zpow_le_iff_le_log (b := 2) (by norm_num) hv).2 hlog

theorem exponentOf_mono (hv : 0 < v) (h : v ≤ w) : exponentOf v ≤ exponentOf w := by
  have hlog : Int.log 2 v ≤ Int.log 2 w := Int.log_mono_right hv h
  rw [exponentOf, exponentOf]
  omega

theorem exponentOf_le (hv : 0 < v) {k : Int} (hk : -1021 ≤ k) (h : v < 2 ^ k) :
    exponentOf v ≤ k - 53 := by
  by_contra hgt
  have hle : (2 : ℚ) ^ k ≤ v :=
    (zpow_le_zpow_right₀ (by norm_num) (by omega)).trans (le_of_exponentOf hv (by omega))
  exact h.not_ge hle

theorem exponentOf_eq {e : Int} (he : -1074 ≤ e) (hle : 2 ^ (e + 52) ≤ v)
    (hlt : v < 2 ^ (e + 53)) : exponentOf v = e := by
  have hv : 0 < v := lt_of_lt_of_le (zpow_pos (by norm_num) _) hle
  have hlow : e + 52 ≤ Int.log 2 v :=
    (Int.zpow_le_iff_le_log (b := 2) (by norm_num) hv).1 (by exact_mod_cast hle)
  have hhigh : Int.log 2 v < e + 53 :=
    (Int.lt_zpow_iff_log_lt (b := 2) (by norm_num) hv).1 (by exact_mod_cast hlt)
  rw [exponentOf]
  omega

theorem exponentOf_of_one_le (h : 1 ≤ v) : -52 ≤ exponentOf v := by
  have hone : exponentOf 1 = -52 := exponentOf_eq (by norm_num) (by norm_num) (by norm_num)
  rw [← hone]
  exact exponentOf_mono one_pos h

theorem unit_pos (v : ℚ) : (0 : ℚ) < 2 ^ exponentOf v := zpow_pos (by norm_num) _

/-- The magnitude of a double other than zero, if it is not too large. -/
def IsDouble (v : ℚ) : Prop := ∃ m q, Canonical m q ∧ v = m * 2 ^ q

theorem IsDouble.pos (h : IsDouble v) : 0 < v := by
  obtain ⟨m, q, hc, rfl⟩ := h
  exact mul_pos (Nat.cast_pos.2 hc.pos) (zpow_pos (by norm_num) q)

theorem isDouble_mul_two_pow {n : ℕ} (hn : 0 < n) (hlt : n < 2 ^ 53) {k : Int} (hk : -1022 ≤ k) :
    IsDouble (n * 2 ^ k) := by
  have hc := canonical_natCast hn hlt
  refine ⟨_, k - (52 - n.log2 : ℕ), ⟨hc.pos, hc.lt, by omega, .inl ?_⟩, ?_⟩
  · exact hc.normal.resolve_right (by omega)
  · push_cast
    rw [mul_assoc, ← zpow_natCast, ← zpow_add₀ (by norm_num)]
    congr 2
    omega

theorem isDouble_natCast {n : ℕ} (hn : 0 < n) (hlt : n < 2 ^ 53) : IsDouble n := by
  have hdouble := isDouble_mul_two_pow hn hlt (k := 0) (by norm_num)
  rwa [zpow_zero, MulOneClass.mul_one] at hdouble

theorem isDouble_half {n : ℕ} (hn : 0 < n) (hlt : n < 2 ^ 53) : IsDouble (n / 2) := by
  have hdouble := isDouble_mul_two_pow hn hlt (k := -1) (by norm_num)
  rwa [zpow_neg_one, ← div_eq_mul_inv] at hdouble

theorem isDouble_two_pow {k : Int} (hk : -1022 ≤ k) : IsDouble (2 ^ k) := by
  have hone := isDouble_mul_two_pow Nat.one_pos (by norm_num) hk
  rwa [Nat.cast_one, one_mul] at hone

/-- A double is a multiple of any power of two up to its own last place; with coarser steps, doubles
that fill their significand lie above it. -/
theorem IsDouble.multiple_or_lt {d : ℚ} (hd : IsDouble d) (e : Int) :
    (∃ n : ℕ, d = n * 2 ^ e) ∨ -1074 < e ∧ d ≤ 2 ^ (e + 52) - 2 ^ (e - 1) := by
  obtain ⟨m, q, hc, rfl⟩ := hd
  rcases le_or_gt e q with hq | hq
  · refine .inl ⟨m * 2 ^ (q - e).toNat, ?_⟩
    push_cast
    rw [mul_assoc, ← zpow_natCast, ← zpow_add₀ (by norm_num)]
    congr 2
    omega
  · have hleast := hc.least_le
    refine .inr ⟨by omega, ?_⟩
    have hm : (m : ℚ) ≤ 2 ^ 53 - 1 := by
      have hlt := hc.lt
      have hle : m + 1 ≤ 2 ^ 53 := by omega
      have hcast : ((m + 1 : ℕ) : ℚ) ≤ (2 ^ 53 : ℕ) := by exact_mod_cast hle
      push_cast at hcast
      linarith
    have hstep : (2 : ℚ) ^ q ≤ 2 ^ (e - 1) := zpow_le_zpow_right₀ (by norm_num) (by omega)
    have htop : (2 : ℚ) ^ (e + 52) = 2 ^ 53 * 2 ^ (e - 1) := by
      rw [show e + 52 = 53 + (e - 1) by ring, zpow_add₀ (by norm_num)]
      rfl
    calc (m : ℚ) * 2 ^ q ≤ (2 ^ 53 - 1) * 2 ^ (e - 1) :=
          mul_le_mul hm hstep (zpow_pos (by norm_num) q).le (by norm_num)
      _ = 2 ^ (e + 52) - 2 ^ (e - 1) := by rw [htop]; ring

theorem IsDouble.eq_mul {d : ℚ} (hd : IsDouble d) : ∃ m : ℕ, d = m * 2 ^ exponentOf d := by
  rcases hd.multiple_or_lt (exponentOf d) with h | ⟨hnormal, hle⟩
  · exact h
  · have hlow := le_of_exponentOf hd.pos hnormal
    have hstep : (0 : ℚ) < 2 ^ (exponentOf d - 1) := zpow_pos (by norm_num) _
    linarith

/-- The double nearest to a magnitude, ties to even. -/
def rounded (v : ℚ) : ℚ := nearestWhole (v / 2 ^ exponentOf v) * 2 ^ exponentOf v

theorem abs_rounded_sub_le (hv : 0 < v) : |rounded v - v| ≤ 2 ^ exponentOf v / 2 := by
  have hunit := unit_pos v
  have hwhole := abs_nearestWhole_sub_le (div_pos hv hunit).le
  have hsplit : rounded v - v =
      ((nearestWhole (v / 2 ^ exponentOf v) : ℚ) - v / 2 ^ exponentOf v) * 2 ^ exponentOf v := by
    rw [rounded, sub_mul, div_mul_cancel₀ v hunit.ne']
  rw [hsplit, abs_mul, abs_of_pos hunit]
  calc _ ≤ 1 / 2 * 2 ^ exponentOf v := mul_le_mul_of_nonneg_right hwhole hunit.le
    _ = 2 ^ exponentOf v / 2 := by ring

theorem nearestWhole_le_two_pow (hv : 0 < v) : nearestWhole (v / 2 ^ exponentOf v) ≤ 2 ^ 53 := by
  have hunit := unit_pos v
  refine nearestWhole_le (div_pos hv hunit).le ?_
  rw [div_le_iff₀ hunit]
  have hlt := lt_of_exponentOf hv
  rw [add_comm, zpow_add₀ (by norm_num)] at hlt
  push_cast
  exact hlt.le

theorem two_pow_le_nearestWhole (hv : 0 < v) (h : -1074 < exponentOf v) :
    2 ^ 52 ≤ nearestWhole (v / 2 ^ exponentOf v) := by
  have hunit := unit_pos v
  refine le_nearestWhole ?_
  rw [le_div_iff₀ hunit]
  have hle := le_of_exponentOf hv h
  rw [add_comm, zpow_add₀ (by norm_num)] at hle
  push_cast
  exact hle

/-- What a magnitude is rounded to, as significand and exponent. A significand of 54 bits is halved.
-/
theorem exists_canonical (hv : 0 < v) (h : rounded v ≠ 0) :
    ∃ (m : ℕ) (q : Int) (k : ℕ), Canonical m q ∧ nearestWhole (v / 2 ^ exponentOf v) = m * 2 ^ k ∧
      exponentOf v = q - k ∧ rounded v = m * 2 ^ q := by
  have h0 : nearestWhole (v / 2 ^ exponentOf v) ≠ 0 := by
    intro h0
    rw [rounded, h0, Nat.cast_zero, zero_mul] at h
    exact h rfl
  have hle := nearestWhole_le_two_pow hv
  have hleast := least_le_exponentOf v
  rcases hle.lt_or_eq with hlt | heq
  · refine ⟨_, exponentOf v, 0, ⟨Nat.pos_of_ne_zero h0, hlt, hleast, ?_⟩, by simp, by simp, rfl⟩
    rcases eq_or_lt_of_le hleast with h | h
    · exact .inr h.symm
    · exact .inl (two_pow_le_nearestWhole hv h)
  · refine ⟨2 ^ 52, exponentOf v + 1, 1, ⟨by norm_num, by norm_num, by omega, .inl le_rfl⟩,
      by rw [heq]; norm_num, by push_cast; omega, ?_⟩
    rw [rounded, heq, zpow_add₀ (by norm_num)]
    norm_num
    ring

theorem rounded_eq_zero_or (hv : 0 < v) : rounded v = 0 ∨ IsDouble (rounded v) := by
  by_cases h : rounded v = 0
  · exact .inl h
  · obtain ⟨m, q, -, hc, -, -, hvalue⟩ := exists_canonical hv h
    exact .inr ⟨m, q, hc, hvalue⟩

theorem exists_nearest_eq (s : Sign) (hv : 0 < v) (h : rounded v ≠ 0) :
    ∃ m q, ∃ hc : Canonical m q, nearest s v = .finite s m q hc.pos ∧ rounded v = m * 2 ^ q := by
  obtain ⟨m, q, k, hc, hm, hq, hvalue⟩ := exists_canonical hv h
  refine ⟨m, q, hc, ?_, hvalue⟩
  have hshift := hc.shiftToTargetExponent_eq k
  rw [← hm, ← hq] at hshift
  have hwhole : (leading (v / 2 ^ exponentOf v)).roundedMantissa =
      nearestWhole (v / 2 ^ exponentOf v) := rfl
  simp only [nearest, hwhole, hshift, dif_neg hc.pos.ne']

/-- Rounding does not pass a double that the magnitude reaches. -/
theorem le_rounded (hv : 0 < v) {d : ℚ} (hd : IsDouble d) (h : d ≤ v) : d ≤ rounded v := by
  have hunit := unit_pos v
  rcases hd.multiple_or_lt (exponentOf v) with ⟨n, rfl⟩ | ⟨hnormal, hlt⟩
  · rw [rounded]
    refine mul_le_mul_of_nonneg_right ?_ hunit.le
    exact_mod_cast le_nearestWhole ((le_div_iff₀ hunit).2 h)
  · have hbound : (2 : ℚ) ^ 52 ≤ nearestWhole (v / 2 ^ exponentOf v) := by
      exact_mod_cast two_pow_le_nearestWhole hv hnormal
    have hstep : (0 : ℚ) < 2 ^ (exponentOf v - 1) := zpow_pos (by norm_num) _
    calc d ≤ 2 ^ (exponentOf v + 52) := by linarith
      _ = 2 ^ 52 * 2 ^ exponentOf v := by rw [add_comm, zpow_add₀ (by norm_num)]; rfl
      _ ≤ rounded v := mul_le_mul_of_nonneg_right hbound hunit.le

theorem rounded_le (hv : 0 < v) {d : ℚ} (hd : IsDouble d) (h : v ≤ d) : rounded v ≤ d := by
  have hunit := unit_pos v
  rcases hd.multiple_or_lt (exponentOf v) with ⟨n, rfl⟩ | ⟨hnormal, hlt⟩
  · rw [rounded]
    refine mul_le_mul_of_nonneg_right ?_ hunit.le
    exact_mod_cast nearestWhole_le (div_pos hv hunit).le ((div_le_iff₀ hunit).2 h)
  · have hbound := le_of_exponentOf hv hnormal
    have hstep : (0 : ℚ) < 2 ^ (exponentOf v - 1) := zpow_pos (by norm_num) _
    linarith

theorem IsDouble.rounded_eq {d : ℚ} (hd : IsDouble d) : rounded d = d :=
  le_antisymm (rounded_le hd.pos hd le_rfl) (le_rounded hd.pos hd le_rfl)

theorem exponentOf_le_of_rounded_lt (hv : 0 < v) {k : Int} (hk : -1021 ≤ k)
    (h : rounded v < 2 ^ k) : exponentOf v ≤ k - 53 := by
  refine exponentOf_le hv hk (not_le.1 fun hle => ?_)
  exact h.not_ge (le_rounded hv (isDouble_two_pow (by omega)) hle)

theorem abs_sub_div_unit (v : ℚ) (n : ℕ) :
    |(n : ℚ) - v / 2 ^ exponentOf v| = |n * 2 ^ exponentOf v - v| / 2 ^ exponentOf v := by
  have hunit := unit_pos v
  have hsplit : (n : ℚ) - v / 2 ^ exponentOf v = (n * 2 ^ exponentOf v - v) / 2 ^ exponentOf v := by
    rw [sub_div, mul_div_cancel_right₀ _ hunit.ne']
  rw [hsplit, abs_div, abs_of_pos hunit]

theorem rounded_of_near (hv : 0 < v) {d : ℚ} (hd : IsDouble d)
    (h : |d - v| < 2 ^ exponentOf v / 2) : rounded v = d := by
  have hunit := unit_pos v
  rcases hd.multiple_or_lt (exponentOf v) with ⟨n, rfl⟩ | ⟨hnormal, hlt⟩
  · rw [rounded, nearestWhole_of_near (div_pos hv hunit).le]
    rw [abs_sub_div_unit, div_lt_iff₀ hunit]
    linarith
  · have hbound := le_of_exponentOf hv hnormal
    have hhalf : (2 : ℚ) ^ (exponentOf v - 1) = 2 ^ exponentOf v / 2 := by
      rw [zpow_sub₀ (by norm_num)]
      norm_num
    rw [hhalf] at hlt
    have hlow := (abs_lt.1 h).1
    linarith

theorem rounded_of_even (hv : 0 < v) {n : ℕ} (heven : n % 2 = 0)
    (h : |n * 2 ^ exponentOf v - v| ≤ 2 ^ exponentOf v / 2) :
    rounded v = n * 2 ^ exponentOf v := by
  have hunit := unit_pos v
  rw [rounded, nearestWhole_of_even (div_pos hv hunit).le heven]
  rw [abs_sub_div_unit, div_le_iff₀ hunit]
  linarith

end Binary64
end ComplexAlgebra
