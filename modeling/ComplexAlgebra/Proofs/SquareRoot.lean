import ComplexAlgebra.Proofs.CorrectRounding

/-! The range of square roots. The root of an exact number is computed to more bits than a double
has, with a mark of what is left, and rounded once. So the root of a double is always finite, and a
hypotenuse is finite whenever its exact length is within the range, although the squares may not
be. -/
namespace ComplexAlgebra
namespace Binary64

open Float.Model Float.Model.UnpackedFloat

/-- The root of a whole number in quarters: exact, or at one or three quarters behind the whole
part, for what is less or more than a half. -/
def rootQuarters (k : ℕ) : ℕ :=
  4 * k.sqrt + if k - k.sqrt * k.sqrt = 0 then 0 else if k - k.sqrt * k.sqrt ≤ k.sqrt then 1 else 3

theorem rootQuarters_div (k : ℕ) : rootQuarters k / 4 = k.sqrt := by
  rw [rootQuarters]
  split
  · omega
  · split <;> omega

/-- The quarters say how much of a root is left behind its whole part. -/
theorem accuracyOfFraction_rootQuarters (k : ℕ) : accuracyOfFraction (rootQuarters k % 4) 4 =
    if k - k.sqrt * k.sqrt = 0 then .exact
    else .inexact (if k - k.sqrt * k.sqrt ≤ k.sqrt then .lt else .gt) := by
  rw [rootQuarters, Nat.mul_add_mod]
  split
  · rfl
  · split <;> rfl

theorem rootQuarters_lt_iff (k j : ℕ) : rootQuarters k < 2 * j ↔ 4 * k < j * j := by
  have hlow : k.sqrt * k.sqrt ≤ k := Nat.sqrt_le k
  have hhigh : k < (k.sqrt + 1) * (k.sqrt + 1) := Nat.lt_succ_sqrt k
  rw [rootQuarters]
  generalize k.sqrt = r at *
  obtain ⟨rest, rfl⟩ : ∃ rest, k = r * r + rest := ⟨k - r * r, by omega⟩
  have hrest : r * r + rest - r * r = rest := by omega
  have hfew : rest ≤ 2 * r := by nlinarith
  rw [hrest]
  obtain ⟨i, rfl | rfl⟩ := Nat.even_or_odd' j
  · -- a whole number: the part behind the point does not matter
    have hquarters : 4 * r + (if rest = 0 then 0 else if rest ≤ r then 1 else 3) < 2 * (2 * i) ↔
        r < i := by
      split
      · omega
      · split <;> omega
    rw [hquarters]
    constructor
    · intro h
      nlinarith [Nat.mul_le_mul h h]
    · intro h
      by_contra hge
      nlinarith [Nat.mul_le_mul (not_lt.1 hge) (not_lt.1 hge)]
  · have hquarters : 4 * r + (if rest = 0 then 0 else if rest ≤ r then 1 else 3) < 2 * (2 * i + 1) ↔
        r < i ∨ r = i ∧ rest ≤ r := by
      split
      · omega
      · split <;> omega
    rw [hquarters]
    constructor
    · rintro (h | ⟨rfl, h⟩)
      · nlinarith [Nat.mul_le_mul h h]
      · nlinarith
    · intro h
      rcases lt_trichotomy r i with hlt | rfl | hgt
      · exact .inl hlt
      · refine .inr ⟨rfl, ?_⟩
        by_contra hmore
        nlinarith
      · nlinarith [Nat.mul_le_mul hgt hgt]

theorem rootQuarters_pos {k : ℕ} (hk : 0 < k) : 0 < rootQuarters k := by
  have hroot := Nat.sqrt_pos.2 hk
  rw [rootQuarters]
  omega

theorem le_exponentOf_root {m : ℕ} (hm : 0 < m) {q t : Int} {shift : ℕ}
    (hshift : (shift : Int) = q - 2 * t)
    (ht : t ≤ max (((m.log2 + 1 + q : Int) + 1) / 2 - 53) (-1074)) :
    t ≤ exponentOf ((rootQuarters (m * 2 ^ shift) : ℚ) / 4 * 2 ^ t) := by
  have hk : 0 < m * 2 ^ shift := Nat.mul_pos hm (Nat.two_pow_pos _)
  generalize hkv : m * 2 ^ shift = k at hk ⊢
  have hlog : k.log2 = m.log2 + shift := hkv ▸ log2_mul_two_pow hm shift
  have hunit : (0 : ℚ) < 2 ^ t := zpow_pos (by norm_num) t
  have hroot : 2 ^ (k.log2 / 2) ≤ k.sqrt := by
    rw [Nat.le_sqrt', ← pow_mul]
    exact (Nat.pow_le_pow_right (by norm_num) (by omega)).trans (Nat.log2_self_le hk.ne')
  have hquarters : 4 * 2 ^ (k.log2 / 2) ≤ rootQuarters k := by
    rw [rootQuarters]
    omega
  have hlow : (2 : ℚ) ^ (((k.log2 / 2 : ℕ) : Int) + t) ≤ (rootQuarters k : ℚ) / 4 * 2 ^ t := by
    rw [zpow_add₀ (by norm_num), zpow_natCast]
    refine mul_le_mul_of_nonneg_right ?_ hunit.le
    rw [le_div_iff₀ (by norm_num), mul_comm]
    exact_mod_cast hquarters
  have hbits := (Int.zpow_le_iff_le_log (b := 2) (by norm_num)
    ((zpow_pos (by norm_num) _).trans_le hlow)).1 (by exact_mod_cast hlow)
  rw [exponentOf]
  omega

/-- The root of a magnitude is rounded once, from its quarters in units that are fine enough. -/
theorem sqrt_eq_nearest {m : ℕ} (hm : 0 < m) (q : Int) :
    ∃ (k : ℕ) (t : Int), 0 < k ∧ (m : ℚ) * 2 ^ q = k * (2 ^ t) ^ 2 ∧
      t ≤ exponentOf ((rootQuarters k : ℚ) / 4 * 2 ^ t) ∧
      UnpackedFloat.sqrt .binary64 (.finite .positive m q hm) =
        nearest .positive ((rootQuarters k : ℚ) / 4 * 2 ^ t) := by
  obtain ⟨t, ht⟩ : ∃ t, min (q.ediv 2)
      (Format.binary64.targetExponent ((totalExponent m q + 1).ediv 2)) = t := ⟨_, rfl⟩
  have hhalf : t ≤ q / 2 := ht ▸ min_le_left _ _
  have hfine : t ≤ max (((m.log2 + 1 + q : Int) + 1) / 2 - 53) (-1074) := ht ▸ min_le_right _ _
  obtain ⟨shift, hshift⟩ : ∃ shift, (q - 2 * t).toNat = shift := ⟨_, rfl⟩
  have hk : 0 < m * 2 ^ shift := Nat.mul_pos hm (Nat.two_pow_pos _)
  refine ⟨m * 2 ^ shift, t, hk, ?_, ?_, ?_⟩
  · push_cast
    rw [← zpow_natCast (2 : ℚ) shift, ← zpow_natCast _ 2, ← zpow_mul, mul_assoc,
      ← zpow_add₀ (by norm_num)]
    congr 2
    push_cast
    omega
  · exact le_exponentOf_root hm (by omega) hfine
  · have hround := roundWithAccuracy_eq_nearest .positive (rootQuarters_pos hk) (by norm_num)
      (t := t) rfl (le_exponentOf_root hm (by omega) hfine)
    rw [rootQuarters_div, accuracyOfFraction_rootQuarters] at hround
    simp only [UnpackedFloat.sqrt, sqrtCore, ht, hshift, Nat.shiftLeft_eq]
    exact hround

theorem root_lt_threshold_iff {k : ℕ} (hk : 0 < k) {t : Int}
    (ht : t ≤ exponentOf ((rootQuarters k : ℚ) / 4 * 2 ^ t)) :
    (rootQuarters k : ℚ) / 4 * 2 ^ t < threshold ↔ (k : ℚ) * (2 ^ t) ^ 2 < threshold ^ 2 := by
  have hunit : (0 : ℚ) < 2 ^ t := zpow_pos (by norm_num) t
  rcases le_or_gt t 971 with hfine | hcoarse
  · -- the threshold is a whole number of halves of the unit
    obtain ⟨d, hd⟩ : ∃ d : ℕ, (970 : Int) = d + (t - 1) := ⟨(971 - t).toNat, by omega⟩
    have hhalves : threshold = ((2 ^ 54 - 1) * 2 ^ d : ℕ) * (2 ^ t / 2) := by
      rw [threshold_eq_mul, hd, zpow_add₀ (by norm_num), zpow_natCast, zpow_sub_one₀ (by norm_num)]
      push_cast
      ring
    rw [hhalves]
    generalize (2 ^ 54 - 1) * 2 ^ d = j
    have hquarters : (rootQuarters k : ℚ) / 4 * 2 ^ t < j * (2 ^ t / 2) ↔
        rootQuarters k < 2 * j := by
      have hleft : (rootQuarters k : ℚ) / 4 * 2 ^ t = rootQuarters k * (2 ^ t / 4) := by ring
      have hright : (j : ℚ) * (2 ^ t / 2) = (2 * j : ℕ) * (2 ^ t / 4) := by
        push_cast
        ring
      rw [hleft, hright, mul_lt_mul_iff_left₀ (by positivity), Nat.cast_lt]
    have hsquares : (k : ℚ) * (2 ^ t) ^ 2 < (j * (2 ^ t / 2)) ^ 2 ↔ 4 * k < j * j := by
      have hleft : (k : ℚ) * (2 ^ t) ^ 2 = (4 * k : ℕ) * ((2 ^ t) ^ 2 / 4) := by
        push_cast
        ring
      have hright : ((j : ℚ) * (2 ^ t / 2)) ^ 2 = (j * j : ℕ) * ((2 ^ t) ^ 2 / 4) := by
        push_cast
        ring
      rw [hleft, hright, mul_lt_mul_iff_left₀ (by positivity), Nat.cast_lt]
    rw [hquarters, hsquares]
    exact rootQuarters_lt_iff k j
  · have hlow : (2 : ℚ) ^ (t + 52) ≤ (rootQuarters k : ℚ) / 4 * 2 ^ t := by
      refine le_trans (zpow_le_zpow_right₀ (by norm_num) (by omega))
        (le_of_exponentOf ?_ (by omega))
      have hpos : (0 : ℚ) < rootQuarters k := by exact_mod_cast rootQuarters_pos hk
      positivity
    have hmany : 2 ^ 104 ≤ k := by
      have hquarters : ((2 * 2 ^ 53 : ℕ) : ℚ) ≤ rootQuarters k := by
        rw [zpow_add₀ (by norm_num), mul_comm, mul_le_mul_iff_left₀ hunit,
          le_div_iff₀ (by norm_num)] at hlow
        norm_num at hlow ⊢
        exact hlow
      have hroot := mt (rootQuarters_lt_iff k (2 ^ 53)).2 (not_lt.2 (by exact_mod_cast hquarters))
      omega
    have hbeyond : threshold ≤ 2 ^ (t + 52) :=
      threshold_lt_limit.le.trans (zpow_le_zpow_right₀ (by norm_num) (by omega))
    refine iff_of_false (not_lt.2 (hbeyond.trans hlow)) (not_lt.2 ?_)
    calc threshold ^ 2 ≤ (2 ^ (t + 52)) ^ 2 := pow_le_pow_left₀ threshold_pos.le hbeyond 2
      _ = (2 : ℚ) ^ 104 * (2 ^ t) ^ 2 := by
        rw [zpow_add₀ (by norm_num), mul_pow, mul_comm]
        norm_num
      _ ≤ k * (2 ^ t) ^ 2 := by
        refine mul_le_mul_of_nonneg_right ?_ (sq_nonneg _)
        exact_mod_cast hmany

theorem isFinite_pack_sqrt_iff {m : ℕ} (hm : 0 < m) (q : Int) :
    (Float.ofModel (.pack (UnpackedFloat.sqrt .binary64 (.finite .positive m q hm)))).isFinite =
      true ↔ (m : ℚ) * 2 ^ q < threshold ^ 2 := by
  obtain ⟨k, t, hk, hvalue, ht, hsqrt⟩ := sqrt_eq_nearest hm q
  have hpos : (0 : ℚ) < (rootQuarters k : ℚ) / 4 * 2 ^ t := by
    have hquarters : (0 : ℚ) < rootQuarters k := by exact_mod_cast rootQuarters_pos hk
    positivity
  rw [hsqrt, (roundsTo_nearest .positive hpos).isFinite_iff, withSign, abs_of_pos hpos, hvalue]
  exact root_lt_threshold_iff hk ht

variable {x y : Float}

theorem isFinite_sqrt_iff (hx : x.isFinite = true → 0 ≤ exactValue x) :
    x.sqrt.isFinite = true ↔ x.isFinite = true := by
  constructor
  · intro hroot
    have hunpacked : (UnpackedFloat.sqrt .binary64 x.toModel.unpack).isFinite = true :=
      isFinite_of_pack hroot
    show x.toModel.unpack.isFinite = true
    cases hu : x.toModel.unpack with
    | infinity s =>
      rw [hu] at hunpacked
      cases s <;> cases hunpacked
    | notANumber =>
      rw [hu] at hunpacked
      cases hunpacked
    | _ => rfl
  · intro hfinite
    show (Float.ofModel (.pack (UnpackedFloat.sqrt .binary64 x.toModel.unpack))).isFinite = true
    have hnonneg := hx hfinite
    have hrange := abs_exactValue_lt x
    rcases unpack_cases_of_isFinite hfinite with ⟨s, hu, -⟩ | ⟨s, m, q, hm, hu, hvalue⟩
    · rw [hu]
      cases s <;> rfl
    · have hpos : (0 : ℚ) < m * 2 ^ q :=
        mul_pos (Nat.cast_pos.2 hm) (zpow_pos (by norm_num) q)
      rw [hvalue] at hnonneg hrange
      cases s with
      | negative => exact absurd hnonneg (not_le.2 (neg_neg_of_pos hpos))
      | positive =>
        rw [hu, isFinite_pack_sqrt_iff]
        rw [abs_withSign hpos.le] at hrange
        have hone : 1 ≤ threshold :=
          (one_le_zpow₀ (by norm_num) (by norm_num)).trans two_pow_le_threshold
        nlinarith

theorem isFinite_hypotenuse_iff (hx : x.isFinite = true) (hy : y.isFinite = true) :
    (hypotenuse x y).isFinite = true ↔
      exactValue x ^ 2 + exactValue y ^ 2 < threshold ^ 2 := by
  have hsquare (z : Float) : exactValue z ^ 2 < threshold ^ 2 :=
    sq_lt_sq' (abs_lt.1 (abs_exactValue_lt z)).1 (abs_lt.1 (abs_exactValue_lt z)).2
  have habs {z : Float} (hz : z.isFinite = true) : z.abs.isFinite = true := by
    rcases exists_hasMagnitude hz with h0 | ⟨s, v, h⟩
    · rcases eq_zero_of_rank h0 with rfl | rfl <;> decide
    · exact h.abs.isFinite
  rw [hypotenuse, isInf_of_isFinite hx, isInf_of_isFinite hy, Bool.or_self,
    if_neg Bool.false_ne_true]
  rcases unpack_cases_of_isFinite hx with ⟨s, hxu, -, hxv⟩ | ⟨s, m, p, hm, hxu, hxv⟩
  · refine iff_of_true ?_ ?_
    · rcases unpack_cases_of_isFinite hy with ⟨t, hyu, -⟩ | ⟨t, n, q, hn, hyu, -⟩ <;>
        rw [hxu, hyu] <;> exact habs hy
    · rw [hxv]
      simpa using hsquare y
  rcases unpack_cases_of_isFinite hy with ⟨t, hyu, -, hyv⟩ | ⟨t, n, q, hn, hyu, hyv⟩
  · refine iff_of_true ?_ ?_
    · rw [hxu, hyu]
      exact habs hx
    · rw [hyv]
      simpa using hsquare x
  · have hshift (k : ℕ) {e u : Int} (hu : u ≤ 2 * e) :
        ((((k * k) <<< (2 * e - u).toNat : ℕ) : ℚ)) * 2 ^ u = (k * 2 ^ e) ^ 2 := by
      rw [Nat.shiftLeft_eq]
      push_cast
      rw [mul_assoc, ← zpow_natCast, ← zpow_add₀ (by norm_num), mul_pow, sq, ← zpow_natCast _ 2,
        ← zpow_mul]
      congr 2
      push_cast
      omega
    have hsum : 0 < (m * m) <<< (2 * p - min (2 * p) (2 * q)).toNat +
        (n * n) <<< (2 * q - min (2 * p) (2 * q)).toNat := by
      refine Nat.add_pos_left ?_ _
      rw [Nat.shiftLeft_eq]
      positivity
    have hexact := congrArg₂ (· + ·) (hshift m (min_le_left (2 * p) (2 * q)))
      (hshift n (min_le_right (2 * p) (2 * q)))
    have hsq (s : Sign) (v : ℚ) : withSign s v ^ 2 = v ^ 2 := by
      cases s with
      | positive => rfl
      | negative => exact neg_sq v
    rw [hxu, hyu, hxv, hyv, hsq, hsq]
    simp only [dif_pos hsum]
    simp only [← add_mul, ← Nat.cast_add] at hexact
    rw [← hexact]
    exact isFinite_pack_sqrt_iff hsum _

end Binary64
end ComplexAlgebra
