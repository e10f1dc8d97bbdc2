import ComplexAlgebra.Decimal
import ComplexAlgebra.Proofs.UnitArithmetic

/-! The double nearest to a positive rational number. Division of two magnitudes rounds their exact
quotient, so a numeral is read as the double nearest to its value, however many zeros it ends in;
and the shortest decimal of a double is read as that double. -/
namespace ComplexAlgebra

def Decimal.value (d : Decimal) : ℚ := d.digits / 10 ^ d.places

namespace Binary64

open Float.Model Float.Model.UnpackedFloat

/-- A magnitude cut off at its whole part: the bit behind it, and whether there is anything else. -/
def leading (r : ℚ) : ExtendedMantissa where
  mantissa := ⌊r⌋₊
  roundBit := ⌊2 * r⌋₊ % 2 != 0
  stickyBit := decide ((⌊2 * r⌋₊ : ℚ) ≠ 2 * r)

theorem floor_eq_iff_double (r : ℚ) :
    (⌊r⌋₊ : ℚ) = r ↔ ⌊2 * r⌋₊ % 2 = 0 ∧ (⌊2 * r⌋₊ : ℚ) = 2 * r := by
  constructor
  · intro h
    have hfloor : ⌊2 * r⌋₊ = 2 * ⌊r⌋₊ := by
      rw [← h]
      exact_mod_cast Nat.floor_natCast (R := ℚ) (2 * ⌊r⌋₊)
    rw [hfloor]
    exact ⟨Nat.mul_mod_right 2 _, by rw [Nat.cast_mul, h]; rfl⟩
  · rintro ⟨heven, h⟩
    have hr : r = ((⌊2 * r⌋₊ / 2 : ℕ) : ℚ) := by
      rw [Nat.cast_div (Nat.dvd_of_mod_eq_zero heven) (by norm_num), h]
      norm_num
    rw [hr, Nat.floor_natCast]

theorem shiftRightOne_leading (r : ℚ) : (leading r).shiftRightOne = leading (r / 2) := by
  have hdouble : 2 * (r / 2) = r := by ring
  have hhalf : ⌊r⌋₊ / 2 = ⌊r / 2⌋₊ := by
    exact_mod_cast (Nat.floor_div_ofNat r 2).symm
  have hsticky : (⌊2 * r⌋₊ % 2 != 0 || decide ((⌊2 * r⌋₊ : ℚ) ≠ 2 * r)) =
      decide ((⌊r⌋₊ : ℚ) ≠ r) := by
    rw [Bool.eq_iff_iff, Bool.or_eq_true, bne_iff_ne, decide_eq_true_iff, decide_eq_true_iff,
      ne_eq, ne_eq, ne_eq, floor_eq_iff_double r, not_and_or]
  simp only [ExtendedMantissa.shiftRightOne, leading, hdouble, hhalf]
  rw [hsticky]

theorem shiftRight_leading (r : ℚ) (k : Nat) : leading r >>> k = leading (r / 2 ^ k) := by
  induction k with
  | zero =>
    show leading r = _
    simp
  | succ k ih =>
    have hstep := congrArg ExtendedMantissa.shiftRightOne ih
    rw [shiftRightOne_leading, div_div, ← pow_succ] at hstep
    exact hstep

theorem leading_div_eq (n : Nat) {d : Nat} (hd : 0 < d) :
    leading (n / d) =
      ⟨n / d, 2 * (n % d) / d % 2 != 0, decide (2 * (n % d) % d ≠ 0)⟩ := by
  have hsplit : 2 * n = 2 * (n % d) + d * (2 * (n / d)) := by
    calc 2 * n = 2 * (d * (n / d) + n % d) := by rw [Nat.div_add_mod]
      _ = 2 * (n % d) + d * (2 * (n / d)) := by ring
  have hcast : 2 * ((n : ℚ) / d) = ((2 * n : ℕ) : ℚ) / d := by push_cast; ring
  have hround : 2 * n / d % 2 = 2 * (n % d) / d % 2 := by
    rw [hsplit, Nat.add_mul_div_left _ _ hd, Nat.add_mul_mod_self_left]
  have hsticky : ((2 * n / d : ℕ) : ℚ) = 2 * ((n : ℚ) / d) ↔ 2 * (n % d) % d = 0 := by
    have hmod : 2 * n % d = 2 * (n % d) % d := by rw [hsplit, Nat.add_mul_mod_self_left]
    have hdivmod := Nat.div_add_mod (2 * n) d
    rw [hcast, eq_div_iff (Nat.cast_ne_zero.2 hd.ne'), ← Nat.cast_mul, Nat.cast_inj,
      Nat.mul_comm, ← hmod]
    omega
  have hfloor : ⌊2 * ((n : ℚ) / d)⌋₊ = 2 * n / d := by rw [hcast, Nat.floor_div_eq_div]
  simp only [leading, Nat.floor_div_eq_div, hfloor, hround, ne_eq, hsticky]

theorem leading_div (n : Nat) {d : Nat} (hd : 0 < d) :
    ExtendedMantissa.ofMantissaAndAccuracy (n / d) (accuracyOfFraction (n % d) d) =
      leading (n / d) := by
  have hlt := Nat.mod_lt n hd
  rw [leading_div_eq n hd, accuracyOfFraction]
  split
  · next h0 => simp [ExtendedMantissa.ofMantissaAndAccuracy, h0]
  · next h0 =>
    rcases Nat.lt_trichotomy (2 * (n % d)) d with h | h | h
    · rw [Nat.compare_eq_lt.2 h]
      simp [ExtendedMantissa.ofMantissaAndAccuracy, Nat.div_eq_of_lt h, Nat.mod_eq_of_lt h, h0]
    · rw [Nat.compare_eq_eq.2 h]
      simp [ExtendedMantissa.ofMantissaAndAccuracy, h, Nat.div_self hd]
    · rw [Nat.compare_eq_gt.2 h]
      have hdiv : 2 * (n % d) / d = 1 := Nat.div_eq_of_lt_le (by omega) (by omega)
      have hrest : 2 * (n % d) % d ≠ 0 := by
        have := Nat.div_add_mod (2 * (n % d)) d
        rw [hdiv] at this
        omega
      simp [ExtendedMantissa.ofMantissaAndAccuracy, hdiv, hrest, -Nat.mul_mod_mod]

/-- The exponent that a double needs to hold a magnitude. -/
def exponentOf (v : ℚ) : Int := max (Int.log 2 v + 1 - 53) (-1074)

/-- The double with this sign that is nearest to a magnitude, ties to even. Magnitudes beyond the
largest double keep an exponent that no double has. -/
def nearest (s : Sign) (v : ℚ) : UnpackedFloat :=
  let significand := (leading (v / 2 ^ exponentOf v)).roundedMantissa
  let shifted := shiftToTargetExponent .binary64 significand (exponentOf v) .exact
  if h : shifted.1.mantissa = 0 then .zero s
  else .finite s shifted.1.mantissa shifted.2 (Nat.pos_of_ne_zero h)

theorem log_natCast_mul_zpow {n : Nat} (hn : n ≠ 0) {v : ℚ} {t : Int}
    (hle : (n : ℚ) * 2 ^ t ≤ v) (hlt : v < (n + 1) * 2 ^ t) : Int.log 2 v = n.log2 + t := by
  have hpos : (0 : ℚ) < 2 ^ t := zpow_pos (by norm_num) t
  have hv : 0 < v := lt_of_lt_of_le (mul_pos (Nat.cast_pos.2 (Nat.pos_of_ne_zero hn)) hpos) hle
  have hlow : (2 : ℚ) ^ ((n.log2 : Int) + t) ≤ v := by
    rw [zpow_add₀ (by norm_num), zpow_natCast]
    refine le_trans (mul_le_mul_of_nonneg_right ?_ hpos.le) hle
    exact_mod_cast Nat.log2_self_le hn
  have hhigh : v < (2 : ℚ) ^ ((n.log2 : Int) + t + 1) := by
    rw [show (n.log2 : Int) + t + 1 = ((n.log2 + 1 : ℕ) : Int) + t by push_cast; ring,
      zpow_add₀ (by norm_num), zpow_natCast]
    refine lt_of_lt_of_le hlt (mul_le_mul_of_nonneg_right ?_ hpos.le)
    exact_mod_cast Nat.lt_log2_self
  refine le_antisymm ?_ ?_
  · exact Int.lt_add_one_iff.1
      ((Int.lt_zpow_iff_log_lt (by norm_num) hv).1 (by exact_mod_cast hhigh))
  · exact (Int.zpow_le_iff_le_log (by norm_num) hv).1 (by exact_mod_cast hlow)

/-- A fraction in units fine enough is rounded to the nearest double. -/
theorem roundWithAccuracy_eq_nearest (s : Sign) {n d : Nat} (hn : 0 < n) (hd : 0 < d) {t : Int}
    {v : ℚ} (hv : v = n / d * 2 ^ t) (ht : t ≤ exponentOf v) :
    roundWithAccuracy .binary64 s (n / d) t (accuracyOfFraction (n % d) d) = nearest s v := by
  have hd' : (0 : ℚ) < d := Nat.cast_pos.2 hd
  have hpos : (0 : ℚ) < 2 ^ t := zpow_pos (by norm_num) t
  have hfrac : (0 : ℚ) < n / d := div_pos (Nat.cast_pos.2 hn) hd'
  have hle : ((n / d : ℕ) : ℚ) * 2 ^ t ≤ v := by
    rw [hv]
    exact mul_le_mul_of_nonneg_right Nat.cast_div_le hpos.le
  have hlt : v < ((n / d : ℕ) + 1) * 2 ^ t := by
    rw [hv]
    refine mul_lt_mul_of_pos_right ?_ hpos
    rw [← Nat.floor_div_eq_div (K := ℚ)]
    exact Nat.lt_floor_add_one _
  have htarget : Format.binary64.targetExponent (totalExponent (n / d) t) = exponentOf v := by
    show max (((n / d).log2 + 1 + t : Int) - 53) (-1074) = _
    by_cases h0 : n / d = 0
    · -- Only the least exponent is coarse enough for a magnitude below the unit.
      have hlog : Int.log 2 v < t := by
        rw [h0, Nat.cast_zero, zero_add, one_mul] at hlt
        refine (Int.lt_zpow_iff_log_lt (by norm_num) ?_).1 (by exact_mod_cast hlt)
        rw [hv]
        exact mul_pos hfrac hpos
      rw [exponentOf] at ht ⊢
      rw [h0]
      simp only [Nat.log2_zero]
      omega
    · rw [exponentOf, log_natCast_mul_zpow h0 hle hlt]
      congr 1
      ring
  have hshift : shiftToTargetExponent .binary64 (n / d) t (accuracyOfFraction (n % d) d) =
      (leading (v / 2 ^ exponentOf v), exponentOf v) := by
    have hk : t + ((exponentOf v - t).toNat : Int) = exponentOf v := by omega
    have hunits : (n / d : ℚ) / 2 ^ (exponentOf v - t).toNat = v / 2 ^ exponentOf v := by
      rw [hv, ← zpow_natCast, ← hv, div_eq_div_iff (by positivity) (by positivity), hv,
        mul_assoc, ← zpow_add₀ (by norm_num), ← hv, hk]
    simp only [shiftToTargetExponent, htarget, shiftToExponent, leading_div n hd,
      shiftRight_leading, hunits, hk]
  simp only [roundWithAccuracy, hshift, nearest]

theorem le_log_div {m n : Nat} (p q : Int) (hm : 0 < m) (hn : 0 < n) :
    (m.log2 : Int) + p - (n.log2 + 1) - q ≤ Int.log 2 ((m : ℚ) * 2 ^ p / (n * 2 ^ q)) := by
  have hm' : (0 : ℚ) < m := Nat.cast_pos.2 hm
  have hn' : (0 : ℚ) < n := Nat.cast_pos.2 hn
  have hlow : (2 : ℚ) ^ m.log2 ≤ m := by exact_mod_cast Nat.log2_self_le hm.ne'
  have hhigh : (n : ℚ) ≤ 2 ^ (n.log2 + 1) := by exact_mod_cast Nat.lt_log2_self.le
  have hpow : ((2 : ℕ) : ℚ) ^ ((m.log2 : Int) + p - (n.log2 + 1) - q) =
      2 ^ m.log2 * 2 ^ p / (2 ^ (n.log2 + 1) * 2 ^ q) := by
    rw [← zpow_natCast, ← zpow_natCast, ← zpow_add₀ (by norm_num), ← zpow_add₀ (by norm_num),
      ← zpow_sub₀ (by norm_num)]
    push_cast
    congr 1
    ring
  refine (Int.zpow_le_iff_le_log (by norm_num) (by positivity)).1 ?_
  rw [hpow]
  gcongr

/-- Division rounds the exact quotient. -/
theorem div_eq_nearest (s t : Sign) {m n : Nat} (p q : Int) (hm : 0 < m) (hn : 0 < n) :
    UnpackedFloat.div .binary64 (.finite s m p hm) (.finite t n q hn) =
      nearest (s / t) (m * 2 ^ p / (n * 2 ^ q)) := by
  have hn' : (0 : ℚ) < n := Nat.cast_pos.2 hn
  obtain ⟨u, hu⟩ : ∃ u, min (p - q)
      (Format.binary64.targetExponent (totalExponent m p - totalExponent n q)) = u := ⟨_, rfl⟩
  have hle : u ≤ p - q := hu ▸ min_le_left _ _
  have hvalue : (m : ℚ) * 2 ^ p / (n * 2 ^ q) =
      ((m * 2 ^ (p - q - u).toNat : ℕ) : ℚ) / n * 2 ^ u := by
    have hsplit : (2 : ℚ) ^ p = 2 ^ (p - q - u).toNat * 2 ^ u * 2 ^ q := by
      rw [← zpow_natCast, ← zpow_add₀ (by norm_num), ← zpow_add₀ (by norm_num)]
      congr 1
      omega
    have hq : (2 : ℚ) ^ q ≠ 0 := zpow_ne_zero q (by norm_num)
    rw [hsplit]
    push_cast
    field_simp
  have hfine : u ≤ exponentOf (m * 2 ^ p / (n * 2 ^ q)) := by
    have hlog := le_log_div p q hm hn
    have htarget : u ≤ max ((m.log2 + 1 + p : Int) - (n.log2 + 1 + q) - 53) (-1074) :=
      hu ▸ min_le_right _ _
    rw [exponentOf]
    omega
  have hshift : 0 < m * 2 ^ (p - q - u).toNat := Nat.mul_pos hm (Nat.two_pow_pos _)
  have hround := roundWithAccuracy_eq_nearest (s / t) hshift hn hvalue hfine
  simp only [UnpackedFloat.div, divCore, hu, Nat.shiftLeft_eq]
  exact hround

/-- So does multiplication, if the product's last place is not beyond the least one it needs. -/
theorem mul_eq_nearest (s t : Sign) {m n : Nat} (p q : Int) (hm : 0 < m) (hn : 0 < n)
    (h : p + q ≤ exponentOf (m * 2 ^ p * (n * 2 ^ q))) :
    UnpackedFloat.mul .binary64 (.finite s m p hm) (.finite t n q hn) =
      nearest (s * t) (m * 2 ^ p * (n * 2 ^ q)) := by
  have hvalue : (m : ℚ) * 2 ^ p * (n * 2 ^ q) = ((m * n : ℕ) : ℚ) / (1 : ℕ) * 2 ^ (p + q) := by
    rw [zpow_add₀ (by norm_num)]
    push_cast
    ring
  have hround := roundWithAccuracy_eq_nearest (s * t) (Nat.mul_pos hm hn) Nat.one_pos hvalue h
  rwa [Nat.div_one, Nat.mod_one] at hround

theorem Canonical.nearest_eq {m : Nat} {q : Int} (h : Canonical m q) (s : Sign) :
    nearest s (m * 2 ^ q) = .finite s m q h.pos := by
  have hfine : q ≤ exponentOf (m * 2 ^ q) := by
    have htarget := h.targetExponent_eq 0
    rw [exponentOf, log_natCast_mul_zpow h.pos.ne' le_rfl (by
      have : (0 : ℚ) < 2 ^ q := zpow_pos (by norm_num) q
      linarith)]
    have hmax : max (((m * 2 ^ 0).log2 + 1 + (q - (0 : Nat)) : Int) - 53) (-1074) = q := htarget
    simp only [Nat.pow_zero, Nat.mul_one] at hmax
    omega
  have hround := roundWithAccuracy_eq_nearest s h.pos Nat.one_pos (t := q)
    (v := m * 2 ^ q) (by simp) hfine
  have hexact := h.roundWithAccuracy_eq s 0
  simp only [Nat.pow_zero, Nat.mul_one, Int.natCast_zero, Int.sub_zero] at hexact
  rw [Nat.div_one, Nat.mod_one] at hround
  exact hround.symm.trans hexact

theorem unpackSign_packComponents (s : Sign) (e : BitVec 11) (v : BitVec 52) :
    unpackSign (packComponents .binary64 s e v) = s.toBitVec := by
  cases s <;>
  · refine BitVec.eq_of_getElem_eq fun i hi => ?_
    obtain rfl : i = 0 := by omega
    simp only [unpackSign, packComponents, BitVec.extractLsb, Sign.toBitVec]
    grind

theorem unpack_pack {m : Nat} {q : Int} (h : Canonical m q) (hq : q ≤ 971) (s : Sign) :
    (Float.Model.pack (.finite s m q h.pos)).unpack = .finite s m q h.pos := by
  have hsign : Sign.ofBitVec s.toBitVec = s := by cases s <;> rfl
  show UnpackedFloat.unpack .binary64 (UnpackedFloat.pack .binary64 (.finite s m q h.pos)) = _
  by_cases hm : m < 2 ^ 52
  · obtain rfl := h.normal.resolve_left (by omega)
    obtain ⟨v, rfl⟩ : ∃ v : BitVec 52, v.toNat = m :=
      ⟨BitVec.ofNat 52 m, by rw [BitVec.toNat_ofNat, Nat.mod_eq_of_lt hm]⟩
    have hne : v ≠ 0#52 := fun h0 => h.pos.ne (by rw [h0]; rfl)
    rw [pack_subnormal s v h.pos, UnpackedFloat.unpack]
    simp only [unpackExponent_packComponents, unpackMantissa_packComponents,
      unpackSign_packComponents, hsign]
    rw [if_neg (by decide), if_pos trivial, dif_neg hne]
    rfl
  · have hleast := h.least_le
    have hlt := h.lt
    obtain ⟨v, rfl⟩ : ∃ v : BitVec 52, (1#1 ++ v).toNat = m := by
      refine ⟨BitVec.ofNat 52 m, ?_⟩
      rw [toNat_implicit, BitVec.toNat_ofNat]
      omega
    obtain ⟨e, he, rfl⟩ : ∃ e : BitVec 11, 0 < e.toNat ∧ (e.toNat : Int) - 1075 = q := by
      refine ⟨BitVec.ofNat 11 (q + 1075).toNat, ?_, ?_⟩ <;> rw [BitVec.toNat_ofNat] <;> omega
    have hnotZero : e ≠ 0#11 := fun h0 => he.ne (by rw [h0]; rfl)
    have hnotLast : e ≠ -1#11 := fun h0 => by rw [h0] at hq; exact absurd hq (by decide)
    rw [pack_normal s e v (by omega) h.pos, UnpackedFloat.unpack]
    simp only [unpackExponent_packComponents, unpackMantissa_packComponents,
      unpackSign_packComponents, hsign]
    rw [if_neg hnotLast, if_neg hnotZero]
    rfl

theorem pack_of_exponent_gt {m : Nat} {q : Int} (hm : 0 < m) (hq : 971 < q) (s : Sign) :
    Float.Model.pack (.finite s m q hm) = Float.Model.pack (.infinity s) := by
  have hbiased : 2 ^ Format.binary64.exponentBits ≤
      (q + Format.binary64.exponentBias + Format.binary64.mantissaBitsWithoutImplicit).toNat
        + 1 := by
    show 2 ^ 11 ≤ (q + 1023 + 52).toNat + 1
    omega
  have hinfinite : UnpackedFloat.pack .binary64 (.finite s m q hm) =
      UnpackedFloat.pack .binary64 (.infinity s) := by
    rw [UnpackedFloat.pack, UnpackedFloat.pack]
    exact if_pos hbiased
  simp only [Float.Model.pack, hinfinite]

theorem exponent_le {x : Float.Model} {s : Sign} {m : Nat} {q : Int} {hm : 0 < m}
    (h : x.unpack = .finite s m q hm) : q ≤ 971 := by
  by_contra hq
  have hpacked := pack_of_exponent_gt hm (not_le.1 hq) s
  have hunpacked : (Float.Model.pack (.infinity s)).unpack = .infinity s := by cases s <;> rfl
  have hx : x = Float.Model.pack (.infinity s) := by rw [← hpacked, ← h, pack_unpack]
  rw [hx, hunpacked] at h
  cases h

end Binary64
end ComplexAlgebra
