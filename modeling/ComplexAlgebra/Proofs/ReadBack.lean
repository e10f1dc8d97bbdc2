import ComplexAlgebra.Proofs.NearestDouble

/-! Numerals read as doubles. A numeral denotes the double nearest to its value, by the exact
quotient of two doubles where there are such and by exact arithmetic everywhere else; so equal
values read as the same double, and the shortest numeral of a double reads as that double. -/
namespace ComplexAlgebra
namespace Binary64

open Float.Model Float.Model.UnpackedFloat

def nearestTo (d : Decimal) : UnpackedFloat :=
  if d.digits = 0 then .zero .positive else nearest .positive d.value

/-- The positive double with this value. -/
def Holds (u : UnpackedFloat) (v : ℚ) : Prop :=
  ∃ m q, ∃ h : 0 < m, u = .finite .positive m q h ∧ (m : ℚ) * 2 ^ q = v

def isNatural (n : Nat) : UnpackedFloat → Bool
  | .finite .positive m q _ => m * 2 ^ q.toNat == n * 2 ^ (-q).toNat
  | _ => false

theorem mul_zpow_eq_div (m : ℚ) (q : Int) : m * 2 ^ q = m * 2 ^ q.toNat / 2 ^ (-q).toNat := by
  rw [mul_div_assoc, ← zpow_natCast, ← zpow_natCast, ← zpow_sub₀ (by norm_num)]
  congr 2
  omega

theorem holds_of_isNatural {n : Nat} {u : UnpackedFloat} (h : isNatural n u = true) :
    Holds u n := by
  match u, h with
  | .finite .positive m q hm, h =>
    have heq : (m : ℚ) * 2 ^ q.toNat = n * 2 ^ (-q).toNat := by
      exact_mod_cast (beq_iff_eq.1 h : m * 2 ^ q.toNat = n * 2 ^ (-q).toNat)
    refine ⟨m, q, hm, rfl, ?_⟩
    rw [mul_zpow_eq_div, heq, mul_div_assoc, div_self (pow_ne_zero _ (by norm_num))]
    exact MulOneClass.mul_one _

theorem isNatural_powerOfTen : ∀ k : Fin Float.exactlyRepresentablePowersOfTen.size,
    isNatural (10 ^ k.val)
      Float.exactlyRepresentablePowersOfTen[k].toModel.unpack = true := by
  decide

theorem holds_powerOfTen {places : Nat} (h : places < Float.exactlyRepresentablePowersOfTen.size) :
    Holds Float.exactlyRepresentablePowersOfTen[places].toModel.unpack (10 ^ places) := by
  exact_mod_cast holds_of_isNatural (isNatural_powerOfTen ⟨places, h⟩)

theorem canonical_natCast {n : Nat} (hn : 0 < n) (hlt : n < 2 ^ 53) :
    Canonical (n * 2 ^ (52 - n.log2)) (0 - (52 - n.log2 : Nat)) := by
  have hlog : n.log2 < 53 := (Nat.log2_lt hn.ne').2 hlt
  have hlow := Nat.log2_self_le hn.ne'
  have hhigh : n < 2 ^ (n.log2 + 1) := Nat.lt_log2_self
  have hsplit : 2 ^ n.log2 * 2 ^ (52 - n.log2) = 2 ^ 52 := by
    rw [← Nat.pow_add]
    congr 1
    omega
  have hpos := Nat.two_pow_pos (52 - n.log2)
  refine ⟨Nat.mul_pos hn hpos, ?_, by omega, .inl ?_⟩
  · calc n * 2 ^ (52 - n.log2) < 2 ^ (n.log2 + 1) * 2 ^ (52 - n.log2) :=
          Nat.mul_lt_mul_of_pos_right hhigh hpos
      _ = 2 ^ 53 := by rw [Nat.pow_succ, Nat.mul_right_comm, hsplit]; rfl
  · calc 2 ^ 52 = 2 ^ n.log2 * 2 ^ (52 - n.log2) := hsplit.symm
      _ ≤ n * 2 ^ (52 - n.log2) := Nat.mul_le_mul_right _ hlow

theorem holds_toFloat {n : Nat} (hn : 0 < n) (hlt : n < 2 ^ 53) :
    Holds n.toUInt64.toFloat.toModel.unpack n := by
  have hlog : n.log2 < 53 := (Nat.log2_lt hn.ne').2 hlt
  have hword : n.toUInt64.toNat = n := Nat.mod_eq_of_lt (by omega)
  have hc := canonical_natCast hn hlt
  have hround : UnpackedFloat.round .binary64 .positive n 0 =
      .finite .positive (n * 2 ^ (52 - n.log2)) (0 - (52 - n.log2 : Nat)) hc.pos := by
    have htarget : (0 - Format.binary64.targetExponent (totalExponent n 0)).toNat =
        52 - n.log2 := by
      show (0 - max ((n.log2 + 1 + 0 : Int) - 53) (-1074)).toNat = 52 - n.log2
      omega
    have hexact := hc.roundWithAccuracy_eq .positive 0
    rw [Nat.pow_zero, Nat.mul_one, Int.natCast_zero, Int.sub_zero] at hexact
    simp only [UnpackedFloat.round, decreaseExponent, htarget, Nat.shiftLeft_eq, hexact]
  have hpacked : n.toUInt64.toFloat = .ofModel (.pack (.finite .positive
      (n * 2 ^ (52 - n.log2)) (0 - (52 - n.log2 : Nat)) hc.pos)) := by
    show Float.ofModel (.pack
      (UnpackedFloat.normalize .binary64 (n.toUInt64.toNat : Int) 0 .positive)) = _
    rw [hword, UnpackedFloat.normalize,
      show compare (n : Int) 0 = .gt from Int.compare_eq_gt.2 (by omega),
      Int.toNat_natCast, hround]
  have hunpacked := unpack_pack hc (by omega) .positive
  refine ⟨_, _, hc.pos, (congrArg (·.toModel.unpack) hpacked).trans hunpacked, ?_⟩
  rw [Int.zero_sub, zpow_neg, zpow_natCast]
  push_cast
  field_simp

theorem Holds.div {u w : UnpackedFloat} {v v' : ℚ} (h : Holds u v) (h' : Holds w v') :
    UnpackedFloat.div .binary64 u w = nearest .positive (v / v') := by
  obtain ⟨m, p, hm, rfl, rfl⟩ := h
  obtain ⟨n, q, hn, rfl, rfl⟩ := h'
  exact div_eq_nearest .positive .positive p q hm hn

theorem holds_natCast {n : Nat} (hn : 0 < n) : Holds (.finite .positive n 0 hn) n :=
  ⟨n, 0, hn, rfl, by simp⟩

theorem nearest_of_lt (s : Sign) {v : ℚ} (hv : 0 < v) (hlt : v < 2 ^ (-1076 : Int)) :
    nearest s v = .zero s := by
  have hlog : Int.log 2 v < -1076 :=
    (Int.lt_zpow_iff_log_lt (by norm_num) hv).1 (by exact_mod_cast hlt)
  have hexp : exponentOf v = -1074 := by rw [exponentOf]; omega
  have hquarter : 2 * (v / 2 ^ (-1074 : Int)) < 1 := by
    rw [← mul_div_assoc, div_lt_one (by positivity)]
    calc 2 * v < 2 * 2 ^ (-1076 : Int) := by linarith
      _ = 2 ^ (1 + -1076 : Int) := (zpow_one_add₀ (by norm_num) _).symm
      _ ≤ 2 ^ (-1074 : Int) := zpow_le_zpow_right₀ (by norm_num) (by norm_num)
  have hpos : 0 < v / 2 ^ (-1074 : Int) := by positivity
  have hwhole : ⌊v / 2 ^ (-1074 : Int)⌋₊ = 0 := Nat.floor_eq_zero.2 (by linarith)
  have hhalf : ⌊2 * (v / 2 ^ (-1074 : Int))⌋₊ = 0 := Nat.floor_eq_zero.2 hquarter
  have hrounded : (leading (v / 2 ^ exponentOf v)).roundedMantissa = 0 := by
    rw [hexp, leading, hwhole, hhalf]
    cases decide (((0 : ℕ) : ℚ) ≠ 2 * (v / 2 ^ (-1074 : Int))) <;> rfl
  have hshift : (shiftToTargetExponent .binary64 0 (exponentOf v) .exact).1.mantissa = 0 := by
    rw [hexp]
    decide
  simp only [nearest, hrounded, hshift, dif_pos]

/-- A numeral with too many decimal places for its digits is read as zero, as it should be. -/
theorem nearest_of_tiny {d : Decimal} (hd : 0 < d.digits)
    (h : (2 : Int) ^ 11 + d.digits.log2 < d.places) :
    nearest .positive d.value = .zero .positive := by
  have hten : (0 : ℚ) < 10 ^ d.places := by positivity
  refine nearest_of_lt _ (div_pos (by exact_mod_cast hd) hten) ?_
  rw [Decimal.value, div_lt_iff₀ hten]
  have hdigits : (d.digits : ℚ) < 2 ^ (d.digits.log2 + 1) := by
    exact_mod_cast Nat.lt_log2_self
  refine hdigits.trans_le ?_
  calc (2 : ℚ) ^ (d.digits.log2 + 1) ≤ 2 ^ (-1076 : Int) * 2 ^ d.places := by
        rw [← zpow_natCast, ← zpow_natCast, ← zpow_add₀ (by norm_num)]
        exact zpow_le_zpow_right₀ (by norm_num) (by push_cast; omega)
    _ ≤ 2 ^ (-1076 : Int) * 10 ^ d.places :=
        mul_le_mul_of_nonneg_left (pow_le_pow_left₀ (by norm_num) (by norm_num) _)
          (by positivity)

/-- A whole number is read as the product of itself, with zeros behind it, and one. -/
theorem mul_shifted {d : Decimal} (hd : 0 < d.digits) (hwhole : d.places = 0)
    (hm : 0 < d.digits <<< 53) (hn : 0 < 10 ^ (-(d.places : Int)).toNat) :
    UnpackedFloat.mul .binary64 (.finite .positive (d.digits <<< 53) (-(53 : Nat)) hm)
      (.finite .positive (10 ^ (-(d.places : Int)).toNat) 0 hn) = nearest .positive d.value := by
  have hvalue : ((d.digits <<< 53 : ℕ) : ℚ) * 2 ^ (-(53 : Nat) : Int) *
      ((10 ^ (-(d.places : Int)).toNat : ℕ) * 2 ^ (0 : Int)) = d.value := by
    rw [Decimal.value, hwhole, Nat.shiftLeft_eq]
    norm_num
    field_simp
  have hone : (1 : ℚ) ≤ d.value := by
    simpa [Decimal.value, hwhole, Nat.one_le_iff_ne_zero] using hd.ne'
  have hlog : 0 ≤ Int.log 2 d.value := by
    rw [Int.log_of_one_le_right 2 hone]
    exact Int.natCast_nonneg _
  have hfine : (-(53 : Nat) + 0 : Int) ≤ exponentOf d.value := by
    rw [exponentOf]
    omega
  rw [← hvalue] at hfine ⊢
  exact mul_eq_nearest .positive .positive _ _ hm hn hfine

theorem ofScientific_eq_nearestTo (d : Decimal) :
    UnpackedFloat.ofScientific .binary64 d.digits (-d.places) = nearestTo d := by
  rw [UnpackedFloat.ofScientific, nearestTo]
  by_cases h0 : d.digits = 0
  · rw [dif_pos h0, if_pos h0]
  · have hpos := Nat.pos_of_ne_zero h0
    have hlarge : ¬(-(d.places : Int) > 2 ^ 11) := by omega
    rw [dif_neg h0, if_neg h0, if_neg hlarge]
    by_cases htiny : (2 : Int) ^ 11 + d.digits.log2 < d.places
    · have hless : -(d.places : Int) < -((2 : Int) ^ 11 + d.digits.log2) := Int.neg_lt_neg htiny
      rw [if_pos hless, nearest_of_tiny hpos htiny]
    · have hless : ¬(-(d.places : Int) < -((2 : Int) ^ 11 + d.digits.log2)) := by omega
      rw [if_neg hless]
      by_cases hwhole : d.places = 0
      · rw [if_pos (by omega)]
        exact mul_shifted hpos hwhole _ _
      · have hten : 0 < 10 ^ d.places := by positivity
        have hdiv := (holds_natCast hpos).div (holds_natCast hten)
        have hpow : (- -(d.places : Int)).toNat = d.places := by omega
        rw [Nat.cast_pow] at hdiv
        rw [if_neg (by omega)]
        simp only [hpow]
        exact hdiv

/-- A numeral is read as the double nearest to its value. -/
theorem toFloat_eq (d : Decimal) : d.toFloat = .ofModel (.pack (nearestTo d)) := by
  rw [Decimal.toFloat, Float.ofScientific]
  split
  · next h =>
    have hpower := holds_powerOfTen (Nat.lt_succ_of_le h.2)
    rw [if_pos rfl, div_eq_pack, nearestTo]
    by_cases h0 : d.digits = 0
    · obtain ⟨m, q, hm, hunpack, -⟩ := hpower
      have hzero : d.digits.toUInt64.toFloat.toModel.unpack = .zero .positive := by rw [h0]; rfl
      rw [if_pos h0]
      exact congrArg₂ (fun u w => Float.ofModel (.pack (UnpackedFloat.div .binary64 u w)))
        hzero hunpack
    · rw [if_neg h0]
      exact congrArg (fun u => Float.ofModel (.pack u))
        ((holds_toFloat (Nat.pos_of_ne_zero h0) h.1).div hpower)
  · rw [if_pos rfl, Int.negOfNat_eq, ← ofScientific_eq_nearestTo]
    rfl

theorem toFloat_congr {d d' : Decimal} (h : d.value = d'.value) : d.toFloat = d'.toFloat := by
  have hzero : d.digits = 0 ↔ d'.digits = 0 := by
    have h0 : ∀ e : Decimal, e.value = 0 ↔ e.digits = 0 := fun e => by
      rw [Decimal.value, div_eq_zero_iff, Nat.cast_eq_zero]
      exact or_iff_left (pow_ne_zero _ (by norm_num))
    rw [← h0, ← h0, h]
  rw [toFloat_eq, toFloat_eq, nearestTo, nearestTo, h]
  simp only [hzero]

theorem value_trimZeros (digits places : Nat) :
    (trimZeros digits places).value = digits / 10 ^ places := by
  induction places generalizing digits with
  | zero => rfl
  | succ places ih =>
    rw [trimZeros]
    split
    · next h =>
      have hdigits : (digits : ℚ) = (digits / 10 : ℕ) * 10 := by
        exact_mod_cast (Nat.div_mul_cancel (Nat.dvd_of_mod_eq_zero h)).symm
      rw [ih, hdigits, pow_succ, mul_div_mul_right _ _ (by norm_num)]
    · rfl

theorem value_exactDecimal (m : Nat) (q : Int) : (exactDecimal m q).value = m * 2 ^ q := by
  have hten : (10 : ℚ) ^ (-q).toNat = 2 ^ (-q).toNat * 5 ^ (-q).toNat := by
    rw [← mul_pow]
    norm_num
  rw [Decimal.value, exactDecimal, mul_zpow_eq_div, hten]
  simp only [Nat.pow_eq]
  push_cast
  rw [mul_div_mul_right _ _ (pow_ne_zero _ (by norm_num))]

theorem eq_of_beq_positive {x y : Float} {m : Nat} {q : Int} {hm : 0 < m}
    (hx : x.toModel.unpack = .finite .positive m q hm) (h : (y == x) = true) : y = x := by
  have hbeq : UnpackedFloat.beq y.toModel.unpack (.finite .positive m q hm) = true := hx ▸ h
  have hy : y.toModel.unpack = .finite .positive m q hm := by
    cases hu : y.toModel.unpack with
    | finite s n p hn =>
      rw [hu] at hbeq
      cases s with
      | negative => cases hbeq
      | positive =>
        have hcompare : some ((compare p q).then (compare n m)) = some .eq := beq_iff_eq.1 hbeq
        rw [Option.some_inj, Ordering.then_eq_eq, compare_eq_iff_eq, compare_eq_iff_eq] at hcompare
        obtain ⟨rfl, rfl⟩ := hcompare
        rfl
    | infinity s => rw [hu] at hbeq; cases s <;> cases hbeq
    | _ => rw [hu] at hbeq; cases hbeq
  rw [← ofModel_pack hy, ofModel_pack hx]

theorem abs_of_unpack {x : Float} {u : UnpackedFloat} (h : x.toModel.unpack = u) :
    x.abs = .ofModel (.pack u.abs) :=
  congrArg (fun u => Float.ofModel (.pack (UnpackedFloat.abs u))) h

theorem abs_of_zero {x : Float} {s : Sign} (h : x.toModel.unpack = .zero s) : x.abs = 0.0 := by
  rw [abs_of_unpack h]
  rfl

theorem unpack_abs {x : Float} {s : Sign} {m : Nat} {q : Int} {hm : 0 < m}
    (h : x.toModel.unpack = .finite s m q hm) :
    x.abs.toModel.unpack = .finite .positive m q hm := by
  rw [abs_of_unpack h]
  exact unpack_pack (canonical_of_unpack h) (exponent_le h) .positive

theorem toFloat_of_value {d : Decimal} {x : Float} {m : Nat} {q : Int} {hm : 0 < m}
    (hx : x.toModel.unpack = .finite .positive m q hm) (hd : d.value = m * 2 ^ q) :
    d.toFloat = x := by
  have hdigits : d.digits ≠ 0 := fun h0 => by
    rw [Decimal.value, h0, Nat.cast_zero, zero_div] at hd
    exact absurd hd.symm (mul_ne_zero (Nat.cast_ne_zero.2 hm.ne') (zpow_ne_zero _ (by norm_num)))
  rw [toFloat_eq, nearestTo, if_neg hdigits, hd, (canonical_of_unpack hx).nearest_eq]
  exact ofModel_pack hx

/-- Of several numerals and an exact one, the first that is read as the double, is. -/
theorem toFloat_find (ds : List Decimal) {d : Decimal} {x : Float} {m : Nat} {q : Int} {hm : 0 < m}
    (hx : x.toModel.unpack = .finite .positive m q hm) (hd : d.value = m * 2 ^ q) :
    ((ds.find? (·.toFloat == x)).getD d).toFloat = x := by
  cases hfind : ds.find? (·.toFloat == x) with
  | none => exact toFloat_of_value hx hd
  | some d' =>
    have hread := List.find?_some hfind
    exact eq_of_beq_positive hx hread

theorem toFloat_trimZeros (d : Decimal) : (trimZeros d.digits d.places).toFloat = d.toFloat :=
  toFloat_congr (value_trimZeros _ _)

/-- The shortest numeral of a double is read as its magnitude. -/
theorem toFloat_shortest {x : Float} {s : Sign} {m : Nat} {q : Int} {hm : 0 < m}
    (h : x.toModel.unpack = .finite s m q hm) : (shortest m q x.abs).toFloat = x.abs :=
  (toFloat_trimZeros _).trans (toFloat_find _ (unpack_abs h) (value_exactDecimal m q))

def numeral (x : Float) : Decimal :=
  match x.toModel.unpack with
  | .finite _ m q _ => shortest m q x.abs
  | _ => ⟨0, 0⟩

theorem lt_zero_iff {x : Float} :
    x < 0 ↔ UnpackedFloat.lt x.toModel.unpack (.zero .positive) = true :=
  decide_eq_true_iff

theorem unpack_of_isFinite {x : Float} (h : x.isFinite = true) :
    ((x == 0) = true ∧ ∃ s, x.toModel.unpack = .zero s) ∨
    ((x == 0) = false ∧ ∃ s m q, ∃ hm : 0 < m, x.toModel.unpack = .finite s m q hm ∧
      (x < 0 ↔ s = .negative)) := by
  have hfinite : x.toModel.unpack.isFinite = true := h
  have hzero : (x == 0) = UnpackedFloat.beq x.toModel.unpack (.zero .positive) := rfl
  rw [hzero, lt_zero_iff]
  cases hu : x.toModel.unpack with
  | zero s => exact .inl ⟨rfl, s, rfl⟩
  | finite s m q hm =>
    refine .inr ⟨by cases s <;> rfl, s, m, q, hm, rfl, ?_⟩
    cases s with
    | positive => exact iff_of_false Bool.false_ne_true nofun
    | negative => exact iff_of_true rfl rfl
  | infinity s => rw [hu] at hfinite; cases hfinite
  | notANumber => rw [hu] at hfinite; cases hfinite

theorem abs_of_isFinite {x : Float} (h : x.isFinite = true) (h0 : (x == 0) = false) :
    x.abs.isFinite = true ∧ (x.abs == 0) = false ∧ ¬x.abs < 0 := by
  rcases unpack_of_isFinite h with ⟨h0', -⟩ | ⟨-, s, m, q, hm, hu, -⟩
  · cases h0.symm.trans h0'
  · have habs := unpack_abs hu
    have hfinite : x.abs.isFinite = true := by
      show x.abs.toModel.unpack.isFinite = true
      rw [habs]
      rfl
    rcases unpack_of_isFinite hfinite with ⟨-, s', hu'⟩ | ⟨h0', s', m', q', hm', hu', hneg⟩
    · cases habs.symm.trans hu'
    · cases habs.symm.trans hu'
      exact ⟨hfinite, h0', fun hlt => nomatch hneg.1 hlt⟩

theorem toFloat_numeral {x : Float} (h : x.isFinite = true) : (numeral x).toFloat = x.abs := by
  rw [numeral]
  rcases unpack_of_isFinite h with ⟨-, s, hu⟩ | ⟨-, s, m, q, hm, hu, -⟩
  · rw [hu, abs_of_zero hu, toFloat_eq]
    rfl
  · rw [hu]
    exact toFloat_shortest hu

theorem text_eq_numeral {x : Float} (h : x.isFinite = true) (h0 : (x == 0) = false) :
    text x = (if x < 0 then "-" else "") ++ (numeral x).text := by
  rcases unpack_of_isFinite h with ⟨h0', -⟩ | ⟨-, s, m, q, hm, hu, hneg⟩
  · cases h0.symm.trans h0'
  · rw [text, numeral, hu]
    cases s with
    | positive => rw [if_neg (by rw [hneg]; exact nofun)]; rfl
    | negative => rw [if_pos (hneg.2 rfl)]; rfl

end Binary64
end ComplexAlgebra
