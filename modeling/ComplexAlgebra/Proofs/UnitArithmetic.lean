import Mathlib
import ComplexAlgebra.Number

/-! Arithmetic of doubles with one and zero. Multiplication with one and division by one are exact:
a significand with zeros behind it loses nothing when it is rounded. Adding a zero changes at most
the sign of another zero, and only the zero multiple of a double that is not finite is no zero. -/
namespace ComplexAlgebra
namespace Binary64

open Float.Model Float.Model.UnpackedFloat

theorem eq_packComponents (b : BitVec Format.binary64.numBits) :
    b = packComponents .binary64 (Sign.ofBitVec (unpackSign b)) (unpackExponent b)
      (unpackMantissa b) := by
  have hsign : ∀ v : BitVec 1, (Sign.ofBitVec v).toBitVec = v := by decide
  rw [packComponents, hsign]
  refine BitVec.eq_of_getElem_eq fun i hi => ?_
  simp only [unpackSign, unpackExponent, unpackMantissa, BitVec.extractLsb]
  grind

/-- The significand and exponent of a finite double other than zero. -/
structure Canonical (m : Nat) (q : Int) : Prop where
  pos : 0 < m
  lt : m < 2 ^ 53
  least_le : -1074 ≤ q
  /-- Only with the least exponent the leading bit may be missing. -/
  normal : 2 ^ 52 ≤ m ∨ q = -1074

theorem log2_of_normal {m : Nat} (h : 2 ^ 52 ≤ m) (h' : m < 2 ^ 53) : m.log2 = 52 :=
  (Nat.log2_eq_iff (by omega)).2 ⟨h, h'⟩

theorem log2_of_subnormal {m : Nat} (h : 0 < m) (h' : m < 2 ^ 52) : m.log2 < 52 :=
  (Nat.log2_lt (by omega)).2 h'

theorem toNat_implicit (v : BitVec 52) : (1#1 ++ v).toNat = 2 ^ 52 + v.toNat := by
  rw [BitVec.toNat_append, ← Nat.shiftLeft_add_eq_or_of_lt v.isLt]
  rfl

theorem pack_subnormal (s : Sign) (v : BitVec 52) (h : 0 < v.toNat) :
    UnpackedFloat.pack .binary64 (.finite s v.toNat (-1074) h) =
      packComponents .binary64 s 0#11 v := by
  have hlog := log2_of_subnormal h v.isLt
  have hbits : v.toNat.log2 + 1 ≠ Format.binary64.mantissaBits :=
    fun hh => Nat.ne_of_lt (Nat.succ_lt_succ hlog) hh
  rw [UnpackedFloat.pack]
  simp only [if_neg hbits, BitVec.ofNat_toNat, BitVec.setWidth_eq]
  rfl

theorem pack_normal (s : Sign) (e : BitVec 11) (v : BitVec 52) (he : e.toNat + 1 < 2 ^ 11)
    (h : 0 < (1#1 ++ v).toNat) :
    UnpackedFloat.pack .binary64 (.finite s (1#1 ++ v).toNat ((e.toNat : Int) - 1075) h) =
      packComponents .binary64 s e v := by
  have hlog : (1#1 ++ v).toNat.log2 + 1 = Format.binary64.mantissaBits := by
    have hlt := v.isLt
    rw [log2_of_normal (by rw [toNat_implicit]; omega) (by rw [toNat_implicit]; omega)]
    rfl
  have hbias : ((e.toNat : Int) - 1075 + Format.binary64.exponentBias +
      Format.binary64.mantissaBitsWithoutImplicit).toNat = e.toNat := by
    show ((e.toNat : Int) - 1075 + 1023 + 52).toNat = e.toNat
    omega
  have hlow : (1#1 ++ v).setWidth 52 = v := by
    apply BitVec.eq_of_toNat_eq
    rw [BitVec.toNat_setWidth, toNat_implicit, Nat.add_mod_left, Nat.mod_eq_of_lt v.isLt]
  rw [UnpackedFloat.pack]
  simp only [hbias, if_pos hlog, if_neg (Nat.not_le.2 he), BitVec.ofNat_toNat, hlow]
  exact congrArg (packComponents .binary64 s · v) (BitVec.setWidth_eq e)

theorem unpack_cases (b : BitVec Format.binary64.numBits) (hvalid : Format.binary64.Valid b) :
    (∃ s, unpack .binary64 b = .infinity s ∧ b = pack .binary64 (.infinity s)) ∨
    (unpack .binary64 b = .notANumber ∧ b = pack .binary64 .notANumber) ∨
    (∃ s, unpack .binary64 b = .zero s ∧ b = pack .binary64 (.zero s)) ∨
    ∃ s m q h, unpack .binary64 b = .finite s m q h ∧ b = pack .binary64 (.finite s m q h) ∧
      Canonical m q := by
  have hfields := eq_packComponents b
  have hlt : (unpackMantissa b).toNat < 2 ^ 52 := (unpackMantissa b).isLt
  have hexp : (unpackExponent b).toNat < 2 ^ 11 := (unpackExponent b).isLt
  by_cases hinf : unpackExponent b = -1#_
  · by_cases hzero : unpackMantissa b = 0#_
    · rw [hinf, hzero] at hfields
      refine .inl ⟨Sign.ofBitVec (unpackSign b), ?_, hfields⟩
      simp only [UnpackedFloat.unpack, if_pos hinf, if_pos hzero]
    · refine .inr (.inl ⟨?_, hvalid.eq_packedNaN hinf hzero⟩)
      simp only [UnpackedFloat.unpack, if_pos hinf, if_neg hzero]
  · by_cases hleast : unpackExponent b = 0#_
    · rw [hleast] at hfields
      by_cases hzero : unpackMantissa b = 0#_
      · rw [hzero] at hfields
        refine .inr (.inr (.inl ⟨Sign.ofBitVec (unpackSign b), ?_, hfields⟩))
        simp only [UnpackedFloat.unpack, if_neg hinf, if_pos hleast, dif_pos hzero]
      · have hpos : 0 < (unpackMantissa b).toNat :=
          Nat.pos_of_ne_zero fun h => hzero (BitVec.eq_of_toNat_eq h)
        refine .inr (.inr (.inr ⟨Sign.ofBitVec (unpackSign b), (unpackMantissa b).toNat, -1074,
          hpos, ?_, hfields.trans (pack_subnormal _ _ hpos).symm, ?_⟩))
        · simp only [UnpackedFloat.unpack, if_neg hinf, if_pos hleast, dif_neg hzero]
          rw [hleast]
          rfl
        · exact ⟨hpos, by omega, Int.le_refl _, .inr rfl⟩
    · have hexp0 : (unpackExponent b).toNat ≠ 0 := fun h => hleast (BitVec.eq_of_toNat_eq h)
      have hexp1 : (unpackExponent b).toNat ≠ 2 ^ 11 - 1 := fun h =>
        hinf (BitVec.eq_of_toNat_eq h)
      have hnormal := toNat_implicit (unpackMantissa b)
      refine .inr (.inr (.inr ⟨Sign.ofBitVec (unpackSign b), (1#1 ++ unpackMantissa b).toNat,
        ((unpackExponent b).toNat : Int) - 1075, by omega, ?_,
        hfields.trans (pack_normal _ _ _ (by omega) _).symm, ?_⟩))
      · simp only [UnpackedFloat.unpack, if_neg hinf, if_neg hleast]
        rfl
      · exact ⟨by omega, by omega, by omega, .inl (by omega)⟩

theorem pack_unpack (x : Float.Model) : Float.Model.pack x.unpack = x := by
  obtain ⟨⟨b⟩, hvalid⟩ := x
  have hpack : pack .binary64 (unpack .binary64 b) = b := by
    rcases unpack_cases b hvalid with
      ⟨s, h, hb⟩ | ⟨h, hb⟩ | ⟨s, h, hb⟩ | ⟨s, m, q, hm, h, hb, -⟩ <;> rw [h, ← hb]
  simp only [Float.Model.pack, Float.Model.unpack, hpack]

theorem canonical_of_unpack {x : Float.Model} {s : Sign} {m : Nat} {q : Int} {hm : 0 < m}
    (h : x.unpack = .finite s m q hm) : Canonical m q := by
  rcases unpack_cases x.toBits.toBitVec x.valid with
    ⟨s, h', -⟩ | ⟨h', -⟩ | ⟨s, h', -⟩ | ⟨s, m, q, hm, h', -, hc⟩
  · cases h'.symm.trans h
  · cases h'.symm.trans h
  · cases h'.symm.trans h
  · cases h'.symm.trans h
    exact hc

theorem log2_mul_two_pow {m : Nat} (h : 0 < m) (k : Nat) : (m * 2 ^ k).log2 = m.log2 + k := by
  induction k with
  | zero => rw [Nat.pow_zero, Nat.mul_one, Nat.add_zero]
  | succ k ih =>
    have hne : m * 2 ^ k ≠ 0 := Nat.ne_of_gt (Nat.mul_pos h (Nat.two_pow_pos k))
    rw [Nat.pow_succ, ← Nat.mul_assoc, Nat.mul_comm _ 2, Nat.log2_two_mul hne, ih, Nat.add_assoc]

theorem Canonical.targetExponent_eq {m : Nat} {q : Int} (h : Canonical m q) (k : Nat) :
    Format.binary64.targetExponent (totalExponent (m * 2 ^ k) (q - k)) = q := by
  have hlog : m.log2 = 52 ∨ m.log2 < 52 ∧ q = -1074 := by
    by_cases hm : m < 2 ^ 52
    · exact .inr ⟨log2_of_subnormal h.pos hm, h.normal.resolve_left (by omega)⟩
    · exact .inl (log2_of_normal (by omega) h.lt)
  have hleast := h.least_le
  show max (((m * 2 ^ k).log2 + 1 + (q - k) : Int) - 53) (-1074) = q
  rw [log2_mul_two_pow h.pos]
  omega

/-- Zeros behind the significand are shifted out without a trace. -/
theorem shiftRight_exact (m k : Nat) :
    (⟨m * 2 ^ k, false, false⟩ : ExtendedMantissa) >>> k = ⟨m, false, false⟩ := by
  induction k generalizing m with
  | zero => rw [Nat.pow_zero, Nat.mul_one]; rfl
  | succ k ih =>
    have hstep := congrArg ExtendedMantissa.shiftRightOne (ih (m * 2))
    rw [Nat.mul_assoc, Nat.mul_comm 2, ← Nat.pow_succ] at hstep
    refine hstep.trans ?_
    simp [ExtendedMantissa.shiftRightOne]

theorem Canonical.shiftToTargetExponent_eq {m : Nat} {q : Int} (h : Canonical m q) (k : Nat) :
    shiftToTargetExponent .binary64 (m * 2 ^ k) (q - k) .exact = (⟨m, false, false⟩, q) := by
  have hshift : (q - (q - k)).toNat = k := by omega
  rw [shiftToTargetExponent]
  simp only [h.targetExponent_eq, shiftToExponent, hshift]
  rw [ExtendedMantissa.ofMantissaAndAccuracy]
  exact Prod.ext (shiftRight_exact m k) (by show q - k + k = q; omega)

theorem Canonical.roundWithAccuracy_eq {m : Nat} {q : Int} (h : Canonical m q) (s : Sign)
    (k : Nat) : roundWithAccuracy .binary64 s (m * 2 ^ k) (q - k) .exact = .finite s m q h.pos := by
  have hagain : shiftToTargetExponent .binary64 m q .exact = (⟨m, false, false⟩, q) := by
    simpa using h.shiftToTargetExponent_eq 0
  have hrounded : (⟨m, false, false⟩ : ExtendedMantissa).roundedMantissa = m := rfl
  simp only [roundWithAccuracy, h.shiftToTargetExponent_eq, hrounded, hagain,
    dif_neg (Nat.ne_of_gt h.pos)]

theorem add_eq_pack (x y : Float) : x + y =
    .ofModel (.pack (UnpackedFloat.add .binary64 x.toModel.unpack y.toModel.unpack)) := rfl

theorem sub_eq_pack (x y : Float) : x - y =
    .ofModel (.pack (UnpackedFloat.sub .binary64 x.toModel.unpack y.toModel.unpack)) := rfl

theorem mul_eq_pack (x y : Float) : x * y =
    .ofModel (.pack (UnpackedFloat.mul .binary64 x.toModel.unpack y.toModel.unpack)) := rfl

theorem div_eq_pack (x y : Float) : x / y =
    .ofModel (.pack (UnpackedFloat.div .binary64 x.toModel.unpack y.toModel.unpack)) := rfl

theorem ofModel_pack {x : Float} {u : UnpackedFloat} (h : x.toModel.unpack = u) :
    Float.ofModel (Float.Model.pack u) = x := by
  rw [← h, pack_unpack]

theorem unpack_unit :
    (1.0 : Float).toModel.unpack = .finite .positive (1 * 2 ^ 52) (0 - (52 : Nat)) (by decide) := by
  rfl

theorem mul_one (x : Float) : x * 1.0 = x := by
  rw [mul_eq_pack, unpack_unit]
  apply ofModel_pack
  cases h : x.toModel.unpack with
  | infinity s => cases s <;> rfl
  | notANumber => rfl
  | zero s => cases s <;> rfl
  | finite s m q hm =>
    have hround := (canonical_of_unpack h).roundWithAccuracy_eq s 52
    have hs : s * .positive = s := by cases s <;> rfl
    simp only [UnpackedFloat.mul, hs]
    rw [Int.zero_sub, ← Int.sub_eq_add_neg, Nat.one_mul, hround]

/-- The quotient by one is exact, with one more bit than it needs if it has the leading one. -/
theorem Canonical.divCore_unit {m : Nat} {q : Int} (h : Canonical m q) :
    ∃ k : Nat, divCore .binary64 m q (1 * 2 ^ 52) (0 - (52 : Nat)) =
      (m * 2 ^ k, q - k, .exact) := by
  have htarget : max (totalExponent m q - 53) (-1074) = q := by
    have hh := h.targetExponent_eq 0
    rwa [Nat.pow_zero, Nat.mul_one, show q - (0 : Nat) = q from Int.sub_zero q] at hh
  have hunit : totalExponent (1 * 2 ^ 52) (0 - (52 : Nat)) = 1 := by decide
  obtain ⟨t, ht⟩ : ∃ t, Format.binary64.targetExponent (totalExponent m q - 1) = t := ⟨_, rfl⟩
  have hnear : t = q - 1 ∨ t = q := by
    have hmax : max (totalExponent m q - 1 - 53) (-1074) = t := ht
    omega
  refine ⟨(q - t).toNat, ?_⟩
  have hmin : min (q - (0 - (52 : Nat))) t = t := by omega
  have hshift : (q - (0 - (52 : Nat)) - t).toNat = (q - t).toNat + 52 := by omega
  have hm : m <<< ((q - t).toNat + 52) = m * 2 ^ (q - t).toNat * (1 * 2 ^ 52) := by
    rw [Nat.shiftLeft_eq, Nat.pow_add, Nat.mul_assoc, Nat.one_mul]
  have hq : t = q - (q - t).toNat := by omega
  have hpos : 0 < 1 * 2 ^ 52 := by decide
  simp only [divCore, hunit, ht, hmin, hshift, hm, Nat.mul_div_cancel _ hpos, Nat.mul_mod_left]
  rw [← hq]
  rfl

theorem div_one (x : Float) : x / 1.0 = x := by
  rw [div_eq_pack, unpack_unit]
  apply ofModel_pack
  cases h : x.toModel.unpack with
  | infinity s => cases s <;> rfl
  | notANumber => rfl
  | zero s => cases s <;> rfl
  | finite s m q hm =>
    have hc := canonical_of_unpack h
    have hs : s / .positive = s := by cases s <;> rfl
    obtain ⟨k, hk⟩ := hc.divCore_unit
    simp only [UnpackedFloat.div, hs, hk, hc.roundWithAccuracy_eq s k]

theorem rank_pack_zero (s : Sign) : rank (Float.ofModel (.pack (.zero s))) = 0 := by
  cases s <;> decide

theorem unpack_of_rank {x : Float} (h : rank x = 0) : ∃ s, x.toModel.unpack = .zero s := by
  rcases eq_zero_of_rank h with rfl | rfl
  · exact ⟨.positive, rfl⟩
  · exact ⟨.negative, rfl⟩

theorem rank_of_unpack {x : Float} {s : Sign} (h : x.toModel.unpack = .zero s) : rank x = 0 := by
  rw [← ofModel_pack h, rank_pack_zero]

theorem unpack_zero : (0.0 : Float).toModel.unpack = .zero .positive := rfl

/-- A finite multiple of zero is a zero, and any other multiple is not a number. -/
theorem rank_mul_zero {x : Float} (h : x.isFinite = true) : rank (x * 0.0) = 0 := by
  have hx : x.toModel.unpack.isFinite = true := h
  rw [mul_eq_pack, unpack_zero]
  cases hu : x.toModel.unpack with
  | infinity s => rw [hu] at hx; cases hx
  | notANumber => rw [hu] at hx; cases hx
  | zero s => exact rank_pack_zero _
  | finite s m q hm => exact rank_pack_zero _

theorem mul_zero_of_not_finite {x : Float} (h : x.isFinite = false) : x * 0.0 = nan := by
  have hx : x.toModel.unpack.isFinite = false := h
  rw [mul_eq_pack, unpack_zero]
  cases hu : x.toModel.unpack with
  | infinity s => rfl
  | notANumber => rfl
  | zero s => rw [hu] at hx; cases hx
  | finite s m q hm => rw [hu] at hx; cases hx

/-- Equal up to the sign of a zero. -/
def EqualUpToZero (u w : UnpackedFloat) : Prop :=
  u = w ∨ (∃ s, u = .zero s) ∧ ∃ s, w = .zero s

theorem same_of_equalUpToZero {x : Float} {u : UnpackedFloat}
    (h : EqualUpToZero u x.toModel.unpack) : same (.ofModel (.pack u)) x = true := by
  rw [same_iff]
  rcases h with rfl | ⟨⟨s, rfl⟩, t, ht⟩
  · exact congrArg rank (ofModel_pack rfl)
  · rw [rank_pack_zero, rank_of_unpack ht]

theorem equalUpToZero_add_zero (u : UnpackedFloat) (t : Sign) :
    EqualUpToZero (UnpackedFloat.add .binary64 u (.zero t)) u := by
  cases u with
  | zero s => cases s <;> cases t <;> exact .inr ⟨⟨_, rfl⟩, _, rfl⟩
  | _ => exact .inl rfl

theorem equalUpToZero_zero_add (u : UnpackedFloat) (t : Sign) :
    EqualUpToZero (UnpackedFloat.add .binary64 (.zero t) u) u := by
  cases u with
  | zero s => cases s <;> cases t <;> exact .inr ⟨⟨_, rfl⟩, _, rfl⟩
  | _ => exact .inl rfl

theorem equalUpToZero_sub_zero (u : UnpackedFloat) (t : Sign) :
    EqualUpToZero (UnpackedFloat.sub .binary64 u (.zero t)) u := by
  cases u with
  | zero s => cases s <;> cases t <;> exact .inr ⟨⟨_, rfl⟩, _, rfl⟩
  | _ => exact .inl rfl

theorem same_add_zero (x : Float) {z : Float} (hz : rank z = 0) : same (x + z) x = true := by
  obtain ⟨t, ht⟩ := unpack_of_rank hz
  rw [add_eq_pack, ht]
  exact same_of_equalUpToZero (equalUpToZero_add_zero _ t)

theorem same_zero_add (x : Float) {z : Float} (hz : rank z = 0) : same (z + x) x = true := by
  obtain ⟨t, ht⟩ := unpack_of_rank hz
  rw [add_eq_pack, ht]
  exact same_of_equalUpToZero (equalUpToZero_zero_add _ t)

theorem same_sub_zero (x : Float) {z : Float} (hz : rank z = 0) : same (x - z) x = true := by
  obtain ⟨t, ht⟩ := unpack_of_rank hz
  rw [sub_eq_pack, ht]
  exact same_of_equalUpToZero (equalUpToZero_sub_zero _ t)

theorem unpack_nan : nan.toModel.unpack = .notANumber := rfl

theorem add_nan (x : Float) : x + nan = nan := by
  rw [add_eq_pack, unpack_nan]
  cases x.toModel.unpack <;> rfl

theorem nan_add (x : Float) : nan + x = nan := by
  rw [add_eq_pack, unpack_nan]
  cases x.toModel.unpack <;> rfl

theorem sub_nan (x : Float) : x - nan = nan := by
  rw [sub_eq_pack, unpack_nan]
  cases x.toModel.unpack <;> rfl

theorem eq_nan {x : Float} (h : x.isNaN = true) : x = nan := by
  have hx : x.toModel.unpack.isNaN = true := h
  cases hu : x.toModel.unpack with
  | notANumber => exact (ofModel_pack hu).symm
  | infinity s => rw [hu] at hx; cases hx
  | zero s => rw [hu] at hx; cases hx
  | finite s m q hm => rw [hu] at hx; cases hx

theorem eq_of_same {x y : Float} (h : same x y = true) : x = y ∨ rank x = 0 ∧ rank y = 0 := by
  have hrank := same_iff.1 h
  by_cases h0 : rank y = 0
  · exact .inr ⟨hrank.trans h0, h0⟩
  · left
    have hx := x.toBits.toNat_lt
    have hy := y.toBits.toNat_lt
    by_cases hxn : x.isNaN = true
    · by_cases hyn : y.isNaN = true
      · rw [eq_nan hxn, eq_nan hyn]
      · exfalso
        unfold rank at hrank
        grind [signBit]
    · apply eq_of_toBits_eq
      apply UInt64.toNat.inj
      unfold rank at hrank h0
      grind [signBit]

theorem rank_of_beq_zero {x : Float} (h : (x == 0) = true) : rank x = 0 := by
  have hbeq : UnpackedFloat.beq x.toModel.unpack (.zero .positive) = true := h
  cases hu : x.toModel.unpack with
  | zero s => exact rank_of_unpack hu
  | finite s m q hm => rw [hu] at hbeq; cases s <;> cases hbeq
  | infinity s => rw [hu] at hbeq; cases s <;> cases hbeq
  | notANumber => rw [hu] at hbeq; cases hbeq

theorem beq_zero_of_rank {x : Float} (h : rank x = 0) : (x == 0) = true := by
  rcases eq_zero_of_rank h with rfl | rfl <;> decide

end Binary64
end ComplexAlgebra
