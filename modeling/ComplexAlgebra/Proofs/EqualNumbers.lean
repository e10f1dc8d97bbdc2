import ComplexAlgebra.Proofs.UnitCoefficient

/-! Equal numbers in place of each other. Equality passes over the sign of a zero. The operations of
arithmetic and the functions on doubles keep to it, up to the sign of zeros again, and normalization
removes that; only the argument of a number sees on which side of the negative axis a zero imaginary
part stands. -/
namespace ComplexAlgebra
namespace Binary64

open Float.Model Float.Model.UnpackedFloat

variable {x x' y y' z z' : Float}

theorem congr_of_zeros {α : Type} {f : Float → α} (h : f 0.0 = f (-0.0)) (hx : same x x' = true) :
    f x = f x' := by
  rcases eq_of_same hx with rfl | ⟨hzero, hzero'⟩
  · rfl
  · rcases eq_zero_of_rank hzero with rfl | rfl <;> rcases eq_zero_of_rank hzero' with rfl | rfl
    · rfl
    · exact h
    · exact h.symm
    · rfl

theorem same_congr {f : Float → Float} (h : same (f 0.0) (f (-0.0)) = true)
    (hx : same x x' = true) : same (f x) (f x') = true := by
  rw [same_iff] at h ⊢
  exact congr_of_zeros (f := fun x => rank (f x)) h hx

theorem same_of_eq (h : x = x') : same x x' = true := h ▸ same_self x

theorem same_pack {u w : UnpackedFloat} (h : EqualUpToZero u w) :
    same (.ofModel (.pack u)) (.ofModel (.pack w)) = true := by
  rcases h with rfl | ⟨⟨s, rfl⟩, t, rfl⟩
  · exact same_self _
  · rw [same_iff, rank_pack_zero, rank_pack_zero]

theorem unpack_neg_zero : (-0.0 : Float).toModel.unpack = .zero .negative := rfl

theorem same_op_left {f : UnpackedFloat → UnpackedFloat → UnpackedFloat}
    (h : ∀ w, EqualUpToZero (f (.zero .positive) w) (f (.zero .negative) w))
    (hx : same x x' = true) (y : Float) :
    same (.ofModel (.pack (f x.toModel.unpack y.toModel.unpack)))
      (.ofModel (.pack (f x'.toModel.unpack y.toModel.unpack))) = true :=
  same_congr (f := fun x => .ofModel (.pack (f x.toModel.unpack y.toModel.unpack)))
    (same_pack (h y.toModel.unpack)) hx

theorem same_op {f : UnpackedFloat → UnpackedFloat → UnpackedFloat}
    (hleft : ∀ w, EqualUpToZero (f (.zero .positive) w) (f (.zero .negative) w))
    (hright : ∀ u, EqualUpToZero (f u (.zero .positive)) (f u (.zero .negative)))
    (hx : same x x' = true) (hy : same y y' = true) :
    same (.ofModel (.pack (f x.toModel.unpack y.toModel.unpack)))
      (.ofModel (.pack (f x'.toModel.unpack y'.toModel.unpack))) = true :=
  same_trans (same_op_left hleft hx y) (same_op_left (f := fun u w => f w u) hright hy x')

theorem same_add (hx : same x x' = true) (hy : same y y' = true) :
    same (x + y) (x' + y') = true := by
  refine same_op (f := UnpackedFloat.add .binary64) (fun w => ?_) (fun u => ?_) hx hy
  · cases w with
    | zero t => cases t <;> exact .inr ⟨⟨_, rfl⟩, _, rfl⟩
    | _ => exact .inl rfl
  · cases u with
    | zero t => cases t <;> exact .inr ⟨⟨_, rfl⟩, _, rfl⟩
    | _ => exact .inl rfl

theorem same_sub (hx : same x x' = true) (hy : same y y' = true) :
    same (x - y) (x' - y') = true := by
  refine same_op (f := UnpackedFloat.sub .binary64) (fun w => ?_) (fun u => ?_) hx hy
  · cases w with
    | zero t => cases t <;> exact .inr ⟨⟨_, rfl⟩, _, rfl⟩
    | _ => exact .inl rfl
  · cases u with
    | zero t => cases t <;> exact .inr ⟨⟨_, rfl⟩, _, rfl⟩
    | _ => exact .inl rfl

theorem same_mul (hx : same x x' = true) (hy : same y y' = true) :
    same (x * y) (x' * y') = true := by
  refine same_op (f := UnpackedFloat.mul .binary64) (fun w => ?_) (fun u => ?_) hx hy
  · cases w with
    | zero | finite => exact .inr ⟨⟨_, rfl⟩, _, rfl⟩
    | _ => exact .inl rfl
  · cases u with
    | zero | finite => exact .inr ⟨⟨_, rfl⟩, _, rfl⟩
    | _ => exact .inl rfl

theorem same_div_left (hx : same x x' = true) (y : Float) : same (x / y) (x' / y) = true := by
  refine same_op_left (f := UnpackedFloat.div .binary64) (fun w => ?_) hx y
  cases w with
  | finite | infinity => exact .inr ⟨⟨_, rfl⟩, _, rfl⟩
  | _ => exact .inl rfl

theorem same_neg (hx : same x x' = true) : same (-x) (-x') = true :=
  same_congr (f := fun x => -x) (by decide) hx

theorem square_congr (hx : same x x' = true) : x * x = x' * x' :=
  congr_of_zeros (f := fun x => x * x) (by decide) hx

theorem exp_congr (hx : same x x' = true) : exp x = exp x' := congr_of_zeros (by decide) hx

theorem same_sin (hx : same x x' = true) : same (sin x) (sin x') = true :=
  same_congr (by decide) hx

theorem cos_congr (hx : same x x' = true) : cos x = cos x' := congr_of_zeros (by decide) hx

theorem same_sinh (hx : same x x' = true) : same (sinh x) (sinh x') = true :=
  same_congr (by decide) hx

theorem cosh_congr (hx : same x x' = true) : cosh x = cosh x' := congr_of_zeros (by decide) hx

theorem isNaN_zero : (-0.0 : Float).isNaN = (0.0 : Float).isNaN := by decide

theorem isInf_zero : (-0.0 : Float).isInf = (0.0 : Float).isInf := by decide

theorem settlePair_congr (hx : same x x' = true) (hy : same y y' = true) :
    settlePair x y = settlePair x' y' := by
  have hsettle : settle (-0.0) = settle 0.0 := by decide
  have hleft : settlePair 0.0 y = settlePair (-0.0) y := by
    rw [settlePair, settlePair, isNaN_zero, isInf_zero, hsettle]
    rfl
  have hright (x : Float) : settlePair x 0.0 = settlePair x (-0.0) := by
    rw [settlePair, settlePair, isNaN_zero, isInf_zero, hsettle]
    rfl
  exact (congr_of_zeros (f := fun x => settlePair x y) hleft hx).trans
    (congr_of_zeros (hright x') hy)

theorem hypotenuse_congr (hx : same x x' = true) (hy : same y y' = true) :
    hypotenuse x y = hypotenuse x' y' := by
  have habs : (-0.0 : Float).abs = (0.0 : Float).abs := by decide
  have hleft : hypotenuse 0.0 y = hypotenuse (-0.0) y := by
    rw [hypotenuse, hypotenuse, isInf_zero, unpack_zero, unpack_neg_zero]
    cases y.toModel.unpack <;> rfl
  have hright (x : Float) : hypotenuse x 0.0 = hypotenuse x (-0.0) := by
    rw [hypotenuse, hypotenuse, isInf_zero, unpack_zero, unpack_neg_zero, habs]
    cases x.toModel.unpack <;> rfl
  exact (congr_of_zeros (f := fun x => hypotenuse x y) hleft hx).trans
    (congr_of_zeros (hright x') hy)

theorem fusedProduct_square_congr (hx : same x x' = true) (z : Float) :
    fusedProduct x x z = fusedProduct x' x' z := by
  refine congr_of_zeros (f := fun x => fusedProduct x x z) ?_ hx
  show fusedProduct 0.0 0.0 z = fusedProduct (-0.0) (-0.0) z
  rw [fusedProduct, fusedProduct, unpack_zero, unpack_neg_zero]
  show 0.0 * 0.0 + z = -0.0 * -0.0 + z
  rw [show (-0.0 * -0.0 : Float) = 0.0 * 0.0 by decide]

theorem same_fusedProduct (x y : Float) (hz : same z z' = true) :
    same (fusedProduct x y z) (fusedProduct x y z') = true := by
  refine same_congr (f := fun z => fusedProduct x y z) ?_ hz
  show same (fusedProduct x y 0.0) (fusedProduct x y (-0.0)) = true
  have hsum : same (x * y + 0.0) (x * y + -0.0) = true := same_add (same_self _) (by decide)
  rw [fusedProduct, fusedProduct, unpack_zero, unpack_neg_zero]
  cases x.toModel.unpack with
  | finite =>
    cases y.toModel.unpack with
    | finite => exact same_self _
    | _ => exact hsum
  | _ => exact hsum

/-- Whether two points lie on opposite sides of the negative real axis, by the signs of their zero
imaginary parts, or on opposite sides of the origin. -/
def Opposite (y x y' x' : Float) : Prop :=
  (y == 0) = true ∧ (isSigned x = true ∨ isSigned x' = true) ∧
    (isSigned x ≠ isSigned x' ∨ isSigned y ≠ isSigned y')

instance : Decidable (Opposite y x y' x') :=
  inferInstanceAs (Decidable (_ ∧ (_ ∨ _) ∧ (_ ∨ _)))

theorem arctan_of_beq_zero (hy : (y == 0) = true) (hx : x.isNaN = false) :
    arctan y x = if isSigned x then copySign pi y else y := by
  have hnan : y.isNaN = false := isNaN_of_isFinite (isFinite_of_rank (rank_of_beq_zero hy))
  rw [arctan, hnan, hx, hy]
  rfl

theorem arctan_congr (hy : (y == 0) = false) (hx : same x x' = true) :
    arctan y x = arctan y x' := by
  refine congr_of_zeros ?_ hx
  have hzero : ((0.0 : Float) == 0) = true ∧ ((-0.0 : Float) == 0) = true := by decide
  rw [arctan, arctan, isNaN_zero, hy, hzero.1, hzero.2]
  rfl

/-- The angle depends on the signs of zeros on the negative axis only. -/
theorem same_arctan_iff (hy : same y y' = true) (hx : same x x' = true) :
    same (arctan y x) (arctan y' x') = true ↔ ¬ Opposite y x y' x' := by
  cases h0 : y == 0 with
  | false =>
    obtain rfl : y = y' := (eq_of_same hy).resolve_right fun ⟨hrank, _⟩ => by
      cases h0.symm.trans (beq_zero_of_rank hrank)
    rw [arctan_congr h0 hx]
    refine iff_of_true (same_self _) fun hopposite => ?_
    cases h0.symm.trans hopposite.1
  | true =>
    have hrank := rank_of_beq_zero h0
    have hzeros := eq_zero_of_rank hrank
    have hzeros' := eq_zero_of_rank ((same_iff.1 hy).symm.trans hrank)
    rcases eq_of_same hx with rfl | ⟨hx0, hx0'⟩
    · cases hnan : x.isNaN with
      | true =>
        rw [eq_nan hnan]
        rcases hzeros with rfl | rfl <;> rcases hzeros' with rfl | rfl <;> decide
      | false =>
        have h0' : (y' == 0) = true := beq_zero_of_rank ((same_iff.1 hy).symm.trans hrank)
        rw [arctan_of_beq_zero h0 hnan, arctan_of_beq_zero h0' hnan, Opposite]
        cases isSigned x <;> rcases hzeros with rfl | rfl <;> rcases hzeros' with rfl | rfl <;>
          decide
    · rcases eq_zero_of_rank hx0 with rfl | rfl <;> rcases eq_zero_of_rank hx0' with rfl | rfl <;>
        rcases hzeros with rfl | rfl <;> rcases hzeros' with rfl | rfl <;> decide

end Binary64

namespace FloatNumber

open Binary64

variable {a b c d : FloatNumber}

theorem make_congr {x x' y y' : Float} (hx : same x x' = true) (hy : same y y' = true) :
    (Number.make x y : FloatNumber) = Number.make x' y' := by
  show (⟨(settlePair x y).1, (settlePair x y).2⟩ : FloatNumber) = _
  rw [settlePair_congr hx hy]
  rfl

theorem add_congr (hab : (a == b) = true) (hcd : (c == d) = true) : a + c = b + d :=
  make_congr (same_add (same_re_of_beq hab) (same_re_of_beq hcd))
    (same_add (same_im_of_beq hab) (same_im_of_beq hcd))

theorem sub_congr (hab : (a == b) = true) (hcd : (c == d) = true) : a - c = b - d :=
  make_congr (same_sub (same_re_of_beq hab) (same_re_of_beq hcd))
    (same_sub (same_im_of_beq hab) (same_im_of_beq hcd))

theorem mul_congr (hab : (a == b) = true) (hcd : (c == d) = true) : a * c = b * d :=
  make_congr
    (same_sub (same_mul (same_re_of_beq hab) (same_re_of_beq hcd))
      (same_mul (same_im_of_beq hab) (same_im_of_beq hcd)))
    (same_add (same_mul (same_re_of_beq hab) (same_im_of_beq hcd))
      (same_mul (same_im_of_beq hab) (same_re_of_beq hcd)))

/-- The norm below a quotient is a sum of squares, which have no sign. -/
theorem div_congr (hab : (a == b) = true) (hcd : (c == d) = true) : a / c = b / d := by
  have hnorm : c.re * c.re + c.im * c.im = d.re * d.re + d.im * d.im := by
    rw [square_congr (same_re_of_beq hcd), square_congr (same_im_of_beq hcd)]
  rw [Number.div_def, Number.div_def, hnorm]
  exact make_congr
    (same_div_left (same_add (same_mul (same_re_of_beq hab) (same_re_of_beq hcd))
      (same_mul (same_im_of_beq hab) (same_im_of_beq hcd))) _)
    (same_div_left (same_sub (same_mul (same_im_of_beq hab) (same_re_of_beq hcd))
      (same_mul (same_re_of_beq hab) (same_im_of_beq hcd))) _)

theorem neg_congr (hab : (a == b) = true) : -a = -b :=
  make_congr (same_neg (same_re_of_beq hab)) (same_neg (same_im_of_beq hab))

theorem mod_congr (hab : (a == b) = true) (hcd : (c == d) = true) : a % c = b % d := by
  show a - Number.floor (a / c) * c = b - Number.floor (b / d) * d
  rw [div_congr hab hcd, mul_congr (beq_self _) hcd]
  exact sub_congr hab (beq_self _)

theorem exp_congr (hab : (a == b) = true) : a.exp = b.exp :=
  make_congr
    (same_mul (same_of_eq (Binary64.exp_congr (same_re_of_beq hab)))
      (same_of_eq (Binary64.cos_congr (same_im_of_beq hab))))
    (same_mul (same_of_eq (Binary64.exp_congr (same_re_of_beq hab)))
      (same_sin (same_im_of_beq hab)))

theorem sin_congr (hab : (a == b) = true) : a.sin = b.sin :=
  make_congr
    (same_mul (same_sin (same_re_of_beq hab)) (same_of_eq (cosh_congr (same_im_of_beq hab))))
    (same_mul (same_of_eq (Binary64.cos_congr (same_re_of_beq hab)))
      (same_sinh (same_im_of_beq hab)))

theorem cos_congr (hab : (a == b) = true) : a.cos = b.cos :=
  make_congr
    (same_mul (same_of_eq (Binary64.cos_congr (same_re_of_beq hab)))
      (same_of_eq (cosh_congr (same_im_of_beq hab))))
    (same_mul (same_neg (same_sin (same_re_of_beq hab))) (same_sinh (same_im_of_beq hab)))

theorem abs_congr (hab : (a == b) = true) : a.abs = b.abs :=
  hypotenuse_congr (same_re_of_beq hab) (same_im_of_beq hab)

theorem power_congr_right (c : FloatNumber) (hab : (a == b) = true) : c.power a = c.power b := by
  have hpositive : (Component.isPositive a.re : Bool) = Component.isPositive b.re :=
    congr_of_zeros (f := fun x => decide (0.0 < x)) (by decide) (same_re_of_beq hab)
  have hnegative : (Component.isNegative a.re : Bool) = Component.isNegative b.re :=
    congr_of_zeros (f := fun x => decide (x < 0.0)) (by decide) (same_re_of_beq hab)
  rw [Number.power, Number.power, beq_congr hab, hpositive, hnegative, mul_congr (beq_self _) hab]

theorem log_of_beq_zero (ha : (a == 0) = true) : a.log = ⟨-infinity, 0⟩ := by
  have hre : rank a.re = 0 := same_iff.1 (same_re_of_beq ha)
  have him : rank a.im = 0 := same_iff.1 (same_im_of_beq ha)
  obtain ⟨re, im⟩ := a
  rcases eq_zero_of_rank hre with rfl | rfl <;> rcases eq_zero_of_rank him with rfl | rfl <;> rfl

theorem log_congr (hab : (a == b) = true) (harg : same a.arg b.arg = true) : a.log = b.log := by
  show Number.make (log a.abs) a.arg = Number.make (log b.abs) b.arg
  rw [abs_congr hab]
  exact make_congr (same_self _) harg

theorem power_congr_left (hab : (a == b) = true) (hlog : a.log = b.log) (c : FloatNumber) :
    a.power c = b.power c := by
  rw [Number.power, Number.power, beq_congr hab, hlog]

theorem roots_congr (hab : (a == b) = true) (harg : same a.arg b.arg = true) (n : ℕ) :
    a.roots n = b.roots n := by
  have hsquares : fusedProduct a.re a.re (a.im * a.im) = fusedProduct b.re b.re (b.im * b.im) := by
    rw [square_congr (same_im_of_beq hab)]
    exact fusedProduct_square_congr (same_re_of_beq hab) _
  have hmagnitude := same_of_eq
    (congrArg (power · (1 / (Float.ofNat 2 * Float.ofNat n))) hsquares)
  refine List.map_congr_left fun k _ => ?_
  have hangle := same_div_left (same_fusedProduct (pi + pi) (Float.ofNat k) harg) (Float.ofNat n)
  exact make_congr (same_mul hmagnitude (same_of_eq (Binary64.cos_congr hangle)))
    (same_mul hmagnitude (same_sin hangle))

/-- Two numbers that arithmetic and the functions other than the argument take alike. -/
structure Alike (a b : FloatNumber) : Prop where
  add : ∀ c, a + c = b + c ∧ c + a = c + b
  sub : ∀ c, a - c = b - c ∧ c - a = c - b
  mul : ∀ c, a * c = b * c ∧ c * a = c * b
  div : ∀ c, a / c = b / c ∧ c / a = c / b
  mod : ∀ c, a % c = b % c ∧ c % a = c % b
  neg : -a = -b
  exponent : ∀ c : FloatNumber, c.power a = c.power b
  abs : a.abs = b.abs
  exp : a.exp = b.exp
  sin : a.sin = b.sin
  cos : a.cos = b.cos
  tan : a.tan = b.tan
  cot : a.cot = b.cot
  sec : a.sec = b.sec
  csc : a.csc = b.csc

theorem Alike.of_beq (hab : (a == b) = true) : Alike a b where
  add c := ⟨add_congr hab (beq_self c), add_congr (beq_self c) hab⟩
  sub c := ⟨sub_congr hab (beq_self c), sub_congr (beq_self c) hab⟩
  mul c := ⟨mul_congr hab (beq_self c), mul_congr (beq_self c) hab⟩
  div c := ⟨div_congr hab (beq_self c), div_congr (beq_self c) hab⟩
  mod c := ⟨mod_congr hab (beq_self c), mod_congr (beq_self c) hab⟩
  neg := neg_congr hab
  exponent c := power_congr_right c hab
  abs := abs_congr hab
  exp := exp_congr hab
  sin := sin_congr hab
  cos := cos_congr hab
  tan := by rw [Number.tan, Number.tan, sin_congr hab, cos_congr hab]
  cot := by rw [Number.cot, Number.cot, sin_congr hab, cos_congr hab]
  sec := by rw [Number.sec, Number.sec, cos_congr hab]
  csc := by rw [Number.csc, Number.csc, sin_congr hab]

/-- Two numbers that also the functions take alike that go through the argument. -/
structure AlikeOnBranches (a b : FloatNumber) : Prop where
  log : a.log = b.log
  sqrt : a.sqrt = b.sqrt
  base : ∀ c, a.power c = b.power c

theorem AlikeOnBranches.of_log (hab : (a == b) = true) (hlog : a.log = b.log) :
    AlikeOnBranches a b where
  log := hlog
  sqrt := power_congr_left hab hlog _
  base := power_congr_left hab hlog

/-- Equal numbers are interchangeable in arithmetic, as exponents and in the functions that are
entire or quotients of such. Their arguments agree unless zero imaginary parts put them on opposite
sides of the negative axis; where they agree, or where the numbers are zero, so do logarithms,
square roots and powers, and where they agree, so do the lists of all roots. -/
theorem alike_of_beq (hab : (a == b) = true) :
    Alike a b ∧
    (same a.arg b.arg = true ↔ ¬ Opposite a.im a.re b.im b.re) ∧
    ((a == 0) = true ∨ ¬ Opposite a.im a.re b.im b.re → AlikeOnBranches a b) ∧
    (¬ Opposite a.im a.re b.im b.re → ∀ n, a.roots n = b.roots n) := by
  have harg : same a.arg b.arg = true ↔ ¬ Opposite a.im a.re b.im b.re :=
    same_arctan_iff (same_im_of_beq hab) (same_re_of_beq hab)
  refine ⟨.of_beq hab, harg, fun hsides => .of_log hab ?_, fun hsides n => ?_⟩
  · rcases hsides with hzero | hsides
    · rw [log_of_beq_zero hzero, log_of_beq_zero (by rwa [← beq_congr hab])]
    · exact log_congr hab (harg.2 hsides)
  · exact roots_congr hab (harg.2 hsides) n

/-- Settled to a zero with a sign or without, an imaginary part does not matter on the positive
axis. -/
theorem alike_positive :
    (Number.make 2 (-1e-13) == (Number.make 2 0 : FloatNumber)) = true ∧
      AlikeOnBranches (Number.make 2 (-1e-13)) (Number.make 2 0) ∧
      ∀ n, (Number.make 2 (-1e-13) : FloatNumber).roots n = (Number.make 2 0).roots n := by
  have hbeq : (Number.make 2 (-1e-13) == (Number.make 2 0 : FloatNumber)) = true := by
    decide +kernel
  obtain ⟨-, -, hbranches, hroots⟩ := alike_of_beq hbeq
  exact ⟨hbeq, hbranches (.inr (by decide +kernel)), hroots (by decide +kernel)⟩

/-- On the negative axis it turns the argument and the logarithm. -/
theorem apart_negative :
    (Number.make (-1) (-1e-13) == (Number.make (-1) 0 : FloatNumber)) = true ∧
      same (Number.make (-1) (-1e-13) : FloatNumber).arg (Number.make (-1) 0 : FloatNumber).arg =
        false ∧
      ((Number.make (-1) (-1e-13) : FloatNumber).log == (Number.make (-1) 0).log) = false := by
  decide +kernel

end FloatNumber
end ComplexAlgebra
