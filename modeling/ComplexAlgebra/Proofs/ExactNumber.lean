import Mathlib.Analysis.SpecialFunctions.Pow.Real
import Mathlib.Analysis.SpecialFunctions.Pow.Complex
import Mathlib.RingTheory.RootsOfUnity.Complex
import ComplexAlgebra.Expr

/-! Exact complex numbers as an arithmetic for expressions. Their components are the reals together
with one undefined component, which stands for every division by zero, and which makes every number
it gets into undefined. The operations are those of the program over these components; they come to
the operations of the field of complex numbers. -/
namespace ComplexAlgebra

/-- A real component, or the result of an operation that has none. -/
inductive ExactReal where
  | value (x : ℝ)
  | undefined

namespace ExactReal

def map (f : ℝ → ℝ) : ExactReal → ExactReal
  | value x => value (f x)
  | undefined => undefined

def combine (f : ℝ → ℝ → ℝ) : ExactReal → ExactReal → ExactReal
  | value x, value y => value (f x y)
  | _, _ => undefined

open Classical in
/-- Applies an operation where its arguments are admissible. -/
noncomputable def combineIf (p : ℝ → ℝ → Prop) (f : ℝ → ℝ → ℝ) : ExactReal → ExactReal → ExactReal
  | value x, value y => if p x y then value (f x y) else undefined
  | _, _ => undefined

open Classical in
noncomputable def mapIf (p : ℝ → Prop) (f : ℝ → ℝ) : ExactReal → ExactReal
  | value x => if p x then value (f x) else undefined
  | undefined => undefined

open Classical in
noncomputable instance : Component ExactReal where
  zero := value 0
  one := value 1
  add := combine (· + ·)
  sub := combine (· - ·)
  mul := combine (· * ·)
  div := combineIf (fun _ y => y ≠ 0) (· / ·)
  neg := map (- ·)
  ofNat n := value n
  ofDecimal d := value (d.digits / 10 ^ d.places)
  euler := value (Real.exp 1)
  pi := value Real.pi
  infinity := undefined
  nan := undefined
  same x y := decide (x = y)
  isPositive x := decide (∃ r, x = value r ∧ 0 < r)
  isNegative x := decide (∃ r, x = value r ∧ r < 0)
  natural? x := if h : ∃ n : ℕ, x = value n ∧ n ≤ 4294967295 then some h.choose else none
  settle
    | value x, value y => (value x, value y)
    | _, _ => (undefined, value 0)
  floor := map fun x => ⌊x⌋
  sqrt := mapIf (0 ≤ ·) Real.sqrt
  exp := map Real.exp
  log := mapIf (0 < ·) Real.log
  sin := map Real.sin
  cos := map Real.cos
  sinh := map Real.sinh
  cosh := map Real.cosh
  arctan := combine fun y x => Complex.arg ⟨x, y⟩
  hypotenuse := combine fun x y => Real.sqrt (x ^ 2 + y ^ 2)
  power := combineIf (fun x y => 0 < x ∨ x = 0 ∧ 0 ≤ y) fun x y => x ^ y
  fusedProduct x y z := combine (· + ·) (combine (· * ·) x y) z

theorem same_iff {x y : ExactReal} : Component.same x y = true ↔ x = y := by
  classical exact decide_eq_true_iff

end ExactReal

abbrev ExactNumber := Number ExactReal

open ExactReal

def Number.ofComplex (a : ℂ) : ExactNumber := ⟨value a.re, value a.im⟩

/-- The complex number, unless a component is undefined. -/
def Number.value? : ExactNumber → Option ℂ
  | ⟨value x, value y⟩ => some ⟨x, y⟩
  | _ => none

namespace ExactNumber

open Number (ofComplex make value?)

@[simp] theorem value?_ofComplex (a : ℂ) : (ofComplex a).value? = some a := rfl

theorem value?_eq_some_iff {z : ExactNumber} {a : ℂ} : z.value? = some a ↔ z = ofComplex a := by
  constructor
  · intro h
    rcases z with ⟨re | _, im | _⟩
    · obtain rfl := Option.some.inj h
      rfl
    all_goals cases h
  · rintro rfl
    rfl

theorem eq_of_value? {z w : ExactNumber} {a : ℂ} (hz : z.value? = some a)
    (hw : w.value? = some a) : z = w :=
  (value?_eq_some_iff.1 hz).trans (value?_eq_some_iff.1 hw).symm

theorem ofComplex_injective : Function.Injective ofComplex := by
  intro a b h
  rw [← Option.some.injEq, ← value?_ofComplex a, ← value?_ofComplex b, h]

theorem beq_iff {z w : ExactNumber} : (z == w) = true ↔ z = w := by
  rw [Number.beq_def, Bool.and_eq_true, same_iff, same_iff]
  constructor
  · rintro ⟨hre, him⟩
    cases z; cases w
    cases hre; cases him
    rfl
  · rintro rfl
    exact ⟨rfl, rfl⟩

@[simp] theorem ofComplex_zero : ofComplex 0 = 0 := rfl

@[simp] theorem ofComplex_one : ofComplex 1 = 1 := rfl

theorem ofComplex_beq_zero {a : ℂ} : (ofComplex a == 0) = true ↔ a = 0 := by
  rw [beq_iff, ← ofComplex_zero, ofComplex_injective.eq_iff]

theorem value?_make (x y : ExactReal) :
    (make x y).value? = (⟨x, y⟩ : ExactNumber).value? := by
  cases x <;> cases y <;> rfl

theorem value?_add (z w : ExactNumber) :
    (z + w).value? = z.value?.bind fun a => w.value?.map fun b => a + b := by
  rw [Number.add_def, value?_make]
  rcases z with ⟨_ | _, _ | _⟩ <;> rcases w with ⟨_ | _, _ | _⟩ <;> rfl

theorem value?_sub (z w : ExactNumber) :
    (z - w).value? = z.value?.bind fun a => w.value?.map fun b => a - b := by
  rw [Number.sub_def, value?_make]
  rcases z with ⟨_ | _, _ | _⟩ <;> rcases w with ⟨_ | _, _ | _⟩ <;> rfl

theorem value?_neg (z : ExactNumber) : (-z).value? = z.value?.map fun a => -a := by
  rw [Number.neg_def, value?_make]
  rcases z with ⟨_ | _, _ | _⟩ <;> rfl

theorem value?_mul (z w : ExactNumber) :
    (z * w).value? = z.value?.bind fun a => w.value?.map fun b => a * b := by
  rw [Number.mul_def, value?_make]
  rcases z with ⟨_ | _, _ | _⟩ <;> rcases w with ⟨_ | _, _ | _⟩ <;> rfl

theorem div_value (x y : ℝ) :
    value x / value y = if y = 0 then undefined else value (x / y) := by
  show combineIf _ _ _ _ = _
  simp [combineIf]

theorem value?_div (z w : ExactNumber) :
    (z / w).value? = z.value?.bind fun a => w.value?.bind fun b =>
      if b = 0 then none else some (a / b) := by
  rw [Number.div_def, value?_make]
  rcases z with ⟨x | _, y | _⟩ <;> rcases w with ⟨u | _, v | _⟩
  · show (⟨value _ / value _, value _ / value _⟩ : ExactNumber).value? = _
    have hb : (⟨u, v⟩ : ℂ) = 0 ↔ u * u + v * v = 0 := by
      rw [mul_self_add_mul_self_eq_zero, Complex.ext_iff]
      rfl
    rw [div_value, div_value]
    by_cases h : u * u + v * v = 0
    · rw [if_pos h, if_pos h]
      exact (if_pos (hb.2 h)).symm
    · rw [if_neg h, if_neg h]
      refine Eq.trans ?_ (if_neg (mt hb.1 h)).symm
      rw [value?, Option.some.injEq, Complex.ext_iff, Complex.div_re, Complex.div_im]
      simp only [Complex.normSq_mk]
      constructor <;> ring
  all_goals rfl

theorem value?_log (z : ExactNumber) :
    z.log.value? = z.value?.bind fun a => if a = 0 then none else some (Complex.log a) := by
  rw [Number.log, value?_make]
  rcases z with ⟨x | _, y | _⟩
  · show (⟨mapIf (0 < ·) Real.log (value (Real.sqrt (x ^ 2 + y ^ 2))),
      value (Complex.arg ⟨x, y⟩)⟩ : ExactNumber).value? = _
    have hnorm : Real.sqrt (x ^ 2 + y ^ 2) = ‖(⟨x, y⟩ : ℂ)‖ := by
      rw [Complex.norm_def, Complex.normSq_mk, sq, sq]
    rw [hnorm, mapIf]
    by_cases h : (⟨x, y⟩ : ℂ) = 0
    · rw [if_neg (by simp [h])]
      exact (if_pos h).symm
    · rw [if_pos (norm_pos_iff.2 h)]
      refine Eq.trans ?_ (if_neg h).symm
      rw [value?, Option.some.injEq, Complex.ext_iff, Complex.log_re, Complex.log_im]
      exact ⟨rfl, rfl⟩
  all_goals rfl

theorem value?_exp (z : ExactNumber) : z.exp.value? = z.value?.map Complex.exp := by
  rw [Number.exp, value?_make]
  rcases z with ⟨x | _, y | _⟩
  · show (⟨value (Real.exp x * Real.cos y), value (Real.exp x * Real.sin y)⟩ :
      ExactNumber).value? = _
    rw [value?, value?, Option.map_some, Option.some.injEq, Complex.ext_iff, Complex.exp_re,
      Complex.exp_im]
    exact ⟨rfl, rfl⟩
  all_goals rfl

theorem isPositive_re_ofComplex (a : ℂ) :
    Component.isPositive (ofComplex a).re = true ↔ 0 < a.re := by
  classical
  refine decide_eq_true_iff.trans ⟨?_, fun h => ⟨a.re, rfl, h⟩⟩
  rintro ⟨r, hr, h⟩
  cases hr
  exact h

theorem value?_power (z : ExactNumber) (b : ℂ) :
    (z.power (ofComplex b)).value? = z.value?.bind fun a =>
      if a = 0 ∧ b ≠ 0 ∧ ¬ 0 < b.re then none else some (a ^ b) := by
  rw [Number.power]
  by_cases hz : z = 0
  · rw [if_pos (beq_iff.2 hz), hz]
    show _ = if (0 : ℂ) = 0 ∧ b ≠ 0 ∧ ¬ 0 < b.re then none else some ((0 : ℂ) ^ b)
    by_cases hb : b = 0
    · rw [if_pos (ofComplex_beq_zero.2 hb), if_neg (by simp [hb]), hb, Complex.cpow_zero]
      rfl
    · rw [if_neg (mt ofComplex_beq_zero.1 hb)]
      by_cases hpos : 0 < b.re
      · rw [if_pos ((isPositive_re_ofComplex b).2 hpos), if_neg (by simp [hpos]),
          Complex.zero_cpow hb]
        rfl
      · rw [if_neg (mt (isPositive_re_ofComplex b).1 hpos)]
        refine Eq.trans ?_ (if_pos ⟨rfl, hb, hpos⟩).symm
        split <;> rfl
  · rw [if_neg (mt beq_iff.1 hz), value?_exp]
    show ((z.log * ofComplex b).value?).map Complex.exp = _
    rw [value?_mul, value?_log]
    rcases ha : z.value? with _ | a
    · rfl
    · have ha0 : a ≠ 0 := by
        rintro rfl
        exact hz (value?_eq_some_iff.1 ha)
      simp [ha0, Complex.cpow_def_of_ne_zero ha0]

theorem mul_beq_one (a b : ExactNumber) (ha : (a == 1) = true) (hb : (b == 1) = true) :
    (a * b == 1) = true := by
  obtain rfl := beq_iff.1 ha
  obtain rfl := beq_iff.1 hb
  refine beq_iff.2 (eq_of_value? (a := 1) ?_ rfl)
  rw [value?_mul]
  exact congrArg some (one_mul 1)

theorem div_beq_one (a b : ExactNumber) (ha : (a == 1) = true) (hb : (b == 1) = true) :
    (a / b == 1) = true := by
  obtain rfl := beq_iff.1 ha
  obtain rfl := beq_iff.1 hb
  refine beq_iff.2 (eq_of_value? (a := 1) ?_ rfl)
  rw [value?_div]
  exact (if_neg one_ne_zero).trans (congrArg some (div_one 1))

noncomputable instance : Arithmetic ExactNumber :=
  Number.arithmetic (beq_iff.2 rfl) mul_beq_one div_beq_one

@[simp] theorem one_beq_zero : ((1 : ExactNumber) == 0) = false :=
  Bool.eq_false_iff.2 fun h => one_ne_zero (ofComplex_beq_zero.1 h)

theorem ofDecimal_natural (n : ℕ) :
    (Arithmetic.ofDecimal ⟨n, 0⟩ : ExactNumber) = ofComplex n := by
  refine eq_of_value? (a := n) ?_ rfl
  show some (⟨(n : ℝ) / 10 ^ 0, 0⟩ : ℂ) = some n
  rw [pow_zero, div_one]
  rfl

theorem natural?_eq_some_iff {x : ExactReal} {n : Nat} :
    Component.natural? x = some n ↔ x = value n ∧ n ≤ 4294967295 := by
  classical
  show (if h : ∃ n : ℕ, x = value n ∧ n ≤ 4294967295 then some h.choose else none) = some n ↔ _
  by_cases h : ∃ n : ℕ, x = value n ∧ n ≤ 4294967295
  · have hspec := h.choose_spec
    rw [dif_pos h, Option.some.injEq]
    constructor
    · intro hn
      rwa [hn] at hspec
    · rintro ⟨rfl, -⟩
      have hcast := ExactReal.value.inj hspec.1
      exact_mod_cast hcast.symm
  · rw [dif_neg h]
    exact ⟨nofun, fun hn => absurd ⟨n, hn⟩ h⟩

theorem degree?_eq_some_iff {z : ExactNumber} {n : Nat} :
    z.degree? = some n ↔ z.value? = some (n : ℂ) ∧ n ≤ 4294967295 := by
  rw [Number.degree?, value?_eq_some_iff]
  by_cases him : z.im = 0
  · rw [if_pos (same_iff.2 him), natural?_eq_some_iff]
    refine and_congr_left fun _ => ⟨fun hre => ?_, fun hz => congrArg Number.re hz⟩
    cases z
    cases hre
    cases him
    rfl
  · rw [if_neg (mt same_iff.1 him)]
    refine ⟨nofun, fun h => absurd ?_ him⟩
    rw [h.1]
    exact congrArg value (Complex.natCast_im n)

/-- The root that lies `k` turns of a whole circle behind the principal one, each divided by the
degree. -/
noncomputable def rootAt (a : ℂ) (n k : Nat) : ℂ :=
  ((‖a‖ ^ (1 / n : ℝ) : ℝ) : ℂ) * Complex.exp ((2 * Real.pi * k + a.arg) / n * Complex.I)

theorem rootAt_eq_mul (a : ℂ) (n k : Nat) :
    rootAt a n k = Complex.exp (2 * Real.pi * Complex.I / n) ^ k * rootAt a n 0 := by
  rw [rootAt, rootAt, ← Complex.exp_nat_mul, mul_left_comm, ← Complex.exp_add]
  congr 2
  push_cast
  ring

theorem rootAt_pow {n : Nat} (hn : n ≠ 0) (a : ℂ) (k : Nat) : rootAt a n k ^ n = a := by
  have hturn : (Complex.exp (2 * Real.pi * Complex.I / n) ^ k) ^ n = 1 := by
    rw [pow_right_comm, (Complex.isPrimitiveRoot_exp n hn).pow_eq_one, one_pow]
  have hprincipal : rootAt a n 0 ^ n = a := by
    have hexp : Complex.exp ((2 * Real.pi * (0 : Nat) + a.arg) / n * Complex.I) ^ n =
        Complex.exp (a.arg * Complex.I) := by
      rw [← Complex.exp_nat_mul]
      congr 1
      push_cast
      field_simp
      ring
    have hnorm : (‖a‖ ^ (1 / n : ℝ)) ^ n = ‖a‖ := by
      rw [one_div]
      exact Real.rpow_inv_natCast_pow (norm_nonneg a) hn
    rw [rootAt, mul_pow, hexp, ← Complex.ofReal_pow, hnorm, Complex.norm_mul_exp_arg_mul_I]
  rw [rootAt_eq_mul, mul_pow, hturn, one_mul, hprincipal]

theorem exists_rootAt {n : Nat} (hn : n ≠ 0) {a b : ℂ} (h : b ^ n = a) :
    ∃ k < n, rootAt a n k = b := by
  have : NeZero n := ⟨hn⟩
  by_cases hb : b = 0
  · refine ⟨0, Nat.pos_of_ne_zero hn, ?_⟩
    have hpow := rootAt_pow hn a 0
    rw [← h, hb, zero_pow hn] at hpow
    rw [hb, ← h, hb, zero_pow hn]
    exact pow_eq_zero_iff hn |>.1 hpow
  · have hroot : rootAt a n 0 ≠ 0 := by
      intro h0
      have hpow := rootAt_pow hn a 0
      rw [h0, zero_pow hn, ← h] at hpow
      exact hb (pow_eq_zero_iff hn |>.1 hpow.symm)
    have hone : (b / rootAt a n 0) ^ n = 1 := by
      rw [div_pow, h, rootAt_pow hn, div_self]
      rw [← h]
      exact pow_ne_zero n hb
    obtain ⟨k, hk, heq⟩ := (Complex.isPrimitiveRoot_exp n hn).eq_pow_of_pow_eq_one hone
    refine ⟨k, hk, ?_⟩
    rw [rootAt_eq_mul, heq, div_mul_cancel₀ b hroot]

theorem power_value {x y : ℝ} (hx : 0 ≤ x) (hy : 0 ≤ y) :
    Component.power (value x) (value y) = value (x ^ y) := by
  show combineIf _ _ _ _ = _
  rw [combineIf, if_pos]
  rcases hx.lt_or_eq with h | h
  · exact .inl h
  · exact .inr ⟨h.symm, hy⟩

theorem rpow_normSq (a : ℂ) (n : Nat) :
    (a.re * a.re + a.im * a.im) ^ (1 / (2 * n : ℝ)) = ‖a‖ ^ (1 / n : ℝ) := by
  have hsq : a.re * a.re + a.im * a.im = ‖a‖ ^ (2 : ℝ) := by
    rw [← Complex.normSq_apply, Complex.normSq_eq_norm_sq, ← Real.rpow_natCast]
    norm_num
  rw [hsq, ← Real.rpow_mul (norm_nonneg a)]
  congr 1
  ring

theorem roots_ofComplex {n : Nat} (hn : n ≠ 0) (a : ℂ) :
    (ofComplex a).roots n = (List.range n).map fun k => ofComplex (rootAt a n k) := by
  have hn' : (n : ℝ) ≠ 0 := Nat.cast_ne_zero.2 hn
  have hdiv : (1 : ExactReal) / (Component.ofNat 2 * Component.ofNat n) =
      value (1 / (2 * n : ℝ)) := by
    refine (div_value 1 (((2 : Nat) : ℝ) * n)).trans ?_
    rw [if_neg (mul_ne_zero (by norm_num) hn'), Nat.cast_ofNat]
  have hmag : Component.power (Component.fusedProduct (ofComplex a).re (ofComplex a).re
      ((ofComplex a).im * (ofComplex a).im)) (1 / (Component.ofNat 2 * Component.ofNat n)) =
      value (‖a‖ ^ (1 / n : ℝ)) := by
    rw [hdiv]
    refine (power_value (add_nonneg (mul_self_nonneg a.re) (mul_self_nonneg a.im))
      (by positivity)).trans ?_
    rw [rpow_normSq]
  rw [Number.roots]
  refine List.map_congr_left fun k _ => ?_
  simp only [hmag]
  have hangle : Component.fusedProduct (Component.pi + Component.pi) (Component.ofNat k)
      (ofComplex a).arg / (Component.ofNat n : ExactReal) =
      value (((Real.pi + Real.pi) * k + a.arg) / n) :=
    (div_value _ _).trans (if_neg hn')
  rw [hangle]
  show ofComplex ⟨‖a‖ ^ (1 / n : ℝ) * Real.cos _, ‖a‖ ^ (1 / n : ℝ) * Real.sin _⟩ = _
  congr 1
  have harg : (2 * Real.pi * k + a.arg) / n * Complex.I =
      ((((Real.pi + Real.pi) * k + a.arg) / n : ℝ) : ℂ) * Complex.I := by
    push_cast
    ring
  rw [rootAt, harg, Complex.ext_iff, Complex.re_ofReal_mul, Complex.im_ofReal_mul,
    Complex.exp_ofReal_mul_I_re, Complex.exp_ofReal_mul_I_im]
  exact ⟨rfl, rfl⟩

theorem value?_of_mem_roots_undefined {n : Nat} {z w : ExactNumber} (hz : z.value? = none)
    (hw : w ∈ z.roots n) : w.value? = none := by
  obtain ⟨k, -, rfl⟩ := List.mem_map.1 hw
  rw [value?_make]
  rcases z with ⟨x | _, y | _⟩
  · cases hz
  all_goals rfl

theorem mem_roots {n : Nat} (hn : n ≠ 0) {z w : ExactNumber} {b : ℂ} (hw : w.value? = some b) :
    w ∈ z.roots n ↔ z.value? = some (b ^ n) := by
  rcases hz : z.value? with _ | a
  · refine ⟨fun h => ?_, nofun⟩
    rw [value?_of_mem_roots_undefined hz h] at hw
    cases hw
  · obtain rfl := value?_eq_some_iff.1 hz
    obtain rfl := value?_eq_some_iff.1 hw
    rw [roots_ofComplex hn, List.mem_map, Option.some.injEq]
    constructor
    · rintro ⟨k, -, hk⟩
      rw [← ofComplex_injective hk, rootAt_pow hn]
    · intro h
      obtain ⟨k, hk, heq⟩ := exists_rootAt hn h.symm
      exact ⟨k, List.mem_range.2 hk, congrArg ofComplex heq⟩

end ExactNumber
end ComplexAlgebra
