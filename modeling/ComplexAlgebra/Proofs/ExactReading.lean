import ComplexAlgebra.Proofs.ExactSimplification
import ComplexAlgebra.Proofs.Printing

/-! The value of the tree that the text of an expression is read as, in exact arithmetic. An operand
that is not in brackets and has the imaginary unit behind its number is two atoms. In sums, products
and exponents they stand for the number they write; a divisor or the base of a power ends with the
first of them, and the imaginary unit multiplies the quotient or is raised to the power alone. -/
namespace ComplexAlgebra

open ExactNumber

namespace Binary64

open Float.Model Float.Model.UnpackedFloat

/-- The real number that a finite double stands for. -/
noncomputable def exact (x : Float) : ExactReal :=
  match x.toModel.unpack with
  | .zero _ => .value 0
  | .finite .positive m q _ => .value (m * 2 ^ q : ℚ)
  | .finite .negative m q _ => .value (-(m * 2 ^ q : ℚ))
  | .infinity _ => .undefined
  | .notANumber => .undefined

/-- A double stands for a real number, its magnitude for that of the number, and it compares to zero
like the number. -/
structure Stands (x : Float) (r : ℝ) : Prop where
  exact_eq : exact x = .value r
  exact_abs : exact x.abs = .value |r|
  beq_zero_iff : (x == 0) = true ↔ r = 0
  lt_zero_iff : x < 0 ↔ r < 0

theorem exists_stands {x : Float} (h : x.isFinite = true) : ∃ r, Stands x r := by
  rcases unpack_of_isFinite h with ⟨h0, s, hu⟩ | ⟨h0, s, m, q, hm, hu, hneg⟩
  · refine ⟨0, ?_, ?_, iff_of_true h0 rfl, iff_of_false ?_ (lt_irrefl 0)⟩
    · rw [exact, hu]
    · rw [abs_of_zero hu, abs_zero]
      rfl
    · rw [lt_zero_iff, hu]
      exact Bool.false_ne_true
  · have hpos : (0 : ℝ) < (m * 2 ^ q : ℚ) :=
      Rat.cast_pos.2 (mul_pos (Nat.cast_pos.2 hm) (zpow_pos (by norm_num) q))
    have habs : exact x.abs = .value (m * 2 ^ q : ℚ) := by rw [exact, unpack_abs hu]
    cases s with
    | positive =>
      refine ⟨(m * 2 ^ q : ℚ), ?_, ?_, iff_of_false (by rw [h0]; decide) hpos.ne',
        iff_of_false (by rw [hneg]; exact nofun) hpos.not_gt⟩
      · rw [exact, hu]
      · rw [habs, abs_of_pos hpos]
    | negative =>
      refine ⟨-(m * 2 ^ q : ℚ), ?_, ?_, iff_of_false (by rw [h0]; decide) (neg_ne_zero.2 hpos.ne'),
        iff_of_true (hneg.2 rfl) (neg_lt_zero.2 hpos)⟩
      · rw [exact, hu]
      · rw [habs, abs_neg, abs_of_pos hpos]

theorem Stands.isFinite {x : Float} {r : ℝ} (h : Stands x r) : x.isFinite = true := by
  have hexact := h.exact_eq
  show x.toModel.unpack.isFinite = true
  rw [exact] at hexact
  cases hu : x.toModel.unpack with
  | zero s => rfl
  | finite s m q hm => rfl
  | infinity s => rw [hu] at hexact; cases hexact
  | notANumber => rw [hu] at hexact; cases hexact

theorem Stands.abs_eq_one {x : Float} {r : ℝ} (h : Stands x r) (hone : (x.abs == 1) = true) :
    |r| = 1 := by
  have hunit : (1 : Float).toModel.unpack = .finite .positive (2 ^ 52) (-52) (by decide) := by rfl
  have habs := h.exact_abs
  rw [eq_of_beq_positive hunit hone, exact, hunit] at habs
  have hvalue : (((2 ^ 52 : ℕ) * 2 ^ (-52 : ℤ) : ℚ) : ℝ) = |r| := ExactReal.value.inj habs
  rw [← hvalue]
  norm_num

end Binary64

/-- Exact arithmetic that reads a numeral as the double it denotes. -/
@[reducible] noncomputable def ExactNumber.reading : Arithmetic ExactNumber :=
  { (inferInstance : Arithmetic ExactNumber) with
    ofDecimal := fun d => Number.ofReal (Binary64.exact d.toFloat) }

noncomputable def FloatNumber.exact (z : FloatNumber) : ExactNumber :=
  ⟨Binary64.exact z.re, Binary64.exact z.im⟩

noncomputable def Expr.exact : Expr FloatNumber → Expr ExactNumber
  | .constant v => .constant (v.map FloatNumber.exact)
  | .var name c => .var name c.exact
  | .op o l r => .op o l.exact r.exact

namespace Grammar

open ComplexAlgebra.Expr (Denotes)

variable {ρ : Char → Option ℂ} {e : Expr ExactNumber} {p q : Atoms ExactNumber} {a b c : ℂ}

/-- An operand that is not in brackets is an atom, or a number with the imaginary unit behind it. -/
inductive Atoms.Writes (ρ : Char → Option ℂ) : Atoms ExactNumber → ℂ → Prop
  | single {e : Expr ExactNumber} {a : ℂ} (h : Denotes ρ e a) : Writes ρ (.single e) a
  | imaginary {e : Expr ExactNumber} {a : ℂ} (h : Denotes ρ e a) :
    Writes ρ (.times e (.number Number.imaginaryUnit)) (a * Complex.I)

theorem denotes_imaginaryUnit : Denotes ρ (.number Number.imaginaryUnit) Complex.I :=
  .number (value?_eq_some_iff.2 (by rw [Number.ofComplex, Complex.I_re, Complex.I_im]; rfl))

theorem Atoms.Writes.denotes (h : p.Writes ρ a) : Denotes ρ p.tree a := by
  cases h with
  | single h => rwa [Atoms.tree_single]
  | imaginary h =>
    rw [Atoms.tree_times]
    exact h.mul denotes_imaginaryUnit

theorem Atoms.Writes.not_additive (h : p.Writes ρ a) :
    ∀ j ∈ p.others, j.isAdditive = false := by
  cases h with
  | single h => exact List.forall_mem_nil _
  | imaginary h => exact List.forall_mem_singleton.2 rfl

theorem Atoms.Writes.join_additive {o : Operator} (ho : o = .add ∨ o = .sub) (hp : p.Writes ρ a)
    (hq : q.Writes ρ b) (h : o.Computes a b c) : Denotes ρ (p.join o q).tree c := by
  rw [Atoms.tree_join_additive ho _ _ hq.not_additive]
  exact .op hp.denotes hq.denotes h

theorem Atoms.Writes.join_single {o : Operator} (he : Denotes ρ e a) (hq : q.Writes ρ b)
    (h : o.Computes a b c) (hdiv : o = .div → q.others = []) :
    Denotes ρ ((Atoms.single e).join o q).tree c := by
  cases hq with
  | single hf =>
    rw [Atoms.tree_join_single]
    exact .op he hf h
  | imaginary hf =>
    cases h with
    | add => exact join_additive (.inl rfl) (.single he) (.imaginary hf) (.add _ _)
    | sub => exact join_additive (.inr rfl) (.single he) (.imaginary hf) (.sub _ _)
    | mul =>
      rw [Atoms.tree_product_times (.inl rfl)]
      exact ((he.mul hf).mul denotes_imaginaryUnit).of_eq (mul_assoc _ _ _)
    | div => exact absurd (hdiv rfl) (List.cons_ne_nil _ _)
    | pow h =>
      rw [Atoms.tree_pow_times]
      exact .op he (hf.mul denotes_imaginaryUnit) (.pow h)

/-- An operator between two operands applies to the numbers they write, unless a divisor or the base
of a power is more than one atom. -/
theorem Atoms.Writes.join {o : Operator} (hp : p.Writes ρ a) (hq : q.Writes ρ b)
    (h : o.Computes a b c) (hdiv : o = .div → q.others = []) (hpow : o = .pow → p.others = []) :
    Denotes ρ (p.join o q).tree c := by
  cases hp with
  | single he => exact join_single he hq h hdiv
  | imaginary he =>
    have hrest {x : ℂ} (h : o.Computes Complex.I b x) :
        Denotes ρ ((Atoms.single (.number Number.imaginaryUnit)).join o q).tree x :=
      join_single denotes_imaginaryUnit hq h hdiv
    cases h with
    | add => exact join_additive (.inl rfl) (.imaginary he) hq (.add _ _)
    | sub => exact join_additive (.inr rfl) (.imaginary he) hq (.sub _ _)
    | mul =>
      rw [Atoms.tree_times_join _ _ rfl hq.not_additive]
      exact (he.mul (hrest (.mul _ _))).of_eq (mul_assoc _ _ _).symm
    | div _ hb =>
      rw [Atoms.tree_times_join _ _ rfl hq.not_additive]
      exact (he.mul (hrest (.div _ hb))).of_eq (mul_div_assoc _ _ _).symm
    | pow => exact absurd (hpow rfl) (List.cons_ne_nil _ _)

theorem Atoms.Writes.join_div (hp : p.Writes ρ a) (he : Denotes ρ e b) (hb : b ≠ 0) :
    Denotes ρ (p.join .div (.times e (.number Number.imaginaryUnit))).tree
      (-(a / (b * Complex.I))) := by
  have hquotient {f : Expr ExactNumber} {x : ℂ} (hf : Denotes ρ f x) : Denotes ρ
      ((Atoms.single f).join .div (.times e (.number Number.imaginaryUnit))).tree
      (-(x / (b * Complex.I))) := by
    rw [Atoms.tree_product_times (.inr rfl)]
    refine ((hf.div he hb).mul denotes_imaginaryUnit).of_eq ?_
    rw [mul_comm b, div_mul_eq_div_div, Complex.div_I]
    ring
  cases hp with
  | single hf => exact hquotient hf
  | imaginary hf =>
    rw [Atoms.tree_times_join _ _ rfl (Atoms.Writes.imaginary he).not_additive]
    refine (hf.mul (hquotient denotes_imaginaryUnit)).of_eq ?_
    rw [mul_neg, mul_div_assoc]

theorem Atoms.Writes.join_pow {x : ℂ} (he : Denotes ρ e a) (hq : q.Writes ρ b)
    (h : Operator.pow.Computes Complex.I b x) :
    Denotes ρ ((Atoms.times e (.number Number.imaginaryUnit)).join .pow q).tree (a * x) := by
  rw [Atoms.tree_times_join _ _ rfl hq.not_additive]
  exact he.mul (join_single denotes_imaginaryUnit hq h nofun)

theorem denotes_underSign (negative : Bool) (h : Denotes ρ e a) :
    Denotes ρ (@underSign _ ExactNumber.reading negative e) (if negative then -a else a) := by
  cases negative with
  | false => exact h
  | true => exact (Expr.denotes_zero.sub h).of_eq (zero_sub a)

end Grammar

namespace FloatNumber

open Binary64 (Stands)
open Grammar
open ComplexAlgebra.Expr (Denotes)

variable {ρ : Char → Option ℂ} {x y : ℝ} {u v : Float}

theorem value?_reading {d : Decimal} {r : ℝ} (h : Binary64.exact d.toFloat = .value r) :
    Number.value? (ExactNumber.reading.ofDecimal d) = some (r : ℂ) := by
  show (Number.make (Binary64.exact d.toFloat) 0).value? = some (r : ℂ)
  rw [h]
  rfl

theorem denotes_magnitude (h : Stands u x) :
    Denotes ρ (@magnitude _ ExactNumber.reading u) (|x| : ℝ) := by
  refine .number (value?_reading ?_)
  rw [Binary64.toFloat_numeral h.isFinite, h.exact_abs]

theorem abs_underSign (h : Stands u x) : (if decide (u < 0) then -|x| else |x|) = x := by
  by_cases hneg : u < 0
  · rw [decide_eq_true hneg, if_pos rfl, abs_of_neg (h.lt_zero_iff.1 hneg), neg_neg]
  · rw [decide_eq_false hneg, if_neg Bool.false_ne_true,
      abs_of_nonneg (not_lt.1 (mt h.lt_zero_iff.2 hneg))]

theorem ofReal_underSign (negative : Bool) (r : ℝ) :
    ((if negative then -r else r : ℝ) : ℂ) = if negative then -(r : ℂ) else (r : ℂ) := by
  cases negative with
  | false => rfl
  | true => exact Complex.ofReal_neg r

theorem denotes_real (h : Stands u x) :
    Denotes ρ
      (@underSign _ ExactNumber.reading (u < 0) (@magnitude _ ExactNumber.reading u)) x := by
  refine (denotes_underSign _ (denotes_magnitude h)).of_eq ?_
  rw [← ofReal_underSign, abs_underSign h]

theorem stands_abs (h : Stands u x) (h0 : (u == 0) = false) : Stands u.abs |x| := by
  obtain ⟨hfinite, habs, hneg⟩ := Binary64.abs_of_isFinite h.isFinite h0
  obtain ⟨r, hr⟩ := Binary64.exists_stands hfinite
  obtain rfl : r = |x| := ExactReal.value.inj (hr.exact_eq.symm.trans h.exact_abs)
  exact hr

theorem writes_imaginary (negative : Bool) (h : Stands v y) (h0 : (v == 0) = false) :
    (@imaginaryAtoms _ ExactNumber.reading negative v).Writes ρ
      ((if negative then -|y| else |y| : ℝ) * Complex.I) := by
  unfold imaginaryAtoms
  rw [ofReal_underSign]
  by_cases hone : (v.abs == 1) = true
  · rw [if_pos hone, h.abs_eq_one hone]
    have hunit := denotes_underSign negative (denotes_imaginaryUnit (ρ := ρ))
    refine .single (hunit.of_eq ?_)
    cases negative with
    | false => simp
    | true => simp
  · rw [if_neg hone]
    have hmagnitude := denotes_magnitude (ρ := ρ) (stands_abs h h0)
    rw [abs_abs] at hmagnitude
    exact .imaginary (denotes_underSign negative hmagnitude)

theorem computes_parts (a : ℂ) (h : Stands v y) :
    (if v < 0 then Operator.sub else .add).Computes a (|y| * Complex.I) (a + y * Complex.I) := by
  by_cases hneg : v < 0
  · have hsub : a + y * Complex.I = a - |y| * Complex.I := by
      rw [abs_of_neg (h.lt_zero_iff.1 hneg), Complex.ofReal_neg]
      ring
    rw [if_pos hneg, hsub]
    exact .sub _ _
  · rw [if_neg hneg, abs_of_nonneg (not_lt.1 (mt h.lt_zero_iff.2 hneg))]
    exact .add _ _

theorem writes_atoms {z : FloatNumber} (hre : Stands z.re x) (him : Stands z.im y) :
    ((@atoms _ ExactNumber.reading z).enclosed (z.re != 0 && z.im != 0)).Writes ρ ⟨x, y⟩ := by
  have hparts : (⟨x, y⟩ : ℂ) = x + y * Complex.I := Complex.mk_eq_add_mul_I x y
  rw [hparts]
  unfold atoms
  cases h0 : z.re == 0 with
  | true =>
    obtain rfl := hre.beq_zero_iff.1 h0
    have hneeded : (z.re != 0 && z.im != 0) = false := by rw [bne, h0]; rfl
    rw [hneeded, if_pos rfl, Complex.ofReal_zero, zero_add]
    cases h0' : z.im == 0 with
    | true =>
      obtain rfl := him.beq_zero_iff.1 h0'
      rw [if_pos rfl, Complex.ofReal_zero, zero_mul]
      exact .single (.number (value?_reading rfl))
    | false =>
      have himaginary := writes_imaginary (ρ := ρ) (decide (z.im < 0)) him h0'
      rw [abs_underSign him] at himaginary
      exact himaginary
  | false =>
    have hreal := denotes_real (ρ := ρ) hre
    cases h0' : z.im == 0 with
    | true =>
      obtain rfl := him.beq_zero_iff.1 h0'
      have hneeded : (z.re != 0 && z.im != 0) = false := by
        rw [bne, bne, h0']
        exact Bool.and_false _
      rw [hneeded, if_neg Bool.false_ne_true, if_pos rfl, Complex.ofReal_zero, zero_mul, add_zero]
      exact .single hreal
    | false =>
      have hneeded : (z.re != 0 && z.im != 0) = true := by rw [bne, bne, h0, h0']; rfl
      have himaginary := writes_imaginary (ρ := ρ) false him h0'
      rw [hneeded, if_neg Bool.false_ne_true, if_neg Bool.false_ne_true]
      refine .single
        (Atoms.Writes.join_additive ?_ (.single hreal) himaginary (computes_parts x him))
      split
      · exact .inr rfl
      · exact .inl rfl

/-- A number with an imaginary part only, whose magnitude is not one: its text is two atoms. -/
def isScaledUnit (z : FloatNumber) : Bool := z.re == 0 && z.im != 0 && z.im.abs != 1

theorem others_eq_nil_iff {K : Type} [Arithmetic K] {z : FloatNumber} :
    ((atoms z : Atoms K).enclosed (z.re != 0 && z.im != 0)).others = [] ↔
      z.isScaledUnit = false := by
  unfold atoms isScaledUnit bne
  cases h0 : z.re == 0 with
  | false =>
    refine iff_of_true ?_ rfl
    cases h0' : z.im == 0 with
    | true => rfl
    | false => rfl
  | true =>
    rw [if_pos rfl]
    cases h0' : z.im == 0 with
    | true => exact iff_of_true rfl rfl
    | false =>
      rw [if_neg Bool.false_ne_true, imaginaryAtoms]
      cases hone : z.im.abs == 1 with
      | true => exact iff_of_true rfl rfl
      | false => exact iff_of_false (List.cons_ne_nil _ _) (by decide)

theorem exact_of_rank {x : Float} (h : Binary64.rank x = 0) : Binary64.exact x = .value 0 := by
  obtain ⟨s, hs⟩ := Binary64.unpack_of_rank h
  rw [Binary64.exact, hs]

theorem value?_exact_one {c : FloatNumber} (h : (c == 1) = true) : c.exact.value? = some 1 := by
  have hunit : Binary64.exact 1.0 = .value 1 := by
    rw [Binary64.exact, Binary64.unpack_unit]
    norm_num
  have him : Binary64.exact c.im = .value 0 :=
    exact_of_rank ((Binary64.same_iff.1 (same_im_of_beq h)).trans rank_one_im)
  have hre : c.re = 1.0 := by rcases eq_one_of_beq h with rfl | rfl <;> rfl
  rw [exact, him, hre, hunit]
  rfl

theorem value?_exact_neg_one {c : FloatNumber} (h : (c == -1) = true) :
    c.exact.value? = some (-1) := by
  have hunit : Binary64.exact (-1.0) = .value (-1) := by
    have hunpack : (-1.0 : Float).toModel.unpack =
        .finite .negative (1 * 2 ^ 52) (0 - (52 : Nat)) (by decide) := by rfl
    rw [Binary64.exact, hunpack]
    norm_num
  have him : Binary64.exact c.im = .value 0 :=
    exact_of_rank ((Binary64.same_iff.1 (same_im_of_beq h)).trans (by decide))
  have hone : Binary64.rank (-1 : FloatNumber).re = Binary64.rank (-1.0) := by
    set_option maxRecDepth 4000 in
    with_unfolding_all decide
  have hsame : Binary64.same c.re (-1.0) = true :=
    Binary64.same_iff.2 ((Binary64.same_iff.1 (same_re_of_beq h)).trans hone)
  rcases Binary64.eq_of_same hsame with hre | ⟨-, h0⟩
  · rw [exact, him, hre, hunit]
    exact congrArg some (Complex.ext rfl neg_zero.symm)
  · exact absurd h0 (by decide)

theorem value?_exact {z : FloatNumber} (hre : Stands z.re x) (him : Stands z.im y) :
    z.exact.value? = some ⟨x, y⟩ := by
  rw [exact, hre.exact_eq, him.exact_eq]
  rfl

end FloatNumber

namespace Expr

open Grammar

variable {ρ : Char → Option ℂ} {a : ℂ}

/-- A divisor or a base that is written as two atoms. -/
def isScaledUnit : Expr FloatNumber → Bool
  | .number z => z.isScaledUnit
  | _ => false

/-- No divisor and no base of a power is a multiple of the imaginary unit. -/
def Separable : Expr FloatNumber → Prop
  | .op o l r => l.Separable ∧ r.Separable ∧ (o = .div → r.isScaledUnit = false) ∧
      (o = .pow → l.isScaledUnit = false)
  | _ => True

theorem others_of_not_scaledUnit {K : Type} [Arithmetic K] {e : Expr FloatNumber}
    (he : e.Printable) (h : e.isScaledUnit = false) :
    ((e.atoms : Atoms K).enclosed e.needsBrackets).others = [] := by
  cases e with
  | constant v =>
    cases v with
    | scalar z => exact FloatNumber.others_eq_nil_iff.2 h
    | list zs => exact he.elim
  | var name c =>
    show ((variableAtoms name c : Atoms K).enclosed (!(c == 1))).others = []
    rw [variableAtoms]
    cases c == 1 <;> rfl
  | op o l r => rfl

theorem numeric_exact {e : Expr FloatNumber} (h : e.Printable) : e.exact.Numeric := by
  have hnumber {z : FloatNumber} (hz : z.isFinite = true) : ∃ a, z.exact.value? = some a := by
    obtain ⟨hre, him⟩ := Bool.and_eq_true_iff.1 hz
    obtain ⟨x, hx⟩ := Binary64.exists_stands hre
    obtain ⟨y, hy⟩ := Binary64.exists_stands him
    exact ⟨_, FloatNumber.value?_exact hx hy⟩
  induction e with
  | constant v =>
    cases v with
    | scalar z => exact hnumber h
    | list zs => exact h
  | var name c => exact hnumber h.2
  | op o l r ihl ihr => exact ⟨ihl h.1, ihr h.2⟩

theorem writes_number {z : FloatNumber} (hz : z.isFinite = true)
    (h : Denotes ρ (.number z.exact) a) :
    ((@FloatNumber.atoms _ ExactNumber.reading z).enclosed
      (z.re != 0 && z.im != 0)).Writes ρ a := by
  obtain ⟨hre, him⟩ := Bool.and_eq_true_iff.1 hz
  obtain ⟨x, hx⟩ := Binary64.exists_stands hre
  obtain ⟨y, hy⟩ := Binary64.exists_stands him
  cases h with
  | number ha =>
    obtain rfl := Option.some.inj ((FloatNumber.value?_exact hx hy).symm.trans ha)
    exact FloatNumber.writes_atoms hx hy

theorem writes_variable {name : Char} {c : FloatNumber} (hc : c.isFinite = true)
    (h : Denotes ρ (.var name c.exact) a) :
    ((@variableAtoms _ ExactNumber.reading name c).enclosed (c != 1)).Writes ρ a := by
  obtain ⟨x, k, hx, hk, rfl⟩ := denotes_var_iff.1 h
  unfold variableAtoms
  have hunit : Denotes ρ (.var name 1) x := denotes_unit hx
  cases hone : c == 1 with
  | true =>
    have hneeded : (c != 1) = false := by rw [bne, hone]; rfl
    obtain rfl := Option.some.inj ((FloatNumber.value?_exact_one hone).symm.trans hk)
    rw [hneeded, if_pos rfl, mul_one]
    exact .single hunit
  | false =>
    have hneeded : (c != 1) = true := by rw [bne, hone]; rfl
    rw [hneeded, if_neg Bool.false_ne_true]
    refine .single ?_
    cases hminus : c == -1 with
    | true =>
      obtain rfl := Option.some.inj ((FloatNumber.value?_exact_neg_one hminus).symm.trans hk)
      rw [if_pos rfl, Atoms.tree_single]
      exact (denotes_underSign true hunit).of_eq (mul_neg_one x).symm
    | false =>
      have hcoefficient := (writes_number (ρ := ρ) hc (.number hk)).denotes
      rw [Atoms.tree_enclosed] at hcoefficient
      rw [if_neg Bool.false_ne_true, Atoms.tree_times]
      exact (hcoefficient.mul hunit).of_eq (mul_comm k x)

theorem writes_operand {e : Expr FloatNumber} (he : e.Printable) (hs : e.Separable)
    (h : Denotes ρ e.exact a) :
    ((@atoms _ ExactNumber.reading e).enclosed e.needsBrackets).Writes ρ a := by
  induction e generalizing a with
  | constant v =>
    cases v with
    | scalar z => exact writes_number he h
    | list zs => exact he.elim
  | var name c => exact writes_variable he.2 h
  | op o l r ihl ihr =>
    obtain ⟨b, c, hl, hr, hop⟩ := denotes_op_iff.1 h
    obtain ⟨hsl, hsr, hdiv, hpow⟩ := hs
    exact .single ((ihl he.1 hsl hl).join (ihr he.2 hsr hr) hop
      (fun ho => @others_of_not_scaledUnit _ ExactNumber.reading r he.2 (hdiv ho))
      fun ho => @others_of_not_scaledUnit _ ExactNumber.reading l he.1 (hpow ho))

theorem denotes_atoms {e : Expr FloatNumber} (he : e.Printable) (hs : e.Separable)
    (h : Denotes ρ e.exact a) : Denotes ρ (@atoms _ ExactNumber.reading e).tree a := by
  have hdenotes := (writes_operand he hs h).denotes
  rwa [Atoms.tree_enclosed] at hdenotes

theorem exists_times_of_scaledUnit {z : FloatNumber} (hz : z.isFinite = true)
    (h : z.isScaledUnit = true) (hd : Denotes ρ (.number z.exact) a) :
    ∃ f b, (@atoms _ ExactNumber.reading (.number z)).enclosed false =
        .times f (.number Number.imaginaryUnit) ∧ Denotes ρ f b ∧ a = b * Complex.I := by
  have hwrites := writes_number hz hd
  have hothers := mt (@FloatNumber.others_eq_nil_iff _ ExactNumber.reading z).1
    (by rw [h]; decide)
  show ∃ f b, (@FloatNumber.atoms _ ExactNumber.reading z).enclosed (z.re != 0 && z.im != 0) =
    .times f (.number Number.imaginaryUnit) ∧ Denotes ρ f b ∧ a = b * Complex.I
  generalize (@FloatNumber.atoms _ ExactNumber.reading z).enclosed (z.re != 0 && z.im != 0) = p
    at hwrites hothers
  cases hwrites with
  | single _ => exact absurd rfl hothers
  | imaginary hf => exact ⟨_, _, rfl, hf, rfl⟩

/-- A quotient by a multiple of the imaginary unit is read as its negative. -/
theorem denotes_div_scaledUnit {l : Expr FloatNumber} {z : FloatNumber} (hl : l.Printable)
    (hs : l.Separable) (hz : z.isFinite = true) (h : z.isScaledUnit = true)
    (hd : Denotes ρ (Expr.op .div l (.number z)).exact a) :
    Denotes ρ (@atoms _ ExactNumber.reading (.op .div l (.number z))).tree (-a) := by
  obtain ⟨x, y, hx, hy, hop⟩ := denotes_op_iff.1 hd
  obtain ⟨f, b, hf, hb, rfl⟩ := exists_times_of_scaledUnit hz h hy
  cases hop with
  | div _ hne =>
    have hjoined := (writes_operand hl hs hx).join_div hb (left_ne_zero_of_mul hne)
    rw [← hf] at hjoined
    exact hjoined

/-- Of a power of a multiple of the imaginary unit, only the unit is raised to the exponent. -/
theorem denotes_pow_scaledUnit {r : Expr FloatNumber} {z : FloatNumber} (hr : r.Printable)
    (hs : r.Separable) (hz : z.isFinite = true) (h : z.isScaledUnit = true) {x y : ℂ}
    (hx : Denotes ρ (.number z.exact) (a * Complex.I)) (hy : Denotes ρ r.exact y)
    (hpow : Operator.pow.Computes Complex.I y x) :
    Denotes ρ (@atoms _ ExactNumber.reading (.op .pow (.number z) r)).tree (a * x) := by
  obtain ⟨f, b, hf, hb, hab⟩ := exists_times_of_scaledUnit hz h hx
  obtain rfl := mul_right_cancel₀ Complex.I_ne_zero hab
  have hjoined := Atoms.Writes.join_pow hb (writes_operand hr hs hy) hpow
  rw [← hf] at hjoined
  exact hjoined

end Expr

namespace Scope

open ComplexAlgebra.Expr (Denotes Separable denotes_atoms denotes_div_scaledUnit
  denotes_pow_scaledUnit numeric_exact)
open Binary64 (Stands)
open Grammar

theorem stands_two : Stands 2.0 2 := by
  have hunpack : (2.0 : Float).toModel.unpack = .finite .positive (2 ^ 52) (-51) (by decide) := by
    rfl
  obtain ⟨r, hr⟩ := Binary64.exists_stands (x := 2.0) (by decide)
  have htwo : Binary64.exact 2.0 = .value 2 := by
    rw [Binary64.exact, hunpack]
    norm_num
  obtain rfl : r = 2 := ExactReal.value.inj (hr.exact_eq.symm.trans htwo)
  exact hr

theorem stands_zero : Stands 0.0 0 := by
  obtain ⟨r, hr⟩ := Binary64.exists_stands (x := 0.0) (by decide)
  obtain rfl : r = 0 := hr.beq_zero_iff.1 (by decide)
  exact hr

theorem denotes_exactTwo {ρ : Char → Option ℂ} :
    Denotes ρ (.number (FloatNumber.exact ⟨2.0, 0.0⟩)) 2 :=
  .number ((FloatNumber.value?_exact stands_two stands_zero).trans (congrArg some (by
    simp [Complex.ext_iff])))

theorem denotes_exactTwoI {ρ : Char → Option ℂ} :
    Denotes ρ (.number (FloatNumber.exact ⟨0.0, 2.0⟩)) (2 * Complex.I) :=
  .number ((FloatNumber.value?_exact stands_zero stands_two).trans (congrArg some (by
    simp [Complex.ext_iff])))

theorem isFinite_two : FloatNumber.isFinite ⟨2.0, 0.0⟩ = true := by decide

theorem isFinite_twoI : FloatNumber.isFinite ⟨0.0, 2.0⟩ = true := by decide

/-- The text of an expression parses, and unless a multiple of the imaginary unit stands as a
divisor or as the base of a power, the tree it parses to evaluates like the expression. -/
theorem evaluate_text {e : Expr FloatNumber} (he : e.Printable) :
    (∃ t : Expr FloatNumber, parse e.text.toList = .ok t) ∧
      ∃ t : Expr ExactNumber, @parse _ ExactNumber.reading e.text.toList = .ok t ∧
        (e.Separable → ∀ (s : Scope ExactNumber) (a : ℂ),
          s.evaluate e.exact = .ok (.scalar (.ofComplex a)) →
            s.evaluate t = .ok (.scalar (.ofComplex a))) := by
  refine ⟨⟨_, Expr.parse_text he⟩, _, @Expr.parse_text _ ExactNumber.reading e he,
    fun hs s a h => ?_⟩
  exact evaluate_eq_of_denotes (denotes_atoms he hs ((denotes_iff_evaluate (numeric_exact he)).2 h))

/-- The text "2 * 2i" is read as the imaginary unit times the product of the twos. -/
theorem evaluate_text_imaginaryProduct :
    (Expr.op .mul (.number ⟨2.0, 0.0⟩) (.number ⟨0.0, 2.0⟩)).Printable ∧
      (Expr.op .mul (.number ⟨2.0, 0.0⟩) (.number ⟨0.0, 2.0⟩)).Separable ∧
      ∃ t : Expr ExactNumber, @parse _ ExactNumber.reading
          (Expr.op .mul (.number ⟨2.0, 0.0⟩) (.number ⟨0.0, 2.0⟩)).text.toList = .ok t ∧
        (empty : Scope ExactNumber).evaluate t = .ok (.scalar (.ofComplex (4 * Complex.I))) := by
  have hprintable : (Expr.op .mul (.number ⟨2.0, 0.0⟩) (.number ⟨0.0, 2.0⟩)).Printable :=
    ⟨isFinite_two, isFinite_twoI⟩
  have hseparable : (Expr.op .mul (.number ⟨2.0, 0.0⟩) (.number ⟨0.0, 2.0⟩)).Separable :=
    ⟨trivial, trivial, nofun, nofun⟩
  obtain ⟨-, t, ht, hvalue⟩ := evaluate_text hprintable
  refine ⟨hprintable, hseparable, t, ht, hvalue hseparable empty _ (evaluate_eq_of_denotes ?_)⟩
  exact (denotes_exactTwo.mul denotes_exactTwoI).of_eq (by ring)

/-- The text of a quotient by a multiple of the imaginary unit parses to a tree for the negative of
the quotient: in "x / 2i" only the two is the divisor. -/
theorem evaluate_text_div_scaledUnit {l : Expr FloatNumber} {z : FloatNumber} (hl : l.Printable)
    (hs : l.Separable) (hz : z.isFinite = true) (h : z.isScaledUnit = true) :
    ∃ t : Expr ExactNumber,
      @parse _ ExactNumber.reading (Expr.op .div l (.number z)).text.toList = .ok t ∧
        ∀ (s : Scope ExactNumber) (a : ℂ),
          s.evaluate (Expr.op .div l (.number z)).exact = .ok (.scalar (.ofComplex a)) →
            s.evaluate t = .ok (.scalar (.ofComplex (-a))) := by
  have hprintable : (Expr.op .div l (.number z)).Printable := ⟨hl, hz⟩
  refine ⟨_, @Expr.parse_text _ ExactNumber.reading _ hprintable, fun s a hev => ?_⟩
  have hd := (denotes_iff_evaluate (numeric_exact hprintable)).2 hev
  exact evaluate_eq_of_denotes (denotes_div_scaledUnit hl hs hz h hd)

def imaginarySquare : Expr FloatNumber := .op .pow (.number ⟨0.0, 2.0⟩) (.number ⟨2.0, 0.0⟩)

theorem denotes_imaginarySquare {ρ : Char → Option ℂ} :
    Denotes ρ imaginarySquare.exact (-4) := by
  have hexponent : Denotes ρ (.number (FloatNumber.exact ⟨2.0, 0.0⟩)) ((2 : ℤ) : ℂ) :=
    denotes_exactTwo.of_eq (by norm_num)
  refine (denotes_exactTwoI.pow hexponent fun _ => by decide).of_eq ?_
  rw [zpow_ofNat, mul_pow, Complex.I_sq]
  norm_num

theorem denotes_imaginarySquare_text {ρ : Char → Option ℂ} :
    Denotes ρ (@Expr.atoms _ ExactNumber.reading imaginarySquare).tree (-2) := by
  have hsquare : Operator.pow.Computes Complex.I 2 (-1) := by
    have hcomputes := Operator.computes_pow_int_iff (a := Complex.I) (c := -1) (n := 2)
    exact hcomputes.2 ⟨fun _ => by decide, by rw [zpow_ofNat, Complex.I_sq]⟩
  have hread := denotes_pow_scaledUnit (r := .number ⟨2.0, 0.0⟩) isFinite_two trivial isFinite_twoI
    (by decide) (denotes_exactTwoI (ρ := ρ)) denotes_exactTwo hsquare
  exact hread.of_eq (mul_neg_one 2)

/-- The text "2i ^ 2" of the square of 2i, which is -4, is read as -2. -/
theorem evaluate_text_imaginarySquare :
    imaginarySquare.Printable ∧ imaginarySquare.text = "2i ^ 2" ∧
      (empty : Scope ExactNumber).evaluate imaginarySquare.exact = .ok (.scalar (.ofComplex (-4))) ∧
      ∃ t : Expr ExactNumber, @parse _ ExactNumber.reading imaginarySquare.text.toList = .ok t ∧
        (empty : Scope ExactNumber).evaluate t = .ok (.scalar (.ofComplex (-2))) := by
  have hprintable : imaginarySquare.Printable := ⟨isFinite_twoI, isFinite_two⟩
  have htext : imaginarySquare.text = "2i ^ 2" := by
    set_option maxRecDepth 4000 in
    with_unfolding_all decide
  exact ⟨hprintable, htext, evaluate_eq_of_denotes denotes_imaginarySquare, _,
    @Expr.parse_text _ ExactNumber.reading _ hprintable,
    evaluate_eq_of_denotes denotes_imaginarySquare_text⟩

end Scope
end ComplexAlgebra
