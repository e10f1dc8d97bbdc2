import ComplexAlgebra.Proofs.ExactSimplification
import ComplexAlgebra.Proofs.Shortcuts

/-! Powers whose exponent moves onto the operands of the base. The rules take the logarithm of a
product for the sum of the logarithms, that of a power for a multiple, and so raise to the exponent
by a logarithm of the base that need not be the principal one; the result is the principal power
where the multiples of a full turn between the two logarithms come to full turns again. -/
namespace ComplexAlgebra

open ExactNumber

namespace Expr

def bases {K : Type} : Expr K → List (Expr K)
  | constant _ => []
  | var _ _ => []
  | op .pow l r => l :: (l.bases ++ r.bases)
  | op _ l r => l.bases ++ r.bases

theorem mem_bases {K : Type} {o : Operator} {l r x : Expr K} (h : x ∈ l.bases ∨ x ∈ r.bases) :
    x ∈ (op o l r).bases := by
  cases o with
  | pow => exact List.mem_cons_of_mem _ (List.mem_append.2 h)
  | _ => exact List.mem_append.2 h

open Classical in
/-- The exact value of an expression, and zero where it has none. -/
noncomputable def valueIn (ρ : Char → Option ℂ) (e : Expr ExactNumber) : ℂ :=
  if h : ∃ a, Denotes ρ e a then h.choose else 0

variable {ρ : Char → Option ℂ} {b p : Expr ExactNumber} {β γ : ℂ}

theorem Denotes.valueIn_eq (h : Denotes ρ b β) : b.valueIn ρ = β := by
  have hex : ∃ a, Denotes ρ b a := ⟨β, h⟩
  rw [valueIn, dif_pos hex]
  exact hex.choose_spec.unique h

noncomputable def principal (ρ : Char → Option ℂ) (e : Expr ExactNumber) : ℂ :=
  Complex.log (e.valueIn ρ)

/-- A constant exponent raises the coefficient apart from the variable. -/
noncomputable def variableLogarithm (ρ : Char → Option ℂ) (name : Char) (c : ExactNumber)
    (exponent : Expr ExactNumber) : ℂ :=
  if c == 1 || exponent.constant?.isNone then principal ρ (.var name c)
  else principal ρ (.number c) + principal ρ (.var name 1)

open Simplification (multiply) in
/-- The logarithm of a base that the rules for powers raise to an exponent by: put together from
those of the operands where the exponent moves onto them, and otherwise the principal one. -/
noncomputable def logarithm (ρ : Char → Option ℂ) (base exponent : Expr ExactNumber) : ℂ :=
  if exponent.isNumber 0 || exponent.isNumber 1 then principal ρ base
  else
    match base with
    | .var name c => variableLogarithm ρ name c exponent
    | .op .mul l r => logarithm ρ l exponent + logarithm ρ r exponent
    | .op .div l r => logarithm ρ l exponent - logarithm ρ r exponent
    | .op .pow l r => r.valueIn ρ * logarithm ρ l (multiply r exponent)
    | base => principal ρ base

theorem Denotes.exp_principal (h : Denotes ρ b β) (hβ : β ≠ 0) :
    Complex.exp (principal ρ b) = β := by
  rw [principal, h.valueIn_eq, Complex.exp_log hβ]

theorem logarithm_of_exponent (hp : (p.isNumber 0 || p.isNumber 1) = false) :
    logarithm ρ b p = match b with
      | .var name c => variableLogarithm ρ name c p
      | .op .mul l r => logarithm ρ l p + logarithm ρ r p
      | .op .div l r => logarithm ρ l p - logarithm ρ r p
      | .op .pow l r => r.valueIn ρ * logarithm ρ l (Simplification.multiply r p)
      | b => principal ρ b := by
  rw [logarithm.eq_def, hp, if_neg Bool.false_ne_true]

theorem Numeric.exponents {e : Expr ExactNumber} (he : e.Numeric) :
    ∀ x ∈ e.exponents, x.Numeric := by
  induction e with
  | constant v => nofun
  | var name c => nofun
  | op o l r ihl ihr =>
    have hrec : ∀ x ∈ l.exponents ++ r.exponents, x.Numeric := fun x hx =>
      (List.mem_append.1 hx).elim (ihl he.1 x) (ihr he.2 x)
    cases o with
    | pow => exact List.forall_mem_cons.2 ⟨he.2, hrec⟩
    | _ => exact hrec

theorem Denotes.principal_pow (hb : Denotes ρ b β) (hβ : β ≠ 0) (hp : Denotes ρ p γ) :
    Denotes ρ (.op .pow b p) (Complex.exp (γ * principal ρ b)) := by
  refine (Denotes.op hb hp (.pow fun h => absurd h hβ)).of_eq ?_
  rw [principal, hb.valueIn_eq, Complex.cpow_def_of_ne_zero hβ, mul_comm]

end Expr

namespace Simplification

open ComplexAlgebra.Expr

variable {ρ : Char → Option ℂ} {b p l r e : Expr ExactNumber} {β γ : ℂ}

theorem denotes_multiply {x y : ℂ} (hl : Denotes ρ l x) (hr : Denotes ρ r y) :
    Denotes ρ (multiply l r) (x * y) := (recasts_multiply l r).denotes (hl.mul hr)

theorem denotes_divide {x y : ℂ} (hl : Denotes ρ l x) (hr : Denotes ρ r y) (hy : y ≠ 0) :
    Denotes ρ (divide l r) (x / y) := (recasts_divide l r).denotes (hl.div hr hy)

theorem denotes_powerOfConstant {v : Value ExactNumber} (hb : Denotes ρ (.constant v) β)
    (hβ : β ≠ 0) (hp : Denotes ρ p γ) :
    Denotes ρ (powerOfConstant v p) (Complex.exp (γ * principal ρ (.constant v))) := by
  cases p with
  | constant w => exact denotes_of_fieldRule (.fold .pow v w) (hb.principal_pow hβ hp)
  | var name c => exact hb.principal_pow hβ hp
  | op o l r => exact hb.principal_pow hβ hp

theorem denotes_powerOfVariable {name : Char} {c : ExactNumber} (hb : Denotes ρ (.var name c) β)
    (hβ : β ≠ 0) (hp : Denotes ρ p γ) :
    Denotes ρ (powerOfVariable name c p) (Complex.exp (γ * variableLogarithm ρ name c p)) := by
  unfold powerOfVariable variableLogarithm
  cases hc : c == 1 with
  | true => exact hb.principal_pow hβ hp
  | false =>
    cases p with
    | constant w =>
      obtain ⟨x, k, hx, hk, rfl⟩ := denotes_var_iff.1 hb
      obtain ⟨hx0, hk0⟩ := mul_ne_zero_iff.1 hβ
      have hcoeff : Denotes ρ (.number c) k := .number hk
      show Denotes ρ (multiply _ _)
        (Complex.exp (γ * (principal ρ (.number c) + principal ρ (.var name 1))))
      rw [mul_add, Complex.exp_add]
      exact denotes_multiply (denotes_powerOfConstant hcoeff hk0 hp)
        ((denotes_unit hx).principal_pow hx0 hp)
    | var other d => exact hb.principal_pow hβ hp
    | op o l r => exact hb.principal_pow hβ hp

theorem denotes_exponent (hb : Denotes ρ b β) (hβ : β ≠ 0) (hp : Denotes ρ p γ)
    (h : (p.isNumber 0 || p.isNumber 1) = false →
      Denotes ρ e (Complex.exp (γ * b.logarithm ρ p))) :
    Denotes ρ (if p.isNumber 0 then .number 1 else if p.isNumber 1 then b else e)
      (Complex.exp (γ * b.logarithm ρ p)) := by
  split
  · next h0 =>
    obtain ⟨z, rfl, hz⟩ := isNumber_iff.1 h0
    rw [beq_iff.1 hz] at hp
    refine denotes_one.of_eq ?_
    rw [hp.unique denotes_zero, zero_mul, Complex.exp_zero]
  · next h0 =>
    split
    · next h1 =>
      have hlog : b.logarithm ρ p = principal ρ b := by
        rw [logarithm.eq_def, h1, Bool.or_true, if_pos rfl]
      obtain ⟨z, rfl, hz⟩ := isNumber_iff.1 h1
      rw [beq_iff.1 hz] at hp
      refine hb.of_eq ?_
      rw [hlog, hp.unique denotes_one, one_mul, hb.exp_principal hβ]
    · next h1 => exact h (Bool.or_eq_false_iff.2 ⟨Bool.eq_false_iff.2 h0, Bool.eq_false_iff.2 h1⟩)

/-- Simplification raises a nonzero base by the logarithm that its rules put together. -/
theorem denotes_power (hb : Denotes ρ b β) (hβ : β ≠ 0) (hbases : ∀ x ∈ b.bases, ¬ Denotes ρ x 0)
    (hp : Denotes ρ p γ) : Denotes ρ (power b p) (Complex.exp (γ * b.logarithm ρ p)) := by
  induction b generalizing p β γ with
  | constant v =>
    unfold power
    refine denotes_exponent hb hβ hp fun h => ?_
    rw [logarithm_of_exponent h]
    exact denotes_powerOfConstant hb hβ hp
  | var name c =>
    unfold power
    refine denotes_exponent hb hβ hp fun h => ?_
    rw [logarithm_of_exponent h]
    exact denotes_powerOfVariable hb hβ hp
  | op o l r ihl ihr =>
    have hl (x : Expr ExactNumber) (hx : x ∈ l.bases) := hbases x (mem_bases (.inl hx))
    have hr (x : Expr ExactNumber) (hx : x ∈ r.bases) := hbases x (mem_bases (.inr hx))
    unfold power
    refine denotes_exponent hb hβ hp fun h => ?_
    rw [logarithm_of_exponent h]
    obtain ⟨x, y, hx, hy, hop⟩ := denotes_op_iff.1 hb
    cases o with
    | add => exact hb.principal_pow hβ hp
    | sub => exact hb.principal_pow hβ hp
    | mul =>
      cases hop
      obtain ⟨hx0, hy0⟩ := mul_ne_zero_iff.1 hβ
      show Denotes ρ (multiply _ _) (Complex.exp (γ * (l.logarithm ρ p + r.logarithm ρ p)))
      rw [mul_add, Complex.exp_add]
      exact denotes_multiply (ihl hx hx0 hl hp) (ihr hy hy0 hr hp)
    | div =>
      cases hop with
      | div _ hy0 =>
        have hx0 : x ≠ 0 := fun h0 => hβ (by rw [h0, zero_div])
        show Denotes ρ (divide _ _) (Complex.exp (γ * (l.logarithm ρ p - r.logarithm ρ p)))
        rw [mul_sub, Complex.exp_sub]
        exact denotes_divide (ihl hx hx0 hl hp) (ihr hy hy0 hr hp) (Complex.exp_ne_zero _)
    | pow =>
      have hx0 : x ≠ 0 := by
        rintro rfl
        exact hbases l List.mem_cons_self hx
      show Denotes ρ _ (Complex.exp (γ * (r.valueIn ρ * l.logarithm ρ (multiply r p))))
      rw [hy.valueIn_eq, ← mul_assoc, mul_comm γ y]
      exact ihl hx hx0 hl (denotes_multiply hy hp)

theorem exp_variableLogarithm {name : Char} {c : ExactNumber} (hb : Denotes ρ (.var name c) β)
    (hβ : β ≠ 0) : Complex.exp (variableLogarithm ρ name c p) = β := by
  unfold variableLogarithm
  split
  · exact hb.exp_principal hβ
  · obtain ⟨x, k, hx, hk, rfl⟩ := denotes_var_iff.1 hb
    obtain ⟨hx0, hk0⟩ := mul_ne_zero_iff.1 hβ
    rw [Complex.exp_add, (Denotes.number hk).exp_principal hk0,
      (denotes_unit hx).exp_principal hx0, mul_comm]

/-- With integers as exponents in the base, the logarithm put together is one of the base. -/
theorem exp_logarithm (hb : Denotes ρ b β) (hβ : β ≠ 0) (hbases : ∀ x ∈ b.bases, ¬ Denotes ρ x 0)
    (hexponents : ∀ x ∈ b.exponents, ∃ n : ℤ, Denotes ρ x (n : ℂ)) :
    Complex.exp (b.logarithm ρ p) = β := by
  induction b generalizing p β with
  | constant v =>
    unfold logarithm
    split <;> exact hb.exp_principal hβ
  | var name c =>
    unfold logarithm
    split
    · exact hb.exp_principal hβ
    · exact exp_variableLogarithm hb hβ
  | op o l r ihl ihr =>
    have hl (x : Expr ExactNumber) (hx : x ∈ l.bases) := hbases x (mem_bases (.inl hx))
    have hr (x : Expr ExactNumber) (hx : x ∈ r.bases) := hbases x (mem_bases (.inr hx))
    have hnl (x : Expr ExactNumber) (hx : x ∈ l.exponents) := hexponents x (mem_exponents (.inl hx))
    have hnr (x : Expr ExactNumber) (hx : x ∈ r.exponents) := hexponents x (mem_exponents (.inr hx))
    unfold logarithm
    split
    · exact hb.exp_principal hβ
    · obtain ⟨x, y, hx, hy, hop⟩ := denotes_op_iff.1 hb
      cases o with
      | add => exact hb.exp_principal hβ
      | sub => exact hb.exp_principal hβ
      | mul =>
        cases hop
        obtain ⟨hx0, hy0⟩ := mul_ne_zero_iff.1 hβ
        show Complex.exp (l.logarithm ρ p + r.logarithm ρ p) = x * y
        rw [Complex.exp_add, ihl hx hx0 hl hnl, ihr hy hy0 hr hnr]
      | div =>
        cases hop with
        | div _ hy0 =>
          have hx0 : x ≠ 0 := fun h0 => hβ (by rw [h0, zero_div])
          show Complex.exp (l.logarithm ρ p - r.logarithm ρ p) = x / y
          rw [Complex.exp_sub, ihl hx hx0 hl hnl, ihr hy hy0 hr hnr]
      | pow =>
        have hx0 : x ≠ 0 := by
          rintro rfl
          exact hbases l List.mem_cons_self hx
        obtain ⟨n, hn⟩ := hexponents r List.mem_cons_self
        obtain rfl := hy.unique hn
        obtain ⟨-, rfl⟩ := Operator.computes_pow_int_iff.1 hop
        show Complex.exp (r.valueIn ρ * l.logarithm ρ (multiply r p)) = x ^ n
        rw [hn.valueIn_eq, Complex.exp_int_mul, ihl hx hx0 hl hnl]

end Simplification

namespace Scope

open ComplexAlgebra.Expr Simplification
open Number (ofComplex)

/-- The value of a simplified power of a nonzero base. It is the principal power exactly if the
exponent takes the difference between the logarithm that the rules put together and the principal
one to full turns; so it is where all exponents are integers. -/
theorem evaluate_power {t : Scope ExactNumber} {b p : Expr ExactNumber} (hb : b.Numeric)
    (hp : p.Numeric) {β γ : ℂ} (hβ : t.evaluate b = .ok (.scalar (ofComplex β))) (hβ0 : β ≠ 0)
    (hbases : ∀ x ∈ b.bases, t.evaluate x ≠ .ok (.scalar 0))
    (hγ : t.evaluate p = .ok (.scalar (ofComplex γ))) :
    t.evaluate (power b p) =
      .ok (.scalar (ofComplex (Complex.exp (γ * b.logarithm t.assignment p)))) ∧
    (t.evaluate (power b p) = .ok (.scalar (ofComplex (β ^ γ))) ↔
      ∃ n : ℤ, γ * (b.logarithm t.assignment p - Complex.log β) =
        n * (2 * Real.pi * Complex.I)) ∧
    ((∃ n : ℤ, γ = n) →
      (∀ x ∈ b.exponents, ∃ n : ℤ, t.evaluate x = .ok (.scalar (ofComplex n))) →
      t.evaluate (power b p) = .ok (.scalar (ofComplex (β ^ γ)))) := by
  have hdb := (denotes_iff_evaluate hb).2 hβ
  have hdbases : ∀ x ∈ b.bases, ¬ Denotes t.assignment x 0 := by
    intro x hx h
    obtain ⟨z, hz, h0⟩ := evaluate_of_denotes h
    rw [value?_eq_some_iff.1 h0] at hz
    exact hbases x hx hz
  have hvalue : t.evaluate (power b p) =
      .ok (.scalar (ofComplex (Complex.exp (γ * b.logarithm t.assignment p)))) := by
    obtain ⟨z, hz, h⟩ := evaluate_of_denotes
      (denotes_power hdb hβ0 hdbases ((denotes_iff_evaluate hp).2 hγ))
    rw [hz, value?_eq_some_iff.1 h]
  have hprincipal {c : ℂ} : t.evaluate (power b p) = .ok (.scalar (ofComplex c)) ↔
      Complex.exp (γ * b.logarithm t.assignment p) = c := by
    rw [hvalue]
    constructor
    · intro h
      exact ofComplex_injective (Value.scalar.inj (Except.ok.inj h))
    · rintro rfl
      rfl
  refine ⟨hvalue, ?_, ?_⟩
  · rw [hprincipal, Complex.cpow_def_of_ne_zero hβ0, Complex.exp_eq_exp_iff_exists_int]
    refine exists_congr fun n => ?_
    rw [mul_sub, sub_eq_iff_eq_add', mul_comm (Complex.log β)]
  · rintro ⟨n, rfl⟩ hexponents
    have hdexponents : ∀ x ∈ b.exponents, ∃ n : ℤ, Denotes t.assignment x (n : ℂ) := by
      intro x hx
      obtain ⟨m, hm⟩ := hexponents x hx
      exact ⟨m, (denotes_iff_evaluate (hb.exponents x hx)).2 hm⟩
    rw [hprincipal, Complex.exp_int_mul, exp_logarithm hdb hβ0 hdbases hdexponents,
      Complex.cpow_intCast]

section Square

noncomputable def xMinusOne : Scope ExactNumber := empty.bind 'x' (.scalar (ofComplex (-1)))

noncomputable def squareOfX : Expr ExactNumber := .op .pow (.var 'x' 1) (.number Arithmetic.two)

theorem numeric_squareOfX : squareOfX.Numeric := ⟨⟨1, rfl⟩, ⟨2, 0⟩, rfl⟩

theorem denotes_minusOne : Denotes xMinusOne.assignment (.var 'x' 1) (-1) :=
  denotes_unit (by simp [xMinusOne, assignment, Value.scalar?])

theorem denotes_squareOfX : Denotes xMinusOne.assignment squareOfX 1 :=
  (denotes_minusOne.pow denotes_two fun _ => zero_le_two).of_eq (by norm_num)

theorem numeric_unit (name : Char) : (Expr.var name (1 : ExactNumber)).Numeric := ⟨1, rfl⟩

/-- Two integers as exponents: the third power of `x ^ 2` at `x = -1` is that of one. -/
theorem evaluate_power_cube :
    xMinusOne.evaluate (power squareOfX (.number (ofComplex 3))) =
      .ok (.scalar (ofComplex (1 ^ (3 : ℂ)))) := by
  have hb := (denotes_iff_evaluate numeric_squareOfX).1 denotes_squareOfX
  have hx := (denotes_iff_evaluate (numeric_unit 'x')).1 denotes_minusOne
  have hp : (Expr.number (ofComplex 3)).Numeric := ⟨3, rfl⟩
  refine (evaluate_power numeric_squareOfX hp hb one_ne_zero ?_ rfl).2.2 ⟨3, by norm_num⟩ ?_
  · intro x hmem h
    obtain rfl : x = .var 'x' 1 := by simpa [squareOfX, bases] using hmem
    have heq : ofComplex (-1) = ofComplex 0 :=
      Value.scalar.inj (Except.ok.inj (hx.symm.trans h))
    exact neg_ne_zero.2 one_ne_zero (ofComplex_injective heq)
  · intro x hmem
    obtain rfl : x = .number Arithmetic.two := by simpa [squareOfX, exponents] using hmem
    exact ⟨2, (denotes_iff_evaluate numeric_squareOfX.2).1 denotes_two⟩

theorem power_squareOfX_half : power squareOfX (.number (ofComplex (1 / 2))) = .var 'x' 1 := by
  have h0 : (ofComplex (1 / 2) == 0) = false := Bool.eq_false_iff.2 fun h =>
    one_div_ne_zero two_ne_zero (ofComplex_beq_zero.1 h)
  have h1 : (ofComplex (1 / 2) == 1) = false := Bool.eq_false_iff.2 fun h => by
    have hone : (1 / 2 : ℂ) = 1 := ofComplex_injective (beq_iff.1 h)
    norm_num at hone
  have hmul : multiply (.number Arithmetic.two) (.number (ofComplex (1 / 2))) =
      (.number 1 : Expr ExactNumber) := by
    have hhalf : Denotes xMinusOne.assignment (.number (ofComplex (1 / 2))) (1 / 2) := .number rfl
    have hone := (denotes_multiply denotes_two hhalf).of_eq (show _ = 1 by norm_num)
    have hfold := operation_constant (o := .mul) (by decide) (.scalar Arithmetic.two)
      (.scalar (ofComplex (1 / 2)))
    rw [show multiply _ _ = _ from hfold] at hone ⊢
    obtain ⟨z, hz, hvalue⟩ := denotes_constant_iff.1 hone
    rw [hz, eq_of_value? hvalue (value?_ofComplex 1), ofComplex_one]
  simp only [power, squareOfX, isNumber, h0, h1, hmul]
  simp [one_beq_zero, Arithmetic.one_beq_one]

/-- The root of `x ^ 2` is simplified to `x`, but at `x = -1` it is one. -/
theorem principal_square_half :
    xMinusOne.evaluate (.op .pow squareOfX (.number (ofComplex (1 / 2)))) =
      .ok (.scalar (ofComplex 1)) ∧
    xMinusOne.evaluate (power squareOfX (.number (ofComplex (1 / 2)))) =
      .ok (.scalar (ofComplex (-1))) := by
  constructor
  · have hp : Denotes xMinusOne.assignment (.number (ofComplex (1 / 2))) (1 / 2) := .number rfl
    have hpow := denotes_squareOfX.principal_pow one_ne_zero hp
    have hnumeric : (Expr.op .pow squareOfX (.number (ofComplex (1 / 2)))).Numeric :=
      ⟨numeric_squareOfX, 1 / 2, rfl⟩
    refine (denotes_iff_evaluate hnumeric).1 (hpow.of_eq ?_)
    rw [principal, denotes_squareOfX.valueIn_eq, Complex.log_one, mul_zero, Complex.exp_zero]
  · rw [power_squareOfX_half]
    exact (denotes_iff_evaluate (numeric_unit 'x')).1 denotes_minusOne

end Square

end Scope
end ComplexAlgebra
