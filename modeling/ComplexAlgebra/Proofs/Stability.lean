import ComplexAlgebra.Proofs.Inheritance
import ComplexAlgebra.Proofs.Written

/-! Expressions that simplification leaves as they are. Where products and quotients of nonzero
numbers are nonzero, every simplified expression is one of them, so simplifying it again, or a part
of it, changes nothing. -/
namespace ComplexAlgebra

variable {K : Type} [Arithmetic K]

/-- What the numbers zero, one and two are to each other, and that division by zero gives no
zero. -/
structure Arithmetic.Standard (K : Type) [Arithmetic K] : Prop where
  zero_ne_one : ∀ a : K, (a == 0) = true → (a == 1) = false
  two_ne_zero : ((two : K) == 0) = false
  two_ne_one : ((two : K) == 1) = false
  div_zero_ne_zero : ∀ a b : K, (b == 0) = true → (a / b == 0) = false

/-- A product is zero only if a factor is, a quotient only if the dividend is, and one and two are
neither zero nor each other. -/
structure Arithmetic.Regular (K : Type) [Arithmetic K] : Prop where
  mul_ne_zero : ∀ a b : K, (a == 0) = false → (b == 0) = false → (a * b == 0) = false
  div_ne_zero : ∀ a b : K, (a == 0) = false → (a / b == 0) = false
  two_ne_zero : ((two : K) == 0) = false
  two_ne_one : ((two : K) == 1) = false
  one_ne_zero : ((1 : K) == 0) = false

theorem Arithmetic.Standard.one_ne_zero (hK : Arithmetic.Standard K) : ((1 : K) == 0) = false :=
  Bool.eq_false_iff.2 fun h =>
    Bool.false_ne_true ((hK.zero_ne_one 1 h).symm.trans Arithmetic.one_beq_one)

/-- It remains that products and quotients of nonzero numbers are not zero. -/
theorem Arithmetic.Standard.regular (hK : Arithmetic.Standard K)
    (hmul : ∀ a b : K, (a == 0) = false → (b == 0) = false → (a * b == 0) = false)
    (hdiv : ∀ a b : K, (a == 0) = false → (b == 0) = false → (a / b == 0) = false) :
    Arithmetic.Regular K where
  mul_ne_zero := hmul
  div_ne_zero a b ha :=
    match hb : b == 0 with
    | true => hK.div_zero_ne_zero a b hb
    | false => hdiv a b ha hb
  two_ne_zero := hK.two_ne_zero
  two_ne_one := hK.two_ne_one
  one_ne_zero := hK.one_ne_zero

namespace Expr

open Simplification

def ProperCoefficients : Expr K → Prop
  | constant _ => True
  | var _ c => (c == 0) = false
  | op _ l r => l.ProperCoefficients ∧ r.ProperCoefficients

/-- No operation can be simplified, and no variable has the coefficient zero. -/
def Stable : Expr K → Prop
  | constant _ => True
  | var _ c => (c == 0) = false
  | op o l r => l.Stable ∧ r.Stable ∧ operation o l r = op o l r

/-- No operation can be simplified. -/
def Fixed : Expr K → Prop
  | constant _ => True
  | var _ _ => True
  | op o l r => l.Fixed ∧ r.Fixed ∧ operation o l r = op o l r

theorem Stable.fixed {e : Expr K} (h : e.Stable) : e.Fixed := by
  induction e with
  | constant v => trivial
  | var name c => trivial
  | op o l r ihl ihr => exact ⟨ihl h.1, ihr h.2.1, h.2.2⟩

theorem Stable.properCoefficients {e : Expr K} (h : e.Stable) : e.ProperCoefficients := by
  induction e with
  | constant v => trivial
  | var name c => exact h
  | op o l r ihl ihr => exact ⟨ihl h.1, ihr h.2.1⟩

theorem Stable.operand {x e : Expr K} (he : e.Stable) (h : x.IsOperand e) : x.Stable := by
  cases h with
  | left => exact he.1
  | right => exact he.2.1

theorem Written.properCoefficients (hK : Arithmetic.Regular K) {e : Expr K} (h : e.Written) :
    e.ProperCoefficients := by
  induction h with
  | number x => trivial
  | var h => exact hK.one_ne_zero
  | op o hl hr ihl ihr => exact ⟨ihl, ihr⟩

end Expr

namespace Simplification

open ComplexAlgebra.Expr

theorem stable_collected (name : Char) (c : K) : (collected name c).Stable := by
  unfold collected
  split
  · trivial
  · next h => exact Bool.eq_false_iff.2 h

theorem productAtOnce?_number {k : K} (h0 : (k == 0) = false) (h1 : (k == 1) = false) (o : Operator)
    (l r : Expr K) : productAtOnce? (.number k) (.op o l r) = none := by
  simp [productAtOnce?, isNumber, h0, h1]

theorem exists_multiply_zero {x : K} (h0 : (x == 0) = true) (h1 : (x == 1) = false) (e : Expr K) :
    ∃ v, multiply (.number x) e = .constant v := by
  cases e with
  | constant w => exact ⟨_, operation_constant (o := .mul) (by decide) _ w⟩
  | var name c =>
    refine ⟨.scalar 0, ?_⟩
    rw [multiply]
    simp [productAtOnce?, isNumber, h0, h1]
  | op o l r =>
    refine ⟨.scalar 0, ?_⟩
    rw [multiply]
    simp [productAtOnce?, isNumber, h0, h1]

theorem multiply_number_op {k : K} (h0 : (k == 0) = false) (h1 : (k == 1) = false) {o : Operator}
    {l r : Expr K} (hterms : terms? (.op o l r) = none) (hfactored : factored? (.op o l r) = none) :
    multiply (.number k) (.op o l r) = .op .mul (.number k) (.op o l r) := by
  refine multiply_of_none (productAtOnce?_number h0 h1 o l r) rfl hterms ?_
  rw [pairing?, hfactored]
  rfl

theorem power_square (h0 : ((Arithmetic.two : K) == 0) = false)
    (h1 : ((Arithmetic.two : K) == 1) = false) (a : Char) :
    power (.var a (1 : K)) (.number Arithmetic.two) =
      .op .pow (.var a 1) (.number Arithmetic.two) := by
  simp [power, isNumber, h0, h1, powerOfVariable, Arithmetic.one_beq_one]

theorem multiply_var_var {a b : Char} (hab : a ≠ b) :
    multiply (.var a (1 : K)) (.var b 1) = .op .mul (.var a 1) (.var b 1) := by
  have hone := Arithmetic.mul_beq_one (1 : K) 1 Arithmetic.one_beq_one Arithmetic.one_beq_one
  rw [multiply]
  simp [productAtOnce?, hab, scaled, hone]

theorem divide_var_var {a b : Char} (hab : a ≠ b) :
    divide (.var a (1 : K)) (.var b 1) = .op .div (.var a 1) (.var b 1) := by
  have hone := Arithmetic.div_beq_one (1 : K) 1 Arithmetic.one_beq_one Arithmetic.one_beq_one
  rw [divide]
  simp [quotientAtOnce?, hab, scaled, hone]

theorem stable_scaled {k : K} (hk : (k == 0) = false) {o : Operator} {l r : Expr K}
    (he : (Expr.op o l r).Stable) (hterms : terms? (.op o l r) = none)
    (hfactored : factored? (.op o l r) = none) : (scaled k (.op o l r)).Stable := by
  unfold scaled
  split
  · exact he
  · next h1 =>
    exact ⟨trivial, he, multiply_number_op hk (Bool.eq_false_iff.2 h1) hterms hfactored⟩

theorem stable_square (hK : Arithmetic.Regular K) (a : Char) :
    (Expr.op .pow (.var a (1 : K)) (.number Arithmetic.two)).Stable :=
  ⟨hK.one_ne_zero, trivial, power_square hK.two_ne_zero hK.two_ne_one a⟩

theorem stable_var_mul_var (hK : Arithmetic.Regular K) {a b : Char} (hab : a ≠ b) :
    (Expr.op .mul (.var a (1 : K)) (.var b 1)).Stable :=
  ⟨hK.one_ne_zero, hK.one_ne_zero, multiply_var_var hab⟩

theorem stable_var_div_var (hK : Arithmetic.Regular K) {a b : Char} (hab : a ≠ b) :
    (Expr.op .div (.var a (1 : K)) (.var b 1)).Stable :=
  ⟨hK.one_ne_zero, hK.one_ne_zero, divide_var_var hab⟩

theorem stable_productAtOnce? (hK : Arithmetic.Regular K) {l r e : Expr K} (hl : l.Stable)
    (hr : r.Stable) (h : productAtOnce? l r = some e) : e.Stable := by
  unfold productAtOnce? at h
  split at h
  · cases h
    trivial
  · next a c b d =>
    have hcd := hK.mul_ne_zero c d hl hr
    split at h
    · cases h
      exact stable_scaled hcd (stable_square hK a) rfl rfl
    · next hab =>
      cases h
      exact stable_scaled hcd (stable_var_mul_var hK hab) rfl rfl
  · split at h
    · cases h
      exact hr
    · split at h
      · cases h
        exact hl
      · split at h
        · cases h
          trivial
        · next h0 =>
          rw [Bool.not_eq_true, Bool.or_eq_false_iff] at h0
          split at h
          · cases h
            exact hK.mul_ne_zero _ _ hl h0.2
          · cases h
            exact hK.mul_ne_zero _ _ hr h0.1
          · cases h

theorem stable_quotientAtOnce? (hK : Arithmetic.Regular K) {l r e : Expr K} (hl : l.Stable)
    (hr : r.Stable) (h : quotientAtOnce? l r = some e) : e.Stable := by
  unfold quotientAtOnce? at h
  split at h
  · cases h
    trivial
  · next a c b d =>
    have hcd := hK.div_ne_zero c d hl
    split at h
    · cases h
      trivial
    · next hab =>
      cases h
      exact stable_scaled hcd (stable_var_div_var hK hab) rfl rfl
  · split at h
    · cases h
      exact hl
    · split at h
      · cases h
        exact hK.div_ne_zero _ _ hl
      · cases h

theorem isNumber_zero_of_stable {l r : Expr K} (h : (Expr.op .mul l r).Stable) :
    l.isNumber 0 = false ∧ r.isNumber 0 = false := by
  have hstay : multiply l r = .op .mul l r := h.2.2
  refine Classical.byContradiction fun hzero => ?_
  rw [← Bool.or_eq_false_iff, Bool.not_eq_false] at hzero
  obtain ⟨e, he, hne⟩ : ∃ e, productAtOnce? l r = some e ∧ e ≠ .op .mul l r := by
    unfold productAtOnce?
    split
    · exact ⟨_, rfl, fun h => by cases h⟩
    · cases hzero
    · split
      · refine ⟨_, rfl, fun h => ?_⟩
        have hsize := congrArg Expr.size h
        simp only [Expr.size] at hsize
        omega
      · split
        · refine ⟨_, rfl, fun h => ?_⟩
          have hsize := congrArg Expr.size h
          simp only [Expr.size] at hsize
          omega
        · exact ⟨_, rfl, fun h => by cases h⟩
  rw [multiply, he] at hstay
  exact hne hstay

theorem inherited_stable (hK : Arithmetic.Regular K) : Inherited (Stable : Expr K → Prop) where
  constant _ := trivial
  unit _ := hK.one_ne_zero
  collected := stable_collected
  left h := h.1
  right h := h.2.1
  product := stable_productAtOnce? hK
  quotient := stable_quotientAtOnce? hK
  op hl hr h := ⟨hl, hr, h⟩

end Simplification

namespace Scope

open ComplexAlgebra.Expr Simplification

theorem stable_simplify (hK : Arithmetic.Regular K) (s : Scope K) {e : Expr K}
    (he : e.ProperCoefficients) : (s.simplify e).Stable := by
  induction e with
  | constant v => trivial
  | var name c =>
    rw [simplify]
    split
    · trivial
    · exact he
  | op o l r ihl ihr => exact inherited_operation (inherited_stable hK) o (ihl he.1) (ihr he.2)

/-- Simplification leaves fixed expressions as they are, unless it puts in values of variables. -/
theorem simplify_of_fixed {s : Scope K} {e : Expr K} (he : e.Fixed)
    (hunbound : ∀ name ∈ e.names, s.get? name = none) : s.simplify e = e := by
  induction e with
  | constant v => rfl
  | var name c => rw [simplify, hunbound name List.mem_cons_self]
  | op o l r ihl ihr =>
    have hl := ihl he.1 fun name h => hunbound name (List.mem_append_left _ h)
    have hr := ihr he.2.1 fun name h => hunbound name (List.mem_append_right _ h)
    rw [simplify, hl, hr, he.2.2]

theorem simplify_of_stable {s : Scope K} {e : Expr K} (he : e.Stable)
    (hunbound : ∀ name ∈ e.names, s.get? name = none) : s.simplify e = e :=
  simplify_of_fixed he.fixed hunbound

theorem simplify_operands {s : Scope K} {u l r : Expr K} {o : Operator}
    (hu : s.simplify u = .op o l r) (hstable : (s.simplify u).Stable) :
    s.simplify l = l ∧ s.simplify r = r := by
  have hunbound (name : Char) (h : name ∈ (s.simplify u).names) : s.get? name = none :=
    (mem_names_simplify h).2
  rw [hu] at hstable hunbound
  exact ⟨simplify_of_stable hstable.1 fun name h => hunbound name (List.mem_append_left _ h),
    simplify_of_stable hstable.2.1 fun name h => hunbound name (List.mem_append_right _ h)⟩

theorem eq_constant_of_closed {s : Scope K} {e : Expr K} (he : s.simplify e = e)
    (hclosed : e.containsVariable = false) : ∃ v, e = .constant v := by
  obtain ⟨v, hv⟩ := s.exists_simplify_eq_constant hclosed
  exact ⟨v, he.symm.trans hv⟩

end Scope
end ComplexAlgebra
