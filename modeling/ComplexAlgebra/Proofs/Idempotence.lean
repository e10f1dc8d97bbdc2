import ComplexAlgebra.Proofs.Shortcuts
import ComplexAlgebra.Proofs.ZeroDivision

/-! Simplifying twice. The rules leave nothing to simplify but, where two coefficients multiply or
divide to zero, a product with that zero in front; the second pass takes it to zero, so simplifying
twice is simplifying once exactly where no such product is left. -/
namespace ComplexAlgebra

variable {K : Type} [Arithmetic K]

namespace Expr

open Simplification

/-- Some product has the number zero in front. -/
def hasZeroFactor : Expr K → Bool
  | constant _ => false
  | var _ _ => false
  | op o l r => (o == .mul && l.isNumber 0) || l.hasZeroFactor || r.hasZeroFactor

theorem hasZeroFactor_op_iff {o : Operator} {l r : Expr K} :
    (op o l r).hasZeroFactor = true ↔
      (o = .mul ∧ l.isNumber 0 = true) ∨ l.hasZeroFactor = true ∨ r.hasZeroFactor = true := by
  simp [hasZeroFactor, or_assoc]

/-- No operation can be simplified but products with the number zero in front. -/
def NearlyFixed : Expr K → Prop
  | constant _ => True
  | var _ _ => True
  | op o l r =>
    l.NearlyFixed ∧ r.NearlyFixed ∧
      (operation o l r = op o l r ∨ (o = .mul ∧ l.isNumber 0 = true))

theorem Fixed.nearlyFixed {e : Expr K} (h : e.Fixed) : e.NearlyFixed := by
  induction e with
  | constant v => trivial
  | var name c => trivial
  | op o l r ihl ihr => exact ⟨ihl h.1, ihr h.2.1, .inl h.2.2⟩

theorem NearlyFixed.fixed {e : Expr K} (h : e.NearlyFixed) (hzero : e.hasZeroFactor = false) :
    e.Fixed := by
  induction e with
  | constant v => trivial
  | var name c => trivial
  | op o l r ihl ihr =>
    obtain ⟨hl, hr, hop⟩ := h
    rw [← Bool.not_eq_true, hasZeroFactor_op_iff, not_or, not_or, Bool.not_eq_true,
      Bool.not_eq_true] at hzero
    exact ⟨ihl hl hzero.2.1, ihr hr hzero.2.2, hop.resolve_right hzero.1⟩

end Expr

namespace Simplification

open ComplexAlgebra.Expr

theorem fixed_square (hK : Arithmetic.Standard K) (a : Char) :
    (Expr.op .pow (.var a (1 : K)) (.number Arithmetic.two)).Fixed :=
  ⟨trivial, trivial, power_square hK.two_ne_zero hK.two_ne_one a⟩

theorem fixed_var_mul_var {a b : Char} (hab : a ≠ b) :
    (Expr.op .mul (.var a (1 : K)) (.var b 1)).Fixed :=
  ⟨trivial, trivial, multiply_var_var hab⟩

theorem fixed_var_div_var {a b : Char} (hab : a ≠ b) :
    (Expr.op .div (.var a (1 : K)) (.var b 1)).Fixed :=
  ⟨trivial, trivial, divide_var_var hab⟩

/-- Only the factor zero in front of an operation of two variables leaves something to simplify. -/
theorem nearlyFixed_scaled (k : K) {o : Operator} {l r : Expr K} (he : (Expr.op o l r).Fixed)
    (hterms : terms? (.op o l r) = none) (hfactored : factored? (.op o l r) = none) :
    (scaled k (.op o l r)).NearlyFixed := by
  unfold scaled
  split
  · exact he.nearlyFixed
  · next h1 =>
    refine ⟨trivial, he.nearlyFixed, ?_⟩
    cases h0 : k == 0 with
    | true => exact .inr ⟨rfl, h0⟩
    | false => exact .inl (multiply_number_op h0 (Bool.eq_false_iff.2 h1) hterms hfactored)

theorem nearlyFixed_productAtOnce? (hK : Arithmetic.Standard K) {l r e : Expr K}
    (hl : l.NearlyFixed) (hr : r.NearlyFixed) (h : productAtOnce? l r = some e) :
    e.NearlyFixed := by
  unfold productAtOnce? at h
  split at h
  · cases h
    trivial
  · next a c b d =>
    split at h
    · cases h
      exact nearlyFixed_scaled _ (fixed_square hK a) rfl rfl
    · next hab =>
      cases h
      exact nearlyFixed_scaled _ (fixed_var_mul_var hab) rfl rfl
  · split at h
    · cases h
      exact hr
    · split at h
      · cases h
        exact hl
      · split at h
        · cases h
          trivial
        · split at h
          · cases h
            trivial
          · cases h
            trivial
          · cases h

theorem nearlyFixed_quotientAtOnce? {l r e : Expr K} (hl : l.NearlyFixed)
    (h : quotientAtOnce? l r = some e) : e.NearlyFixed := by
  unfold quotientAtOnce? at h
  split at h
  · cases h
    trivial
  · next a c b d =>
    split at h
    · cases h
      trivial
    · next hab =>
      cases h
      exact nearlyFixed_scaled _ (fixed_var_div_var hab) rfl rfl
  · split at h
    · cases h
      exact hl
    · split at h
      · cases h
        trivial
      · cases h

theorem nearlyFixed_collected (name : Char) (c : K) : (collected name c).NearlyFixed := by
  unfold collected
  split
  · trivial
  · trivial

theorem inherited_nearlyFixed (hK : Arithmetic.Standard K) :
    Inherited (NearlyFixed : Expr K → Prop) where
  constant _ := trivial
  unit _ := trivial
  collected := nearlyFixed_collected
  left h := h.1
  right h := h.2.1
  product := nearlyFixed_productAtOnce? hK
  quotient hl _ h := nearlyFixed_quotientAtOnce? hl h
  op hl hr h := ⟨hl, hr, .inl h⟩

end Simplification

namespace Scope

open ComplexAlgebra.Expr Simplification

theorem nearlyFixed_simplify (hK : Arithmetic.Standard K) (s : Scope K) (e : Expr K) :
    (s.simplify e).NearlyFixed := by
  induction e with
  | constant v => trivial
  | var name c =>
    rw [simplify]
    split
    · trivial
    · trivial
  | op o l r ihl ihr => exact inherited_operation (inherited_nearlyFixed hK) o ihl ihr

theorem weight_simplify_lt (hK : Arithmetic.Standard K) (s : Scope K) {e : Expr K}
    (h : e.hasZeroFactor = true) : (s.simplify e).weight < e.weight := by
  induction e with
  | constant v => cases h
  | var name c => cases h
  | op o l r ihl ihr =>
    have hle := weight_operation_le o (s.simplify l) (s.simplify r)
    rcases hasZeroFactor_op_iff.1 h with ⟨rfl, hl⟩ | hl | hr
    · obtain ⟨x, rfl, hx⟩ := Expr.isNumber_iff.1 hl
      obtain ⟨v, hv⟩ := exists_multiply_zero hx (hK.zero_ne_one x hx) (s.simplify r)
      have hsimp : s.simplify (.op .mul (.number x) r) = .constant v := hv
      rw [hsimp]
      exact Expr.weight_left_lt .mul (.number x) r
    · exact Nat.lt_of_le_of_lt hle (weight_op_lt_left o (ihl hl) (s.weight_simplify_le r))
    · exact Nat.lt_of_le_of_lt hle (weight_op_lt_right o (s.weight_simplify_le l) (ihr hr))

theorem simplify_simplify (hK : Arithmetic.Standard K) {s : Scope K} {e : Expr K}
    (h : (s.simplify e).hasZeroFactor = false) : s.simplify (s.simplify e) = s.simplify e :=
  simplify_of_fixed ((s.nearlyFixed_simplify hK e).fixed h) fun _ hname =>
    (mem_names_simplify hname).2

end Scope

namespace Expr

theorem beq_self (e : Expr FloatNumber) : (e == e) = true := by
  induction e with
  | constant v => exact v.beq_self
  | var name c => exact Bool.and_eq_true_iff.2 ⟨beq_self_eq_true name, FloatNumber.beq_self c⟩
  | op o l r ihl ihr =>
    exact Bool.and_eq_true_iff.2 ⟨Bool.and_eq_true_iff.2 ⟨beq_self_eq_true o, ihl⟩, ihr⟩

theorem weight_eq_of_beq {e e' : Expr FloatNumber} (h : (e == e') = true) :
    e.weight = e'.weight := by
  induction e generalizing e' with
  | constant v =>
    cases e' with
    | constant w => rfl
    | var name d => cases h
    | op o l r => cases h
  | var name c =>
    cases e' with
    | constant w => cases h
    | var other d =>
      simp only [weight, FloatNumber.beq_congr (Bool.and_eq_true_iff.1 h).2]
    | op o l r => cases h
  | op o l r ihl ihr =>
    cases e' with
    | constant w => cases h
    | var other d => cases h
    | op o' l' r' =>
      obtain ⟨ho, hr⟩ := Bool.and_eq_true_iff.1 h
      obtain ⟨ho, hl⟩ := Bool.and_eq_true_iff.1 ho
      obtain rfl : o = o' := eq_of_beq ho
      have hl := ihl hl
      have hr := ihr hr
      cases o <;> simp only [weight, hl, hr]

end Expr

namespace Scope

open ComplexAlgebra.Expr Simplification

/-- Simplifying twice gives what simplifying once gives exactly if no product with a zero in front
is left after the first time. -/
theorem simplify_simplify_beq_iff (s : Scope FloatNumber) (e : Expr FloatNumber) :
    (s.simplify (s.simplify e) == s.simplify e) = true ↔ (s.simplify e).hasZeroFactor = false := by
  constructor
  · intro h
    refine Bool.eq_false_iff.2 fun hzero => ?_
    have hlt := weight_simplify_lt FloatNumber.standard s hzero
    exact Nat.ne_of_lt hlt (weight_eq_of_beq h)
  · intro h
    rw [simplify_simplify FloatNumber.standard h]
    exact (s.simplify e).beq_self

/-- The product of `x` with the coefficient zero and `y` is simplified to `0 * (x * y)`, and that to
zero. -/
theorem simplify_zero_coefficient :
    ((empty : Scope FloatNumber).simplify
      (empty.simplify (.op .mul (.var 'x' 0) (.var 'y' 1))) ==
        empty.simplify (.op .mul (.var 'x' 0) (.var 'y' 1))) = false := by
  set_option maxRecDepth 4000 in
  with_unfolding_all decide

end Scope
end ComplexAlgebra
