import ComplexAlgebra.Proofs.ConstantFactor
import ComplexAlgebra.Proofs.KnownSide

/-! A list multiplied into an expression. Simplification spreads it over the terms of a sum, and it
then stands in every term on its own. A value of the product is still found by choosing the same
number everywhere; what other choices give is a value of the product only where all numbers of the
list are the same or the expression is no sum. -/
namespace ComplexAlgebra

open ExactNumber
open Number (ofComplex)

namespace ExactNumber

theorem beq_zero_eq_false_iff {x : ExactNumber} : (x == 0) = false ↔ x.value? ≠ some 0 := by
  rw [Bool.eq_false_iff, ne_eq, ne_eq, beq_iff, value?_eq_some_iff, ofComplex_zero]

theorem regular : Arithmetic.Regular ExactNumber where
  mul_ne_zero x y hx hy := by
    rw [beq_zero_eq_false_iff] at hx hy ⊢
    intro h
    obtain ⟨a, b, ha, hb, hop⟩ :=
      computes_of_value?_apply (o := .mul) h fun h => absurd h (by decide)
    rcases mul_eq_zero.1 (Operator.computes_mul_iff.1 hop) with rfl | rfl
    · exact hx ha
    · exact hy hb
  div_ne_zero x y hx := by
    rw [beq_zero_eq_false_iff] at hx ⊢
    intro h
    obtain ⟨a, b, ha, hb, hop⟩ :=
      computes_of_value?_apply (o := .div) h fun h => absurd h (by decide)
    obtain ⟨hb0, hab⟩ := Operator.computes_div_iff.1 hop
    rw [div_eq_iff hb0, zero_mul] at hab
    exact hx (hab ▸ ha)
  two_ne_zero := Bool.eq_false_iff.2 fun h =>
    two_ne_zero (ofComplex_injective (beq_iff.1 h : ofComplex 2 = ofComplex 0))
  two_ne_one := Bool.eq_false_iff.2 fun h => by
    have hh : (2 : ℂ) = 1 := ofComplex_injective (beq_iff.1 h)
    norm_num at hh
  one_ne_zero := one_beq_zero

end ExactNumber

namespace Simplification

open ComplexAlgebra.Expr

variable {S : Set ℤ}

theorem exponentsIn_operand {x e : Expr ExactNumber} (he : e.ExponentsIn S)
    (h : x.IsOperand e) : x.ExponentsIn S := by
  cases h with
  | left => exact he.1
  | right => exact he.2.1

theorem exponentsIn_sum (negated : Bool) {l r : Expr ExactNumber} (hl : l.ExponentsIn S)
    (hr : r.ExponentsIn S) : (sum negated l r).ExponentsIn S := by
  fun_induction sum negated l r with
  | case1 negated l r e h =>
    rcases sumAtOnce?_cases h with ⟨v, rfl⟩ | ⟨name, c, rfl⟩ | rfl | rfl | rfl
    · trivial
    · exact exponentsIn_collected name c
    · exact hl
    · exact hr
    · exact exponentsIn_additive_iff.2 ⟨hl, hr⟩
  | case2 negated l r _ t h _ ih =>
    exact ih trivial
      ((isOperand_regrouped? h).elim (exponentsIn_operand hl) (exponentsIn_operand hr))
  | case3 negated l r _ t h _ ih =>
    exact ih
      ((isOperand_regrouped? h).elim (exponentsIn_operand hl) (exponentsIn_operand hr)) trivial
  | case4 negated l r => exact exponentsIn_additive_iff.2 ⟨hl, hr⟩

theorem exponentsIn_divide_constant (v : Value ExactNumber) {e : Expr ExactNumber}
    (he : e.ExponentsIn S) : (divide (.constant v) e).ExponentsIn S := by
  cases e with
  | constant w =>
    rw [divide]
    trivial
  | var name c =>
    rw [divide_of_none rfl rfl rfl]
    exact .of_ne_pow (by decide) trivial he
  | op o l r =>
    rw [divide_of_none rfl rfl rfl]
    exact .of_ne_pow (by decide) trivial he

theorem productAtOnce?_constant_cases {v : Value ExactNumber} {e e' : Expr ExactNumber}
    (h : productAtOnce? (.constant v) e = some e') :
    (∃ w, e' = .constant w) ∨ e' = e ∨ ∃ name c, e' = .var name c := by
  unfold productAtOnce? at h
  split at h
  · exact .inl ⟨_, (Option.some.inj h).symm⟩
  · next heq => cases heq
  · split at h
    · exact .inr (.inl (Option.some.inj h).symm)
    · split at h
      · exact .inl ⟨_, (Option.some.inj h).symm⟩
      · split at h
        · exact .inl ⟨_, (Option.some.inj h).symm⟩
        · split at h
          · exact .inr (.inr ⟨_, _, (Option.some.inj h).symm⟩)
          · exact .inr (.inr ⟨_, _, (Option.some.inj h).symm⟩)
          · cases h

theorem exponentsIn_multiply_constant (v : Value ExactNumber) {e : Expr ExactNumber}
    (he : e.ExponentsIn S) : (multiply (.constant v) e).ExponentsIn S := by
  rw [multiply]
  split
  · next e' h =>
    rcases productAtOnce?_constant_cases h with ⟨w, rfl⟩ | rfl | ⟨name, c, rfl⟩
    · trivial
    · exact he
    · trivial
  · split
    · next h => cases (eq_of_distributable? h).1
    · split
      · next negated a b h =>
        have hsize := size_of_distributable? h
        obtain ⟨ha, hb⟩ := isOperand_distributable? h
        exact exponentsIn_sum negated (exponentsIn_multiply_constant v (exponentsIn_operand he ha))
          (exponentsIn_multiply_constant v (exponentsIn_operand he hb))
      · split
        · next c k rest h =>
          have hsize := size_of_pairing? h
          obtain ⟨f, hf, heq⟩ := Option.map_eq_some_iff.1 h
          cases heq
          exact exponentsIn_multiply_constant _ (exponentsIn_operand he (isOperand_factored? hf))
        · next c rest k h =>
          have hsize := size_of_pairing? h
          obtain ⟨f, hf, heq⟩ := Option.map_eq_some_iff.1 h
          cases heq
          exact exponentsIn_multiply_constant _ (exponentsIn_operand he (isOperand_factored? hf))
        · next c k rest h =>
          obtain ⟨f, hf, heq⟩ := Option.map_eq_some_iff.1 h
          cases heq
          exact exponentsIn_divide_constant _ (exponentsIn_operand he (isOperand_factored? hf))
        · exact .of_ne_pow (by decide) trivial he
termination_by e.size
decreasing_by all_goals simp only [Expr.size, Factored.rest] at *; omega

end Simplification

namespace Value

/-- No number of the value is defined and not zero. -/
def OnlyZero (v : Value ExactNumber) : Prop := ∀ x ∈ v.elements, ∀ a, x.value? = some a → a = 0

/-- All defined numbers of the value are the same. -/
def Alike (v : Value ExactNumber) : Prop :=
  ∀ x ∈ v.elements, ∀ y ∈ v.elements, ∀ a b, x.value? = some a → y.value? = some b → a = b

theorem mem_combine_scalar {xs : List ExactNumber} {x : ExactNumber} (hx : x ∈ xs) (o : Operator)
    (y : ExactNumber) : o.apply x y ∈ (o.combine (.list xs) (.scalar y)).elements :=
  mem_combine.2 ⟨x, hx, y, List.mem_singleton_self y, rfl⟩

theorem exists_of_mem_combine_scalar {o : Operator} (ho : o ≠ .pow) {v : Value ExactNumber}
    {y z : ExactNumber} {q c : ℂ} (hy : y.value? = some q)
    (hz : z ∈ (o.combine v (.scalar y)).elements) (hc : z.value? = some c) :
    ∃ x ∈ v.elements, ∃ a, x.value? = some a ∧ o.Computes a q c := by
  obtain ⟨x, hx, y', hy', rfl⟩ := mem_combine.1 hz
  cases List.mem_singleton.1 hy'
  obtain ⟨a, q', ha, hq', hop⟩ := computes_of_value?_apply hc fun h => absurd h ho
  cases hy.symm.trans hq'
  exact ⟨x, hx, a, ha, hop⟩

theorem exists_list_of_not_alike {v : Value ExactNumber} (h : ¬ v.Alike) :
    ∃ xs, v = .list xs := by
  cases v with
  | list xs => exact ⟨xs, rfl⟩
  | scalar z =>
    refine absurd (fun x hx y hy a b ha hb => ?_) h
    cases List.mem_singleton.1 hx
    cases List.mem_singleton.1 hy
    exact Option.some.inj (ha.symm.trans hb)

theorem onlyZero_combine_mul (v : Value ExactNumber) {y : ExactNumber} (hy : y.value? = some 0) :
    (Operator.mul.combine v (.scalar y)).OnlyZero := by
  intro z hz c hc
  obtain ⟨x, -, a, -, hop⟩ := exists_of_mem_combine_scalar (by decide) hy hz hc
  rw [← Operator.computes_mul_iff.1 hop, mul_zero]

end Value

namespace Expr

open Simplification

/-- `Takes allows ρ e a`: one number for every list in `e` gives it the value `a`. A list stands
alone, in front of an expression with a value, or so in the terms of a sum. As a factor or dividend
it stands only for numbers that are allowed. -/
inductive Takes (allows : Operator → Value ExactNumber → ℂ → Prop) (ρ : Char → Option ℂ) :
    Expr ExactNumber → ℂ → Prop
  | value {e : Expr ExactNumber} {a : ℂ} (h : Denotes ρ e a) : Takes allows ρ e a
  | list {xs : List ExactNumber} {x : ExactNumber} {a : ℂ} (hx : x ∈ xs) (ha : x.value? = some a) :
    Takes allows ρ (.constant (.list xs)) a
  | product {xs : List ExactNumber} {x : ExactNumber} {a b : ℂ} {e : Expr ExactNumber}
    (hx : x ∈ xs) (ha : x.value? = some a) (hallows : allows .mul (.list xs) a)
    (he : Denotes ρ e b) : Takes allows ρ (.op .mul (.constant (.list xs)) e) (a * b)
  | quotient {xs : List ExactNumber} {x : ExactNumber} {a b : ℂ} {e : Expr ExactNumber}
    (hx : x ∈ xs) (ha : x.value? = some a) (hallows : allows .div (.list xs) a)
    (he : Denotes ρ e b) (hb0 : b ≠ 0) : Takes allows ρ (.op .div (.constant (.list xs)) e) (a / b)
  | add {l r : Expr ExactNumber} {a b : ℂ} (hl : Takes allows ρ l a) (hr : Takes allows ρ r b) :
    Takes allows ρ (.op .add l r) (a + b)
  | sub {l r : Expr ExactNumber} {a b : ℂ} (hl : Takes allows ρ l a) (hr : Takes allows ρ r b) :
    Takes allows ρ (.op .sub l r) (a - b)

variable {allows : Operator → Value ExactNumber → ℂ → Prop} {ρ : Char → Option ℂ}
  {e l r : Expr ExactNumber} {v : Value ExactNumber} {a b c : ℂ}

theorem Takes.of_eq (h : Takes allows ρ e a) (hab : a = b) : Takes allows ρ e b := hab ▸ h

theorem takes_constant_iff :
    Takes allows ρ (.constant v) a ↔ ∃ x ∈ v.elements, x.value? = some a := by
  constructor
  · intro h
    cases h with
    | value h =>
      obtain ⟨x, rfl, hx⟩ := denotes_constant_iff.1 h
      exact ⟨x, List.mem_singleton_self x, hx⟩
    | list hx ha => exact ⟨_, hx, ha⟩
  · rintro ⟨x, hx, ha⟩
    cases v with
    | scalar y =>
      cases List.mem_singleton.1 hx
      exact .value (.number ha)
    | list xs => exact .list hx ha

theorem takes_add_iff : Takes allows ρ (.op .add l r) a ↔
    ∃ p q, Takes allows ρ l p ∧ Takes allows ρ r q ∧ p + q = a := by
  constructor
  · intro h
    cases h with
    | value h =>
      obtain ⟨p, q, hp, hq, rfl⟩ := denotes_add_iff.1 h
      exact ⟨p, q, .value hp, .value hq, rfl⟩
    | add hl hr => exact ⟨_, _, hl, hr, rfl⟩
  · rintro ⟨p, q, hp, hq, rfl⟩
    exact hp.add hq

theorem takes_sub_iff : Takes allows ρ (.op .sub l r) a ↔
    ∃ p q, Takes allows ρ l p ∧ Takes allows ρ r q ∧ p - q = a := by
  constructor
  · intro h
    cases h with
    | value h =>
      obtain ⟨p, q, hp, hq, rfl⟩ := denotes_sub_iff.1 h
      exact ⟨p, q, .value hp, .value hq, rfl⟩
    | sub hl hr => exact ⟨_, _, hl, hr, rfl⟩
  · rintro ⟨p, q, hp, hq, rfl⟩
    exact hp.sub hq

theorem takes_additive_iff {negated : Bool} : Takes allows ρ (.op (additive negated) l r) a ↔
    ∃ p q, Takes allows ρ l p ∧ Takes allows ρ r q ∧ signedSum negated p q = a := by
  cases negated with
  | false => exact takes_add_iff
  | true => exact takes_sub_iff

theorem Takes.factor {xs : List ExactNumber}
    (h : Takes allows ρ (.op .mul (.constant (.list xs)) e) c) : ∃ x ∈ xs, ∃ a b,
      x.value? = some a ∧ allows .mul (.list xs) a ∧ Denotes ρ e b ∧ a * b = c := by
  cases h with
  | value h =>
    obtain ⟨_, _, hl, -, -⟩ := denotes_mul_iff.1 h
    cases hl
  | product hx ha hallows he => exact ⟨_, hx, _, _, ha, hallows, he, rfl⟩

theorem Takes.dividend {xs : List ExactNumber}
    (h : Takes allows ρ (.op .div (.constant (.list xs)) e) c) : ∃ x ∈ xs, ∃ a b,
      x.value? = some a ∧ allows .div (.list xs) a ∧ Denotes ρ e b ∧ b ≠ 0 ∧ a / b = c := by
  cases h with
  | value h =>
    obtain ⟨_, _, hl, -, -, -⟩ := denotes_div_iff.1 h
    cases hl
  | quotient hx ha hallows he hb0 => exact ⟨_, hx, _, _, ha, hallows, he, hb0, rfl⟩

theorem Takes.unique (h : Takes allows ρ e c) (he : Denotes ρ e a) : c = a := by
  induction h generalizing a with
  | value h => exact h.unique he
  | list => cases he
  | product =>
    obtain ⟨_, _, hl, -, -⟩ := denotes_mul_iff.1 he
    cases hl
  | quotient =>
    obtain ⟨_, _, hl, -, -, -⟩ := denotes_div_iff.1 he
    cases hl
  | add _ _ ihl ihr =>
    obtain ⟨p, q, hp, hq, rfl⟩ := denotes_add_iff.1 he
    rw [ihl hp, ihr hq]
  | sub _ _ ihl ihr =>
    obtain ⟨p, q, hp, hq, rfl⟩ := denotes_sub_iff.1 he
    rw [ihl hp, ihr hq]

theorem Takes.rest {o : Operator} (h : Takes allows ρ (.op o (.constant v) e) c)
    (ho : o = .mul ∨ o = .div) : ∃ b, Denotes ρ e b ∧ (o = .div → b ≠ 0) := by
  cases h with
  | value h =>
    obtain ⟨_, b, -, hb, hop⟩ := denotes_op_iff.1 h
    refine ⟨b, hb, ?_⟩
    rintro rfl
    exact (Operator.computes_div_iff.1 hop).1
  | product _ _ _ he => exact ⟨_, he, nofun⟩
  | quotient _ _ _ he hb0 => exact ⟨_, he, fun _ => hb0⟩
  | add => simp at ho
  | sub => simp at ho

/-- The choice of every number is allowed. -/
def Anything : Operator → Value ExactNumber → ℂ → Prop := fun _ _ _ => True

/-- A factor is not chosen zero, and a dividend only if its list has no other number. -/
def AvoidsZero : Operator → Value ExactNumber → ℂ → Prop
  | .mul, _, a => a ≠ 0
  | _, v, a => a = 0 → v.OnlyZero

/-- What is allowed is also allowed of a list that is multiplied by a number or divided by one. -/
structure Scalable (allows : Operator → Value ExactNumber → ℂ → Prop) : Prop where
  times {v : Value ExactNumber} {y : ExactNumber} {a q : ℂ} (h : allows .mul v a)
    (hy : y.value? = some q) (hq0 : q ≠ 0) :
    allows .mul (Operator.mul.combine v (.scalar y)) (a * q)
  divided {v : Value ExactNumber} {y : ExactNumber} {a q : ℂ} (h : allows .mul v a)
    (hy : y.value? = some q) (hq0 : q ≠ 0) :
    allows .mul (Operator.div.combine v (.scalar y)) (a / q)
  dividend {v : Value ExactNumber} {y : ExactNumber} {a q : ℂ} (h : allows .mul v a)
    (hy : y.value? = some q) : allows .div (Operator.mul.combine v (.scalar y)) (a * q)

theorem takes_product (hv : Takes Anything ρ (.constant v) a) (he : Denotes ρ e b) :
    Takes Anything ρ (.op .mul (.constant v) e) (a * b) := by
  cases hv with
  | value hv => exact .value (hv.mul he)
  | list hx ha => exact .product hx ha trivial he

theorem takes_quotient (hv : Takes Anything ρ (.constant v) a) (he : Denotes ρ e b) (hb0 : b ≠ 0) :
    Takes Anything ρ (.op .div (.constant v) e) (a / b) := by
  cases hv with
  | value hv => exact .value (hv.div he hb0)
  | list hx ha => exact .quotient hx ha trivial he hb0

theorem scalable_anything : Scalable Anything :=
  ⟨fun _ _ _ => trivial, fun _ _ _ => trivial, fun _ _ => trivial⟩

theorem scalable_avoidsZero : Scalable AvoidsZero where
  times h _ hq0 := mul_ne_zero h hq0
  divided h _ hq0 := div_ne_zero h hq0
  dividend {v y a q} h hy haq := by
    rw [(mul_eq_zero_iff_left h).1 haq] at hy
    exact Value.onlyZero_combine_mul v hy

end Expr

namespace Simplification

open ComplexAlgebra.Expr

variable {allows : Operator → Value ExactNumber → ℂ → Prop} {ρ : Char → Option ℂ}
  {e rest : Expr ExactNumber} {k : Value ExactNumber} {a b c : ℂ}

theorem denotes_of_factored? {f : Factored ExactNumber} (h : factored? e = some f)
    (he : Denotes ρ e b) : Denotes ρ f.toExpr b := by
  unfold factored? at h
  split at h
  · cases h
    exact he
  · cases h
    exact denotes_of_productRule (.mul_comm _ _) he
  · cases h
    exact he
  · cases h
    exact he
  · cases h

theorem denotes_times (he : e.Stable) (h : factored? e = some (.times k rest))
    (hd : Denotes ρ e b) : ∃ y q p, k = .scalar y ∧ y.value? = some q ∧ q ≠ 0 ∧
      Denotes ρ rest p ∧ q * p = b := by
  obtain ⟨q, p, hk, hp, rfl⟩ := denotes_mul_iff.1 (denotes_of_factored? h hd)
  obtain ⟨y, rfl, hy⟩ := denotes_constant_iff.1 hk
  refine ⟨y, q, p, rfl, hy, ?_, hp, rfl⟩
  rintro rfl
  exact beq_zero_eq_false_iff.1 (beside_of_times he h).2 hy

theorem denotes_dividend (h : factored? e = some (.dividend rest k)) (hd : Denotes ρ e b) :
    ∃ y q p, k = .scalar y ∧ y.value? = some q ∧ q ≠ 0 ∧ Denotes ρ rest p ∧ p / q = b := by
  obtain ⟨p, q, hp, hk, hq0, rfl⟩ := denotes_div_iff.1 (denotes_of_factored? h hd)
  obtain ⟨y, rfl, hy⟩ := denotes_constant_iff.1 hk
  exact ⟨y, q, p, rfl, hy, hq0, hp, rfl⟩

theorem denotes_divisor (h : factored? e = some (.divisor k rest)) (hd : Denotes ρ e b) :
    ∃ y q p, k = .scalar y ∧ y.value? = some q ∧ Denotes ρ rest p ∧ p ≠ 0 ∧ q / p = b := by
  obtain ⟨q, p, hk, hp, hp0, rfl⟩ := denotes_div_iff.1 (denotes_of_factored? h hd)
  obtain ⟨y, rfl, hy⟩ := denotes_constant_iff.1 hk
  exact ⟨y, q, p, rfl, hy, hp, hp0, rfl⟩

/-- A list multiplied into an expression can be chosen from in the same way in all of its terms. -/
theorem takes_multiply (hallows : Scalable allows) {xs : List ExactNumber} {x : ExactNumber}
    (hstable : e.Stable) (hx : x ∈ xs) (ha : x.value? = some a) (h : allows .mul (.list xs) a)
    (he : Denotes ρ e b) : Takes allows ρ (multiply (.constant (.list xs)) e) (a * b) := by
  have hind := multiply_list_induction regular (P := fun xs e m => ∀ x ∈ xs, ∀ a b,
    x.value? = some a → allows .mul (.list xs) a → Denotes ρ e b → Takes allows ρ m (a * b))
    ?_ ?_ ?_ ?_ ?_ ?_ xs hstable
  · exact hind x hx a b ha h he
  · intro xs w x hx a b ha _ he
    obtain ⟨y, rfl, hy⟩ := denotes_constant_iff.1 he
    exact takes_constant_iff.2 ⟨_, Value.mem_combine_scalar hx .mul y,
      value?_apply ha hy (.mul a b)⟩
  · intro xs negated l r m n ihl ihr x hx a b ha h he
    obtain ⟨p, q, hp, hq, rfl⟩ := denotes_additive_iff.1 he
    rw [mul_signedSum]
    exact takes_additive_iff.2 ⟨_, _, ihl x hx a p ha h hp, ihr x hx a q ha h hq, rfl⟩
  · intro xs k rest e m hstable hf _ ih x hx a b ha h he
    obtain ⟨y, q, p, rfl, hy, hq0, hp, rfl⟩ := denotes_times hstable hf he
    rw [← mul_assoc]
    exact ih _ (Value.mem_combine_scalar hx .mul y) _ p (value?_apply ha hy (.mul a q))
      (hallows.times h hy hq0) hp
  · intro xs k rest e m hf _ ih x hx a b ha h he
    obtain ⟨y, q, p, rfl, hy, hq0, hp, rfl⟩ := denotes_dividend hf he
    rw [mul_div_assoc', mul_div_right_comm]
    exact ih _ (Value.mem_combine_scalar hx .div y) _ p (value?_apply ha hy (.div a hq0))
      (hallows.divided h hy hq0) hp
  · intro xs k rest e hf x hx a b ha h he
    obtain ⟨y, q, p, rfl, hy, hp, hp0, rfl⟩ := denotes_divisor hf he
    rw [← mul_div_assoc]
    exact .quotient (Value.mem_combine_scalar hx .mul y) (value?_apply ha hy (.mul a q))
      (hallows.dividend h hy) hp hp0
  · intro xs e _ x hx a b ha h he
    exact .product hx ha h he

/-- What a list that is multiplied into an expression with a value can be chosen to give is one of
its numbers times that value, if the list is not copied to several terms or has only one number. -/
theorem exists_of_takes_multiply {xs : List ExactNumber} (hstable : e.Stable)
    (hone : terms? e = none ∨ (Value.list xs).Alike) (he : Denotes ρ e b)
    (h : Takes allows ρ (multiply (.constant (.list xs)) e) c) :
    ∃ x ∈ xs, ∃ a, x.value? = some a ∧ a * b = c := by
  have hind := multiply_list_induction regular (P := fun xs e m =>
    (terms? e = none ∨ (Value.list xs).Alike) → ∀ b c, Denotes ρ e b → Takes allows ρ m c →
      ∃ x ∈ xs, ∃ a, x.value? = some a ∧ a * b = c) ?_ ?_ ?_ ?_ ?_ ?_ xs hstable
  · exact hind hone b c he h
  · intro xs w _ b c he h
    obtain ⟨y, rfl, hy⟩ := denotes_constant_iff.1 he
    obtain ⟨z, hz, hc⟩ := takes_constant_iff.1 h
    obtain ⟨x, hx, a, ha, hop⟩ := Value.exists_of_mem_combine_scalar (by decide) hy hz hc
    exact ⟨x, hx, a, ha, Operator.computes_mul_iff.1 hop⟩
  · intro xs negated l r m n ihl ihr hone b c he h
    have halike : (Value.list xs).Alike :=
      hone.resolve_left (by cases negated <;> exact Option.some_ne_none _)
    obtain ⟨p, q, hp, hq, rfl⟩ := denotes_additive_iff.1 he
    obtain ⟨c, d, hc, hd, rfl⟩ := takes_additive_iff.1 h
    -- The terms have their numbers of the list apart from each other, so it must have only one.
    obtain ⟨x, hx, a, ha, rfl⟩ := ihl (.inr halike) p c hp hc
    obtain ⟨y, hy, a', ha', rfl⟩ := ihr (.inr halike) q d hq hd
    obtain rfl := halike x hx y hy a a' ha ha'
    exact ⟨x, hx, a, ha, mul_signedSum negated p q a⟩
  · intro xs k rest e m hstable hf hterms ih _ b c he h
    obtain ⟨y, q, p, rfl, hy, -, hp, rfl⟩ := denotes_times hstable hf he
    obtain ⟨z, hz, d, hd, rfl⟩ := ih (.inl hterms) p c hp h
    obtain ⟨x, hx, a, ha, hop⟩ := Value.exists_of_mem_combine_scalar (by decide) hy hz hd
    refine ⟨x, hx, a, ha, ?_⟩
    rw [← Operator.computes_mul_iff.1 hop, mul_assoc]
  · intro xs k rest e m hf hterms ih _ b c he h
    obtain ⟨y, q, p, rfl, hy, -, hp, rfl⟩ := denotes_dividend hf he
    obtain ⟨z, hz, d, hd, rfl⟩ := ih (.inl hterms) p c hp h
    obtain ⟨x, hx, a, ha, hop⟩ := Value.exists_of_mem_combine_scalar (by decide) hy hz hd
    refine ⟨x, hx, a, ha, ?_⟩
    rw [← (Operator.computes_div_iff.1 hop).2, mul_div_assoc', mul_div_right_comm]
  · intro xs k rest e hf _ b c he h
    obtain ⟨y, q, p, rfl, hy, hp, -, rfl⟩ := denotes_divisor hf he
    obtain ⟨z, hz, d, p', hd, -, hp', -, rfl⟩ := h.dividend
    obtain rfl := hp'.unique hp
    obtain ⟨x, hx, a, ha, hop⟩ :=
      Value.exists_of_mem_combine_scalar (o := .mul) (v := .list xs) (by decide) hy hz hd
    refine ⟨x, hx, a, ha, ?_⟩
    rw [← Operator.computes_mul_iff.1 hop, mul_div_assoc]
  · intro xs e _ _ b c he h
    obtain ⟨x, hx, a, b', ha, -, hb', rfl⟩ := h.factor
    obtain rfl := hb'.unique he
    exact ⟨x, hx, a, ha, rfl⟩

theorem takes_multiply_constant {v : Value ExactNumber} (hstable : e.Stable)
    (hv : Takes Anything ρ (.constant v) a) (he : Denotes ρ e b) :
    Takes Anything ρ (multiply (.constant v) e) (a * b) := by
  cases hv with
  | value hv => exact .value ((recasts_multiply _ _).denotes (hv.mul he))
  | list hx ha => exact takes_multiply scalable_anything hstable hx ha trivial he

theorem exists_of_takes_multiply_constant {v : Value ExactNumber} (hstable : e.Stable)
    (hone : terms? e = none ∨ v.Alike) (hv : Takes Anything ρ (.constant v) a)
    (he : Denotes ρ e b) (h : Takes Anything ρ (multiply (.constant v) e) c) :
    ∃ a, Takes Anything ρ (.constant v) a ∧ a * b = c := by
  cases hv with
  | value hv =>
    exact ⟨a, .value hv, (h.unique ((recasts_multiply _ _).denotes (hv.mul he))).symm⟩
  | list =>
    obtain ⟨x, hx, a, ha, hab⟩ := exists_of_takes_multiply hstable hone he h
    exact ⟨a, .list hx ha, hab⟩

end Simplification
end ComplexAlgebra
