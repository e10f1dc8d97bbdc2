import ComplexAlgebra.Simplification

/-! A weight of expressions that simplification never raises. Constants weigh two, a sum weighs
what its operands weigh together, a product weighs their product, a quotient twice that, and a
power their power: distributing a constant over a sum or an exponent over a product keeps the
weight, and removing an operation from an expression lowers it. -/
namespace ComplexAlgebra

variable {K : Type} [Arithmetic K]

namespace Expr

def weight : Expr K → Nat
  | constant _ => 2
  | var _ c => if c == 1 then 2 else 4
  | op .add l r => l.weight + r.weight
  | op .sub l r => l.weight + r.weight
  | op .mul l r => l.weight * r.weight
  | op .div l r => 2 * (l.weight * r.weight)
  | op .pow l r => Nat.pow l.weight r.weight

@[simp] theorem weight_constant (v : Value K) : (constant v).weight = 2 := rfl

@[simp] theorem weight_unit (name : Char) : (var name (1 : K)).weight = 2 := by
  simp [weight, Arithmetic.one_beq_one]

theorem weight_var_le (name : Char) (c : K) : (var name c).weight ≤ 4 := by
  simp only [weight]; split <;> omega

theorem two_le_weight (e : Expr K) : 2 ≤ e.weight := by
  induction e with
  | constant v => simp
  | var name c => simp only [weight]; split <;> omega
  | op o l r ihl ihr =>
    have hmul : 2 * 2 ≤ l.weight * r.weight := Nat.mul_le_mul ihl ihr
    cases o with
    | add => simp only [weight]; omega
    | sub => simp only [weight]; omega
    | mul => simp only [weight]; omega
    | div => simp only [weight]; omega
    | pow =>
      simp only [weight]
      calc 2 ≤ l.weight := ihl
        _ = l.weight ^ 1 := (Nat.pow_one _).symm
        _ ≤ l.weight ^ r.weight := Nat.pow_le_pow_right (by omega) (by omega)

end Expr

namespace Simplification

open ComplexAlgebra.Expr (weight two_le_weight weight_var_le weight_constant weight_unit)

theorem weight_additive (negated : Bool) (l r : Expr K) :
    (Expr.op (additive negated) l r).weight = l.weight + r.weight := by
  cases negated <;> rfl

theorem weight_collected_le (name : Char) (c : K) : (collected name c).weight ≤ 4 := by
  unfold collected
  split
  · simp
  · exact weight_var_le name c

theorem weight_sumAtOnce?_le {negated : Bool} {l r e : Expr K}
    (h : sumAtOnce? negated l r = some e) : e.weight ≤ l.weight + r.weight := by
  have hl := two_le_weight l
  have hr := two_le_weight r
  unfold sumAtOnce? at h
  split at h
  · obtain rfl := Option.some.inj h
    exact Nat.le_add_right 2 2
  · split at h
    · obtain rfl := Option.some.inj h
      exact Nat.le_trans (weight_collected_le _ _) (by omega)
    · obtain rfl := Option.some.inj h
      exact Nat.le_of_eq (weight_additive negated _ _)
  · split at h
    · obtain rfl := Option.some.inj h
      exact Nat.le_add_right _ _
    · split at h
      · obtain rfl := Option.some.inj h
        exact Nat.le_add_left _ _
      · split at h
        · split at h
          · obtain rfl := Option.some.inj h
            exact Nat.le_trans (weight_collected_le _ _) (by omega)
          · obtain rfl := Option.some.inj h
            exact Nat.le_of_eq (weight_additive negated _ _)
        · obtain rfl := Option.some.inj h
          exact Nat.le_of_eq (weight_additive negated _ _)
        · obtain rfl := Option.some.inj h
          exact Nat.le_of_eq (weight_additive negated _ _)
        · simp at h

theorem weight_of_split? {e : Expr K} {s : Split K} (h : split? e = some s) :
    s.rest.weight + 2 = e.weight := by
  unfold split? at h
  split at h <;> simp at h <;> subst h <;> simp [weight] <;> omega

theorem weight_of_regrouped? {negated : Bool} {l r : Expr K} {s : Split K}
    (h : regrouped? negated l r = some s) : s.rest.weight + 2 ≤ l.weight + r.weight := by
  unfold regrouped? at h
  split at h
  · obtain ⟨t, ht, rfl⟩ := Option.map_eq_some_iff.1 h
    have := weight_of_split? ht
    simp only [weight_constant]; omega
  · obtain ⟨t, ht, rfl⟩ := Option.map_eq_some_iff.1 h
    have := weight_of_split? ht
    simp only [weight_constant]; omega
  · simp at h

theorem weight_sum_le (negated : Bool) (l r : Expr K) :
    (sum negated l r).weight ≤ l.weight + r.weight := by
  fun_induction sum negated l r with
  | case1 negated l r e h => exact weight_sumAtOnce?_le h
  | case2 negated l r _ s h _ ih =>
    have := weight_of_regrouped? h
    simp only [weight_constant] at ih; omega
  | case3 negated l r _ s h _ ih =>
    have := weight_of_regrouped? h
    simp only [weight_constant] at ih; omega
  | case4 negated l r => exact Nat.le_of_eq (weight_additive negated l r)

theorem weight_scaled_le (k : K) (e : Expr K) : (scaled k e).weight ≤ 2 * e.weight := by
  unfold scaled
  split
  · omega
  · simp [weight]

theorem weight_scaled_mul_le {a b : Char} {c d : K} {e : Expr K} (he : e.weight ≤ 4) :
    (scaled (c * d) e).weight ≤ (Expr.var a c).weight * (Expr.var b d).weight := by
  have hle := weight_scaled_le (c * d) e
  by_cases hc : (c == 1) = true <;> by_cases hd : (d == 1) = true
  · simp [weight, scaled, hc, hd, Arithmetic.mul_beq_one c d hc hd, he]
  all_goals simp only [weight, hc, hd]; simp; omega

theorem weight_scaled_div_le {a b : Char} {c d : K} {e : Expr K} (he : e.weight ≤ 8) :
    (scaled (c / d) e).weight ≤ 2 * ((Expr.var a c).weight * (Expr.var b d).weight) := by
  have hle := weight_scaled_le (c / d) e
  by_cases hc : (c == 1) = true <;> by_cases hd : (d == 1) = true
  · simp [weight, scaled, hc, hd, Arithmetic.div_beq_one c d hc hd, he]
  all_goals simp only [weight, hc, hd]; simp; omega

theorem weight_productAtOnce?_le {l r e : Expr K} (h : productAtOnce? l r = some e) :
    e.weight ≤ l.weight * r.weight := by
  have hl := two_le_weight l
  have hr := two_le_weight r
  have hmul : 2 * 2 ≤ l.weight * r.weight := Nat.mul_le_mul hl hr
  have hleft : l.weight ≤ l.weight * r.weight := Nat.le_mul_of_pos_right _ (by omega)
  have hright : r.weight ≤ l.weight * r.weight := Nat.le_mul_of_pos_left _ (by omega)
  unfold productAtOnce? at h
  split at h
  · obtain rfl := Option.some.inj h
    simp
  · split at h
    · obtain rfl := Option.some.inj h
      exact weight_scaled_mul_le (by simp [weight, Arithmetic.one_beq_one])
    · obtain rfl := Option.some.inj h
      exact weight_scaled_mul_le (by simp [weight, Arithmetic.one_beq_one])
  · split at h
    · obtain rfl := Option.some.inj h; exact hright
    · split at h
      · obtain rfl := Option.some.inj h; exact hleft
      · split at h
        · obtain rfl := Option.some.inj h
          simp only [weight_constant]; omega
        · split at h
          · obtain rfl := Option.some.inj h
            exact Nat.le_trans (weight_var_le _ _) hmul
          · obtain rfl := Option.some.inj h
            exact Nat.le_trans (weight_var_le _ _) hmul
          · simp at h

theorem weight_quotientAtOnce?_le {l r e : Expr K} (h : quotientAtOnce? l r = some e) :
    e.weight ≤ 2 * (l.weight * r.weight) := by
  have hl := two_le_weight l
  have hr := two_le_weight r
  have hmul : 2 * 2 ≤ l.weight * r.weight := Nat.mul_le_mul hl hr
  have hleft : l.weight ≤ l.weight * r.weight := Nat.le_mul_of_pos_right _ (by omega)
  unfold quotientAtOnce? at h
  split at h
  · obtain rfl := Option.some.inj h
    simp
  · split at h
    · obtain rfl := Option.some.inj h
      simp only [weight_constant]; omega
    · obtain rfl := Option.some.inj h
      exact weight_scaled_div_le (by simp [weight, Arithmetic.one_beq_one])
  · split at h
    · obtain rfl := Option.some.inj h; omega
    · split at h
      · obtain rfl := Option.some.inj h
        refine Nat.le_trans (weight_var_le _ _) ?_; omega
      · simp at h

theorem weight_of_terms? {e a b : Expr K} {negated : Bool} (h : terms? e = some (negated, a, b)) :
    a.weight + b.weight = e.weight := by
  unfold terms? at h
  split at h <;> simp at h <;> obtain ⟨-, rfl, rfl⟩ := h <;> rfl

theorem weight_of_distributable? {e other a b : Expr K} {negated : Bool}
    (h : distributable? e other = some (negated, a, b)) : a.weight + b.weight = e.weight := by
  unfold distributable? at h
  split at h
  · simp at h
  · exact weight_of_terms? h

def Factored.weight : Factored K → Nat
  | .times _ rest => 2 * rest.weight
  | .dividend rest _ => 4 * rest.weight
  | .divisor _ rest => 4 * rest.weight

theorem weight_of_factored? {e : Expr K} {f : Factored K} (h : factored? e = some f) :
    f.weight = e.weight := by
  unfold factored? at h
  split at h <;> simp at h <;> subst h <;> simp [Factored.weight, weight] <;> omega

theorem weight_of_pairing? {l r : Expr K} {c : Value K} {f : Factored K}
    (h : pairing? l r = some (c, f)) : 2 * f.weight = l.weight * r.weight := by
  unfold pairing? at h
  split at h
  · obtain ⟨g, hg, heq⟩ := Option.map_eq_some_iff.1 h
    obtain ⟨rfl, rfl⟩ := Prod.mk.inj heq
    simp [weight_of_factored? hg]
  · obtain ⟨g, hg, heq⟩ := Option.map_eq_some_iff.1 h
    obtain ⟨rfl, rfl⟩ := Prod.mk.inj heq
    simp [weight_of_factored? hg, Nat.mul_comm]
  · simp at h

theorem weight_of_dividing? {l r : Expr K} {k : Value K} {f : Factored K}
    (h : dividing? l r = some (k, f)) : 2 * f.weight = l.weight * r.weight := by
  unfold dividing? at h
  split at h
  · obtain ⟨g, hg, heq⟩ := Option.map_eq_some_iff.1 h
    obtain ⟨rfl, rfl⟩ := Prod.mk.inj heq
    simp [weight_of_factored? hg, Nat.mul_comm]
  · simp at h

mutual

theorem weight_multiply_le (l r : Expr K) : (multiply l r).weight ≤ l.weight * r.weight := by
  rw [multiply]
  split
  · next e h => exact weight_productAtOnce?_le h
  · split
    · next negated a b h =>
      have hsize := size_of_distributable? h
      have hsum := weight_sum_le negated (multiply a r) (multiply b r)
      have ha := weight_multiply_le a r
      have hb := weight_multiply_le b r
      rw [← weight_of_distributable? h, Nat.add_mul]; omega
    · split
      · next negated a b h =>
        have hsize := size_of_distributable? h
        have hsum := weight_sum_le negated (multiply l a) (multiply l b)
        have ha := weight_multiply_le l a
        have hb := weight_multiply_le l b
        rw [← weight_of_distributable? h, Nat.mul_add]; omega
      · split
        · next c k rest h =>
          have hsize := size_of_pairing? h
          have hweight := weight_of_pairing? h
          have hrest := weight_multiply_le (.constant (Operator.mul.combine c k)) rest
          simp only [Factored.weight, weight_constant] at hweight hrest; omega
        · next c rest k h =>
          have hsize := size_of_pairing? h
          have hweight := weight_of_pairing? h
          have hrest := weight_multiply_le (.constant (Operator.div.combine c k)) rest
          simp only [Factored.weight, weight_constant] at hweight hrest; omega
        · next c k rest h =>
          have hsize := size_of_pairing? h
          have hweight := weight_of_pairing? h
          have hrest := weight_divide_le (.constant (Operator.mul.combine c k)) rest
          simp only [Factored.weight, weight_constant] at hweight hrest; omega
        · exact Nat.le_refl _
termination_by l.size + r.size
decreasing_by all_goals simp only [Expr.size, Factored.rest] at *; omega

theorem weight_divide_le (l r : Expr K) : (divide l r).weight ≤ 2 * (l.weight * r.weight) := by
  rw [divide]
  split
  · next e h => exact weight_quotientAtOnce?_le h
  · split
    · next negated a b h =>
      have hsize := size_of_distributable? h
      have hsum := weight_sum_le negated (divide a r) (divide b r)
      have ha := weight_divide_le a r
      have hb := weight_divide_le b r
      rw [← weight_of_distributable? h, Nat.add_mul]; omega
    · split
      · next k c rest h =>
        have hsize := size_of_dividing? h
        have hweight := weight_of_dividing? h
        have hrest := weight_multiply_le (.constant (Operator.div.combine c k)) rest
        simp only [Factored.weight, weight_constant] at hweight hrest; omega
      · next k rest c h =>
        have hsize := size_of_dividing? h
        have hweight := weight_of_dividing? h
        have hrest := weight_divide_le rest (.constant (Operator.mul.combine c k))
        simp only [Factored.weight, weight_constant] at hweight hrest; omega
      · next k c rest h =>
        have hsize := size_of_dividing? h
        have hweight := weight_of_dividing? h
        have hrest := weight_divide_le (.constant (Operator.div.combine c k)) rest
        simp only [Factored.weight, weight_constant] at hweight hrest; omega
      · exact Nat.le_refl _
termination_by l.size + r.size
decreasing_by all_goals simp only [Expr.size, Factored.rest] at *; omega

end

theorem one_le_weight (e : Expr K) : 1 ≤ e.weight := Nat.le_of_succ_le (two_le_weight e)

theorem weight_powerOfConstant_le (v : Value K) (exponent : Expr K) :
    (powerOfConstant v exponent).weight ≤ Nat.pow 2 exponent.weight := by
  have hpow := two_le_weight (.op .pow (.constant v) exponent)
  cases exponent with
  | constant w => exact hpow
  | var name c => exact Nat.le_refl _
  | op o l r => exact Nat.le_refl _

theorem weight_powerOfVariable_le (name : Char) (c : K) (exponent : Expr K) :
    (powerOfVariable name c exponent).weight ≤
      Nat.pow (Expr.var name c).weight exponent.weight := by
  unfold powerOfVariable
  split
  · exact Nat.le_refl _
  · next hc =>
    cases exponent with
    | constant w =>
      refine Nat.le_trans (weight_multiply_le _ _) ?_
      simp [weight, Arithmetic.one_beq_one, hc]
    | var name c => exact Nat.le_refl _
    | op o l r => exact Nat.le_refl _

theorem weight_power_le (base exponent : Expr K) :
    (power base exponent).weight ≤ Nat.pow base.weight exponent.weight := by
  induction base generalizing exponent with
  | constant v =>
    have hself := Nat.pow_le_pow_right (one_le_weight (.constant v)) (one_le_weight exponent)
    unfold power
    split
    · exact two_le_weight (.op .pow (.constant v) exponent)
    · split
      · rwa [Nat.pow_one] at hself
      · exact weight_powerOfConstant_le v exponent
  | var name c =>
    have hself := Nat.pow_le_pow_right (one_le_weight (.var name c)) (one_le_weight exponent)
    unfold power
    split
    · exact two_le_weight (.op .pow (.var name c) exponent)
    · split
      · rwa [Nat.pow_one] at hself
      · exact weight_powerOfVariable_le name c exponent
  | op o l r ihl ihr =>
    have hself := Nat.pow_le_pow_right (one_le_weight (.op o l r)) (one_le_weight exponent)
    unfold power
    split
    · exact two_le_weight (.op .pow (.op o l r) exponent)
    · split
      · rwa [Nat.pow_one] at hself
      · cases o with
        | add => exact Nat.le_refl _
        | sub => exact Nat.le_refl _
        | mul =>
          simp only [weight, Nat.pow_eq, Nat.mul_pow]
          exact Nat.le_trans (weight_multiply_le _ _) (Nat.mul_le_mul (ihl exponent) (ihr exponent))
        | div =>
          simp only [weight, Nat.pow_eq, Nat.mul_pow]
          refine Nat.le_trans (weight_divide_le _ _) ?_
          refine Nat.mul_le_mul ?_ (Nat.mul_le_mul (ihl exponent) (ihr exponent))
          exact Nat.le_self_pow (Nat.pos_iff_ne_zero.1 (one_le_weight exponent)) 2
        | pow =>
          simp only [weight, Nat.pow_eq, ← Nat.pow_mul]
          refine Nat.le_trans (ihl (multiply r exponent)) ?_
          exact Nat.pow_le_pow_right (one_le_weight l) (weight_multiply_le r exponent)

theorem weight_operation_le (o : Operator) (l r : Expr K) :
    (operation o l r).weight ≤ (Expr.op o l r).weight := by
  cases o with
  | add => exact weight_sum_le false l r
  | sub => exact weight_sum_le true l r
  | mul => exact weight_multiply_le l r
  | div => exact weight_divide_le l r
  | pow => exact weight_power_le l r

theorem weight_op_mono (o : Operator) {l l' r r' : Expr K} (hl : l.weight ≤ l'.weight)
    (hr : r.weight ≤ r'.weight) : (Expr.op o l r).weight ≤ (Expr.op o l' r').weight := by
  have hmul := Nat.mul_le_mul hl hr
  cases o with
  | add => simp only [weight]; omega
  | sub => simp only [weight]; omega
  | mul => exact hmul
  | div => simp only [weight]; omega
  | pow =>
    exact Nat.le_trans (Nat.pow_le_pow_left hl _) (Nat.pow_le_pow_right (one_le_weight l') hr)

theorem weight_op_lt_left (o : Operator) {l l' r r' : Expr K} (hl : l.weight < l'.weight)
    (hr : r.weight ≤ r'.weight) : (Expr.op o l r).weight < (Expr.op o l' r').weight := by
  have hr2 := two_le_weight r'
  refine Nat.lt_of_le_of_lt (weight_op_mono o (Nat.le_refl _) hr) ?_
  have hmul : l.weight * r'.weight < l'.weight * r'.weight :=
    Nat.mul_lt_mul_of_pos_right hl (by omega)
  cases o with
  | add => simp only [weight]; omega
  | sub => simp only [weight]; omega
  | mul => exact hmul
  | div => simp only [weight]; omega
  | pow => exact Nat.pow_lt_pow_left hl (by omega)

theorem weight_op_lt_right (o : Operator) {l l' r r' : Expr K} (hl : l.weight ≤ l'.weight)
    (hr : r.weight < r'.weight) : (Expr.op o l r).weight < (Expr.op o l' r').weight := by
  have hl2 := two_le_weight l'
  refine Nat.lt_of_le_of_lt (weight_op_mono o hl (Nat.le_refl _)) ?_
  have hmul : l'.weight * r.weight < l'.weight * r'.weight :=
    Nat.mul_lt_mul_of_pos_left hr (by omega)
  cases o with
  | add => simp only [weight]; omega
  | sub => simp only [weight]; omega
  | mul => exact hmul
  | div => simp only [weight]; omega
  | pow => exact Nat.pow_lt_pow_right hl2 hr

end Simplification

namespace Scope

open Simplification

/-- Simplification does not raise the weight. -/
theorem weight_simplify_le (s : Scope K) (e : Expr K) : (s.simplify e).weight ≤ e.weight := by
  induction e with
  | constant v => exact Nat.le_refl _
  | var name c =>
    unfold simplify
    split
    · exact Expr.two_le_weight _
    · exact Nat.le_refl _
  | op o l r ihl ihr =>
    exact Nat.le_trans (weight_operation_le o _ _) (weight_op_mono o ihl ihr)

end Scope

namespace Expr

theorem weight_left_lt (o : Operator) (l r : Expr K) : l.weight < (op o l r).weight := by
  have hl := two_le_weight l
  have hr := two_le_weight r
  have hmul : l.weight * 2 ≤ l.weight * r.weight := Nat.mul_le_mul_left _ hr
  cases o with
  | add => simp only [weight]; omega
  | sub => simp only [weight]; omega
  | mul => simp only [weight]; omega
  | div => simp only [weight]; omega
  | pow =>
    calc l.weight < l.weight * 2 := by omega
      _ ≤ l.weight * l.weight := Nat.mul_le_mul_left _ hl
      _ = l.weight ^ 2 := (Nat.pow_two _).symm
      _ ≤ l.weight ^ r.weight := Nat.pow_le_pow_right (by omega) hr

theorem weight_right_lt (o : Operator) (l r : Expr K) : r.weight < (op o l r).weight := by
  have hl := two_le_weight l
  have hr := two_le_weight r
  have hmul : 2 * r.weight ≤ l.weight * r.weight := Nat.mul_le_mul_right _ hl
  cases o with
  | add => simp only [weight]; omega
  | sub => simp only [weight]; omega
  | mul => simp only [weight]; omega
  | div => simp only [weight]; omega
  | pow => exact Nat.lt_pow_self hl

theorem weight_mul_lt_div (v : Value K) (l r : Expr K) :
    (op .mul (constant v) r).weight < (op .div l r).weight := by
  have hl := two_le_weight l
  have hr := two_le_weight r
  have hmul : 2 * r.weight ≤ l.weight * r.weight := Nat.mul_le_mul_right _ hl
  simp only [weight]; omega

end Expr
end ComplexAlgebra
