import ComplexAlgebra.Simplification

/-! The rewrite rules behind simplification, each with the operands it fires on, and the relation
they generate. Sums, products and quotients are simplified without the rules for powers.
Simplification is substitution of the bound variables followed by such rewriting, so what every
single rule keeps is kept by simplification. -/
namespace ComplexAlgebra

variable {K : Type}

namespace Simplification

/-- Any number of applications of the rules `R` anywhere in an expression. -/
inductive Closure (R : Expr K → Expr K → Prop) : Expr K → Expr K → Prop
  | refl (e : Expr K) : Closure R e e
  | rule {e e' : Expr K} (h : R e e') : Closure R e e'
  | trans {e e' e'' : Expr K} (h : Closure R e e') (h' : Closure R e' e'') : Closure R e e''
  | operands (o : Operator) {l l' r r' : Expr K} (hl : Closure R l l') (hr : Closure R r r') :
    Closure R (.op o l r) (.op o l' r')

theorem Closure.mono {R R' : Expr K → Expr K → Prop} (hR : ∀ e e', R e e' → R' e e')
    {e e' : Expr K} (h : Closure R e e') : Closure R' e e' := by
  induction h with
  | refl e => exact .refl e
  | rule h => exact .rule (hR _ _ h)
  | trans _ _ ih ih' => exact ih.trans ih'
  | operands o _ _ ihl ihr => exact .operands o ihl ihr

end Simplification

variable [Arithmetic K]

theorem Expr.isNumber_iff {x : K} {e : Expr K} :
    e.isNumber x = true ↔ ∃ y, e = .number y ∧ (y == x) = true := by
  cases e with
  | constant v => cases v <;> simp [isNumber]
  | var name c => simp [isNumber]
  | op o l r => simp [isNumber]

namespace Simplification

/-- The rules for sums and differences, at the root. -/
inductive SumRule : Expr K → Expr K → Prop
  | collect (negated : Bool) (a : Char) (c d : K) :
    SumRule (.op (additive negated) (.var a c) (.var a d))
      (collected a (if negated then c - d else c + d))
  | add_zero (negated : Bool) (e : Expr K) {x : K} (h : (x == 0) = true) :
    SumRule (.op (additive negated) e (.number x)) e
  | zero_add (e : Expr K) {x : K} (h : (x == 0) = true) : SumRule (.op .add (.number x) e) e
  | zero_sub (b : Char) (d : K) {x : K} (h : (x == 0) = true) :
    SumRule (.op .sub (.number x) (.var b d)) (collected b (-d))
  | add_comm (c : Value K) (e : Expr K) :
    SumRule (.op .add (.constant c) e) (.op .add e (.constant c))
  | sub_constant (e : Expr K) (c : Value K) :
    SumRule (.op .sub e (.constant c)) (.op .add e (.constant (c.map (- ·))))
  | sum_constant (negated : Bool) (e : Expr K) (c k : Value K) :
    SumRule (.op (additive negated) (.op .add e (.constant c)) (.constant k))
      (.op .add e (.constant (c.combine (· + ·) (k.withSign negated))))
  | difference_constant (negated : Bool) (c k : Value K) (e : Expr K) :
    SumRule (.op (additive negated) (.op .sub (.constant c) e) (.constant k))
      (.op .sub (.constant (c.combine (· + ·) (k.withSign negated))) e)
  | constant_add_sum (k c : Value K) (e : Expr K) :
    SumRule (.op .add (.constant k) (.op .add e (.constant c)))
      (.op .add e (.constant (k.combine (· + ·) c)))
  | constant_sub_sum (k c : Value K) (e : Expr K) :
    SumRule (.op .sub (.constant k) (.op .add e (.constant c)))
      (.op .sub (.constant (k.combine (· + ·) (c.map (- ·)))) e)
  | constant_add_difference (k c : Value K) (e : Expr K) :
    SumRule (.op .add (.constant k) (.op .sub (.constant c) e))
      (.op .sub (.constant (k.combine (· + ·) c)) e)
  | constant_sub_difference (k c : Value K) (e : Expr K) :
    SumRule (.op .sub (.constant k) (.op .sub (.constant c) e))
      (.op .add e (.constant (k.combine (· + ·) (c.map (- ·)))))

/-- The rules for products. -/
inductive ProductRule : Expr K → Expr K → Prop
  | mul_comm (e : Expr K) (k : Value K) :
    ProductRule (.op .mul e (.constant k)) (.op .mul (.constant k) e)
  | one_mul (e : Expr K) {x : K} (h : (x == 1) = true) : ProductRule (.op .mul (.number x) e) e
  | zero_mul (e : Expr K) {x : K} (h : (x == 0) = true) :
    ProductRule (.op .mul (.number x) e) (.number 0)
  | number_mul_var (k : K) (a : Char) (c : K) :
    ProductRule (.op .mul (.number k) (.var a c)) (.var a (c * k))
  | var_mul_self (a : Char) (c d : K) :
    ProductRule (.op .mul (.var a c) (.var a d))
      (scaled (c * d) (.op .pow (.var a 1) (.number Arithmetic.two)))
  | var_mul_var (a b : Char) (c d : K) :
    ProductRule (.op .mul (.var a c) (.var b d)) (scaled (c * d) (.op .mul (.var a 1) (.var b 1)))
  | sum_mul (negated : Bool) (a b : Expr K) {e : Expr K} (h : e.isOperator = false) :
    ProductRule (.op .mul (.op (additive negated) a b) e)
      (.op (additive negated) (.op .mul a e) (.op .mul b e))
  | mul_sum (negated : Bool) (a b : Expr K) {e : Expr K} (h : e.isOperator = false) :
    ProductRule (.op .mul e (.op (additive negated) a b))
      (.op (additive negated) (.op .mul e a) (.op .mul e b))
  | mul_product (c k : Value K) (e : Expr K) :
    ProductRule (.op .mul (.constant c) (.op .mul (.constant k) e))
      (.op .mul (.constant (Operator.mul.combine c k)) e)
  | mul_dividend (c k : Value K) (e : Expr K) :
    ProductRule (.op .mul (.constant c) (.op .div e (.constant k)))
      (.op .mul (.constant (Operator.div.combine c k)) e)
  | mul_divisor (c k : Value K) (e : Expr K) :
    ProductRule (.op .mul (.constant c) (.op .div (.constant k) e))
      (.op .div (.constant (Operator.mul.combine c k)) e)

/-- The rules for quotients. -/
inductive QuotientRule : Expr K → Expr K → Prop
  | div_one (e : Expr K) {x : K} (h : (x == 1) = true) : QuotientRule (.op .div e (.number x)) e
  | var_div_self (a : Char) (c d : K) :
    QuotientRule (.op .div (.var a c) (.var a d)) (.number (c / d))
  | var_div_var (a b : Char) (c d : K) :
    QuotientRule (.op .div (.var a c) (.var b d)) (scaled (c / d) (.op .div (.var a 1) (.var b 1)))
  | var_div_number (a : Char) (c k : K) :
    QuotientRule (.op .div (.var a c) (.number k)) (.var a (c / k))
  | sum_div (negated : Bool) (a b : Expr K) {e : Expr K} (h : e.isOperator = false) :
    QuotientRule (.op .div (.op (additive negated) a b) e)
      (.op (additive negated) (.op .div a e) (.op .div b e))
  | product_div (c k : Value K) (e : Expr K) :
    QuotientRule (.op .div (.op .mul (.constant c) e) (.constant k))
      (.op .mul (.constant (Operator.div.combine c k)) e)
  | dividend_div (c k : Value K) (e : Expr K) :
    QuotientRule (.op .div (.op .div e (.constant c)) (.constant k))
      (.op .div e (.constant (Operator.mul.combine c k)))
  | divisor_div (c k : Value K) (e : Expr K) :
    QuotientRule (.op .div (.op .div (.constant c) e) (.constant k))
      (.op .div (.constant (Operator.div.combine c k)) e)

/-- The rules for powers. -/
inductive PowerRule : Expr K → Expr K → Prop
  | pow_zero (e : Expr K) {x : K} (h : (x == 0) = true) :
    PowerRule (.op .pow e (.number x)) (.number 1)
  | pow_one (e : Expr K) {x : K} (h : (x == 1) = true) : PowerRule (.op .pow e (.number x)) e
  | var_pow (a : Char) (c : K) (w : Value K) :
    PowerRule (.op .pow (.var a c) (.constant w))
      (.op .mul (.constant (Operator.pow.combine (.scalar c) w))
        (.op .pow (.var a 1) (.constant w)))
  | product_pow (a b e : Expr K) :
    PowerRule (.op .pow (.op .mul a b) e) (.op .mul (.op .pow a e) (.op .pow b e))
  | quotient_pow (a b e : Expr K) :
    PowerRule (.op .pow (.op .div a b) e) (.op .div (.op .pow a e) (.op .pow b e))
  | pow_pow (a b e : Expr K) : PowerRule (.op .pow (.op .pow a b) e) (.op .pow a (.op .mul b e))

/-- One application of a rule at the root. -/
inductive Rule : Expr K → Expr K → Prop
  | fold (o : Operator) (v w : Value K) :
    Rule (.op o (.constant v) (.constant w)) (.constant (o.combine v w))
  | sum {e e' : Expr K} (h : SumRule e e') : Rule e e'
  | product {e e' : Expr K} (h : ProductRule e e') : Rule e e'
  | quotient {e e' : Expr K} (h : QuotientRule e e') : Rule e e'
  | power {e e' : Expr K} (h : PowerRule e e') : Rule e e'

/-- One application of a rule at the root that is none for powers. -/
inductive FieldRule : Expr K → Expr K → Prop
  | fold (o : Operator) (v w : Value K) :
    FieldRule (.op o (.constant v) (.constant w)) (.constant (o.combine v w))
  | sum {e e' : Expr K} (h : SumRule e e') : FieldRule e e'
  | product {e e' : Expr K} (h : ProductRule e e') : FieldRule e e'
  | quotient {e e' : Expr K} (h : QuotientRule e e') : FieldRule e e'

abbrev Rewrites : Expr K → Expr K → Prop := Closure Rule

/-- Rewriting with the rules that are none for powers. -/
abbrev Recasts : Expr K → Expr K → Prop := Closure FieldRule

theorem FieldRule.rule {e e' : Expr K} (h : FieldRule e e') : Rule e e' := by
  cases h with
  | fold o v w => exact .fold o v w
  | sum h => exact .sum h
  | product h => exact .product h
  | quotient h => exact .quotient h

theorem Recasts.rewrites {e e' : Expr K} (h : Recasts e e') : Rewrites e e' :=
  h.mono fun _ _ h => h.rule

/-- The sum or difference a split stands for. -/
def Split.toExpr (t : Split K) : Expr K :=
  if t.restNegated then .op .sub (.constant t.constant) t.rest
  else .op .add t.rest (.constant t.constant)

theorem recasts_of_split? {e : Expr K} {t : Split K} (h : split? e = some t) :
    Recasts e t.toExpr := by
  unfold split? at h
  split at h
  · obtain rfl := Option.some.inj h
    exact .refl _
  · obtain rfl := Option.some.inj h
    exact .rule (.sum (.sub_constant _ _))
  · obtain rfl := Option.some.inj h
    exact .rule (.sum (.add_comm _ _))
  · obtain rfl := Option.some.inj h
    exact .refl _
  · simp at h

theorem recasts_sumAtOnce? {negated : Bool} {l r e : Expr K}
    (h : sumAtOnce? negated l r = some e) : Recasts (.op (additive negated) l r) e := by
  unfold sumAtOnce? at h
  split at h
  · obtain rfl := Option.some.inj h
    exact .rule (.fold _ _ _)
  · split at h
    · next hab =>
      subst hab
      obtain rfl := Option.some.inj h
      exact .rule (.sum (.collect _ _ _ _))
    · obtain rfl := Option.some.inj h
      exact .refl _
  · split at h
    · next hr =>
      obtain ⟨x, rfl, hx⟩ := Expr.isNumber_iff.1 hr
      obtain rfl := Option.some.inj h
      exact .rule (.sum (.add_zero _ _ hx))
    · split at h
      · next hl =>
        obtain ⟨hl, hn⟩ := Bool.and_eq_true_iff.1 hl
        obtain ⟨x, rfl, hx⟩ := Expr.isNumber_iff.1 hl
        obtain rfl := Option.some.inj h
        cases negated with
        | false => exact .rule (.sum (.zero_add _ hx))
        | true => simp at hn
      · next hl =>
        split at h
        · split at h
          · next hv =>
            obtain ⟨x, he, hx⟩ := Expr.isNumber_iff.1 hv
            obtain rfl := Expr.constant.inj he
            obtain rfl := Option.some.inj h
            cases negated with
            | false => simp [Expr.isNumber, hx] at hl
            | true => exact .rule (.sum (.zero_sub _ _ hx))
          · obtain rfl := Option.some.inj h
            exact .refl _
        · obtain rfl := Option.some.inj h
          exact .refl _
        · obtain rfl := Option.some.inj h
          exact .refl _
        · simp at h

theorem recasts_split_constant (negated : Bool) (t : Split K) (k : Value K) :
    Recasts (.op (additive negated) t.toExpr (.constant k))
      { t with constant := t.constant.combine (· + ·) (k.withSign negated) }.toExpr := by
  obtain ⟨c, rest, restNegated⟩ := t
  cases restNegated with
  | false => exact .rule (.sum (.sum_constant _ _ _ _))
  | true => exact .rule (.sum (.difference_constant _ _ _ _))

theorem recasts_constant_split (negated : Bool) (k : Value K) (t : Split K) :
    Recasts (.op (additive negated) (.constant k) t.toExpr)
      { t with
        constant := k.combine (· + ·) (t.constant.withSign negated)
        restNegated := t.restNegated ^^ negated }.toExpr := by
  obtain ⟨c, rest, restNegated⟩ := t
  cases restNegated with
  | false =>
    cases negated with
    | false => exact .rule (.sum (.constant_add_sum _ _ _))
    | true => exact .rule (.sum (.constant_sub_sum _ _ _))
  | true =>
    cases negated with
    | false => exact .rule (.sum (.constant_add_difference _ _ _))
    | true => exact .rule (.sum (.constant_sub_difference _ _ _))

theorem recasts_regrouped? {negated : Bool} {l r : Expr K} {t : Split K}
    (h : regrouped? negated l r = some t) : Recasts (.op (additive negated) l r) t.toExpr := by
  unfold regrouped? at h
  split at h
  · obtain ⟨t, ht, rfl⟩ := Option.map_eq_some_iff.1 h
    exact (Closure.operands _ (recasts_of_split? ht) (.refl _)).trans
      (recasts_split_constant negated t _)
  · obtain ⟨t, ht, rfl⟩ := Option.map_eq_some_iff.1 h
    exact (Closure.operands _ (.refl _) (recasts_of_split? ht)).trans
      (recasts_constant_split negated _ t)
  · simp at h

theorem recasts_sum (negated : Bool) (l r : Expr K) :
    Recasts (.op (additive negated) l r) (sum negated l r) := by
  fun_induction sum negated l r with
  | case1 negated l r e h => exact recasts_sumAtOnce? h
  | case2 negated l r _ t h hn ih =>
    have hh := recasts_regrouped? h
    rw [Split.toExpr, if_pos hn] at hh
    exact hh.trans ih
  | case3 negated l r _ t h hn ih =>
    have hh := recasts_regrouped? h
    rw [Split.toExpr, if_neg hn] at hh
    exact hh.trans ih
  | case4 negated l r => exact .refl _

/-- The product or quotient with its constant in front of a product. -/
def Factored.toExpr : Factored K → Expr K
  | .times k rest => .op .mul (.constant k) rest
  | .dividend rest k => .op .div rest (.constant k)
  | .divisor k rest => .op .div (.constant k) rest

theorem recasts_of_factored? {e : Expr K} {f : Factored K} (h : factored? e = some f) :
    Recasts e f.toExpr := by
  unfold factored? at h
  split at h
  · obtain rfl := Option.some.inj h
    exact .refl _
  · obtain rfl := Option.some.inj h
    exact .rule (.product (.mul_comm _ _))
  · obtain rfl := Option.some.inj h
    exact .refl _
  · obtain rfl := Option.some.inj h
    exact .refl _
  · simp at h

theorem recasts_pairing? {l r : Expr K} {c : Value K} {f : Factored K}
    (h : pairing? l r = some (c, f)) :
    Recasts (.op .mul l r) (.op .mul (.constant c) f.toExpr) := by
  unfold pairing? at h
  split at h
  · obtain ⟨g, hg, heq⟩ := Option.map_eq_some_iff.1 h
    obtain ⟨rfl, rfl⟩ := Prod.mk.inj heq
    exact .operands _ (.refl _) (recasts_of_factored? hg)
  · obtain ⟨g, hg, heq⟩ := Option.map_eq_some_iff.1 h
    obtain ⟨rfl, rfl⟩ := Prod.mk.inj heq
    exact (Closure.rule (.product (.mul_comm _ _))).trans
      (.operands _ (.refl _) (recasts_of_factored? hg))
  · simp at h

theorem recasts_dividing? {l r : Expr K} {k : Value K} {f : Factored K}
    (h : dividing? l r = some (k, f)) :
    Recasts (.op .div l r) (.op .div f.toExpr (.constant k)) := by
  unfold dividing? at h
  split at h
  · obtain ⟨g, hg, heq⟩ := Option.map_eq_some_iff.1 h
    obtain ⟨rfl, rfl⟩ := Prod.mk.inj heq
    exact .operands _ (recasts_of_factored? hg) (.refl _)
  · simp at h

theorem recasts_productAtOnce? {l r e : Expr K} (h : productAtOnce? l r = some e) :
    Recasts (.op .mul l r) e := by
  unfold productAtOnce? at h
  split at h
  · obtain rfl := Option.some.inj h
    exact .rule (.fold _ _ _)
  · split at h
    · next hab =>
      subst hab
      obtain rfl := Option.some.inj h
      exact .rule (.product (.var_mul_self _ _ _))
    · obtain rfl := Option.some.inj h
      exact .rule (.product (.var_mul_var _ _ _ _))
  · split at h
    · next hl =>
      obtain ⟨x, rfl, hx⟩ := Expr.isNumber_iff.1 hl
      obtain rfl := Option.some.inj h
      exact .rule (.product (.one_mul _ hx))
    · split at h
      · next hr =>
        obtain ⟨x, rfl, hx⟩ := Expr.isNumber_iff.1 hr
        obtain rfl := Option.some.inj h
        exact (Closure.rule (.product (.mul_comm _ _))).trans (.rule (.product (.one_mul _ hx)))
      · split at h
        · next h0 =>
          obtain rfl := Option.some.inj h
          rcases Bool.or_eq_true_iff.1 h0 with hl | hr
          · obtain ⟨x, rfl, hx⟩ := Expr.isNumber_iff.1 hl
            exact .rule (.product (.zero_mul _ hx))
          · obtain ⟨x, rfl, hx⟩ := Expr.isNumber_iff.1 hr
            exact (Closure.rule (.product (.mul_comm _ _))).trans
              (.rule (.product (.zero_mul _ hx)))
        · split at h
          · obtain rfl := Option.some.inj h
            exact (Closure.rule (.product (.mul_comm _ _))).trans
              (.rule (.product (.number_mul_var _ _ _)))
          · obtain rfl := Option.some.inj h
            exact .rule (.product (.number_mul_var _ _ _))
          · simp at h

theorem recasts_quotientAtOnce? {l r e : Expr K} (h : quotientAtOnce? l r = some e) :
    Recasts (.op .div l r) e := by
  unfold quotientAtOnce? at h
  split at h
  · obtain rfl := Option.some.inj h
    exact .rule (.fold _ _ _)
  · split at h
    · next hab =>
      subst hab
      obtain rfl := Option.some.inj h
      exact .rule (.quotient (.var_div_self _ _ _))
    · obtain rfl := Option.some.inj h
      exact .rule (.quotient (.var_div_var _ _ _ _))
  · split at h
    · next hr =>
      obtain ⟨x, rfl, hx⟩ := Expr.isNumber_iff.1 hr
      obtain rfl := Option.some.inj h
      exact .rule (.quotient (.div_one _ hx))
    · split at h
      · obtain rfl := Option.some.inj h
        exact .rule (.quotient (.var_div_number _ _ _))
      · simp at h

omit [Arithmetic K] in
theorem eq_of_distributable? {e other a b : Expr K} {negated : Bool}
    (h : distributable? e other = some (negated, a, b)) :
    e = .op (additive negated) a b ∧ other.isOperator = false := by
  unfold distributable? at h
  split at h
  · simp at h
  · next hother =>
    refine ⟨?_, Bool.not_eq_true _ ▸ hother⟩
    unfold terms? at h
    split at h
    · obtain ⟨rfl, rfl, rfl⟩ := by simpa using h
      rfl
    · obtain ⟨rfl, rfl, rfl⟩ := by simpa using h
      rfl
    · simp at h

mutual

theorem recasts_multiply (l r : Expr K) : Recasts (.op .mul l r) (multiply l r) := by
  rw [multiply]
  split
  · next e h => exact recasts_productAtOnce? h
  · split
    · next negated a b h =>
      have hsize := size_of_distributable? h
      obtain ⟨rfl, hr⟩ := eq_of_distributable? h
      exact (Closure.rule (.product (.sum_mul negated a b hr))).trans
        ((Closure.operands _ (recasts_multiply a r) (recasts_multiply b r)).trans
          (recasts_sum negated _ _))
    · split
      · next negated a b h =>
        have hsize := size_of_distributable? h
        obtain ⟨rfl, hl⟩ := eq_of_distributable? h
        exact (Closure.rule (.product (.mul_sum negated a b hl))).trans
          ((Closure.operands _ (recasts_multiply l a) (recasts_multiply l b)).trans
            (recasts_sum negated _ _))
      · split
        · next c k rest h =>
          have hsize := size_of_pairing? h
          exact (recasts_pairing? h).trans
            ((Closure.rule (.product (.mul_product c k rest))).trans (recasts_multiply _ _))
        · next c rest k h =>
          have hsize := size_of_pairing? h
          exact (recasts_pairing? h).trans
            ((Closure.rule (.product (.mul_dividend c k rest))).trans (recasts_multiply _ _))
        · next c k rest h =>
          have hsize := size_of_pairing? h
          exact (recasts_pairing? h).trans
            ((Closure.rule (.product (.mul_divisor c k rest))).trans (recasts_divide _ _))
        · exact .refl _
termination_by l.size + r.size
decreasing_by all_goals simp only [Expr.size, Factored.rest] at *; omega

theorem recasts_divide (l r : Expr K) : Recasts (.op .div l r) (divide l r) := by
  rw [divide]
  split
  · next e h => exact recasts_quotientAtOnce? h
  · split
    · next negated a b h =>
      have hsize := size_of_distributable? h
      obtain ⟨rfl, hr⟩ := eq_of_distributable? h
      exact (Closure.rule (.quotient (.sum_div negated a b hr))).trans
        ((Closure.operands _ (recasts_divide a r) (recasts_divide b r)).trans
          (recasts_sum negated _ _))
    · split
      · next k c rest h =>
        have hsize := size_of_dividing? h
        exact (recasts_dividing? h).trans
          ((Closure.rule (.quotient (.product_div c k rest))).trans (recasts_multiply _ _))
      · next k rest c h =>
        have hsize := size_of_dividing? h
        exact (recasts_dividing? h).trans
          ((Closure.rule (.quotient (.dividend_div c k rest))).trans (recasts_divide _ _))
      · next k c rest h =>
        have hsize := size_of_dividing? h
        exact (recasts_dividing? h).trans
          ((Closure.rule (.quotient (.divisor_div c k rest))).trans (recasts_divide _ _))
      · exact .refl _
termination_by l.size + r.size
decreasing_by all_goals simp only [Expr.size, Factored.rest] at *; omega

end

theorem rewrites_sum (negated : Bool) (l r : Expr K) :
    Rewrites (.op (additive negated) l r) (sum negated l r) := (recasts_sum negated l r).rewrites

theorem rewrites_multiply (l r : Expr K) : Rewrites (.op .mul l r) (multiply l r) :=
  (recasts_multiply l r).rewrites

theorem rewrites_divide (l r : Expr K) : Rewrites (.op .div l r) (divide l r) :=
  (recasts_divide l r).rewrites

theorem rewrites_powerOfConstant (v : Value K) (e : Expr K) :
    Rewrites (.op .pow (.constant v) e) (powerOfConstant v e) := by
  cases e with
  | constant w => exact .rule (.fold _ _ _)
  | var name c => exact .refl _
  | op o l r => exact .refl _

theorem rewrites_powerOfVariable (name : Char) (c : K) (e : Expr K) :
    Rewrites (.op .pow (.var name c) e) (powerOfVariable name c e) := by
  unfold powerOfVariable
  split
  · exact .refl _
  · cases e with
    | constant w => exact (Closure.rule (.power (.var_pow name c w))).trans (rewrites_multiply _ _)
    | var name c => exact .refl _
    | op o l r => exact .refl _

theorem rewrites_exponent {base e e' : Expr K} (h : Rewrites (.op .pow base e) e') :
    Rewrites (.op .pow base e)
      (if e.isNumber 0 then .number 1 else if e.isNumber 1 then base else e') := by
  split
  · next h0 =>
    obtain ⟨x, rfl, hx⟩ := Expr.isNumber_iff.1 h0
    exact .rule (.power (.pow_zero _ hx))
  · split
    · next h1 =>
      obtain ⟨x, rfl, hx⟩ := Expr.isNumber_iff.1 h1
      exact .rule (.power (.pow_one _ hx))
    · exact h

theorem rewrites_power (base e : Expr K) : Rewrites (.op .pow base e) (power base e) := by
  induction base generalizing e with
  | constant v =>
    unfold power
    exact rewrites_exponent (rewrites_powerOfConstant v e)
  | var name c =>
    unfold power
    exact rewrites_exponent (rewrites_powerOfVariable name c e)
  | op o a b iha ihb =>
    unfold power
    apply rewrites_exponent
    cases o with
    | add => exact .refl _
    | sub => exact .refl _
    | mul =>
      exact (Closure.rule (.power (.product_pow a b e))).trans
        ((Closure.operands _ (iha e) (ihb e)).trans (rewrites_multiply _ _))
    | div =>
      exact (Closure.rule (.power (.quotient_pow a b e))).trans
        ((Closure.operands _ (iha e) (ihb e)).trans (rewrites_divide _ _))
    | pow =>
      exact (Closure.rule (.power (.pow_pow a b e))).trans
        ((Closure.operands _ (.refl a) (rewrites_multiply b e)).trans (iha _))

theorem rewrites_operation (o : Operator) (l r : Expr K) :
    Rewrites (.op o l r) (operation o l r) := by
  cases o with
  | add => exact rewrites_sum false l r
  | sub => exact rewrites_sum true l r
  | mul => exact rewrites_multiply l r
  | div => exact rewrites_divide l r
  | pow => exact rewrites_power l r

end Simplification

namespace Scope

open Simplification

/-- The expression with every bound variable replaced by its value. -/
def substitute (s : Scope K) : Expr K → Expr K
  | .constant v => .constant v
  | .var name c =>
    match s.get? name with
    | some v => .constant (v.map (· * c))
    | none => .var name c
  | .op o l r => .op o (s.substitute l) (s.substitute r)

/-- Simplification rewrites the substituted expression. -/
theorem rewrites_simplify (s : Scope K) (e : Expr K) :
    Rewrites (s.substitute e) (s.simplify e) := by
  induction e with
  | constant v => exact .refl _
  | var name c => exact .refl _
  | op o l r ihl ihr => exact (Closure.operands o ihl ihr).trans (rewrites_operation o _ _)

end Scope
end ComplexAlgebra
