import ComplexAlgebra.Scope

/-! Simplification: bound variables are replaced by their values, and the rules for sums, products
and powers are applied from the leaves to the root. -/
namespace ComplexAlgebra

def Value.withSign {K : Type} [Arithmetic K] (negated : Bool) (v : Value K) : Value K :=
  if negated then v.map (- ·) else v

namespace Simplification

/-! Rules for sums and differences. Two constants fold, zeros vanish, multiples of one variable
collect, and a constant joins the constant of a sum it is added to or subtracted from. -/

section Sums

variable {K : Type} [Arithmetic K]

def additive (negated : Bool) : Operator := if negated then .sub else .add

/-- A variable under a computed coefficient. The coefficient zero leaves the number zero. -/
def collected (name : Char) (coefficient : K) : Expr K :=
  if coefficient == 0 then .number 0 else .var name coefficient

/-- The sum of a constant and the rest of an expression, or their difference. -/
structure Split (K : Type) where
  constant : Value K
  rest : Expr K
  restNegated : Bool

/-- Takes the constant out of a sum or difference. The rest is negated only where it was
subtracted. -/
def split? : Expr K → Option (Split K)
  | .op .add rest (.constant c) => some ⟨c, rest, false⟩
  | .op .sub rest (.constant c) => some ⟨c.map (- ·), rest, false⟩
  | .op .add (.constant c) rest => some ⟨c, rest, false⟩
  | .op .sub (.constant c) rest => some ⟨c, rest, true⟩
  | _ => none

theorem size_of_split? {e : Expr K} {s : Split K} (h : split? e = some s) :
    s.rest.size + 2 = e.size := by
  unfold split? at h
  split at h <;> simp at h <;> subst h <;> simp [Expr.size] <;> omega

/-- The rules that apply without looking into a sum or difference. -/
def sumAtOnce? (negated : Bool) (left right : Expr K) : Option (Expr K) :=
  match left, right with
  | .constant v, .constant w => some (.constant ((additive negated).combine v w))
  | .var a c, .var b d =>
    if a = b then some (collected a (if negated then c - d else c + d))
    else some (.op (additive negated) (.var a c) (.var b d))
  | left, right =>
    if right.isNumber 0 then some left
    else if left.isNumber 0 && !negated then some right
    else
      match left, right with
      | .constant v, .var b d =>
        if (Expr.constant v).isNumber 0 then some (collected b (-d))
        else some (.op (additive negated) (.constant v) (.var b d))
      | .var a c, right => some (.op (additive negated) (.var a c) right)
      | left, .var b d => some (.op (additive negated) left (.var b d))
      | _, _ => none

/-- `(A ± c) ± k` and `k ± (A ± c)` with the two constants joined. -/
def regrouped? (negated : Bool) (left right : Expr K) : Option (Split K) :=
  match left, right with
  | left, .constant k =>
    (split? left).map fun s =>
      { s with constant := s.constant.combine (· + ·) (k.withSign negated) }
  | .constant k, right =>
    (split? right).map fun s =>
      { s with
        constant := k.combine (· + ·) (s.constant.withSign negated)
        restNegated := s.restNegated ^^ negated }
  | _, _ => none

theorem size_of_regrouped? {negated : Bool} {left right : Expr K} {s : Split K}
    (h : regrouped? negated left right = some s) : s.rest.size + 1 < left.size + right.size := by
  unfold regrouped? at h
  split at h
  · obtain ⟨t, ht, rfl⟩ := Option.map_eq_some_iff.1 h
    have := size_of_split? ht
    simp [Expr.size]; omega
  · obtain ⟨t, ht, rfl⟩ := Option.map_eq_some_iff.1 h
    have := size_of_split? ht
    simp [Expr.size]; omega
  · simp at h

/-- Simplifies `left + right`, or `left - right` if `negated`. -/
def sum (negated : Bool) (left right : Expr K) : Expr K :=
  match sumAtOnce? negated left right with
  | some e => e
  | none =>
    match _h : regrouped? negated left right with
    | some s =>
      if s.restNegated then sum true (.constant s.constant) s.rest
      else sum false s.rest (.constant s.constant)
    | none => .op (additive negated) left right
termination_by left.size + right.size
decreasing_by
  all_goals
    have := size_of_regrouped? _h
    simp only [Expr.size]
    omega

end Sums

/-! Rules for products and quotients. Two constants fold, the numbers zero and one vanish,
coefficients of variables multiply out, a sum distributes over a factor or divisor that is no
operation itself, and a constant joins the constant of a product or quotient. -/

section Products

variable {K : Type}

/-- A sum or difference, with its operands. -/
def terms? : Expr K → Option (Bool × Expr K × Expr K)
  | .op .add a b => some (false, a, b)
  | .op .sub a b => some (true, a, b)
  | _ => none

theorem size_of_terms? {e a b : Expr K} {negated : Bool} (h : terms? e = some (negated, a, b)) :
    a.size + b.size + 1 = e.size := by
  unfold terms? at h
  split at h <;> simp at h <;> obtain ⟨-, rfl, rfl⟩ := h <;> rfl

/-- A product or quotient with one constant operand. -/
inductive Factored (K : Type) where
  /-- `k * rest` or `rest * k` -/
  | times (k : Value K) (rest : Expr K)
  /-- `rest / k` -/
  | dividend (rest : Expr K) (k : Value K)
  /-- `k / rest` -/
  | divisor (k : Value K) (rest : Expr K)

def Factored.rest : Factored K → Expr K
  | times _ rest => rest
  | dividend rest _ => rest
  | divisor _ rest => rest

def factored? : Expr K → Option (Factored K)
  | .op .mul (.constant k) rest => some (.times k rest)
  | .op .mul rest (.constant k) => some (.times k rest)
  | .op .div rest (.constant k) => some (.dividend rest k)
  | .op .div (.constant k) rest => some (.divisor k rest)
  | _ => none

theorem size_of_factored? {e : Expr K} {f : Factored K} (h : factored? e = some f) :
    f.rest.size + 2 = e.size := by
  unfold factored? at h
  split at h <;> simp at h <;> subst h <;> simp [Factored.rest, Expr.size] <;> omega

/-- A constant on one side and a product or quotient with a constant on the other. -/
def pairing? (left right : Expr K) : Option (Value K × Factored K) :=
  match left, right with
  | .constant c, right => (factored? right).map (c, ·)
  | left, .constant c => (factored? left).map (c, ·)
  | _, _ => none

theorem size_of_pairing? {left right : Expr K} {c : Value K} {f : Factored K}
    (h : pairing? left right = some (c, f)) : f.rest.size + 3 = left.size + right.size := by
  unfold pairing? at h
  split at h
  · obtain ⟨g, hg, heq⟩ := Option.map_eq_some_iff.1 h
    obtain ⟨rfl, rfl⟩ := Prod.mk.inj heq
    have := size_of_factored? hg
    simp [Expr.size]; omega
  · obtain ⟨g, hg, heq⟩ := Option.map_eq_some_iff.1 h
    obtain ⟨rfl, rfl⟩ := Prod.mk.inj heq
    have := size_of_factored? hg
    simp [Expr.size]; omega
  · simp at h

/-- A constant divisor of a product or quotient with a constant. -/
def dividing? (left right : Expr K) : Option (Value K × Factored K) :=
  match right with
  | .constant k => (factored? left).map (k, ·)
  | _ => none

theorem size_of_dividing? {left right : Expr K} {k : Value K} {f : Factored K}
    (h : dividing? left right = some (k, f)) : f.rest.size + 3 = left.size + right.size := by
  unfold dividing? at h
  split at h
  · obtain ⟨g, hg, heq⟩ := Option.map_eq_some_iff.1 h
    obtain ⟨rfl, rfl⟩ := Prod.mk.inj heq
    have := size_of_factored? hg
    simp [Expr.size]; omega
  · simp at h

/-- The operands of a sum, if the other operand of a product or quotient is no operation. -/
def distributable? (sum other : Expr K) : Option (Bool × Expr K × Expr K) :=
  if other.isOperator then none else terms? sum

theorem size_of_distributable? {e other a b : Expr K} {negated : Bool}
    (h : distributable? e other = some (negated, a, b)) : a.size + b.size + 1 = e.size := by
  unfold distributable? at h
  split at h
  · simp at h
  · exact size_of_terms? h

variable [Arithmetic K]

/-- A product with a number. The factor one is left out. -/
def scaled (factor : K) (e : Expr K) : Expr K :=
  if factor == 1 then e else .op .mul (.number factor) e

/-- The rules for products that need no further simplification. -/
def productAtOnce? (left right : Expr K) : Option (Expr K) :=
  match left, right with
  | .constant v, .constant w => some (.constant (Operator.mul.combine v w))
  | .var a c, .var b d =>
    if a = b then some (scaled (c * d) (.op .pow (.var a 1) (.number Arithmetic.two)))
    else some (scaled (c * d) (.op .mul (.var a 1) (.var b 1)))
  | left, right =>
    if left.isNumber 1 then some right
    else if right.isNumber 1 then some left
    else if left.isNumber 0 || right.isNumber 0 then some (.number 0)
    else
      match left, right with
      | .var a c, .number k => some (.var a (c * k))
      | .number k, .var a c => some (.var a (c * k))
      | _, _ => none

/-- The rules for quotients that need no further simplification. -/
def quotientAtOnce? (left right : Expr K) : Option (Expr K) :=
  match left, right with
  | .constant v, .constant w => some (.constant (Operator.div.combine v w))
  | .var a c, .var b d =>
    if a = b then some (.number (c / d))
    else some (scaled (c / d) (.op .div (.var a 1) (.var b 1)))
  | left, right =>
    if right.isNumber 1 then some left
    else
      match left, right with
      | .var a c, .number k => some (.var a (c / k))
      | _, _ => none

mutual

def multiply (left right : Expr K) : Expr K :=
  match productAtOnce? left right with
  | some e => e
  | none =>
    match _hl : distributable? left right with
    | some (negated, a, b) => sum negated (multiply a right) (multiply b right)
    | none =>
      match _hr : distributable? right left with
      | some (negated, a, b) => sum negated (multiply left a) (multiply left b)
      | none =>
        match _hp : pairing? left right with
        | some (c, .times k rest) => multiply (.constant (Operator.mul.combine c k)) rest
        | some (c, .dividend rest k) => multiply (.constant (Operator.div.combine c k)) rest
        | some (c, .divisor k rest) => divide (.constant (Operator.mul.combine c k)) rest
        | none => .op .mul left right
termination_by left.size + right.size
decreasing_by
  · have := size_of_distributable? _hl; omega
  · have := size_of_distributable? _hl; omega
  · have := size_of_distributable? _hr; omega
  · have := size_of_distributable? _hr; omega
  all_goals
    have := size_of_pairing? _hp
    simp only [Factored.rest] at this
    simp only [Expr.size]
    omega

def divide (left right : Expr K) : Expr K :=
  match quotientAtOnce? left right with
  | some e => e
  | none =>
    match _hl : distributable? left right with
    | some (negated, a, b) => sum negated (divide a right) (divide b right)
    | none =>
      match _hd : dividing? left right with
      | some (k, .times c rest) => multiply (.constant (Operator.div.combine c k)) rest
      | some (k, .dividend rest c) => divide rest (.constant (Operator.mul.combine c k))
      | some (k, .divisor c rest) => divide (.constant (Operator.div.combine c k)) rest
      | none => .op .div left right
termination_by left.size + right.size
decreasing_by
  · have := size_of_distributable? _hl; omega
  · have := size_of_distributable? _hl; omega
  all_goals
    have := size_of_dividing? _hd
    simp only [Factored.rest] at this
    simp only [Expr.size]
    omega

end

end Products

/-! Rules for powers. The exponents zero and one vanish, two constants fold, an exponent moves onto
the operands of a product, quotient or power, and a constant exponent onto the coefficient of a
variable. -/

variable {K : Type} [Arithmetic K]

def powerOfConstant (v : Value K) : Expr K → Expr K
  | .constant w => .constant (Operator.pow.combine v w)
  | exponent => .op .pow (.constant v) exponent

/-- A constant exponent raises the coefficient apart from the variable. -/
def powerOfVariable (name : Char) (c : K) (exponent : Expr K) : Expr K :=
  if c == 1 then .op .pow (.var name c) exponent
  else
    match exponent with
    | .constant w =>
      multiply (.constant (Operator.pow.combine (.scalar c) w))
        (.op .pow (.var name 1) (.constant w))
    | exponent => .op .pow (.var name c) exponent

def power (base exponent : Expr K) : Expr K :=
  if exponent.isNumber 0 then .number 1
  else if exponent.isNumber 1 then base
  else
    match base with
    | .constant v => powerOfConstant v exponent
    | .var name c => powerOfVariable name c exponent
    | .op .mul left right => multiply (power left exponent) (power right exponent)
    | .op .div left right => divide (power left exponent) (power right exponent)
    | .op .pow left right => power left (multiply right exponent)
    | base => .op .pow base exponent

def operation : Operator → Expr K → Expr K → Expr K
  | .add => sum false
  | .sub => sum true
  | .mul => multiply
  | .div => divide
  | .pow => power

end Simplification

namespace Scope

def simplify {K : Type} [Arithmetic K] (s : Scope K) : Expr K → Expr K
  | .constant v => .constant v
  | .var name coefficient =>
    match s.get? name with
    | some v => .constant (v.map (· * coefficient))
    | none => .var name coefficient
  | .op o left right => Simplification.operation o (s.simplify left) (s.simplify right)

end Scope
end ComplexAlgebra
