import ComplexAlgebra.Proofs.Assignment
import ComplexAlgebra.Proofs.Choices

/-! Simplification of expressions without free variables. No rule but the folding of constants
applies to them, except that the exponents zero and one are taken away before constants fold, so
the result is the value under an evaluation with these two shortcuts. -/
namespace ComplexAlgebra

variable {K : Type} [Arithmetic K]

/-- The operator on two values with two shortcuts: the exponent zero makes any base the number one,
and the exponent one leaves it as it is. -/
def Operator.shortened : Operator → Value K → Value K → Value K
  | .pow, v, .scalar y =>
    if y == 0 then .scalar 1 else if y == 1 then v else Operator.pow.combine v (.scalar y)
  | o, v, w => o.combine v w

theorem Operator.shortened_of_ne_pow {o : Operator} (ho : o ≠ .pow) (v w : Value K) :
    o.shortened v w = o.combine v w := by
  cases o with
  | pow => exact absurd rfl ho
  | _ => rfl

theorem Operator.shortened_pow (v : Value K) {w : Value K}
    (h : ∀ y, w = .scalar y → (y == 0) = false ∧ (y == 1) = false) :
    Operator.pow.shortened v w = Operator.pow.combine v w := by
  cases w with
  | list ys => rfl
  | scalar y =>
    obtain ⟨h0, h1⟩ := h y rfl
    simp [shortened, h0, h1]

def Expr.exponents : Expr K → List (Expr K)
  | .constant _ => []
  | .var _ _ => []
  | .op .pow l r => r :: (l.exponents ++ r.exponents)
  | .op _ l r => l.exponents ++ r.exponents

omit [Arithmetic K] in
theorem Expr.mem_exponents {o : Operator} {l r x : Expr K}
    (h : x ∈ l.exponents ∨ x ∈ r.exponents) : x ∈ (Expr.op o l r).exponents := by
  cases o with
  | pow => exact List.mem_cons_of_mem _ (List.mem_append.2 h)
  | _ => exact List.mem_append.2 h

theorem Simplification.operation_shortened (o : Operator) (v w : Value K) :
    operation o (.constant v) (.constant w) = .constant (o.shortened v w) := by
  by_cases ho : o = .pow
  · subst ho
    refine (power_constant v w).trans ?_
    cases w with
    | list ys => rfl
    | scalar y =>
      simp only [Expr.isNumber, Operator.shortened, apply_ite Expr.constant]
      rfl
  · rw [operation_constant ho, Operator.shortened_of_ne_pow ho]

namespace Scope

/-- Evaluation with any rule for the operators on values. -/
def evaluateBy (rule : Operator → Value K → Value K → Value K) (s : Scope K) :
    Expr K → Except (RuntimeError K) (Value K)
  | .constant v => .ok v
  | .var name coefficient =>
    match s.get? name with
    | some v => .ok (v.map (· * coefficient))
    | none => .error (.unboundVariable name)
  | .op o left right =>
    match s.evaluateBy rule left with
    | .error e => .error e
    | .ok v =>
      match s.evaluateBy rule right with
      | .error e => .error e
      | .ok w => .ok (rule o v w)

theorem evaluateBy_combine (s : Scope K) (e : Expr K) :
    s.evaluateBy Operator.combine e = s.evaluate e := by
  induction e with
  | constant v => rfl
  | var name c => rfl
  | op o l r ihl ihr =>
    rw [evaluateBy, ihl, ihr]
    rfl

theorem evaluateBy_op {rule : Operator → Value K → Value K → Value K} {s : Scope K} {o : Operator}
    {l r : Expr K} {v w : Value K} (hl : s.evaluateBy rule l = .ok v)
    (hr : s.evaluateBy rule r = .ok w) : s.evaluateBy rule (.op o l r) = .ok (rule o v w) := by
  simp only [evaluateBy, hl, hr]

/-- Without free variables, simplification is evaluation with the shortcuts. -/
theorem exists_simplify_eq_shortened {s : Scope K} {e : Expr K}
    (h : ∀ name ∈ e.names, ∃ v, s.get? name = some v) :
    ∃ v, s.simplify e = .constant v ∧ s.evaluateBy Operator.shortened e = .ok v := by
  induction e with
  | constant v => exact ⟨v, rfl, rfl⟩
  | var name c =>
    obtain ⟨v, hv⟩ := h name List.mem_cons_self
    exact ⟨v.map (· * c), by simp only [simplify, hv], by simp only [evaluateBy, hv]⟩
  | op o l r ihl ihr =>
    obtain ⟨v, hv, hv'⟩ := ihl fun name hname => h name (List.mem_append_left _ hname)
    obtain ⟨w, hw, hw'⟩ := ihr fun name hname => h name (List.mem_append_right _ hname)
    refine ⟨o.shortened v w, ?_, evaluateBy_op hv' hw'⟩
    rw [simplify, hv, hw, Simplification.operation_shortened]

/-- The shortcuts are taken only at exponents that come to zero or one. -/
theorem evaluate_of_shortened {s : Scope K} {e : Expr K} {v : Value K}
    (h : ∀ x ∈ e.exponents, ∀ y, s.evaluate x = .ok (.scalar y) →
      (y == 0) = false ∧ (y == 1) = false)
    (hv : s.evaluateBy Operator.shortened e = .ok v) : s.evaluate e = .ok v := by
  induction e generalizing v with
  | constant v => exact hv
  | var name c => exact hv
  | op o l r ihl ihr =>
    have hexp {x : Expr K} (hx : x ∈ l.exponents ∨ x ∈ r.exponents) :=
      h x (Expr.mem_exponents hx)
    rw [evaluateBy] at hv
    split at hv
    · cases hv
    · next x hx =>
      split at hv
      · cases hv
      · next y hy =>
        cases hv
        have hl := ihl (fun x hx => hexp (.inl hx)) hx
        have hr := ihr (fun x hx => hexp (.inr hx)) hy
        rw [evaluate, hl, hr]
        by_cases ho : o = .pow
        · subst ho
          rw [Operator.shortened_pow x fun z hz => h r List.mem_cons_self z (by rw [hr, hz])]
        · rw [Operator.shortened_of_ne_pow ho]

/-- An expression whose variables are all bound simplifies to a constant, whatever the arithmetic:
to what an evaluation with the shortcuts for the exponents zero and one computes by the same
operations, and so to its value where no exponent comes to zero or one. -/
theorem simplify_of_bound {s : Scope K} {e : Expr K}
    (h : ∀ name ∈ e.names, ∃ v, s.get? name = some v) :
    ∃ v, s.simplify e = .constant v ∧ s.evaluateBy Operator.shortened e = .ok v ∧
      ((∀ x ∈ e.exponents, ∀ y, s.evaluate x = .ok (.scalar y) →
        (y == 0) = false ∧ (y == 1) = false) → s.evaluate e = .ok v) := by
  obtain ⟨v, hv, hshort⟩ := exists_simplify_eq_shortened h
  exact ⟨v, hv, hshort, fun hexp => evaluate_of_shortened hexp hshort⟩

/-- The exponent two is not taken away, so `x ^ 2` simplifies to its value at `x = [1, 2]`. -/
theorem simplify_of_bound_square :
    ∃ v, ((empty : Scope FloatNumber).bind 'x' (.list [1, Arithmetic.two])).simplify
        (.op .pow (.var 'x' 1) (.number Arithmetic.two)) = .constant v ∧
      ((empty : Scope FloatNumber).bind 'x' (.list [1, Arithmetic.two])).evaluate
        (.op .pow (.var 'x' 1) (.number Arithmetic.two)) = .ok v := by
  have h : ∀ name ∈ (Expr.op .pow (.var 'x' (1 : FloatNumber)) (.number Arithmetic.two)).names,
      ∃ v, ((empty : Scope FloatNumber).bind 'x' (.list [1, Arithmetic.two])).get? name =
        some v := by
    intro name hname
    obtain rfl : name = 'x' := by simpa [Expr.names] using hname
    exact ⟨_, rfl⟩
  obtain ⟨v, hv, -, hvalue⟩ := simplify_of_bound h
  refine ⟨v, hv, hvalue fun x hx y hy => ?_⟩
  obtain rfl : x = .number Arithmetic.two := by simpa [Expr.exponents] using hx
  cases hy
  exact ⟨by decide +kernel, by decide +kernel⟩

end Scope

theorem Value.beq_self (v : Value FloatNumber) : (v == v) = true := by
  have : ReflBEq FloatNumber := ⟨FloatNumber.beq_self _⟩
  cases v with
  | scalar x => exact FloatNumber.beq_self x
  | list xs => exact beq_self_eq_true xs

/-- An expression text without variables has a value, and its simplification has the value of the
evaluation with the shortcuts. The two are equal, not-a-number to itself, if every power whose
exponent comes to zero or one comes to one or to its base. -/
theorem Scope.evaluateText_simplify {source : List Char} {tree : Expr FloatNumber}
    (htree : parse source = .ok tree) (hclosed : tree.containsVariable = false) :
    ∃ v v', empty.evaluateText source = .ok v ∧
      empty.evaluate (empty.simplify tree) = .ok v' ∧
      empty.evaluateBy Operator.shortened tree = .ok v' ∧
      (empty.ShortcutsAgree tree → (v' == v) = true) := by
  have hbound : ∀ name ∈ tree.names, ∃ v, (empty : Scope FloatNumber).get? name = some v := by
    intro name hname
    have hvar := tree.containsVariable_iff.2 (List.ne_nil_of_mem hname)
    exact absurd (hclosed.symm.trans hvar) (by decide)
  obtain ⟨v, hv, -⟩ := exists_evaluate hbound
  obtain ⟨v', hv', hshort⟩ := exists_simplify_eq_shortened hbound
  obtain ⟨w, hw, hagree⟩ := simplify_of_evaluate hv
  obtain rfl := Expr.constant.inj (hv'.symm.trans hw)
  refine ⟨v, v', evaluateText_of_parse htree hv, by rw [hv']; rfl, hshort, fun hs => ?_⟩
  rw [hagree hs]
  exact v.beq_self

theorem parse_zero_pow {K : Type} [Arithmetic K] :
    parse "2*0^1".toList = .ok (.op .mul (.number (Arithmetic.ofDecimal (K := K) ⟨2, 0⟩))
      (.op .pow (.number (Arithmetic.ofDecimal ⟨0, 0⟩))
        (.number (Arithmetic.ofDecimal ⟨1, 0⟩)))) := by
  cbv

theorem FloatNumber.zero_pow_one :
    Arithmetic.power (Arithmetic.ofDecimal ⟨0, 0⟩ : FloatNumber) (Arithmetic.ofDecimal ⟨1, 0⟩) =
      Arithmetic.ofDecimal ⟨0, 0⟩ := by
  have hre : (Arithmetic.power (Arithmetic.ofDecimal ⟨0, 0⟩ : FloatNumber)
      (Arithmetic.ofDecimal ⟨1, 0⟩)).re = (Arithmetic.ofDecimal ⟨0, 0⟩ : FloatNumber).re := by
    decide +kernel
  have him : (Arithmetic.power (Arithmetic.ofDecimal ⟨0, 0⟩ : FloatNumber)
      (Arithmetic.ofDecimal ⟨1, 0⟩)).im = (Arithmetic.ofDecimal ⟨0, 0⟩ : FloatNumber).im := by
    decide +kernel
  exact congr (congrArg Number.mk hre) him

/-- The power of zero with the exponent one is zero, so the shortcut keeps the value. -/
theorem Scope.evaluateText_simplify_zero :
    ∃ (tree : Expr FloatNumber) (v v' : Value FloatNumber), parse "2*0^1".toList = .ok tree ∧
      empty.evaluateText "2*0^1".toList = .ok v ∧
      empty.evaluate (empty.simplify tree) = .ok v' ∧ (v' == v) = true := by
  obtain ⟨v, v', hv, hv', -, hagree⟩ := evaluateText_simplify parse_zero_pow rfl
  refine ⟨_, v, v', parse_zero_pow, hv, hv', hagree ⟨trivial, ⟨trivial, trivial, ?_⟩, nofun⟩⟩
  rintro - x y hx hy
  cases hx
  cases hy
  refine ⟨fun h0 => absurd h0 (by decide +kernel), fun _ => ?_⟩
  exact congrArg Value.scalar FloatNumber.zero_pow_one

theorem Scope.simplify_pow_zero {s : Scope K} (e : Expr K) {y : K} (hy : (y == 0) = true) :
    s.simplify (.op .pow e (.number y)) = .number 1 := by
  rw [simplify]
  show Simplification.power _ (.number y) = _
  unfold Simplification.power
  exact if_pos hy

theorem parse_undefined_pow {K : Type} [Arithmetic K] :
    parse "(0/0)^0".toList = .ok (.op .pow
      (.op .div (.number (Arithmetic.ofDecimal (K := K) ⟨0, 0⟩))
        (.number (Arithmetic.ofDecimal ⟨0, 0⟩))) (.number (Arithmetic.ofDecimal ⟨0, 0⟩))) := by
  cbv

/-- The base of `(0/0)^0` is not-a-number, and so is the power, but simplification makes it one. -/
theorem Scope.simplify_undefined_pow :
    ∃ (tree : Expr FloatNumber) (v v' : Value FloatNumber), parse "(0/0)^0".toList = .ok tree ∧
      tree.containsVariable = false ∧ empty.evaluateText "(0/0)^0".toList = .ok v ∧
      empty.evaluate (empty.simplify tree) = .ok v' ∧ (v' == v) = false := by
  have hzero : ((Arithmetic.ofDecimal ⟨0, 0⟩ : FloatNumber) == 0) = true := by decide +kernel
  refine ⟨_, _, .scalar 1, parse_undefined_pow, rfl, evaluateText_of_parse parse_undefined_pow rfl,
    ?_, by decide +kernel⟩
  rw [simplify_pow_zero _ hzero]
  rfl

end ComplexAlgebra
