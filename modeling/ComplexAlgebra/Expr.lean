import ComplexAlgebra.Value

/-! Expression trees over five binary operators. A constant carries a value, so a list of roots can
stand where a number does; a variable carries the number it is multiplied by. -/
namespace ComplexAlgebra

inductive Operator where
  | add
  | sub
  | mul
  | div
  | pow
deriving DecidableEq

namespace Operator

variable {K : Type} [Arithmetic K]

def symbol : Operator → String
  | add => "+"
  | sub => "-"
  | mul => "*"
  | div => "/"
  | pow => "^"

def apply : Operator → K → K → K
  | add, x, y => x + y
  | sub, x, y => x - y
  | mul, x, y => x * y
  | div, x, y => x / y
  | pow, x, y => Arithmetic.power x y

/-- The operator on all pairings of the numbers of two values. -/
def combine (o : Operator) (v w : Value K) : Value K := v.combine o.apply w

end Operator

inductive Expr (K : Type) where
  | constant (value : Value K)
  | var (name : Char) (coefficient : K)
  | op (o : Operator) (left right : Expr K)

namespace Expr

variable {K : Type}

/-- A constant that is a single number. -/
@[match_pattern] abbrev number (x : K) : Expr K := .constant (.scalar x)

def size : Expr K → Nat
  | constant _ => 1
  | var _ _ => 1
  | op _ l r => l.size + r.size + 1

/-- The names of the variable leaves, from left to right. -/
def names : Expr K → List Char
  | constant _ => []
  | var name _ => [name]
  | op _ l r => l.names ++ r.names

def containsVariable : Expr K → Bool
  | constant _ => false
  | var _ _ => true
  | op _ l r => l.containsVariable || r.containsVariable

theorem containsVariable_iff (e : Expr K) : e.containsVariable = true ↔ e.names ≠ [] := by
  induction e with
  | constant v => simp [containsVariable, names]
  | var name c => simp [containsVariable, names]
  | op o l r ihl ihr =>
    simp only [containsVariable, names, Bool.or_eq_true, ihl, ihr, ne_eq,
      List.append_eq_nil_iff]
    exact Classical.not_and_iff_not_or_not.symm

def constant? : Expr K → Option (Value K)
  | constant v => some v
  | _ => none

@[simp] theorem constant?_eq_some_iff {e : Expr K} {v : Value K} :
    e.constant? = some v ↔ e = constant v := by
  cases e <;> simp [constant?]

def isOperator : Expr K → Bool
  | op .. => true
  | _ => false

def isNumber [BEq K] (x : K) : Expr K → Bool
  | number y => y == x
  | _ => false

def beq [BEq K] : Expr K → Expr K → Bool
  | constant v, constant w => v == w
  | var a c, var b d => a == b && c == d
  | op o l r, op o' l' r' => o == o' && beq l l' && beq r r'
  | _, _ => false

instance [BEq K] : BEq (Expr K) := ⟨beq⟩

end Expr
end ComplexAlgebra
