import ComplexAlgebra.Number

/-! Values: one number, or an ordered list of numbers such as the roots of an equation. Operations
on two values pair every number of one with every number of the other. -/
namespace ComplexAlgebra

/-- What expressions need of their numbers. The interface asks for no field axioms, since rounded
numbers satisfy few of them; only numbers that pass for one have to multiply and divide to one,
which is what keeps a simplified product from growing when it is simplified again. -/
class Arithmetic (K : Type) extends Zero K, One K, Neg K, Add K, Sub K, Mul K, Div K, BEq K where
  two : K
  imaginaryUnit : K
  euler : K
  pi : K
  /-- The number a numeral denotes. -/
  ofDecimal : Decimal → K
  power : K → K → K
  log : K → K
  /-- All roots of a whole degree. -/
  roots : K → Nat → List K
  /-- The number as a whole degree, zero included, if it is one. -/
  degree? : K → Option Nat
  one_beq_one : ((1 : K) == 1) = true
  mul_beq_one : ∀ a b : K, (a == 1) = true → (b == 1) = true → (a * b == 1) = true
  div_beq_one : ∀ a b : K, (a == 1) = true → (b == 1) = true → (a / b == 1) = true

/-- Complex numbers over components are fit for expressions if their ones behave. -/
@[reducible] def Number.arithmetic {R : Type} [Component R]
    (one_one : ((1 : Number R) == 1) = true)
    (mul_one : ∀ a b : Number R, (a == 1) = true → (b == 1) = true → (a * b == 1) = true)
    (div_one : ∀ a b : Number R, (a == 1) = true → (b == 1) = true → (a / b == 1) = true) :
    Arithmetic (Number R) where
  two := Number.two
  imaginaryUnit := Number.imaginaryUnit
  euler := Number.euler
  pi := Number.pi
  ofDecimal d := Number.ofReal (Component.ofDecimal d)
  power := Number.power
  log := Number.log
  roots := Number.roots
  degree? := Number.degree?
  one_beq_one := one_one
  mul_beq_one := mul_one
  div_beq_one := div_one

namespace FloatNumber

theorem mul_beq_one (a b : FloatNumber) (ha : (a == 1) = true) (hb : (b == 1) = true) :
    (a * b == 1) = true := by
  rcases eq_one_of_beq ha with rfl | rfl <;> rcases eq_one_of_beq hb with rfl | rfl <;>
    decide +kernel

theorem div_beq_one (a b : FloatNumber) (ha : (a == 1) = true) (hb : (b == 1) = true) :
    (a / b == 1) = true := by
  rcases eq_one_of_beq ha with rfl | rfl <;> rcases eq_one_of_beq hb with rfl | rfl <;>
    decide +kernel

instance : Arithmetic FloatNumber := Number.arithmetic (beq_self 1) mul_beq_one div_beq_one

end FloatNumber

inductive Value (K : Type) where
  | scalar (x : K)
  | list (xs : List K)

namespace Value

variable {K L : Type}

def elements : Value K → List K
  | scalar x => [x]
  | list xs => xs

@[simp] theorem elements_scalar (x : K) : (scalar x).elements = [x] := rfl

@[simp] theorem elements_list (xs : List K) : (list xs).elements = xs := rfl

def scalar? : Value K → Option K
  | scalar x => some x
  | list _ => none

/-- Applies a function to every number and keeps the shape. -/
def map (f : K → L) : Value K → Value L
  | scalar x => scalar (f x)
  | list xs => list (xs.map f)

@[simp] theorem elements_map (f : K → L) (v : Value K) : (v.map f).elements = v.elements.map f := by
  cases v <;> rfl

/-- Two scalars combine to a scalar. With a list on either side the result lists all pairings, the
left number varying slowest. -/
def combine (f : K → K → L) : Value K → Value K → Value L
  | scalar x, scalar y => scalar (f x y)
  | v, w => list (v.elements.flatMap fun x => w.elements.map (f x))

@[simp] theorem combine_scalar (f : K → K → L) (x y : K) :
    combine f (scalar x) (scalar y) = scalar (f x y) := rfl

theorem elements_combine (f : K → K → L) (v w : Value K) :
    (combine f v w).elements = v.elements.flatMap fun x => w.elements.map (f x) := by
  cases v <;> cases w <;> simp [combine]

theorem length_elements_combine (f : K → K → L) (v w : Value K) :
    (combine f v w).elements.length = v.elements.length * w.elements.length := by
  rw [elements_combine]
  induction v.elements with
  | nil => simp
  | cons x xs ih => simp [ih, Nat.add_mul, Nat.add_comm]

def beq [BEq K] : Value K → Value K → Bool
  | scalar x, scalar y => x == y
  | list xs, list ys => xs == ys
  | _, _ => false

instance [BEq K] : BEq (Value K) := ⟨beq⟩

/-- All roots of a whole degree of every number, one number after the other. -/
def roots [Arithmetic K] (v : Value K) (degree : Nat) : Value K :=
  list (v.elements.flatMap fun x => Arithmetic.roots x degree)

end Value
end ComplexAlgebra
