import ComplexAlgebra.Decimal

/-! Complex numbers over a type of real components. Every operation settles the components it
computes; constants and parts of existing numbers are taken as they are. -/
namespace ComplexAlgebra

/-- The real functions that complex arithmetic is put together from, as an interface. Doubles are
the components a program runs on; an exact field of reals fits the same interface. -/
class Component (R : Type) extends Zero R, One R, Add R, Sub R, Mul R, Div R, Neg R where
  ofNat : Nat → R
  ofDecimal : Decimal → R
  euler : R
  pi : R
  infinity : R
  nan : R
  /-- Equality as the numbers see it. -/
  same : R → R → Bool
  isPositive : R → Bool
  isNegative : R → Bool
  /-- The component as a natural number, if it is one of a root's possible degrees. -/
  natural? : R → Option Nat
  /-- What a freshly computed pair of components is replaced by. -/
  settle : R → R → R × R
  floor : R → R
  sqrt : R → R
  exp : R → R
  log : R → R
  sin : R → R
  cos : R → R
  sinh : R → R
  cosh : R → R
  /-- The angle of the point with this ordinate and abscissa. -/
  arctan : R → R → R
  hypotenuse : R → R → R
  power : R → R → R
  /-- The product of the first two plus the third. -/
  fusedProduct : R → R → R → R

instance : Component Float where
  zero := 0.0
  one := 1.0
  ofNat := Float.ofNat
  ofDecimal := Decimal.toFloat
  euler := Binary64.euler
  pi := Binary64.pi
  infinity := Binary64.infinity
  nan := Binary64.nan
  same := Binary64.same
  isPositive x := 0.0 < x
  isNegative x := x < 0.0
  natural? := Binary64.natural?
  settle := Binary64.settlePair
  floor := Binary64.floor
  sqrt := Float.sqrt
  exp := Binary64.exp
  log := Binary64.log
  sin := Binary64.sin
  cos := Binary64.cos
  sinh := Binary64.sinh
  cosh := Binary64.cosh
  arctan := Binary64.arctan
  hypotenuse := Binary64.hypotenuse
  power := Binary64.power
  fusedProduct := Binary64.fusedProduct

/-- A complex number by its real and imaginary part. -/
structure Number (R : Type) where
  re : R
  im : R

abbrev FloatNumber := Number Float

namespace Number

variable {R : Type} [Component R]

def make (re im : R) : Number R :=
  let settled := Component.settle re im
  ⟨settled.1, settled.2⟩

def ofReal (x : R) : Number R := make x 0

instance : Zero (Number R) := ⟨⟨0, 0⟩⟩
instance : One (Number R) := ⟨⟨1, 0⟩⟩

def two : Number R := ⟨Component.ofNat 2, 0⟩
def imaginaryUnit : Number R := ⟨0, 1⟩
def euler : Number R := ⟨Component.euler, 0⟩
def pi : Number R := ⟨Component.pi, 0⟩
def infinity : Number R := ⟨Component.infinity, 0⟩
def nan : Number R := ⟨Component.nan, 0⟩

instance : BEq (Number R) :=
  ⟨fun z w => Component.same z.re w.re && Component.same z.im w.im⟩

instance : Neg (Number R) := ⟨fun z => make (-z.re) (-z.im)⟩

instance : Add (Number R) := ⟨fun z w => make (z.re + w.re) (z.im + w.im)⟩

instance : Sub (Number R) := ⟨fun z w => make (z.re - w.re) (z.im - w.im)⟩

instance : Mul (Number R) :=
  ⟨fun z w => make (z.re * w.re - z.im * w.im) (z.re * w.im + z.im * w.re)⟩

instance : Div (Number R) :=
  ⟨fun z w =>
    let norm := w.re * w.re + w.im * w.im
    make ((z.re * w.re + z.im * w.im) / norm) ((z.im * w.re - z.re * w.im) / norm)⟩

def floor (z : Number R) : Number R := make (Component.floor z.re) (Component.floor z.im)

/-- What the largest whole multiple of `w`, by the rounded quotient, leaves of `z`. -/
instance : Mod (Number R) := ⟨fun z w => z - floor (z / w) * w⟩

theorem beq_def (z w : Number R) :
    (z == w) = (Component.same z.re w.re && Component.same z.im w.im) := rfl

theorem add_def (z w : Number R) : z + w = make (z.re + w.re) (z.im + w.im) := rfl

theorem sub_def (z w : Number R) : z - w = make (z.re - w.re) (z.im - w.im) := rfl

theorem neg_def (z : Number R) : -z = make (-z.re) (-z.im) := rfl

theorem mul_def (z w : Number R) :
    z * w = make (z.re * w.re - z.im * w.im) (z.re * w.im + z.im * w.re) := rfl

theorem div_def (z w : Number R) :
    z / w = make ((z.re * w.re + z.im * w.im) / (w.re * w.re + w.im * w.im))
      ((z.im * w.re - z.re * w.im) / (w.re * w.re + w.im * w.im)) := rfl

end Number

namespace FloatNumber

/-! Double-precision complex numbers in order: by the real part, then by the imaginary part. -/

def order (z w : FloatNumber) : Ordering :=
  (Binary64.order z.re w.re).then (Binary64.order z.im w.im)

theorem same_re_of_beq {z w : FloatNumber} (h : (z == w) = true) :
    Binary64.same z.re w.re = true := by
  rw [Number.beq_def, Bool.and_eq_true] at h
  exact h.1

theorem same_im_of_beq {z w : FloatNumber} (h : (z == w) = true) :
    Binary64.same z.im w.im = true := by
  rw [Number.beq_def, Bool.and_eq_true] at h
  exact h.2

theorem beq_self (z : FloatNumber) : (z == z) = true := by
  rw [Number.beq_def, Bool.and_eq_true]
  exact ⟨Binary64.same_self _, Binary64.same_self _⟩

theorem order_eq_iff (z w : FloatNumber) : order z w = .eq ↔ (z == w) = true := by
  rw [order, Ordering.then_eq_eq, Binary64.order_eq_iff, Binary64.order_eq_iff, Number.beq_def,
    Bool.and_eq_true]
  rfl

theorem rank_one : Binary64.rank (1 : FloatNumber).re = Binary64.rank 1.0 := rfl

theorem rank_one_im : Binary64.rank (1 : FloatNumber).im = 0 := by decide

/-- Only one and its companion with a negative zero pass for one. -/
theorem eq_one_of_beq {z : FloatNumber} (h : (z == 1) = true) :
    z = ⟨1.0, 0.0⟩ ∨ z = ⟨1.0, -0.0⟩ := by
  have hrank : Binary64.rank z.re = Binary64.rank 1.0 :=
    (Binary64.same_iff.1 (same_re_of_beq h)).trans rank_one
  have hre : z.re = 1.0 :=
    Binary64.eq_of_rank (by decide) (by decide) (by decide) hrank
  have him : Binary64.rank z.im = 0 :=
    (Binary64.same_iff.1 (same_im_of_beq h)).trans rank_one_im
  cases z with
  | mk re im =>
    subst hre
    rcases Binary64.eq_zero_of_rank him with h0 | h0
    · left; rw [← h0]
    · right; rw [← h0]

/-- A real whole number, as its double. -/
def whole? (z : FloatNumber) : Option Float :=
  if z.im == 0 && Binary64.isWhole z.re then some z.re else none

def isFinite (z : FloatNumber) : Bool := z.re.isFinite && z.im.isFinite

def isNaN (z : FloatNumber) : Bool := z.re.isNaN

def round (z : FloatNumber) (places : Int) : FloatNumber :=
  Number.make (Binary64.roundDecimals z.re places) (Binary64.roundDecimals z.im places)

end FloatNumber

namespace Number

/-! The elementary functions of a complex number: principal logarithm, power and roots, all roots
of a whole degree, and the trigonometric functions. -/

open Component (ofNat)

variable {R : Type} [Component R]

def abs (z : Number R) : R := Component.hypotenuse z.re z.im

def arg (z : Number R) : R := Component.arctan z.im z.re

/-- The magnitude as a number, by the root of the sum of squares. -/
def absolute (z : Number R) : Number R :=
  make (Component.sqrt (z.re * z.re + z.im * z.im)) 0

def exp (z : Number R) : Number R :=
  let magnitude := Component.exp z.re
  make (magnitude * Component.cos z.im) (magnitude * Component.sin z.im)

def log (z : Number R) : Number R := make (Component.log z.abs) z.arg

/-- The principal power `exp (w log z)`. A zero base has the power one at the exponent zero, and
otherwise zero or infinity by the sign of the exponent's real part. -/
def power (z w : Number R) : Number R :=
  if z == 0 then
    if w == 0 then 1
    else if Component.isPositive w.re then 0
    else if Component.isNegative w.re then infinity
    else nan
  else (z.log * w).exp

def root (z degree : Number R) : Number R := z.power (1 / degree)

def sqrt (z : Number R) : Number R := z.root two

/-- All roots of a whole degree, from the principal one on by equal turns. -/
def roots (z : Number R) (degree : Nat) : List (Number R) :=
  let n : R := ofNat degree
  let magnitude :=
    Component.power (Component.fusedProduct z.re z.re (z.im * z.im)) (1 / (ofNat 2 * n))
  let turn : R := Component.pi + Component.pi
  (List.range degree).map fun k =>
    let angle := Component.fusedProduct turn (ofNat k) z.arg / n
    make (magnitude * Component.cos angle) (magnitude * Component.sin angle)

@[simp] theorem length_roots (z : Number R) (degree : Nat) :
    (z.roots degree).length = degree := by simp [roots]

def sin (z : Number R) : Number R :=
  make (Component.sin z.re * Component.cosh z.im) (Component.cos z.re * Component.sinh z.im)

def cos (z : Number R) : Number R :=
  make (Component.cos z.re * Component.cosh z.im) (-Component.sin z.re * Component.sinh z.im)

def tan (z : Number R) : Number R := z.sin / z.cos

def cot (z : Number R) : Number R := z.cos / z.sin

def sec (z : Number R) : Number R := 1 / z.cos

def csc (z : Number R) : Number R := 1 / z.sin

/-- The number as a degree of a root: real, whole and not negative. -/
def degree? (z : Number R) : Option Nat :=
  if Component.same z.im 0 then Component.natural? z.re else none

end Number

namespace FloatNumber

/-! The text of a complex number: parts that are zero are left out, and so is the factor one in
front of the imaginary unit. -/

def componentText (x : Float) : String :=
  if x.isNaN then "NaN"
  else if x.isInf then (if x < 0 then "-" else "") ++ "Infinity"
  else Binary64.text x

/-- The sign in front of an imaginary part. A plus only separates it from a real part. -/
def separator (z : FloatNumber) : String :=
  if z.im < 0 then "-" else if z.re == 0 then "" else "+"

def imaginaryText (z : FloatNumber) : String :=
  separator z ++ (if z.im.abs == 1 then "" else componentText z.im.abs) ++ "i"

def text (z : FloatNumber) : String :=
  if z.re == 0 && z.im == 0 then "0"
  else
    (if z.re == 0 then "" else componentText z.re) ++
      (if z.im == 0 then "" else imaginaryText z)

end FloatNumber
end ComplexAlgebra
