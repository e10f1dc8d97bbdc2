/-! Doubles: their total order, the whole numbers among them, and the real functions that complex
arithmetic needs. In the order the two zeros share a rank, and so do all not-a-numbers, which stand
above everything else. -/
namespace ComplexAlgebra
namespace Binary64

/-- The bit patterns from here on carry a sign. -/
def signBit : Nat := 0x8000000000000000

/-- Where a double stands in the order. -/
def rank (x : Float) : Int :=
  if x.isNaN then signBit
  else if x.toBits.toNat < signBit then x.toBits.toNat
  else signBit - x.toBits.toNat

def same (x y : Float) : Bool := rank x == rank y

theorem same_iff {x y : Float} : same x y = true ↔ rank x = rank y := beq_iff_eq

theorem same_self (x : Float) : same x x = true := same_iff.2 rfl

theorem same_comm (x y : Float) : same x y = same y x := BEq.comm

theorem same_trans {x y z : Float} (hxy : same x y = true) (hyz : same y z = true) :
    same x z = true :=
  same_iff.2 ((same_iff.1 hxy).trans (same_iff.1 hyz))

def order (x y : Float) : Ordering := compare (rank x) (rank y)

theorem order_eq_iff (x y : Float) : order x y = .eq ↔ same x y = true := by
  rw [same_iff]; exact Std.compare_eq_iff_eq

theorem eq_of_toBits_eq {x y : Float} (h : x.toBits = y.toBits) : x = y := by
  cases x with
  | ofModel a =>
    cases y with
    | ofModel b =>
      cases a; cases b
      obtain rfl := h
      rfl

theorem eq_of_rank {x y : Float} (hy : y.isNaN = false) (hy' : y.toBits.toNat < signBit)
    (hpos : 0 < y.toBits.toNat) (h : rank x = rank y) : x = y := by
  apply eq_of_toBits_eq
  apply UInt64.toNat.inj
  unfold rank at h
  have := x.toBits.toNat_lt
  grind [signBit]

theorem eq_zero_of_rank {x : Float} (h : rank x = 0) : x = 0.0 ∨ x = -0.0 := by
  have hx := x.toBits.toNat_lt
  unfold rank at h
  have hbits : x.toBits.toNat = 0 ∨ x.toBits.toNat = signBit := by grind [signBit]
  rcases hbits with hb | hb
  · left
    apply eq_of_toBits_eq
    apply UInt64.toNat.inj
    rw [hb]; decide
  · right
    apply eq_of_toBits_eq
    apply UInt64.toNat.inj
    rw [hb]; decide

/-! Whole numbers in exact arithmetic on the significand: rounding down, rounding to nearest, and
the test for a whole number. -/

open Float.Model.UnpackedFloat (Sign)

def infinity : Float := Float.ofBits 0x7ff0000000000000

def nan : Float := Float.ofBits 0x7ff8000000000000

def signed : Sign → Float → Float
  | .positive, x => x
  | .negative, x => -x

/-- The largest whole number that is not larger. Zeros keep their sign. -/
def floor (x : Float) : Float :=
  match x.toModel.unpack with
  | .finite s m q _ =>
    if 0 ≤ q then x
    else
      let unit := Nat.pow 2 (-q).toNat
      match s with
      | .positive => Float.ofNat (m / unit)
      | .negative => -Float.ofNat ((m + unit - 1) / unit)
  | _ => x

/-- The nearest whole number, halves away from zero, with the sign kept also by a zero. -/
def round (x : Float) : Float :=
  match x.toModel.unpack with
  | .finite s m q _ =>
    if 0 ≤ q then x
    else
      let unit := Nat.pow 2 (-q).toNat
      signed s (Float.ofNat ((2 * m + unit) / (2 * unit)))
  | _ => x

/-- A finite double without a fractional part. -/
def isWhole (x : Float) : Bool :=
  match x.toModel.unpack with
  | .finite _ m q _ => 0 ≤ q || m % Nat.pow 2 (-q).toNat == 0
  | .zero _ => true
  | _ => false

/-- A double that is a natural number below `2 ^ 32`, as that number. -/
def natural? (x : Float) : Option Nat :=
  if isWhole x && 0 ≤ x && x ≤ 4294967295 then some x.toUInt32.toNat else none

/-- `base ^ n * result`, squaring the base once for each binary digit of `n`. -/
def squaring (result base : Float) (n : Nat) : Float :=
  let result := if n % 2 = 1 then result * base else result
  if n / 2 = 0 then result else squaring result (base * base) (n / 2)
termination_by n
decreasing_by omega

/-- `10 ^ n` by repeated squaring; a negative power is one over the positive one. -/
def powerOfTen (n : Int) : Float :=
  let power := squaring 1 10 n.natAbs
  if n < 0 then 1 / power else power

/-- Rounds to a number of decimal places, halves away from zero. A value whose scaled form leaves
the range of doubles stays as it is. -/
def roundDecimals (x : Float) (places : Int) : Float :=
  let scale := powerOfTen places
  let scaled := x * scale
  if scaled.isFinite then round scaled / scale else x

/-! The real functions on doubles that complex arithmetic needs. Each definition states the values
at zeros, infinities, not-a-number and the other exactly known arguments, and leaves only the
remaining arguments to the machine. The fused product and the hypotenuse are exact sums rounded
once. -/

open Float.Model (Format UnpackedFloat)

def euler : Float := 2.718281828459045

def pi : Float := 3.141592653589793

/-- The sign bit, set also on a negative zero. -/
def isSigned (x : Float) : Bool := signBit ≤ x.toBits.toNat

/-- The magnitude of the first with the sign of the second. -/
def copySign (x y : Float) : Float := if isSigned y then -x.abs else x.abs

def exp (x : Float) : Float :=
  if x.isNaN then nan
  else if x == 0 then 1
  else if x.isInf then if x < 0 then 0 else infinity
  else x.exp

def log (x : Float) : Float :=
  if x.isNaN then nan
  else if x == 0 then -infinity
  else if x < 0 then nan
  else if x.isInf then infinity
  else if x == 1 then 0
  else x.log

def sin (x : Float) : Float :=
  if !x.isFinite then nan else if x == 0 then x else x.sin

def cos (x : Float) : Float :=
  if !x.isFinite then nan else if x == 0 then 1 else x.cos

def sinh (x : Float) : Float :=
  if !x.isFinite || x == 0 then x else x.sinh

def cosh (x : Float) : Float :=
  if !x.isFinite then x.abs else if x == 0 then 1 else x.cosh

/-- The angle of the point `(x, y)`. On the axes it is a multiple of a quarter turn, and a zero `y`
chooses between the two ends of the negative axis by its sign. -/
def arctan (y x : Float) : Float :=
  if y.isNaN || x.isNaN then nan
  else if y == 0 then if isSigned x then copySign pi y else y
  else if x == 0 then copySign (pi / 2) y
  else if y.isInf && x.isInf then copySign (if x < 0 then 2.356194490192345 else pi / 4) y
  else if y.isInf then copySign (pi / 2) y
  else if x.isInf then copySign (if x < 0 then pi else 0) y
  else y.atan2 x

def power (x y : Float) : Float :=
  if y == 0 || x == 1 then 1
  else if x.isNaN || y.isNaN then nan
  else if x == 0 && !isSigned x && 0 < y then 0
  else if x == infinity && 0 < y then infinity
  else x.pow y

/-- `x * y + z` with one rounding. -/
def fusedProduct (x y z : Float) : Float :=
  match x.toModel.unpack, y.toModel.unpack, z.toModel.unpack with
  | .finite s m p hm, .finite t n q hn, .finite u k r hk =>
    .ofModel (.pack (UnpackedFloat.add Format.binary64
      (.finite (s * t) (m * n) (p + q) (Nat.mul_pos hm hn)) (.finite u k r hk)))
  | .finite .., .finite .., .zero _ => x * y
  | _, _, _ => x * y + z

/-- `√(x² + y²)` with one rounding, so nothing overflows or vanishes on the way. An infinite
argument makes the result infinite whatever the other one is. -/
def hypotenuse (x y : Float) : Float :=
  if x.isInf || y.isInf then infinity
  else
    match x.toModel.unpack, y.toModel.unpack with
    | .finite _ m p _, .finite _ n q _ =>
      let unit := min (2 * p) (2 * q)
      let sum := (m * m) <<< (2 * p - unit).toNat + (n * n) <<< (2 * q - unit).toNat
      if h : 0 < sum then
        .ofModel (.pack (UnpackedFloat.sqrt Format.binary64 (.finite .positive sum unit h)))
      else 0
    | .notANumber, _ => nan
    | _, .notANumber => nan
    | .zero _, _ => y.abs
    | _, _ => x.abs

end Binary64
end ComplexAlgebra
