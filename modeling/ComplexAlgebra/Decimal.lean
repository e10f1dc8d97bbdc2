import ComplexAlgebra.Binary64

/-! Decimal numerals and the doubles: how a numeral is read, how a double is rounded to significant
digits, and the shortest numeral that reads back as a given double. -/
namespace ComplexAlgebra

/-- The number `digits / 10 ^ places`. -/
structure Decimal where
  digits : Nat
  places : Nat
deriving DecidableEq

namespace Decimal

def digitValue (c : Char) : Nat := c.toNat - 48

/-- The number a list of digits denotes, most significant first. -/
def ofDigits (cs : List Char) : Nat :=
  cs.foldl (fun n c => 10 * n + digitValue c) 0

@[simp] theorem ofDigits_nil : ofDigits [] = 0 := rfl

/-- Reads a run of digits and points. A second point leaves the run without a meaning. -/
def ofRun? (run : List Char) : Option Decimal :=
  if run.count '.' ≤ 1 then
    some ⟨ofDigits (run.filter Char.isDigit), (run.dropWhile (· != '.')).tail.length⟩
  else none

theorem ofRun?_eq_none_iff (run : List Char) : ofRun? run = none ↔ 2 ≤ run.count '.' := by
  unfold ofRun?
  split
  next h => simp only [reduceCtorEq, false_iff]; omega
  next h => simp only [true_iff]; omega

/-- The nearest double, ties to even; infinity beyond the range of doubles. -/
def toFloat (d : Decimal) : Float := Float.ofScientific d.digits true d.places

/-- The numeral without an exponent: a point only if there are decimal places, and then at least
one digit before it. -/
def text (d : Decimal) : String :=
  let digits := Nat.toDigits 10 d.digits
  if d.places = 0 then String.ofList digits
  else
    let padded := List.replicate (d.places + 1 - digits.length) '0' ++ digits
    let whole := padded.length - d.places
    String.ofList (padded.take whole ++ '.' :: padded.drop whole)

end Decimal

namespace Binary64

/-! Rounding to significant decimal digits, and the normalization of components that is built on
it: a value that reads the same with fourteen and with seven significant digits is taken to carry
noise behind its twelfth decimal place. -/

def digitCount (n : Nat) : Nat := if n < 10 then 1 else digitCount (n / 10) + 1
termination_by n
decreasing_by omega

/-- The exponent of the largest power of ten that is at most `num / den`. -/
def decimalExponent (num den : Nat) : Int :=
  if den ≤ num then digitCount (num / den) - 1
  else -(digitCount ((den + num - 1) / num - 1) : Int)

/-- The quotient rounded to nearest, ties to even. -/
def nearestEven (num den : Nat) : Nat :=
  let low := num / den
  let twice := 2 * (num % den)
  if twice < den then low
  else if den < twice then low + 1
  else low + low % 2

theorem nearestEven_of_dvd (n : Nat) {den : Nat} (h : 0 < den) :
    nearestEven (n * den) den = n := by
  simp [nearestEven, h]

def fraction (m : Nat) (q : Int) : Nat × Nat := (m * Nat.pow 2 q.toNat, Nat.pow 2 (-q).toNat)

/-- Rounds to `digits` significant decimal digits: the exact value to the nearest such decimal,
ties to the even digit, and that decimal to the nearest double. No digits, no rounding. -/
def toSignificant (x : Float) (digits : Nat) : Float :=
  if digits = 0 then x
  else
    match x.toModel.unpack with
    | .finite s m q _ =>
      let (num, den) := fraction m q
      let shift : Int := digits - 1 - decimalExponent num den
      let n := nearestEven (num * Nat.pow 10 shift.toNat) (den * Nat.pow 10 (-shift).toNat)
      signed s (Float.ofScientific n (0 ≤ shift) shift.natAbs)
    | _ => x

/-- Digits that two readings are compared at: all that count, and the reduced reading. -/
def fullDigits : Nat := 14

def reducedDigits : Nat := 7

/-- Magnitudes below this count as zero. -/
def tiny : Float := 1e-15

/-- Removes the noise of earlier roundings from a component. -/
def settle (x : Float) : Float :=
  if !x.isFinite then x
  else if x.abs < tiny then 0
  else if toSignificant x fullDigits == toSignificant x reducedDigits then
    roundDecimals x (fullDigits - 2 : Nat)
  else x

/-- Normalizes two components together. Not-a-number or an infinity in either of them, the first
infinity winning, makes the whole number that value without an imaginary part. -/
def settlePair (re im : Float) : Float × Float :=
  if re.isNaN || im.isNaN then (nan, 0)
  else if re.isInf then (re, 0)
  else if im.isInf then (im, 0)
  else (settle re, settle im)

/-! The shortest decimal that reads back as a given double, and the text of a double, which never
uses an exponent. -/

/-- The two decimals with `digits` significant digits around `num / den`, the nearer one first and
the upper one first when they are equally near. -/
def neighbours (num den digits : Nat) : List Decimal :=
  let shift : Int := digits - 1 - decimalExponent num den
  let num := num * Nat.pow 10 shift.toNat
  let den := den * Nat.pow 10 (-shift).toNat
  let low := num / den
  let onGrid (n : Nat) : Decimal := ⟨n * Nat.pow 10 (-shift).toNat, shift.toNat⟩
  if 2 * (num % den) < den then [onGrid low, onGrid (low + 1)] else [onGrid (low + 1), onGrid low]

/-- Every binary fraction is a decimal: `m * 2 ^ q` without rounding. -/
def exactDecimal (m : Nat) (q : Int) : Decimal :=
  ⟨m * Nat.pow 2 q.toNat * Nat.pow 5 (-q).toNat, (-q).toNat⟩

def trimZeros (digits : Nat) : (places : Nat) → Decimal
  | 0 => ⟨digits, 0⟩
  | places + 1 => if digits % 10 = 0 then trimZeros (digits / 10) places else ⟨digits, places + 1⟩

/-- The shortest decimal that reads back as the magnitude `m * 2 ^ q`, and the nearest of those.
Seventeen digits always suffice. -/
def shortest (m : Nat) (q : Int) (x : Float) : Decimal :=
  let (num, den) := fraction m q
  let grids := (List.range 17).flatMap fun digits => neighbours num den (digits + 1)
  let d := (grids.find? fun d => d.toFloat == x).getD (exactDecimal m q)
  trimZeros d.digits d.places

def signText : Float.Model.UnpackedFloat.Sign → String
  | .positive => ""
  | .negative => "-"

/-- The text of a double: sign and shortest decimal, without an exponent at any size. -/
def text (x : Float) : String :=
  match x.toModel.unpack with
  | .notANumber => "NaN"
  | .infinity s => signText s ++ "inf"
  | .zero s => signText s ++ "0"
  | .finite s m q _ => signText s ++ (shortest m q x.abs).text

end Binary64
end ComplexAlgebra
