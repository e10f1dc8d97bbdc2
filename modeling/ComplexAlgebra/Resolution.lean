import ComplexAlgebra.Simplification.Weight
import ComplexAlgebra.Grammar
import ComplexAlgebra.Text

/-! What a line of input comes to: the value of an expression, or the binding that solves an
equation. The unknown of an equation is isolated: the outermost operation around it is undone on the
other side until the variable stands alone. Texts are lists of characters. -/
namespace ComplexAlgebra

inductive Resolution (K : Type) where
  | value (v : Value K)
  | binding (name : Char) (v : Value K)

/-! Both sides of an equation are simplified again before every step of an isolation; no step and no
simplification raises the weight of the side with the unknown, and every step lowers it. -/

variable {K : Type} [Arithmetic K]

/-- An exponent whose power is undone by listing all roots. -/
def rootDegree? : Expr K → Option Nat
  | .number x => (Arithmetic.degree? x).filter (0 < ·)
  | _ => none

/-- What `left` equals where `left o right` equals `value`. -/
def undoRight (o : Operator) (right : Expr K) (value : Value K) : Expr K :=
  match o with
  | .add => .op .sub (.constant value) right
  | .sub => .op .add (.constant value) right
  | .mul => .op .div (.constant value) right
  | .div => .op .mul (.constant value) right
  | .pow =>
    match rootDegree? right with
    | some degree => .constant (value.roots degree)
    | none => .op .pow (.constant value) (.op .div (.number 1) right)

namespace Scope

/-- The unknown of `unknown = known` and its values. -/
def isolate (s : Scope K) (unknown known : Expr K) : Except (RuntimeError K) (Char × Value K) :=
  match s.simplify known with
  | .constant value =>
    match _h : s.simplify unknown with
    | .constant _ => .error (.unresolvable .cancels)
    | .var name coefficient => .ok (name, value.map (· / coefficient))
    | .op o left right =>
      match left.containsVariable, right.containsVariable with
      | true, true => .error (.unresolvable (.bothOperands o))
      | false, false => .error (.unresolvable .cancels)
      | true, false => s.isolate left (undoRight o right value)
      | false, true =>
        match o with
        | .add => s.isolate right (.op .sub (.constant value) left)
        | .sub => s.isolate right (.op .sub left (.constant value))
        | .mul => s.isolate right (.op .div (.constant value) left)
        | .div => s.isolate (.op .mul (.constant value) right) left
        | .pow =>
          match s.evaluate left with
          | .error e => .error e
          | .ok base =>
            s.isolate right
              (.op .div (.constant (value.map Arithmetic.log))
                (.constant (base.map Arithmetic.log)))
  | side => .error (.unresolvable (.notKnown side))
termination_by unknown.weight
decreasing_by
  all_goals
    have hle := s.weight_simplify_le unknown
    rw [_h] at hle
  · exact Nat.lt_of_lt_of_le (Expr.weight_left_lt _ _ _) hle
  · exact Nat.lt_of_lt_of_le (Expr.weight_right_lt _ _ _) hle
  · exact Nat.lt_of_lt_of_le (Expr.weight_right_lt _ _ _) hle
  · exact Nat.lt_of_lt_of_le (Expr.weight_right_lt _ _ _) hle
  · exact Nat.lt_of_lt_of_le (Expr.weight_mul_lt_div _ _ _) hle
  · exact Nat.lt_of_lt_of_le (Expr.weight_right_lt _ _ _) hle

def evaluateText (s : Scope K) (source : List Char) : Except (Error K) (Value K) :=
  match parse source with
  | .error e => .error (.parse e)
  | .ok tree =>
    match s.evaluate tree with
    | .error e => .error (.runtime e)
    | .ok v => .ok v

/-- Solves an equation. Exactly one of its simplified sides has to contain a variable. -/
def solve (s : Scope K) (left right : Expr K) : Except (RuntimeError K) (Char × Value K) :=
  let left := s.simplify left
  let right := s.simplify right
  match left.containsVariable, right.containsVariable with
  | true, false => s.isolate left right
  | false, true => s.isolate right left
  | true, true => .error (.invalidEquation .bothSides)
  | false, false => .error (.invalidEquation .neitherSide)

/-- Parses and solves an equation. Errors in its right side count from the start of the text. -/
def solveText (s : Scope K) (left right : List Char) : Except (Error K) (Char × Value K) :=
  match parse left with
  | .error e => .error (.parse e)
  | .ok leftTree =>
    match parse right with
    | .error e => .error (.parse (e.shift (byteLength left + 1)))
    | .ok rightTree =>
      match s.solve leftTree rightTree with
      | .error e => .error (.runtime e)
      | .ok binding => .ok binding

/-- The outcome of a line: a text without an equals sign is an expression, one with a single
equals sign an equation. -/
def outcome (s : Scope K) (source : List Char) : Except (Error K) (Resolution K) :=
  match Text.pieces '=' source with
  | [expression] =>
    match s.evaluateText expression with
    | .error e => .error e
    | .ok v => .ok (.value v)
  | [left, right] =>
    match s.solveText left right with
    | .error e => .error e
    | .ok (name, v) => .ok (.binding name v)
  | sides => .error (.runtime (.invalidEquation (.equalsSigns (sides.length - 1))))

/-- The scope after an outcome: a solved equation binds its unknown, nothing else changes it. -/
def after (s : Scope K) : Except (Error K) (Resolution K) → Scope K
  | .ok (.binding name v) => s.bind name v
  | _ => s

def resolve (s : Scope K) (source : List Char) : Except (Error K) (Resolution K) × Scope K :=
  (s.outcome source, s.after (s.outcome source))

end Scope

/-! Scripts: lines that are resolved in order in one scope, up to the first error. Blank lines and
lines that start with two slashes are passed over. -/

namespace Script

/-- A trimmed line without content. -/
def isPassedOver (line : List Char) : Bool := line.isEmpty || ['/', '/'].isPrefixOf line

end Script

namespace Scope

/-- Resolves lines, the first of which has the number `number`. -/
def runLines (s : Scope K) (number : Nat) :
    List (List Char) → Except (ScriptError K) (List (Resolution K)) × Scope K
  | [] => (.ok [], s)
  | line :: rest =>
    if Script.isPassedOver (Text.trim line) then s.runLines (number + 1) rest
    else
      match s.resolve (Text.trim line) with
      | (.error e, s) => (.error ⟨number, e⟩, s)
      | (.ok r, s) =>
        let (results, s) := s.runLines (number + 1) rest
        (results.map (r :: ·), s)

/-- Resolves a script. The scope keeps what was bound before an error. -/
def run (s : Scope K) (source : List Char) :
    Except (ScriptError K) (List (Resolution K)) × Scope K :=
  s.runLines 1 (Text.pieces '\n' source)

end Scope
end ComplexAlgebra
