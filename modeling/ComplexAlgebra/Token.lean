import ComplexAlgebra.Expr

/-! Tokens of the expression language, and how a text is split into them. Blanks separate tokens and
are dropped; a numeral is a maximal run of digits and points; every other token is one character. -/
namespace ComplexAlgebra

inductive Bracket where
  | round
  | square
  | curly
deriving DecidableEq

inductive Token where
  | number (numeral : Decimal)
  | plus
  | minus
  | star
  | slash
  | caret
  | opening (bracket : Bracket)
  | closing (bracket : Bracket)
  | imaginaryUnit
  | euler
  | pi
  | letter (name : Char)
deriving DecidableEq

/-- A token and the byte offset at which it starts. -/
structure PlacedToken where
  token : Token
  position : Nat
deriving DecidableEq

/-- Lowercase ASCII letters name variables, except the two that name constants. -/
def isVariableName (c : Char) : Bool :=
  'a' ≤ c && c ≤ 'z' && c != 'e' && c != 'i'

namespace Token

/-- The tokens that can begin a value. One of them directly after a value is multiplied by it. -/
def startsValue : Token → Bool
  | number _ | opening _ | imaginaryUnit | euler | pi | letter _ => true
  | _ => false

def closing? : Token → Option Token
  | opening b => some (closing b)
  | _ => none

def additive? : Token → Option Operator
  | plus => some .add
  | minus => some .sub
  | _ => none

def multiplicative? : Token → Option Operator
  | star => some .mul
  | slash => some .div
  | _ => none

/-- The text of a token. A numeral is written as the double it denotes. -/
def text : Token → String
  | number numeral => Binary64.text numeral.toFloat
  | plus => "+"
  | minus => "-"
  | star => "*"
  | slash => "/"
  | caret => "^"
  | opening .round => "("
  | opening .square => "["
  | opening .curly => "\x7b"
  | closing .round => ")"
  | closing .square => "]"
  | closing .curly => "\x7d"
  | imaginaryUnit => "i"
  | euler => "e"
  | pi => "π"
  | letter name => String.singleton name

/-- The tokens of a single character, numerals apart. -/
def ofChar? : Char → Option Token
  | '+' => some plus
  | '-' => some minus
  | '*' => some star
  | '/' => some slash
  | '^' => some caret
  | '(' => some (opening .round)
  | ')' => some (closing .round)
  | '[' => some (opening .square)
  | ']' => some (closing .square)
  | '\x7b' => some (opening .curly)
  | '\x7d' => some (closing .curly)
  | 'i' => some imaginaryUnit
  | 'e' => some euler
  | 'π' => some pi
  | c => if isVariableName c then some (letter c) else none

end Token

/-! Why a text is not an expression, and where. Positions are byte offsets. -/

inductive ParseError where
  /-- A character outside the language, or a numeral with several points. -/
  | invalidToken (lexeme : String) (position : Nat)
  | unexpectedToken (token : Token) (position : Nat)
  | unexpectedEnd (position : Nat)
  /-- A bracket of this kind had to be closed here. -/
  | unclosed (bracket : Bracket) (position : Nat)
deriving DecidableEq

namespace ParseError

def position : ParseError → Nat
  | invalidToken _ p | unexpectedToken _ p | unexpectedEnd p | unclosed _ p => p

/-- The same error in a text that begins `n` bytes earlier. -/
def shift (n : Nat) : ParseError → ParseError
  | invalidToken lexeme p => invalidToken lexeme (p + n)
  | unexpectedToken token p => unexpectedToken token (p + n)
  | unexpectedEnd p => unexpectedEnd (p + n)
  | unclosed bracket p => unclosed bracket (p + n)

@[simp] theorem position_shift (n : Nat) (e : ParseError) :
    (e.shift n).position = e.position + n := by
  cases e <;> rfl

/-- What is wrong, without the position. -/
def reason : ParseError → String
  | invalidToken lexeme _ => "Invalid token: " ++ lexeme
  | unexpectedToken token _ => "Invalid expression: unexpected token '" ++ token.text ++ "'"
  | unexpectedEnd _ => "Invalid expression: unexpected end of input"
  | unclosed bracket _ =>
    "Invalid expression: expected closing '" ++ (Token.closing bracket).text ++ "'"

def message (e : ParseError) : String :=
  "Error at position " ++ toString e.position ++ ": " ++ e.reason ++ "."

end ParseError

def byteLength : List Char → Nat
  | [] => 0
  | c :: cs => c.utf8Size + byteLength cs

@[simp] theorem byteLength_nil : byteLength [] = 0 := rfl

@[simp] theorem byteLength_cons (c : Char) (cs : List Char) :
    byteLength (c :: cs) = c.utf8Size + byteLength cs := rfl

@[simp] theorem byteLength_append (cs ds : List Char) :
    byteLength (cs ++ ds) = byteLength cs + byteLength ds := by
  induction cs with
  | nil => simp
  | cons c cs ih => simp [ih, Nat.add_assoc]

namespace Token

/-- The characters that separate tokens: space, tab, line feed, carriage return, form feed. -/
def isBlank (c : Char) : Bool := c == ' ' || c == '\t' || c == '\n' || c == '\r' || c == '\x0c'

/-- The characters that continue a numeral. -/
def isNumeral (c : Char) : Bool := c.isDigit || c == '.'

theorem length_dropWhile_le (p : Char → Bool) (cs : List Char) :
    (cs.dropWhile p).length ≤ cs.length :=
  (List.dropWhile_sublist p).length_le

/-- The tokens of a text that starts at `position`, or its leftmost piece that is none. -/
def scan (position : Nat) : List Char → Except ParseError (List PlacedToken)
  | [] => .ok []
  | c :: cs =>
    if isBlank c then scan (position + c.utf8Size) cs
    else if c.isDigit then
      let run := c :: cs.takeWhile isNumeral
      match Decimal.ofRun? run with
      | some numeral =>
        (scan (position + byteLength run) (cs.dropWhile isNumeral)).map
          (⟨.number numeral, position⟩ :: ·)
      | none => .error (.invalidToken (String.ofList run) position)
    else
      match ofChar? c with
      | some token => (scan (position + c.utf8Size) cs).map (⟨token, position⟩ :: ·)
      | none => .error (.invalidToken (String.singleton c) position)
termination_by cs => cs.length
decreasing_by
  · simp
  · exact Nat.lt_succ_of_le (length_dropWhile_le isNumeral cs)
  · simp

@[simp] theorem scan_nil (position : Nat) : scan position [] = .ok [] := by rw [scan]

def tokenize (source : List Char) : Except ParseError (List PlacedToken) := scan 0 source

end Token
end ComplexAlgebra
