import ComplexAlgebra.Token

/-! The grammar, one function for each of its rules:

    expression  := addition expression?
    addition    := product (("+" | "-") product)*
    product     := power (("*" | "/") power)* product?
    power       := value ("^" exponent)?
    exponent    := power product?
    value       := bracketed expression | "i" | "e" | "π" | letter | number | "-" value

Where a rule ends in an optional part, that part multiplies what stands before it and is taken
exactly if the next token can begin a value. Each function hands back the tokens it left over,
together with the proof that there are fewer of them, which is why the recursion ends. -/
namespace ComplexAlgebra

/-- A tree and the tokens behind it, fewer than `bound`. -/
structure Parsed (K : Type) (bound : Nat) where
  tree : Expr K
  rest : List PlacedToken
  rest_lt : rest.length < bound

namespace Parsed

variable {K : Type} {m n : Nat}

def widen (p : Parsed K m) (h : m ≤ n) : Parsed K n :=
  ⟨p.tree, p.rest, Nat.lt_of_lt_of_le p.rest_lt h⟩

def timesAfter (left : Expr K) (p : Parsed K m) : Parsed K m :=
  ⟨.op .mul left p.tree, p.rest, p.rest_lt⟩

theorem lt_of_rest_eq_cons (p : Parsed K m) {t : PlacedToken} {after : List PlacedToken}
    (h : p.rest = t :: after) (hmn : m ≤ n) : after.length < n := by
  have hlt := p.rest_lt
  rw [h, List.length_cons] at hlt
  omega

end Parsed

namespace Grammar

variable {K : Type} [Arithmetic K]

def startsValue : List PlacedToken → Bool
  | t :: _ => t.token.startsValue
  | [] => false

/-- The position of the next token; `stop` is that of the end. -/
def nextPosition (stop : Nat) : List PlacedToken → Nat
  | t :: _ => t.position
  | [] => stop

mutual

def value (stop : Nat) (ts : List PlacedToken) : Except ParseError (Parsed K ts.length) :=
  match ts with
  | [] => .error (.unexpectedEnd stop)
  | ⟨token, position⟩ :: rest =>
    match token with
    | .number numeral => .ok ⟨.number (Arithmetic.ofDecimal numeral), rest, Nat.lt_succ_self _⟩
    | .imaginaryUnit => .ok ⟨.number Arithmetic.imaginaryUnit, rest, Nat.lt_succ_self _⟩
    | .euler => .ok ⟨.number Arithmetic.euler, rest, Nat.lt_succ_self _⟩
    | .pi => .ok ⟨.number Arithmetic.pi, rest, Nat.lt_succ_self _⟩
    | .letter name => .ok ⟨.var name 1, rest, Nat.lt_succ_self _⟩
    | .minus =>
      match value stop rest with
      | .error e => .error e
      | .ok p => .ok ⟨.op .sub (.number 0) p.tree, p.rest, Nat.lt_succ_of_lt p.rest_lt⟩
    | .opening bracket =>
      match expression stop rest with
      | .error e => .error e
      | .ok p =>
        match h : p.rest with
        | t :: after =>
          if t.token = .closing bracket then
            .ok ⟨p.tree, after, p.lt_of_rest_eq_cons h (Nat.le_succ _)⟩
          else .error (.unclosed bracket t.position)
        | [] => .error (.unclosed bracket stop)
    | .plus | .star | .slash | .caret | .closing _ => .error (.unexpectedToken token position)
termination_by 8 * ts.length
decreasing_by all_goals simp only [List.length_cons]; omega

def power (stop : Nat) (ts : List PlacedToken) : Except ParseError (Parsed K ts.length) :=
  match value stop ts with
  | .error e => .error e
  | .ok p =>
    match h : p.rest with
    | ⟨.caret, _⟩ :: after =>
      match exponent stop after with
      | .error e => .error e
      | .ok q =>
        .ok ⟨.op .pow p.tree q.tree, q.rest,
          Nat.lt_trans q.rest_lt (p.lt_of_rest_eq_cons h (Nat.le_refl _))⟩
    | _ => .ok p
termination_by 8 * ts.length + 1
decreasing_by
  · omega
  · have := p.lt_of_rest_eq_cons h (Nat.le_refl _); omega

def exponent (stop : Nat) (ts : List PlacedToken) : Except ParseError (Parsed K ts.length) :=
  match power stop ts with
  | .error e => .error e
  | .ok p =>
    if startsValue p.rest then
      match product stop p.rest with
      | .error e => .error e
      | .ok q => .ok ((q.timesAfter p.tree).widen (Nat.le_of_lt p.rest_lt))
    else .ok p
termination_by 8 * ts.length + 2
decreasing_by
  · omega
  · have := p.rest_lt; omega

def product (stop : Nat) (ts : List PlacedToken) : Except ParseError (Parsed K ts.length) :=
  match power stop ts with
  | .error e => .error e
  | .ok p =>
    match productTail stop p.tree p.rest with
    | .error e => .error e
    | .ok q => .ok (q.widen p.rest_lt)
termination_by 8 * ts.length + 3
decreasing_by
  · omega
  · have := p.rest_lt; omega

/-- The factors behind `left`: explicit ones to its right, then at most one implicit product. -/
def productTail (stop : Nat) (left : Expr K) (ts : List PlacedToken) :
    Except ParseError (Parsed K (ts.length + 1)) :=
  match ts with
  | [] => .ok ⟨left, [], Nat.lt_succ_self _⟩
  | t :: rest =>
    match t.token.multiplicative? with
    | some o =>
      match power stop rest with
      | .error e => .error e
      | .ok p =>
        match productTail stop (.op o left p.tree) p.rest with
        | .error e => .error e
        | .ok q => .ok (q.widen (by have := p.rest_lt; simp only [List.length_cons]; omega))
    | none =>
      if t.token.startsValue then
        match product stop (t :: rest) with
        | .error e => .error e
        | .ok q => .ok ((q.timesAfter left).widen (Nat.le_succ _))
      else .ok ⟨left, t :: rest, Nat.lt_succ_self _⟩
termination_by 8 * ts.length + 4
decreasing_by
  · simp only [List.length_cons]; omega
  · have := p.rest_lt; simp only [List.length_cons]; omega
  · omega

def addition (stop : Nat) (ts : List PlacedToken) : Except ParseError (Parsed K ts.length) :=
  match product stop ts with
  | .error e => .error e
  | .ok p =>
    match additionTail stop p.tree p.rest with
    | .error e => .error e
    | .ok q => .ok (q.widen p.rest_lt)
termination_by 8 * ts.length + 5
decreasing_by
  · omega
  · have := p.rest_lt; omega

def additionTail (stop : Nat) (left : Expr K) (ts : List PlacedToken) :
    Except ParseError (Parsed K (ts.length + 1)) :=
  match ts with
  | [] => .ok ⟨left, [], Nat.lt_succ_self _⟩
  | t :: rest =>
    match t.token.additive? with
    | some o =>
      match product stop rest with
      | .error e => .error e
      | .ok p =>
        match additionTail stop (.op o left p.tree) p.rest with
        | .error e => .error e
        | .ok q => .ok (q.widen (by have := p.rest_lt; simp only [List.length_cons]; omega))
    | none => .ok ⟨left, t :: rest, Nat.lt_succ_self _⟩
termination_by 8 * ts.length + 5
decreasing_by
  · simp only [List.length_cons]; omega
  · have := p.rest_lt; simp only [List.length_cons]; omega

def expression (stop : Nat) (ts : List PlacedToken) : Except ParseError (Parsed K ts.length) :=
  match addition stop ts with
  | .error e => .error e
  | .ok p =>
    if startsValue p.rest then
      match expression stop p.rest with
      | .error e => .error e
      | .ok q => .ok ((q.timesAfter p.tree).widen (Nat.le_of_lt p.rest_lt))
    else .ok p
termination_by 8 * ts.length + 6
decreasing_by
  · omega
  · have := p.rest_lt; omega

end

/-- Reads a whole sequence of tokens, with `stop` as the position of the end. -/
def parseTokens (stop : Nat) (ts : List PlacedToken) : Except ParseError (Expr K) :=
  match expression stop ts with
  | .error e => .error e
  | .ok p =>
    match p.rest with
    | [] => .ok p.tree
    | t :: _ => .error (.unexpectedToken t.token t.position)

end Grammar

def parse {K : Type} [Arithmetic K] (source : List Char) : Except ParseError (Expr K) :=
  match Token.tokenize source with
  | .error e => .error e
  | .ok ts => Grammar.parseTokens (byteLength source) ts

end ComplexAlgebra
