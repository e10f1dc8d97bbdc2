import ComplexAlgebra.Proofs.ErrorPosition

/-! The token that a rule of the grammar leaves behind. A product stops only where nothing can
continue it, and a sum only where no summand follows either, so the juxtaposition that an expression
allows behind a sum is never found: an expression is a sum. -/
namespace ComplexAlgebra
namespace Grammar

variable {K : Type} {n : Nat}

/-- What the rule for values makes of the tree it has read behind an opening bracket. -/
def closed (stop : Nat) (bracket : Bracket) :
    Except ParseError (Parsed K n) → Except ParseError (Parsed K (n + 1))
  | .error e => .error e
  | .ok p =>
    match h : p.rest with
    | t :: after =>
      if t.token = .closing bracket then
        .ok ⟨p.tree, after, p.lt_of_rest_eq_cons h (Nat.le_succ n)⟩
      else .error (.unclosed bracket t.position)
    | [] => .error (.unclosed bracket stop)

/-- What the parser makes of the tree it has read from all the tokens. -/
def completed : Except ParseError (Parsed K n) → Except ParseError (Expr K)
  | .error e => .error e
  | .ok p =>
    match p.rest with
    | [] => .ok p.tree
    | t :: _ => .error (.unexpectedToken t.token t.position)

variable [Arithmetic K]

section Stops

variable {stop : Nat} {ts : List PlacedToken} {p : Parsed K ts.length}

theorem ends_of_product (h : product stop ts = .ok p) : Ends (p.rest.map (·.token)) :=
  leaves_of_derives (derives_product stop ts h)

theorem ends_of_addition (h : addition stop ts = .ok p) :
    Ends (p.rest.map (·.token)) ∧
      ∀ t after, p.rest.map (·.token) = t :: after → t.additive? = none :=
  leaves_of_derives (derives_addition stop ts h)

theorem startsValue_of_addition (h : addition stop ts = .ok p) : startsValue p.rest = false :=
  Bool.eq_false_iff.2 (mt (startsValue_iff p.rest).1 (ends_of_addition h).1.no_value)

end Stops

section Replacement

variable (stop : Nat) (ts : List PlacedToken)

theorem value_opening (bracket : Bracket) (position : Nat) :
    value (K := K) stop (⟨.opening bracket, position⟩ :: ts) =
      closed stop bracket (expression stop ts) := by
  rw [value]
  cases expression (K := K) stop ts <;> rfl

theorem parseTokens_eq_completed :
    parseTokens (K := K) stop ts = completed (expression stop ts) := by
  rw [parseTokens]
  cases expression (K := K) stop ts <;> rfl

/-- The product of a sum and an expression behind it is never read. -/
theorem expression_eq_addition : expression (K := K) stop ts = addition stop ts := by
  rw [expression]
  cases h : addition (K := K) stop ts with
  | error e => rfl
  | ok p => simp [startsValue_of_addition h]

/-- A product takes tokens from the front, and the next one behind it is no factor's operator, no
caret and no beginning of a value; behind a sum it does not begin a summand either. So sums can take
the place of expressions wherever these are read: within brackets, and from all the tokens. -/
theorem ends_of_product_and_addition :
    (∀ p : Parsed K ts.length, product stop ts = .ok p →
      p.rest <:+ ts ∧ p.rest.length < ts.length ∧ Ends (p.rest.map (·.token))) ∧
    (∀ p : Parsed K ts.length, addition stop ts = .ok p →
      p.rest <:+ ts ∧ p.rest.length < ts.length ∧ Ends (p.rest.map (·.token)) ∧
        (∀ t after, p.rest.map (·.token) = t :: after → t.additive? = none) ∧
        startsValue p.rest = false) ∧
    expression (K := K) stop ts = addition stop ts ∧
    (∀ bracket position, value (K := K) stop (⟨.opening bracket, position⟩ :: ts) =
      closed stop bracket (addition stop ts)) ∧
    parseTokens (K := K) stop ts = completed (addition stop ts) := by
  have heq := expression_eq_addition (K := K) stop ts
  refine ⟨fun p hp => ?_, fun p hp => ?_, heq, fun bracket position => ?_, ?_⟩
  · exact ⟨(reports_product stop ts).ok hp, p.rest_lt, ends_of_product hp⟩
  · obtain ⟨hends, hsummand⟩ := ends_of_addition hp
    exact ⟨(reports_addition stop ts).ok hp, p.rest_lt, hends, hsummand,
      startsValue_of_addition hp⟩
  · rw [value_opening, heq]
  · rw [parseTokens_eq_completed, heq]

/-- In `xy+z` the product stops at the plus sign, and the sum takes everything. -/
theorem ends_of_product_and_addition_letters :
    let ts : List PlacedToken := [⟨.letter 'x', 0⟩, ⟨.letter 'y', 1⟩, ⟨.plus, 2⟩, ⟨.letter 'z', 3⟩]
    (∃ p : Parsed FloatNumber ts.length, product 4 ts = .ok p ∧
      p.rest = [⟨.plus, 2⟩, ⟨.letter 'z', 3⟩] ∧ Ends (p.rest.map (·.token))) ∧
    ∃ p : Parsed FloatNumber ts.length, addition 4 ts = .ok p ∧
      p.rest = [] ∧ Ends (p.rest.map (·.token)) ∧ expression 4 ts = .ok p := by
  intro ts
  obtain ⟨hproduct, haddition, hexpression, -, -⟩ :=
    ends_of_product_and_addition (K := FloatNumber) 4 ts
  have hp : product (K := FloatNumber) 4 ts =
      .ok ⟨.op .mul (.var 'x' 1) (.var 'y' 1), [⟨.plus, 2⟩, ⟨.letter 'z', 3⟩], by decide⟩ := by
    cbv
  have hq : addition (K := FloatNumber) 4 ts =
      .ok ⟨.op .add (.op .mul (.var 'x' 1) (.var 'y' 1)) (.var 'z' 1), [], by decide⟩ := by
    cbv
  exact ⟨⟨_, hp, rfl, (hproduct _ hp).2.2⟩, _, hq, rfl, (haddition _ hq).2.2.1,
    hexpression.trans hq⟩

end Replacement

end Grammar
end ComplexAlgebra
