import ComplexAlgebra.Simplification

/-! The rules of simplification as trees of calls. What a rule does is taken apart into the rules it
calls and what it goes on with behind each answer, whatever the answer is; nothing is called while
the tree is made. Answered by the functions for the rules, each tree comes to what the function for
its own rule returns. -/
namespace ComplexAlgebra
namespace Simplification

variable {K : Type}

/-- A rule and the operands it is called on. -/
inductive RuleCall (K : Type) where
  | sum (negated : Bool) (l r : Expr K)
  /-- puts a joined constant back to the rest of a sum -/
  | rebuild (s : Split K)
  | multiply (l r : Expr K)
  | divide (l r : Expr K)
  | distribute (o : Operator) (l r : Expr K)
  | regroupProduct (constant other : Expr K)
  | regroupQuotient (other : Expr K) (k : Value K)
  | power (base exponent : Expr K)
  | operation (o : Operator) (l r : Expr K)
  | simplify (s : Scope K) (e : Expr K)

/-- Distribution and regrouping may find that they do not apply. -/
@[reducible] def RuleCall.Answer : RuleCall K → Type
  | distribute .. => Option (Expr K)
  | regroupProduct .. => Option (Expr K)
  | regroupQuotient .. => Option (Expr K)
  | _ => Expr K

/-- What a rule does: it has a result, or it makes a call and goes on with the answer. -/
inductive Body (K : Type) (α : Type) where
  | result (a : α)
  | call (c : RuleCall K) (next : c.Answer → Body K α)

namespace Body

variable {α : Type} {P Q : RuleCall K → Prop} {b : Body K α}

/-- Every call has the property, whatever the calls before it return. -/
def AllCalls (P : RuleCall K → Prop) : Body K α → Prop
  | result _ => True
  | call c next => P c ∧ ∀ a, (next a).AllCalls P

theorem AllCalls.mono (h : b.AllCalls P) (hPQ : ∀ c, P c → Q c) : b.AllCalls Q := by
  induction b with
  | result a => trivial
  | call c next ih => exact ⟨hPQ c h.1, fun a => ih a (h.2 a)⟩

/-- The result if each call is answered by a given function. -/
def run (answer : (c : RuleCall K) → c.Answer) : Body K α → α
  | result a => a
  | call c next => (next (answer c)).run answer

/-- Goes on only where there is no answer. -/
def otherwise (b : Body K α) : Option α → Body K α
  | some a => result a
  | none => b

theorem allCalls_otherwise (h : b.AllCalls P) (a : Option α) : (b.otherwise a).AllCalls P := by
  cases a with
  | some a => trivial
  | none => exact h

theorem run_otherwise (answer : (c : RuleCall K) → c.Answer) (b : Body K α) (a : Option α) :
    (b.otherwise a).run answer = a.getD (b.run answer) := by
  cases a <;> rfl

variable [Arithmetic K]

def sum (negated : Bool) (l r : Expr K) : Body K (Expr K) :=
  match sumAtOnce? negated l r with
  | some e => result e
  | none =>
    match regrouped? negated l r with
    | some s => call (.rebuild s) result
    | none => result (.op (additive negated) l r)

def rebuild (s : Split K) : Body K (Expr K) :=
  if s.restNegated then call (.sum true (.constant s.constant) s.rest) result
  else call (.sum false s.rest (.constant s.constant)) result

def multiply (l r : Expr K) : Body K (Expr K) :=
  match productAtOnce? l r with
  | some e => result e
  | none =>
    call (.distribute .mul l r) <| otherwise <| call (.regroupProduct l r) <| otherwise <|
      call (.regroupProduct r l) <| otherwise <| result (.op .mul l r)

def divide (l r : Expr K) : Body K (Expr K) :=
  match quotientAtOnce? l r with
  | some e => result e
  | none =>
    call (.distribute .div l r) <| otherwise <|
      match r with
      | .constant k => call (.regroupQuotient l k) <| otherwise <| result (.op .div l r)
      | _ => result (.op .div l r)

/-- The operands of a sum are taken one by one, and what comes of them is added or subtracted. -/
def distribute (o : Operator) (l r : Expr K) : Body K (Option (Expr K)) :=
  match distributable? l r with
  | some (negated, a, b) =>
    call (.operation o a r) fun x => call (.operation o b r) fun y =>
      call (.operation (additive negated) x y) fun e => result (some e)
  | none =>
    if o = .mul then
      match distributable? r l with
      | some (negated, a, b) =>
        call (.multiply l a) fun x => call (.multiply l b) fun y =>
          call (.operation (additive negated) x y) fun e => result (some e)
      | none => result none
    else result none

def regroupProduct (constant other : Expr K) : Body K (Option (Expr K)) :=
  match constant.constant?, factored? other with
  | some c, some (.times k rest) =>
    call (.multiply (.constant (Operator.mul.combine c k)) rest) fun e => result (some e)
  | some c, some (.dividend rest k) =>
    call (.multiply (.constant (Operator.div.combine c k)) rest) fun e => result (some e)
  | some c, some (.divisor k rest) =>
    call (.divide (.constant (Operator.mul.combine c k)) rest) fun e => result (some e)
  | _, _ => result none

def regroupQuotient (other : Expr K) (k : Value K) : Body K (Option (Expr K)) :=
  match factored? other with
  | some (.times c rest) =>
    call (.multiply (.constant (Operator.div.combine c k)) rest) fun e => result (some e)
  | some (.dividend rest c) =>
    call (.divide rest (.constant (Operator.mul.combine c k))) fun e => result (some e)
  | some (.divisor c rest) =>
    call (.divide (.constant (Operator.div.combine c k)) rest) fun e => result (some e)
  | none => result none

def power (base exponent : Expr K) : Body K (Expr K) :=
  if exponent.isNumber 0 then result (.number 1)
  else if exponent.isNumber 1 then result base
  else
    match base with
    | .constant v => result (powerOfConstant v exponent)
    | .var name c =>
      if c == 1 then result (.op .pow (.var name c) exponent)
      else
        match exponent with
        | .constant w =>
          call (.multiply (.constant (Operator.pow.combine (.scalar c) w))
            (.op .pow (.var name 1) (.constant w))) result
        | exponent => result (.op .pow (.var name c) exponent)
    | .op .mul l r =>
      call (.power l exponent) fun x => call (.power r exponent) fun y =>
        call (.multiply x y) result
    | .op .div l r =>
      call (.power l exponent) fun x => call (.power r exponent) fun y =>
        call (.divide x y) result
    | .op .pow l r => call (.multiply r exponent) fun x => call (.power l x) result
    | base => result (.op .pow base exponent)

def operation (o : Operator) (l r : Expr K) : Body K (Expr K) :=
  match o with
  | .add => call (.sum false l r) result
  | .sub => call (.sum true l r) result
  | .mul => call (.multiply l r) result
  | .div => call (.divide l r) result
  | .pow => call (.power l r) result

def simplify (s : Scope K) : Expr K → Body K (Expr K)
  | .constant v => result (.constant v)
  | .var name c =>
    match s.get? name with
    | some v => result (.constant (v.map (· * c)))
    | none => result (.var name c)
  | .op o l r =>
    call (.simplify s l) fun x => call (.simplify s r) fun y => call (.operation o x y) result

end Body

variable [Arithmetic K]

def RuleCall.body : (c : RuleCall K) → Body K c.Answer
  | sum negated l r => Body.sum negated l r
  | rebuild s => Body.rebuild s
  | multiply l r => Body.multiply l r
  | divide l r => Body.divide l r
  | distribute o l r => Body.distribute o l r
  | regroupProduct constant other => Body.regroupProduct constant other
  | regroupQuotient other k => Body.regroupQuotient other k
  | power base exponent => Body.power base exponent
  | operation o l r => Body.operation o l r
  | simplify s e => Body.simplify s e

section Values

def rebuilt (s : Split K) : Expr K :=
  if s.restNegated then sum true (.constant s.constant) s.rest
  else sum false s.rest (.constant s.constant)

def distributed? (o : Operator) (l r : Expr K) : Option (Expr K) :=
  match distributable? l r with
  | some (negated, a, b) => some (sum negated (operation o a r) (operation o b r))
  | none =>
    if o = .mul then
      (distributable? r l).map fun (negated, a, b) => sum negated (multiply l a) (multiply l b)
    else none

def timesFactored (c : Value K) : Factored K → Expr K
  | .times k rest => multiply (.constant (Operator.mul.combine c k)) rest
  | .dividend rest k => multiply (.constant (Operator.div.combine c k)) rest
  | .divisor k rest => divide (.constant (Operator.mul.combine c k)) rest

def factoredOver (k : Value K) : Factored K → Expr K
  | .times c rest => multiply (.constant (Operator.div.combine c k)) rest
  | .dividend rest c => divide rest (.constant (Operator.mul.combine c k))
  | .divisor c rest => divide (.constant (Operator.div.combine c k)) rest

def regroupedProduct? (constant other : Expr K) : Option (Expr K) :=
  constant.constant?.bind fun c => (factored? other).map (timesFactored c)

def regroupedQuotient? (other : Expr K) (k : Value K) : Option (Expr K) :=
  (factored? other).map (factoredOver k)

/-- What the function for the rule returns. -/
def RuleCall.value : (c : RuleCall K) → c.Answer
  | sum negated l r => Simplification.sum negated l r
  | rebuild s => rebuilt s
  | multiply l r => Simplification.multiply l r
  | divide l r => Simplification.divide l r
  | distribute o l r => distributed? o l r
  | regroupProduct constant other => regroupedProduct? constant other
  | regroupQuotient other k => regroupedQuotient? other k
  | power base exponent => Simplification.power base exponent
  | operation o l r => Simplification.operation o l r
  | simplify s e => s.simplify e

variable {l r : Expr K}

theorem regroupedProduct?_or (l r : Expr K) :
    (regroupedProduct? l r).or (regroupedProduct? r l) =
      (pairing? l r).map fun (c, f) => timesFactored c f := by
  cases l <;> cases r <;>
    simp [regroupedProduct?, pairing?, Expr.constant?, factored?, Function.comp_def]

theorem constant?_bind_regroupedQuotient? (l r : Expr K) :
    r.constant?.bind (regroupedQuotient? l) =
      (dividing? l r).map fun (k, f) => factoredOver k f := by
  cases r <;> simp [regroupedQuotient?, dividing?, Expr.constant?, Function.comp_def]

theorem multiply_eq (h : productAtOnce? l r = none) :
    multiply l r = (distributed? .mul l r).getD
      (((regroupedProduct? l r).or (regroupedProduct? r l)).getD (.op .mul l r)) := by
  rw [regroupedProduct?_or, multiply]
  simp only [h]
  split
  · next hl => simp [distributed?, hl, operation]
  · next hl =>
    split
    · next hr => simp [distributed?, hl, hr]
    · next hr =>
      have hnone : distributed? .mul l r = none := by simp [distributed?, hl, hr]
      rw [hnone, Option.getD_none]
      split
      · next hp => simp [hp, timesFactored]
      · next hp => simp [hp, timesFactored]
      · next hp => simp [hp, timesFactored]
      · next hp => simp [hp]

theorem divide_eq (h : quotientAtOnce? l r = none) :
    divide l r = (distributed? .div l r).getD
      ((r.constant?.bind (regroupedQuotient? l)).getD (.op .div l r)) := by
  rw [constant?_bind_regroupedQuotient?, divide]
  simp only [h]
  split
  · next hl => simp [distributed?, hl, operation]
  · next hl =>
    have hnone : distributed? .div l r = none := by simp [distributed?, hl]
    rw [hnone, Option.getD_none]
    split
    · next hd => simp [hd, factoredOver]
    · next hd => simp [hd, factoredOver]
    · next hd => simp [hd, factoredOver]
    · next hd => simp [hd]

end Values

namespace Body

open RuleCall (value)

variable (l r : Expr K)

theorem run_sum (negated : Bool) :
    (sum negated l r).run value = Simplification.sum negated l r := by
  rw [sum, Simplification.sum]
  cases sumAtOnce? negated l r with
  | some e => rfl
  | none => cases regrouped? negated l r <;> rfl

theorem run_rebuild (s : Split K) : (rebuild s).run value = rebuilt s := by
  unfold rebuild rebuilt
  split <;> rfl

theorem run_multiply : (multiply l r).run value = Simplification.multiply l r := by
  unfold multiply
  split
  · next h => rw [Simplification.multiply, h]; rfl
  · next h =>
    rw [multiply_eq h, Option.getD_or]
    simp only [run, run_otherwise, value]

theorem run_divide : (divide l r).run value = Simplification.divide l r := by
  unfold divide
  split
  · next h => rw [Simplification.divide, h]; rfl
  · next h =>
    rw [divide_eq h, run, run_otherwise]
    cases r with
    | constant k => simp only [run, run_otherwise, value, Expr.constant?, Option.bind_some]
    | var name c => rfl
    | op o a b => rfl

theorem run_distribute (o : Operator) : (distribute o l r).run value = distributed? o l r := by
  have hsum (negated : Bool) : Simplification.operation (K := K) (additive negated) =
      Simplification.sum negated := by
    cases negated <;> rfl
  unfold distribute distributed?
  split
  · simp only [run, value, hsum]
  · split
    · split
      · next h => simp only [run, value, hsum, h, Option.map_some]
      · next h => simp only [run, h, Option.map_none]
    · rfl

theorem run_regroupProduct : (regroupProduct l r).run value = regroupedProduct? l r := by
  unfold regroupProduct regroupedProduct?
  cases l.constant? with
  | none => rfl
  | some c =>
    cases factored? r with
    | none => rfl
    | some f => cases f <;> rfl

theorem run_regroupQuotient (k : Value K) :
    (regroupQuotient l k).run value = regroupedQuotient? l k := by
  unfold regroupQuotient regroupedQuotient?
  cases factored? l with
  | none => rfl
  | some f => cases f <;> rfl

theorem run_power : (power l r).run value = Simplification.power l r := by
  unfold power
  rw [Simplification.power.eq_def]
  split
  · rfl
  · split
    · rfl
    · cases l with
      | constant v => rfl
      | var name c =>
        dsimp only [powerOfVariable]
        split
        · rfl
        · cases r <;> rfl
      | op o a b => cases o <;> rfl

theorem run_operation (o : Operator) :
    (operation o l r).run value = Simplification.operation o l r := by
  cases o <;> rfl

theorem run_simplify (s : Scope K) (e : Expr K) : (simplify s e).run value = s.simplify e := by
  cases e with
  | constant v => rfl
  | var name c =>
    dsimp only [simplify, Scope.simplify]
    cases s.get? name <;> rfl
  | op o l r => rfl

end Body

/-- The functions for the rules answer the calls of each rule in such a way that its result is
their own. -/
theorem RuleCall.run_body (c : RuleCall K) : c.body.run value = c.value := by
  cases c with
  | sum negated l r => exact Body.run_sum l r negated
  | rebuild s => exact Body.run_rebuild s
  | multiply l r => exact Body.run_multiply l r
  | divide l r => exact Body.run_divide l r
  | distribute o l r => exact Body.run_distribute l r o
  | regroupProduct constant other => exact Body.run_regroupProduct constant other
  | regroupQuotient other k => exact Body.run_regroupQuotient other k
  | power base exponent => exact Body.run_power base exponent
  | operation o l r => exact Body.run_operation l r o
  | simplify s e => exact Body.run_simplify s e

end Simplification
end ComplexAlgebra
