import ComplexAlgebra.Proofs.RuleCalls
import Mathlib.Data.Prod.Lex

/-! Simplification ends. A call is smaller than the rule that makes it: it is for a kind of rule
that never calls back, or its operands are smaller, or it is a part of the rule on the same
operands. Trees that other calls have built may be larger than the operands they were built from,
but they only go to such simpler kinds: outcomes of products and quotients are added, outcomes of
powers are multiplied or stay exponents. Hence every call returns, whatever its operands. -/
namespace ComplexAlgebra
namespace Simplification

variable {K : Type}

section Ranks

/-- Sums come below products and quotients, and these below powers. -/
def level : Operator → ℕ
  | .add => 0
  | .sub => 0
  | .mul => 1
  | .div => 1
  | .pow => 2

@[simp] theorem level_additive (negated : Bool) : level (additive negated) = 0 := by
  cases negated <;> rfl

theorem level_lt_three (o : Operator) : level o < 3 := by
  cases o <;> decide

/-- The operands that shrink from call to call. The exponent of a power may grow. -/
def extent (o : Operator) (l r : Expr K) : ℕ :=
  if o = .pow then l.size else l.size + r.size

theorem extent_lt_left (o : Operator) {l l' : Expr K} (r : Expr K) (h : l.size < l'.size) :
    extent o l r < extent o l' r := by
  unfold extent
  split
  · exact h
  · exact Nat.add_lt_add_right h _

def rank (level extent stage : ℕ) : ℕ ×ₗ ℕ ×ₗ ℕ := toLex (level, toLex (extent, stage))

variable {a a' b b' c c' : ℕ}

theorem rank_lt_iff : rank a b c < rank a' b' c' ↔
    a < a' ∨ a = a' ∧ (b < b' ∨ b = b' ∧ c < c') := by
  simp only [rank, Prod.Lex.toLex_lt_toLex]

theorem rank_lt_of_level (h : a < a') : rank a b c < rank a' b' c' :=
  rank_lt_iff.2 (.inl h)

theorem rank_lt_of_extent (ha : a ≤ a') (h : b < b') : rank a b c < rank a' b' c' :=
  rank_lt_iff.2 (ha.lt_or_eq.imp_right fun ha => ⟨ha, .inl h⟩)

theorem rank_lt_of_stage (h : c < c') : rank a b c < rank a b c' :=
  rank_lt_iff.2 (.inr ⟨rfl, .inr ⟨rfl, h⟩⟩)

theorem rank_rest_lt {e : Expr K} {f : Factored K} (h : factored? e = some f) (hb : e.size ≤ b) :
    rank a (1 + f.rest.size) c < rank a b c' := by
  have hsize := size_of_factored? h
  exact rank_lt_of_extent (Nat.le_refl a) (by omega)

end Ranks

/-- The kind of the rule, the size of its operands, and how much of the rule is still to come. -/
def RuleCall.measure : RuleCall K → ℕ ×ₗ ℕ ×ₗ ℕ
  | sum _ l r => rank 0 (l.size + r.size) 0
  | rebuild s => rank 0 (s.rest.size + 1) 1
  | multiply l r => rank 1 (l.size + r.size) 1
  | divide l r => rank 1 (l.size + r.size) 1
  | distribute o l r => rank (max 1 (level o)) (extent o l r) 0
  | regroupProduct constant other => rank 1 (constant.size + other.size) 0
  | regroupQuotient other _ => rank 1 (other.size + 1) 0
  | power base _ => rank 2 base.size 0
  | operation o l r => rank (level o) (extent o l r) 2
  | simplify _ e => rank 3 e.size 0

theorem RuleCall.wellFounded_measure :
    WellFounded fun c' c : RuleCall K => c'.measure < c.measure :=
  InvImage.wf measure wellFounded_lt

namespace Body

/-- Every call is smaller than `c`. -/
def Below {α : Type} (c : RuleCall K) (b : Body K α) : Prop :=
  b.AllCalls fun c' => c'.measure < c.measure

variable [Arithmetic K] (l r : Expr K)

theorem below_sum (negated : Bool) : (sum negated l r).Below (.sum negated l r) := by
  unfold sum
  split
  · trivial
  · split
    · next s h => exact ⟨rank_lt_of_extent (Nat.le_refl 0) (size_of_regrouped? h), fun _ => trivial⟩
    · trivial

omit [Arithmetic K] in
theorem below_rebuild (s : Split K) : (rebuild s).Below (.rebuild s) := by
  unfold rebuild
  split
  · refine ⟨?_, fun _ => trivial⟩
    rw [RuleCall.measure, Nat.add_comm]
    exact rank_lt_of_stage Nat.one_pos
  · exact ⟨rank_lt_of_stage Nat.one_pos, fun _ => trivial⟩

theorem below_multiply : (multiply l r).Below (.multiply l r) := by
  have hswapped : (RuleCall.regroupProduct r l).measure < (RuleCall.multiply l r).measure := by
    rw [RuleCall.measure, Nat.add_comm]
    exact rank_lt_of_stage Nat.one_pos
  unfold multiply
  split
  · trivial
  · exact ⟨rank_lt_of_stage Nat.one_pos, allCalls_otherwise
      ⟨rank_lt_of_stage Nat.one_pos, allCalls_otherwise
        ⟨hswapped, allCalls_otherwise trivial⟩⟩⟩

theorem below_divide : (divide l r).Below (.divide l r) := by
  unfold divide
  split
  · trivial
  · refine ⟨rank_lt_of_stage Nat.one_pos, allCalls_otherwise ?_⟩
    cases r with
    | constant k => exact ⟨rank_lt_of_stage Nat.one_pos, allCalls_otherwise trivial⟩
    | var name c => trivial
    | op o a b => trivial

omit [Arithmetic K] in
/-- The operands of the sum are smaller than the sum. What the calls on them return may be of any
size, but it is only added. -/
theorem below_distribute (o : Operator) : (distribute o l r).Below (.distribute o l r) := by
  have hsum (negated : Bool) (x y : Expr K) :
      (RuleCall.operation (additive negated) x y).measure <
        (RuleCall.distribute o l r).measure := by
    refine rank_lt_of_level ?_
    rw [level_additive]
    exact Nat.lt_of_lt_of_le Nat.one_pos (Nat.le_max_left ..)
  unfold distribute
  split
  · next negated a b h =>
    have hsize := size_of_distributable? h
    have hoperand {x : Expr K} (hx : x.size < l.size) :
        (RuleCall.operation o x r).measure < (RuleCall.distribute o l r).measure :=
      rank_lt_of_extent (Nat.le_max_right ..) (extent_lt_left o r hx)
    exact ⟨hoperand (by omega), fun x => ⟨hoperand (by omega), fun y =>
      ⟨hsum negated x y, fun _ => trivial⟩⟩⟩
  · split
    · next ho =>
      subst ho
      split
      · next negated a b h =>
        have hsize := size_of_distributable? h
        have hoperand {x : Expr K} (hx : x.size < r.size) :
            (RuleCall.multiply l x).measure < (RuleCall.distribute .mul l r).measure :=
          rank_lt_of_extent (Nat.le_max_left ..) (Nat.add_lt_add_left hx _)
        exact ⟨hoperand (by omega), fun x => ⟨hoperand (by omega), fun y =>
          ⟨hsum negated x y, fun _ => trivial⟩⟩⟩
      · trivial
    · trivial

/-- So the size of the operands alone would not do: two products may be added that have more nodes
than what was distributed. -/
example :
    let square (name : Char) : Expr FloatNumber := .op .pow (.var name 1) (.number Arithmetic.two)
    let z : Expr FloatNumber := .var 'z' 1
    z.size + (Expr.op .add (square 'x') (square 'y')).size = 8 ∧
      (Simplification.multiply z (square 'x')).size +
        (Simplification.multiply z (square 'y')).size = 10 := by
  decide +kernel

theorem below_regroupProduct : (regroupProduct l r).Below (.regroupProduct l r) := by
  have hsize : r.size ≤ l.size + r.size := Nat.le_add_left ..
  unfold regroupProduct
  split
  · next h => exact ⟨rank_rest_lt h hsize, fun _ => trivial⟩
  · next h => exact ⟨rank_rest_lt h hsize, fun _ => trivial⟩
  · next h => exact ⟨rank_rest_lt h hsize, fun _ => trivial⟩
  · trivial

theorem below_regroupQuotient (k : Value K) :
    (regroupQuotient l k).Below (.regroupQuotient l k) := by
  have hsize : l.size ≤ l.size + 1 := Nat.le_succ _
  unfold regroupQuotient
  split
  · next h => exact ⟨rank_rest_lt h hsize, fun _ => trivial⟩
  · next rest c h =>
    have hrest : rank 1 (1 + rest.size) 1 < (RuleCall.regroupQuotient l k).measure :=
      rank_rest_lt h hsize
    rw [Nat.add_comm] at hrest
    exact ⟨hrest, fun _ => trivial⟩
  · next h => exact ⟨rank_rest_lt h hsize, fun _ => trivial⟩
  · trivial

/-- An exponent goes to the operands of the base. It may grow on the way, and so may the powers
that are multiplied. -/
theorem below_power : (power l r).Below (.power l r) := by
  unfold power
  split
  · trivial
  · split
    · trivial
    · cases l with
      | constant v => trivial
      | var name c =>
        dsimp only
        split
        · trivial
        · cases r with
          | constant w => exact ⟨rank_lt_of_level Nat.one_lt_two, fun _ => trivial⟩
          | var other d => trivial
          | op o a b => trivial
      | op o a b =>
        have hsize : (Expr.op o a b).size = a.size + b.size + 1 := rfl
        have hleft (e : Expr K) :
            (RuleCall.power a e).measure < (RuleCall.power (.op o a b) r).measure :=
          rank_lt_of_extent (Nat.le_refl 2) (by omega)
        have hright (e : Expr K) :
            (RuleCall.power b e).measure < (RuleCall.power (.op o a b) r).measure :=
          rank_lt_of_extent (Nat.le_refl 2) (by omega)
        cases o with
        | add => trivial
        | sub => trivial
        | mul =>
          exact ⟨hleft r, fun x => ⟨hright r, fun y =>
            ⟨rank_lt_of_level Nat.one_lt_two, fun _ => trivial⟩⟩⟩
        | div =>
          exact ⟨hleft r, fun x => ⟨hright r, fun y =>
            ⟨rank_lt_of_level Nat.one_lt_two, fun _ => trivial⟩⟩⟩
        | pow =>
          exact ⟨rank_lt_of_level Nat.one_lt_two, fun x => ⟨hleft x, fun _ => trivial⟩⟩

omit [Arithmetic K] in
theorem below_operation (o : Operator) : (operation o l r).Below (.operation o l r) := by
  cases o with
  | add => exact ⟨rank_lt_of_stage Nat.two_pos, fun _ => trivial⟩
  | sub => exact ⟨rank_lt_of_stage Nat.two_pos, fun _ => trivial⟩
  | mul => exact ⟨rank_lt_of_stage Nat.one_lt_two, fun _ => trivial⟩
  | div => exact ⟨rank_lt_of_stage Nat.one_lt_two, fun _ => trivial⟩
  | pow => exact ⟨rank_lt_of_stage Nat.two_pos, fun _ => trivial⟩

theorem below_simplify (s : Scope K) (e : Expr K) : (simplify s e).Below (.simplify s e) := by
  cases e with
  | constant v => trivial
  | var name c =>
    dsimp only [simplify]
    split <;> trivial
  | op o l r =>
    have hsize : (Expr.op o l r).size = l.size + r.size + 1 := rfl
    exact ⟨rank_lt_of_extent (Nat.le_refl 3) (by omega), fun x =>
      ⟨rank_lt_of_extent (Nat.le_refl 3) (by omega), fun y =>
        ⟨rank_lt_of_level (level_lt_three o), fun _ => trivial⟩⟩⟩

end Body

variable [Arithmetic K]

theorem RuleCall.below_body (c : RuleCall K) : c.body.Below c := by
  cases c with
  | sum negated l r => exact Body.below_sum l r negated
  | rebuild s => exact Body.below_rebuild s
  | multiply l r => exact Body.below_multiply l r
  | divide l r => exact Body.below_divide l r
  | distribute o l r => exact Body.below_distribute l r o
  | regroupProduct constant other => exact Body.below_regroupProduct constant other
  | regroupQuotient other k => exact Body.below_regroupQuotient other k
  | power base exponent => exact Body.below_power base exponent
  | operation o l r => exact Body.below_operation l r o
  | simplify s e => exact Body.below_simplify s e

/-- `b.Finishes a`: the body has the result `a`, and every call it makes until then is itself
followed to its end. -/
inductive Body.Finishes : {α : Type} → Body K α → α → Prop
  | result {α : Type} (a : α) : Finishes (.result a) a
  | call {α : Type} {c : RuleCall K} {next : c.Answer → Body K α} {x : c.Answer} {a : α}
      (hx : Finishes c.body x) (ha : Finishes (next x) a) : Finishes (.call c next) a

/-- The call ends, with the answer `a`. -/
def RuleCall.Returns (c : RuleCall K) (a : c.Answer) : Prop := c.body.Finishes a

section Finishes

variable {α : Type} {b : Body K α}

theorem Body.Finishes.eq_run {a : α} (h : b.Finishes a) : a = b.run RuleCall.value := by
  induction h with
  | result a => rfl
  | @call α c next x a hx ha ihx iha =>
    rw [RuleCall.run_body] at ihx
    subst ihx
    exact iha

theorem Body.finishes_run (h : b.AllCalls fun c => c.Returns c.value) :
    b.Finishes (b.run RuleCall.value) := by
  induction b with
  | result a => exact .result a
  | call c next ih => exact .call h.1 (ih c.value (h.2 c.value))

theorem RuleCall.returns_value (c : RuleCall K) : c.Returns c.value := by
  -- The equation `run_body` alone would not do: it also holds of a rule that only calls itself.
  -- The calls of the body return because they are smaller.
  induction c using wellFounded_measure.induction with
  | _ c ih =>
    have hcalls : c.body.AllCalls fun c' => c'.Returns c'.value := c.below_body.mono ih
    have hfinishes := Body.finishes_run hcalls
    rwa [c.run_body] at hfinishes

theorem RuleCall.returns_iff (c : RuleCall K) (a : c.Answer) : c.Returns a ↔ a = c.value := by
  constructor
  · intro h
    rw [h.eq_run, c.run_body]
  · rintro rfl
    exact c.returns_value

end Finishes

/-- The measure of calls is well-founded, and every call a rule makes is smaller than the rule,
whatever the calls before it have returned. The functions for the rules do what the rules do, and so
each call returns, with what its function says; in particular simplification ends on every
expression in every scope. -/
theorem simplification_terminates :
    (WellFounded fun c' c : RuleCall K => c'.measure < c.measure) ∧
    (∀ c : RuleCall K, c.body.AllCalls fun c' => c'.measure < c.measure) ∧
    (∀ c : RuleCall K, c.body.run RuleCall.value = c.value) ∧
    (∀ (c : RuleCall K) (a : c.Answer), c.Returns a ↔ a = c.value) ∧
    ∀ (s : Scope K) (e a : Expr K), (RuleCall.simplify s e).Returns a ↔ a = s.simplify e := by
  refine ⟨RuleCall.wellFounded_measure, ?_, RuleCall.run_body, RuleCall.returns_iff, ?_⟩
  · intro c
    exact c.below_body
  · intro s e a
    exact RuleCall.returns_iff (.simplify s e) a

end Simplification
end ComplexAlgebra
