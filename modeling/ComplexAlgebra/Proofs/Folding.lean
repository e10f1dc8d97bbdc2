import Mathlib
import ComplexAlgebra.Proofs.Choices
import ComplexAlgebra.Proofs.Inheritance

/-! Simplification replaces all bound variables and folds all constants: an operation that is left
over has a variable in one of its operands, and that variable is unbound. An isolation therefore
never lacks the value of its known side and never comes to an operation on two constants, so an
equation fails for its text or for its unknown, not for an unbound variable. -/
namespace ComplexAlgebra

variable {K : Type} [Arithmetic K]

namespace Expr

/-- `x.Inside e`: the expression `x` is `e` or a part of it. -/
inductive Inside : Expr K → Expr K → Prop
  | refl (e : Expr K) : Inside e e
  | left {x l : Expr K} (o : Operator) (r : Expr K) (h : Inside x l) : Inside x (.op o l r)
  | right {x r : Expr K} (o : Operator) (l : Expr K) (h : Inside x r) : Inside x (.op o l r)

omit [Arithmetic K] in
theorem exists_inside_of_containsVariable {e : Expr K} (h : e.containsVariable = true) :
    ∃ name c, (var name c).Inside e := by
  induction e with
  | constant v => cases h
  | var name c => exact ⟨name, c, .refl _⟩
  | op o l r ihl ihr =>
    rcases Bool.or_eq_true_iff.1 h with h | h
    · obtain ⟨name, c, hl⟩ := ihl h
      exact ⟨name, c, .left o r hl⟩
    · obtain ⟨name, c, hr⟩ := ihr h
      exact ⟨name, c, .right o l hr⟩

/-- Every operation has a variable in one of its operands. -/
def Folded : Expr K → Prop
  | constant _ => True
  | var _ _ => True
  | op _ l r => l.Folded ∧ r.Folded ∧ (l.containsVariable = true ∨ r.containsVariable = true)

omit [Arithmetic K] in
theorem Folded.eq_constant {e : Expr K} (h : e.Folded) (hclosed : e.containsVariable = false) :
    ∃ v, e = .constant v := by
  cases e with
  | constant v => exact ⟨v, rfl⟩
  | var name c => cases hclosed
  | op o l r => exact absurd (Bool.or_eq_true_iff.2 h.2.2) (Bool.eq_false_iff.1 hclosed)

omit [Arithmetic K] in
theorem Folded.inside {x e : Expr K} (he : e.Folded) (h : x.Inside e) : x.Folded := by
  induction h with
  | refl => exact he
  | left _ _ _ ih => exact ih he.1
  | right _ _ _ ih => exact ih he.2.1

omit [Arithmetic K] in
theorem Folded.containsVariable_op {o : Operator} {l r : Expr K} (h : (op o l r).Folded) :
    (op o l r).containsVariable = true :=
  Bool.or_eq_true_iff.2 h.2.2

end Expr

namespace Simplification

open ComplexAlgebra.Expr

theorem folded_collected (name : Char) (c : K) : (collected name c).Folded := by
  unfold collected
  split <;> trivial

theorem folded_scaled (k : K) {e : Expr K} (he : e.Folded) (hvar : e.containsVariable = true) :
    (scaled k e).Folded := by
  unfold scaled
  split
  · exact he
  · exact ⟨trivial, he, .inr hvar⟩

theorem folded_productAtOnce? {l r e : Expr K} (hl : l.Folded) (hr : r.Folded)
    (h : productAtOnce? l r = some e) : e.Folded := by
  unfold productAtOnce? at h
  split at h
  · cases h
    trivial
  · split at h
    · cases h
      exact folded_scaled _ ⟨trivial, trivial, .inl rfl⟩ rfl
    · cases h
      exact folded_scaled _ ⟨trivial, trivial, .inl rfl⟩ rfl
  · split at h
    · cases h
      exact hr
    · split at h
      · cases h
        exact hl
      · split at h
        · cases h
          trivial
        · split at h <;> cases h <;> trivial

theorem folded_quotientAtOnce? {l r e : Expr K} (hl : l.Folded)
    (h : quotientAtOnce? l r = some e) : e.Folded := by
  unfold quotientAtOnce? at h
  split at h
  · cases h
    trivial
  · split at h
    · cases h
      trivial
    · cases h
      exact folded_scaled _ ⟨trivial, trivial, .inl rfl⟩ rfl
  · split at h
    · cases h
      exact hl
    · split at h <;> cases h
      trivial

theorem folded_op {o : Operator} {l r : Expr K} (hl : l.Folded) (hr : r.Folded)
    (h : operation o l r = .op o l r) : (Expr.op o l r).Folded := by
  refine ⟨hl, hr, ?_⟩
  cases hlvar : l.containsVariable with
  | true => exact .inl rfl
  | false =>
    cases hrvar : r.containsVariable with
    | true => exact .inr rfl
    | false =>
      obtain ⟨v, rfl⟩ := hl.eq_constant hlvar
      obtain ⟨w, rfl⟩ := hr.eq_constant hrvar
      obtain ⟨x, hx⟩ := exists_operation_constant o v w
      cases hx.symm.trans h

theorem inherited_folded : Inherited (Folded : Expr K → Prop) where
  constant _ := trivial
  unit _ := trivial
  collected := folded_collected
  left h := h.1
  right h := h.2.1
  product := folded_productAtOnce?
  quotient hl _ h := folded_quotientAtOnce? hl h
  op := folded_op

end Simplification

namespace Scope

open ComplexAlgebra.Expr Simplification

theorem folded_simplify (s : Scope K) (e : Expr K) : (s.simplify e).Folded := by
  induction e with
  | constant v => trivial
  | var name c =>
    rw [simplify]
    split <;> trivial
  | op o l r ihl ihr => exact inherited_operation inherited_folded o ihl ihr

/-- The variables of a simplified expression are variables of the expression that are unbound, and
every operation that is left over has a variable in it. So the simplified expression has a value
wherever the expression has one. -/
theorem simplify_substitutes_and_folds (s : Scope K) (e : Expr K) :
    (∀ name ∈ (s.simplify e).names, name ∈ e.names ∧ s.get? name = none) ∧
    (∀ o l r, (Expr.op o l r).Inside (s.simplify e) →
      ∃ name c, (Expr.var name c).Inside (.op o l r)) ∧
    ∀ t : Scope K, (∃ v, t.evaluate e = .ok v) → ∃ v, t.evaluate (s.simplify e) = .ok v := by
  refine ⟨fun name hname => mem_names_simplify hname, fun o l r hop => ?_, fun t ht => ?_⟩
  · have hfolded := (s.folded_simplify e).inside hop
    exact exists_inside_of_containsVariable hfolded.containsVariable_op
  · rw [exists_evaluate_iff] at ht ⊢
    exact fun name hname => ht name (mem_names_simplify hname).1

theorem exists_evaluate_of_closed (s : Scope K) {e : Expr K} (h : e.containsVariable = false) :
    ∃ v, s.evaluate e = .ok v := by
  rw [exists_evaluate_iff, closed_iff_names.1 h]
  exact fun _ hname => absurd hname List.not_mem_nil

variable {s : Scope K} {u k : Expr K}

theorem isolate_constant {v w : Value K} (hk : s.simplify k = .constant v)
    (hu : s.simplify u = .constant w) : s.isolate u k = .error (.unresolvable .cancels) := by
  rw [isolate]
  simp only [hk]
  split <;> cases hu.symm.trans ‹_›
  rfl

theorem isolate_bothOperands {v : Value K} {o : Operator} {l r : Expr K}
    (hk : s.simplify k = .constant v) (hu : s.simplify u = .op o l r)
    (hl : l.containsVariable = true) (hr : r.containsVariable = true) :
    s.isolate u k = .error (.unresolvable (.bothOperands o)) := by
  rw [isolate]
  simp only [hk]
  split <;> cases hu.symm.trans ‹_›
  simp only [hl, hr]

/-- An isolation whose known side has no variable undoes an operation or ends: at a constant, at a
variable that stands alone, or at two operands with variables. -/
theorem isolate_cases (s : Scope K) (u : Expr K) (hk : k.containsVariable = false) :
    (∃ u' k', s.Undoes u k u' k') ∨
    ((∃ v, s.simplify u = .constant v) ∧ s.isolate u k = .error (.unresolvable .cancels)) ∨
    (∃ name c v, s.simplify u = .var name c ∧ s.isolate u k = .ok (name, v)) ∨
    (∃ o l r, s.simplify u = .op o l r ∧ l.containsVariable = true ∧ r.containsVariable = true ∧
      s.isolate u k = .error (.unresolvable (.bothOperands o))) := by
  obtain ⟨v, hv⟩ := s.exists_simplify_eq_constant hk
  have hfolded := s.folded_simplify u
  cases hu : s.simplify u with
  | constant w =>
    exact .inr (.inl ⟨⟨w, rfl⟩, isolate_constant hv hu⟩)
  | var name c => exact .inr (.inr (.inl ⟨name, c, _, rfl, isolate_var hv hu⟩))
  | op o l r =>
    rw [hu] at hfolded
    cases hl : l.containsVariable with
    | true =>
      cases hr : r.containsVariable with
      | true =>
        exact .inr (.inr (.inr ⟨o, l, r, rfl, hl, hr, isolate_bothOperands hv hu hl hr⟩))
      | false => exact .inl ⟨_, _, .left hv hu hl hr⟩
    | false =>
      have hr : r.containsVariable = true :=
        hfolded.2.2.resolve_left (Bool.eq_false_iff.1 hl)
      obtain ⟨base, hbase⟩ := s.exists_evaluate_of_closed hl
      cases o with
      | add => exact .inl ⟨_, _, .addend hv hu hl hr⟩
      | sub => exact .inl ⟨_, _, .subtrahend hv hu hl hr⟩
      | mul => exact .inl ⟨_, _, .factor hv hu hl hr⟩
      | div => exact .inl ⟨_, _, .divisor hv hu hl hr⟩
      | pow => exact .inl ⟨_, _, .exponent hv hu hl hr hbase⟩

theorem isolate_error {e : RuntimeError K} (hk : k.containsVariable = false)
    (h : s.isolate u k = .error e) :
    e = .unresolvable .cancels ∨ ∃ o, e = .unresolvable (.bothOperands o) := by
  induction hp : (u, k) using s.wellFounded_undoes.induction generalizing u k with
  | _ p ih =>
    subst hp
    rcases s.isolate_cases u hk with ⟨u', k', hstep⟩ | ⟨-, hend⟩ | ⟨_, _, _, -, hend⟩ |
      ⟨o, _, _, -, -, -, hend⟩
    · exact ih (u', k') hstep hstep.closed (hstep.isolate_eq.symm.trans h) rfl
    · exact .inl (Except.error.inj (h.symm.trans hend))
    · cases h.symm.trans hend
    · exact .inr ⟨o, Except.error.inj (h.symm.trans hend)⟩

/-- `s.Poses source u k`: the line `source` hands over the equation `u = k` to the isolation, with
the unknown in the simplified side `u` and no variable in the simplified side `k`. -/
inductive Poses (s : Scope K) (source : List Char) : Expr K → Expr K → Prop
  | left {left right : List Char} {l r : Expr K} (hpieces : Text.pieces '=' source = [left, right])
    (hl : parse left = .ok l) (hr : parse right = .ok r)
    (hvar : (s.simplify l).containsVariable = true)
    (hclosed : (s.simplify r).containsVariable = false) :
    Poses s source (s.simplify l) (s.simplify r)
  | right {left right : List Char} {l r : Expr K} (hpieces : Text.pieces '=' source = [left, right])
    (hl : parse left = .ok l) (hr : parse right = .ok r)
    (hclosed : (s.simplify l).containsVariable = false)
    (hvar : (s.simplify r).containsVariable = true) :
    Poses s source (s.simplify r) (s.simplify l)

variable {source : List Char}

theorem Poses.closed (h : s.Poses source u k) : k.containsVariable = false := by
  cases h with
  | left _ _ _ _ hclosed => exact hclosed
  | right _ _ _ hclosed _ => exact hclosed

theorem Poses.resolve_eq (h : s.Poses source u k) :
    (s.resolve source).1 =
      match s.isolate u k with
      | .error e => .error (.runtime e)
      | .ok (name, v) => .ok (.binding name v) := by
  cases h with
  | left hpieces hl hr hvar hclosed =>
    simp only [resolve, outcome, hpieces, solveText, hl, hr, solve, hvar, hclosed]
    cases s.isolate (s.simplify _) (s.simplify _) <;> rfl
  | right hpieces hl hr hclosed hvar =>
    simp only [resolve, outcome, hpieces, solveText, hl, hr, solve, hvar, hclosed]
    cases s.isolate (s.simplify _) (s.simplify _) <;> rfl

/-- A line with one equals sign is no pair of expressions, has its variables on both sides or on
neither, or is handed over to the isolation. -/
theorem resolve_cases (s : Scope K) (h : source.count '=' = 1) :
    (∃ cause, (s.resolve source).1 = .error (.parse cause)) ∨
    (∃ fault, (s.resolve source).1 = .error (.runtime (.invalidEquation fault))) ∨
    ∃ u k, s.Poses source u k := by
  have hlength := Text.length_pieces '=' source
  rw [h] at hlength
  obtain ⟨left, right, hpieces⟩ := List.length_eq_two.1 hlength
  cases hl : parse (K := K) left with
  | error e => exact .inl ⟨e, by simp only [resolve, outcome, hpieces, solveText, hl]⟩
  | ok l =>
    cases hr : parse (K := K) right with
    | error e =>
      refine .inl ⟨e.shift (byteLength left + 1), ?_⟩
      simp only [resolve, outcome, hpieces, solveText, hl, hr]
    | ok r =>
      cases hvarl : (s.simplify l).containsVariable with
      | true =>
        cases hvarr : (s.simplify r).containsVariable with
        | true =>
          refine .inr (.inl ⟨.bothSides, ?_⟩)
          simp only [resolve, outcome, hpieces, solveText, hl, hr, solve, hvarl, hvarr]
        | false => exact .inr (.inr ⟨_, _, .left hpieces hl hr hvarl hvarr⟩)
      | false =>
        cases hvarr : (s.simplify r).containsVariable with
        | true => exact .inr (.inr ⟨_, _, .right hpieces hl hr hvarl hvarr⟩)
        | false =>
          refine .inr (.inl ⟨.neitherSide, ?_⟩)
          simp only [resolve, outcome, hpieces, solveText, hl, hr, solve, hvarl, hvarr]

/-- A line with one equals sign fails because a side is no expression, because not exactly one side
has a variable, or because the unknown cannot be isolated. All along the isolation the known side is
simplified to a constant, and no operation is left whose operands both lack a variable; an operand
that does can be evaluated. -/
theorem resolve_equation (s : Scope K) {source : List Char} (h : source.count '=' = 1) :
    (∀ e, (s.resolve source).1 = .error e →
      (∃ cause, e = .parse cause) ∨ (∃ fault, e = .runtime (.invalidEquation fault)) ∨
      e = .runtime (.unresolvable .cancels) ∨
      ∃ o, e = .runtime (.unresolvable (.bothOperands o))) ∧
    ∀ u k u' k', s.Poses source u k → s.Reaches u k u' k' →
      (∃ v, s.simplify k' = .constant v) ∧
      ∀ o l r, s.simplify u' = .op o l r →
        (l.containsVariable = true ∨ r.containsVariable = true) ∧
        (l.containsVariable = false → ∃ v, s.evaluate l = .ok v) := by
  constructor
  · intro e he
    rcases s.resolve_cases h with ⟨cause, hcause⟩ | ⟨fault, hfault⟩ | ⟨u, k, hposes⟩
    · exact .inl ⟨cause, Except.error.inj (he.symm.trans hcause)⟩
    · exact .inr (.inl ⟨fault, Except.error.inj (he.symm.trans hfault)⟩)
    · rw [hposes.resolve_eq] at he
      split at he
      · next e' hiso =>
        cases he
        rcases isolate_error hposes.closed hiso with rfl | ⟨o, rfl⟩
        · exact .inr (.inr (.inl rfl))
        · exact .inr (.inr (.inr ⟨o, rfl⟩))
      · cases he
  · intro u k u' k' hposes hreach
    refine ⟨s.exists_simplify_eq_constant (hreach.closed hposes.closed), fun o l r hu => ?_⟩
    have hfolded := s.folded_simplify u'
    rw [hu] at hfolded
    exact ⟨hfolded.2.2, s.exists_evaluate_of_closed⟩

theorem parse_sum {K : Type} [Arithmetic K] :
    parse "x+y".toList = .ok (.op .add (.var 'x' (1 : K)) (.var 'y' 1)) := by
  cbv

theorem parse_unit {K : Type} [Arithmetic K] :
    parse "1".toList = .ok (.number (Arithmetic.ofDecimal (K := K) ⟨1, 0⟩)) := by
  cbv

theorem simplify_sum {K : Type} [Arithmetic K] :
    empty.simplify (.op .add (.var 'x' (1 : K)) (.var 'y' 1)) =
      .op .add (.var 'x' 1) (.var 'y' 1) := by
  simp [simplify, operation, sum.eq_def, sumAtOnce?, additive]

/-- In `x + y = 1` neither unknown can be isolated. -/
theorem resolve_equation_sum :
    "x+y=1".toList.count '=' = 1 ∧
    ∃ e, ((empty : Scope FloatNumber).resolve "x+y=1".toList).1 = .error e ∧
      ((∃ cause, e = .parse cause) ∨ (∃ fault, e = .runtime (.invalidEquation fault)) ∨
        e = .runtime (.unresolvable .cancels) ∨
        ∃ o, e = .runtime (.unresolvable (.bothOperands o))) ∧
      ∃ u k, (empty : Scope FloatNumber).Poses "x+y=1".toList u k ∧
        (∃ v, empty.simplify k = .constant v) ∧
        ∃ o l r, empty.simplify u = .op o l r ∧
          (l.containsVariable = true ∨ r.containsVariable = true) := by
  have hcount : "x+y=1".toList.count '=' = 1 := by decide
  obtain ⟨herror, hsteps⟩ := (empty : Scope FloatNumber).resolve_equation hcount
  have hposes : (empty : Scope FloatNumber).Poses "x+y=1".toList
      (empty.simplify (.op .add (.var 'x' 1) (.var 'y' 1)))
      (empty.simplify (.number (Arithmetic.ofDecimal ⟨1, 0⟩))) := by
    have hpieces : Text.pieces '=' "x+y=1".toList = ["x+y".toList, "1".toList] := by decide
    refine .left hpieces parse_sum parse_unit ?_ rfl
    rw [simplify_sum]
    rfl
  rw [simplify_sum] at hposes
  have hresolve := hposes.resolve_eq
  rw [isolate_bothOperands rfl simplify_sum rfl rfl] at hresolve
  obtain ⟨hknown, hunknown⟩ := hsteps _ _ _ _ hposes (.refl _ _)
  exact ⟨hcount, _, hresolve, herror _ hresolve, _, _, hposes, hknown, _, _, _, simplify_sum,
    (hunknown _ _ _ simplify_sum).1⟩

end Scope
end ComplexAlgebra
