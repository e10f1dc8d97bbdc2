import ComplexAlgebra.Proofs.Spelling
import ComplexAlgebra.Proofs.UnitCoefficient
import ComplexAlgebra.Proofs.Written

/-! Assigning the value of an expression to a variable and looking it up. The value is simplified
instead of evaluated, divided by the coefficient one when the variable is bound and multiplied with
it when it is read. Simplification takes the exponents zero and one away without a look at the base,
and both of the other steps settle the value once more. -/
namespace ComplexAlgebra

variable {K : Type} [Arithmetic K]

namespace Value

theorem map_congr_of_beq {L : Type} {f : K → L} (hf : ∀ z w, (z == w) = true → f z = f w)
    {v w : Value K} (h : (v == w) = true) : v.map f = w.map f := by
  cases v with
  | scalar x =>
    cases w with
    | scalar y => exact congrArg scalar (hf x y h)
    | list ys => cases h
  | list xs =>
    cases w with
    | scalar y => cases h
    | list ys =>
      refine congrArg list ?_
      have hlist : (xs == ys) = true := h
      clear h
      induction xs generalizing ys with
      | nil =>
        cases ys with
        | nil => rfl
        | cons y ys => cases hlist
      | cons x xs ih =>
        cases ys with
        | nil => cases hlist
        | cons y ys =>
          obtain ⟨hx, hxs⟩ := Bool.and_eq_true_iff.1 hlist
          rw [List.map_cons, List.map_cons, hf x y hx, ih ys hxs]

theorem map_beq_iff {f : K → K} {v : Value K} :
    (v.map f == v) = true ↔ ∀ z ∈ v.elements, (f z == z) = true := by
  cases v with
  | scalar x =>
    rw [elements_scalar, List.forall_mem_singleton]
    exact Iff.rfl
  | list xs =>
    show (xs.map f == xs) = true ↔ ∀ z ∈ xs, (f z == z) = true
    induction xs with
    | nil => exact ⟨fun _ _ hz => absurd hz List.not_mem_nil, fun _ => rfl⟩
    | cons x xs ih =>
      rw [List.forall_mem_cons, ← ih]
      exact Bool.and_eq_true_iff

end Value

namespace Token

theorem scan_blanks (position : Nat) {blanks : List Char}
    (h : ∀ c ∈ blanks, isBlank c = true) : scan position blanks = .ok [] := by
  have hscan := scan_blanks_append position h []
  rwa [List.append_nil, scan_nil] at hscan

theorem scan_letter {name : Char} (hname : isVariableName name = true) {blanks : List Char}
    (h : ∀ c ∈ blanks, isBlank c = true) :
    scan 0 (name :: blanks) = .ok [⟨.letter name, 0⟩] := by
  obtain ⟨hblank, hdigit, htoken⟩ := single_letter hname
  rw [scan, if_neg (by rw [hblank]; decide), if_neg (by rw [hdigit]; decide), htoken]
  simp only [scan_blanks _ h]
  rfl

end Token

theorem parse_letter {name : Char} (hname : isVariableName name = true) {blanks : List Char}
    (h : ∀ c ∈ blanks, Token.isBlank c = true) :
    parse (name :: blanks) = .ok (.var name (1 : K)) := by
  have hparse (stop : Nat) :
      Grammar.parseTokens stop [⟨.letter name, 0⟩] = .ok (.var name (1 : K)) := by
    cbv
  rw [parse, Token.tokenize, Token.scan_letter hname h]
  exact hparse _

namespace Scope

open Simplification

/-- The exponents zero and one, which simplification takes away, are those whose powers come to one
and to the base. -/
def ShortcutsAgree (s : Scope K) : Expr K → Prop
  | .constant _ => True
  | .var _ _ => True
  | .op o l r =>
    s.ShortcutsAgree l ∧ s.ShortcutsAgree r ∧ (o = .pow →
      ∀ v w, s.evaluate l = .ok v → s.evaluate r = .ok w →
        ((Expr.constant w).isNumber 0 = true → Operator.pow.combine v w = .scalar 1) ∧
        ((Expr.constant w).isNumber 1 = true → Operator.pow.combine v w = v))

/-- Where an expression has a value, its simplification is a constant, and that value if the
shortcuts agree. -/
theorem simplify_of_evaluate {s : Scope K} {e : Expr K} {v : Value K} (h : s.evaluate e = .ok v) :
    ∃ v', s.simplify e = .constant v' ∧ (s.ShortcutsAgree e → v' = v) := by
  induction e generalizing v with
  | constant v' =>
    cases h
    exact ⟨v', rfl, fun _ => rfl⟩
  | var name c =>
    rw [evaluate] at h
    rw [simplify]
    cases hget : s.get? name with
    | none =>
      rw [hget] at h
      cases h
    | some w =>
      rw [hget] at h
      cases h
      exact ⟨_, rfl, fun _ => rfl⟩
  | op o l r ihl ihr =>
    rw [evaluate] at h
    cases hl : s.evaluate l with
    | error e =>
      rw [hl] at h
      cases h
    | ok x =>
      cases hr : s.evaluate r with
      | error e =>
        rw [hl, hr] at h
        cases h
      | ok y =>
        rw [hl, hr] at h
        cases h
        obtain ⟨x', hx', hx⟩ := ihl hl
        obtain ⟨y', hy', hy⟩ := ihr hr
        rw [simplify, hx', hy']
        by_cases ho : o = .pow
        · subst ho
          show ∃ v', power _ _ = _ ∧ _
          rw [power_constant]
          have hagree (hs : s.ShortcutsAgree (.op .pow l r)) : x' = x ∧ y' = y ∧
              ((Expr.constant y).isNumber 0 = true → Operator.pow.combine x y = .scalar 1) ∧
              ((Expr.constant y).isNumber 1 = true → Operator.pow.combine x y = x) :=
            ⟨hx hs.1, hy hs.2.1, hs.2.2 rfl x y hl hr⟩
          split
          · next h0 =>
            refine ⟨_, rfl, fun hs => ?_⟩
            obtain ⟨-, rfl, hzero, -⟩ := hagree hs
            exact (hzero h0).symm
          · split
            · next h1 =>
              refine ⟨_, rfl, fun hs => ?_⟩
              obtain ⟨rfl, rfl, -, hone⟩ := hagree hs
              exact (hone h1).symm
            · refine ⟨_, rfl, fun hs => ?_⟩
              obtain ⟨rfl, rfl, -⟩ := hagree hs
              rfl
        · refine ⟨_, operation_constant ho x' y', fun hs => ?_⟩
          rw [hx hs.1, hy hs.2.1]

theorem solve_var {s : Scope K} {name : Char} (hname : s.get? name = none) {e : Expr K}
    {v : Value K} (h : s.simplify e = .constant v) :
    s.solve (.var name 1) e = .ok (name, v.map (· / 1)) := by
  have hvar : s.simplify (.var name 1) = .var name (1 : K) := by rw [simplify, hname]
  have hiso : s.isolate (.var name 1) (.constant v) = .ok (name, v.map (· / 1)) :=
    isolate_var rfl hvar
  unfold solve
  rw [hvar, h]
  exact hiso

theorem resolve_var {s : Scope K} {e : List Char} (he : '=' ∉ e) {tree : Expr K}
    (htree : parse e = .ok tree) {name : Char} (hname : isVariableName name = true)
    (hfree : s.get? name = none) {v : Value K} (hv : s.simplify tree = .constant v) :
    s.resolve (name :: " = ".toList ++ e) =
      (.ok (.binding name (v.map (· / 1))), s.bind name (v.map (· / 1))) := by
  have hne : name ≠ '=' := by
    rintro rfl
    cases hname
  have htail : Text.pieces '=' (' ' :: e) = [' ' :: e] :=
    Text.pieces_of_not_mem fun h => he ((List.mem_cons.1 h).resolve_left (by decide))
  have hpieces : Text.pieces '=' (name :: " = ".toList ++ e) = [[name, ' '], ' ' :: e] := by
    show Text.pieces '=' (name :: ' ' :: '=' :: ' ' :: e) = _
    rw [Text.pieces, if_neg hne, Text.pieces, if_neg (by decide), Text.pieces, if_pos rfl, htail]
  have hout : s.outcome (name :: " = ".toList ++ e) = .ok (.binding name (v.map (· / 1))) := by
    have hleft : parse [name, ' '] = .ok (.var name (1 : K)) :=
      parse_letter hname (List.forall_mem_singleton.2 rfl)
    have hright : parse (' ' :: e) = .ok tree := parse_blank rfl htree
    simp only [outcome, hpieces, solveText, hleft, hright, solve_var hfree hv]
  rw [resolve, hout]
  rfl

theorem evaluateText_of_parse {s : Scope K} {e : List Char} {tree : Expr K} {v : Value K}
    (htree : parse e = .ok tree) (hv : s.evaluate tree = .ok v) : s.evaluateText e = .ok v := by
  simp only [evaluateText, htree, hv]

theorem exists_parse_of_evaluateText {s : Scope K} {e : List Char} {v : Value K}
    (h : s.evaluateText e = .ok v) : ∃ tree, parse e = .ok tree ∧ s.evaluate tree = .ok v := by
  unfold evaluateText at h
  split at h
  · cases h
  · next tree htree =>
    split at h
    · cases h
    · next w hw =>
      cases h
      exact ⟨tree, htree, hw⟩

theorem evaluateText_var {s : Scope K} {name : Char} (hname : isVariableName name = true)
    {v : Value K} (h : s.get? name = some v) :
    s.evaluateText [name] = .ok (v.map (· * 1)) := by
  have htree : parse [name] = .ok (.var name (1 : K)) :=
    parse_letter hname fun _ hc => absurd hc List.not_mem_nil
  exact evaluateText_of_parse htree (by simp only [evaluate, h])

end Scope

open FloatNumber in
/-- A variable that an expression is assigned to has the value of the expression, not-a-number
equal to itself, exactly if the expression as it is simplified has it once it is settled and every
number of the value is settled. The first holds of settled values if the shortcuts agree. -/
theorem Scope.lookup_of_assignment {s : Scope FloatNumber} {e : List Char} (he : '=' ∉ e)
    {v : Value FloatNumber} (hv : s.evaluateText e = .ok v) {name : Char}
    (hname : isVariableName name = true) (hfree : s.get? name = none) :
    ∃ tree u, parse e = .ok tree ∧
      s.resolve (name :: " = ".toList ++ e) = (.ok (.binding name u), s.bind name u) ∧
      (s.bind name u).evaluateText [name] = .ok (u.map (· * 1)) ∧
      (((u == v) = true ∧ (u.map (· * 1) == v) = true) ↔ (∀ z ∈ v.elements, z.Settled) ∧
        ∃ v', s.simplify tree = .constant v' ∧ (v'.map settled == v) = true) ∧
      (s.ShortcutsAgree tree → (((u == v) = true ∧ (u.map (· * 1) == v) = true) ↔
        ∀ z ∈ v.elements, z.Settled)) := by
  obtain ⟨tree, htree, heval⟩ := exists_parse_of_evaluateText hv
  obtain ⟨v', hv', hagree⟩ := simplify_of_evaluate heval
  have hdiv : (fun z : FloatNumber => z / 1) = settled := funext div_one_eq_settled
  have hmul : (fun z : FloatNumber => z * 1) = settled := funext mul_one_eq_settled
  have hsettled : (v.map settled == v) = true ↔ ∀ z ∈ v.elements, z.Settled := by
    simp only [Value.map_beq_iff, settled_beq_iff]
  have hlookup : ((v'.map settled == v) = true ∧ ((v'.map settled).map settled == v) = true) ↔
      (∀ z ∈ v.elements, z.Settled) ∧ (v'.map settled == v) = true := by
    rw [← hsettled]
    constructor
    · rintro ⟨hu, hlookup⟩
      rw [Value.map_congr_of_beq (fun _ _ => settled_congr) hu] at hlookup
      exact ⟨hlookup, hu⟩
    · rintro ⟨hv, hu⟩
      rw [Value.map_congr_of_beq (fun _ _ => settled_congr) hu]
      exact ⟨hu, hv⟩
  refine ⟨tree, v'.map (· / 1), htree, resolve_var he htree hname hfree hv',
    evaluateText_var hname (by simp), ?_, fun hs => ?_⟩
  · rw [hdiv, hmul, hlookup]
    refine and_congr_right fun _ => ⟨fun h => ⟨v', hv', h⟩, ?_⟩
    rintro ⟨w, hw, h⟩
    cases hv'.symm.trans hw
    exact h
  · rw [hdiv, hmul, hlookup, hagree hs, hsettled, and_self]

theorem parse_two {K : Type} [Arithmetic K] :
    parse "2".toList = .ok (.number (Arithmetic.ofDecimal (K := K) ⟨2, 0⟩)) := by
  cbv

/-- The number two is settled, so `x` is two after `x = 2`. -/
theorem Scope.lookup_of_assignment_two :
    ∃ u : Value FloatNumber,
      empty.resolve "x = 2".toList = (.ok (.binding 'x' u), empty.bind 'x' u) ∧
      (empty.bind 'x' u).evaluateText ['x'] = .ok (u.map (· * 1)) ∧
      (u == .scalar (Arithmetic.ofDecimal ⟨2, 0⟩)) = true ∧
      (u.map (· * 1) == .scalar (Arithmetic.ofDecimal ⟨2, 0⟩)) = true := by
  have hv : (empty : Scope FloatNumber).evaluateText "2".toList =
      .ok (.scalar (Arithmetic.ofDecimal ⟨2, 0⟩)) :=
    evaluateText_of_parse parse_two rfl
  have hname : isVariableName 'x' = true := by decide
  obtain ⟨tree, u, htree, hresolve, hlookup, -, hagree⟩ :=
    lookup_of_assignment (by decide) hv hname rfl
  cases parse_two.symm.trans htree
  have hsettled : ∀ z ∈ (Value.scalar (Arithmetic.ofDecimal ⟨2, 0⟩ : FloatNumber)).elements,
      z.Settled := by
    intro z hz
    rw [List.mem_singleton.1 hz]
    right
    decide +kernel
  exact ⟨u, hresolve, hlookup, (hagree trivial).2 hsettled⟩

theorem parse_unsettled {K : Type} [Arithmetic K] :
    parse "4363.743".toList = .ok (.number (Arithmetic.ofDecimal (K := K) ⟨4363743, 3⟩)) := by
  cbv

/-- Settling `4363.743` once more changes it, so `x` has another value after `x = 4363.743`. -/
theorem Scope.assignment_unsettled :
    ∃ u v w : Value FloatNumber,
      empty.evaluateText "4363.743".toList = .ok v ∧
      empty.resolve "x = 4363.743".toList = (.ok (.binding 'x' u), empty.bind 'x' u) ∧
      (empty.bind 'x' u).evaluateText ['x'] = .ok w ∧ (u == v) = false ∧ (w == v) = false := by
  have hname : isVariableName 'x' = true := by decide
  have hresolve : (empty : Scope FloatNumber).resolve "x = 4363.743".toList = _ :=
    resolve_var (by decide) parse_unsettled hname rfl rfl
  refine ⟨_, _, _, evaluateText_of_parse parse_unsettled rfl, hresolve,
    evaluateText_var hname rfl, ?_, ?_⟩
  · decide +kernel
  · decide +kernel

end ComplexAlgebra
