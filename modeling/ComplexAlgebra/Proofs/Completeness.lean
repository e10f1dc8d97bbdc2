import ComplexAlgebra.Proofs.Soundness

/-! Solutions that are not lost, over exact arithmetic. Every assignment that makes the sides of an
equation equal gives the unknown one of the numbers found, unless the isolation comes to a quotient
with dividend zero that is to be zero: the divisor is then divided by a list with a zero in it. -/
namespace ComplexAlgebra

open ExactNumber
open Number (ofComplex)

namespace Expr

def degrees : Set ℤ := {n | 0 < n ∧ n ≤ 4294967295}

theorem ExponentsIn.inter {S T : Set ℤ} {e : Expr ExactNumber} (hS : e.ExponentsIn S)
    (hT : e.ExponentsIn T) : e.ExponentsIn (S ∩ T) := by
  induction e with
  | constant v => trivial
  | var name c => trivial
  | op o l r ihl ihr =>
    refine ⟨ihl hS.1 hT.1, ihr hS.2.1 hT.2.1, fun ho => ?_⟩
    obtain ⟨n, hn, hd⟩ := hS.2.2 ho
    obtain ⟨m, hm, hd'⟩ := hT.2.2 ho
    have hnm : n = m := Int.cast_injective ((hd fun _ => none).unique (hd' fun _ => none))
    exact ⟨n, ⟨hn, hnm ▸ hm⟩, hd⟩

end Expr

namespace Scope

open ComplexAlgebra.Expr Simplification

variable {s t : Scope ExactNumber} {u k u' k' l r : Expr ExactNumber} {v : Value ExactNumber}
  {a p q : ℂ}

/-- Zero is a root, and `dividend / divisor = roots` has no number but zero for a dividend. -/
def SwapsZero (s : Scope ExactNumber) (u k : Expr ExactNumber) : Prop :=
  ∃ roots dividend divisor, s.SwapsRoots u k roots dividend divisor ∧ s.Knows k 0 ∧
    ∀ b, s.Knows dividend b → b = 0

theorem rootDegree?_of_degrees {y : ExactNumber} {n : ℤ} (hn : n ∈ degrees)
    (hy : y.value? = some (n : ℂ)) : ∃ d : ℕ, n = d ∧ d ≠ 0 ∧ rootDegree? (.number y) = some d := by
  obtain ⟨hpos, hle⟩ := hn
  obtain ⟨d, rfl⟩ := Int.eq_ofNat_of_zero_le hpos.le
  have hdegree : Arithmetic.degree? y = some d :=
    degree?_eq_some_iff.2 ⟨by rw [hy, Int.cast_natCast], by exact_mod_cast hle⟩
  have hd : 0 < d := by exact_mod_cast hpos
  refine ⟨d, rfl, hd.ne', ?_⟩
  rw [rootDegree?, hdegree]
  exact Option.filter_eq_some_iff.2 ⟨rfl, decide_eq_true hd⟩

theorem Offers.undoRight {o : Operator} (h : s.Offers t AvoidsZero degrees u a)
    (hk : s.simplify k = .constant v) (hu : s.simplify u = .op o l r)
    (hl : l.containsVariable = true) (hr : r.containsVariable = false) (hknows : s.Knows k a) :
    ∃ p, s.Offers t AvoidsZero degrees l p ∧ s.Knows (undoRight o r v) p := by
  obtain ⟨w, rfl, hstable, hexp, htakes⟩ := h.of_right hu hr
  rw [knows_iff_constant hk] at hknows
  cases o with
  | add =>
    obtain ⟨p, q, hp, hq, rfl⟩ := takes_add_iff.1 htakes
    refine ⟨p, (h.operand hu).1 hp, (knows_op_iff (o := .sub) (by decide) rfl rfl).2
      ⟨_, q, hknows, knows_constant_iff.2 hq, ?_⟩⟩
    exact Operator.computes_sub_iff.2 (add_sub_cancel_right p q)
  | sub =>
    obtain ⟨p, q, hp, hq, rfl⟩ := takes_sub_iff.1 htakes
    refine ⟨p, (h.operand hu).1 hp, (knows_op_iff (o := .add) (by decide) rfl rfl).2
      ⟨_, q, hknows, knows_constant_iff.2 hq, ?_⟩⟩
    exact Operator.computes_add_iff.2 (sub_add_cancel p q)
  | mul =>
    cases htakes with
    | product => cases hl
    | value hd =>
      obtain ⟨p, q, hp, hq, rfl⟩ := denotes_mul_iff.1 hd
      obtain ⟨y, rfl, hy⟩ := denotes_constant_iff.1 hq
      have hq0 : q ≠ 0 := by
        rintro rfl
        exact beq_zero_eq_false_iff.1 (isNumber_zero_of_stable hstable).2 hy
      refine ⟨p, (h.operand hu).1 (.value hp), (knows_op_iff (o := .div) (by decide) rfl rfl).2
        ⟨_, q, hknows, (knows_iff_of_denotes hq).2 rfl, ?_⟩⟩
      exact Operator.computes_div_iff.2 ⟨hq0, mul_div_cancel_right₀ p hq0⟩
  | div =>
    cases htakes with
    | quotient => cases hl
    | value hd =>
      obtain ⟨p, q, hp, hq, hq0, rfl⟩ := denotes_div_iff.1 hd
      refine ⟨p, (h.operand hu).1 (.value hp), (knows_op_iff (o := .mul) (by decide) rfl rfl).2
        ⟨_, q, hknows, (knows_iff_of_denotes hq).2 rfl, ?_⟩⟩
      exact Operator.computes_mul_iff.2 (div_mul_cancel₀ p hq0)
  | pow =>
    cases htakes with
    | value hd =>
      obtain ⟨n, hn, hden⟩ := hexp.2.2 rfl
      obtain ⟨y, rfl, hy⟩ := denotes_constant_iff.1 (hden t.assignment)
      obtain ⟨d, rfl, hd0, hdegree⟩ := rootDegree?_of_degrees hn hy
      obtain ⟨p, hp, -, rfl⟩ := (denotes_pow_iff (hden t.assignment)).1 hd
      refine ⟨p, (h.operand hu).1 (.value hp), ?_⟩
      rw [zpow_natCast] at hknows
      rw [ComplexAlgebra.undoRight, hdegree]
      exact (knows_roots hd0).2 ((knows_iff rfl).1 hknows)

theorem exists_factor (h : Takes AvoidsZero t.assignment (.op .mul (.constant v) r) a)
    (hstable : (Expr.op .mul (.constant v) r).Stable) :
    ∃ p q, s.Knows (.constant v) p ∧ p ≠ 0 ∧ Denotes t.assignment r q ∧ p * q = a := by
  cases v with
  | list xs =>
    obtain ⟨x, hx, p, q, hp, hp0, hq, hpq⟩ := h.factor
    exact ⟨p, q, (knows_iff (v := .list xs) rfl).2 ⟨x, hx, hp⟩, hp0, hq, hpq⟩
  | scalar x =>
    cases h with
    | value hd =>
      obtain ⟨p, q, hp, hq, rfl⟩ := denotes_mul_iff.1 hd
      obtain ⟨y, heq, hx⟩ := denotes_constant_iff.1 hp
      cases heq
      refine ⟨p, q, (knows_iff (v := .scalar x) rfl).2 ⟨x, List.mem_singleton_self x, hx⟩, ?_, hq,
        rfl⟩
      rintro rfl
      exact beq_zero_eq_false_iff.1 (isNumber_zero_of_stable hstable).1 hx

theorem exists_dividend (h : Takes AvoidsZero t.assignment (.op .div (.constant v) r) a) :
    ∃ p q, s.Knows (.constant v) p ∧ (p = 0 → v.OnlyZero) ∧ Denotes t.assignment r q ∧ q ≠ 0 ∧
      p / q = a := by
  cases v with
  | list xs =>
    obtain ⟨x, hx, p, q, hp, hp0, hq, hq0, hpq⟩ := h.dividend
    exact ⟨p, q, (knows_iff (v := .list xs) rfl).2 ⟨x, hx, hp⟩, hp0, hq, hq0, hpq⟩
  | scalar x =>
    cases h with
    | value hd =>
      obtain ⟨p, q, hp, hq, hq0, rfl⟩ := denotes_div_iff.1 hd
      obtain ⟨y, heq, hx⟩ := denotes_constant_iff.1 hp
      cases heq
      refine ⟨p, q, (knows_iff (v := .scalar x) rfl).2 ⟨x, List.mem_singleton_self x, hx⟩, ?_, hq,
        hq0, rfl⟩
      rintro rfl y hy b hb
      cases List.mem_singleton.1 hy
      exact Option.some.inj (hb.symm.trans hx)

/-- Where the divisor changes sides, it can have its value, unless zero is divided by zero. -/
theorem Offers.divisor (h : s.Offers t AvoidsZero degrees u a) (hk : s.simplify k = .constant v)
    (hu : s.simplify u = .op .div l r) (hl : l.containsVariable = false)
    (hr : r.containsVariable = true) (hknows : s.Knows k a) (hno : ¬ s.SwapsZero u k) :
    ∃ p, s.Offers t AvoidsZero degrees (.op .mul (.constant v) r) p ∧ s.Knows l p := by
  obtain ⟨w, rfl, hstable, hexp, htakes⟩ := h.of_left hu hl
  obtain ⟨x, hx, ha⟩ := (knows_iff hk).1 hknows
  obtain ⟨p, q, hyp, hp0, hq, hq0, rfl⟩ := exists_dividend (s := s) htakes
  refine ⟨p, offers_multiple (simplify_operands hu h.stable).2 hstable.2.1 hexp.2.1 ?_, hyp⟩
  cases v with
  | scalar x' =>
    cases List.mem_singleton.1 hx
    have hd := ((Denotes.number ha).mul hq).of_eq (div_mul_cancel₀ p hq0)
    exact .value ((recasts_multiply _ _).denotes hd)
  | list xs =>
    have hpq : p / q ≠ 0 := by
      intro h0
      rw [h0] at hknows
      refine hno ⟨xs, _, r, ⟨hk, hu, hl, hr⟩, hknows, ?_⟩
      intro b hb
      obtain ⟨z, hz, hzb⟩ := (knows_iff rfl).1 hb
      exact hp0 ((div_eq_zero_iff.1 h0).resolve_right hq0) z hz b hzb
    have hproduct := takes_multiply scalable_avoidsZero hstable.2.1 hx ha hpq hq
    exact hproduct.of_eq (div_mul_cancel₀ p hq0)

/-- A step keeps the solutions that the equation has. -/
theorem Offers.step (h : s.Offers t AvoidsZero degrees u a) (hstep : s.Undoes u k u' k')
    (hno : ¬ s.SwapsZero u k) (hknows : s.Knows k a) :
    ∃ p, s.Offers t AvoidsZero degrees u' p ∧ s.Knows k' p := by
  cases hstep with
  | left hk hu hl hr => exact h.undoRight hk hu hl hr hknows
  | divisor hk hu hl hr => exact h.divisor hk hu hl hr hknows hno
  | addend hk hu hl hr =>
    obtain ⟨w, rfl, -, -, htakes⟩ := h.of_left hu hl
    rw [knows_iff_constant hk] at hknows
    obtain ⟨p, q, hp, hq, rfl⟩ := takes_add_iff.1 htakes
    refine ⟨q, (h.operand hu).2 hq, (knows_op_iff (by decide) rfl rfl).2
      ⟨_, p, hknows, knows_constant_iff.2 hp, ?_⟩⟩
    exact Operator.computes_sub_iff.2 (add_sub_cancel_left p q)
  | subtrahend hk hu hl hr =>
    obtain ⟨w, rfl, -, -, htakes⟩ := h.of_left hu hl
    rw [knows_iff_constant hk] at hknows
    obtain ⟨p, q, hp, hq, rfl⟩ := takes_sub_iff.1 htakes
    refine ⟨q, (h.operand hu).2 hq, (knows_op_iff (by decide) rfl rfl).2
      ⟨p, _, knows_constant_iff.2 hp, hknows, ?_⟩⟩
    exact Operator.computes_sub_iff.2 (sub_sub_cancel p q)
  | factor hk hu hl hr =>
    obtain ⟨w, rfl, hstable, -, htakes⟩ := h.of_left hu hl
    rw [knows_iff_constant hk] at hknows
    obtain ⟨p, q, hp, hp0, hq, rfl⟩ := exists_factor (s := s) htakes hstable
    refine ⟨q, (h.operand hu).2 (.value hq), (knows_op_iff (by decide) rfl rfl).2
      ⟨_, p, hknows, hp, ?_⟩⟩
    exact Operator.computes_div_iff.2 ⟨hp0, mul_div_cancel_left₀ q hp0⟩
  | exponent hk hu hl hr hbase =>
    have hexp := h.exponents
    rw [hu] at hexp
    obtain ⟨n, -, hn⟩ := hexp.2.2 rfl
    rw [containsVariable_of_denotes (hn _)] at hr
    cases hr

theorem exists_of_isolate {name : Char} {w : Value ExactNumber}
    (h : s.isolate u k = .ok (name, w)) (hu : s.Offers t AvoidsZero degrees u a)
    (hknows : s.Knows k a) (hno : ∀ u' k', s.Reaches u k u' k' → ¬ s.SwapsZero u' k') :
    ∃ z ∈ w.elements, t.get? name = some (.scalar z) := by
  revert a
  refine isolate_induction (P := fun u k =>
    (∀ u' k', s.Reaches u k u' k' → ¬ s.SwapsZero u' k') → ∀ {a : ℂ},
      s.Offers t AvoidsZero degrees u a → s.Knows k a →
        ∃ z ∈ w.elements, t.get? name = some (.scalar z)) ?_ ?_ h hno
  · rintro u k c v hk hu rfl - a hoffers hknows
    have htakes := hoffers.takes
    have hstable := hoffers.stable
    rw [hu] at htakes hstable
    obtain ⟨x, hx, ha⟩ := (knows_iff hk).1 hknows
    cases htakes with
    | value hd =>
      obtain ⟨p, q, hp, hq, rfl⟩ := denotes_var_iff.1 hd
      obtain ⟨z, hz, hzp⟩ := assignment_eq_some_iff.1 hp
      have hq0 : q ≠ 0 := by
        rintro rfl
        exact beq_zero_eq_false_iff.1 hstable hq
      have hxz : x / c = z := by
        refine eq_of_value? (value?_apply (o := .div) ha hq (.div _ hq0)) ?_
        rw [hzp, mul_div_cancel_right₀ p hq0]
      refine ⟨z, ?_, hz⟩
      rw [Value.elements_map, ← hxz]
      exact List.mem_map_of_mem hx
  · intro u k u' k' hstep _ ih hno a hoffers hknows
    obtain ⟨p, hp, hk'⟩ := hoffers.step hstep (hno u k (.refl u k)) hknows
    exact ih (fun u'' k'' hr => hno u'' k'' (.step hstep hr)) hp hk'

section SquaredQuotient

theorem exponentsIn_squaredQuotient (p : ℂ) :
    (empty.simplify (squaredQuotient p (.var 'x' 1))).ExponentsIn {n : ℤ | n ≤ 4294967295} := by
  rw [simplify_squaredQuotient p rfl (by decide)]
  refine ⟨?_, trivial, fun _ => ⟨2, show (2 : ℤ) ≤ 4294967295 by decide, fun ρ => denotes_two⟩⟩
  simp [numberOver, ExponentsIn]

theorem parse_one : parse "1".toList = .ok (.number (ofComplex 1)) := by
  have hparse {K : Type} [Arithmetic K] :
      parse "1".toList = .ok (.number (Arithmetic.ofDecimal (K := K) ⟨1, 0⟩)) := by
    cbv
  rw [hparse, ofDecimal_natural, Nat.cast_one]

theorem parse_squaredQuotient_zero :
    parse "(0/x+1)^2".toList = .ok (squaredQuotient 0 (.var 'x' 1)) := by
  have hparse {K : Type} [Arithmetic K] : parse "(0/x+1)^2".toList = .ok (.op .pow
      (.op .add (.op .div (.number (Arithmetic.ofDecimal (K := K) ⟨0, 0⟩)) (.var 'x' 1))
        (.number (Arithmetic.ofDecimal ⟨1, 0⟩))) (.number (Arithmetic.ofDecimal ⟨2, 0⟩))) := by
    cbv
  rw [hparse, ofDecimal_natural, ofDecimal_natural, ofDecimal_natural, Nat.cast_zero, Nat.cast_one,
    Nat.cast_ofNat]
  rfl

theorem denotes_squaredQuotient_one (p : ℂ) :
    Denotes (assignment (empty.bind 'x' (.scalar (ofComplex 1)))) (squaredQuotient p (.var 'x' 1))
      ((p + 1) ^ 2) := by
  have hx : Denotes (assignment (empty.bind 'x' (.scalar (ofComplex 1)))) (.var 'x' 1) 1 :=
    denotes_unit (assignment_eq_some_iff.2 ⟨_, get?_bind _ _ _ _, rfl⟩)
  exact (denotes_squaredQuotient hx one_ne_zero p).of_eq (by rw [div_one])

end SquaredQuotient

/-- The solutions of an equation are among the numbers found, if the isolation comes to no quotient
with dividend zero that is to be one of several roots with a zero among them. -/
theorem resolve_complete (hs : s.Scalar) (hst : t.Extends s) {source left right : List Char}
    (hpieces : Text.pieces '=' source = [left, right]) {l r : Expr ExactNumber}
    (hl : parse left = .ok l) (hr : parse right = .ok r)
    (hel : l.LiteralExponents {n : ℤ | 0 < n}) (her : r.LiteralExponents {n : ℤ | 0 < n})
    (hle : (s.simplify l).ExponentsIn {n : ℤ | n ≤ 4294967295})
    (hre : (s.simplify r).ExponentsIn {n : ℤ | n ≤ 4294967295})
    {name : Char} {w : Value ExactNumber} (h : (s.resolve source).1 = .ok (.binding name w))
    (hno : ∀ u k, s.Sides l r u k → ∀ u' k', s.Reaches u k u' k' → ¬ s.SwapsZero u' k')
    {x : ExactNumber} {a : ℂ} (hxa : x.value? = some a) (hx : t.evaluate l = .ok (.scalar x))
    (hy : t.evaluate r = .ok (.scalar x)) :
    ∃ z ∈ w.elements, t.get? name = some (.scalar z) := by
  have hda := denotes_of_evaluate hel.exponentsIn hx hxa
  have hdc := denotes_of_evaluate her.exponentsIn hy hxa
  have hcl := (written_of_parse hl).properCoefficients regular
  have hcr := (written_of_parse hr).properCoefficients regular
  have hdegrees {e : Expr ExactNumber} (he : e.ExponentsIn {n : ℤ | 0 < n})
      (hle : (s.simplify e).ExponentsIn {n : ℤ | n ≤ 4294967295}) :
      (s.simplify e).ExponentsIn degrees :=
    (exponentsIn_simplify exponentSet_pos he s).inter hle
  have hknows {k : Expr ExactNumber} (hk : k.ExponentsIn {n : ℤ | 0 < n})
      (hd : Denotes t.assignment k a) (hclosed : (s.simplify k).containsVariable = false) :
      s.Knows (s.simplify k) a := by
    obtain ⟨hk', hd'⟩ := denotes_simplify_of_pos hs hst hk hd
    exact (knows_iff_of_closed hs hst hk' hclosed hd').2 rfl
  obtain ⟨u, k, hside, hiso⟩ := exists_sides_of_solve ((resolve_eq_binding_iff hpieces hl hr).1 h)
  have hreach := hno u k hside
  cases hside with
  | left _ hclosed =>
    exact exists_of_isolate hiso (offers_of_denotes hs hst hcl hel.exponentsIn
      (hdegrees hel.exponentsIn hle) hda)
      (hknows her.exponentsIn hdc hclosed) hreach
  | right hclosed _ =>
    exact exists_of_isolate hiso (offers_of_denotes hs hst hcr her.exponentsIn
      (hdegrees her.exponentsIn hre) hdc)
      (hknows hel.exponentsIn hda hclosed) hreach

/-- The solution of `(1 / x + 1) ^ 2 = 4` contains `1`, where its sides are `4`. The isolation
divides one by a list of roots. -/
theorem resolve_complete_squaredQuotient :
    ∃ (w : Value ExactNumber) (x : ExactNumber),
      (empty.resolve "(1/x+1)^2=4".toList).1 = .ok (.binding 'x' w) ∧ x.value? = some 4 ∧
      (empty.bind 'x' (.scalar (ofComplex 1))).evaluate (squaredQuotient 1 (.var 'x' 1)) =
        .ok (.scalar x) ∧
      ∃ z ∈ w.elements,
        (empty.bind 'x' (.scalar (ofComplex 1))).get? 'x' = some (.scalar z) := by
  have hpieces : Text.pieces '=' "(1/x+1)^2=4".toList = ["(1/x+1)^2".toList, "4".toList] := by
    decide
  have hresolve := resolve_squaredQuotient rfl rfl hpieces parse_squaredQuotient_one parse_four
    (isolate_squaredQuotient 1 4)
  obtain ⟨x, hx, hxa⟩ := evaluate_of_denotes (denotes_squaredQuotient_one 1)
  rw [show ((1 : ℂ) + 1) ^ 2 = 4 by norm_num] at hxa
  obtain rfl := value?_eq_some_iff.1 hxa
  refine ⟨_, _, hresolve, hxa, hx, resolve_complete scalar_empty (extends_empty _) hpieces
    parse_squaredQuotient_one parse_four (literalExponents_squaredQuotient 1 trivial) trivial
    (exponentsIn_squaredQuotient 1) trivial hresolve ?_ hxa hx rfl⟩
  intro u k hside u' k' hreach
  cases hside with
  | right hl hr => cases hr
  | left _ _ =>
    rw [simplify_squaredQuotient 1 rfl (by decide)] at hreach
    rintro ⟨_, _, _, hswap, -, hzero⟩
    obtain ⟨rfl, -⟩ := eq_of_swapsRoots_squaredQuotient hreach hswap
    exact one_ne_zero (hzero 1 ((knows_iff rfl).2 ⟨_, List.mem_singleton_self _, rfl⟩))

/-- The solution of `(0 / x + 1) ^ 2 = 1` lacks `1`, where both of its sides are `1`: the dividend
zero is divided by the list of the roots `0` and `-2`. -/
theorem resolve_lossy :
    ∃ (w : Value ExactNumber) (x : ExactNumber),
      (empty.resolve "(0/x+1)^2=1".toList).1 = .ok (.binding 'x' w) ∧
      parse "(0/x+1)^2".toList = .ok (squaredQuotient 0 (.var 'x' 1)) ∧
      parse "1".toList = .ok (.number (ofComplex 1)) ∧
      (squaredQuotient 0 (.var 'x' 1)).LiteralExponents {n : ℤ | 0 < n} ∧
      (empty.simplify (squaredQuotient 0 (.var 'x' 1))).ExponentsIn {n : ℤ | n ≤ 4294967295} ∧
      x.value? = some 1 ∧
      (empty.bind 'x' (.scalar (ofComplex 1))).evaluate (squaredQuotient 0 (.var 'x' 1)) =
        .ok (.scalar x) ∧
      (empty.bind 'x' (.scalar (ofComplex 1))).evaluate (.number (ofComplex 1)) =
        .ok (.scalar x) ∧
      ∀ z ∈ w.elements,
        (empty.bind 'x' (.scalar (ofComplex 1))).get? 'x' ≠ some (.scalar z) := by
  have hpieces : Text.pieces '=' "(0/x+1)^2=1".toList = ["(0/x+1)^2".toList, "1".toList] := by
    decide
  have hresolve := resolve_squaredQuotient rfl rfl hpieces parse_squaredQuotient_zero parse_one
    (isolate_squaredQuotient 0 1)
  obtain ⟨x, hx, hxa⟩ := evaluate_of_denotes (denotes_squaredQuotient_one 0)
  rw [show ((0 : ℂ) + 1) ^ 2 = 1 by norm_num] at hxa
  obtain rfl := value?_eq_some_iff.1 hxa
  refine ⟨_, _, hresolve, parse_squaredQuotient_zero, parse_one,
    literalExponents_squaredQuotient 0 trivial, exponentsIn_squaredQuotient 0, hxa, hx, rfl, ?_⟩
  intro z hz hget
  rw [get?_bind] at hget
  cases hget
  rw [Value.elements_map] at hz
  obtain ⟨y, hy, hone⟩ := List.mem_map.1 hz
  obtain ⟨c, hc, r, -, rfl⟩ := Value.mem_combine.1 hy
  cases List.mem_singleton.1 hc
  obtain ⟨a, b, ha, hb, hop⟩ := computes_of_value?_apply (o := .div)
    (congrArg Number.value? hone) fun h => absurd h (by decide)
  obtain ⟨p, d, hp, -, hop'⟩ := computes_of_value?_apply (o := .div) ha
    fun h => absurd h (by decide)
  cases hp
  obtain ⟨-, rfl⟩ := Operator.computes_div_iff.1 hop'
  obtain ⟨-, hzero⟩ := Operator.computes_div_iff.1 hop
  rw [zero_div, zero_div] at hzero
  exact zero_ne_one hzero

end Scope
end ComplexAlgebra
