import ComplexAlgebra.Proofs.ExactSimplification
import ComplexAlgebra.Proofs.Undoing

/-! Undefined numbers in an isolation. Where every number of the known side is undefined, or the
unknown side holds a factor, dividend or coefficient of which this is true, every number of the
solution is undefined. So a defined solution shows that nothing was divided by zero on the way. -/
namespace ComplexAlgebra

open ExactNumber

namespace ExactNumber

theorem value?_apply_of_left {x : ExactNumber} (hx : x.value? = none) (o : Operator)
    (y : ExactNumber) : (o.apply x y).value? = none := by
  cases o with
  | add => exact (value?_add x y).trans (by simp [hx])
  | sub => exact (value?_sub x y).trans (by simp [hx])
  | mul => exact (value?_mul x y).trans (by simp [hx])
  | div => exact (value?_div x y).trans (by simp [hx])
  | pow =>
    have hx0 : ¬ (x == 0) = true := by
      intro h
      rw [beq_iff.1 h] at hx
      cases hx
    show (x.power y).value? = none
    rw [Number.power, if_neg hx0, value?_exp]
    show ((x.log * y).value?).map Complex.exp = none
    rw [value?_mul, value?_log, hx]
    rfl

theorem value?_apply_of_right {o : Operator} (ho : o ≠ .pow) (x : ExactNumber) {y : ExactNumber}
    (hy : y.value? = none) : (o.apply x y).value? = none := by
  cases h : (o.apply x y).value? with
  | none => rfl
  | some c =>
    obtain ⟨a, b, -, hb, -⟩ := computes_of_value?_apply h fun h => absurd h ho
    cases hy.symm.trans hb

end ExactNumber

namespace Value

/-- No number of the value is defined. -/
def Void (v : Value ExactNumber) : Prop := ∀ x ∈ v.elements, x.value? = none

variable {v w : Value ExactNumber}

theorem Void.map {f : ExactNumber → ExactNumber} (hv : v.Void)
    (hf : ∀ x, x.value? = none → (f x).value? = none) : (v.map f).Void := by
  intro y hy
  rw [elements_map] at hy
  obtain ⟨x, hx, rfl⟩ := List.mem_map.1 hy
  exact hf x (hv x hx)

theorem mem_combine {o : Operator} {z : ExactNumber} :
    z ∈ (o.combine v w).elements ↔ ∃ x ∈ v.elements, ∃ y ∈ w.elements, o.apply x y = z := by
  rw [Operator.combine, elements_combine]
  simp only [List.mem_flatMap, List.mem_map]

theorem Void.combine_left (hv : v.Void) (o : Operator) (w : Value ExactNumber) :
    (o.combine v w).Void := by
  intro z hz
  obtain ⟨x, hx, y, -, rfl⟩ := mem_combine.1 hz
  exact value?_apply_of_left (hv x hx) o y

theorem Void.combine_right {o : Operator} (ho : o ≠ .pow) (v : Value ExactNumber) (hw : w.Void) :
    (o.combine v w).Void := by
  intro z hz
  obtain ⟨x, -, y, hy, rfl⟩ := mem_combine.1 hz
  exact value?_apply_of_right ho x (hw y hy)

theorem Void.withSign (negated : Bool) (hv : v.Void) : (v.withSign negated).Void := by
  cases negated with
  | false => exact hv
  | true => exact hv.map fun x hx => (value?_neg x).trans (by simp [hx])

theorem Void.roots (hv : v.Void) (n : Nat) : (v.roots n).Void := by
  intro z hz
  obtain ⟨x, hx, hz⟩ := List.mem_flatMap.1 hz
  exact value?_of_mem_roots_undefined (hv x hx) hz

theorem Void.isNumber_eq_false (hv : v.Void) (a : ℂ) :
    (Expr.constant v).isNumber (.ofComplex a) = false := by
  rw [Bool.eq_false_iff]
  intro h
  obtain ⟨x, hx, hxa⟩ := Expr.isNumber_iff.1 h
  cases hx
  have hnone := hv x List.mem_cons_self
  rw [beq_iff.1 hxa] at hnone
  cases hnone

end Value

namespace Expr

open Simplification

/-- Expressions with an undefined part that no simplification removes. -/
inductive Dead : Expr ExactNumber → Prop
  | constant {v : Value ExactNumber} (h : v.Void) : Dead (.constant v)
  | var (name : Char) {c : ExactNumber} (h : c.value? = none) : Dead (.var name c)
  | product {v : Value ExactNumber} (h : v.Void) (e : Expr ExactNumber) :
    Dead (.op .mul (.constant v) e)
  | quotient {v : Value ExactNumber} (h : v.Void) (e : Expr ExactNumber) :
    Dead (.op .div (.constant v) e)
  | sum {o : Operator} (ho : o = .add ∨ o = .sub) {l r : Expr ExactNumber} (hl : Dead l)
    (hr : Dead r) : Dead (.op o l r)

theorem Dead.void {v : Value ExactNumber} (h : Dead (.constant v)) : v.Void := by
  cases h with
  | constant h => exact h

theorem Dead.additive (negated : Bool) {l r : Expr ExactNumber} (hl : Dead l) (hr : Dead r) :
    Dead (.op (additive negated) l r) := by
  cases negated with
  | false => exact .sum (.inl rfl) hl hr
  | true => exact .sum (.inr rfl) hl hr

theorem Dead.operands {o : Operator} {l r : Expr ExactNumber} (h : Dead (.op o l r))
    (ho : o = .add ∨ o = .sub) : Dead l ∧ Dead r := by
  cases h with
  | product => simp at ho
  | quotient => simp at ho
  | sum _ hl hr => exact ⟨hl, hr⟩

theorem Dead.isNumber_eq_false {e : Expr ExactNumber} (h : Dead e) (a : ℂ) :
    e.isNumber (.ofComplex a) = false := by
  cases h with
  | constant h => exact h.isNumber_eq_false a
  | var => rfl
  | product => rfl
  | quotient => rfl
  | sum => rfl

end Expr

namespace Simplification

open ComplexAlgebra.Expr

theorem dead_collected (name : Char) {c : ExactNumber} (h : c.value? = none) :
    Dead (collected name c) := by
  rw [collected, if_neg]
  · exact .var name h
  · intro h0
    rw [beq_iff.1 h0] at h
    cases h

theorem dead_of_split? {e : Expr ExactNumber} {p : Split ExactNumber} (h : split? e = some p)
    (he : Dead e) : p.constant.Void ∧ Dead p.rest := by
  unfold split? at h
  split at h
  · cases h
    obtain ⟨hl, hr⟩ := he.operands (.inl rfl)
    exact ⟨hr.void, hl⟩
  · cases h
    obtain ⟨hl, hr⟩ := he.operands (.inr rfl)
    exact ⟨hr.void.withSign true, hl⟩
  · cases h
    obtain ⟨hl, hr⟩ := he.operands (.inl rfl)
    exact ⟨hl.void, hr⟩
  · cases h
    obtain ⟨hl, hr⟩ := he.operands (.inr rfl)
    exact ⟨hl.void, hr⟩
  · cases h

theorem dead_of_regrouped? {negated : Bool} {l r : Expr ExactNumber} {p : Split ExactNumber}
    (h : regrouped? negated l r = some p) (hl : Dead l) (hr : Dead r) :
    p.constant.Void ∧ Dead p.rest := by
  unfold regrouped? at h
  split at h
  · obtain ⟨q, hq, rfl⟩ := Option.map_eq_some_iff.1 h
    obtain ⟨hc, hrest⟩ := dead_of_split? hq hl
    exact ⟨hc.combine_left .add _, hrest⟩
  · obtain ⟨q, hq, rfl⟩ := Option.map_eq_some_iff.1 h
    obtain ⟨-, hrest⟩ := dead_of_split? hq hr
    exact ⟨hl.void.combine_left .add _, hrest⟩
  · cases h

theorem dead_of_sumAtOnce? {negated : Bool} {l r e : Expr ExactNumber}
    (h : sumAtOnce? negated l r = some e) (hl : Dead l) (hr : Dead r) : Dead e := by
  have hl0 := hl.isNumber_eq_false 0
  have hr0 := hr.isNumber_eq_false 0
  rw [ofComplex_zero] at hl0 hr0
  unfold sumAtOnce? at h
  split at h
  · cases h
    exact .constant (hl.void.combine_left _ _)
  · next a c b d =>
    cases hl with
    | var _ hc =>
      split at h
      · cases h
        cases negated with
        | false => exact dead_collected _ (value?_apply_of_left (o := .add) hc d)
        | true => exact dead_collected _ (value?_apply_of_left hc .sub d)
      · cases h
        exact .additive negated (.var a hc) hr
  · simp only [hl0, hr0, Bool.false_and, Bool.false_eq_true, if_false] at h
    split at h
    · simp only [hl0, Bool.false_eq_true, if_false] at h
      cases h
      exact .additive negated hl hr
    · cases h
      exact .additive negated hl hr
    · cases h
      exact .additive negated hl hr
    · cases h

theorem dead_sum (negated : Bool) {l r : Expr ExactNumber} (hl : Dead l) (hr : Dead r) :
    Dead (sum negated l r) := by
  fun_induction sum negated l r with
  | case1 negated l r e h => exact dead_of_sumAtOnce? h hl hr
  | case2 negated l r _ p h _ ih =>
    obtain ⟨hc, hrest⟩ := dead_of_regrouped? h hl hr
    exact ih (.constant hc) hrest
  | case3 negated l r _ p h _ ih =>
    obtain ⟨hc, hrest⟩ := dead_of_regrouped? h hl hr
    exact ih hrest (.constant hc)
  | case4 negated l r => exact .additive negated hl hr

theorem dead_of_productAtOnce? {v : Value ExactNumber} (hv : v.Void) {e e' : Expr ExactNumber}
    (h : productAtOnce? (.constant v) e = some e') : Dead e' := by
  cases e with
  | constant w =>
    cases h
    exact .constant (hv.combine_left .mul w)
  | var name c =>
    cases v with
    | list xs => cases h
    | scalar x =>
      have hx0 : (x == 0) = false := hv.isNumber_eq_false 0
      have hx1 : (x == 1) = false := hv.isNumber_eq_false 1
      simp only [productAtOnce?, Expr.isNumber, hx0, hx1, Bool.or_self, Bool.false_eq_true,
        if_false] at h
      cases h
      exact .var name (value?_apply_of_right (o := .mul) (by decide) c (hv x List.mem_cons_self))
  | op o l r =>
    cases v with
    | list xs => cases h
    | scalar x =>
      have hx0 : (x == 0) = false := hv.isNumber_eq_false 0
      have hx1 : (x == 1) = false := hv.isNumber_eq_false 1
      simp [productAtOnce?, Expr.isNumber, hx0, hx1] at h

theorem dead_of_quotientAtOnce? {v : Value ExactNumber} (hv : v.Void) {e e' : Expr ExactNumber}
    (h : quotientAtOnce? (.constant v) e = some e') : Dead e' := by
  cases e with
  | constant w =>
    cases h
    exact .constant (hv.combine_left .div w)
  | var name c => cases h
  | op o l r => cases h

theorem dead_divide {v : Value ExactNumber} (hv : v.Void) (e : Expr ExactNumber) :
    Dead (divide (.constant v) e) := by
  rw [divide]
  split
  · next e' h => exact dead_of_quotientAtOnce? hv h
  · split
    · next h => cases (eq_of_distributable? h).1
    · cases e with
      | constant w =>
        next h _ => cases h
      | var name c => exact .quotient hv _
      | op o l r => exact .quotient hv _

theorem dead_multiply {v : Value ExactNumber} (hv : v.Void) (e : Expr ExactNumber) :
    Dead (multiply (.constant v) e) := by
  rw [multiply]
  split
  · next e' h => exact dead_of_productAtOnce? hv h
  · split
    · next h => cases (eq_of_distributable? h).1
    · split
      · next negated a b h =>
        have hsize := size_of_distributable? h
        exact dead_sum negated (dead_multiply hv a) (dead_multiply hv b)
      · split
        · next c k rest h =>
          have hsize := size_of_pairing? h
          obtain ⟨f, -, hf⟩ := Option.map_eq_some_iff.1 h
          cases hf
          exact dead_multiply (hv.combine_left .mul k) rest
        · next c rest k h =>
          have hsize := size_of_pairing? h
          obtain ⟨f, -, hf⟩ := Option.map_eq_some_iff.1 h
          cases hf
          exact dead_multiply (hv.combine_left .div k) rest
        · next c k rest h =>
          obtain ⟨f, -, hf⟩ := Option.map_eq_some_iff.1 h
          cases hf
          exact dead_divide (hv.combine_left .mul k) rest
        · exact .product hv e
termination_by e.size
decreasing_by all_goals simp only [Expr.size, Factored.rest] at *; omega

end Simplification

namespace Scope

open ComplexAlgebra.Expr Simplification

variable {s : Scope ExactNumber}

theorem dead_simplify {e : Expr ExactNumber} (h : Dead e) : Dead (s.simplify e) := by
  induction h with
  | constant h => exact .constant h
  | var name h =>
    rw [simplify]
    split
    · next v _ =>
      refine .constant fun y hy => ?_
      rw [Value.elements_map] at hy
      obtain ⟨x, -, rfl⟩ := List.mem_map.1 hy
      exact value?_apply_of_right (o := .mul) (by decide) x h
    · exact .var name h
  | product h e => exact dead_multiply h _
  | quotient h e => exact dead_divide h _
  | sum ho hl hr ihl ihr =>
    rcases ho with rfl | rfl
    · exact dead_sum false ihl ihr
    · exact dead_sum true ihl ihr

/-- A known side that comes to no defined number. -/
def KnownVoid (s : Scope ExactNumber) (k : Expr ExactNumber) : Prop :=
  ∃ v, s.simplify k = .constant v ∧ v.Void

theorem knownVoid_of_left {o : Operator} (ho : o ≠ .pow) {v : Value ExactNumber} (hv : v.Void)
    {r : Expr ExactNumber} (hr : r.containsVariable = false) :
    s.KnownVoid (.op o (.constant v) r) := by
  obtain ⟨w, hw⟩ := s.exists_simplify_eq_constant hr
  exact ⟨_, simplify_constants ho rfl hw, hv.combine_left o w⟩

theorem knownVoid_of_right {o : Operator} (ho : o ≠ .pow) {l : Expr ExactNumber}
    (hl : l.containsVariable = false) {v : Value ExactNumber} (hv : v.Void) :
    s.KnownVoid (.op o l (.constant v)) := by
  obtain ⟨w, hw⟩ := s.exists_simplify_eq_constant hl
  exact ⟨_, simplify_constants ho hw rfl, hv.combine_right ho w⟩

theorem isNumber_zero_combine_div (w : Value ExactNumber) :
    (Expr.constant (Operator.div.combine (.scalar 1) w)).isNumber 0 = false := by
  rw [Bool.eq_false_iff]
  intro h
  obtain ⟨x, hx, hx0⟩ := Expr.isNumber_iff.1 h
  cases w with
  | list ys => cases hx
  | scalar y =>
    cases hx
    have hzero : (Operator.div.apply (1 : ExactNumber) y).value? = some 0 :=
      congrArg Number.value? (beq_iff.1 hx0)
    obtain ⟨a, b, ha, -, hop⟩ := computes_of_value?_apply hzero fun h => absurd h (by decide)
    obtain rfl : (1 : ℂ) = a := Option.some.inj ha
    generalize hq : (0 : ℂ) = q at hop
    cases hop with
    | div _ hb => exact hb (by simpa using hq.symm)

theorem simplify_principal {r : Expr ExactNumber} {w : Value ExactNumber}
    (hr : s.simplify r = .constant w) (v : Value ExactNumber) :
    s.simplify (.op .pow (.constant v) (.op .div (.number 1) r)) =
      if (Expr.constant (Operator.div.combine (.scalar 1) w)).isNumber 1 then .constant v
      else .constant (Operator.pow.combine v (Operator.div.combine (.scalar 1) w)) := by
  have hdiv : s.simplify (.op .div (.number 1) r) =
      .constant (Operator.div.combine (.scalar 1) w) :=
    simplify_constants (by decide) rfl hr
  rw [simplify, hdiv]
  show power (.constant v) _ = _
  rw [power_constant, isNumber_zero_combine_div, if_neg Bool.false_ne_true]

theorem knownVoid_undoRight {o : Operator} {v : Value ExactNumber} (hv : v.Void)
    {r : Expr ExactNumber} (hr : r.containsVariable = false) :
    s.KnownVoid (undoRight o r v) := by
  cases o with
  | add => exact knownVoid_of_left (o := .sub) (by decide) hv hr
  | sub => exact knownVoid_of_left (o := .add) (by decide) hv hr
  | mul => exact knownVoid_of_left (o := .div) (by decide) hv hr
  | div => exact knownVoid_of_left (o := .mul) (by decide) hv hr
  | pow =>
    rw [undoRight]
    split
    · next n _ => exact ⟨v.roots n, rfl, hv.roots n⟩
    · obtain ⟨w, hw⟩ := s.exists_simplify_eq_constant hr
      rw [KnownVoid, simplify_principal hw v]
      split
      · exact ⟨v, rfl, hv⟩
      · exact ⟨_, rfl, hv.combine_left .pow _⟩

/-- A step from a known side without defined numbers leads to one again, or makes it a factor of
the unknown side. -/
theorem void_or_dead_of_knownVoid {u k u' k' : Expr ExactNumber} (hstep : s.Undoes u k u' k')
    (h : s.KnownVoid k) : s.KnownVoid k' ∨ Dead u' := by
  obtain ⟨v', hv', hvoid⟩ := h
  cases hstep with
  | left hk hu hl hr =>
    cases hk.symm.trans hv'
    exact .inl (knownVoid_undoRight hvoid hr)
  | addend hk hu hl hr =>
    cases hk.symm.trans hv'
    exact .inl (knownVoid_of_left (o := .sub) (by decide) hvoid hl)
  | subtrahend hk hu hl hr =>
    cases hk.symm.trans hv'
    exact .inl (knownVoid_of_right (o := .sub) (by decide) hl hvoid)
  | factor hk hu hl hr =>
    cases hk.symm.trans hv'
    exact .inl (knownVoid_of_left (o := .div) (by decide) hvoid hl)
  | divisor hk hu hl hr =>
    cases hk.symm.trans hv'
    exact .inr (.product hvoid _)
  | exponent hk hu hl hr hbase =>
    cases hk.symm.trans hv'
    have hlog := hvoid.map (f := Arithmetic.log) fun x hx => (value?_log x).trans (by simp [hx])
    exact .inl (knownVoid_of_left (o := .div) (by decide) hlog rfl)

/-- A step from a dead unknown side leads to one again, or moves its factor to the known side. -/
theorem void_or_dead_of_dead {u k u' k' : Expr ExactNumber} (hstep : s.Undoes u k u' k')
    (h : Dead u) : s.KnownVoid k' ∨ Dead u' := by
  have hd := dead_simplify (s := s) h
  cases hstep with
  | left hk hu hl hr =>
    rw [hu] at hd
    cases hd with
    | product => cases hl
    | quotient => cases hl
    | sum _ hl' _ => exact .inr hl'
  | addend hk hu hl hr =>
    rw [hu] at hd
    exact .inr (hd.operands (.inl rfl)).2
  | subtrahend hk hu hl hr =>
    rw [hu] at hd
    exact .inr (hd.operands (.inr rfl)).2
  | factor hk hu hl hr =>
    rw [hu] at hd
    cases hd with
    | product hv _ => exact .inl (knownVoid_of_right (o := .div) (by decide) rfl hv)
    | sum ho => simp at ho
  | divisor hk hu hl hr =>
    rw [hu] at hd
    cases hd with
    | quotient hv _ => exact .inl ⟨_, rfl, hv⟩
    | sum ho => simp at ho
  | exponent hk hu hl hr hbase =>
    rw [hu] at hd
    cases hd with
    | sum ho => simp at ho

theorem void_of_isolate {u k : Expr ExactNumber} {name : Char} {w : Value ExactNumber}
    (h : s.isolate u k = .ok (name, w)) (huk : s.KnownVoid k ∨ Dead u) : w.Void := by
  revert huk
  refine isolate_induction (P := fun u k => s.KnownVoid k ∨ Dead u → w.Void) ?_ ?_ h
  · rintro u k c v hk hu rfl (⟨v', hv', hvoid⟩ | hdead)
    · cases hk.symm.trans hv'
      exact hvoid.map fun x hx => value?_apply_of_left hx .div c
    · have hvar := dead_simplify (s := s) hdead
      rw [hu] at hvar
      cases hvar with
      | var _ hc =>
        intro y hy
        rw [Value.elements_map] at hy
        obtain ⟨x, -, rfl⟩ := List.mem_map.1 hy
        exact value?_apply_of_right (o := .div) (by decide) x hc
  · intro u k u' k' hstep _ ih huk
    exact ih (huk.elim (void_or_dead_of_knownVoid hstep) (void_or_dead_of_dead hstep))

end Scope
end ComplexAlgebra
