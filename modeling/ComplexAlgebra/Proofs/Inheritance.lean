import ComplexAlgebra.Proofs.Undoing

/-! What simplification hands on from its operands to its results. Every result is a constant, a
collected variable, the outcome of a rule without recursion, an operand of an operand, or an
operation that no rule applies to; a property that all of these inherit is one of every simplified
expression. -/
namespace ComplexAlgebra

variable {K : Type} [Arithmetic K]

namespace Expr

/-- `x.IsOperand e`: the expression `e` is an operation, but no power, on `x` and another one. -/
inductive IsOperand : Expr K → Expr K → Prop
  | left {o : Operator} (ho : o ≠ .pow) (l r : Expr K) : IsOperand l (.op o l r)
  | right {o : Operator} (ho : o ≠ .pow) (l r : Expr K) : IsOperand r (.op o l r)

end Expr

namespace Simplification

open ComplexAlgebra.Expr

theorem isOperand_split? {e : Expr K} {t : Split K} (h : split? e = some t) :
    t.rest.IsOperand e := by
  unfold split? at h
  split at h
  · cases h
    exact .left (by decide) _ _
  · cases h
    exact .left (by decide) _ _
  · cases h
    exact .right (by decide) _ _
  · cases h
    exact .right (by decide) _ _
  · cases h

theorem isOperand_regrouped? {negated : Bool} {l r : Expr K} {t : Split K}
    (h : regrouped? negated l r = some t) : t.rest.IsOperand l ∨ t.rest.IsOperand r := by
  unfold regrouped? at h
  split at h
  · obtain ⟨t, ht, rfl⟩ := Option.map_eq_some_iff.1 h
    exact .inl (isOperand_split? ht :)
  · obtain ⟨t, ht, rfl⟩ := Option.map_eq_some_iff.1 h
    exact .inr (isOperand_split? ht :)
  · cases h

omit [Arithmetic K] in
theorem isOperand_factored? {e : Expr K} {f : Factored K} (h : factored? e = some f) :
    f.rest.IsOperand e := by
  unfold factored? at h
  split at h
  · cases h
    exact .right (by decide) _ _
  · cases h
    exact .left (by decide) _ _
  · cases h
    exact .left (by decide) _ _
  · cases h
    exact .right (by decide) _ _
  · cases h

omit [Arithmetic K] in
theorem isOperand_pairing? {l r : Expr K} {c : Value K} {f : Factored K}
    (h : pairing? l r = some (c, f)) : f.rest.IsOperand l ∨ f.rest.IsOperand r := by
  unfold pairing? at h
  split at h
  · obtain ⟨g, hg, heq⟩ := Option.map_eq_some_iff.1 h
    cases heq
    exact .inr (isOperand_factored? hg)
  · obtain ⟨g, hg, heq⟩ := Option.map_eq_some_iff.1 h
    cases heq
    exact .inl (isOperand_factored? hg)
  · cases h

omit [Arithmetic K] in
theorem isOperand_dividing? {l r : Expr K} {k : Value K} {f : Factored K}
    (h : dividing? l r = some (k, f)) : f.rest.IsOperand l := by
  unfold dividing? at h
  split at h
  · obtain ⟨g, hg, heq⟩ := Option.map_eq_some_iff.1 h
    cases heq
    exact isOperand_factored? hg
  · cases h

omit [Arithmetic K] in
theorem isOperand_distributable? {e other a b : Expr K} {negated : Bool}
    (h : distributable? e other = some (negated, a, b)) : a.IsOperand e ∧ b.IsOperand e := by
  obtain ⟨rfl, -⟩ := eq_of_distributable? h
  have ho : additive negated ≠ .pow := by cases negated <;> decide
  exact ⟨.left ho _ _, .right ho _ _⟩

theorem sum_of_sumAtOnce? {negated : Bool} {l r e : Expr K} (h : sumAtOnce? negated l r = some e) :
    sum negated l r = e := by
  rw [sum, h]

/-- What the rules that look into no sum come to: a constant, a collected variable, one of the
operands, or the operation as it is. -/
theorem sumAtOnce?_cases {negated : Bool} {l r e : Expr K} (h : sumAtOnce? negated l r = some e) :
    (∃ v, e = .constant v) ∨ (∃ name c, e = collected name c) ∨ e = l ∨ e = r ∨
      e = .op (additive negated) l r := by
  unfold sumAtOnce? at h
  split at h
  · exact .inl ⟨_, (Option.some.inj h).symm⟩
  · split at h
    · exact .inr (.inl ⟨_, _, (Option.some.inj h).symm⟩)
    · exact .inr (.inr (.inr (.inr (Option.some.inj h).symm)))
  · split at h
    · exact .inr (.inr (.inl (Option.some.inj h).symm))
    · split at h
      · exact .inr (.inr (.inr (.inl (Option.some.inj h).symm)))
      · split at h
        · split at h
          · exact .inr (.inl ⟨_, _, (Option.some.inj h).symm⟩)
          · exact .inr (.inr (.inr (.inr (Option.some.inj h).symm)))
        · exact .inr (.inr (.inr (.inr (Option.some.inj h).symm)))
        · exact .inr (.inr (.inr (.inr (Option.some.inj h).symm)))
        · cases h

theorem sum_of_none {negated : Bool} {l r : Expr K} (h : sumAtOnce? negated l r = none)
    (h' : regrouped? negated l r = none) : sum negated l r = .op (additive negated) l r := by
  rw [sum]
  simp only [h]
  split
  · next ht => cases h'.symm.trans ht
  · rfl

theorem multiply_of_none {l r : Expr K} (h : productAtOnce? l r = none)
    (hl : distributable? l r = none) (hr : distributable? r l = none)
    (hp : pairing? l r = none) : multiply l r = .op .mul l r := by
  rw [multiply]
  simp only [h]
  split
  · next hh => cases hl.symm.trans hh
  · split
    · next hh => cases hr.symm.trans hh
    · split
      · next hh => cases hp.symm.trans hh
      · next hh => cases hp.symm.trans hh
      · next hh => cases hp.symm.trans hh
      · rfl

theorem divide_of_none {l r : Expr K} (h : quotientAtOnce? l r = none)
    (hl : distributable? l r = none) (hd : dividing? l r = none) :
    divide l r = .op .div l r := by
  rw [divide]
  simp only [h]
  split
  · next hh => cases hl.symm.trans hh
  · split
    · next hh => cases hd.symm.trans hh
    · next hh => cases hd.symm.trans hh
    · next hh => cases hd.symm.trans hh
    · rfl

/-- A property that results inherit from operands, in both directions of the tree: an operation has
it together with its operands if no rule applies, and its operands have it with the operation. -/
structure Inherited (P : Expr K → Prop) : Prop where
  constant (v : Value K) : P (.constant v)
  unit (name : Char) : P (.var name 1)
  collected (name : Char) (c : K) : P (collected name c)
  left {o : Operator} {l r : Expr K} (h : P (.op o l r)) : P l
  right {o : Operator} {l r : Expr K} (h : P (.op o l r)) : P r
  product {l r e : Expr K} (hl : P l) (hr : P r) (h : productAtOnce? l r = some e) : P e
  quotient {l r e : Expr K} (hl : P l) (hr : P r) (h : quotientAtOnce? l r = some e) : P e
  op {o : Operator} {l r : Expr K} (hl : P l) (hr : P r) (h : operation o l r = .op o l r) :
    P (.op o l r)

section Inherited

variable {P : Expr K → Prop} {l r e base : Expr K}

theorem inherited_operand (hP : Inherited P) {x : Expr K} (he : P e) (h : x.IsOperand e) : P x := by
  cases h with
  | left => exact hP.left he
  | right => exact hP.right he

theorem inherited_additive (hP : Inherited P) {negated : Bool} (hl : P l) (hr : P r)
    (h : sum negated l r = .op (additive negated) l r) : P (.op (additive negated) l r) := by
  cases negated with
  | false => exact hP.op hl hr h
  | true => exact hP.op hl hr h

theorem inherited_sumAtOnce (hP : Inherited P) {negated : Bool} (hl : P l) (hr : P r)
    (h : sumAtOnce? negated l r = some e) : P e := by
  rcases sumAtOnce?_cases h with ⟨v, rfl⟩ | ⟨name, c, rfl⟩ | rfl | rfl | rfl
  · exact hP.constant v
  · exact hP.collected name c
  · exact hl
  · exact hr
  · exact inherited_additive hP hl hr (sum_of_sumAtOnce? h)

theorem inherited_regrouped (hP : Inherited P) {negated : Bool} {t : Split K} (hl : P l) (hr : P r)
    (h : regrouped? negated l r = some t) : P t.rest :=
  (isOperand_regrouped? h).elim (inherited_operand hP hl) (inherited_operand hP hr)

theorem inherited_sum (hP : Inherited P) (negated : Bool) (hl : P l) (hr : P r) :
    P (sum negated l r) := by
  fun_induction sum negated l r with
  | case1 negated l r e h => exact inherited_sumAtOnce hP hl hr h
  | case2 negated l r _ t h _ ih => exact ih (hP.constant _) (inherited_regrouped hP hl hr h)
  | case3 negated l r _ t h _ ih => exact ih (inherited_regrouped hP hl hr h) (hP.constant _)
  | case4 negated l r h h' => exact inherited_additive hP hl hr (sum_of_none h h')

theorem inherited_pairing (hP : Inherited P) {c : Value K} {f : Factored K} (hl : P l) (hr : P r)
    (h : pairing? l r = some (c, f)) : P f.rest :=
  (isOperand_pairing? h).elim (inherited_operand hP hl) (inherited_operand hP hr)

mutual

theorem inherited_multiply (hP : Inherited P) {l r : Expr K} (hl : P l) (hr : P r) :
    P (multiply l r) := by
  rw [multiply]
  split
  · next e h => exact hP.product hl hr h
  · split
    · next negated a b h =>
      have hsize := size_of_distributable? h
      obtain ⟨ha, hb⟩ := isOperand_distributable? h
      exact inherited_sum hP negated (inherited_multiply hP (inherited_operand hP hl ha) hr)
        (inherited_multiply hP (inherited_operand hP hl hb) hr)
    · split
      · next negated a b h =>
        have hsize := size_of_distributable? h
        obtain ⟨ha, hb⟩ := isOperand_distributable? h
        exact inherited_sum hP negated (inherited_multiply hP hl (inherited_operand hP hr ha))
          (inherited_multiply hP hl (inherited_operand hP hr hb))
      · split
        · next c k rest h =>
          have hsize := size_of_pairing? h
          exact inherited_multiply hP (hP.constant _) (inherited_pairing hP hl hr h)
        · next c rest k h =>
          have hsize := size_of_pairing? h
          exact inherited_multiply hP (hP.constant _) (inherited_pairing hP hl hr h)
        · next c k rest h =>
          have hsize := size_of_pairing? h
          exact inherited_divide hP (hP.constant _) (inherited_pairing hP hl hr h)
        · next h hdl hdr hp => exact hP.op hl hr (multiply_of_none h hdl hdr hp)
termination_by l.size + r.size
decreasing_by all_goals simp only [Expr.size, Factored.rest] at *; omega

theorem inherited_divide (hP : Inherited P) {l r : Expr K} (hl : P l) (hr : P r) :
    P (divide l r) := by
  rw [divide]
  split
  · next e h => exact hP.quotient hl hr h
  · split
    · next negated a b h =>
      have hsize := size_of_distributable? h
      obtain ⟨ha, hb⟩ := isOperand_distributable? h
      exact inherited_sum hP negated (inherited_divide hP (inherited_operand hP hl ha) hr)
        (inherited_divide hP (inherited_operand hP hl hb) hr)
    · split
      · next k c rest h =>
        have hsize := size_of_dividing? h
        exact inherited_multiply hP (hP.constant _)
          (inherited_operand hP hl (isOperand_dividing? h))
      · next k rest c h =>
        have hsize := size_of_dividing? h
        exact inherited_divide hP (inherited_operand hP hl (isOperand_dividing? h)) (hP.constant _)
      · next k c rest h =>
        have hsize := size_of_dividing? h
        exact inherited_divide hP (hP.constant _) (inherited_operand hP hl (isOperand_dividing? h))
      · next h hdl hd => exact hP.op hl hr (divide_of_none h hdl hd)
termination_by l.size + r.size
decreasing_by all_goals simp only [Expr.size, Factored.rest] at *; omega

end

theorem inherited_powerOfConstant (hP : Inherited P) (v : Value K) (he : P e) :
    P (powerOfConstant v e) := by
  cases e with
  | constant w => exact hP.constant _
  | var name c => exact hP.op (hP.constant v) he rfl
  | op o l r => exact hP.op (hP.constant v) he rfl

theorem inherited_powerOfVariable (hP : Inherited P) {name : Char} {c : K} (hc : P (.var name c))
    (he : P e) (h0 : e.isNumber 0 = false) (h1 : e.isNumber 1 = false) :
    P (powerOfVariable name c e) := by
  have hpower (c : K) : operation .pow (.var name c) e = powerOfVariable name c e := by
    show power _ _ = _
    simp [power, h0, h1]
  unfold powerOfVariable at hpower ⊢
  split
  · next hc1 => exact hP.op hc he ((hpower c).trans (if_pos hc1))
  · next hc1 =>
    cases e with
    | constant w =>
      refine inherited_multiply hP (hP.constant _) (hP.op (hP.unit name) (hP.constant w) ?_)
      exact (hpower 1).trans (if_pos Arithmetic.one_beq_one)
    | var other d => exact hP.op hc he ((hpower c).trans (if_neg hc1))
    | op o l r => exact hP.op hc he ((hpower c).trans (if_neg hc1))

theorem inherited_exponent (hP : Inherited P) {e' : Expr K} (hb : P base)
    (h : e.isNumber 0 = false → e.isNumber 1 = false → P e') :
    P (if e.isNumber 0 then Expr.number 1 else if e.isNumber 1 then base else e') := by
  split
  · exact hP.constant _
  · next h0 =>
    split
    · exact hb
    · next h1 => exact h (Bool.eq_false_iff.2 h0) (Bool.eq_false_iff.2 h1)

theorem inherited_power (hP : Inherited P) (hb : P base) (he : P e) : P (power base e) := by
  induction base generalizing e with
  | constant v =>
    unfold power
    exact inherited_exponent hP hb fun _ _ => inherited_powerOfConstant hP v he
  | var name c =>
    unfold power
    exact inherited_exponent hP hb (inherited_powerOfVariable hP hb he)
  | op o a b iha ihb =>
    have ha := hP.left hb
    have hb' := hP.right hb
    have hpower := power.eq_def (.op o a b) e
    rw [hpower]
    refine inherited_exponent hP hb fun h0 h1 => ?_
    rw [if_neg (Bool.eq_false_iff.1 h0), if_neg (Bool.eq_false_iff.1 h1)] at hpower
    cases o with
    | add => exact hP.op hb he hpower
    | sub => exact hP.op hb he hpower
    | mul => exact inherited_multiply hP (iha ha he) (ihb hb' he)
    | div => exact inherited_divide hP (iha ha he) (ihb hb' he)
    | pow => exact iha ha (inherited_multiply hP hb' he)

theorem inherited_operation (hP : Inherited P) (o : Operator) (hl : P l) (hr : P r) :
    P (operation o l r) := by
  cases o with
  | add => exact inherited_sum hP false hl hr
  | sub => exact inherited_sum hP true hl hr
  | mul => exact inherited_multiply hP hl hr
  | div => exact inherited_divide hP hl hr
  | pow => exact inherited_power hP hl hr

end Inherited

end Simplification
end ComplexAlgebra
