import ComplexAlgebra.Proofs.Completeness

/-! Equations between rational expressions, over exact arithmetic. The only powers that come up are
squares of variables that are multiplied by themselves, so an isolation takes at most one root, that
of the unknown, and divides by no list. What it finds are exactly the solutions. -/
namespace ComplexAlgebra

namespace Value

variable {K : Type}

def IsScalar : Value K → Prop
  | scalar _ => True
  | list _ => False

theorem isScalar_iff {v : Value K} : v.IsScalar ↔ ∃ x, v = .scalar x := by
  cases v with
  | scalar x => exact ⟨fun _ => ⟨x, rfl⟩, fun _ => trivial⟩
  | list xs => exact ⟨nofun, nofun⟩

theorem isScalar_map {f : K → K} {v : Value K} : (v.map f).IsScalar ↔ v.IsScalar := by
  cases v <;> rfl

theorem isScalar_combine {f : K → K → K} {v w : Value K} :
    (v.combine f w).IsScalar ↔ v.IsScalar ∧ w.IsScalar := by
  cases v <;> cases w <;> simp [combine, IsScalar]

theorem isScalar_withSign [Arithmetic K] {negated : Bool} {v : Value K} :
    (v.withSign negated).IsScalar ↔ v.IsScalar := by
  cases negated with
  | false => rfl
  | true => exact isScalar_map

end Value

variable {K : Type} [Arithmetic K]

namespace Expr

open Simplification

def Rational : Expr K → Prop
  | constant _ => True
  | var _ _ => True
  | op o l r => o ≠ .pow ∧ l.Rational ∧ r.Rational

/-- A product has the variable in both of its factors. -/
def Multiplied (name : Char) : Expr K → Prop
  | constant _ => False
  | var _ _ => False
  | op o l r =>
    l.Multiplied name ∨ r.Multiplied name ∨ (o = .mul ∧ name ∈ l.names ∧ name ∈ r.names)

/-- Constants are single numbers, and only variables from `N` are squared or in both factors of a
product. There are no other powers. -/
inductive SquaresOf (N : Set Char) : Expr K → Prop
  | constant {v : Value K} (hv : v.IsScalar) : SquaresOf N (.constant v)
  | var (name : Char) (c : K) : SquaresOf N (.var name c)
  | op {o : Operator} (ho : o ≠ .pow) {l r : Expr K} (hl : SquaresOf N l) (hr : SquaresOf N r)
    (hmul : o = .mul → ∀ a ∈ l.names, a ∈ r.names → a ∈ N) : SquaresOf N (.op o l r)
  | square {a : Char} (ha : a ∈ N) : SquaresOf N (.op .pow (.var a 1) (.number Arithmetic.two))

variable {N : Set Char} {e e' l r : Expr K}

theorem squaresOf_constant {v : Value K} : SquaresOf N (.constant v) ↔ v.IsScalar := by
  constructor
  · rintro ⟨hv⟩
    exact hv
  · exact .constant

theorem squaresOf_op {o : Operator} (ho : o ≠ .pow) : SquaresOf N (.op o l r) ↔
    l.SquaresOf N ∧ r.SquaresOf N ∧ (o = .mul → ∀ a ∈ l.names, a ∈ r.names → a ∈ N) := by
  constructor
  · intro h
    cases h with
    | op _ hl hr hmul => exact ⟨hl, hr, hmul⟩
    | square => exact absurd rfl ho
  · rintro ⟨hl, hr, hmul⟩
    exact .op ho hl hr hmul

theorem squaresOf_additive {negated : Bool} :
    SquaresOf N (.op (additive negated) l r) ↔ l.SquaresOf N ∧ r.SquaresOf N := by
  cases negated with
  | false => rw [additive, if_neg (by decide), squaresOf_op (by decide)]; simp
  | true => rw [additive, if_pos rfl, squaresOf_op (by decide)]; simp

theorem squaresOf_pow : SquaresOf N (.op .pow l r) ↔
    ∃ a ∈ N, l = .var a 1 ∧ r = .number Arithmetic.two := by
  constructor
  · intro h
    cases h with
    | op ho => exact absurd rfl ho
    | square ha => exact ⟨_, ha, rfl, rfl⟩
  · rintro ⟨a, ha, rfl, rfl⟩
    exact .square ha

theorem SquaresOf.mono {M : Set Char} (hNM : N ⊆ M) (h : e.SquaresOf N) : e.SquaresOf M := by
  induction h with
  | constant hv => exact .constant hv
  | var name c => exact .var name c
  | op ho _ _ hmul ihl ihr =>
    exact .op ho ihl ihr fun hm a hal har => hNM (hmul hm a hal har)
  | square ha => exact .square (hNM ha)

theorem squaresOf_collected (name : Char) (c : K) : (collected name c).SquaresOf N := by
  unfold collected
  split
  · exact .constant trivial
  · exact .var name c

theorem SquaresOf.scaled (k : K) (h : e.SquaresOf N) : (scaled k e).SquaresOf N := by
  unfold Simplification.scaled
  split
  · exact h
  · exact .op (by decide) (.constant trivial) h (by simp [names])

theorem squaresOf_of_sumRule (h : SumRule e e') (he : e.SquaresOf N) : e'.SquaresOf N := by
  cases h with
  | collect => exact squaresOf_collected _ _
  | zero_sub => exact squaresOf_collected _ _
  | _ =>
    simp only [squaresOf_additive, squaresOf_op, squaresOf_constant, Value.isScalar_map,
      Value.isScalar_combine, Value.isScalar_withSign, ne_eq, reduceCtorEq, not_false_eq_true,
      false_implies, and_true] at he ⊢
    simp only [he, and_self]

theorem squaresOf_of_productRule (h : ProductRule e e') (he : e.SquaresOf N) :
    e'.SquaresOf N := by
  cases h with
  | zero_mul => exact .constant trivial
  | number_mul_var => exact .var _ _
  | var_mul_self a c d =>
    obtain ⟨-, -, hmul⟩ := (squaresOf_op (by decide)).1 he
    exact (SquaresOf.square (hmul rfl a List.mem_cons_self List.mem_cons_self)).scaled _
  | var_mul_var a b c d =>
    obtain ⟨-, -, hmul⟩ := (squaresOf_op (by decide)).1 he
    exact (SquaresOf.op (by decide) (.var a 1) (.var b 1) hmul).scaled _
  | sum_mul negated a b _ =>
    obtain ⟨hab, hr, hmul⟩ := (squaresOf_op (by decide)).1 he
    obtain ⟨ha, hb⟩ := squaresOf_additive.1 hab
    refine squaresOf_additive.2 ⟨.op (by decide) ha hr ?_, .op (by decide) hb hr ?_⟩
    · exact fun hm x hx => hmul hm x (List.mem_append_left _ hx)
    · exact fun hm x hx => hmul hm x (List.mem_append_right _ hx)
  | mul_sum negated a b _ =>
    obtain ⟨hl, hab, hmul⟩ := (squaresOf_op (by decide)).1 he
    obtain ⟨ha, hb⟩ := squaresOf_additive.1 hab
    refine squaresOf_additive.2 ⟨.op (by decide) hl ha ?_, .op (by decide) hl hb ?_⟩
    · exact fun hm x hl hx => hmul hm x hl (List.mem_append_left _ hx)
    · exact fun hm x hl hx => hmul hm x hl (List.mem_append_right _ hx)
  | _ =>
    simp only [squaresOf_op, squaresOf_constant, Operator.combine, Value.isScalar_combine, names,
      ne_eq, reduceCtorEq, not_false_eq_true, false_implies, and_true,
      List.not_mem_nil, implies_true] at he ⊢
    simp only [he, and_self]

theorem squaresOf_of_quotientRule (h : QuotientRule e e') (he : e.SquaresOf N) :
    e'.SquaresOf N := by
  cases h with
  | var_div_self => exact .constant trivial
  | var_div_number => exact .var _ _
  | var_div_var a b c d =>
    exact (SquaresOf.op (by decide) (.var a 1) (.var b 1) fun h => by cases h).scaled _
  | _ =>
    simp only [squaresOf_additive, squaresOf_op, squaresOf_constant, Operator.combine,
      Value.isScalar_combine, names, ne_eq, reduceCtorEq, not_false_eq_true, false_implies,
      and_true, List.not_mem_nil, implies_true] at he ⊢
    simp only [he, and_self]

theorem squaresOf_of_powerRule (h : PowerRule e e') (he : e.SquaresOf N) : e'.SquaresOf N := by
  cases h with
  | pow_zero => exact .constant trivial
  | pow_one =>
    obtain ⟨a, -, rfl, -⟩ := squaresOf_pow.1 he
    exact .var a 1
  | var_pow =>
    obtain ⟨a, ha, hvar, htwo⟩ := squaresOf_pow.1 he
    cases hvar
    cases htwo
    exact .op (by decide) (.constant trivial) (.square ha) (by simp [names])
  | product_pow =>
    obtain ⟨_, -, hvar, -⟩ := squaresOf_pow.1 he
    cases hvar
  | quotient_pow =>
    obtain ⟨_, -, hvar, -⟩ := squaresOf_pow.1 he
    cases hvar
  | pow_pow =>
    obtain ⟨_, -, hvar, -⟩ := squaresOf_pow.1 he
    cases hvar

theorem squaresOf_of_rule (h : Rule e e') (he : e.SquaresOf N) : e'.SquaresOf N := by
  cases h with
  | fold o v w =>
    by_cases ho : o = .pow
    · subst ho
      obtain ⟨_, -, hvar, -⟩ := squaresOf_pow.1 he
      cases hvar
    · obtain ⟨hv, hw, -⟩ := (squaresOf_op ho).1 he
      exact .constant (Value.isScalar_combine.2 ⟨squaresOf_constant.1 hv, squaresOf_constant.1 hw⟩)
  | sum h => exact squaresOf_of_sumRule h he
  | product h => exact squaresOf_of_productRule h he
  | quotient h => exact squaresOf_of_quotientRule h he
  | power h => exact squaresOf_of_powerRule h he

theorem eq_of_rewrites (h : Rewrites e e') (he : e.isOperator = false) : e' = e := by
  induction h with
  | refl e => rfl
  | rule h =>
    cases h with
    | fold => cases he
    | sum h => cases h <;> cases he
    | product h => cases h <;> cases he
    | quotient h => cases h <;> cases he
    | power h => cases h <;> cases he
  | trans h h' ih ih' =>
    obtain rfl := ih he
    exact ih' he
  | operands => cases he

theorem SquaresOf.rewrites (h : Rewrites e e') (he : e.SquaresOf N) : e'.SquaresOf N := by
  induction h with
  | refl e => exact he
  | rule h => exact squaresOf_of_rule h he
  | trans h h' ih ih' => exact ih' (ih he)
  | operands o hl hr ihl ihr =>
    cases he with
    | op ho hel her hmul =>
      exact .op ho (ihl hel) (ihr her) fun hm a hal har =>
        hmul hm a (Rewrites.names_subset hl hal) (Rewrites.names_subset hr har)
    | square ha =>
      rw [eq_of_rewrites hl rfl, eq_of_rewrites hr rfl]
      exact .square ha

theorem SquaresOf.exponentsIn {S : Set ℤ} (hS : 2 ∈ S) {e : Expr ExactNumber}
    (he : e.SquaresOf N) : e.ExponentsIn S := by
  induction he with
  | constant => trivial
  | var => trivial
  | op ho _ _ _ ihl ihr => exact .of_ne_pow ho ihl ihr
  | square => exact ⟨trivial, trivial, fun _ => ⟨2, hS, fun _ => denotes_two⟩⟩

theorem Rational.exponentsIn {S : Set ℤ} {e : Expr ExactNumber} (he : e.Rational) :
    e.ExponentsIn S := by
  induction e with
  | constant v => trivial
  | var name c => trivial
  | op o l r ihl ihr => exact .of_ne_pow he.1 (ihl he.2.1) (ihr he.2.2)

end Expr

namespace Scope

open ExactNumber
open Number (ofComplex)
open ComplexAlgebra.Expr Simplification

section Roots

theorem make_eq_of_undefined {x y : ExactReal} (h : (⟨x, y⟩ : ExactNumber).value? = none) :
    Number.make x y = ⟨.undefined, .value 0⟩ := by
  cases x <;> cases y
  · cases h
  all_goals rfl

theorem roots_two (x : ExactNumber) :
    ∃ z, ((Value.scalar x).roots 2).map (· / 1) = .list [z, -z] := by
  have hroots : (Value.scalar x).roots 2 = .list (x.roots 2) :=
    congrArg Value.list (List.append_nil _)
  rw [hroots]
  cases hx : x.value? with
  | none =>
    obtain ⟨r, r', heq⟩ := List.length_eq_two.1 (Number.length_roots x 2)
    have hdiv (r : ExactNumber) (hr : r ∈ x.roots 2) : r / 1 = ⟨.undefined, .value 0⟩ := by
      have hnone := value?_of_mem_roots_undefined hx hr
      refine make_eq_of_undefined ((value?_make _ _).symm.trans ?_)
      exact (value?_div r 1).trans (by rw [hnone]; rfl)
    refine ⟨⟨.undefined, .value 0⟩, ?_⟩
    show Value.list ((x.roots 2).map (· / 1)) = _
    rw [List.map_congr_left hdiv, heq]
    rfl
  | some a =>
    obtain rfl := value?_eq_some_iff.1 hx
    have hneg : rootAt a 2 1 = -rootAt a 2 0 := by
      rw [rootAt_eq_mul, pow_one]
      have hexp : Complex.exp (2 * Real.pi * Complex.I / (2 : ℕ)) = -1 := by
        rw [← Complex.exp_pi_mul_I]
        congr 1
        push_cast
        ring
      rw [hexp, neg_one_mul]
    have hdiv (b : ℂ) : ofComplex b / 1 = ofComplex b := by
      refine eq_of_value? (value?_apply (o := .div) (value?_ofComplex b) (value?_ofComplex 1)
        (.div b one_ne_zero)) ?_
      rw [value?_ofComplex, div_one]
    refine ⟨ofComplex (rootAt a 2 0), ?_⟩
    show Value.list (((ofComplex a).roots 2).map (· / 1)) = _
    rw [roots_ofComplex two_ne_zero]
    show Value.list [ofComplex (rootAt a 2 0) / 1, ofComplex (rootAt a 2 1) / 1] = _
    rw [hdiv, hdiv, hneg]
    rfl

end Roots

section Isolation

variable {s t : Scope ExactNumber} {N : Set Char} {e l r u k u' k' : Expr ExactNumber}

theorem substitute_of_unbound (h : ∀ name ∈ e.names, s.get? name = none) :
    s.substitute e = e := by
  induction e with
  | constant v => rfl
  | var name c => rw [substitute, h name List.mem_cons_self]
  | op o l r ihl ihr =>
    rw [substitute, ihl fun name hl => h name (List.mem_append_left _ hl),
      ihr fun name hr => h name (List.mem_append_right _ hr)]

theorem squaresOf_simplify (he : e.SquaresOf N) (h : ∀ name ∈ e.names, s.get? name = none) :
    (s.simplify e).SquaresOf N := by
  have hrewrites := s.rewrites_simplify e
  rw [substitute_of_unbound h] at hrewrites
  exact he.rewrites hrewrites

theorem squaresOf_substitute (hs : s.Scalar) (he : e.Written) (hrat : e.Rational) :
    (s.substitute e).SquaresOf {name | e.Multiplied name} := by
  induction he with
  | number x => exact .constant trivial
  | @var name _ =>
    rw [substitute]
    split
    · next v hget =>
      obtain ⟨x, rfl⟩ := hs name v hget
      exact .constant trivial
    · exact .var name 1
  | op o hl hr ihl ihr =>
    obtain ⟨ho, hratl, hratr⟩ := hrat
    refine .op ho ((ihl hratl).mono fun _ => .inl) ((ihr hratr).mono fun _ h => .inr (.inl h)) ?_
    exact fun hm name hnl hnr => .inr (.inr ⟨hm, ((s.mem_names_substitute _ name).1 hnl).1,
      ((s.mem_names_substitute _ name).1 hnr).1⟩)

/-- An equation between expressions that only square, with a known right side. -/
structure Squaring (s : Scope ExactNumber) (N : Set Char) (u k : Expr ExactNumber) : Prop where
  unknown : u.SquaresOf N
  unbound : ∀ name ∈ u.names, s.get? name = none
  known : k.SquaresOf N
  closed : k.containsVariable = false

/-- An unbound variable is to be one of the square roots of a number. -/
def Rooted (s : Scope ExactNumber) (N : Set Char) (u k : Expr ExactNumber) : Prop :=
  ∃ a ∈ N, u = .var a 1 ∧ s.get? a = none ∧ ∃ x, k = .constant ((Value.scalar x).roots 2)

theorem Squaring.simplify_known (h : s.Squaring N u k) : ∃ x, s.simplify k = .number x := by
  obtain ⟨v, hv⟩ := s.exists_simplify_eq_constant h.closed
  have hk := squaresOf_simplify (s := s) h.known (by simp [closed_iff_names.1 h.closed])
  rw [hv, squaresOf_constant] at hk
  obtain ⟨x, rfl⟩ := Value.isScalar_iff.1 hk
  exact ⟨x, hv⟩

theorem Squaring.not_swapsRoots (h : s.Squaring N u k) (rs : List ExactNumber) :
    ¬ s.SwapsRoots u k rs l r := by
  rintro ⟨hk, -, -, -⟩
  obtain ⟨x, hx⟩ := h.simplify_known
  cases hx.symm.trans hk

theorem Rooted.simplify_unknown (h : s.Rooted N u k) : ∃ a ∈ N, s.simplify u = .var a 1 := by
  obtain ⟨a, ha, rfl, hget, -⟩ := h
  exact ⟨a, ha, by rw [simplify, hget]⟩

theorem Rooted.not_swapsRoots (h : s.Rooted N u k) (rs : List ExactNumber) :
    ¬ s.SwapsRoots u k rs l r := by
  rintro ⟨-, hu, -, -⟩
  obtain ⟨a, -, ha⟩ := h.simplify_unknown
  cases ha.symm.trans hu

theorem undoRight_eq {o : Operator} (ho : o ≠ .pow) :
    ∃ o' ≠ Operator.pow, ∀ v, undoRight o r v = .op o' (.constant v) r := by
  cases o with
  | add => exact ⟨.sub, by decide, fun _ => rfl⟩
  | sub => exact ⟨.add, by decide, fun _ => rfl⟩
  | mul => exact ⟨.div, by decide, fun _ => rfl⟩
  | div => exact ⟨.mul, by decide, fun _ => rfl⟩
  | pow => exact absurd rfl ho

/-- The operands of a simplified unknown side, where no power is to be undone. -/
theorem Squaring.operands (h : s.Squaring N u k) {o : Operator} (ho : o ≠ .pow)
    (hu : s.simplify u = .op o l r) :
    (l.SquaresOf N ∧ ∀ name ∈ l.names, s.get? name = none) ∧
      r.SquaresOf N ∧ ∀ name ∈ r.names, s.get? name = none := by
  have hsq := squaresOf_simplify h.unknown h.unbound
  have hunbound (name : Char) (hname : name ∈ (s.simplify u).names) : s.get? name = none :=
    (mem_names_simplify hname).2
  rw [hu] at hsq hunbound
  obtain ⟨hl, hr, -⟩ := (squaresOf_op ho).1 hsq
  exact ⟨⟨hl, fun name hname => hunbound name (List.mem_append_left _ hname)⟩,
    hr, fun name hname => hunbound name (List.mem_append_right _ hname)⟩

theorem Squaring.power (h : s.Squaring N u k) (hu : s.simplify u = .op .pow l r) :
    ∃ a ∈ N, l = .var a 1 ∧ r = .number Arithmetic.two ∧ s.get? a = none := by
  have hsq := squaresOf_simplify h.unknown h.unbound
  rw [hu] at hsq
  obtain ⟨a, ha, rfl, rfl⟩ := squaresOf_pow.1 hsq
  have hname : a ∈ (s.simplify u).names := hu ▸ List.mem_cons_self
  exact ⟨a, ha, rfl, rfl, (mem_names_simplify hname).2⟩

/-- A step leaves an equation of the same kind, or takes the square root of a number. -/
theorem Squaring.step (h : s.Squaring N u k) (hstep : s.Undoes u k u' k') :
    s.Squaring N u' k' ∨ s.Rooted N u' k' := by
  obtain ⟨x, hx⟩ := h.simplify_known
  cases hstep with
  | @left _ _ o _ hk hu hl hr =>
    cases hx.symm.trans hk
    by_cases ho : o = .pow
    · subst ho
      obtain ⟨a, ha, rfl, rfl, hget⟩ := h.power hu
      exact .inr ⟨a, ha, rfl, hget, x, undoRight_two x⟩
    · obtain ⟨⟨hsl, hul⟩, hsr, -⟩ := h.operands ho hu
      obtain ⟨o', ho', heq⟩ := undoRight_eq ho
      rw [heq]
      exact .inl ⟨hsl, hul, .op ho' (.constant trivial) hsr (by simp [names]), hr⟩
  | addend hk hu hl _ =>
    cases hx.symm.trans hk
    obtain ⟨⟨hsl, -⟩, hsr, hur⟩ := h.operands (by decide) hu
    exact .inl ⟨hsr, hur, .op (by decide) (.constant trivial) hsl (by simp [names]), hl⟩
  | subtrahend hk hu hl _ =>
    cases hx.symm.trans hk
    obtain ⟨⟨hsl, -⟩, hsr, hur⟩ := h.operands (by decide) hu
    exact .inl ⟨hsr, hur, .op (by decide) hsl (.constant trivial) (by simp [names]),
      (Bool.or_false _).trans hl⟩
  | factor hk hu hl _ =>
    cases hx.symm.trans hk
    obtain ⟨⟨hsl, -⟩, hsr, hur⟩ := h.operands (by decide) hu
    exact .inl ⟨hsr, hur, .op (by decide) (.constant trivial) hsl (by simp [names]), hl⟩
  | divisor hk hu hl _ =>
    cases hx.symm.trans hk
    obtain ⟨⟨hsl, -⟩, hsr, hur⟩ := h.operands (by decide) hu
    exact .inl ⟨.op (by decide) (.constant trivial) hsr (by simp [names]), hur, hsl, hl⟩
  | exponent _ hu _ hr =>
    obtain ⟨_, -, -, rfl, -⟩ := h.power hu
    cases hr

theorem Squaring.reaches (h : s.Reaches u k u' k') (hsq : s.Squaring N u k) :
    s.Squaring N u' k' ∨ s.Rooted N u' k' := by
  induction h with
  | refl => exact .inl hsq
  | step hstep h' ih =>
    rcases hsq.step hstep with hsq' | hroot
    · exact ih hsq'
    · cases h' with
      | refl => exact .inr hroot
      | step hstep' _ =>
        obtain ⟨_, -, hvar⟩ := hroot.simplify_unknown
        obtain ⟨_, _, _, hu⟩ := hstep'.exists_op
        cases hvar.symm.trans hu

theorem Squaring.isolate {name : Char} {w : Value ExactNumber} (h : s.isolate u k = .ok (name, w))
    (hsq : s.Squaring N u k) : w.IsScalar ∨ (name ∈ N ∧ ∃ z, w = .list [z, -z]) := by
  have hkind : s.Squaring N u k ∨ s.Rooted N u k := .inl hsq
  revert hkind
  refine isolate_induction (P := fun u k => s.Squaring N u k ∨ s.Rooted N u k →
    w.IsScalar ∨ (name ∈ N ∧ ∃ z, w = .list [z, -z])) ?_ ?_ h
  · rintro u k c v hk hu rfl (hsq | hroot)
    · obtain ⟨x, hx⟩ := hsq.simplify_known
      cases hx.symm.trans hk
      exact .inl trivial
    · obtain ⟨a, ha, hvar⟩ := hroot.simplify_unknown
      cases hvar.symm.trans hu
      obtain ⟨_, _, -, -, x, rfl⟩ := hroot
      cases hk
      exact .inr ⟨ha, roots_two x⟩
  · rintro u k u' k' hstep - ih (hsq | hroot)
    · exact ih (hsq.step hstep)
    · obtain ⟨_, -, hvar⟩ := hroot.simplify_unknown
      obtain ⟨_, _, _, hu⟩ := hstep.exists_op
      cases hvar.symm.trans hu

theorem squaring_of_written (hs : s.Scalar) (hl : l.Written) (hr : r.Written) (hratl : l.Rational)
    (hratr : r.Rational) (hside : s.Sides l r u k) :
    s.Squaring {name | l.Multiplied name ∨ r.Multiplied name} u k := by
  have hsimp {e : Expr ExactNumber} (he : e.Written) (hrat : e.Rational) :
      (s.simplify e).SquaresOf {name | e.Multiplied name} :=
    (squaresOf_substitute hs he hrat).rewrites (s.rewrites_simplify e)
  have hsl : (s.simplify l).SquaresOf {name | l.Multiplied name ∨ r.Multiplied name} :=
    (hsimp hl hratl).mono fun _ => .inl
  have hsr : (s.simplify r).SquaresOf {name | l.Multiplied name ∨ r.Multiplied name} :=
    (hsimp hr hratr).mono fun _ => .inr
  cases hside with
  | left _ hclosed => exact ⟨hsl, fun _ hname => (mem_names_simplify hname).2, hsr, hclosed⟩
  | right hclosed _ => exact ⟨hsr, fun _ hname => (mem_names_simplify hname).2, hsl, hclosed⟩

theorem Squaring.not_reaches_swap (hsq : s.Squaring N u k) (hreach : s.Reaches u k u' k')
    (rs : List ExactNumber) : ¬ s.SwapsRoots u' k' rs l r := by
  rcases hsq.reaches hreach with hsq' | hroot
  · exact hsq'.not_swapsRoots rs
  · exact hroot.not_swapsRoots rs

theorem Squaring.knows_iff {name : Char} {w : Value ExactNumber} (hs : s.Scalar)
    (hst : t.Extends s) (he : e.Written) (hrat : e.Rational) {a b : ℂ}
    (hd : Denotes t.assignment e a) (hsq : s.Squaring N (s.simplify e) k)
    (h : s.isolate (s.simplify e) k = .ok (name, w)) (hname : t.assignment name = some b) :
    s.Knows k a ↔ ∃ z ∈ w.elements, t.get? name = some (.scalar z) := by
  have hcoeff := he.properCoefficients regular
  constructor
  · intro hknows
    have hdegrees := hsq.unknown.exponentsIn (S := degrees) ⟨by decide, by decide⟩
    refine exists_of_isolate h (offers_of_denotes hs hst hcoeff hrat.exponentsIn hdegrees hd)
      hknows fun u' k' hreach => ?_
    rintro ⟨_, _, _, hswap, -, -⟩
    exact hsq.not_reaches_swap hreach _ hswap
  · rintro ⟨z, hz, hget⟩
    obtain ⟨z', hz', hb⟩ := assignment_eq_some_iff.1 hname
    cases hget.symm.trans hz'
    refine knows_of_isolate hs hst hcoeff hrat.exponentsIn hd h hz hb hget fun u' k' hreach => ?_
    rintro ⟨_, _, _, hswap, -, -⟩
    exact hsq.not_reaches_swap hreach _ hswap

/-- Where an equation between rational expressions is solved, its solutions are the numbers found:
a single one, or the two square roots of a number where the unknown is multiplied by itself. -/
theorem resolve_rational (hs : s.Scalar) {source left right : List Char}
    (hpieces : Text.pieces '=' source = [left, right]) (hl : parse left = .ok l)
    (hr : parse right = .ok r) (hratl : l.Rational) (hratr : r.Rational) {name : Char}
    {w : Value ExactNumber} (h : (s.resolve source).1 = .ok (.binding name w)) :
    (w.IsScalar ∨ ((l.Multiplied name ∨ r.Multiplied name) ∧ ∃ z, w = .list [z, -z])) ∧
      ∀ t : Scope ExactNumber, t.Extends s → ∀ a c : ℂ,
        t.evaluate l = .ok (.scalar (ofComplex a)) → t.evaluate r = .ok (.scalar (ofComplex c)) →
        (a = c ↔ ∃ z ∈ w.elements, t.get? name = some (.scalar z)) := by
  have hwl := written_of_parse hl
  have hwr := written_of_parse hr
  have hsolve := (resolve_eq_binding_iff hpieces hl hr).1 h
  obtain ⟨u, k, hside, hiso⟩ := exists_sides_of_solve hsolve
  have hsq := squaring_of_written hs hwl hwr hratl hratr hside
  refine ⟨hsq.isolate hiso, fun t hst a c hevl hevr => ?_⟩
  have hda := denotes_of_evaluate (S := {n : ℤ | 0 < n}) hratl.exponentsIn hevl (value?_ofComplex a)
  have hdc := denotes_of_evaluate (S := {n : ℤ | 0 < n}) hratr.exponentsIn hevr (value?_ofComplex c)
  obtain ⟨b, hb⟩ : ∃ b, t.assignment name = some b :=
    (mem_names_of_solve hsolve).1.elim hda.assigned hdc.assigned
  have hsimp {e : Expr ExactNumber} (hrat : e.Rational) {p : ℂ} (hd : Denotes t.assignment e p) :=
    denotes_simplify_of_pos hs hst hrat.exponentsIn hd
  cases hside with
  | left _ hclosed =>
    rw [← hsq.knows_iff hs hst hwl hratl hda hiso hb]
    exact (knows_iff_of_closed hs hst (hsimp hratr hdc).1 hclosed (hsimp hratr hdc).2).symm
  | right hclosed _ =>
    rw [← hsq.knows_iff hs hst hwr hratr hdc hiso hb, eq_comm]
    exact (knows_iff_of_closed hs hst (hsimp hratl hda).1 hclosed (hsimp hratl hda).2).symm

section NumberOver

noncomputable abbrev numberOverX (p : ℂ) : Expr ExactNumber := numberOver p (.var 'x' 1)

theorem parse_sixOverX : parse "6/x".toList = .ok (numberOverX 6) := by
  have hparse {K : Type} [Arithmetic K] : parse "6/x".toList =
      .ok (.op .div (.number (Arithmetic.ofDecimal (K := K) ⟨6, 0⟩)) (.var 'x' 1)) := by
    cbv
  rw [hparse, ofDecimal_natural, Nat.cast_ofNat]
  rfl

theorem parse_three : parse "3".toList = .ok (.number (ofComplex 3)) := by
  have hparse {K : Type} [Arithmetic K] :
      parse "3".toList = .ok (.number (Arithmetic.ofDecimal (K := K) ⟨3, 0⟩)) := by
    cbv
  rw [hparse, ofDecimal_natural, Nat.cast_ofNat]

theorem simplify_number_mul {q : ℂ} (h0 : q ≠ 0) (h1 : q ≠ 1) :
    empty.simplify (.op .mul (.number (ofComplex q)) (.var 'x' 1)) =
      .var 'x' (1 * ofComplex q) := by
  have hq0 : (ofComplex q == 0) = false := beq_zero_eq_false_iff.2 (by simpa using h0)
  have hq1 : (ofComplex q == 1) = false :=
    Bool.eq_false_iff.2 fun h => h1 (ofComplex_injective (beq_iff.1 h))
  simp [simplify, operation, multiply.eq_def, productAtOnce?, isNumber, hq0, hq1]

theorem solve_numberOver (p : ℂ) {q : ℂ} (h0 : q ≠ 0) (h1 : q ≠ 1) :
    empty.solve (numberOverX p) (.number (ofComplex q)) =
      .ok ('x', (Value.scalar (ofComplex p)).map (· / (1 * ofComplex q))) := by
  unfold solve
  rw [simplify_numberOver p rfl (by decide)]
  exact (Undoes.divisor rfl (simplify_numberOver p rfl (by decide)) rfl rfl).isolate_eq.trans
    (isolate_var rfl (simplify_number_mul h0 h1))

theorem evaluate_numberOver {t : Scope ExactNumber} {a : ℂ} (ha : t.assignment 'x' = some a)
    (ha0 : a ≠ 0) (p : ℂ) : t.evaluate (numberOverX p) = .ok (.scalar (ofComplex (p / a))) := by
  obtain ⟨z, hz, hza⟩ := evaluate_of_denotes
    ((Denotes.number (value?_ofComplex p)).div (denotes_unit ha) ha0)
  obtain rfl := value?_eq_some_iff.1 hza
  exact hz

end NumberOver

/-- The equation `6 / x = 3` has the single solution `2`. -/
theorem resolve_rational_quotient :
    ∃ w : Value ExactNumber, (empty.resolve "6/x=3".toList).1 = .ok (.binding 'x' w) ∧
      w.IsScalar ∧ (empty.bind 'x' (.scalar (ofComplex 2))).evaluate (numberOverX 6) =
        .ok (.scalar (ofComplex 3)) ∧
      ∃ z ∈ w.elements,
        (empty.bind 'x' (.scalar (ofComplex 2))).get? 'x' = some (.scalar z) := by
  have hpieces : Text.pieces '=' "6/x=3".toList = ["6/x".toList, "3".toList] := by decide
  have hresolve := (resolve_eq_binding_iff hpieces parse_sixOverX parse_three).2
    (solve_numberOver 6 (by norm_num) (by norm_num))
  have hx : assignment (empty.bind 'x' (.scalar (ofComplex 2))) 'x' = some 2 :=
    assignment_eq_some_iff.2 ⟨_, get?_bind _ _ _ _, rfl⟩
  have heval := evaluate_numberOver hx two_ne_zero 6
  rw [show (6 : ℂ) / 2 = 3 by norm_num] at heval
  have hrat : (numberOverX 6).Rational := ⟨by decide, trivial, trivial⟩
  obtain ⟨hshape, hsolutions⟩ :=
    resolve_rational scalar_empty hpieces parse_sixOverX parse_three hrat trivial hresolve
  refine ⟨_, hresolve, hshape.resolve_right ?_, heval,
    (hsolutions _ (extends_empty _) 3 3 heval rfl).1 rfl⟩
  rintro ⟨hmul, -⟩
  simp [numberOver, Multiplied] at hmul

/-- The equation `x * x = 4` has a list of two solutions. -/
theorem resolve_product_list :
    ∃ w : Value ExactNumber, (empty.resolve "x*x=4".toList).1 = .ok (.binding 'x' w) ∧
      parse "x*x".toList = .ok (.op .mul (.var 'x' 1) (.var 'x' (1 : ExactNumber))) ∧
      parse "4".toList = .ok (.number (ofComplex 4)) ∧
      (Expr.op .mul (.var 'x' 1) (.var 'x' (1 : ExactNumber))).Rational ∧ ¬ w.IsScalar := by
  have hpieces : Text.pieces '=' "x*x=4".toList = ["x*x".toList, "4".toList] := by decide
  have hleft {K : Type} [Arithmetic K] :
      parse "x*x".toList = .ok (.op .mul (.var 'x' 1) (.var 'x' (1 : K))) := by
    cbv
  have hsquare : empty.simplify (.op .mul (.var 'x' 1) (.var 'x' (1 : ExactNumber))) =
      .op .pow (.var 'x' 1) (.number Arithmetic.two) := by
    have hone := Arithmetic.mul_beq_one (1 : ExactNumber) 1 Arithmetic.one_beq_one
      Arithmetic.one_beq_one
    simp [simplify, operation, multiply.eq_def, productAtOnce?, scaled, hone]
  have hstep := Undoes.left (k := .number (ofComplex 4)) rfl
    (simplify_of_stable (s := empty) (stable_square regular 'x') fun _ _ => rfl) rfl rfl
  rw [undoRight_two] at hstep
  have hsolve : empty.solve (.op .mul (.var 'x' 1) (.var 'x' 1)) (.number (ofComplex 4)) =
      .ok ('x', ((Value.scalar (ofComplex 4)).roots 2).map (· / 1)) := by
    unfold solve
    rw [hsquare]
    exact hstep.isolate_eq.trans (isolate_var rfl rfl)
  exact ⟨_, (resolve_eq_binding_iff hpieces hleft parse_four).2 hsolve, hleft, parse_four,
    ⟨by decide, trivial, trivial⟩, id⟩

end Isolation

end Scope
end ComplexAlgebra
