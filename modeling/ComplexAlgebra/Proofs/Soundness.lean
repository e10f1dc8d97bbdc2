import Mathlib
import ComplexAlgebra.Proofs.Spreading

/-! Which numbers of a solution solve the equation, over exact arithmetic. Every step of an
isolation keeps the solutions apart from the one that makes a list of roots a factor of the divisor:
there each term of a sum has the list for itself. Where no list of different roots is copied in this
way, every number of the solution solves the equation. -/
namespace ComplexAlgebra

open ExactNumber
open Number (ofComplex)

namespace Scope

open ComplexAlgebra.Expr Simplification

variable {s t : Scope ExactNumber} {allows : Operator → Value ExactNumber → ℂ → Prop}
  {S : Set ℤ} {u k u' k' l r : Expr ExactNumber} {v : Value ExactNumber} {a b p : ℂ}

/-- The unknown side of an equation, simplified, can be `a`. -/
structure Offers (s t : Scope ExactNumber) (allows : Operator → Value ExactNumber → ℂ → Prop)
    (S : Set ℤ) (u : Expr ExactNumber) (a : ℂ) : Prop where
  stable : (s.simplify u).Stable
  exponents : (s.simplify u).ExponentsIn S
  takes : Takes allows t.assignment (s.simplify u) a

theorem Offers.operand {o : Operator} (h : s.Offers t allows S u a)
    (hu : s.simplify u = .op o l r) :
    (Takes allows t.assignment l p → s.Offers t allows S l p) ∧
      (Takes allows t.assignment r p → s.Offers t allows S r p) := by
  obtain ⟨hl, hr⟩ := simplify_operands hu h.stable
  have hstable := h.stable
  have hexp := h.exponents
  rw [hu] at hstable hexp
  constructor
  · exact fun hp => ⟨hl.symm ▸ hstable.1, hl.symm ▸ hexp.1, hl.symm ▸ hp⟩
  · exact fun hp => ⟨hr.symm ▸ hstable.2.1, hr.symm ▸ hexp.2.1, hr.symm ▸ hp⟩

/-- A left operand without a variable is a constant. -/
theorem Offers.of_left {o : Operator} (h : s.Offers t allows S u a)
    (hu : s.simplify u = .op o l r) (hl : l.containsVariable = false) :
    ∃ w, l = .constant w ∧ (Expr.op o (.constant w) r).Stable ∧
      (Expr.op o (.constant w) r).ExponentsIn S ∧
      Takes allows t.assignment (.op o (.constant w) r) a := by
  obtain ⟨w, rfl⟩ := eq_constant_of_closed (simplify_operands hu h.stable).1 hl
  exact ⟨w, rfl, hu ▸ h.stable, hu ▸ h.exponents, hu ▸ h.takes⟩

theorem Offers.of_right {o : Operator} (h : s.Offers t allows S u a)
    (hu : s.simplify u = .op o l r) (hr : r.containsVariable = false) :
    ∃ w, r = .constant w ∧ (Expr.op o l (.constant w)).Stable ∧
      (Expr.op o l (.constant w)).ExponentsIn S ∧
      Takes allows t.assignment (.op o l (.constant w)) a := by
  obtain ⟨w, rfl⟩ := eq_constant_of_closed (simplify_operands hu h.stable).2 hr
  exact ⟨w, rfl, hu ▸ h.stable, hu ▸ h.exponents, hu ▸ h.takes⟩

theorem simplify_multiple (hr : s.simplify r = r) :
    s.simplify (.op .mul (.constant v) r) = multiply (.constant v) r := by
  rw [simplify, hr]
  rfl

theorem offers_multiple (hr : s.simplify r = r) (hstable : r.Stable) (hexp : r.ExponentsIn S)
    (h : Takes allows t.assignment (multiply (.constant v) r) a) :
    s.Offers t allows S (.op .mul (.constant v) r) a where
  stable := stable_simplify regular s ⟨trivial, hstable.properCoefficients⟩
  exponents := (simplify_multiple hr).symm ▸ exponentsIn_multiply_constant v hexp
  takes := (simplify_multiple hr).symm ▸ h

theorem knows_constant_iff : s.Knows (.constant v) a ↔ Takes allows t.assignment (.constant v) a :=
  (knows_iff rfl).trans takes_constant_iff.symm

theorem knows_iff_of_denotes {ρ : Char → Option ℂ} (hd : Denotes ρ (.constant v) b) :
    s.Knows (.constant v) a ↔ b = a := by
  obtain ⟨y, rfl, hy⟩ := denotes_constant_iff.1 hd
  exact knows_iff_of_number rfl hy

/-- The equation holds with one of the values of its unknown side. -/
def Solved (s t : Scope ExactNumber) (u k : Expr ExactNumber) : Prop :=
  ∃ a, Takes Anything t.assignment (s.simplify u) a ∧ s.Knows k a

/-- Different roots change sides with a divisor that is a sum or difference. In the product each of
its terms has the list of roots for itself. -/
def CopiesRoots (s : Scope ExactNumber) (u k : Expr ExactNumber) : Prop :=
  ∃ roots dividend divisor, s.SwapsRoots u k roots dividend divisor ∧ terms? divisor ≠ none ∧
    ∃ a b, s.Knows k a ∧ s.Knows k b ∧ a ≠ b

theorem alike_of_not_copiesRoots (hk : s.simplify k = .constant v)
    (hu : s.simplify u = .op .div l r) (hl : l.containsVariable = false)
    (hr : r.containsVariable = true) (hno : ¬ s.CopiesRoots u k) : terms? r = none ∨ v.Alike := by
  by_contra hcopies
  obtain ⟨hterms, halike⟩ := not_or.1 hcopies
  obtain ⟨xs, rfl⟩ := Value.exists_list_of_not_alike halike
  refine hno ⟨xs, l, r, ⟨hk, hu, hl, hr⟩, hterms, ?_⟩
  by_contra hsame
  refine halike fun x hx y hy a b ha hb => ?_
  by_contra hab
  exact hsame ⟨a, b, (knows_iff hk).2 ⟨x, hx, ha⟩, (knows_iff hk).2 ⟨y, hy, hb⟩, hab⟩

section Steps

variable (h : s.Offers t Anything {n : ℤ | 0 < n} u a)

include h

theorem solved_of_undoRight {o : Operator} (hk : s.simplify k = .constant v)
    (hu : s.simplify u = .op o l r) (hl : l.containsVariable = true)
    (hr : r.containsVariable = false) : (∃ p, s.Offers t Anything {n : ℤ | 0 < n} l p) ∧
      (s.Solved t l (undoRight o r v) → s.Solved t u k) := by
  obtain ⟨w, rfl, -, hexp, htakes⟩ := h.of_right hu hr
  simp only [Solved, (simplify_operands hu h.stable).1, hu, knows_iff_constant hk]
  cases o with
  | add =>
    obtain ⟨p, q, hp, -, -⟩ := takes_add_iff.1 htakes
    refine ⟨⟨p, (h.operand hu).1 hp⟩, ?_⟩
    rintro ⟨c, hc, hknows⟩
    obtain ⟨x, y, hx, hy, hop⟩ := (knows_op_iff (o := .sub) (by decide) rfl rfl).1 hknows
    refine ⟨x, takes_add_iff.2 ⟨c, y, hc, knows_constant_iff.1 hy, ?_⟩, hx⟩
    rw [← Operator.computes_sub_iff.1 hop, sub_add_cancel]
  | sub =>
    obtain ⟨p, q, hp, -, -⟩ := takes_sub_iff.1 htakes
    refine ⟨⟨p, (h.operand hu).1 hp⟩, ?_⟩
    rintro ⟨c, hc, hknows⟩
    obtain ⟨x, y, hx, hy, hop⟩ := (knows_op_iff (o := .add) (by decide) rfl rfl).1 hknows
    refine ⟨x, takes_sub_iff.2 ⟨c, y, hc, knows_constant_iff.1 hy, ?_⟩, hx⟩
    rw [← Operator.computes_add_iff.1 hop, add_sub_cancel_right]
  | mul =>
    cases htakes with
    | product => cases hl
    | value hd =>
      obtain ⟨p, q, hp, hq, -⟩ := denotes_mul_iff.1 hd
      refine ⟨⟨p, (h.operand hu).1 (.value hp)⟩, ?_⟩
      rintro ⟨c, hc, hknows⟩
      obtain ⟨x, y, hx, hy, hop⟩ := (knows_op_iff (o := .div) (by decide) rfl rfl).1 hknows
      obtain ⟨hy0, hxy⟩ := Operator.computes_div_iff.1 hop
      obtain rfl := (knows_iff_of_denotes hq).1 hy
      obtain rfl := hc.unique hp
      refine ⟨x, .value ((hp.mul hq).of_eq ?_), hx⟩
      rw [← hxy, div_mul_cancel₀ x hy0]
  | div =>
    cases htakes with
    | quotient => cases hl
    | value hd =>
      obtain ⟨p, q, hp, hq, hq0, -⟩ := denotes_div_iff.1 hd
      refine ⟨⟨p, (h.operand hu).1 (.value hp)⟩, ?_⟩
      rintro ⟨c, hc, hknows⟩
      obtain ⟨x, y, hx, hy, hop⟩ := (knows_op_iff (o := .mul) (by decide) rfl rfl).1 hknows
      obtain rfl := (knows_iff_of_denotes hq).1 hy
      obtain rfl := hc.unique hp
      refine ⟨x, .value ((hp.div hq hq0).of_eq ?_), hx⟩
      rw [← Operator.computes_mul_iff.1 hop, mul_div_cancel_right₀ x hq0]
  | pow =>
    cases htakes with
    | value hd =>
      obtain ⟨n, hn, hden⟩ := hexp.2.2 rfl
      obtain ⟨m, rfl⟩ := Int.eq_ofNat_of_zero_le (le_of_lt hn)
      obtain ⟨y, rfl, hy⟩ := denotes_constant_iff.1 (hden t.assignment)
      obtain ⟨p, hp, hp0, -⟩ := (denotes_pow_iff (hden t.assignment)).1 hd
      refine ⟨⟨p, (h.operand hu).1 (.value hp)⟩, ?_⟩
      rintro ⟨c, hc, hknows⟩
      obtain rfl := hc.unique hp
      have hm : m ≠ 0 := by
        rintro rfl
        exact absurd (show (0 : ℤ) < 0 from hn) (lt_irrefl 0)
      refine ⟨c ^ m, .value ((denotes_pow_iff (hden t.assignment)).2 ⟨c, hp, hp0, ?_⟩),
        knows_of_undoRight_pow hm rfl (by rw [hy, Int.cast_natCast]) hknows⟩
      exact zpow_natCast c m

theorem solved_of_addend (hk : s.simplify k = .constant v) (hu : s.simplify u = .op .add l r)
    (hl : l.containsVariable = false) : (∃ q, s.Offers t Anything {n : ℤ | 0 < n} r q) ∧
      (s.Solved t r (.op .sub (.constant v) l) → s.Solved t u k) := by
  obtain ⟨w, rfl, -, -, htakes⟩ := h.of_left hu hl
  simp only [Solved, (simplify_operands hu h.stable).2, hu, knows_iff_constant hk]
  obtain ⟨p, q, -, hq, -⟩ := takes_add_iff.1 htakes
  refine ⟨⟨q, (h.operand hu).2 hq⟩, ?_⟩
  rintro ⟨c, hc, hknows⟩
  obtain ⟨x, y, hx, hy, hop⟩ := (knows_op_iff (by decide) rfl rfl).1 hknows
  refine ⟨x, takes_add_iff.2 ⟨y, c, knows_constant_iff.1 hy, hc, ?_⟩, hx⟩
  rw [← Operator.computes_sub_iff.1 hop, add_sub_cancel]

theorem solved_of_subtrahend (hk : s.simplify k = .constant v)
    (hu : s.simplify u = .op .sub l r) (hl : l.containsVariable = false) :
    (∃ q, s.Offers t Anything {n : ℤ | 0 < n} r q) ∧
      (s.Solved t r (.op .sub l (.constant v)) → s.Solved t u k) := by
  obtain ⟨w, rfl, -, -, htakes⟩ := h.of_left hu hl
  simp only [Solved, (simplify_operands hu h.stable).2, hu, knows_iff_constant hk]
  obtain ⟨p, q, -, hq, -⟩ := takes_sub_iff.1 htakes
  refine ⟨⟨q, (h.operand hu).2 hq⟩, ?_⟩
  rintro ⟨c, hc, hknows⟩
  obtain ⟨y, x, hy, hx, hop⟩ := (knows_op_iff (by decide) rfl rfl).1 hknows
  refine ⟨x, takes_sub_iff.2 ⟨y, c, knows_constant_iff.1 hy, hc, ?_⟩, hx⟩
  rw [← Operator.computes_sub_iff.1 hop, sub_sub_cancel]

theorem solved_of_factor (hk : s.simplify k = .constant v) (hu : s.simplify u = .op .mul l r)
    (hl : l.containsVariable = false) : (∃ q, s.Offers t Anything {n : ℤ | 0 < n} r q) ∧
      (s.Solved t r (.op .div (.constant v) l) → s.Solved t u k) := by
  obtain ⟨w, rfl, -, -, htakes⟩ := h.of_left hu hl
  simp only [Solved, (simplify_operands hu h.stable).2, hu, knows_iff_constant hk]
  obtain ⟨q, hq, -⟩ := htakes.rest (.inl rfl)
  refine ⟨⟨q, (h.operand hu).2 (.value hq)⟩, ?_⟩
  rintro ⟨c, hc, hknows⟩
  obtain rfl := hc.unique hq
  obtain ⟨x, y, hx, hy, hop⟩ := (knows_op_iff (by decide) rfl rfl).1 hknows
  obtain ⟨hy0, hxy⟩ := Operator.computes_div_iff.1 hop
  refine ⟨x, (takes_product (knows_constant_iff.1 hy) hq).of_eq ?_, hx⟩
  rw [← hxy, mul_div_cancel₀ x hy0]

/-- Where the divisor changes sides, the same number of the known side is a factor of all its
values, unless different roots are copied. -/
theorem solved_of_divisor (hk : s.simplify k = .constant v) (hu : s.simplify u = .op .div l r)
    (hl : l.containsVariable = false) (hr : r.containsVariable = true) (hdef : ¬ s.KnownVoid k)
    (hno : ¬ s.CopiesRoots u k) :
    (∃ q, s.Offers t Anything {n : ℤ | 0 < n} (.op .mul (.constant v) r) q) ∧
      (s.Solved t (.op .mul (.constant v) r) l → s.Solved t u k) := by
  obtain ⟨w, rfl, hstable, hexp, htakes⟩ := h.of_left hu hl
  obtain ⟨q, hq, hq0⟩ := htakes.rest (.inr rfl)
  have hrs := (simplify_operands hu h.stable).2
  have hone := alike_of_not_copiesRoots hk hu rfl hr hno
  obtain ⟨b, hb⟩ := exists_knows hk hdef
  have hv : Takes Anything t.assignment (.constant v) b :=
    knows_constant_iff.1 ((knows_iff_constant hk).1 hb)
  constructor
  · exact ⟨b * q, offers_multiple hrs hstable.2.1 hexp.2.1
      (takes_multiply_constant hstable.2.1 hv hq)⟩
  · simp only [Solved, simplify_multiple hrs, hu, knows_iff_constant hk]
    rintro ⟨c, hc, hknows⟩
    obtain ⟨d, hd, rfl⟩ := exists_of_takes_multiply_constant hstable.2.1 hone hv hq hc
    refine ⟨d, (takes_quotient (knows_constant_iff.1 hknows) hq (hq0 rfl)).of_eq ?_,
      knows_constant_iff.2 hd⟩
    exact mul_div_cancel_right₀ d (hq0 rfl)

end Steps

/-- A step that copies no different roots leaves an equation with values again, which holds with one
of them only if the equation before does. -/
theorem solved_of_undoes (h : ∃ a, s.Offers t Anything {n : ℤ | 0 < n} u a)
    (hstep : s.Undoes u k u' k') (hdef : ¬ s.KnownVoid k) (hno : ¬ s.CopiesRoots u k) :
    (∃ p, s.Offers t Anything {n : ℤ | 0 < n} u' p) ∧ (s.Solved t u' k' → s.Solved t u k) := by
  obtain ⟨a, h⟩ := h
  cases hstep with
  | left hk hu hl hr => exact solved_of_undoRight h hk hu hl hr
  | addend hk hu hl _ => exact solved_of_addend h hk hu hl
  | subtrahend hk hu hl _ => exact solved_of_subtrahend h hk hu hl
  | factor hk hu hl _ => exact solved_of_factor h hk hu hl
  | divisor hk hu hl hr => exact solved_of_divisor h hk hu hl hr hdef hno
  | exponent _ hu _ hr =>
    have hexp := h.exponents
    rw [hu] at hexp
    obtain ⟨n, -, hn⟩ := hexp.2.2 rfl
    rw [containsVariable_of_denotes (hn _)] at hr
    cases hr

variable {name : Char} {w : Value ExactNumber} {z : ExactNumber}

theorem not_knownVoid (h : s.isolate u k = .ok (name, w)) (hz : z ∈ w.elements)
    (hb : z.value? = some b) : ¬ s.KnownVoid k := by
  intro hk
  have hnone := void_of_isolate h (.inl hk) z hz
  cases hnone.symm.trans hb

/-- Where the isolation copies no different roots, the equation holds at every number that is
found. -/
theorem solved_of_isolate (h : s.isolate u k = .ok (name, w)) (hz : z ∈ w.elements)
    (hb : z.value? = some b) (hname : t.get? name = some (.scalar z))
    (hu : ∃ a, s.Offers t Anything {n : ℤ | 0 < n} u a)
    (hno : ∀ u' k', s.Reaches u k u' k' → ¬ s.CopiesRoots u' k') : s.Solved t u k := by
  revert hu hno
  refine isolate_induction (P := fun u k => (∃ a, s.Offers t Anything {n : ℤ | 0 < n} u a) →
    (∀ u' k', s.Reaches u k u' k' → ¬ s.CopiesRoots u' k') → s.Solved t u k) ?_ ?_ h
  · rintro u k c v hk hu rfl ⟨a, hoffers⟩ -
    have htakes := hoffers.takes
    rw [hu] at htakes
    cases htakes with
    | value hd =>
      obtain ⟨x, d, hx, hd', rfl⟩ := denotes_var_iff.1 hd
      cases hx.symm.trans (assignment_eq_some_iff.2 ⟨z, hname, hb⟩)
      rw [Value.elements_map] at hz
      obtain ⟨y, hy, rfl⟩ := List.mem_map.1 hz
      obtain ⟨p, d, hp, hd'', hop⟩ :=
        computes_of_value?_apply (o := .div) hb fun h => absurd h (by decide)
      cases hd'.symm.trans hd''
      obtain ⟨hd0, hpd⟩ := Operator.computes_div_iff.1 hop
      rw [Solved, hu]
      refine ⟨_, .value hd, (knows_iff hk).2 ⟨y, hy, hp.trans (congrArg some ?_)⟩⟩
      rw [← hpd, div_mul_cancel₀ p hd0]
  · intro u k u' k' hstep h' ih hu hno
    have hdef := not_knownVoid (hstep.isolate_eq.trans h') hz hb
    obtain ⟨hu', hback⟩ := solved_of_undoes hu hstep hdef (hno u k (.refl u k))
    exact hback (ih hu' fun u'' k'' hreach => hno u'' k'' (.step hstep hreach))

/-- The sides of an equation after simplification, the one with the unknown first. -/
inductive Sides (s : Scope ExactNumber) (l r : Expr ExactNumber) :
    Expr ExactNumber → Expr ExactNumber → Prop
  | left (hl : (s.simplify l).containsVariable = true)
    (hr : (s.simplify r).containsVariable = false) : Sides s l r (s.simplify l) (s.simplify r)
  | right (hl : (s.simplify l).containsVariable = false)
    (hr : (s.simplify r).containsVariable = true) : Sides s l r (s.simplify r) (s.simplify l)

theorem exists_sides_of_solve (h : s.solve l r = .ok (name, w)) :
    ∃ u k, s.Sides l r u k ∧ s.isolate u k = .ok (name, w) := by
  unfold solve at h
  simp only at h
  split at h
  · next hl hr => exact ⟨_, _, .left hl hr, h⟩
  · next hl hr => exact ⟨_, _, .right hl hr, h⟩
  · cases h
  · cases h

theorem resolve_eq_binding_iff {K : Type} [Arithmetic K] {s : Scope K}
    {source left right : List Char} (hpieces : Text.pieces '=' source = [left, right])
    {l r : Expr K} (hl : parse left = .ok l) (hr : parse right = .ok r) {name : Char}
    {w : Value K} :
    (s.resolve source).1 = .ok (.binding name w) ↔ s.solve l r = .ok (name, w) := by
  simp only [resolve, outcome, hpieces, solveText, hl, hr]
  cases s.solve l r with
  | error e =>
    constructor
    · rintro ⟨⟩
    · rintro ⟨⟩
  | ok binding =>
    constructor
    · rintro ⟨⟩
      rfl
    · rintro ⟨⟩
      rfl

variable {c : ℂ}

theorem denotes_simplify_of_pos (hs : s.Scalar) (hst : t.Extends s)
    (he : u.ExponentsIn {n : ℤ | 0 < n}) (ha : Denotes t.assignment u a) :
    (s.simplify u).ExponentsIn {n : ℤ | 0 < n} ∧ Denotes t.assignment (s.simplify u) a :=
  ⟨exponentsIn_simplify exponentSet_pos he s, denotes_simplify exponentSet_pos hs hst he ha⟩

theorem offers_of_denotes (hs : s.Scalar) (hst : t.Extends s) (hcoeff : u.ProperCoefficients)
    (he : u.ExponentsIn {n : ℤ | 0 < n}) (hS : (s.simplify u).ExponentsIn S)
    (hd : Denotes t.assignment u a) : s.Offers t allows S (s.simplify u) a := by
  have hstable := stable_simplify regular s hcoeff
  have hsimp : s.simplify (s.simplify u) = s.simplify u :=
    simplify_of_stable hstable fun name h => (mem_names_simplify h).2
  exact ⟨hsimp.symm ▸ hstable, hsimp.symm ▸ hS,
    hsimp.symm ▸ .value (denotes_simplify_of_pos hs hst he hd).2⟩

theorem knows_iff_of_closed (hs : s.Scalar) (hst : t.Extends s)
    (he : k.ExponentsIn {n : ℤ | 0 < n}) (hclosed : k.containsVariable = false)
    (hc : Denotes t.assignment k c) : s.Knows k a ↔ a = c := by
  obtain ⟨y, hy, hyc⟩ := exists_simplify_eq_number exponentSet_pos hs hst he hclosed hc
  rw [knows_iff_of_number hy hyc, eq_comm]

theorem knows_of_isolate (hs : s.Scalar) (hst : t.Extends s) (hcoeff : u.ProperCoefficients)
    (he : u.ExponentsIn {n : ℤ | 0 < n}) (hd : Denotes t.assignment u a)
    (h : s.isolate (s.simplify u) k = .ok (name, w)) (hz : z ∈ w.elements)
    (hb : z.value? = some b) (hname : t.get? name = some (.scalar z))
    (hno : ∀ u' k', s.Reaches (s.simplify u) k u' k' → ¬ s.CopiesRoots u' k') : s.Knows k a := by
  obtain ⟨hexp, hd'⟩ := denotes_simplify_of_pos hs hst he hd
  obtain ⟨p, htakes, hknows⟩ := solved_of_isolate h hz hb hname
    ⟨a, offers_of_denotes hs hst hcoeff he hexp hd⟩ hno
  rwa [htakes.unique (denotes_simplify_of_pos hs hst hexp hd').2] at hknows

theorem value?_two : (Arithmetic.two : ExactNumber).value? = some 2 := value?_eq_some_iff.2 rfl

theorem undoRight_two (x : ExactNumber) :
    undoRight .pow (.number Arithmetic.two) (.scalar x) = .constant ((Value.scalar x).roots 2) := by
  have hdegree : Arithmetic.degree? (Arithmetic.two : ExactNumber) = some 2 :=
    degree?_eq_some_iff.2 ⟨value?_two, by decide⟩
  rw [undoRight, rootDegree?, hdegree]
  rfl

section SquaredQuotient

noncomputable def numberOver (p : ℂ) (d : Expr ExactNumber) : Expr ExactNumber :=
  .op .div (.number (ofComplex p)) d

/-- The square of the quotient and one. -/
noncomputable def squaredQuotient (p : ℂ) (d : Expr ExactNumber) : Expr ExactNumber :=
  .op .pow (.op .add (numberOver p d) (.number 1)) (.number Arithmetic.two)

noncomputable def lessenedRoots (q : ℂ) : Value ExactNumber :=
  Operator.sub.combine ((Value.scalar (ofComplex q)).roots 2) (.scalar 1)

theorem mem_lessenedRoots {a q : ℂ} (h : a ^ 2 = q) :
    ofComplex (a - 1) ∈ (lessenedRoots q).elements := by
  refine Value.mem_combine.2 ⟨ofComplex a, List.mem_flatMap.2 ⟨_, List.mem_cons_self, ?_⟩,
    _, List.mem_cons_self, ?_⟩
  · exact (mem_roots two_ne_zero rfl).2 (congrArg some h.symm)
  · exact eq_of_value? (value?_apply (o := .sub) rfl rfl (.sub a 1)) rfl

theorem simplify_x_add_one : empty.simplify (.op .add (.var 'x' 1) (.number 1)) =
    .op .add (.var 'x' 1) (.number (1 : ExactNumber)) := by
  simp [simplify, operation, sum.eq_def, sumAtOnce?, isNumber, additive]

variable {p q : ℂ} {d : Expr ExactNumber}

theorem simplify_numberOver (p : ℂ) (hd : empty.simplify d = d) (hvar : d.names ≠ []) :
    empty.simplify (numberOver p d) = numberOver p d := by
  rw [numberOver, simplify, hd]
  exact divide_constant _ hvar

theorem simplify_numberOver_add (p : ℂ) (hd : empty.simplify d = d) (hvar : d.names ≠ []) :
    empty.simplify (.op .add (numberOver p d) (.number 1)) =
      .op .add (numberOver p d) (.number 1) := by
  rw [simplify, simplify_numberOver p hd hvar]
  simp [numberOver, simplify, operation, sum.eq_def, sumAtOnce?, regrouped?, split?, isNumber,
    additive]

theorem simplify_squaredQuotient (p : ℂ) (hd : empty.simplify d = d) (hvar : d.names ≠ []) :
    empty.simplify (squaredQuotient p d) = squaredQuotient p d := by
  rw [squaredQuotient, simplify, simplify_numberOver_add p hd hvar]
  simp [simplify, operation, power, isNumber, regular.two_ne_zero, regular.two_ne_one]

/-- The first three steps of the isolation from the square make a list of roots a factor of the
divisor. -/
theorem undoes_squaredQuotient (p q : ℂ) (hd : empty.simplify d = d)
    (hvar : d.containsVariable = true) :
    empty.Undoes (squaredQuotient p d) (.number (ofComplex q))
        (.op .add (numberOver p d) (.number 1))
        (.constant ((Value.scalar (ofComplex q)).roots 2)) ∧
      empty.Undoes (.op .add (numberOver p d) (.number 1))
        (.constant ((Value.scalar (ofComplex q)).roots 2)) (numberOver p d)
        (.op .sub (.constant ((Value.scalar (ofComplex q)).roots 2)) (.number 1)) ∧
      empty.Undoes (numberOver p d)
        (.op .sub (.constant ((Value.scalar (ofComplex q)).roots 2)) (.number 1))
        (.op .mul (.constant (lessenedRoots q)) d) (.number (ofComplex p)) := by
  have hnames := d.containsVariable_iff.1 hvar
  refine ⟨?_, .left rfl (simplify_numberOver_add p hd hnames) ?_ rfl, ?_⟩
  · have hstep := Undoes.left (s := empty) (k := .number (ofComplex q)) rfl
      (simplify_squaredQuotient p hd hnames) (by simpa [numberOver, containsVariable]) rfl
    rwa [undoRight_two] at hstep
  · simpa [numberOver, containsVariable]
  · exact .divisor (simplify_constants (by decide) rfl rfl) (simplify_numberOver p hd hnames) rfl
      hvar

theorem simplify_lessenedRoots_mul (q : ℂ) :
    empty.simplify (.op .mul (.constant (lessenedRoots q)) (.var 'x' 1)) =
      .op .mul (.constant (lessenedRoots q)) (.var 'x' 1) :=
  multiply_of_none rfl rfl rfl rfl

theorem simplify_lessenedRoots_mul_add (q : ℂ) :
    empty.simplify (.op .mul (.constant (lessenedRoots q)) (.op .add (.var 'x' 1) (.number 1))) =
      .op .add (.op .mul (.constant (lessenedRoots q)) (.var 'x' 1))
        (.constant (Operator.mul.combine (lessenedRoots q) (.scalar 1))) := by
  have hstable : (Expr.op .add (.var 'x' 1) (.number (1 : ExactNumber))).Stable :=
    ⟨regular.one_ne_zero, trivial, simplify_x_add_one⟩
  rw [simplify, simplify_x_add_one]
  refine (multiply_list_sum regular _ false hstable).trans (congrArg₂ _ ?_ ?_)
  · exact multiply_of_none rfl rfl rfl rfl
  · exact operation_constant (o := .mul) (by decide) _ _

theorem isolate_squaredQuotient (p q : ℂ) :
    empty.isolate (squaredQuotient p (.var 'x' 1)) (.number (ofComplex q)) =
      .ok ('x', (Operator.div.combine (.scalar (ofComplex p)) (lessenedRoots q)).map (· / 1)) := by
  obtain ⟨hpow, hadd, hdiv⟩ := undoes_squaredQuotient p q (d := .var 'x' 1) rfl rfl
  have hmul := Undoes.factor (k := .number (ofComplex p)) rfl (simplify_lessenedRoots_mul q) rfl rfl
  rw [hpow.isolate_eq, hadd.isolate_eq, hdiv.isolate_eq, hmul.isolate_eq]
  exact isolate_var (simplify_constants (by decide) rfl rfl) rfl

theorem isolate_squaredQuotient_add (p q : ℂ) :
    empty.isolate (squaredQuotient p (.op .add (.var 'x' 1) (.number 1))) (.number (ofComplex q)) =
      .ok ('x', (Operator.div.combine (Operator.sub.combine (.scalar (ofComplex p))
        (Operator.mul.combine (lessenedRoots q) (.scalar 1))) (lessenedRoots q)).map (· / 1)) := by
  obtain ⟨hpow, hadd, hdiv⟩ := undoes_squaredQuotient p q simplify_x_add_one rfl
  have haddend := Undoes.left (k := .number (ofComplex p)) rfl (simplify_lessenedRoots_mul_add q)
    rfl rfl
  have hmul := Undoes.factor (k := .op .sub (.number (ofComplex p))
    (.constant (Operator.mul.combine (lessenedRoots q) (.scalar 1))))
    (simplify_constants (by decide) rfl rfl) (simplify_lessenedRoots_mul q) rfl rfl
  rw [hpow.isolate_eq, hadd.isolate_eq, hdiv.isolate_eq, haddend.isolate_eq]
  refine hmul.isolate_eq.trans (isolate_var (simplify_constants (by decide) rfl rfl) rfl)

theorem ofComplex_div (a : ℂ) {b : ℂ} (hb : b ≠ 0) :
    ofComplex a / ofComplex b = ofComplex (a / b) :=
  eq_of_value? (value?_apply (o := .div) rfl rfl (.div a hb)) rfl

theorem mem_map_div_one {v : Value ExactNumber} {a : ℂ} (h : ofComplex a ∈ v.elements) :
    ofComplex a ∈ (v.map (· / 1)).elements := by
  rw [Value.elements_map]
  refine List.mem_map.2 ⟨_, h, (ofComplex_div a one_ne_zero).trans ?_⟩
  rw [div_one]

variable {u k l r : Expr ExactNumber} {rs : List ExactNumber}

theorem eq_of_swapsRoots_squaredQuotient
    (h : empty.Reaches (squaredQuotient p (.var 'x' 1)) (.number (ofComplex q)) u k)
    (hswap : empty.SwapsRoots u k rs l r) : l = .number (ofComplex p) ∧ r = .var 'x' 1 := by
  obtain ⟨-, hu, -, -⟩ := hswap
  obtain ⟨hpow, hadd, hdiv⟩ := undoes_squaredQuotient p q (d := .var 'x' 1) rfl rfl
  have hmul := Undoes.factor (k := .number (ofComplex p)) rfl (simplify_lessenedRoots_mul q) rfl rfl
  rcases h.eq_or_of_undoes hpow with ⟨rfl, rfl⟩ | h
  · cases (simplify_squaredQuotient p rfl (by decide)).symm.trans hu
  rcases h.eq_or_of_undoes hadd with ⟨rfl, rfl⟩ | h
  · cases (simplify_numberOver_add p rfl (by decide)).symm.trans hu
  rcases h.eq_or_of_undoes hdiv with ⟨rfl, rfl⟩ | h
  · cases (simplify_numberOver p rfl (by decide)).symm.trans hu
    exact ⟨rfl, rfl⟩
  rcases h.eq_or_of_undoes hmul with ⟨rfl, rfl⟩ | h
  · cases (simplify_lessenedRoots_mul q).symm.trans hu
  cases h with
  | refl => cases hu
  | step h =>
    obtain ⟨_, _, _, hu⟩ := h.exists_op
    cases hu

theorem denotes_squaredQuotient {a : ℂ} (hd : Denotes t.assignment d a) (ha0 : a ≠ 0) (p : ℂ) :
    Denotes t.assignment (squaredQuotient p d) ((p / a + 1) ^ 2) := by
  have hsquare := (((Denotes.number (value?_ofComplex p)).div hd ha0).add denotes_one).pow
    denotes_two fun _ => zero_le_two
  exact hsquare.of_eq (zpow_ofNat _ 2)

theorem literalExponents_squaredQuotient (p : ℂ) (hd : d.LiteralExponents {n : ℤ | 0 < n}) :
    (squaredQuotient p d).LiteralExponents {n : ℤ | 0 < n} := by
  refine ⟨?_, trivial, fun _ => ⟨_, rfl, 2, exponentSet_pos.two_mem, rfl⟩⟩
  simpa [numberOver, LiteralExponents]

theorem resolve_squaredQuotient {source left right : List Char} (hsimp : empty.simplify d = d)
    (hvar : d.containsVariable = true) (hpieces : Text.pieces '=' source = [left, right])
    (hl : parse left = .ok (squaredQuotient p d)) (hr : parse right = .ok (.number (ofComplex q)))
    {w : Value ExactNumber}
    (h : empty.isolate (squaredQuotient p d) (.number (ofComplex q)) = .ok ('x', w)) :
    (empty.resolve source).1 = .ok (.binding 'x' w) := by
  refine (resolve_eq_binding_iff hpieces hl hr).2 ?_
  unfold solve
  rw [simplify_squaredQuotient p hsimp (d.containsVariable_iff.1 hvar)]
  have hclosed : containsVariable (squaredQuotient p d) = true := by
    simpa [squaredQuotient, numberOver, containsVariable]
  simp only [hclosed]
  exact h

theorem parse_squaredQuotient_one :
    parse "(1/x+1)^2".toList = .ok (squaredQuotient 1 (.var 'x' 1)) := by
  have hparse {K : Type} [Arithmetic K] : parse "(1/x+1)^2".toList = .ok (.op .pow
      (.op .add (.op .div (.number (Arithmetic.ofDecimal (K := K) ⟨1, 0⟩)) (.var 'x' 1))
        (.number (Arithmetic.ofDecimal ⟨1, 0⟩))) (.number (Arithmetic.ofDecimal ⟨2, 0⟩))) := by
    cbv
  rw [hparse, ofDecimal_natural, ofDecimal_natural, Nat.cast_one, Nat.cast_ofNat]
  rfl

theorem parse_squaredQuotient_add : parse "(1/(x+1)+1)^2".toList =
    .ok (squaredQuotient 1 (.op .add (.var 'x' 1) (.number 1))) := by
  have hparse {K : Type} [Arithmetic K] : parse "(1/(x+1)+1)^2".toList = .ok (.op .pow
      (.op .add (.op .div (.number (Arithmetic.ofDecimal (K := K) ⟨1, 0⟩))
        (.op .add (.var 'x' 1) (.number (Arithmetic.ofDecimal ⟨1, 0⟩))))
        (.number (Arithmetic.ofDecimal ⟨1, 0⟩))) (.number (Arithmetic.ofDecimal ⟨2, 0⟩))) := by
    cbv
  rw [hparse, ofDecimal_natural, ofDecimal_natural, Nat.cast_one, Nat.cast_ofNat]
  rfl

theorem parse_four : parse "4".toList = .ok (.number (ofComplex 4)) := by
  have hparse {K : Type} [Arithmetic K] :
      parse "4".toList = .ok (.number (Arithmetic.ofDecimal (K := K) ⟨4, 0⟩)) := by
    cbv
  rw [hparse, ofDecimal_natural, Nat.cast_ofNat]

end SquaredQuotient

/-- Where an equation between polynomials and their quotients is solved and its isolation copies no
different roots, every number of the solution makes the sides equal under every assignment that
gives both of them a value. -/
theorem resolve_sound (hs : s.Scalar) (hst : t.Extends s) {source left right : List Char}
    (hpieces : Text.pieces '=' source = [left, right]) (hl : parse left = .ok l)
    (hr : parse right = .ok r) (hel : l.LiteralExponents {n : ℤ | 0 < n})
    (her : r.LiteralExponents {n : ℤ | 0 < n})
    (h : (s.resolve source).1 = .ok (.binding name w))
    (hno : ∀ u k, s.Sides l r u k → ∀ u' k', s.Reaches u k u' k' → ¬ s.CopiesRoots u' k')
    (hz : z ∈ w.elements) (hname : t.get? name = some (.scalar z)) {x y : ExactNumber} {a c : ℂ}
    (hx : t.evaluate l = .ok (.scalar x)) (hxa : x.value? = some a)
    (hy : t.evaluate r = .ok (.scalar y)) (hyc : y.value? = some c) : x = y := by
  have hsolve := (resolve_eq_binding_iff hpieces hl hr).1 h
  have hda := denotes_of_evaluate hel.exponentsIn hx hxa
  have hdc := denotes_of_evaluate her.exponentsIn hy hyc
  obtain ⟨b, hb⟩ : ∃ b, t.assignment name = some b :=
    (mem_names_of_solve hsolve).1.elim hda.assigned hdc.assigned
  obtain ⟨z', hz', hbz⟩ := assignment_eq_some_iff.1 hb
  cases hname.symm.trans hz'
  obtain ⟨hel', hda'⟩ := denotes_simplify_of_pos hs hst hel.exponentsIn hda
  obtain ⟨her', hdc'⟩ := denotes_simplify_of_pos hs hst her.exponentsIn hdc
  obtain ⟨u, k, hside, hiso⟩ := exists_sides_of_solve hsolve
  have hreach := hno u k hside
  have hac : a = c := by
    cases hside with
    | left _ hclosed =>
      have hcoeff := (written_of_parse hl).properCoefficients regular
      have hknows := knows_of_isolate hs hst hcoeff hel.exponentsIn hda hiso hz hbz hname hreach
      exact (knows_iff_of_closed hs hst her' hclosed hdc').1 hknows
    | right hclosed _ =>
      have hcoeff := (written_of_parse hr).properCoefficients regular
      have hknows := knows_of_isolate hs hst hcoeff her.exponentsIn hdc hiso hz hbz hname hreach
      exact ((knows_iff_of_closed hs hst hel' hclosed hda').1 hknows).symm
  exact eq_of_value? hxa (hac ▸ hyc)

/-- At `-1 / 3`, a number of the solution of `(1 / x + 1) ^ 2 = 4`: the isolation makes the list of
`1` and `-3` a factor of the divisor `x`, and both sides are `4`. -/
theorem resolve_sound_squaredQuotient :
    ∃ (w : Value ExactNumber) (x : ExactNumber),
      (empty.resolve "(1/x+1)^2=4".toList).1 = .ok (.binding 'x' w) ∧
      ofComplex (-1 / 3) ∈ w.elements ∧
      (∃ u k roots dividend divisor, empty.Reaches (squaredQuotient 1 (.var 'x' 1))
        (.number (ofComplex 4)) u k ∧ empty.SwapsRoots u k roots dividend divisor) ∧
      (empty.bind 'x' (.scalar (ofComplex (-1 / 3)))).evaluate (squaredQuotient 1 (.var 'x' 1)) =
        .ok (.scalar x) ∧ x = ofComplex 4 := by
  have hpieces : Text.pieces '=' "(1/x+1)^2=4".toList = ["(1/x+1)^2".toList, "4".toList] := by
    decide
  have hresolve := resolve_squaredQuotient rfl rfl hpieces parse_squaredQuotient_one parse_four
    (isolate_squaredQuotient 1 4)
  have hmem : ofComplex (-1 / 3) ∈
      ((Operator.div.combine (.scalar (ofComplex 1)) (lessenedRoots 4)).map (· / 1)).elements := by
    refine mem_map_div_one (Value.mem_combine.2 ⟨_, List.mem_singleton_self _, _,
      mem_lessenedRoots (a := -2) (by norm_num), (ofComplex_div 1 (by norm_num)).trans ?_⟩)
    norm_num
  obtain ⟨hpow, hadd, -⟩ := undoes_squaredQuotient 1 4 (d := .var 'x' 1) rfl rfl
  have hroots : empty.simplify (.op .sub (.constant ((Value.scalar (ofComplex 4)).roots 2))
      (.number 1)) = .constant (lessenedRoots 4) :=
    simplify_constants (by decide) rfl rfl
  have hx : Denotes (assignment (empty.bind 'x' (.scalar (ofComplex (-1 / 3))))) (.var 'x' 1)
      (-1 / 3) := denotes_unit (assignment_eq_some_iff.2 ⟨_, get?_bind _ _ _ _, rfl⟩)
  obtain ⟨x, hev, hxa⟩ := evaluate_of_denotes (denotes_squaredQuotient hx (by norm_num) 1)
  refine ⟨_, x, hresolve, hmem, ⟨_, _, _, _, _, .step hpow (.step hadd (.refl _ _)),
    hroots, simplify_numberOver 1 rfl (by decide), rfl, rfl⟩, hev,
    resolve_sound (y := ofComplex 4) scalar_empty (extends_empty _) hpieces
      parse_squaredQuotient_one parse_four (literalExponents_squaredQuotient 1 trivial) trivial
      hresolve ?_ hmem (get?_bind _ _ _ _) hev hxa rfl (value?_ofComplex 4)⟩
  intro u k hside u' k' hreach
  cases hside with
  | right hl hr => cases hr
  | left _ _ =>
    rw [simplify_squaredQuotient 1 rfl (by decide)] at hreach
    rintro ⟨_, _, _, hswap, hterms, -⟩
    obtain ⟨-, rfl⟩ := eq_of_swapsRoots_squaredQuotient hreach hswap
    exact hterms rfl

/-- The solution of `(1 / (x + 1) + 1) ^ 2 = 4` contains `4`, where its sides are `36 / 25` and
`4`: one term of the denominator is multiplied with the root `1` and the other with `-3`. -/
theorem resolve_spurious :
    ∃ (w : Value ExactNumber) (x y : ExactNumber),
      (empty.resolve "(1/(x+1)+1)^2=4".toList).1 = .ok (.binding 'x' w) ∧
      parse "(1/(x+1)+1)^2".toList =
        .ok (squaredQuotient 1 (.op .add (.var 'x' 1) (.number 1))) ∧
      parse "4".toList = .ok (.number (ofComplex 4)) ∧
      (squaredQuotient 1 (.op .add (.var 'x' 1) (.number 1))).LiteralExponents {n : ℤ | 0 < n} ∧
      ofComplex 4 ∈ w.elements ∧
      (empty.bind 'x' (.scalar (ofComplex 4))).evaluate
        (squaredQuotient 1 (.op .add (.var 'x' 1) (.number 1))) = .ok (.scalar x) ∧
      x.value? = some (36 / 25) ∧
      (empty.bind 'x' (.scalar (ofComplex 4))).evaluate (.number (ofComplex 4)) =
        .ok (.scalar y) ∧ y.value? = some 4 := by
  have hpieces : Text.pieces '=' "(1/(x+1)+1)^2=4".toList =
      ["(1/(x+1)+1)^2".toList, "4".toList] := by
    decide
  have hresolve := resolve_squaredQuotient simplify_x_add_one rfl hpieces
    parse_squaredQuotient_add parse_four (isolate_squaredQuotient_add 1 4)
  have hx : Denotes (assignment (empty.bind 'x' (.scalar (ofComplex 4)))) (.var 'x' 1) 4 :=
    denotes_unit (assignment_eq_some_iff.2 ⟨_, get?_bind _ _ _ _, rfl⟩)
  obtain ⟨x, hev, hxa⟩ := evaluate_of_denotes
    (denotes_squaredQuotient (hx.add denotes_one) (by norm_num) 1)
  refine ⟨_, x, ofComplex 4, hresolve, parse_squaredQuotient_add, parse_four,
    literalExponents_squaredQuotient 1 (by simp [LiteralExponents]), ?_, hev, ?_, rfl, rfl⟩
  · have hminus : ofComplex (-3) ∈ (lessenedRoots 4).elements := by
      rw [show (-3 : ℂ) = -2 - 1 by norm_num]
      exact mem_lessenedRoots (by norm_num)
    refine mem_map_div_one (Value.mem_combine.2 ⟨ofComplex (1 - -3 * 1), ?_, _,
      mem_lessenedRoots (a := 2) (by norm_num), (ofComplex_div _ (by norm_num)).trans ?_⟩)
    · exact Value.mem_combine.2 ⟨_, List.mem_singleton_self _, _, Value.mem_combine.2
        ⟨_, hminus, 1, List.mem_singleton_self _, rfl⟩,
        eq_of_value? (value?_apply (o := .sub) rfl rfl (.sub 1 _)) rfl⟩
    · norm_num
  · rw [hxa]
    norm_num

end Scope
end ComplexAlgebra
