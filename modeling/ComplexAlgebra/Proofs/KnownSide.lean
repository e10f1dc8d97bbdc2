import ComplexAlgebra.Proofs.Undefined

/-! The numbers of the known side of an equation, over exact arithmetic. An operation on known sides
pairs all of their numbers; a power is undone by the roots of every number, or by its principal
root. -/
namespace ComplexAlgebra

open ExactNumber

namespace Operator

variable {a b c : ℂ}

theorem computes_add_iff : Operator.add.Computes a b c ↔ a + b = c := by
  constructor
  · rintro ⟨⟩
    rfl
  · rintro rfl
    exact .add a b

theorem computes_sub_iff : Operator.sub.Computes a b c ↔ a - b = c := by
  constructor
  · rintro ⟨⟩
    rfl
  · rintro rfl
    exact .sub a b

theorem computes_mul_iff : Operator.mul.Computes a b c ↔ a * b = c := by
  constructor
  · rintro ⟨⟩
    rfl
  · rintro rfl
    exact .mul a b

theorem computes_div_iff : Operator.div.Computes a b c ↔ b ≠ 0 ∧ a / b = c := by
  constructor
  · intro h
    cases h with
    | div _ hb => exact ⟨hb, rfl⟩
  · rintro ⟨hb, rfl⟩
    exact .div a hb

end Operator

namespace Scope

open ComplexAlgebra.Expr Simplification

/-- The equation `dividend / divisor = roots` with a list of roots, which the next step turns into
`roots * divisor = dividend`. -/
def SwapsRoots {K : Type} [Arithmetic K] (s : Scope K) (u k : Expr K) (roots : List K)
    (dividend divisor : Expr K) : Prop :=
  s.simplify k = .constant (.list roots) ∧ s.simplify u = .op .div dividend divisor ∧
    dividend.containsVariable = false ∧ divisor.containsVariable = true

/-- A number of the known side has this value. -/
def Knows (s : Scope ExactNumber) (k : Expr ExactNumber) (b : ℂ) : Prop :=
  ∃ v, s.simplify k = .constant v ∧ ∃ x ∈ v.elements, x.value? = some b

variable {s t : Scope ExactNumber} {S : Set ℤ}

theorem exists_simplify_eq_number (hS : ExponentSet S) (hs : s.Scalar) (hst : t.Extends s)
    {e : Expr ExactNumber} (he : e.ExponentsIn S) (hclosed : e.containsVariable = false) {b : ℂ}
    (hd : Denotes t.assignment e b) : ∃ y, s.simplify e = .number y ∧ y.value? = some b := by
  obtain ⟨v, hv⟩ := s.exists_simplify_eq_constant hclosed
  have hsimp := denotes_simplify hS hs hst he hd
  rw [hv] at hsimp
  obtain ⟨y, rfl, hy⟩ := denotes_constant_iff.1 hsimp
  exact ⟨y, hv, hy⟩

theorem knows_iff {k : Expr ExactNumber} {v : Value ExactNumber} {b : ℂ}
    (hk : s.simplify k = .constant v) : s.Knows k b ↔ ∃ x ∈ v.elements, x.value? = some b := by
  constructor
  · rintro ⟨v', hv', h⟩
    cases hk.symm.trans hv'
    exact h
  · exact fun h => ⟨v, hk, h⟩

theorem knows_iff_of_number {k : Expr ExactNumber} {x : ExactNumber} {a b : ℂ}
    (hk : s.simplify k = .number x) (hx : x.value? = some a) : s.Knows k b ↔ a = b := by
  rw [knows_iff hk, Value.elements_scalar]
  constructor
  · rintro ⟨x', hx', hb⟩
    rw [List.mem_singleton.1 hx'] at hb
    exact Option.some.inj (hx.symm.trans hb)
  · rintro rfl
    exact ⟨x, List.mem_cons_self, hx⟩

theorem knows_iff_constant {k : Expr ExactNumber} {v : Value ExactNumber} {b : ℂ}
    (hk : s.simplify k = .constant v) : s.Knows k b ↔ s.Knows (.constant v) b := by
  rw [knows_iff hk, knows_iff rfl]

theorem knows_op_iff {o : Operator} (ho : o ≠ .pow) {l r : Expr ExactNumber}
    (hl : l.containsVariable = false) (hr : r.containsVariable = false) {c : ℂ} :
    s.Knows (.op o l r) c ↔ ∃ a b, s.Knows l a ∧ s.Knows r b ∧ o.Computes a b c := by
  obtain ⟨v, hv⟩ := s.exists_simplify_eq_constant hl
  obtain ⟨w, hw⟩ := s.exists_simplify_eq_constant hr
  rw [knows_iff (simplify_constants ho hv hw)]
  constructor
  · rintro ⟨z, hz, hc⟩
    obtain ⟨x, hx, y, hy, rfl⟩ := Value.mem_combine.1 hz
    obtain ⟨a, b, ha, hb, hop⟩ := computes_of_value?_apply hc fun h => absurd h ho
    exact ⟨a, b, (knows_iff hv).2 ⟨x, hx, ha⟩, (knows_iff hw).2 ⟨y, hy, hb⟩, hop⟩
  · rintro ⟨a, b, hl, hr, hop⟩
    obtain ⟨x, hx, ha⟩ := (knows_iff hv).1 hl
    obtain ⟨y, hy, hb⟩ := (knows_iff hw).1 hr
    exact ⟨_, Value.mem_combine.2 ⟨x, hx, y, hy, rfl⟩, value?_apply ha hb hop⟩

theorem exists_knows {k : Expr ExactNumber} {v : Value ExactNumber}
    (hk : s.simplify k = .constant v) (h : ¬ s.KnownVoid k) : ∃ b, s.Knows k b := by
  by_contra hno
  refine h ⟨v, hk, fun x hx => Option.eq_none_iff_forall_not_mem.2 fun b hb => hno ⟨b, ?_⟩⟩
  exact (knows_iff hk).2 ⟨x, hx, hb⟩

theorem rootDegree?_eq_some {r : Expr ExactNumber} {d : Nat} (h : rootDegree? r = some d) :
    ∃ x, r = .number x ∧ x.value? = some (d : ℂ) ∧ d ≠ 0 := by
  unfold rootDegree? at h
  split at h
  · next x =>
    obtain ⟨hx, hd⟩ := Option.filter_eq_some_iff.1 h
    exact ⟨x, rfl, (degree?_eq_some_iff.1 hx).1, (of_decide_eq_true hd).ne'⟩
  · cases h

theorem knows_roots {v : Value ExactNumber} {d : Nat} (hd : d ≠ 0) {p : ℂ} :
    s.Knows (.constant (v.roots d)) p ↔ ∃ x ∈ v.elements, x.value? = some (p ^ d) := by
  constructor
  · rintro ⟨v', hv', w, hw, hp⟩
    cases hv'
    obtain ⟨x, hx, hroot⟩ := List.mem_flatMap.1 hw
    exact ⟨x, hx, (mem_roots hd hp).1 hroot⟩
  · rintro ⟨x, hx, hp⟩
    refine ⟨_, rfl, .ofComplex p, List.mem_flatMap.2 ⟨x, hx, ?_⟩, rfl⟩
    exact (mem_roots hd (value?_ofComplex p)).2 hp

theorem of_knows_principal {v : Value ExactNumber} {r : Expr ExactNumber} {y : ExactNumber} {n : ℕ}
    (hn : n ≠ 0) (hr : s.simplify r = .number y) (hy : y.value? = some (n : ℂ)) {p : ℂ}
    (h : s.Knows (.op .pow (.constant v) (.op .div (.number 1) r)) p) :
    ∃ x ∈ v.elements, x.value? = some (p ^ n) := by
  have hn0 : (n : ℂ) ≠ 0 := Nat.cast_ne_zero.2 hn
  have hinv : (Operator.div.apply (1 : ExactNumber) y).value? = some (1 / (n : ℂ)) :=
    value?_apply (value?_ofComplex 1) hy (.div 1 hn0)
  obtain ⟨v', hv', w, hw, hp⟩ := h
  rw [simplify_principal hr] at hv'
  split at hv'
  · next h1 =>
    cases hv'
    obtain ⟨_, heq, hone⟩ := isNumber_iff.1 h1
    cases heq
    rw [beq_iff.1 hone] at hinv
    have hn1 : (n : ℂ) = 1 := by
      have hh : (1 : ℂ) = 1 / n := Option.some.inj hinv
      rw [eq_div_iff hn0, one_mul] at hh
      exact hh
    obtain rfl := Nat.cast_eq_one.1 hn1
    exact ⟨w, hw, by rw [pow_one, hp]⟩
  · cases hv'
    obtain ⟨x, hx, y', hy', rfl⟩ := Value.mem_combine.1 hw
    cases List.mem_singleton.1 hy'
    obtain ⟨b, m, hb, hm, hop⟩ := computes_of_value?_apply hp fun _ => ⟨_, hinv⟩
    obtain rfl : 1 / (n : ℂ) = m := Option.some.inj (hinv.symm.trans hm)
    refine ⟨x, hx, hb.trans ?_⟩
    cases hop
    rw [one_div, Complex.cpow_nat_inv_pow b hn]

theorem exponentSet_pos : ExponentSet {n : ℤ | 0 < n} where
  two_mem := show (0 : ℤ) < 2 by decide
  mul_mem _ hm _ hn := Int.mul_pos hm hn

theorem containsVariable_of_denotes {e : Expr ExactNumber} {a : ℂ}
    (h : Denotes (fun _ => none) e a) : e.containsVariable = false := by
  induction h with
  | number h => rfl
  | var h hc => cases h
  | op hl hr h ihl ihr => rw [containsVariable, ihl, ihr, Bool.or_self]

theorem knows_of_undoRight_pow {r : Expr ExactNumber} {v : Value ExactNumber} {y : ExactNumber}
    {n : ℕ} (hn : n ≠ 0) (hr : s.simplify r = .number y) (hy : y.value? = some (n : ℂ)) {p : ℂ}
    (h : s.Knows (undoRight .pow r v) p) : s.Knows (.constant v) (p ^ n) := by
  rw [undoRight] at h
  split at h
  · next d hdegree =>
    obtain ⟨x, rfl, hx, hd0⟩ := rootDegree?_eq_some hdegree
    cases hr
    obtain rfl : n = d := Nat.cast_injective (Option.some.inj (hy.symm.trans hx))
    exact (knows_iff rfl).2 ((knows_roots hd0).1 h)
  · exact (knows_iff rfl).2 (of_knows_principal hn hr hy h)

end Scope
end ComplexAlgebra
