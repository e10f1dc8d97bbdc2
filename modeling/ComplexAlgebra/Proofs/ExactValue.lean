import ComplexAlgebra.Scope
import ComplexAlgebra.Proofs.ExactNumber

/-! The exact value of an expression under an assignment of complex numbers to variables, as a
relation. An expression has no value if a divisor is zero, if zero is raised to a power it does not
have, or if a list stands in it. -/
namespace ComplexAlgebra

open ExactNumber

/-- `o.Computes a b c`: the operation is defined at `a` and `b` and comes to `c`. -/
inductive Operator.Computes : Operator → ℂ → ℂ → ℂ → Prop
  | add (a b : ℂ) : Computes .add a b (a + b)
  | sub (a b : ℂ) : Computes .sub a b (a - b)
  | mul (a b : ℂ) : Computes .mul a b (a * b)
  | div (a : ℂ) {b : ℂ} (hb : b ≠ 0) : Computes .div a b (a / b)
  | pow {a b : ℂ} (h : a = 0 → b ≠ 0 → 0 < b.re) : Computes .pow a b (a ^ b)

theorem Operator.Computes.unique {o : Operator} {a b c d : ℂ} (hc : o.Computes a b c)
    (hd : o.Computes a b d) : c = d := by
  cases hc <;> cases hd <;> rfl

namespace ExactNumber

theorem value?_apply {o : Operator} {x y : ExactNumber} {a b c : ℂ} (hx : x.value? = some a)
    (hy : y.value? = some b) (h : o.Computes a b c) : (o.apply x y).value? = some c := by
  cases h with
  | add => exact (value?_add x y).trans (by simp [hx, hy])
  | sub => exact (value?_sub x y).trans (by simp [hx, hy])
  | mul => exact (value?_mul x y).trans (by simp [hx, hy])
  | div a hb => exact (value?_div x y).trans (by simp [hx, hy, hb])
  | pow h =>
    obtain rfl := value?_eq_some_iff.1 hy
    refine (value?_power x b).trans ?_
    rw [hx, Option.bind_some, if_neg]
    rintro ⟨ha, hb, hpos⟩
    exact hpos (h ha hb)

theorem computes_of_value?_apply {o : Operator} {x y : ExactNumber} {c : ℂ}
    (h : (o.apply x y).value? = some c) (hpow : o = .pow → ∃ b, y.value? = some b) :
    ∃ a b, x.value? = some a ∧ y.value? = some b ∧ o.Computes a b c := by
  cases o with
  | add =>
    have hh := (value?_add x y).symm.trans h
    obtain ⟨a, ha, hh⟩ := Option.bind_eq_some_iff.1 hh
    obtain ⟨b, hb, rfl⟩ := Option.map_eq_some_iff.1 hh
    exact ⟨a, b, ha, hb, .add a b⟩
  | sub =>
    have hh := (value?_sub x y).symm.trans h
    obtain ⟨a, ha, hh⟩ := Option.bind_eq_some_iff.1 hh
    obtain ⟨b, hb, rfl⟩ := Option.map_eq_some_iff.1 hh
    exact ⟨a, b, ha, hb, .sub a b⟩
  | mul =>
    have hh := (value?_mul x y).symm.trans h
    obtain ⟨a, ha, hh⟩ := Option.bind_eq_some_iff.1 hh
    obtain ⟨b, hb, rfl⟩ := Option.map_eq_some_iff.1 hh
    exact ⟨a, b, ha, hb, .mul a b⟩
  | div =>
    have hh := (value?_div x y).symm.trans h
    obtain ⟨a, ha, hh⟩ := Option.bind_eq_some_iff.1 hh
    obtain ⟨b, hb, hh⟩ := Option.bind_eq_some_iff.1 hh
    by_cases hb0 : b = 0
    · simp [hb0] at hh
    · rw [if_neg hb0] at hh
      cases hh
      exact ⟨a, b, ha, hb, .div a hb0⟩
  | pow =>
    obtain ⟨b, hb⟩ := hpow rfl
    obtain rfl := value?_eq_some_iff.1 hb
    have hh := (value?_power x b).symm.trans h
    obtain ⟨a, ha, hh⟩ := Option.bind_eq_some_iff.1 hh
    by_cases hdef : a = 0 ∧ b ≠ 0 ∧ ¬ 0 < b.re
    · rw [if_pos hdef] at hh
      cases hh
    · rw [if_neg hdef] at hh
      cases hh
      exact ⟨a, b, ha, hb, .pow fun ha hb0 => by_contra fun hre => hdef ⟨ha, hb0, hre⟩⟩

theorem re_make {x y : ExactReal} (h : (Number.make x y).value? = none) :
    (Number.make x y).re = .undefined := by
  cases x with
  | undefined => rfl
  | value x =>
    cases y with
    | undefined => rfl
    | value y => cases h

theorem re_apply {o : Operator} {x y : ExactNumber} (h : (o.apply x y).value? = none) :
    (o.apply x y).re = .undefined := by
  cases o with
  | add => exact re_make h
  | sub => exact re_make h
  | mul => exact re_make h
  | div => exact re_make h
  | pow =>
    change (x.power y).value? = none at h
    show (x.power y).re = .undefined
    revert h
    rw [Number.power]
    split
    · split
      · exact fun h => by cases h
      · split
        · exact fun h => by cases h
        · exact fun _ => by split <;> rfl
    · exact re_make

theorem value?_power_undefined {x y : ExactNumber} (hy : y.re = .undefined) :
    (x.power y).value? = none := by
  have hnone : y.value? = none := by
    obtain ⟨re, im⟩ := y
    cases hy
    rfl
  have hpos : Component.isPositive y.re = false := by
    classical
    refine decide_eq_false ?_
    rintro ⟨r, hr, -⟩
    cases hy.symm.trans hr
  have hzero : (y == 0) = false := by
    refine Bool.eq_false_iff.2 fun h => ?_
    rw [beq_iff.1 h] at hy
    cases hy
  rw [Number.power, hzero, hpos]
  split
  · show (if Component.isNegative y.re = true then Number.infinity else Number.nan).value? = none
    split <;> rfl
  · rw [value?_exp, value?_mul, hnone]
    cases x.log.value? <;> rfl

end ExactNumber

namespace Expr

/-- `Denotes ρ e a`: under the assignment `ρ` the expression has the exact value `a`. -/
inductive Denotes (ρ : Char → Option ℂ) : Expr ExactNumber → ℂ → Prop
  | number {z : ExactNumber} {a : ℂ} (h : z.value? = some a) : Denotes ρ (.number z) a
  | var {name : Char} {c : ExactNumber} {a b : ℂ} (h : ρ name = some a) (hc : c.value? = some b) :
    Denotes ρ (.var name c) (a * b)
  | op {o : Operator} {l r : Expr ExactNumber} {a b c : ℂ} (hl : Denotes ρ l a)
    (hr : Denotes ρ r b) (h : o.Computes a b c) : Denotes ρ (.op o l r) c

variable {ρ : Char → Option ℂ}

theorem Denotes.unique {e : Expr ExactNumber} {a b : ℂ} (ha : Denotes ρ e a)
    (hb : Denotes ρ e b) : a = b := by
  induction ha generalizing b with
  | number h =>
    cases hb with
    | number h' => exact Option.some.inj (h.symm.trans h')
  | var h hc =>
    cases hb with
    | var h' hc' =>
      obtain rfl := Option.some.inj (h.symm.trans h')
      obtain rfl := Option.some.inj (hc.symm.trans hc')
      rfl
  | op hl hr h ihl ihr =>
    cases hb with
    | op hl' hr' h' =>
      obtain rfl := ihl hl'
      obtain rfl := ihr hr'
      exact h.unique h'

theorem Denotes.of_eq {e : Expr ExactNumber} {a b : ℂ} (h : Denotes ρ e a) (hab : a = b) :
    Denotes ρ e b := hab ▸ h

theorem denotes_constant_iff {v : Value ExactNumber} {a : ℂ} :
    Denotes ρ (.constant v) a ↔ ∃ z, v = .scalar z ∧ z.value? = some a := by
  constructor
  · rintro ⟨h⟩
    exact ⟨_, rfl, h⟩
  · rintro ⟨z, rfl, h⟩
    exact .number h

theorem denotes_var_iff {name : Char} {c : ExactNumber} {x : ℂ} :
    Denotes ρ (.var name c) x ↔ ∃ a b, ρ name = some a ∧ c.value? = some b ∧ a * b = x := by
  constructor
  · rintro (_ | ⟨h, hc⟩)
    exact ⟨_, _, h, hc, rfl⟩
  · rintro ⟨a, b, h, hc, rfl⟩
    exact .var h hc

theorem denotes_op_iff {o : Operator} {l r : Expr ExactNumber} {c : ℂ} :
    Denotes ρ (.op o l r) c ↔ ∃ a b, Denotes ρ l a ∧ Denotes ρ r b ∧ o.Computes a b c := by
  constructor
  · intro h
    cases h with
    | op hl hr h => exact ⟨_, _, hl, hr, h⟩
  · rintro ⟨a, b, hl, hr, h⟩
    exact .op hl hr h

theorem Denotes.assigned {e : Expr ExactNumber} {a : ℂ} (h : Denotes ρ e a) {name : Char}
    (hname : name ∈ e.names) : ∃ b, ρ name = some b := by
  induction h with
  | number h => cases hname
  | var h hc =>
    cases List.mem_singleton.1 hname
    exact ⟨_, h⟩
  | op hl hr h ihl ihr => exact (List.mem_append.1 hname).elim ihl ihr

/-- All constants and coefficients are complex numbers. -/
def Numeric : Expr ExactNumber → Prop
  | constant (.scalar x) => ∃ a, x.value? = some a
  | constant (.list _) => False
  | var _ c => ∃ a, c.value? = some a
  | op _ l r => l.Numeric ∧ r.Numeric

/-- Every exponent has one and the same value under all assignments, an integer of the given set. -/
def ExponentsIn (S : Set ℤ) : Expr ExactNumber → Prop
  | constant _ => True
  | var _ _ => True
  | op o l r =>
    l.ExponentsIn S ∧ r.ExponentsIn S ∧ (o = .pow → ∃ n ∈ S, ∀ ρ, Denotes ρ r (n : ℤ))

theorem ExponentsIn.of_ne_pow {S : Set ℤ} {o : Operator} {l r : Expr ExactNumber} (ho : o ≠ .pow)
    (hl : l.ExponentsIn S) (hr : r.ExponentsIn S) : (op o l r).ExponentsIn S :=
  ⟨hl, hr, fun h => absurd h ho⟩

end Expr

namespace Scope

open ComplexAlgebra.Expr (Denotes)

def assignment (t : Scope ExactNumber) (name : Char) : Option ℂ :=
  ((t.get? name).bind Value.scalar?).bind Number.value?

theorem assignment_eq_some_iff {t : Scope ExactNumber} {name : Char} {a : ℂ} :
    t.assignment name = some a ↔ ∃ z, t.get? name = some (.scalar z) ∧ z.value? = some a := by
  rw [assignment, Option.bind_eq_some_iff]
  refine exists_congr fun z => and_congr_left fun _ => ?_
  rw [Option.bind_eq_some_iff]
  constructor
  · rintro ⟨v, hv, hz⟩
    cases v with
    | scalar x =>
      cases hz
      exact hv
    | list xs => cases hz
  · intro h
    exact ⟨.scalar z, h, rfl⟩

theorem evaluate_of_denotes {t : Scope ExactNumber} {e : Expr ExactNumber} {a : ℂ}
    (h : Denotes t.assignment e a) :
    ∃ z, t.evaluate e = .ok (.scalar z) ∧ z.value? = some a := by
  induction h with
  | @number z a h => exact ⟨z, rfl, h⟩
  | @var name c a b h hc =>
    obtain ⟨z, hz, ha⟩ := assignment_eq_some_iff.1 h
    refine ⟨z * c, by simp [evaluate, hz, Value.map], ?_⟩
    exact value?_apply (o := .mul) ha hc (.mul a b)
  | @op o l r a b c hl hr h ihl ihr =>
    obtain ⟨x, hx, ha⟩ := ihl
    obtain ⟨y, hy, hb⟩ := ihr
    refine ⟨o.apply x y, ?_, value?_apply ha hb h⟩
    simp [evaluate, hx, hy, Operator.combine]

theorem evaluate_eq_of_denotes {t : Scope ExactNumber} {e : Expr ExactNumber} {a : ℂ}
    (h : Denotes t.assignment e a) : t.evaluate e = .ok (.scalar (.ofComplex a)) := by
  obtain ⟨z, hz, ha⟩ := evaluate_of_denotes h
  rw [hz, value?_eq_some_iff.1 ha]

theorem evaluate_op_eq_scalar {K : Type} [Arithmetic K] {t : Scope K} {o : Operator} {l r : Expr K}
    {z : K} (h : t.evaluate (.op o l r) = .ok (.scalar z)) :
    ∃ x y, t.evaluate l = .ok (.scalar x) ∧ t.evaluate r = .ok (.scalar y) ∧
      z = o.apply x y := by
  rw [evaluate] at h
  cases hl : t.evaluate l with
  | error e => simp [hl] at h
  | ok v =>
    cases hr : t.evaluate r with
    | error e => simp [hl, hr] at h
    | ok w =>
      simp only [hl, hr] at h
      cases v with
      | list xs => cases h
      | scalar x =>
        cases w with
        | list ys => cases h
        | scalar y =>
          cases h
          exact ⟨x, y, rfl, rfl, rfl⟩

theorem denotes_of_evaluate {t : Scope ExactNumber} {e : Expr ExactNumber} {S : Set ℤ}
    (he : e.ExponentsIn S) {z : ExactNumber} {a : ℂ} (h : t.evaluate e = .ok (.scalar z))
    (hz : z.value? = some a) : Denotes t.assignment e a := by
  induction e generalizing z a with
  | constant v =>
    cases h
    exact .number hz
  | var name c =>
    rw [evaluate] at h
    cases hget : t.get? name with
    | none => simp [hget] at h
    | some v =>
      rw [hget] at h
      cases v with
      | list xs => cases h
      | scalar x =>
        cases h
        obtain ⟨b, d, hb, hd, hmul⟩ :=
          computes_of_value?_apply (o := .mul) (x := x) (y := c) hz fun h => absurd h (by decide)
        cases hmul
        exact .var (assignment_eq_some_iff.2 ⟨x, hget, hb⟩) hd
  | op o l r ihl ihr =>
    obtain ⟨hel, her, hexp⟩ := he
    obtain ⟨x, y, hl, hr, rfl⟩ := evaluate_op_eq_scalar h
    have hpow : o = .pow → ∃ b, y.value? = some b := by
      intro ho
      obtain ⟨n, -, hn⟩ := hexp ho
      obtain ⟨y', hy', hb⟩ := evaluate_of_denotes (hn t.assignment)
      cases hr.symm.trans hy'
      exact ⟨_, hb⟩
    obtain ⟨b, d, hb, hd, hop⟩ := computes_of_value?_apply hz hpow
    exact .op (ihl hel hl hb) (ihr her hr hd) hop

/-- An expression over complex numbers that evaluates to a number has it as its exact value, or the
real part of that number is undefined. -/
theorem denotes_or_undefined {t : Scope ExactNumber} {e : Expr ExactNumber} (he : e.Numeric)
    {z : ExactNumber} (h : t.evaluate e = .ok (.scalar z)) :
    (∃ a, z.value? = some a ∧ Denotes t.assignment e a) ∨ z.re = .undefined := by
  induction e generalizing z with
  | constant v =>
    cases h
    obtain ⟨a, ha⟩ := he
    exact .inl ⟨a, ha, .number ha⟩
  | var name c =>
    rw [evaluate] at h
    cases hget : t.get? name with
    | none => simp [hget] at h
    | some v =>
      rw [hget] at h
      cases v with
      | list xs => cases h
      | scalar x =>
        cases h
        cases hz : (x * c).value? with
        | none => exact .inr (re_apply (o := .mul) hz)
        | some a =>
          obtain ⟨b, d, hb, hd, hmul⟩ :=
            computes_of_value?_apply (o := .mul) (x := x) (y := c) hz fun h => absurd h (by decide)
          cases hmul
          exact .inl ⟨_, rfl, .var (assignment_eq_some_iff.2 ⟨x, hget, hb⟩) hd⟩
  | op o l r ihl ihr =>
    obtain ⟨x, y, hl, hr, rfl⟩ := evaluate_op_eq_scalar h
    cases hz : (o.apply x y).value? with
    | none => exact .inr (re_apply hz)
    | some a =>
      have hpow : o = .pow → ∃ b, y.value? = some b := by
        rintro rfl
        rcases ihr he.2 hr with ⟨b, hb, -⟩ | hy
        · exact ⟨b, hb⟩
        · cases (value?_power_undefined hy).symm.trans hz
      obtain ⟨b, d, hb, hd, hop⟩ := computes_of_value?_apply hz hpow
      have hundefined {w : ExactNumber} {c : ℂ} (hw : w.value? = some c) : w.re ≠ .undefined := by
        rw [value?_eq_some_iff.1 hw]
        exact ExactReal.noConfusion
      obtain ⟨b', hb', hlb⟩ := (ihl he.1 hl).resolve_right (hundefined hb)
      obtain ⟨d', hd', hrd⟩ := (ihr he.2 hr).resolve_right (hundefined hd)
      obtain rfl := Option.some.inj (hb'.symm.trans hb)
      obtain rfl := Option.some.inj (hd'.symm.trans hd)
      exact .inl ⟨a, rfl, .op hlb hrd hop⟩

theorem denotes_iff_evaluate {t : Scope ExactNumber} {e : Expr ExactNumber} (he : e.Numeric)
    {a : ℂ} : Denotes t.assignment e a ↔ t.evaluate e = .ok (.scalar (Number.ofComplex a)) := by
  constructor
  · exact evaluate_eq_of_denotes
  · intro h
    rcases denotes_or_undefined he h with ⟨b, hb, hd⟩ | h
    · obtain rfl := Option.some.inj hb
      exact hd
    · cases h

end Scope
end ComplexAlgebra
