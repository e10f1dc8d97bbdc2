import ComplexAlgebra.Proofs.ExactValue
import ComplexAlgebra.Proofs.Rewriting

/-! Simplification keeps exact values. Each rewrite rule keeps the value an expression has, as long
as exponents are integers; then so does every rewriting, and with it simplification. -/
namespace ComplexAlgebra

open ExactNumber

theorem Operator.computes_pow_int_iff {a c : ℂ} {n : ℤ} :
    Operator.pow.Computes a (n : ℂ) c ↔ (a = 0 → 0 ≤ n) ∧ c = a ^ n := by
  constructor
  · rintro ⟨⟩
    rename_i h
    refine ⟨fun ha => ?_, Complex.cpow_intCast a n⟩
    by_cases hn : n = 0
    · exact hn.ge
    · have hpos := h ha (Int.cast_ne_zero.2 hn)
      rw [Complex.intCast_re, Int.cast_pos] at hpos
      exact hpos.le
  · rintro ⟨h, rfl⟩
    rw [← Complex.cpow_intCast]
    refine .pow fun ha hn => ?_
    rw [Complex.intCast_re, Int.cast_pos]
    exact lt_of_le_of_ne (h ha) fun h0 => hn (by rw [← h0, Int.cast_zero])

namespace Expr

open Simplification (additive collected scaled)

variable {ρ : Char → Option ℂ} {l r : Expr ExactNumber} {a b c : ℂ}

theorem Denotes.add (hl : Denotes ρ l a) (hr : Denotes ρ r b) :
    Denotes ρ (.op .add l r) (a + b) := .op hl hr (.add a b)

theorem Denotes.sub (hl : Denotes ρ l a) (hr : Denotes ρ r b) :
    Denotes ρ (.op .sub l r) (a - b) := .op hl hr (.sub a b)

theorem Denotes.mul (hl : Denotes ρ l a) (hr : Denotes ρ r b) :
    Denotes ρ (.op .mul l r) (a * b) := .op hl hr (.mul a b)

theorem Denotes.div (hl : Denotes ρ l a) (hr : Denotes ρ r b) (hb : b ≠ 0) :
    Denotes ρ (.op .div l r) (a / b) := .op hl hr (.div a hb)

theorem Denotes.pow {n : ℤ} (hl : Denotes ρ l a) (hr : Denotes ρ r (n : ℂ)) (h : a = 0 → 0 ≤ n) :
    Denotes ρ (.op .pow l r) (a ^ n) := .op hl hr (Operator.computes_pow_int_iff.2 ⟨h, rfl⟩)

theorem denotes_add_iff :
    Denotes ρ (.op .add l r) c ↔ ∃ a b, Denotes ρ l a ∧ Denotes ρ r b ∧ a + b = c := by
  constructor
  · intro h
    cases h with
    | op hl hr h => cases h; exact ⟨_, _, hl, hr, rfl⟩
  · rintro ⟨a, b, hl, hr, rfl⟩
    exact hl.add hr

theorem denotes_sub_iff :
    Denotes ρ (.op .sub l r) c ↔ ∃ a b, Denotes ρ l a ∧ Denotes ρ r b ∧ a - b = c := by
  constructor
  · intro h
    cases h with
    | op hl hr h => cases h; exact ⟨_, _, hl, hr, rfl⟩
  · rintro ⟨a, b, hl, hr, rfl⟩
    exact hl.sub hr

theorem denotes_mul_iff :
    Denotes ρ (.op .mul l r) c ↔ ∃ a b, Denotes ρ l a ∧ Denotes ρ r b ∧ a * b = c := by
  constructor
  · intro h
    cases h with
    | op hl hr h => cases h; exact ⟨_, _, hl, hr, rfl⟩
  · rintro ⟨a, b, hl, hr, rfl⟩
    exact hl.mul hr

theorem denotes_div_iff :
    Denotes ρ (.op .div l r) c ↔ ∃ a b, Denotes ρ l a ∧ Denotes ρ r b ∧ b ≠ 0 ∧ a / b = c := by
  constructor
  · intro h
    cases h with
    | op hl hr h => cases h; exact ⟨_, _, hl, hr, ‹_›, rfl⟩
  · rintro ⟨a, b, hl, hr, hb, rfl⟩
    exact hl.div hr hb

theorem denotes_pow_iff {n : ℤ} (hr : Denotes ρ r (n : ℂ)) :
    Denotes ρ (.op .pow l r) c ↔ ∃ a, Denotes ρ l a ∧ (a = 0 → 0 ≤ n) ∧ a ^ n = c := by
  constructor
  · intro h
    cases h with
    | op hl hr' h =>
      obtain rfl := hr'.unique hr
      obtain ⟨hn, rfl⟩ := Operator.computes_pow_int_iff.1 h
      exact ⟨_, hl, hn, rfl⟩
  · rintro ⟨a, hl, hn, rfl⟩
    exact hl.pow hr hn

def signedSum (negated : Bool) (a b : ℂ) : ℂ := if negated then a - b else a + b

theorem denotes_additive_iff {negated : Bool} :
    Denotes ρ (.op (additive negated) l r) c ↔
      ∃ a b, Denotes ρ l a ∧ Denotes ρ r b ∧ signedSum negated a b = c := by
  cases negated with
  | false => exact denotes_add_iff
  | true => exact denotes_sub_iff

theorem Denotes.additive (negated : Bool) (hl : Denotes ρ l a) (hr : Denotes ρ r b) :
    Denotes ρ (.op (additive negated) l r) (signedSum negated a b) :=
  denotes_additive_iff.2 ⟨a, b, hl, hr, rfl⟩

theorem signedSum_zero (negated : Bool) (a : ℂ) : signedSum negated a 0 = a := by
  cases negated <;> simp [signedSum]

theorem signedSum_mul (negated : Bool) (a b c : ℂ) :
    signedSum negated a b * c = signedSum negated (a * c) (b * c) := by
  cases negated <;> simp [signedSum, add_mul, sub_mul]

theorem mul_signedSum (negated : Bool) (a b c : ℂ) :
    c * signedSum negated a b = signedSum negated (c * a) (c * b) := by
  cases negated <;> simp [signedSum, mul_add, mul_sub]

theorem signedSum_div (negated : Bool) (a b c : ℂ) :
    signedSum negated a b / c = signedSum negated (a / c) (b / c) := by
  cases negated <;> simp [signedSum, add_div, sub_div]

theorem denotes_zero : Denotes ρ (.number 0) 0 := .number (value?_ofComplex 0)

theorem denotes_one : Denotes ρ (.number 1) 1 := .number (value?_ofComplex 1)

theorem denotes_two : Denotes ρ (.number Arithmetic.two) ((2 : ℤ) : ℂ) :=
  .number (value?_eq_some_iff.2 rfl)

theorem denotes_unit {name : Char} (h : ρ name = some a) : Denotes ρ (.var name 1) a :=
  (Denotes.var h (value?_ofComplex 1)).of_eq (mul_one a)

theorem denotes_collected {name : Char} {k : ExactNumber} (h : ρ name = some a)
    (hk : k.value? = some b) : Denotes ρ (collected name k) (a * b) := by
  unfold collected
  split
  · next h0 =>
    rw [beq_iff.1 h0] at hk
    cases hk
    exact denotes_zero.of_eq (mul_zero a).symm
  · exact .var h hk

theorem denotes_scaled {k : ExactNumber} (hk : k.value? = some b) (h : Denotes ρ l a) :
    Denotes ρ (scaled k l) (b * a) := by
  unfold scaled
  split
  · next h1 =>
    rw [beq_iff.1 h1] at hk
    cases hk
    exact h.of_eq (one_mul a).symm
  · exact .mul (.number hk) h

theorem denotes_combine {o : Operator} {v w : Value ExactNumber} (hv : Denotes ρ (.constant v) a)
    (hw : Denotes ρ (.constant w) b) (h : o.Computes a b c) :
    Denotes ρ (.constant (o.combine v w)) c := by
  obtain ⟨x, rfl, hx⟩ := denotes_constant_iff.1 hv
  obtain ⟨y, rfl, hy⟩ := denotes_constant_iff.1 hw
  exact .number (value?_apply hx hy h)

theorem denotes_negated {v : Value ExactNumber} (hv : Denotes ρ (.constant v) a) :
    Denotes ρ (.constant (v.map (- ·))) (-a) := by
  obtain ⟨x, rfl, hx⟩ := denotes_constant_iff.1 hv
  exact .number ((value?_neg x).trans (by simp [hx]))

theorem denotes_withSign (negated : Bool) {v : Value ExactNumber}
    (hv : Denotes ρ (.constant v) a) :
    Denotes ρ (.constant (v.withSign negated)) (signedSum negated 0 a) := by
  cases negated with
  | false => exact hv.of_eq (zero_add a).symm
  | true => exact (denotes_negated hv).of_eq (zero_sub a).symm

end Expr

namespace Simplification

open ComplexAlgebra.Expr

variable {ρ : Char → Option ℂ} {e e' : Expr ExactNumber} {a : ℂ}

theorem denotes_of_sumRule (h : SumRule e e') (hd : Denotes ρ e a) : Denotes ρ e' a := by
  cases h with
  | collect negated name c d =>
    obtain ⟨_, _, hl, hr, rfl⟩ := denotes_additive_iff.1 hd
    obtain ⟨x, p, hx, hp, rfl⟩ := denotes_var_iff.1 hl
    obtain ⟨y, q, hy, hq, rfl⟩ := denotes_var_iff.1 hr
    obtain rfl := Option.some.inj (hx.symm.trans hy)
    cases negated with
    | false => exact (denotes_collected hx (value?_apply hp hq (.add p q))).of_eq (mul_add x p q)
    | true => exact (denotes_collected hx (value?_apply hp hq (.sub p q))).of_eq (mul_sub x p q)
  | add_zero negated e h0 =>
    obtain ⟨p, q, hl, hr, rfl⟩ := denotes_additive_iff.1 hd
    rw [beq_iff.1 h0] at hr
    obtain rfl := hr.unique denotes_zero
    exact hl.of_eq (signedSum_zero negated p).symm
  | zero_add e h0 =>
    obtain ⟨p, q, hl, hr, rfl⟩ := denotes_add_iff.1 hd
    rw [beq_iff.1 h0] at hl
    obtain rfl := hl.unique denotes_zero
    exact hr.of_eq (zero_add q).symm
  | zero_sub name d h0 =>
    obtain ⟨p, _, hl, hr, rfl⟩ := denotes_sub_iff.1 hd
    rw [beq_iff.1 h0] at hl
    obtain rfl := hl.unique denotes_zero
    obtain ⟨x, q, hx, hq, rfl⟩ := denotes_var_iff.1 hr
    have hneg : (-d).value? = some (-q) := (value?_neg d).trans (by simp [hq])
    exact (denotes_collected hx hneg).of_eq (by ring)
  | add_comm c e =>
    obtain ⟨p, q, hl, hr, rfl⟩ := denotes_add_iff.1 hd
    exact (hr.add hl).of_eq (add_comm q p)
  | sub_constant e c =>
    obtain ⟨p, q, hl, hr, rfl⟩ := denotes_sub_iff.1 hd
    exact (hl.add (denotes_negated hr)).of_eq (sub_eq_add_neg p q).symm
  | sum_constant negated e c k =>
    obtain ⟨_, x, hl, hk, rfl⟩ := denotes_additive_iff.1 hd
    obtain ⟨p, q, he, hc, rfl⟩ := denotes_add_iff.1 hl
    refine (he.add (denotes_combine hc (denotes_withSign negated hk) (.add _ _))).of_eq ?_
    cases negated <;> simp only [signedSum] <;> simp <;> ring
  | difference_constant negated c k e =>
    obtain ⟨_, x, hl, hk, rfl⟩ := denotes_additive_iff.1 hd
    obtain ⟨p, q, hc, he, rfl⟩ := denotes_sub_iff.1 hl
    refine ((denotes_combine hc (denotes_withSign negated hk) (.add _ _)).sub he).of_eq ?_
    cases negated <;> simp only [signedSum] <;> simp <;> ring
  | constant_add_sum k c e =>
    obtain ⟨x, _, hk, hr, rfl⟩ := denotes_add_iff.1 hd
    obtain ⟨p, q, he, hc, rfl⟩ := denotes_add_iff.1 hr
    exact (he.add (denotes_combine hk hc (.add _ _))).of_eq (by ring)
  | constant_sub_sum k c e =>
    obtain ⟨x, _, hk, hr, rfl⟩ := denotes_sub_iff.1 hd
    obtain ⟨p, q, he, hc, rfl⟩ := denotes_add_iff.1 hr
    exact ((denotes_combine hk (denotes_negated hc) (.add _ _)).sub he).of_eq (by ring)
  | constant_add_difference k c e =>
    obtain ⟨x, _, hk, hr, rfl⟩ := denotes_add_iff.1 hd
    obtain ⟨p, q, hc, he, rfl⟩ := denotes_sub_iff.1 hr
    exact ((denotes_combine hk hc (.add _ _)).sub he).of_eq (by ring)
  | constant_sub_difference k c e =>
    obtain ⟨x, _, hk, hr, rfl⟩ := denotes_sub_iff.1 hd
    obtain ⟨p, q, hc, he, rfl⟩ := denotes_sub_iff.1 hr
    exact (he.add (denotes_combine hk (denotes_negated hc) (.add _ _))).of_eq (by ring)

theorem denotes_of_productRule (h : ProductRule e e') (hd : Denotes ρ e a) : Denotes ρ e' a := by
  cases h with
  | mul_comm e k =>
    obtain ⟨p, q, hl, hr, rfl⟩ := denotes_mul_iff.1 hd
    exact (hr.mul hl).of_eq (mul_comm q p)
  | one_mul e h1 =>
    obtain ⟨p, q, hl, hr, rfl⟩ := denotes_mul_iff.1 hd
    rw [beq_iff.1 h1] at hl
    obtain rfl := hl.unique denotes_one
    exact hr.of_eq (one_mul q).symm
  | zero_mul e h0 =>
    obtain ⟨p, q, hl, hr, rfl⟩ := denotes_mul_iff.1 hd
    rw [beq_iff.1 h0] at hl
    obtain rfl := hl.unique denotes_zero
    exact denotes_zero.of_eq (zero_mul q).symm
  | number_mul_var k name c =>
    obtain ⟨p, _, hk, hr, rfl⟩ := denotes_mul_iff.1 hd
    obtain ⟨x, q, hx, hq, rfl⟩ := denotes_var_iff.1 hr
    cases hk with
    | number hp => exact (Denotes.var hx (value?_apply hq hp (.mul q p))).of_eq (by ring)
  | var_mul_self name c d =>
    obtain ⟨_, _, hl, hr, rfl⟩ := denotes_mul_iff.1 hd
    obtain ⟨x, p, hx, hp, rfl⟩ := denotes_var_iff.1 hl
    obtain ⟨y, q, hy, hq, rfl⟩ := denotes_var_iff.1 hr
    obtain rfl := Option.some.inj (hx.symm.trans hy)
    have hsq := (denotes_unit hx).pow denotes_two fun _ => zero_le_two
    refine (denotes_scaled (value?_apply hp hq (.mul p q)) hsq).of_eq ?_
    rw [zpow_two]
    ring
  | var_mul_var name other c d =>
    obtain ⟨_, _, hl, hr, rfl⟩ := denotes_mul_iff.1 hd
    obtain ⟨x, p, hx, hp, rfl⟩ := denotes_var_iff.1 hl
    obtain ⟨y, q, hy, hq, rfl⟩ := denotes_var_iff.1 hr
    have hxy := (denotes_unit hx).mul (denotes_unit hy)
    exact (denotes_scaled (value?_apply hp hq (.mul p q)) hxy).of_eq (by ring)
  | sum_mul negated l r _ =>
    obtain ⟨_, z, hlr, he, rfl⟩ := denotes_mul_iff.1 hd
    obtain ⟨p, q, hl, hr, rfl⟩ := denotes_additive_iff.1 hlr
    exact ((hl.mul he).additive negated (hr.mul he)).of_eq (signedSum_mul negated p q z).symm
  | mul_sum negated l r _ =>
    obtain ⟨z, _, he, hlr, rfl⟩ := denotes_mul_iff.1 hd
    obtain ⟨p, q, hl, hr, rfl⟩ := denotes_additive_iff.1 hlr
    exact ((he.mul hl).additive negated (he.mul hr)).of_eq (mul_signedSum negated p q z).symm
  | mul_product c k e =>
    obtain ⟨x, _, hc, hr, rfl⟩ := denotes_mul_iff.1 hd
    obtain ⟨y, z, hk, he, rfl⟩ := denotes_mul_iff.1 hr
    exact ((denotes_combine hc hk (.mul x y)).mul he).of_eq (mul_assoc x y z)
  | mul_dividend c k e =>
    obtain ⟨x, _, hc, hr, rfl⟩ := denotes_mul_iff.1 hd
    obtain ⟨z, y, he, hk, hy, rfl⟩ := denotes_div_iff.1 hr
    exact ((denotes_combine hc hk (.div x hy)).mul he).of_eq (by ring)
  | mul_divisor c k e =>
    obtain ⟨x, _, hc, hr, rfl⟩ := denotes_mul_iff.1 hd
    obtain ⟨y, z, hk, he, hz, rfl⟩ := denotes_div_iff.1 hr
    exact ((denotes_combine hc hk (.mul x y)).div he hz).of_eq (by ring)

theorem denotes_of_quotientRule (h : QuotientRule e e') (hd : Denotes ρ e a) :
    Denotes ρ e' a := by
  cases h with
  | div_one e h1 =>
    obtain ⟨p, q, hl, hr, -, rfl⟩ := denotes_div_iff.1 hd
    rw [beq_iff.1 h1] at hr
    obtain rfl := hr.unique denotes_one
    exact hl.of_eq (div_one p).symm
  | var_div_self name c d =>
    obtain ⟨_, _, hl, hr, hne, rfl⟩ := denotes_div_iff.1 hd
    obtain ⟨x, p, hx, hp, rfl⟩ := denotes_var_iff.1 hl
    obtain ⟨y, q, hy, hq, rfl⟩ := denotes_var_iff.1 hr
    obtain rfl := Option.some.inj (hx.symm.trans hy)
    have hne' := mul_ne_zero_iff.1 hne
    refine (Denotes.number (value?_apply hp hq (.div p hne'.2))).of_eq ?_
    exact (mul_div_mul_left p q hne'.1).symm
  | var_div_var name other c d =>
    obtain ⟨_, _, hl, hr, hne, rfl⟩ := denotes_div_iff.1 hd
    obtain ⟨x, p, hx, hp, rfl⟩ := denotes_var_iff.1 hl
    obtain ⟨y, q, hy, hq, rfl⟩ := denotes_var_iff.1 hr
    have hne' := mul_ne_zero_iff.1 hne
    have hxy := (denotes_unit hx).div (denotes_unit hy) hne'.1
    refine (denotes_scaled (value?_apply hp hq (.div p hne'.2)) hxy).of_eq ?_
    rw [div_mul_div_comm, mul_comm p x, mul_comm q y]
  | var_div_number name c k =>
    obtain ⟨_, q, hl, hr, hne, rfl⟩ := denotes_div_iff.1 hd
    obtain ⟨x, p, hx, hp, rfl⟩ := denotes_var_iff.1 hl
    cases hr with
    | number hq => exact (Denotes.var hx (value?_apply hp hq (.div p hne))).of_eq (by ring)
  | sum_div negated l r _ =>
    obtain ⟨_, z, hlr, he, hne, rfl⟩ := denotes_div_iff.1 hd
    obtain ⟨p, q, hl, hr, rfl⟩ := denotes_additive_iff.1 hlr
    refine ((hl.div he hne).additive negated (hr.div he hne)).of_eq ?_
    exact (signedSum_div negated p q z).symm
  | product_div c k e =>
    obtain ⟨_, y, hl, hk, hne, rfl⟩ := denotes_div_iff.1 hd
    obtain ⟨x, z, hc, he, rfl⟩ := denotes_mul_iff.1 hl
    exact ((denotes_combine hc hk (.div x hne)).mul he).of_eq (by ring)
  | dividend_div c k e =>
    obtain ⟨_, y, hl, hk, hne, rfl⟩ := denotes_div_iff.1 hd
    obtain ⟨z, x, he, hc, hx, rfl⟩ := denotes_div_iff.1 hl
    refine (he.div (denotes_combine hc hk (.mul x y)) (mul_ne_zero hx hne)).of_eq ?_
    exact (div_div z x y).symm
  | divisor_div c k e =>
    obtain ⟨_, y, hl, hk, hne, rfl⟩ := denotes_div_iff.1 hd
    obtain ⟨x, z, hc, he, hz, rfl⟩ := denotes_div_iff.1 hl
    exact ((denotes_combine hc hk (.div x hne)).div he hz).of_eq (div_right_comm x y z)

theorem denotes_of_powerRule {S : Set ℤ} (h : PowerRule e e') (he : e.ExponentsIn S)
    (hd : Denotes ρ e a) : Denotes ρ e' a := by
  cases h with
  | pow_zero b h0 =>
    rw [beq_iff.1 h0] at hd
    have hzero : Denotes ρ (.number 0) ((0 : ℤ) : ℂ) := denotes_zero.of_eq Int.cast_zero.symm
    obtain ⟨p, -, -, rfl⟩ := (denotes_pow_iff hzero).1 hd
    exact denotes_one.of_eq (zpow_zero p).symm
  | pow_one b h1 =>
    rw [beq_iff.1 h1] at hd
    have hone : Denotes ρ (.number 1) ((1 : ℤ) : ℂ) := denotes_one.of_eq Int.cast_one.symm
    obtain ⟨p, hb, -, rfl⟩ := (denotes_pow_iff hone).1 hd
    exact hb.of_eq (zpow_one p).symm
  | var_pow name c w =>
    obtain ⟨n, -, hn⟩ := he.2.2 rfl
    obtain ⟨_, hb, h0, rfl⟩ := (denotes_pow_iff (hn ρ)).1 hd
    obtain ⟨x, p, hx, hp, rfl⟩ := denotes_var_iff.1 hb
    have hcoeff : Operator.pow.Computes p (n : ℂ) (p ^ n) :=
      Operator.computes_pow_int_iff.2 ⟨fun h => h0 (by rw [h, mul_zero]), rfl⟩
    have hvar := (denotes_unit hx).pow (hn ρ) fun h => h0 (by rw [h, zero_mul])
    refine ((denotes_combine (.number hp) (hn ρ) hcoeff).mul hvar).of_eq ?_
    rw [mul_zpow, mul_comm]
  | product_pow l r w =>
    obtain ⟨n, -, hn⟩ := he.2.2 rfl
    obtain ⟨_, hb, h0, rfl⟩ := (denotes_pow_iff (hn ρ)).1 hd
    obtain ⟨p, q, hl, hr, rfl⟩ := denotes_mul_iff.1 hb
    have hlp := hl.pow (hn ρ) fun h => h0 (by rw [h, zero_mul])
    have hrp := hr.pow (hn ρ) fun h => h0 (by rw [h, mul_zero])
    exact (hlp.mul hrp).of_eq (mul_zpow p q n).symm
  | quotient_pow l r w =>
    obtain ⟨n, -, hn⟩ := he.2.2 rfl
    obtain ⟨_, hb, h0, rfl⟩ := (denotes_pow_iff (hn ρ)).1 hd
    obtain ⟨p, q, hl, hr, hq, rfl⟩ := denotes_div_iff.1 hb
    have hlp := hl.pow (hn ρ) fun h => h0 (by rw [h, zero_div])
    have hrp := hr.pow (hn ρ) fun h => absurd h hq
    exact (hlp.div hrp (zpow_ne_zero n hq)).of_eq (div_zpow p q n).symm
  | pow_pow b w w' =>
    obtain ⟨m, -, hm⟩ := he.1.2.2 rfl
    obtain ⟨n, -, hn⟩ := he.2.2 rfl
    obtain ⟨_, hb, h0, rfl⟩ := (denotes_pow_iff (hn ρ)).1 hd
    obtain ⟨p, hp, h0', rfl⟩ := (denotes_pow_iff (hm ρ)).1 hb
    have hmn : Denotes ρ (.op .mul w w') ((m * n : ℤ) : ℂ) :=
      ((hm ρ).mul (hn ρ)).of_eq (Int.cast_mul m n).symm
    refine (hp.pow hmn fun h => ?_).of_eq (zpow_mul p m n)
    -- A zero base has the exponent zero, or its power is zero again.
    rcases (h0' h).eq_or_lt with hm0 | hm0
    · rw [← hm0, zero_mul]
    · exact mul_nonneg (h0' h) (h0 (by rw [h, zero_zpow m hm0.ne']))

theorem denotes_of_fieldRule (h : FieldRule e e') (hd : Denotes ρ e a) : Denotes ρ e' a := by
  cases h with
  | fold o v w =>
    obtain ⟨p, q, hv, hw, h⟩ := denotes_op_iff.1 hd
    exact denotes_combine hv hw h
  | sum h => exact denotes_of_sumRule h hd
  | product h => exact denotes_of_productRule h hd
  | quotient h => exact denotes_of_quotientRule h hd

/-- Without the rules for powers, every value is kept, whatever the exponents are. -/
theorem Recasts.denotes (h : Recasts e e') (hd : Denotes ρ e a) : Denotes ρ e' a := by
  induction h generalizing a with
  | refl e => exact hd
  | rule h => exact denotes_of_fieldRule h hd
  | trans _ _ ih ih' => exact ih' (ih hd)
  | operands o _ _ ihl ihr =>
    obtain ⟨p, q, hp, hq, h⟩ := denotes_op_iff.1 hd
    exact .op (ihl hp) (ihr hq) h

theorem denotes_of_rule {S : Set ℤ} (h : Rule e e') (he : e.ExponentsIn S)
    (hd : Denotes ρ e a) : Denotes ρ e' a := by
  cases h with
  | fold o v w => exact denotes_of_fieldRule (.fold o v w) hd
  | sum h => exact denotes_of_sumRule h hd
  | product h => exact denotes_of_productRule h hd
  | quotient h => exact denotes_of_quotientRule h hd
  | power h => exact denotes_of_powerRule h he hd

/-- Exponents that rewriting can make out of exponents. -/
structure ExponentSet (S : Set ℤ) : Prop where
  two_mem : 2 ∈ S
  mul_mem : ∀ m ∈ S, ∀ n ∈ S, m * n ∈ S

variable {S : Set ℤ}

theorem exponentsIn_op_iff {o : Operator} (ho : o ≠ .pow) {l r : Expr ExactNumber} :
    (Expr.op o l r).ExponentsIn S ↔ l.ExponentsIn S ∧ r.ExponentsIn S := by
  constructor
  · rintro ⟨hl, hr, -⟩
    exact ⟨hl, hr⟩
  · rintro ⟨hl, hr⟩
    exact ⟨hl, hr, fun h => absurd h ho⟩

theorem exponentsIn_additive_iff {negated : Bool} {l r : Expr ExactNumber} :
    (Expr.op (additive negated) l r).ExponentsIn S ↔ l.ExponentsIn S ∧ r.ExponentsIn S :=
  exponentsIn_op_iff (by cases negated <;> decide)

theorem exponentsIn_collected (name : Char) (c : ExactNumber) :
    (collected name c).ExponentsIn S := by
  unfold collected
  split <;> trivial

theorem exponentsIn_scaled {k : ExactNumber} (he : e.ExponentsIn S) :
    (scaled k e).ExponentsIn S := by
  unfold scaled
  split
  · exact he
  · exact .of_ne_pow (by decide) trivial he

theorem exponentsIn_of_sumRule (h : SumRule e e') (he : e.ExponentsIn S) : e'.ExponentsIn S := by
  cases h with
  | collect => exact exponentsIn_collected _ _
  | zero_sub => exact exponentsIn_collected _ _
  | _ =>
    simp only [exponentsIn_additive_iff, exponentsIn_op_iff, ne_eq, reduceCtorEq,
      not_false_eq_true] at he ⊢
    simp only [Expr.ExponentsIn, he, and_self]

theorem exponentsIn_of_productRule (hS : ExponentSet S) (h : ProductRule e e')
    (he : e.ExponentsIn S) : e'.ExponentsIn S := by
  cases h with
  | var_mul_self name c d =>
    exact exponentsIn_scaled ⟨trivial, trivial, fun _ => ⟨2, hS.two_mem, fun _ => denotes_two⟩⟩
  | var_mul_var => exact exponentsIn_scaled (.of_ne_pow (by decide) trivial trivial)
  | _ =>
    simp only [exponentsIn_additive_iff, exponentsIn_op_iff, ne_eq, reduceCtorEq,
      not_false_eq_true] at he ⊢
    simp only [Expr.ExponentsIn, he, and_self]

theorem exponentsIn_of_quotientRule (h : QuotientRule e e') (he : e.ExponentsIn S) :
    e'.ExponentsIn S := by
  cases h with
  | var_div_var => exact exponentsIn_scaled (.of_ne_pow (by decide) trivial trivial)
  | _ =>
    simp only [exponentsIn_additive_iff, exponentsIn_op_iff, ne_eq, reduceCtorEq,
      not_false_eq_true] at he ⊢
    simp only [Expr.ExponentsIn, he, and_self]

theorem exponentsIn_of_powerRule (hS : ExponentSet S) (h : PowerRule e e')
    (he : e.ExponentsIn S) : e'.ExponentsIn S := by
  cases h with
  | pow_zero => trivial
  | pow_one => exact he.1
  | var_pow name c w =>
    exact .of_ne_pow (by decide) trivial ⟨trivial, trivial, he.2.2⟩
  | product_pow l r w =>
    obtain ⟨⟨hl, hr, -⟩, hw, hn⟩ := he
    exact .of_ne_pow (by decide) ⟨hl, hw, hn⟩ ⟨hr, hw, hn⟩
  | quotient_pow l r w =>
    obtain ⟨⟨hl, hr, -⟩, hw, hn⟩ := he
    exact .of_ne_pow (by decide) ⟨hl, hw, hn⟩ ⟨hr, hw, hn⟩
  | pow_pow b w w' =>
    obtain ⟨⟨hb, hw, hm⟩, hw', hn⟩ := he
    obtain ⟨m, hmS, hm⟩ := hm rfl
    obtain ⟨n, hnS, hn⟩ := hn rfl
    refine ⟨hb, .of_ne_pow (by decide) hw hw',
      fun _ => ⟨m * n, hS.mul_mem m hmS n hnS, fun ρ => ?_⟩⟩
    exact ((hm ρ).mul (hn ρ)).of_eq (Int.cast_mul m n).symm

theorem exponentsIn_of_rule (hS : ExponentSet S) (h : Rule e e') (he : e.ExponentsIn S) :
    e'.ExponentsIn S := by
  cases h with
  | fold => trivial
  | sum h => exact exponentsIn_of_sumRule h he
  | product h => exact exponentsIn_of_productRule hS h he
  | quotient h => exact exponentsIn_of_quotientRule h he
  | power h => exact exponentsIn_of_powerRule hS h he

/-- Rewriting keeps exponents among the admitted ones, and it keeps every value. -/
theorem Rewrites.keeps (hS : ExponentSet S) {e e' : Expr ExactNumber} (h : Rewrites e e')
    (he : e.ExponentsIn S) :
    e'.ExponentsIn S ∧ ∀ ρ a, Denotes ρ e a → Denotes ρ e' a := by
  induction h with
  | refl e => exact ⟨he, fun _ _ => id⟩
  | rule h => exact ⟨exponentsIn_of_rule hS h he, fun _ _ => denotes_of_rule h he⟩
  | trans h h' ih ih' =>
    obtain ⟨he', hd⟩ := ih he
    obtain ⟨he'', hd'⟩ := ih' he'
    exact ⟨he'', fun ρ a ha => hd' ρ a (hd ρ a ha)⟩
  | operands o hl hr ihl ihr =>
    obtain ⟨hel, her, hexp⟩ := he
    obtain ⟨hel', hdl⟩ := ihl hel
    obtain ⟨her', hdr⟩ := ihr her
    refine ⟨⟨hel', her', fun ho => ?_⟩, fun ρ a ha => ?_⟩
    · obtain ⟨n, hn, hd⟩ := hexp ho
      exact ⟨n, hn, fun ρ => hdr ρ _ (hd ρ)⟩
    · obtain ⟨p, q, hp, hq, h⟩ := denotes_op_iff.1 ha
      exact .op (hdl ρ p hp) (hdr ρ q hq) h

end Simplification

namespace Scope

open ComplexAlgebra.Expr Simplification

variable {s t : Scope ExactNumber} {S : Set ℤ} {e : Expr ExactNumber}

def Scalar (s : Scope ExactNumber) : Prop :=
  ∀ name v, s.get? name = some v → ∃ x, v = .scalar x

def Extends (t s : Scope ExactNumber) : Prop :=
  ∀ name v, s.get? name = some v → t.get? name = some v

theorem scalar_empty : (empty : Scope ExactNumber).Scalar := by
  intro name v h
  cases h

theorem extends_empty (t : Scope ExactNumber) : t.Extends empty := by
  intro name v h
  cases h

theorem denotes_substitute (hs : s.Scalar) (hst : t.Extends s) {a : ℂ}
    (h : Denotes t.assignment e a) : Denotes t.assignment (s.substitute e) a := by
  induction h with
  | number h => exact .number h
  | @var name c a b h hc =>
    rw [substitute]
    cases hget : s.get? name with
    | none => exact .var h hc
    | some v =>
      obtain ⟨x, rfl⟩ := hs name v hget
      obtain ⟨y, hy, ha⟩ := assignment_eq_some_iff.1 h
      cases (hst name _ hget).symm.trans hy
      exact .number (value?_apply (o := .mul) ha hc (.mul a b))
  | op hl hr h ihl ihr => exact .op ihl ihr h

theorem substitute_of_denotes {a : ℂ} (h : Denotes (fun _ => none) e a) (s : Scope ExactNumber) :
    s.substitute e = e := by
  induction h with
  | number h => rfl
  | var h hc => cases h
  | op hl hr h ihl ihr => rw [substitute, ihl, ihr]

theorem exponentsIn_substitute (he : e.ExponentsIn S) (s : Scope ExactNumber) :
    (s.substitute e).ExponentsIn S := by
  induction e with
  | constant v => trivial
  | var name c =>
    rw [substitute]
    split <;> trivial
  | op o l r ihl ihr =>
    obtain ⟨hl, hr, hexp⟩ := he
    refine ⟨ihl hl, ihr hr, fun ho => ?_⟩
    obtain ⟨n, hn, hd⟩ := hexp ho
    rw [substitute_of_denotes (hd _) s]
    exact ⟨n, hn, hd⟩

theorem denotes_simplify (hS : ExponentSet S) (hs : s.Scalar) (hst : t.Extends s)
    (he : e.ExponentsIn S) {a : ℂ} (h : Denotes t.assignment e a) :
    Denotes t.assignment (s.simplify e) a :=
  ((s.rewrites_simplify e).keeps hS (exponentsIn_substitute he s)).2 _ _
    (denotes_substitute hs hst h)

theorem exponentsIn_simplify (hS : ExponentSet S) (he : e.ExponentsIn S) (s : Scope ExactNumber) :
    (s.simplify e).ExponentsIn S :=
  ((s.rewrites_simplify e).keeps hS (exponentsIn_substitute he s)).1

end Scope

namespace Expr

/-- Every exponent is written as a single number, an integer of the given set. -/
def LiteralExponents (S : Set ℤ) : Expr ExactNumber → Prop
  | constant _ => True
  | var _ _ => True
  | op o l r =>
    l.LiteralExponents S ∧ r.LiteralExponents S ∧
      (o = .pow → ∃ x, r = .number x ∧ ∃ n ∈ S, x.value? = some ((n : ℤ) : ℂ))

theorem LiteralExponents.exponentsIn {S : Set ℤ} {e : Expr ExactNumber}
    (h : e.LiteralExponents S) : e.ExponentsIn S := by
  induction e with
  | constant v => trivial
  | var name c => trivial
  | op o l r ihl ihr =>
    obtain ⟨hl, hr, hexp⟩ := h
    refine ⟨ihl hl, ihr hr, fun ho => ?_⟩
    obtain ⟨x, rfl, n, hn, hx⟩ := hexp ho
    exact ⟨n, hn, fun _ => .number hx⟩

end Expr

namespace Scope

open ComplexAlgebra.Expr Simplification

theorem exponentSet_univ : ExponentSet Set.univ := ⟨trivial, fun _ _ _ _ => trivial⟩

/-- Where an expression with integers as exponents has a value, its simplification has the same. -/
theorem evaluate_simplify {s t : Scope ExactNumber} (hs : s.Scalar) (hst : t.Extends s)
    {e : Expr ExactNumber} (he : e.LiteralExponents Set.univ) {z : ExactNumber}
    (h : t.evaluate e = .ok (.scalar z)) {a : ℂ} (hz : z.value? = some a) :
    t.evaluate (s.simplify e) = .ok (.scalar z) := by
  have hd := denotes_of_evaluate he.exponentsIn h hz
  obtain ⟨w, hw, ha⟩ := evaluate_of_denotes
    (denotes_simplify exponentSet_univ hs hst he.exponentsIn hd)
  rw [hw, eq_of_value? ha hz]

/-- The square of `(x + y) / y` at `x = 4`, simplified where only `y = 2` is bound. -/
theorem evaluate_simplify_square :
    ∃ z : ExactNumber,
      ((empty.bind 'y' (.scalar (.ofComplex 2))).bind 'x' (.scalar (.ofComplex 4))).evaluate
        ((empty.bind 'y' (.scalar (.ofComplex 2))).simplify
          (.op .pow (.op .div (.op .add (.var 'x' 1) (.var 'y' 1)) (.var 'y' 1))
            (.number Arithmetic.two))) = .ok (.scalar z) ∧ z.value? = some 9 := by
  have hs : (empty.bind 'y' (.scalar (.ofComplex 2)) : Scope ExactNumber).Scalar := by
    intro name v h
    by_cases hname : name = 'y'
    · simp only [get?_bind, hname, if_true, Option.some.injEq] at h
      exact ⟨_, h.symm⟩
    · simp [hname] at h
  have hst : ((empty.bind 'y' (.scalar (.ofComplex 2))).bind 'x' (.scalar (.ofComplex 4)) :
      Scope ExactNumber).Extends (empty.bind 'y' (.scalar (.ofComplex 2))) := by
    intro name v h
    by_cases hname : name = 'y'
    · rw [hname] at h ⊢
      exact h
    · simp [hname] at h
  have hx : Denotes (assignment ((empty.bind 'y' (.scalar (.ofComplex 2))).bind 'x'
      (.scalar (.ofComplex 4)))) (.var 'x' 1) 4 :=
    denotes_unit (by simp [assignment, Value.scalar?])
  have hy : Denotes (assignment ((empty.bind 'y' (.scalar (.ofComplex 2))).bind 'x'
      (.scalar (.ofComplex 4)))) (.var 'y' 1) 2 :=
    denotes_unit (by simp [assignment, Value.scalar?])
  have hd := (((hx.add hy).div hy two_ne_zero).pow denotes_two fun _ => zero_le_two).of_eq
    (show _ = (9 : ℂ) by norm_num)
  obtain ⟨z, hz, ha⟩ := evaluate_of_denotes hd
  refine ⟨z, evaluate_simplify hs hst ?_ hz ha, ha⟩
  exact ⟨by simp [LiteralExponents], trivial, fun _ => ⟨_, rfl, 2, trivial, rfl⟩⟩

end Scope
end ComplexAlgebra
