import ComplexAlgebra.Proofs.ExactNumber

/-! The roots of a number in exact arithmetic, as a list. They lie on a circle at equal turns from
the principal root on, and they are all the numbers whose repeated product is the given one, each
listed once. -/
namespace ComplexAlgebra
namespace Number

variable {R : Type} [Component R]

/-- The product of so many factors `z`. -/
def repeated (z : Number R) : Nat → Number R
  | 0 => 1
  | n + 1 => z.repeated n * z

def turned (z : Number R) (angle : R) : Number R :=
  make (Component.cos angle) (Component.sin angle) * z

end Number

namespace ExactNumber

open Number (ofComplex value?)
open ExactReal

theorem value?_repeated (z : ExactNumber) {n : Nat} (hn : n ≠ 0) :
    (z.repeated n).value? = z.value?.map (· ^ n) := by
  induction n with
  | zero => exact absurd rfl hn
  | succ n ih =>
    rw [Number.repeated, value?_mul]
    by_cases h0 : n = 0
    · subst h0
      rw [Number.repeated, ← ofComplex_one, value?_ofComplex]
      cases z.value? <;> simp
    · rw [ih h0]
      cases z.value? <;> simp [pow_succ]

theorem turned_ofComplex (a : ℂ) (angle : ℝ) :
    (ofComplex a).turned (value angle) = ofComplex (Complex.exp (angle * Complex.I) * a) := by
  refine eq_of_value? (a := Complex.exp (angle * Complex.I) * a) ?_ rfl
  have hturn : Number.make (Component.cos (value angle)) (Component.sin (value angle)) =
      ofComplex (Complex.exp (angle * Complex.I)) := by
    refine eq_of_value? (a := Complex.exp (angle * Complex.I)) ?_ rfl
    rw [value?_make]
    show some (⟨Real.cos angle, Real.sin angle⟩ : ℂ) = _
    rw [Option.some.injEq, Complex.ext_iff, Complex.exp_ofReal_mul_I_re,
      Complex.exp_ofReal_mul_I_im]
    exact ⟨rfl, rfl⟩
  rw [Number.turned, value?_mul, hturn]
  rfl

section Roots

variable {a : ℂ} {n : Nat}

theorem rootAt_ne_zero (ha : a ≠ 0) (hn : n ≠ 0) (k : Nat) : rootAt a n k ≠ 0 := by
  intro h0
  have hpow := rootAt_pow hn a k
  rw [h0, zero_pow hn] at hpow
  exact ha hpow.symm

theorem rootAt_succ (a : ℂ) (n k : Nat) :
    rootAt a n (k + 1) = Complex.exp (2 * Real.pi * Complex.I / n) * rootAt a n k := by
  rw [rootAt_eq_mul, rootAt_eq_mul a n k, pow_succ', mul_assoc]

theorem rootAt_inj (ha : a ≠ 0) (hn : n ≠ 0) {j k : Nat} (hj : j < n) (hk : k < n)
    (h : rootAt a n j = rootAt a n k) : j = k := by
  rw [rootAt_eq_mul, rootAt_eq_mul a n k] at h
  have hpow := mul_right_cancel₀ (rootAt_ne_zero ha hn 0) h
  exact (Complex.isPrimitiveRoot_exp n hn).pow_inj hj hk hpow

theorem nodup_roots (ha : a ≠ 0) (hn : n ≠ 0) : ((ofComplex a).roots n).Nodup := by
  rw [roots_ofComplex hn]
  refine List.Nodup.map_on (fun j hj k hk h => ?_) List.nodup_range
  exact rootAt_inj ha hn (List.mem_range.1 hj) (List.mem_range.1 hk) (ofComplex_injective h)

theorem mem_roots_iff_repeated (hn : n ≠ 0) (z : ExactNumber) :
    z ∈ (ofComplex a).roots n ↔ z.repeated n = ofComplex a := by
  rw [← value?_eq_some_iff, value?_repeated z hn]
  cases hz : z.value? with
  | none =>
    refine ⟨fun h => ?_, nofun⟩
    rw [roots_ofComplex hn] at h
    obtain ⟨k, -, rfl⟩ := List.mem_map.1 h
    cases hz
  | some b =>
    rw [mem_roots hn hz, value?_ofComplex, Option.map_some, Option.some.injEq, Option.some.injEq]
    exact eq_comm

theorem isChain_roots (hn : n ≠ 0) :
    ((ofComplex a).roots n).IsChain fun z w => w = z.turned (value (2 * Real.pi / n)) := by
  rw [roots_ofComplex hn, List.isChain_map, List.isChain_range]
  intro k _
  have hturn : ((2 * Real.pi / n : ℝ) : ℂ) * Complex.I = 2 * Real.pi * Complex.I / n := by
    push_cast
    ring
  rw [turned_ofComplex, hturn, rootAt_succ]

theorem rootAt_zero (ha : a ≠ 0) (n : Nat) : rootAt a n 0 = a ^ (1 / n : ℂ) := by
  have hnorm : ((‖a‖ ^ (1 / n : ℝ) : ℝ) : ℂ) = Complex.exp (Real.log ‖a‖ * (1 / n)) := by
    rw [Real.rpow_def_of_pos (norm_pos_iff.2 ha), Complex.ofReal_exp]
    push_cast
    rfl
  rw [rootAt, hnorm, ← Complex.exp_add, Complex.cpow_def_of_ne_zero ha, Complex.log]
  congr 1
  push_cast
  ring

theorem head?_roots (ha : a ≠ 0) (hn : n ≠ 0) :
    ((ofComplex a).roots n).head? = some ((ofComplex a).root (ofComplex n)) := by
  have hdiv : (1 : ExactNumber) / ofComplex n = ofComplex (1 / n) := by
    rw [← value?_eq_some_iff, ← ofComplex_one, value?_div, value?_ofComplex, value?_ofComplex]
    exact if_neg (Nat.cast_ne_zero.2 hn)
  have hroot : (ofComplex a).root (ofComplex n) = ofComplex (rootAt a n 0) := by
    rw [← value?_eq_some_iff, Number.root, hdiv, value?_power, value?_ofComplex, rootAt_zero ha]
    exact if_neg fun h => ha h.1
  rw [roots_ofComplex hn, List.head?_map, List.head?_range, if_neg hn, hroot]
  rfl

/-- The roots of a number other than zero are as many as the degree says and pairwise different.
They begin with the principal root, each is the one before it turned by the same part of a whole
circle, and they are all the numbers whose repeated product is the given one. -/
theorem roots_complete (ha : a ≠ 0) (hn : 0 < n) :
    ((ofComplex a).roots n).length = n ∧ ((ofComplex a).roots n).Nodup ∧
      (∀ z : ExactNumber, z ∈ (ofComplex a).roots n ↔ z.repeated n = ofComplex a) ∧
      (∀ b : ℂ, ofComplex b ∈ (ofComplex a).roots n ↔ b ^ n = a) ∧
      ((ofComplex a).roots n).head? = some ((ofComplex a).root (ofComplex n)) ∧
      ((ofComplex a).roots n).IsChain fun z w => w = z.turned (value (2 * Real.pi / n)) := by
  have hn0 : n ≠ 0 := Nat.ne_of_gt hn
  refine ⟨Number.length_roots _ n, nodup_roots ha hn0, mem_roots_iff_repeated hn0, fun b => ?_,
    head?_roots ha hn0, isChain_roots hn0⟩
  rw [mem_roots hn0 (value?_ofComplex b), value?_ofComplex, Option.some.injEq]
  exact eq_comm

/-- The three cube roots of minus eight, with minus two among them. -/
theorem roots_complete_cube :
    ((ofComplex (-8)).roots 3).length = 3 ∧ ((ofComplex (-8)).roots 3).Nodup ∧
      ofComplex (-2) ∈ (ofComplex (-8)).roots 3 ∧ ofComplex 2 ∉ (ofComplex (-8)).roots 3 := by
  have hne : (-8 : ℂ) ≠ 0 := by norm_num
  obtain ⟨hlength, hnodup, -, hmem, -, -⟩ := roots_complete hne (by decide : 0 < 3)
  refine ⟨hlength, hnodup, (hmem (-2)).2 (by norm_num), fun h => ?_⟩
  have hcube := (hmem 2).1 h
  norm_num at hcube

end Roots

end ExactNumber
end ComplexAlgebra
