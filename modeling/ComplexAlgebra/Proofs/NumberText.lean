import ComplexAlgebra.Proofs.Assignment
import ComplexAlgebra.Proofs.EqualNumbers
import ComplexAlgebra.Proofs.ErrorPosition
import ComplexAlgebra.Proofs.Normalization
import ComplexAlgebra.Proofs.Printing

/-! What the text of a number evaluates to. Reading it back subtracts from zero for a sign,
multiplies by the imaginary unit for an imaginary part and adds or subtracts the parts, and each of
these settles what it computes. None of it changes a number whose components settling leaves as they
are. -/
namespace ComplexAlgebra
namespace Binary64

open Float.Model Float.Model.UnpackedFloat

variable {x y z : Float}

/-- A finite double that settling leaves as it is. -/
def Fixed (x : Float) : Prop := x.isFinite = true ∧ same (settle x) x = true

instance : Decidable (Fixed x) := inferInstanceAs (Decidable (_ ∧ _))

theorem fixed_of_rank (h : rank x = 0) : Fixed x := by
  refine ⟨isFinite_of_rank h, ?_⟩
  rw [settle_of_rank h, same_iff, h]
  decide

theorem rank_zero : rank 0 = 0 := by decide

theorem fixed_zero : Fixed 0 := fixed_of_rank rank_zero

theorem Fixed.neg (h : Fixed x) : Fixed (-x) :=
  ⟨(isFinite_neg x).trans h.1, same_trans (settle_neg x) (same_neg h.2)⟩

theorem abs_cases (h : x.isFinite = true) (h0 : (x == 0) = false) :
    (¬ x < 0 ∧ x.abs = x) ∨ (x < 0 ∧ -x.abs = x) := by
  rcases unpack_of_isFinite h with ⟨h0', -⟩ | ⟨-, s, m, q, hm, hu, hneg⟩
  · cases h0.symm.trans h0'
  · have hx : HasMagnitude x s (m * 2 ^ q) := ⟨m, q, hm, hu, rfl⟩
    cases s with
    | positive => exact .inl ⟨by rw [hneg]; exact nofun, hx.abs.unique hx⟩
    | negative => exact .inr ⟨hneg.2 rfl, hx.abs.neg.unique hx⟩

theorem Fixed.abs (h : Fixed x) (h0 : (x == 0) = false) : Fixed x.abs := by
  rcases abs_cases h.1 h0 with ⟨-, habs⟩ | ⟨-, habs⟩
  · rwa [habs]
  · rw [← Binary64.neg_neg x.abs, habs]
    exact h.neg

theorem same_zero_sub (x : Float) (hz : rank z = 0) : same (z - x) (-x) = true := by
  obtain ⟨t, ht⟩ := unpack_of_rank hz
  have hneg : -x = .ofModel (.pack x.toModel.unpack.neg) := rfl
  rw [sub_eq_pack, ht, hneg]
  refine same_pack ?_
  cases x.toModel.unpack with
  | zero s => exact .inr ⟨by cases t <;> cases s <;> exact ⟨_, rfl⟩, _, rfl⟩
  | _ => exact .inl rfl

theorem same_neg_zero : same (-0) 0 = true := by decide

theorem same_zero_of_beq (h : (x == 0) = true) : same 0 x = true := by
  rw [same_iff, rank_of_beq_zero h, rank_zero]

end Binary64

namespace FloatNumber

open Binary64 Grammar

variable {a b c d z w : FloatNumber} {x y : Float}

theorem beq_of_same (hre : same a.re b.re = true) (him : same a.im b.im = true) :
    (a == b) = true := by
  rw [Number.beq_def, Bool.and_eq_true]
  exact ⟨hre, him⟩

theorem beq_trans (hab : (a == b) = true) (hbc : (b == c) = true) : (a == c) = true := by
  rw [beq_congr hab]
  exact hbc

theorem isFinite_of_fixed (hre : Fixed z.re) (him : Fixed z.im) : z.isFinite = true :=
  Bool.and_eq_true_iff.2 ⟨hre.1, him.1⟩

theorem settled_of_fixed (hre : Fixed z.re) (him : Fixed z.im) : (z.settled == z) = true :=
  settled_beq_iff.2 (.inr ⟨isFinite_of_fixed hre him, hre.2, him.2⟩)

theorem make_beq (hre : Fixed z.re) (him : Fixed z.im) (hx : same x z.re = true)
    (hy : same y z.im = true) : (Number.make x y == z) = true := by
  rw [make_of_same (isFinite_of_fixed hre him) hx hy]
  exact settled_of_fixed hre him

theorem apply_congr {o : Operator} (ho : o ≠ .pow) (hab : (a == b) = true)
    (hcd : (c == d) = true) : o.apply a c = o.apply b d := by
  cases o with
  | add => exact add_congr hab hcd
  | sub => exact sub_congr hab hcd
  | mul => exact mul_congr hab hcd
  | div => exact div_congr hab hcd
  | pow => exact absurd rfl ho

/-- An expression without powers whose value is this number. -/
def Denotes (s : Scope FloatNumber) (e : Expr FloatNumber) (z : FloatNumber) : Prop :=
  s.ShortcutsAgree e ∧ ∃ w, s.evaluate e = .ok (.scalar w) ∧ (w == z) = true

namespace Denotes

variable {s : Scope FloatNumber} {e l r : Expr FloatNumber}

theorem congr (h : Denotes s e z) (hzw : (z == w) = true) : Denotes s e w := by
  obtain ⟨hagree, v, hv, hvz⟩ := h
  exact ⟨hagree, v, hv, beq_trans hvz hzw⟩

theorem number (h : (w == z) = true) : Denotes s (.number w) z := ⟨trivial, w, rfl, h⟩

theorem op {o : Operator} (ho : o ≠ .pow) (hl : Denotes s l a) (hr : Denotes s r b)
    (h : (o.apply a b == z) = true) : Denotes s (.op o l r) z := by
  obtain ⟨hagree, v, hv, hva⟩ := hl
  obtain ⟨hagree', v', hv', hvb⟩ := hr
  refine ⟨⟨hagree, hagree', fun hpow => absurd hpow ho⟩, o.apply v v', ?_, ?_⟩
  · simp only [Scope.evaluate, hv, hv']
    rfl
  · rw [apply_congr ho hva hvb]
    exact h

theorem minus (h : Denotes s e z) (hre : Fixed w.re) (him : Fixed w.im)
    (hre' : same (-z.re) w.re = true) (him' : same (-z.im) w.im = true) :
    Denotes s (.op .sub (.number 0) e) w :=
  op (by decide) (number (beq_self 0)) h
    (make_beq hre him (same_trans (same_zero_sub _ (by decide)) hre')
      (same_trans (same_zero_sub _ (by decide)) him'))

theorem times_unit (h : Denotes s e ⟨x, 0⟩) (hx : Fixed x) :
    Denotes s (.op .mul e (.number Arithmetic.imaginaryUnit)) ⟨0, x⟩ := by
  refine op (by decide) h (number (beq_self _)) (make_beq fixed_zero hx ?_ ?_)
  · show same (x * 0.0 - 0.0 * 1.0) 0.0 = true
    refine same_trans (same_sub_zero _ (by decide)) ?_
    rw [same_iff, rank_mul_zero hx.1]
    decide
  · show same (x * 1.0 + 0.0 * 0.0) x = true
    rw [Binary64.mul_one]
    exact same_add_zero x (by decide)

theorem magnitude (hx : x.isFinite = true) (habs : Fixed x.abs) :
    Denotes s (magnitude x) ⟨x.abs, 0⟩ := by
  refine number (make_beq habs fixed_zero ?_ (same_self _))
  show same (numeral x).toFloat x.abs = true
  rw [toFloat_numeral hx]
  exact same_self _

theorem real (hx : Fixed x) (h0 : (x == 0) = false) :
    Denotes s (underSign (x < 0) (FloatNumber.magnitude x)) ⟨x, 0⟩ := by
  have hmagnitude : Denotes s (FloatNumber.magnitude x) ⟨x.abs, 0⟩ := magnitude hx.1 (hx.abs h0)
  rcases abs_cases hx.1 h0 with ⟨hneg, habs⟩ | ⟨hneg, habs⟩
  · rw [decide_eq_false hneg]
    rwa [habs] at hmagnitude
  · rw [decide_eq_true hneg]
    exact hmagnitude.minus hx fixed_zero (same_of_eq habs) same_neg_zero

theorem imaginary (negative : Bool) (hy : Fixed y) (h0 : (y == 0) = false) :
    Denotes s (imaginaryAtoms negative y).tree ⟨0, if negative then -y.abs else y.abs⟩ := by
  have habs := hy.abs h0
  obtain ⟨hfinite, habs0, hneg⟩ := abs_of_isFinite hy.1 h0
  rw [imaginaryAtoms]
  by_cases hone : (y.abs == 1) = true
  · have hsame : same 1 y.abs = true := by
      rw [same_comm]
      exact (beq_iff_same (isNaN_of_isFinite hfinite)).1 hone
    have hunit : Denotes s (.number Arithmetic.imaginaryUnit) ⟨0, y.abs⟩ :=
      number (beq_of_same (same_self 0) hsame)
    rw [if_pos hone, Atoms.tree_single]
    cases negative with
    | false => exact hunit
    | true => exact hunit.minus fixed_zero habs.neg same_neg_zero (same_self _)
  · have hmagnitude : Denotes s (FloatNumber.magnitude y.abs) ⟨y.abs, 0⟩ := by
      have hreal := real (s := s) habs habs0
      rwa [decide_eq_false hneg] at hreal
    rw [if_neg hone, Atoms.tree_times]
    cases negative with
    | false => exact hmagnitude.times_unit habs
    | true =>
      have hminus : Denotes s (underSign true (FloatNumber.magnitude y.abs)) ⟨-y.abs, 0⟩ :=
        hmagnitude.minus habs.neg fixed_zero (same_self _) same_neg_zero
      exact hminus.times_unit habs.neg

theorem not_additive_imaginary (negative : Bool) (y : Float) :
    ∀ j ∈ (imaginaryAtoms negative y : Atoms FloatNumber).others, j.isAdditive = false := by
  rw [imaginaryAtoms]
  split
  · exact List.forall_mem_nil _
  · exact List.forall_mem_singleton.2 rfl

theorem sum (hx : Fixed x) (hx0 : (x == 0) = false) (hy : Fixed y) (hy0 : (y == 0) = false) :
    Denotes s ((Atoms.single (underSign (x < 0) (FloatNumber.magnitude x))).join
      (if y < 0 then .sub else .add) (imaginaryAtoms false y)).tree ⟨x, y⟩ := by
  have hreal : Denotes s (underSign (x < 0) (FloatNumber.magnitude x)) ⟨x, 0⟩ := real hx hx0
  have himaginary : Denotes s (imaginaryAtoms false y).tree ⟨0, y.abs⟩ := imaginary false hy hy0
  rcases abs_cases hy.1 hy0 with ⟨hneg, habs⟩ | ⟨hneg, habs⟩
  · rw [if_neg hneg, Atoms.tree_join_additive (.inl rfl) _ _ (not_additive_imaginary false y),
      Atoms.tree_single]
    exact op (by decide) hreal himaginary (make_beq hx hy (same_add_zero x rank_zero)
      (same_trans (same_zero_add y.abs rank_zero) (same_of_eq habs)))
  · rw [if_pos hneg, Atoms.tree_join_additive (.inr rfl) _ _ (not_additive_imaginary false y),
      Atoms.tree_single]
    exact op (by decide) hreal himaginary (make_beq hx hy (same_sub_zero x rank_zero)
      (same_trans (same_zero_sub y.abs rank_zero) (same_of_eq habs)))

/-- The text of a number whose components are fixed is read as an expression for it. -/
theorem atoms (hre : Fixed z.re) (him : Fixed z.im) : Denotes s z.atoms.tree z := by
  rw [FloatNumber.atoms]
  cases h0 : z.re == 0 with
  | true =>
    have hzero : same 0 z.re = true := same_zero_of_beq h0
    rw [if_pos rfl]
    cases h0' : z.im == 0 with
    | true =>
      rw [if_pos rfl, Atoms.tree_single]
      exact number (make_beq hre him hzero (same_zero_of_beq h0'))
    | false =>
      refine (imaginary (decide (z.im < 0)) him h0').congr (beq_of_same hzero ?_)
      rcases abs_cases him.1 h0' with ⟨hneg, habs⟩ | ⟨hneg, habs⟩
      · simpa [hneg] using same_of_eq habs
      · simpa [hneg] using same_of_eq habs
  | false =>
    rw [if_neg Bool.false_ne_true]
    cases h0' : z.im == 0 with
    | true =>
      rw [if_pos rfl, Atoms.tree_single]
      exact (real hre h0).congr (beq_of_same (same_self _) (same_zero_of_beq h0'))
    | false =>
      rw [if_neg Bool.false_ne_true]
      exact sum hre h0 him h0'

end Denotes

end FloatNumber

theorem not_mem_of_parse {K : Type} [Arithmetic K] {cs : List Char} {t : Expr K}
    (h : parse cs = .ok t) : '=' ∉ cs := by
  intro hmem
  obtain ⟨left, right, rfl⟩ := List.append_of_mem hmem
  obtain ⟨pieces, hleft⟩ := Token.exists_splits left
  obtain ⟨pieces', hright⟩ := Token.exists_splits right
  have hsplits := hleft.equation hright
  rcases Token.valid_or_exists_invalid (pieces ++ (['='], .invalid) :: pieces') with
    hvalid | ⟨before, piece, after, heq, hbefore⟩
  · exact hvalid _ (List.mem_append_right _ List.mem_cons_self) rfl
  · rw [heq] at hsplits
    rw [parse, Token.tokenize, hsplits.scan_eq_error hbefore] at h
    cases h

namespace FloatNumber

open Binary64

/-- The text of a finite number whose components settling leaves as they are evaluates to that
number, in every scope; so it tells such numbers apart, and a printed binding of a free variable to
the number binds it again. -/
theorem text_denotes {z : FloatNumber} (hre : Fixed z.re) (him : Fixed z.im) :
    (∀ s : Scope FloatNumber,
      ∃ w, s.evaluateText (text z).toList = .ok (.scalar w) ∧ (w == z) = true) ∧
    (∀ w : FloatNumber, Fixed w.re → Fixed w.im → text w = text z → (w == z) = true) ∧
    ∀ (s : Scope FloatNumber) (name : Char), isVariableName name = true → s.get? name = none →
      ∃ w, s.resolve (Resolution.binding name (.scalar z)).text.toList =
          (.ok (.binding name (.scalar w)), s.bind name (.scalar w)) ∧ (w == z) = true := by
  have hparse {w : FloatNumber} (hre : Fixed w.re) (him : Fixed w.im) :
      parse (text w).toList = .ok (w.atoms.tree : Expr FloatNumber) :=
    Grammar.parse_of_prints (prints_text (isFinite_of_fixed hre him))
  refine ⟨fun s => ?_, fun w hwre hwim htext => ?_, fun s name hname hfree => ?_⟩
  · obtain ⟨-, w, hw, hwz⟩ := Denotes.atoms (s := s) hre him
    exact ⟨w, Scope.evaluateText_of_parse (hparse hre him) hw, hwz⟩
  · -- Both are the value of the one tree that the text parses to.
    obtain ⟨-, u, hu, huz⟩ := Denotes.atoms (s := Scope.empty) hre him
    obtain ⟨-, v, hv, hvw⟩ := Denotes.atoms (s := Scope.empty) hwre hwim
    have hvalue := Scope.evaluateText_of_parse (hparse hwre hwim) hv
    rw [htext, Scope.evaluateText_of_parse (hparse hre him) hu] at hvalue
    obtain rfl : u = v := Value.scalar.inj (Except.ok.inj hvalue)
    rw [beq_comm] at hvw
    exact beq_trans hvw huz
  · obtain ⟨hagree, w, hw, hwz⟩ := Denotes.atoms (s := s) hre him
    obtain ⟨v, hv, hvw⟩ := Scope.simplify_of_evaluate hw
    have hbinding : (Resolution.binding name (.scalar z)).text.toList =
        name :: " = ".toList ++ (text z).toList := by
      simp [Resolution.text, bindingText, Value.text]
    refine ⟨w / 1, ?_, ?_⟩
    · rw [hbinding, Scope.resolve_var (not_mem_of_parse (hparse hre him)) (hparse hre him) hname
        hfree hv, hvw hagree]
      rfl
    · rw [div_one_eq_settled, settled_congr hwz]
      exact settled_of_fixed hre him

/-- Both parts, with signs, and an imaginary part without a numeral. -/
theorem text_denotes_unit_part :
    (∃ w : FloatNumber, Scope.empty.evaluateText "-2.5-i".toList = .ok (.scalar w) ∧
      (w == ⟨-2.5, -1⟩) = true) ∧
    ∃ w : FloatNumber, Scope.empty.resolve "x = -2.5-i".toList =
        (.ok (.binding 'x' (.scalar w)), Scope.empty.bind 'x' (.scalar w)) ∧
      (w == ⟨-2.5, -1⟩) = true := by
  have htext : text ⟨-2.5, -1⟩ = "-2.5-i" := by decide +kernel
  have hbinding : (Resolution.binding 'x' (.scalar ⟨-2.5, -1⟩)).text = "x = -2.5-i" := by
    decide +kernel
  have hre : Fixed (-2.5) := by decide +kernel
  have him : Fixed (-1) := by decide +kernel
  obtain ⟨hevaluate, -, hresolve⟩ := text_denotes (z := ⟨-2.5, -1⟩) hre him
  rw [← htext, ← hbinding]
  exact ⟨hevaluate _, hresolve _ 'x' (by decide) rfl⟩

end FloatNumber
end ComplexAlgebra
