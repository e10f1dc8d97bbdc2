import ComplexAlgebra.Proofs.Printing

/-! The tree that the text of an expression is read as, over doubles. Where every operand is an
atom, it is the expression itself, up to the signs of zeros. -/
namespace ComplexAlgebra
namespace Binary64

open Float.Model Float.Model.UnpackedFloat

theorem abs_of_nonneg {x : Float} (h : x.isFinite = true) (h0 : (x == 0) = false) (hle : 0 ≤ x) :
    x.abs = x ∧ ¬x < 0 := by
  rcases unpack_of_isFinite h with ⟨h0', -⟩ | ⟨-, s, m, q, hm, hu, hneg⟩
  · cases h0.symm.trans h0'
  · have hle' : UnpackedFloat.le (.zero .positive) x.toModel.unpack = true := of_decide_eq_true hle
    rw [hu] at hle'
    cases s with
    | negative => cases hle'
    | positive =>
      refine ⟨?_, by rw [hneg]; exact nofun⟩
      rw [abs_of_unpack hu]
      exact ofModel_pack hu

end Binary64

namespace FloatNumber

/-- A number that can be written without a sign, and with one part: the imaginary unit, or a settled
real number that is finite and not negative. -/
def Plain (z : FloatNumber) : Prop :=
  (z == Number.imaginaryUnit) = true ∨
    (z.im == 0) = true ∧ z.re.isFinite = true ∧ 0 ≤ z.re ∧
      Binary64.same (Binary64.settle z.re) z.re = true

theorem Plain.isFinite {z : FloatNumber} (h : z.Plain) : z.isFinite = true := by
  rcases h with h | ⟨him, hre, -, -⟩
  · have hsame (x y : Float) (hxy : Binary64.same x y = true) (hy : y.isFinite = true) :
        x.isFinite = true := (Binary64.isFinite_congr hxy).trans hy
    exact Bool.and_eq_true_iff.2 ⟨hsame _ _ (same_re_of_beq h) (by decide),
      hsame _ _ (same_im_of_beq h) (by decide)⟩
  · exact Bool.and_eq_true_iff.2
      ⟨hre, Binary64.isFinite_of_rank (Binary64.rank_of_beq_zero him)⟩

theorem ofDecimal_beq {z : FloatNumber} (hre : z.re.isFinite = true)
    (him : Binary64.rank z.im = 0) (hsettled : Binary64.same (Binary64.settle z.re) z.re = true)
    {d : Decimal} (hd : Binary64.same d.toFloat z.re = true) :
    ((Arithmetic.ofDecimal d : FloatNumber) == z) = true := by
  have hzero : Binary64.same 0.0 z.im = true :=
    Binary64.same_iff.2 ((by decide : Binary64.rank 0.0 = 0).trans him.symm)
  have hfinite : z.isFinite = true :=
    Bool.and_eq_true_iff.2 ⟨hre, Binary64.isFinite_of_rank him⟩
  have hread : (Arithmetic.ofDecimal d : FloatNumber) = z.settled := make_of_same hfinite hd hzero
  rw [hread, settled_beq_iff]
  refine .inr ⟨hfinite, hsettled, ?_⟩
  rw [Binary64.settle_of_rank him]
  exact hzero

theorem Plain.atoms {z : FloatNumber} (h : z.Plain) :
    ∃ w : FloatNumber, (z.atoms : Grammar.Atoms FloatNumber) = .single (.number w) ∧
      (w == z) = true := by
  rcases h with h | ⟨him, hre, hle, hsettled⟩
  · have hrank : Binary64.rank z.re = 0 :=
      (Binary64.same_iff.1 (same_re_of_beq h)).trans (by decide)
    have hone : z.im = 1.0 :=
      Binary64.eq_of_rank (by decide) (by decide) (by decide)
        ((Binary64.same_iff.1 (same_im_of_beq h)).trans (by decide))
    refine ⟨Number.imaginaryUnit, ?_, ?_⟩
    · rw [FloatNumber.atoms, if_pos (Binary64.beq_zero_of_rank hrank), hone,
        if_neg (by decide), imaginaryAtoms, if_pos (by decide)]
      rfl
    · rw [beq_comm]
      exact h
  · have himZero := Binary64.rank_of_beq_zero him
    cases h0 : z.re == 0 with
    | true =>
      refine ⟨Arithmetic.ofDecimal ⟨0, 0⟩, ?_, ?_⟩
      · rw [FloatNumber.atoms, h0, if_pos rfl, if_pos him]
      · refine ofDecimal_beq hre himZero hsettled (Binary64.same_iff.2 ?_)
        rw [Binary64.rank_of_beq_zero h0]
        decide
    | false =>
      obtain ⟨habs, hneg⟩ := Binary64.abs_of_nonneg hre h0 hle
      refine ⟨Arithmetic.ofDecimal (Binary64.numeral z.re), ?_, ?_⟩
      · rw [FloatNumber.atoms, h0, if_neg Bool.false_ne_true, if_pos him, decide_eq_false hneg]
        rfl
      · refine ofDecimal_beq hre himZero hsettled ?_
        rw [Binary64.toFloat_numeral hre, habs]
        exact Binary64.same_self _

end FloatNumber

namespace Expr

open Grammar

/-- The trees that are written without signs, scaled variables and imaginary numbers other than the
unit: operations on variables without a coefficient and on plain numbers. -/
def Plain : Expr FloatNumber → Prop
  | .constant (.scalar z) => z.Plain
  | .constant (.list _) => False
  | .var name c => isVariableName name = true ∧ (c == 1) = true
  | .op _ l r => l.Plain ∧ r.Plain

theorem Plain.printable {e : Expr FloatNumber} (h : e.Plain) : e.Printable := by
  induction e with
  | constant v =>
    cases v with
    | scalar z => exact FloatNumber.Plain.isFinite h
    | list zs => exact h
  | var name c =>
    refine ⟨h.1, ?_⟩
    rcases FloatNumber.eq_one_of_beq h.2 with rfl | rfl <;> decide
  | op o l r ihl ihr => exact ⟨ihl h.1, ihr h.2⟩

theorem Plain.enclosed {e : Expr FloatNumber} (h : e.Plain) :
    (e.atoms : Atoms FloatNumber).enclosed e.needsBrackets = .single e.atoms.tree := by
  cases e with
  | constant v =>
    cases v with
    | scalar z =>
      obtain ⟨w, hw, -⟩ := FloatNumber.Plain.atoms h
      rw [atoms, hw, Atoms.enclosed_single, Atoms.enclosed_single, Atoms.tree_single]
    | list zs => exact h.elim
  | var name c =>
    rw [atoms, variableAtoms, if_pos h.2, Atoms.enclosed_single, Atoms.tree_single]
  | op o l r => rfl

theorem beq_op (o : Operator) {l l' r r' : Expr FloatNumber} (hl : (l == l') = true)
    (hr : (r == r') = true) : (Expr.op o l r == .op o l' r') = true := by
  show (o == o && Expr.beq l l' && Expr.beq r r') = true
  rw [beq_self_eq_true, Bool.true_and, Bool.and_eq_true]
  exact ⟨hl, hr⟩

theorem Plain.tree_beq {e : Expr FloatNumber} (h : e.Plain) :
    ((e.atoms : Atoms FloatNumber).tree == e) = true := by
  induction e with
  | constant v =>
    cases v with
    | scalar z =>
      obtain ⟨w, hw, hwz⟩ := FloatNumber.Plain.atoms h
      rw [atoms, hw, Atoms.enclosed_single, Atoms.tree_single]
      exact hwz
    | list zs => exact h.elim
  | var name c =>
    rw [atoms, variableAtoms, if_pos h.2, Atoms.tree_single]
    show (name == name && (1 : FloatNumber) == c) = true
    rw [beq_self_eq_true, Bool.true_and, FloatNumber.beq_comm]
    exact h.2
  | op o l r ihl ihr =>
    rw [atoms, h.1.enclosed, h.2.enclosed, Atoms.tree_join_single]
    exact beq_op o (ihl h.1) (ihr h.2)

/-- The text of a plain tree parses to an equal tree. -/
theorem parse_text_plain {e : Expr FloatNumber} (h : e.Plain) :
    ∃ t, parse e.text.toList = .ok t ∧ (t == e) = true :=
  ⟨_, parse_text h.printable, h.tree_beq⟩

theorem plain_power : (Expr.op .pow (.number ⟨2.0, 0.0⟩)
    (.op .sub (.var 'x' 1) (.number Number.imaginaryUnit))).Plain := by
  have hsettled : Binary64.same (Binary64.settle 2.0) 2.0 = true := by
    set_option maxRecDepth 4000 in
    with_unfolding_all decide
  have htwo : FloatNumber.Plain ⟨2.0, 0.0⟩ := .inr ⟨by decide, by decide, by decide, hsettled⟩
  have hx : isVariableName 'x' = true ∧ ((1 : FloatNumber) == 1) = true :=
    ⟨by decide, FloatNumber.beq_self 1⟩
  exact ⟨htwo, hx, .inl (FloatNumber.beq_self _)⟩

theorem parse_text_plain_power :
    ∃ t, parse (Expr.op .pow (.number ⟨2.0, 0.0⟩)
        (.op .sub (.var 'x' 1) (.number Number.imaginaryUnit))).text.toList = .ok t ∧
      (t == Expr.op .pow (.number ⟨2.0, 0.0⟩)
        (.op .sub (.var 'x' 1) (.number Number.imaginaryUnit))) = true :=
  parse_text_plain plain_power

example : (Expr.op .pow (.number ⟨2.0, 0.0⟩)
    (.op .sub (.var 'x' 1) (.number Number.imaginaryUnit)) : Expr FloatNumber).text =
      "2 ^ (x - i)" := by
  set_option maxRecDepth 4000 in
  with_unfolding_all decide

end Expr
end ComplexAlgebra
