import ComplexAlgebra.Proofs.ConstantFactor
import ComplexAlgebra.Proofs.Rational

/-! What an isolation decides. Its steps keep the variables of the unknown side, so it finds the
unknown exactly if that is a single leaf; the one exception is a quotient that is to be zero, which
takes the unknown along when its divisor changes sides. -/
namespace ComplexAlgebra

open ExactNumber in
open Number (ofComplex) in
theorem ExactNumber.standard : Arithmetic.Standard ExactNumber where
  zero_ne_one a ha := by
    obtain rfl := beq_iff.1 ha
    refine Bool.eq_false_iff.2 fun h => ?_
    exact zero_ne_one (ofComplex_injective (beq_iff.1 h : ofComplex 0 = ofComplex 1))
  two_ne_zero := regular.two_ne_zero
  two_ne_one := regular.two_ne_one
  div_zero_ne_zero a b hb := by
    rw [beq_zero_eq_false_iff]
    intro h
    obtain ⟨p, q, -, hq, hop⟩ :=
      computes_of_value?_apply (o := .div) h fun h => absurd h (by decide)
    have hzero : b.value? = some 0 := by rw [beq_iff.1 hb]; rfl
    cases hq.symm.trans hzero
    exact (Operator.computes_div_iff.1 hop).1 rfl

namespace Scope

open ComplexAlgebra.Expr Simplification

section Runs

variable {K : Type} [Arithmetic K] {s : Scope K} {u k u' k' : Expr K}

/-- The equation `u = k` equates a quotient with the number zero, and the unknown is in its
divisor. -/
def DividesToZero (s : Scope K) (u k : Expr K) : Prop :=
  ∃ x l r, s.simplify k = .number x ∧ (x == 0) = true ∧ s.simplify u = .op .div l r ∧
    l.containsVariable = false ∧ r.containsVariable = true

theorem DividesToZero.isolate_eq (hK : Arithmetic.Standard K) (h : s.DividesToZero u k) :
    s.isolate u k = .error (.unresolvable .cancels) := by
  obtain ⟨x, l, r, hk, hx, hu, hl, hr⟩ := h
  obtain ⟨v, hv⟩ := s.exists_simplify_eq_constant hl
  obtain ⟨w, hw⟩ := exists_multiply_zero hx (hK.zero_ne_one x hx) (s.simplify r)
  exact (Undoes.divisor hk hu hl hr).isolate_eq.trans (isolate_constant hv hw)

theorem Undoes.names_simplify (hK : Arithmetic.Regular K) (hstable : (s.simplify u).Stable)
    (h : s.Undoes u k u' k') (hno : ¬ s.DividesToZero u k) :
    (s.simplify u').Stable ∧ (s.simplify u').names = (s.simplify u).names := by
  have hleft {o : Operator} {l r : Expr K} (hu : s.simplify u = .op o l r)
      (hr : r.containsVariable = false) :
      (s.simplify l).Stable ∧ (s.simplify l).names = (s.simplify u).names := by
    have hl := (simplify_operands hu hstable).1
    rw [hu] at hstable
    rw [hl, hu, names, closed_iff_names.1 hr, List.append_nil]
    exact ⟨hstable.1, rfl⟩
  have hright {o : Operator} {l r : Expr K} (hu : s.simplify u = .op o l r)
      (hl : l.containsVariable = false) :
      (s.simplify r).Stable ∧ (s.simplify r).names = (s.simplify u).names := by
    have hr := (simplify_operands hu hstable).2
    rw [hu] at hstable
    rw [hr, hu, names, closed_iff_names.1 hl, List.nil_append]
    exact ⟨hstable.2.1, rfl⟩
  cases h with
  | left _ hu _ hr => exact hleft hu hr
  | addend _ hu hl _ => exact hright hu hl
  | subtrahend _ hu hl _ => exact hright hu hl
  | factor _ hu hl _ => exact hright hu hl
  | divisor hk hu hl hr =>
    have hv {v : Value K} (hk : s.simplify k = .constant v) :
        (Expr.constant v).isNumber 0 = false := by
      refine Bool.eq_false_iff.2 fun hz => ?_
      obtain ⟨x, hx, hx0⟩ := Expr.isNumber_iff.1 hz
      exact hno ⟨x, _, _, hk.trans hx, hx0, hu, hl, hr⟩
    obtain ⟨hr', hnames⟩ := hright hu hl
    refine ⟨inherited_multiply (inherited_stable hK) trivial hr', ?_⟩
    exact (names_multiply_constant hK (hv hk) hr').trans hnames
  | exponent _ hu hl _ _ => exact hright hu hl

theorem exists_isolate_eq_ok (hK : Arithmetic.Regular K) (hclosed : k.containsVariable = false)
    (hstable : (s.simplify u).Stable) {name : Char} (hname : (s.simplify u).names = [name])
    (hno : ∀ u' k', s.Reaches u k u' k' → ¬ s.DividesToZero u' k') :
    ∃ v, s.isolate u k = .ok (name, v) := by
  induction hp : (u, k) using s.wellFounded_undoes.induction generalizing u k with
  | _ p ih =>
    subst hp
    rcases s.isolate_cases u hclosed with ⟨u', k', hstep⟩ | ⟨⟨v, hu⟩, -⟩ |
      ⟨other, c, v, hu, hend⟩ | ⟨o, l, r, hu, hl, hr, -⟩
    · obtain ⟨hstable', hnames⟩ := hstep.names_simplify hK hstable (hno u k (.refl u k))
      obtain ⟨v, hv⟩ := ih (u', k') hstep hstep.closed hstable' (hnames.trans hname)
        (fun u'' k'' hreach => hno u'' k'' (.step hstep hreach)) rfl
      exact ⟨v, hstep.isolate_eq.trans hv⟩
    · rw [hu] at hname
      cases hname
    · rw [hu] at hname
      cases hname
      exact ⟨v, hend⟩
    · have hlength := congrArg List.length hname
      rw [hu, names, List.length_append] at hlength
      have hposl := List.length_pos_iff.2 ((containsVariable_iff l).1 hl)
      have hposr := List.length_pos_iff.2 ((containsVariable_iff r).1 hr)
      simp only [List.length_singleton] at hlength
      omega

theorem exists_isolate_eq_error (hK : Arithmetic.Standard K) (hregular : Arithmetic.Regular K)
    (hclosed : k.containsVariable = false) (hstable : (s.simplify u).Stable)
    (hlength : 2 ≤ (s.simplify u).names.length) :
    ∃ o, s.isolate u k = .error (.unresolvable o) := by
  induction hp : (u, k) using s.wellFounded_undoes.induction generalizing u k with
  | _ p ih =>
    subst hp
    rcases s.isolate_cases u hclosed with ⟨u', k', hstep⟩ | ⟨-, hend⟩ | ⟨_, _, _, hu, -⟩ |
      ⟨_, _, _, -, -, -, hend⟩
    · by_cases hzero : s.DividesToZero u k
      · exact ⟨_, hzero.isolate_eq hK⟩
      · obtain ⟨hstable', hnames⟩ := hstep.names_simplify hregular hstable hzero
        obtain ⟨o, ho⟩ := ih (u', k') hstep hstep.closed hstable' (hnames ▸ hlength) rfl
        exact ⟨o, hstep.isolate_eq.trans ho⟩
    · exact ⟨_, hend⟩
    · rw [hu] at hlength
      exact absurd hlength (by simp [names])
    · exact ⟨_, hend⟩

theorem Reaches.isolate_eq (h : s.Reaches u k u' k') : s.isolate u k = s.isolate u' k' := by
  induction h with
  | refl => rfl
  | step hstep _ ih => exact hstep.isolate_eq.trans ih

theorem Poses.stable (hK : Arithmetic.Regular K) {source : List Char} (h : s.Poses source u k) :
    u.Stable ∧ s.simplify u = u := by
  have hsimp {e : Expr K} {text : List Char} (he : parse text = .ok e) :
      (s.simplify e).Stable ∧ s.simplify (s.simplify e) = s.simplify e := by
    have hstable := stable_simplify hK s ((written_of_parse he).properCoefficients hK)
    exact ⟨hstable, simplify_of_stable hstable fun name hname => (mem_names_simplify hname).2⟩
  cases h with
  | left _ hl _ _ _ => exact hsimp hl
  | right _ _ hr _ _ => exact hsimp hr

end Runs

/-- Where products and quotients of nonzero numbers are not zero, the isolation of an equation that
a line poses ends, and the leaves of the unknown side decide its outcome: several cannot be
isolated, and a single one is, unless a step comes to a quotient that is to be zero with the unknown
in its divisor. Doubles and exact numbers are both standard. -/
theorem resolve_decides {K : Type} [Arithmetic K] (hK : Arithmetic.Standard K)
    (hmul : ∀ a b : K, (a == 0) = false → (b == 0) = false → (a * b == 0) = false)
    (hdiv : ∀ a b : K, (a == 0) = false → (b == 0) = false → (a / b == 0) = false)
    {s : Scope K} {source : List Char} {u k : Expr K} (h : s.Poses source u k) :
    Acc (fun p q : Expr K × Expr K => s.Undoes q.1 q.2 p.1 p.2) (u, k) ∧
    (2 ≤ u.names.length → ∃ o, (s.resolve source).1 = .error (.runtime (.unresolvable o))) ∧
    ∀ name, u.names = [name] →
      ((∀ u' k', s.Reaches u k u' k' → ¬ s.DividesToZero u' k') →
        ∃ v, (s.resolve source).1 = .ok (.binding name v)) ∧
      ((∃ u' k', s.Reaches u k u' k' ∧ s.DividesToZero u' k') →
        (s.resolve source).1 = .error (.runtime (.unresolvable .cancels))) := by
  have hregular := hK.regular hmul hdiv
  obtain ⟨hstable, hsimp⟩ := h.stable hregular
  have hstable' : (s.simplify u).Stable := hsimp.symm ▸ hstable
  refine ⟨s.wellFounded_undoes.apply _, fun hlength => ?_, fun name hname => ⟨fun hno => ?_, ?_⟩⟩
  · obtain ⟨o, ho⟩ := exists_isolate_eq_error hK hregular h.closed hstable' (hsimp.symm ▸ hlength)
    exact ⟨o, by rw [h.resolve_eq, ho]⟩
  · obtain ⟨v, hv⟩ :=
      exists_isolate_eq_ok hregular h.closed hstable' (hsimp.symm ▸ hname) hno
    exact ⟨v, by rw [h.resolve_eq, hv]⟩
  · rintro ⟨u', k', hreach, hzero⟩
    rw [h.resolve_eq, hreach.isolate_eq, hzero.isolate_eq hK]

section Quotient

open ExactNumber
open Number (ofComplex)

theorem parse_zero : parse "0".toList = .ok (.number (ofComplex 0)) := by
  have hparse {K : Type} [Arithmetic K] :
      parse "0".toList = .ok (.number (Arithmetic.ofDecimal (K := K) ⟨0, 0⟩)) := by
    cbv
  rw [hparse, ofDecimal_natural, Nat.cast_zero]

theorem poses_numberOver {source right : List Char} {q : ℂ}
    (hpieces : Text.pieces '=' source = ["6/x".toList, right])
    (hr : parse right = .ok (.number (ofComplex q))) :
    empty.Poses source (numberOverX 6) (.number (ofComplex q)) := by
  have hposes := Poses.left (s := (empty : Scope ExactNumber)) hpieces parse_sixOverX hr
    (by rw [simplify_numberOver 6 rfl (by decide)]; rfl) rfl
  rwa [simplify_numberOver 6 rfl (by decide)] at hposes

/-- The unknown of `6 / x = 3` is found, that of `6 / x = 0` is not. -/
theorem resolve_decides_quotient :
    (empty.Poses "6/x=3".toList (numberOverX 6) (.number (ofComplex 3)) ∧
      ∃ v : Value ExactNumber, (empty.resolve "6/x=3".toList).1 = .ok (.binding 'x' v)) ∧
    empty.Poses "6/x=0".toList (numberOverX 6) (.number (ofComplex 0)) ∧
      (empty.resolve "6/x=0".toList).1 =
        (.error (.runtime (.unresolvable .cancels)) :
          Except (Error ExactNumber) (Resolution ExactNumber)) := by
  have hdecides {source : List Char} {q : ℂ}
      (h : empty.Poses source (numberOverX 6) (.number (ofComplex q))) :=
    (resolve_decides standard regular.mul_ne_zero (fun a b ha _ => regular.div_ne_zero a b ha)
      h).2.2 'x' rfl
  have hthree : empty.Poses "6/x=3".toList (numberOverX 6) (.number (ofComplex 3)) :=
    poses_numberOver (by decide) parse_three
  have hzero : empty.Poses "6/x=0".toList (numberOverX 6) (.number (ofComplex 0)) :=
    poses_numberOver (by decide) parse_zero
  refine ⟨⟨hthree, (hdecides hthree).1 ?_⟩, hzero, (hdecides hzero).2 ?_⟩
  · intro u' k' hreach
    have hstep : (empty : Scope ExactNumber).Undoes (numberOverX 6) (.number (ofComplex 3))
        (.op .mul (.number (ofComplex 3)) (.var 'x' 1)) (.number (ofComplex 6)) :=
      .divisor rfl (simplify_numberOver 6 rfl (by decide)) rfl rfl
    have hmul := simplify_number_mul (q := 3) (by norm_num) (by norm_num)
    rcases hreach.eq_or_of_undoes hstep with ⟨rfl, rfl⟩ | hreach
    · rintro ⟨x, l, r, hx, hx0, -, -, -⟩
      cases hx
      exact three_ne_zero (ofComplex_beq_zero.1 hx0)
    · cases hreach with
      | refl =>
        rintro ⟨x, l, r, -, -, hu, -, -⟩
        cases hmul.symm.trans hu
      | step hstep _ =>
        obtain ⟨o, l, r, hu⟩ := hstep.exists_op
        cases hmul.symm.trans hu
  · exact ⟨_, _, .refl _ _, _, _, _, rfl, ofComplex_beq_zero.2 rfl,
      simplify_numberOver 6 rfl (by decide), rfl, rfl⟩

end Quotient

end Scope
end ComplexAlgebra
