import ComplexAlgebra.Proofs.ListRules

/-! Partial evaluation where lists are bound. The value of a simplified expression under an
assignment of the free variables contains every number that the expression has with all bindings
together. It is the same value unless a list was copied, dropped or exchanged with another one. -/
namespace ComplexAlgebra
namespace Scope

open ComplexAlgebra.Expr Simplification ExactNumber Number

variable {K : Type}

/-- The bindings of `s`, and of `t` what `s` does not bind. -/
def Joins (st s t : Scope K) : Prop := ∀ name, st.get? name = (s.get? name).or (t.get? name)

variable [Arithmetic K]

/-- The number bound to a name, zero if there is none. -/
def number (t : Scope K) (name : Char) : K := ((t.get? name).bind Value.scalar?).getD 0

theorem evaluate_eq_valueAt {t : Scope K} {e : Expr K}
    (h : ∀ name ∈ e.names, t.get? name = some (.scalar (t.number name))) :
    t.evaluate e = .ok (e.valueAt t.number) := by
  induction e with
  | constant v => rfl
  | var name c => simp only [evaluate, h name List.mem_cons_self, valueAt, Value.map]
  | op o l r ihl ihr =>
    have hl := ihl fun name hname => h name (List.mem_append_left _ hname)
    have hr := ihr fun name hname => h name (List.mem_append_right _ hname)
    simp only [evaluate, hl, hr, valueAt]

section Exact

variable {s t st : Scope ExactNumber} {e : Expr ExactNumber} {u : Value ExactNumber}

theorem get?_eq_number (ht : t.Scalar) {name : Char} {v : Value ExactNumber}
    (h : t.get? name = some v) : v = .scalar (t.number name) := by
  obtain ⟨x, rfl⟩ := ht name v h
  simp [number, h, Value.scalar?]

theorem evaluate_substitute (hst : st.Joins s t) (ht : t.Scalar) (hu : st.evaluate e = .ok u) :
    (s.substitute e).valueAt t.number = u ∧
      ∀ name ∈ e.names, s.get? name = none → t.get? name = some (.scalar (t.number name)) := by
  induction e generalizing u with
  | constant v =>
    cases hu
    exact ⟨rfl, nofun⟩
  | var name c =>
    rw [evaluate, hst name] at hu
    cases hs : s.get? name with
    | some v =>
      rw [hs] at hu
      cases hu
      refine ⟨by simp only [substitute, hs, valueAt], fun other hother h => ?_⟩
      rw [List.mem_singleton.1 hother, hs] at h
      cases h
    | none =>
      cases hget : t.get? name with
      | none => simp [hs, hget] at hu
      | some v =>
        rw [hs, hget] at hu
        obtain rfl := get?_eq_number ht hget
        cases hu
        refine ⟨by simp only [substitute, hs, valueAt]; rfl, fun other hother _ => ?_⟩
        rwa [List.mem_singleton.1 hother]
  | op o l r ihl ihr =>
    rw [evaluate] at hu
    split at hu
    · cases hu
    · next v hv =>
      split at hu
      · cases hu
      · next w hw =>
        cases hu
        obtain ⟨hl, hnl⟩ := ihl hv
        obtain ⟨hr, hnr⟩ := ihr hw
        refine ⟨by rw [substitute, valueAt, hl, hr], fun name hname => ?_⟩
        exact (List.mem_append.1 hname).elim (hnl name) (hnr name)

/-- Simplification where some variables are bound, to lists also, keeps every number of the value
that the expression has under an assignment of the other variables. It keeps the value if no step
exchanges two lists, copies a list to both terms of a sum or drops one. -/
theorem evaluate_simplify_joins (hst : st.Joins s t) (ht : t.Scalar)
    (he : e.LiteralExponents Set.univ) (hu : st.evaluate e = .ok u) (hd : u.Defined) :
    ∃ w, t.evaluate (s.simplify e) = .ok w ∧ (∀ x ∈ u.elements, x ∈ w.elements) ∧
      (RewritesBy KeepsLists (s.substitute e) (s.simplify e) → w = u) := by
  obtain ⟨hvalue, hnames⟩ := evaluate_substitute hst ht hu
  have hexp := exponentsIn_substitute he.exponentsIn s
  refine ⟨(s.simplify e).valueAt t.number, evaluate_eq_valueAt fun name hname => ?_, ?_, ?_⟩
  · exact hnames name (mem_names_simplify hname).1 (mem_names_simplify hname).2
  · have hrel := Comparison.rel_of_closure (C := .covering) (ρ := t.number)
      (fun e e' h => ⟨h, Comparison.admits_covering _ e e'⟩) (s.rewrites_simplify e) hexp
    rw [hvalue] at hrel
    exact fun x hx => Value.Covers.mem hrel hd hx
  · intro hkeeps
    have hrel := Comparison.rel_of_closure (C := .refinement) (ρ := t.number)
      (fun e e' h => ⟨h.1, Comparison.admits_refinement h.2⟩) hkeeps hexp
    rw [hvalue] at hrel
    exact Value.Refines.eq hrel hd

end Exact

section Lists

noncomputable def oneAndTwo : Value ExactNumber := .list [1, Arithmetic.two]

/-- Binds `y` to the numbers one and two. -/
noncomputable def boundY : Scope ExactNumber := empty.bind 'y' oneAndTwo

/-- Binds `x` to three. -/
noncomputable def boundX : Scope ExactNumber := empty.bind 'x' (.scalar (ofComplex 3))

noncomputable def boundXY : Scope ExactNumber := boundY.bind 'x' (.scalar (ofComplex 3))

theorem joins_boundXY : boundXY.Joins boundY boundX := by
  intro name
  by_cases hx : name = 'x'
  · subst hx
    simp [boundXY, boundY, boundX]
  · simp [boundXY, boundY, boundX, hx]

theorem scalar_boundX : boundX.Scalar := by
  intro name v h
  by_cases hx : name = 'x'
  · simp only [boundX, get?_bind, hx, if_true, Option.some.injEq] at h
    exact ⟨_, h.symm⟩
  · simp [boundX, hx] at h

/-- The sum `(y + x) + 1`. -/
noncomputable def varsPlusOne : Expr ExactNumber :=
  .op .add (.op .add (.var 'y' 1) (.var 'x' 1)) (.number 1)

/-- The sum is `5` and `6` at `x = 3`, before simplification and after. -/
theorem evaluate_simplify_joins_varsPlusOne :
    ∃ u, boundXY.evaluate varsPlusOne = .ok u ∧ u.elements.map value? = [5, 6].map some ∧
      boundX.evaluate (boundY.simplify varsPlusOne) = .ok u := by
  have hu : boundXY.evaluate varsPlusOne = .ok (Operator.add.combine (Operator.add.combine
      (oneAndTwo.map (· * 1)) (.scalar (ofComplex 3 * 1))) (.scalar 1)) := rfl
  have hone : (1 : ExactNumber).value? = some 1 := value?_ofComplex 1
  have hmap : (Operator.add.combine (Operator.add.combine (oneAndTwo.map (· * 1))
      (.scalar (ofComplex 3 * 1))) (.scalar 1)).elements.map value? = [5, 6].map some := by
    simp only [oneAndTwo, Operator.combine, Value.elements_combine, Value.map]
    simp [Operator.apply, value?_add, value?_mul, hone, value?_two]
    norm_num
  have hsummand : (boundY.substitute varsPlusOne).ListSummand :=
    .inr ⟨.inl rfl, .inl ⟨.inr ⟨.inl rfl, .inl ⟨trivial, trivial⟩⟩, trivial⟩⟩
  have hkeeps := (boundY.rewrites_simplify varsPlusOne).keepsLists hsummand
  have he : varsPlusOne.LiteralExponents Set.univ := by simp [varsPlusOne, LiteralExponents]
  obtain ⟨w, hw, -, heq⟩ := evaluate_simplify_joins joins_boundXY scalar_boundX he hu
    (Value.defined_of_map hmap)
  rw [heq hkeeps.2] at hw
  exact ⟨_, hu, hmap, hw⟩

/-- The product `(x + 1) * y`. -/
noncomputable def sumTimesY : Expr ExactNumber :=
  .op .mul (.op .add (.var 'x' 1) (.number 1)) (.var 'y' 1)

theorem simplify_sumTimesY : boundY.simplify sumTimesY =
    .op .add (.op .mul (.var 'x' 1) (.constant (oneAndTwo.map (· * 1))))
      (.constant (Operator.mul.combine (.scalar 1) (oneAndTwo.map (· * 1)))) := by
  simp [sumTimesY, boundY, simplify, operation, sum.eq_def, multiply.eq_def, sumAtOnce?,
    productAtOnce?, regrouped?, split?, distributable?, terms?, isOperator, pairing?, factored?,
    isNumber, additive, oneAndTwo, Value.map, Operator.combine, Value.combine]

/-- The product is `4` and `8` at `x = 3`. Simplification copies the list to both terms of the sum
and pairs each copy with the other. -/
theorem simplify_copies_list :
    ∃ u w, boundXY.Joins boundY boundX ∧ boundX.Scalar ∧ sumTimesY.Rational ∧
      boundXY.evaluate sumTimesY = .ok u ∧ u.elements.map value? = [4, 8].map some ∧
      boundX.evaluate (boundY.simplify sumTimesY) = .ok w ∧
      w.elements.map value? = [4, 5, 7, 8].map some := by
  have hone : (1 : ExactNumber).value? = some 1 := value?_ofComplex 1
  refine ⟨_, _, joins_boundXY, scalar_boundX, by simp [sumTimesY, Rational], rfl, ?_,
    by rw [simplify_sumTimesY]; rfl, ?_⟩
  · simp only [oneAndTwo, Operator.combine, Value.elements_combine, Value.map]
    simp [Operator.apply, value?_add, value?_mul, hone, value?_two]
    norm_num
  · simp only [oneAndTwo, Operator.combine, Value.elements_combine, Value.map]
    simp [Operator.apply, value?_add, value?_mul, hone, value?_two]
    norm_num

end Lists

end Scope
end ComplexAlgebra
