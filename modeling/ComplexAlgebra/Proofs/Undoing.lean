import ComplexAlgebra.Resolution
import ComplexAlgebra.Proofs.Rewriting

/-! Isolation as a sequence of steps, and the names it can come to: simplification and the steps
introduce no variable, and bound variables are gone once a side is simplified. -/
namespace ComplexAlgebra

variable {K : Type} [Arithmetic K]

omit [Arithmetic K] in
theorem Expr.closed_iff_names {e : Expr K} : e.containsVariable = false ↔ e.names = [] := by
  rw [← Bool.not_eq_true, e.containsVariable_iff, ne_eq, Classical.not_not]

namespace Simplification

theorem names_collected_subset (name : Char) (c : K) : (collected name c).names ⊆ [name] := by
  unfold collected
  split
  · exact List.nil_subset _
  · exact List.Subset.refl _

theorem names_scaled (k : K) (e : Expr K) : (scaled k e).names = e.names := by
  unfold scaled
  split
  · rfl
  · exact List.nil_append _

theorem Rule.names_subset {e e' : Expr K} (h : Rule e e') : e'.names ⊆ e.names := by
  cases h with
  | fold o v w => exact List.nil_subset _
  | sum h =>
    cases h with
    | collect negated a c d =>
      exact List.Subset.trans (names_collected_subset a _) (List.subset_append_left [a] [a])
    | zero_sub b d => exact names_collected_subset b _
    | _ => simp [Expr.names]
  | product h => cases h <;> simp [names_scaled, Expr.names]
  | quotient h => cases h <;> simp [names_scaled, Expr.names]
  | power h => cases h <;> simp [Expr.names]

theorem Rewrites.names_subset {e e' : Expr K} (h : Rewrites e e') : e'.names ⊆ e.names := by
  induction h with
  | refl e => exact List.Subset.refl _
  | rule h => exact h.names_subset
  | trans h h' ih ih' => exact List.Subset.trans ih' ih
  | operands o hl hr ihl ihr =>
    exact List.append_subset.2 ⟨List.subset_append_of_subset_left _ ihl,
      List.subset_append_of_subset_right _ ihr⟩

/-- Two constants fold, whatever the operation. Powers have their exponents zero and one apart. -/
theorem operation_constant {o : Operator} (ho : o ≠ .pow) (v w : Value K) :
    operation o (.constant v) (.constant w) = .constant (o.combine v w) := by
  cases o with
  | add => exact (sum.eq_def ..).trans rfl
  | sub => exact (sum.eq_def ..).trans rfl
  | mul => exact (multiply.eq_def ..).trans rfl
  | div => exact (divide.eq_def ..).trans rfl
  | pow => exact absurd rfl ho

theorem power_constant (v w : Value K) :
    power (.constant v) (.constant w) =
      if (Expr.constant w).isNumber 0 then .number 1
      else if (Expr.constant w).isNumber 1 then .constant v
      else .constant (Operator.pow.combine v w) := by
  rw [power]
  rfl

theorem exists_operation_constant (o : Operator) (v w : Value K) :
    ∃ x, operation o (.constant v) (.constant w) = .constant x := by
  by_cases ho : o = .pow
  · subst ho
    show ∃ x, power _ _ = _
    rw [power_constant]
    split
    · exact ⟨_, rfl⟩
    · split <;> exact ⟨_, rfl⟩
  · exact ⟨_, operation_constant ho v w⟩

end Simplification

namespace Scope

open Simplification

theorem mem_names_substitute (s : Scope K) (e : Expr K) (name : Char) :
    name ∈ (s.substitute e).names ↔ name ∈ e.names ∧ s.get? name = none := by
  induction e with
  | constant v => simp [substitute, Expr.names]
  | var other c =>
    rw [substitute]
    cases hget : s.get? other with
    | none =>
      simp only [Expr.names, List.mem_singleton]
      constructor
      · rintro rfl
        exact ⟨rfl, hget⟩
      · exact And.left
    | some v =>
      simp only [Expr.names, List.not_mem_nil, List.mem_singleton, false_iff, not_and]
      rintro rfl
      simp [hget]
  | op o l r ihl ihr => simp [substitute, Expr.names, ihl, ihr, or_and_right]

theorem mem_names_simplify {s : Scope K} {e : Expr K} {name : Char}
    (h : name ∈ (s.simplify e).names) : name ∈ e.names ∧ s.get? name = none :=
  (s.mem_names_substitute e name).1 ((s.rewrites_simplify e).names_subset h)

theorem simplify_constants {s : Scope K} {o : Operator} (ho : o ≠ .pow) {l r : Expr K}
    {v w : Value K} (hl : s.simplify l = .constant v) (hr : s.simplify r = .constant w) :
    s.simplify (.op o l r) = .constant (o.combine v w) := by
  rw [simplify, hl, hr]
  exact operation_constant ho v w

theorem exists_simplify_eq_constant (s : Scope K) {e : Expr K} (h : e.containsVariable = false) :
    ∃ v, s.simplify e = .constant v := by
  induction e with
  | constant v => exact ⟨v, rfl⟩
  | var name c => cases h
  | op o l r ihl ihr =>
    obtain ⟨hl, hr⟩ := Bool.or_eq_false_iff.1 h
    obtain ⟨v, hv⟩ := ihl hl
    obtain ⟨w, hw⟩ := ihr hr
    rw [simplify, hv, hw]
    exact exists_operation_constant o v w

/-- `s.Undoes u k u' k'`: the outermost operation of `u = k` around the unknown is undone, which
leaves `u' = k'`. -/
inductive Undoes (s : Scope K) : Expr K → Expr K → Expr K → Expr K → Prop
  | left {u k l r : Expr K} {o : Operator} {v : Value K} (hk : s.simplify k = .constant v)
    (hu : s.simplify u = .op o l r) (hl : l.containsVariable = true)
    (hr : r.containsVariable = false) : Undoes s u k l (undoRight o r v)
  | addend {u k l r : Expr K} {v : Value K} (hk : s.simplify k = .constant v)
    (hu : s.simplify u = .op .add l r) (hl : l.containsVariable = false)
    (hr : r.containsVariable = true) : Undoes s u k r (.op .sub (.constant v) l)
  | subtrahend {u k l r : Expr K} {v : Value K} (hk : s.simplify k = .constant v)
    (hu : s.simplify u = .op .sub l r) (hl : l.containsVariable = false)
    (hr : r.containsVariable = true) : Undoes s u k r (.op .sub l (.constant v))
  | factor {u k l r : Expr K} {v : Value K} (hk : s.simplify k = .constant v)
    (hu : s.simplify u = .op .mul l r) (hl : l.containsVariable = false)
    (hr : r.containsVariable = true) : Undoes s u k r (.op .div (.constant v) l)
  /-- The divisor changes sides together with the known side. -/
  | divisor {u k l r : Expr K} {v : Value K} (hk : s.simplify k = .constant v)
    (hu : s.simplify u = .op .div l r) (hl : l.containsVariable = false)
    (hr : r.containsVariable = true) : Undoes s u k (.op .mul (.constant v) r) l
  | exponent {u k l r : Expr K} {v base : Value K} (hk : s.simplify k = .constant v)
    (hu : s.simplify u = .op .pow l r) (hl : l.containsVariable = false)
    (hr : r.containsVariable = true) (hbase : s.evaluate l = .ok base) :
    Undoes s u k r (.op .div (.constant (v.map Arithmetic.log))
      (.constant (base.map Arithmetic.log)))

theorem Undoes.isolate_eq {s : Scope K} {u k u' k' : Expr K} (h : s.Undoes u k u' k') :
    s.isolate u k = s.isolate u' k' := by
  rw [isolate]
  cases h with
  | left hk hu hl hr =>
    simp only [hk]
    split <;> cases hu.symm.trans ‹_›
    simp only [hl, hr]
  | addend hk hu hl hr =>
    simp only [hk]
    split <;> cases hu.symm.trans ‹_›
    simp only [hl, hr]
  | subtrahend hk hu hl hr =>
    simp only [hk]
    split <;> cases hu.symm.trans ‹_›
    simp only [hl, hr]
  | factor hk hu hl hr =>
    simp only [hk]
    split <;> cases hu.symm.trans ‹_›
    simp only [hl, hr]
  | divisor hk hu hl hr =>
    simp only [hk]
    split <;> cases hu.symm.trans ‹_›
    simp only [hl, hr]
  | exponent hk hu hl hr hbase =>
    simp only [hk]
    split <;> cases hu.symm.trans ‹_›
    simp only [hl, hr, hbase]

theorem Undoes.unique {s : Scope K} {u k u' k' u'' k'' : Expr K} (h : s.Undoes u k u' k')
    (h' : s.Undoes u k u'' k'') : u' = u'' ∧ k' = k'' := by
  cases h with
  | left hk hu hl hr =>
    cases h' with
    | left hk' hu' =>
      cases hk.symm.trans hk'
      cases hu.symm.trans hu'
      exact ⟨rfl, rfl⟩
    | _ => simp_all
  | addend hk hu hl hr =>
    cases h' with
    | addend hk' hu' =>
      cases hk.symm.trans hk'
      cases hu.symm.trans hu'
      exact ⟨rfl, rfl⟩
    | _ => simp_all
  | subtrahend hk hu hl hr =>
    cases h' with
    | subtrahend hk' hu' =>
      cases hk.symm.trans hk'
      cases hu.symm.trans hu'
      exact ⟨rfl, rfl⟩
    | _ => simp_all
  | factor hk hu hl hr =>
    cases h' with
    | factor hk' hu' =>
      cases hk.symm.trans hk'
      cases hu.symm.trans hu'
      exact ⟨rfl, rfl⟩
    | _ => simp_all
  | divisor hk hu hl hr =>
    cases h' with
    | divisor hk' hu' =>
      cases hk.symm.trans hk'
      cases hu.symm.trans hu'
      exact ⟨rfl, rfl⟩
    | _ => simp_all
  | exponent hk hu hl hr hbase =>
    cases h' with
    | exponent hk' hu' _ _ hbase' =>
      cases hk.symm.trans hk'
      cases hu.symm.trans hu'
      cases hbase.symm.trans hbase'
      exact ⟨rfl, rfl⟩
    | _ => simp_all

/-- The equations that an isolation comes to. -/
inductive Reaches (s : Scope K) : Expr K → Expr K → Expr K → Expr K → Prop
  | refl (u k : Expr K) : Reaches s u k u k
  | step {u k u' k' u'' k'' : Expr K} (h : s.Undoes u k u' k') (h' : Reaches s u' k' u'' k'') :
    Reaches s u k u'' k''

theorem Reaches.eq_or_of_undoes {s : Scope K} {u k u' k' u'' k'' : Expr K}
    (h : s.Reaches u k u'' k'') (hstep : s.Undoes u k u' k') :
    (u'' = u ∧ k'' = k) ∨ s.Reaches u' k' u'' k'' := by
  cases h with
  | refl => exact .inl ⟨rfl, rfl⟩
  | step h h' =>
    obtain ⟨rfl, rfl⟩ := hstep.unique h
    exact .inr h'

theorem containsVariable_undoRight (o : Operator) {r : Expr K} (hr : r.containsVariable = false)
    (v : Value K) : (undoRight o r v).containsVariable = false := by
  cases o with
  | pow =>
    simp only [undoRight]
    split
    · rfl
    · simp [Expr.containsVariable, hr]
  | _ => simp [undoRight, Expr.containsVariable, hr]

theorem Undoes.closed {s : Scope K} {u k u' k' : Expr K} (h : s.Undoes u k u' k') :
    k'.containsVariable = false := by
  cases h with
  | left _ _ _ hr => exact containsVariable_undoRight _ hr _
  | addend _ _ hl => exact hl
  | subtrahend _ _ hl => exact Bool.or_eq_false_iff.2 ⟨hl, rfl⟩
  | factor _ _ hl => exact hl
  | divisor _ _ hl => exact hl
  | exponent => rfl

theorem Reaches.closed {s : Scope K} {u k u' k' : Expr K} (h : s.Reaches u k u' k')
    (hk : k.containsVariable = false) : k'.containsVariable = false := by
  induction h with
  | refl => exact hk
  | step hstep _ ih => exact ih hstep.closed

theorem Undoes.weight_lt {s : Scope K} {u k u' k' : Expr K} (h : s.Undoes u k u' k') :
    u'.weight < u.weight := by
  have hle := s.weight_simplify_le u
  cases h with
  | left _ hu => exact Nat.lt_of_lt_of_le (Expr.weight_left_lt _ _ _) (hu ▸ hle)
  | addend _ hu => exact Nat.lt_of_lt_of_le (Expr.weight_right_lt _ _ _) (hu ▸ hle)
  | subtrahend _ hu => exact Nat.lt_of_lt_of_le (Expr.weight_right_lt _ _ _) (hu ▸ hle)
  | factor _ hu => exact Nat.lt_of_lt_of_le (Expr.weight_right_lt _ _ _) (hu ▸ hle)
  | divisor _ hu => exact Nat.lt_of_lt_of_le (Expr.weight_mul_lt_div _ _ _) (hu ▸ hle)
  | exponent _ hu => exact Nat.lt_of_lt_of_le (Expr.weight_right_lt _ _ _) (hu ▸ hle)

theorem wellFounded_undoes (s : Scope K) :
    WellFounded fun p q : Expr K × Expr K => s.Undoes q.1 q.2 p.1 p.2 :=
  Subrelation.wf Undoes.weight_lt (measure fun p : Expr K × Expr K => p.1.weight).wf

theorem Undoes.exists_op {s : Scope K} {u k u' k' : Expr K} (h : s.Undoes u k u' k') :
    ∃ o l r, s.simplify u = .op o l r := by
  cases h with
  | left _ hu => exact ⟨_, _, _, hu⟩
  | addend _ hu => exact ⟨_, _, _, hu⟩
  | subtrahend _ hu => exact ⟨_, _, _, hu⟩
  | factor _ hu => exact ⟨_, _, _, hu⟩
  | divisor _ hu => exact ⟨_, _, _, hu⟩
  | exponent _ hu => exact ⟨_, _, _, hu⟩

theorem isolate_var {s : Scope K} {u k : Expr K} {v : Value K} {name : Char} {c : K}
    (hk : s.simplify k = .constant v) (hu : s.simplify u = .var name c) :
    s.isolate u k = .ok (name, v.map (· / c)) := by
  rw [isolate]
  simp only [hk]
  split <;> cases hu.symm.trans ‹_›
  rfl

/-- What holds where a variable stands alone, and before a step if it holds after it, holds of
every equation that is solved. -/
theorem isolate_induction {s : Scope K} {name : Char} {w : Value K} {P : Expr K → Expr K → Prop}
    (alone : ∀ u k c v, s.simplify k = .constant v → s.simplify u = .var name c →
      w = v.map (· / c) → P u k)
    (step : ∀ u k u' k', s.Undoes u k u' k' → s.isolate u' k' = .ok (name, w) → P u' k' → P u k)
    {u k : Expr K} (h : s.isolate u k = .ok (name, w)) : P u k := by
  fun_induction isolate s u k with
  | case1 => cases h
  | case2 u k v hk other c hu =>
    obtain ⟨rfl, rfl⟩ := Prod.mk.inj (Except.ok.inj h)
    exact alone u k c v hk hu rfl
  | case3 => cases h
  | case4 => cases h
  | case5 u k v hk o l r hu hr hl ih => exact step u k _ _ (.left hk hu hl hr) h (ih h)
  | case6 u k v hk l r hr hl hu _ ih => exact step u k _ _ (.addend hk hu hl hr) h (ih h)
  | case7 u k v hk l r hr hl hu _ ih => exact step u k _ _ (.subtrahend hk hu hl hr) h (ih h)
  | case8 u k v hk l r hr hl hu _ ih => exact step u k _ _ (.factor hk hu hl hr) h (ih h)
  | case9 u k v hk l r hr hl hu _ ih => exact step u k _ _ (.divisor hk hu hl hr) h (ih h)
  | case10 => cases h
  | case11 u k v hk l r hr hl hu base hbase _ ih =>
    exact step u k _ _ (.exponent hk hu hl hr hbase) h (ih h)
  | case12 => cases h

theorem Undoes.names_subset {s : Scope K} {u k u' k' : Expr K} (h : s.Undoes u k u' k') :
    u'.names ⊆ (s.simplify u).names := by
  cases h with
  | left _ hu => simp [hu, Expr.names]
  | addend _ hu => simp [hu, Expr.names]
  | subtrahend _ hu => simp [hu, Expr.names]
  | factor _ hu => simp [hu, Expr.names]
  | divisor _ hu => simp [hu, Expr.names]
  | exponent _ hu => simp [hu, Expr.names]

theorem mem_names_of_isolate {s : Scope K} {u k : Expr K} {name : Char} {w : Value K}
    (h : s.isolate u k = .ok (name, w)) : name ∈ u.names ∧ s.get? name = none := by
  refine isolate_induction (P := fun u _ => name ∈ u.names ∧ s.get? name = none) ?_ ?_ h
  · intro u k c v _ hu _
    exact mem_names_simplify (by simp [hu, Expr.names])
  · intro u k u' k' hstep _ ih
    exact mem_names_simplify (hstep.names_subset ih.1)

theorem mem_names_of_solve {s : Scope K} {l r : Expr K} {name : Char} {w : Value K}
    (h : s.solve l r = .ok (name, w)) :
    (name ∈ l.names ∨ name ∈ r.names) ∧ s.get? name = none := by
  unfold solve at h
  simp only at h
  split at h
  · have hh := mem_names_simplify (mem_names_of_isolate h).1
    exact ⟨.inl hh.1, hh.2⟩
  · have hh := mem_names_simplify (mem_names_of_isolate h).1
    exact ⟨.inr hh.1, hh.2⟩
  · cases h
  · cases h

end Scope
end ComplexAlgebra
